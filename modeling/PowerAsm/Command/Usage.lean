import PowerAsm.Command.Flag
import PowerAsm.Target
import PowerAsm.Word

/-! The options of the commands, and the texts that explain them. -/
namespace PowerAsm.Command

/-- What the surroundings of the program provide. -/
structure Environment where
  /-- The default target, if one is set. -/
  target : Option Text
  /-- The default byte order, if one is set. -/
  littleEndian : Option Text
  /-- Whether the standard output is a terminal. -/
  terminal : Bool

/-- The words that turn a setting on, besides `1`. -/
def affirmatives : List String :=
  ["t", "y", "true", "yes", "enable", "enabled", "positive", "affirmative", "absolutely"]

/-- Whether a setting is turned on: each of the words counts in lower case, with a
capital letter, and in upper case. -/
def isAffirmative (t : Text) : Bool :=
  t == Text.ofString "1" || affirmatives.any fun word =>
    [word, word.capitalize, word.toUpper].any (Text.ofString · == t)

namespace Environment

/-- The default target. An empty setting counts as none. -/
def defaultTarget (e : Environment) : Text :=
  match e.target with
  | some t => if t.isEmpty then Target.ppc64.name else t
  | none => Target.ppc64.name

def defaultLittleEndian (e : Environment) : Bool := e.littleEndian.any isAffirmative

end Environment

/-- The options of all commands that work on code. -/
structure CodeOptions where
  help : Bool
  littleEndian : Bool
  base : Int64

def CodeOptions.order (o : CodeOptions) : ByteOrder :=
  if o.littleEndian then .little else .big

structure AsmOptions where
  code : CodeOptions
  target : Text
  verbose : Bool
  /-- The file to write, none if empty. -/
  output : Text

structure DisOptions where
  code : CodeOptions
  goSyntax : Bool

def CodeOptions.initial (e : Environment) : CodeOptions := ⟨false, e.defaultLittleEndian, 0⟩

def AsmOptions.initial (e : Environment) : AsmOptions :=
  ⟨.initial e, e.defaultTarget, false, []⟩

def DisOptions.initial (e : Environment) : DisOptions := ⟨.initial e, false⟩

/-! ### Flags -/

variable {σ : Type}

/-- The flag that asks for the usage text. -/
def helpFlag (set : Bool → σ → σ) : Flag σ := ⟨"h", "print usage", none, .switch set⟩

def baseFlag (set : Int64 → σ → σ) : Flag σ :=
  ⟨"base", "address the code is loaded at, for branch targets and listings", none, .number set⟩

def littleEndianFlag (e : Environment) (set : Bool → σ → σ) : Flag σ :=
  ⟨"le", "read and write little-endian instruction words. Defaults to $PPCASM_LITTLE_ENDIAN when set.",
    if e.defaultLittleEndian then some "true" else none, .switch set⟩

/-- The flags before the command. -/
def programFlags : List (Flag Bool) := [helpFlag fun b _ => b]

def asmFlags (e : Environment) : List (Flag AsmOptions) := [
  baseFlag fun v o => { o with code.base := v },
  helpFlag fun b o => { o with code.help := b },
  littleEndianFlag e fun b o => { o with code.littleEndian := b },
  ⟨"o", "output file. Defaults to stdout, as a listing when stdout is a terminal.", none,
    .text fun t o => { o with output := t }⟩,
  ⟨"target", "ppc32 or ppc64. Defaults to $PPCASM_TARGET when set.", some e.defaultTarget.quoted,
    .text fun t o => { o with target := t }⟩,
  ⟨"v", "log every emitted and patched word to stderr", none,
    .switch fun b o => { o with verbose := b }⟩]

def disFlags (e : Environment) : List (Flag DisOptions) := [
  baseFlag fun v o => { o with code.base := v },
  ⟨"gosyntax", "print instructions in Go assembler syntax", none,
    .switch fun b o => { o with goSyntax := b }⟩,
  helpFlag fun b o => { o with code.help := b },
  littleEndianFlag e fun b o => { o with code.littleEndian := b }]

/-! ### Texts -/

/-- Lines of text, each with its line feed. -/
def lines (ls : List String) : Text := ls.flatMap fun l => Text.ofString l ++ "\n"

def programUsage : Text := lines [
  "ppcasm CLI",
  "",
  "Usage:",
  "  ppcasm <command>",
  "",
  "Commands:",
  "  asm\t\tAssembles PowerPC instructions, one per line",
  "  dis\t\tDisassembles PowerPC instruction words",
  "  version\tDisplays the version of ppcasm CLI"]

/-- The usage text of a command. -/
def commandUsage (call : String) (flags : List (Flag σ)) : Text :=
  lines ["ppcasm CLI", "", "Usage:", "  ppcasm " ++ call, "", "Options:"] ++ flagList flags

def asmUsage (e : Environment) : Text :=
  commandUsage "asm <options> <path to assembly file>" (asmFlags e)

def disUsage (e : Environment) : Text :=
  commandUsage "dis <options> <path to code file>" (disFlags e)

end PowerAsm.Command
