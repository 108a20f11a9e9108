import PowerAsm.Assembler.Label
import PowerAsm.Assembler.Log
import PowerAsm.Command.Usage
import PowerAsm.Release
import PowerAsm.Source

/-! The commands. A command is a chain of steps that ends in a report; reading and
writing files is left to whoever runs it. -/
namespace PowerAsm.Command

/-- What a command leaves behind. -/
structure Report where
  exitCode : UInt8
  output : List UInt8
  diagnostics : Text

/-- A command at work. A file that cannot be read or written is told by a text. -/
inductive Step where
  | finished (r : Report)
  | readFile (path : Text) (next : Except Text (List UInt8) → Step)
  | writeFile (path : Text) (content : List UInt8) (next : Except Text Unit → Step)

/-- A command that failed, or that only explained itself. -/
def stop (exitCode : UInt8) (diagnostics : Text) : Step := .finished ⟨exitCode, [], diagnostics⟩

/-- Lines as bytes, each with its line feed. -/
def listing (lines : List Text) : List UInt8 := lines.flatMap fun l => Text.utf8 (l ++ "\n")

/-- What is printed when flags cannot be read; asking for the list of flags is no
failure. -/
def stopAtFlags {σ : Type} (program : String) (flags : List (Flag σ)) (e : FlagError) : Step :=
  stop (match e with | .help => 0 | _ => 2) (flagReport program flags e)

/-- The code that source stands for, or why there is none, with the log of the words
that were written. -/
def assembleSource (o : AsmOptions) (target : Target) (source : List UInt8) :
    Except Text (List UInt8) × List Event :=
  match Source.assemble o.code.base source (.fresh target o.code.order) with
  | .error e a => (.error (e.message?.getD []), a.assembler.log.toList)
  | .ok () a =>
    match Asm.finalize a with
    | .ok code a => (.ok code, a.assembler.log.toList)
    | .error fault a => (.error (fault.message?.getD []), a.assembler.log.toList)

/-- What goes to the standard output: the code, or its listing on a terminal. -/
def codeOutput (e : Environment) (o : AsmOptions) (code : List UInt8) : List UInt8 :=
  if e.terminal then
    match Listing.disassemble o.code.order o.code.base code with
    | .ok lines => listing lines
    | .error _ => []
  else code

/-- Assembles the source file. -/
def assembleFile (e : Environment) (o : AsmOptions) (target : Target) (path : Text) : Step :=
  .readFile path fun
    | .error message => stop 1 ("error reading assembly file: " ++ message ++ "\n")
    | .ok source =>
      let (result, events) := assembleSource o target source
      let log := if o.verbose then Event.logText o.code.order o.code.base events else []
      match result with
      | .error message => stop 1 (log ++ "error assembling: " ++ message ++ "\n")
      | .ok code =>
        if o.output.isEmpty then .finished ⟨0, codeOutput e o code, log⟩
        else
          .writeFile o.output code fun
            | .ok () => .finished ⟨0, [], log⟩
            | .error message => stop 1 (log ++ "error writing output: " ++ message ++ "\n")

/-- The command that assembles. -/
def asm (e : Environment) (args : List Text) : Step :=
  match readFlags (asmFlags e) (.initial e) args with
  | .error error => stopAtFlags "asm" (asmFlags e) error
  | .ok (o, operands) =>
    if o.code.help then stop 0 (asmUsage e)
    else
      match operands with
      | [] => stop 1 ("missing path to assembly file\n" ++ asmUsage e)
      | path :: _ =>
        match Target.ofName? o.target.toString with
        | none => stop 1 ("invalid target: " ++ o.target.quoted ++ "\n")
        | some target => assembleFile e o target path

/-- Disassembles the code file. -/
def disassembleFile (o : DisOptions) (path : Text) : Step :=
  .readFile path fun
    | .error message => stop 1 ("error reading code file: " ++ message ++ "\n")
    | .ok code =>
      let result :=
        if o.goSyntax then Listing.disassembleGo o.code.order o.code.base code
        else Listing.disassemble o.code.order o.code.base code
      match result with
      | .ok lines => .finished ⟨0, listing lines, []⟩
      | .error error => stop 1 ("error disassembling: " ++ error.message ++ "\n")

/-- The command that disassembles. -/
def dis (e : Environment) (args : List Text) : Step :=
  match readFlags (disFlags e) (.initial e) args with
  | .error error => stopAtFlags "dis" (disFlags e) error
  | .ok (o, operands) =>
    if o.code.help then stop 0 (disUsage e)
    else
      match operands with
      | [] => stop 1 ("missing path to code file\n" ++ disUsage e)
      | path :: _ => disassembleFile o path

/-- The program, called with these arguments. -/
def run (e : Environment) (args : List Text) : Step :=
  match readFlags programFlags false args with
  | .error error => stopAtFlags "ppcasm" programFlags error
  | .ok (true, _) | .ok (_, []) => stop 0 programUsage
  | .ok (false, command :: args) =>
    if command = ("asm" : Text) then asm e args
    else if command = ("dis" : Text) then dis e args
    else if command = ("version" : Text) then
      .finished ⟨0, Text.utf8 (Release.unversioned ++ "\n"), []⟩
    else stop 1 ("invalid command\n" ++ programUsage)

end PowerAsm.Command
