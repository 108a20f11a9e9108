import PowerAsm.Text.Blank
import PowerAsm.Text.Quoted

/-! Command line flags. A flag is given as `-name` or `--name`; its value follows after
an equals sign or, unless the flag is a switch, as the next argument. Flags end at the
first argument that is none, or after `--`. -/
namespace PowerAsm.Command
open Numeral

/-- What a flag changes in the options `σ`. -/
inductive FlagSetter (σ : Type) where
  | switch (set : Bool → σ → σ)
  | number (set : Int64 → σ → σ)
  | text (set : Text → σ → σ)

structure Flag (σ : Type) where
  name : String
  /-- What the list of flags says of it. -/
  description : String
  /-- The default, if the list of flags shows it. -/
  shownDefault : Option Text
  setter : FlagSetter σ

/-- Why flags cannot be read. -/
inductive FlagError where
  /-- The list of flags was asked for. -/
  | help
  | badSyntax (arg : Text)
  | undefined (name : Text)
  | missingValue (name : Text)
  | invalidSwitch (value name : Text)
  | invalidNumber (value name : Text) (problem : Problem)

def FlagError.message? : FlagError → Option Text
  | .help => none
  | .badSyntax arg => some ("bad flag syntax: " ++ arg)
  | .undefined name => some ("flag provided but not defined: -" ++ name)
  | .missingValue name => some ("flag needs an argument: -" ++ name)
  | .invalidSwitch value name =>
    some ("invalid boolean value " ++ value.quoted ++ " for -" ++ name ++ ": parse error")
  | .invalidNumber value name problem =>
    some ("invalid value " ++ value.quoted ++ " for flag -" ++ name ++ ": " ++ (match problem with
      | .malformed => "parse error"
      | .outOfRange => "value out of range"))

/-- What an argument is. -/
inductive ArgumentKind where
  | operand
  | terminator
  | malformed
  | flag (name : Text) (value : Option Text)

/-- An argument without its dashes. -/
def namedFlag (name : Text) : ArgumentKind :=
  match name with
  | [] => .malformed
  | first :: _ =>
    if first = .char '-' ∨ first = .char '=' then .malformed
    else
      let (name, value) := name.cutAt (· == .char '=')
      .flag name value

def classify : Text → ArgumentKind
  | [.char '-', .char '-'] => .terminator
  | .char '-' :: .char '-' :: name => namedFlag name
  | .char '-' :: g :: name => namedFlag (g :: name)
  | _ => .operand

/-- The value of a switch. -/
def switchValue? (t : Text) : Option Bool :=
  if ["1", "t", "T", "true", "TRUE", "True"].any (Text.ofString · == t) then some true
  else if ["0", "f", "F", "false", "FALSE", "False"].any (Text.ofString · == t) then some false
  else none

/-- The options with the value of a flag set. -/
def FlagSetter.apply {σ : Type} (setter : FlagSetter σ) (name value : Text) (options : σ) :
    Except FlagError σ :=
  match setter with
  | .switch set =>
    match switchValue? value with
    | some b => .ok (set b options)
    | none => .error (.invalidSwitch value name)
  | .number set =>
    match Numeral.read value with
    | .ok v => .ok (set v options)
    | .error problem => .error (.invalidNumber value name problem)
  | .text set => .ok (set value options)

/-- Whether a flag stands without a value. -/
def FlagSetter.isSwitch {σ : Type} : FlagSetter σ → Bool
  | .switch _ => true
  | _ => false

/-- Reads flags, and returns the options with the arguments that follow. A flag given
twice has its last value. -/
def readFlags {σ : Type} (flags : List (Flag σ)) : σ → List Text →
    Except FlagError (σ × List Text)
  | options, [] => .ok (options, [])
  | options, arg :: rest =>
    match classify arg with
    | .operand => .ok (options, arg :: rest)
    | .terminator => .ok (options, rest)
    | .malformed => .error (.badSyntax arg)
    | .flag name value =>
      match flags.find? (Text.ofString ·.name == name) with
      | none => .error (if name = ("help" : Text) then .help else .undefined name)
      | some flag =>
        match value, flag.setter.isSwitch, rest with
        | some value, _, rest => do readFlags flags (← flag.setter.apply name value options) rest
        | none, true, rest => do readFlags flags (← flag.setter.apply name "true" options) rest
        | none, false, [] => .error (.missingValue name)
        | none, false, value :: rest => do
          readFlags flags (← flag.setter.apply name value options) rest

/-- The line of a flag in the list of flags, with the line feed. -/
def Flag.line {σ : Type} (flag : Flag σ) : Text :=
  let head := "  -" ++ flag.name ++ (match flag.setter with
    | .switch _ => ""
    | .number _ => " int"
    | .text _ => " string")
  Text.ofString head ++ (if head.length ≤ 4 then "\t" else "\n    \t") ++ flag.description
    ++ (match flag.shownDefault with
      | some t => " (default " ++ t ++ ")"
      | none => "") ++ "\n"

/-- The list of flags. -/
def flagList {σ : Type} (flags : List (Flag σ)) : Text := flags.flatMap Flag.line

/-- What is printed when flags cannot be read. -/
def flagReport {σ : Type} (program : String) (flags : List (Flag σ)) (e : FlagError) : Text :=
  (match e.message? with
    | some m => m ++ "\n"
    | none => []) ++ "Usage of " ++ program ++ ":\n" ++ flagList flags

end PowerAsm.Command
