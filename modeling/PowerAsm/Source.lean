import PowerAsm.Assembler.Basic
import PowerAsm.Instruction.Statement
import PowerAsm.Listing
import PowerAsm.Text.Line

/-! Assembling source text: one instruction to a line, comments from a hash sign to the
end of the line, blank lines between. -/
namespace PowerAsm
open Numeral

namespace Asm

/-- The word of an instruction given as text, written at the end of the code. Nothing
is written when there is none. -/
def statement (i : Instruction) (pc : Int64) : EStateM StatementError Assembly Unit := fun a =>
  match i.encode pc with
  | .error e => .error e a
  | .ok w =>
    match emit w a with
    | .ok () a => .ok () a
    | .error fault a => .error (.fault fault) a

end Asm

/-- Why a line of source cannot be assembled. -/
inductive LineError where
  | parse (e : ParseError)
  | statement (e : StatementError)

def LineError.message? : LineError → Option Text
  | .parse e => some e.message
  | .statement e => e.message?

/-- Why source cannot be assembled. -/
inductive SourceError where
  | line (number : Nat) (e : LineError)
  /-- A line does not fit the reading buffer. -/
  | tooLong

def SourceError.message? : SourceError → Option Text
  | .line number e => e.message?.map fun m => "line " ++ decimal number ++ ": " ++ m
  | .tooLong => some "bufio.Scanner: token too long"

namespace Source

/-- A line up to the hash sign that starts a comment. -/
def withoutComment (line : Text) : Text := line.takeWhile (· != .char '#')

/-- Assembles one instruction at the current offset of code that is loaded at `base`. -/
def assembleLine (base : Int64) (line : Text) : EStateM LineError Assembly Unit := fun a =>
  match Instruction.parse line with
  | .error e => .error (.parse e) a
  | .ok i =>
    match Asm.statement i (base + a.assembler.buffer.length a.segment) a with
    | .ok () a => .ok () a
    | .error e a => .error (.statement e) a

/-- Assembles lines, the first of which has this number. -/
def assembleLines (base : Int64) : Nat → List (Option (List UInt8)) →
    EStateM SourceError Assembly Unit
  | _, [] => fun a => .ok () a
  | _, none :: _ => fun a => .error .tooLong a
  | number, some bytes :: rest => fun a =>
    let line := withoutComment (Text.ofUtf8 bytes)
    if line.trim.isEmpty then assembleLines base (number + 1) rest a
    else
      match assembleLine base line a with
      | .ok () a => assembleLines base (number + 1) rest a
      | .error e a => .error (.line number e) a

/-- Assembles source that is loaded at `base`. What comes before a fault stays written. -/
def assemble (base : Int64) (source : List UInt8) : EStateM SourceError Assembly Unit :=
  assembleLines base 1 (Line.split source)

end Source
end PowerAsm
