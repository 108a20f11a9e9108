import PowerAsm.Instruction.GoSyntax

/-! Listings: code written out line by line, one line for each instruction word. -/
namespace PowerAsm
open Numeral

/-- The words that the bytes hold, an incomplete one at the end left out. -/
def ByteOrder.words (order : ByteOrder) : List UInt8 → List Word
  | b0 :: b1 :: b2 :: b3 :: rest => order.word b0 b1 b2 b3 :: order.words rest
  | _ => []

namespace Listing

/-- The address, the four bytes in memory order, and the instruction. -/
def line (order : ByteOrder) (pc : Int64) (w : Word) : Text :=
  Numeral.address pc.toInt ++ ":  " ++ Text.join " " ((order.bytes w).map hexByte) ++ "  "
    ++ (Instruction.decode w pc).text

/-- The address, and the instruction in Go assembler syntax. -/
def goLine (pc : Int64) (w : Word) : Text :=
  Numeral.address pc.toInt ++ ":  " ++ (GoSyntax.text? (Instruction.decode w pc)).getD []

/-- Bytes at the end of the code that make no word. -/
structure TrailingBytes where
  count : Nat
  address : Int64
deriving DecidableEq, Repr

def TrailingBytes.message (e : TrailingBytes) : Text :=
  decimal e.count ++ " trailing byte(s) at " ++ hexadecimal e.address.toInt

/-- The words with their addresses, the first one standing at `base`. -/
def placed (base : Int64) (words : List Word) : List (Int64 × Word) :=
  words.zipIdx.map fun (w, index) => (base + Int64.ofNat (4 * index), w)

/-- One line for each word of the code, which is loaded at `base`. -/
def lines (form : Int64 → Word → Text) (order : ByteOrder) (base : Int64) (code : List UInt8) :
    Except TrailingBytes (List Text) :=
  let rest := code.length % 4
  if rest = 0 then .ok ((placed base (order.words code)).map fun (pc, w) => form pc w)
  else .error ⟨rest, base + Int64.ofNat (code.length - rest)⟩

/-- The listing of code in assembler syntax. -/
def disassemble (order : ByteOrder) (base : Int64) (code : List UInt8) :
    Except TrailingBytes (List Text) :=
  lines (line order) order base code

/-- The listing of code in Go assembler syntax. -/
def disassembleGo (order : ByteOrder) (base : Int64) (code : List UInt8) :
    Except TrailingBytes (List Text) :=
  lines goLine order base code

/-- Writes lines to where there is room for only so many, all of them if there is no
limit: what was written, and whether a line was refused. -/
def deliver (room : Option Nat) (lines : List Text) : List Text × Bool :=
  match room with
  | none => (lines, false)
  | some n => (lines.take n, n < lines.length)

end Listing
end PowerAsm
