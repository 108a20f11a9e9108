import PowerAsm.Instruction.Mnemonic

/-! Instructions as text: a mnemonic and its operands. An instruction that was decoded
also has its word and the name of the table entry that the word matched. -/
namespace PowerAsm
open Numeral

structure Instruction where
  /-- The mnemonic as it is written. -/
  op : Text
  /-- The mnemonic of the table entry that was matched, empty if there is none. -/
  base : Text
  operands : List Operand
  word : Word
deriving DecidableEq, Repr

namespace Instruction

/-- An instruction that was written and not decoded. -/
def written (op : Text) (operands : List Operand) : Instruction := ⟨op, [], operands, 0⟩

/-- Whether the word matched an entry of the instruction table. -/
def isKnown (i : Instruction) : Bool := !i.base.isEmpty

/-- A word in hexadecimal, with all its digits. -/
def wordText (w : Word) : Text := "0x" ++ zeroPadded 8 (digits 16 w.toNat)

/-- A mnemonic, and its operands with commas between them. -/
def line (op : Text) (operands : List Text) : Text :=
  if operands.isEmpty then op else op ++ " " ++ Text.join ", " operands

/-- The instruction in assembler syntax. -/
def text (i : Instruction) : Text :=
  if !i.isKnown ∧ i.op = (".long" : Text) then ".long " ++ wordText i.word
  else line i.op (i.operands.map Operand.text)

/-- Decodes the word `w`, which stands at `pc`, with the given table. A word that
matches no entry is the directive for itself. -/
def decodeWith (table : List Opcode) (w : Word) (pc : Int64) : Instruction :=
  match Instr.ofWord? table w pc with
  | none => ⟨".long", [], [.immediate (Int64.ofNat w.toNat)], w⟩
  | some i =>
    match i.simplify with
    | none => ⟨i.op.name, i.op.name, i.operands, w⟩
    | some u => ⟨u.head.name, i.op.name, u.operands, w⟩

/-- Decodes the word `w`, which stands at `pc`. -/
def decode (w : Word) (pc : Int64) : Instruction := decodeWith Opcode.all w pc

end Instruction
end PowerAsm
