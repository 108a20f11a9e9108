import PowerAsm.Instruction.Alias

/-! Mnemonics: everything that can stand at the start of a line of source. -/
namespace PowerAsm

inductive Mnemonic where
  /-- The directive for a word given as a number. -/
  | word
  | base (op : Opcode)
  | short (a : Alias)
deriving DecidableEq, Repr

namespace Mnemonic

def all : List Mnemonic := .word :: (Opcode.all.map .base ++ Alias.all.map .short)

def name : Mnemonic → String
  | .word => ".long"
  | .base op => op.name
  | .short a => a.name

def ofName? (t : Text) : Option Mnemonic := all.find? (Text.ofString ·.name == t)

/-- The types of all operands. -/
def operands : Mnemonic → List OperandType
  | .word => [.immediate]
  | .base op => op.operands
  | .short a => a.operands

/-- The operand lists that are accepted. -/
def shapes : Mnemonic → List (List OperandType)
  | .short a => a.shapes
  | m => [m.operands]

/-- Whether the last operand is the address a branch leads to. -/
def leadsTo (m : Mnemonic) : Bool := m.operands.getLast? == some .target

/-- The word of a line of source at `pc`, if its operands have one of the accepted
shapes. -/
def encode? (m : Mnemonic) (operands : List Operand) (pc : Int64) :
    Option (Except Fault Word) :=
  match m with
  | .word =>
    (Args.ofOperands? [.immediate] operands).map fun (v, ()) =>
      if fitsUnsigned v 32 then .ok (BitVec.ofInt 32 v.toInt)
      else .error (.encoding ⟨m.name, .width "value" v 32 false⟩)
  | .base op => (Args.ofOperands? op.operands operands).map (op.encode · pc)
  | .short a => (Args.ofOperands? a.operands (a.complete operands)).map (a.encode · pc)

end Mnemonic
end PowerAsm
