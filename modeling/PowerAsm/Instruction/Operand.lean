import PowerAsm.Address

/-! Operands as they are written. An operand keeps the number it was written with,
also one that no register has; `OperandType` says which of them an instruction takes
and what it makes of them. -/
namespace PowerAsm
open Numeral

/-- What an operand is, without its value. -/
inductive OperandKind where
  | register
  | floatRegister
  | conditionField
  | immediate
  | memory
  | target
  /-- No operand that an instruction takes. -/
  | other (code : UInt8)
deriving DecidableEq, Repr

namespace OperandKind

/-- The number by which the kind is known to callers. -/
def code : OperandKind → UInt8
  | .register => 1
  | .floatRegister => 2
  | .conditionField => 3
  | .immediate => 4
  | .memory => 5
  | .target => 6
  | .other n => n

def ofCode (n : UInt8) : OperandKind :=
  match n.toNat with
  | 1 => .register
  | 2 => .floatRegister
  | 3 => .conditionField
  | 4 => .immediate
  | 5 => .memory
  | 6 => .target
  | _ => .other n

def name : OperandKind → Text
  | .register => "register"
  | .floatRegister => "float register"
  | .conditionField => "condition register"
  | .immediate => "immediate"
  | .memory => "memory"
  | .target => "branch target"
  | .other n => if n = 0 then "none" else "argkind(" ++ decimal n.toNat ++ ")"

end OperandKind

/-- An operand of an instruction. -/
inductive Operand where
  | register (number : Int64)
  | floatRegister (number : Int64)
  | conditionField (number : Int64)
  /-- A number: an immediate, a shift amount, a mask, a special register. -/
  | immediate (value : Int64)
  | memory (displacement base : Int64)
  /-- The address a branch leads to. -/
  | target (address : Int64)
  | other (code : UInt8)
deriving DecidableEq, Repr

namespace Operand

def kind : Operand → OperandKind
  | .register _ => .register
  | .floatRegister _ => .floatRegister
  | .conditionField _ => .conditionField
  | .immediate _ => .immediate
  | .memory _ _ => .memory
  | .target _ => .target
  | .other n => .other n

def text : Operand → Text
  | .register n => "r" ++ decimal n.toInt
  | .floatRegister n => "f" ++ decimal n.toInt
  | .conditionField n => "cr" ++ decimal n.toInt
  | .immediate v => decimal v.toInt
  | .memory disp base => decimal disp.toInt ++ "(r" ++ decimal base.toInt ++ ")"
  | .target address => hexadecimal address.toInt
  | .other _ => "?"

end Operand

/-- What an instruction takes in one place of its operand list. -/
inductive OperandType where
  | gpr
  /-- A general register whose number is not cut to the size of a register number. -/
  | wideGpr
  | fpr
  | crField
  | immediate
  | spr
  | memory
  | target
deriving DecidableEq, Repr

namespace OperandType

@[reducible] def Value : OperandType → Type
  | .gpr => Gpr
  | .wideGpr => Int64
  | .fpr => Fpr
  | .crField => CrField
  | .immediate => Int64
  | .spr => Spr
  | .memory => Address
  | .target => Int64

def kind : OperandType → OperandKind
  | .gpr | .wideGpr => .register
  | .fpr => .floatRegister
  | .crField => .conditionField
  | .immediate | .spr => .immediate
  | .memory => .memory
  | .target => .target

/-- The value of an operand of the right kind. -/
def read? : (t : OperandType) → Operand → Option t.Value
  | .gpr, .register n => some (Gpr.ofCode n)
  | .wideGpr, .register n => some n
  | .fpr, .floatRegister n => some (Fpr.ofCode n)
  | .crField, .conditionField n => some (CrField.ofCode n)
  | .immediate, .immediate v => some v
  | .spr, .immediate v => some (Spr.ofCode v)
  | .memory, .memory disp base => some ⟨Gpr.ofCode base, disp⟩
  | .target, .target address => some address
  | _, _ => none

def write : (t : OperandType) → t.Value → Operand
  | .gpr, r => .register r.code
  | .wideGpr, n => .register n
  | .fpr, f => .floatRegister f.code
  | .crField, c => .conditionField c.code
  | .immediate, v => .immediate v
  | .spr, s => .immediate s.code
  | .memory, a => .memory a.displacement a.base.code
  | .target, address => .target address

end OperandType

/-- The values of an operand list, one for each type. -/
@[reducible] def Args : List OperandType → Type
  | [] => Unit
  | t :: ts => t.Value × Args ts

namespace Args

/-- The values of the operands, if they are as many as the types and of their kinds. -/
def ofOperands? : (types : List OperandType) → List Operand → Option (Args types)
  | [], [] => some ()
  | t :: ts, o :: os =>
    match t.read? o, ofOperands? ts os with
    | some v, some vs => some (v, vs)
    | _, _ => none
  | _, _ => none

def toOperands : (types : List OperandType) → Args types → List Operand
  | [], () => []
  | t :: ts, (v, vs) => t.write v :: toOperands ts vs

end Args
end PowerAsm
