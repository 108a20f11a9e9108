import PowerAsm.Instruction.Basic
import PowerAsm.Text.Blank
import PowerAsm.Text.Quoted

/-! Reading an instruction in assembler syntax: a mnemonic, a blank or tab, and
operands with commas between them. -/
namespace PowerAsm

/-- Why a text is no operand. -/
inductive OperandError where
  | missing
  | memory (text : Text)
  | register (text : Text)
  | immediate (text : Text)
deriving DecidableEq, Repr

def OperandError.message : OperandError → Text
  | .missing => "missing operand"
  | .memory t => "invalid memory operand " ++ t.quoted
  | .register t => "invalid register " ++ t.quoted
  | .immediate t => "invalid immediate " ++ t.quoted

/-- Why a text is no instruction. -/
inductive ParseError where
  | empty
  | operand (op : Text) (e : OperandError)
deriving DecidableEq, Repr

def ParseError.message : ParseError → Text
  | .empty => "empty instruction"
  | .operand op e => op ++ ": " ++ e.message

namespace Operand

/-- The number of a register, written after the letters of its file. -/
def parseRegister (letters : String) (last : Int) (t : Text) : Except OperandError Int64 :=
  let mark := Text.ofString letters
  match Numeral.readDecimal? (t.drop mark.length) with
  | some n =>
    if mark.isPrefixOf t ∧ 0 ≤ n ∧ n ≤ last then .ok (Int64.ofInt n) else .error (.register t)
  | none => .error (.register t)

/-- A number; no text at all is zero. -/
def parseImmediate (t : Text) : Except OperandError Int64 :=
  if t.isEmpty then .ok 0
  else
    match Numeral.read t with
    | .ok v => .ok v
    | .error _ => .error (.immediate t)

/-- A displacement and a base register in parentheses; `t` ends in the closing one. -/
def parseMemory (t : Text) : Except OperandError Operand :=
  match t.cutAt (· == .char '(') with
  | (_, none) => .error (.memory t)
  | (displacement, some rest) => do
    let disp ← parseImmediate displacement
    let base ← parseRegister "r" 31 rest.dropLast
    return .memory disp base

/-- One operand, without blanks around it. -/
def parse (t : Text) : Except OperandError Operand :=
  if t.isEmpty then .error .missing
  else if t.getLast? = some (.char ')') then parseMemory t
  else if (Text.ofString "cr").isPrefixOf t then return .conditionField (← parseRegister "cr" 7 t)
  else if (Text.ofString "r").isPrefixOf t then return .register (← parseRegister "r" 31 t)
  else if (Text.ofString "f").isPrefixOf t then return .floatRegister (← parseRegister "f" 31 t)
  else return .immediate (← parseImmediate t)

/-- A number in the last place of a branch is the address it leads to. -/
def asTarget : Operand → Operand
  | .immediate v => .target v
  | o => o

end Operand

namespace Instruction

/-- Whether the last operand of a mnemonic is the address it leads to. -/
def isBranch (op : Text) : Bool := (Mnemonic.ofName? op).any Mnemonic.leadsTo

/-- The operand list with `f` applied to the last operand. -/
def modifyLast (f : Operand → Operand) (operands : List Operand) : List Operand :=
  operands.dropLast ++ operands.getLast?.toList.map f

/-- The end of a mnemonic. -/
def isGap (g : Glyph) : Bool := g == .char ' ' || g == .char '\t'

/-- Reads an instruction. -/
def parse (t : Text) : Except ParseError Instruction := do
  let t := t.trim
  if t.isEmpty then throw .empty
  let (op, rest) := t.cutAt isGap
  let rest := (rest.getD []).trim
  if rest.isEmpty then return written op []
  let fields := rest.splitAt (· == .char ',')
  let operands ← (fields.mapM fun field => Operand.parse field.trim).mapError (.operand op)
  return written op (if isBranch op then modifyLast Operand.asTarget operands else operands)

end Instruction
end PowerAsm
