import PowerAsm.Instruction.Parser

/-! Encoding an instruction that is given as text. -/
namespace PowerAsm

/-- Why an instruction has no word. -/
inductive StatementError where
  | unknownMnemonic (op : Text)
  /-- The operands have none of the shapes that the mnemonic accepts. -/
  | operands (mnemonic : Mnemonic) (given : List Operand)
  | fault (f : Fault)
deriving Repr

namespace StatementError

/-- Operand kinds in parentheses. -/
def kindList (kinds : List OperandKind) : Text :=
  "(" ++ Text.join ", " (kinds.map OperandKind.name) ++ ")"

def message? : StatementError → Option Text
  | .unknownMnemonic op => some ("unknown mnemonic " ++ op.quoted)
  | .operands m given =>
    some (m.name ++ ": operands " ++ kindList (given.map Operand.kind) ++ " do not match "
      ++ Text.join " or " (m.shapes.map fun types => kindList (types.map OperandType.kind)))
  | .fault f => f.message?

end StatementError

/-- The word of an instruction that is to stand at `pc`. -/
def Instruction.encode (i : Instruction) (pc : Int64) : Except StatementError Word :=
  match Mnemonic.ofName? i.op with
  | none => .error (.unknownMnemonic i.op)
  | some m =>
    match m.encode? i.operands pc with
    | none => .error (.operands m i.operands)
    | some word => word.mapError .fault

end PowerAsm
