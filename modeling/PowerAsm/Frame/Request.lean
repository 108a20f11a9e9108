/-! What a frame can be asked for while it is being laid out. -/
namespace PowerAsm.Frame

inductive Request where
  /-- The next word of the outgoing parameter area. -/
  | parameterSlot
  /-- The next word of local variable space. -/
  | localSlot
  /-- A non-volatile condition field. -/
  | conditionField
  /-- A non-volatile general register. -/
  | generalRegister
  /-- A non-volatile floating point register. -/
  | floatRegister
  /-- Room for all volatile registers. -/
  | volatileArea
deriving DecidableEq, Repr

def Request.name : Request → String
  | .parameterSlot => "parameter slot"
  | .localSlot => "local slot"
  | .conditionField => "condition field"
  | .generalRegister => "general register"
  | .floatRegister => "float register"
  | .volatileArea => "volatile save area"

end PowerAsm.Frame
