import PowerAsm.Text.Numeral

/-! The types of arguments. A wide value is followed by a placeholder for its second
half. -/
namespace PowerAsm
open Numeral

inductive ArgType where
  /-- An integer of at most 32 bits. -/
  | int
  | pointer
  /-- A 64-bit integer. -/
  | long
  | float
  | double
  /-- The second half of the wide value before it. -/
  | half
  /-- A number that stands for no type. -/
  | unknown (code : UInt8)
deriving DecidableEq, Repr

namespace ArgType

def ofCode (n : UInt8) : ArgType :=
  match n.toNat with
  | 0 => .int
  | 1 => .pointer
  | 2 => .long
  | 3 => .float
  | 4 => .double
  | 5 => .half
  | _ => .unknown n

def name : ArgType → Text
  | .int => "int"
  | .pointer => "pointer"
  | .long => "long"
  | .float => "float"
  | .double => "double"
  | .half => "half"
  | .unknown n => "argtype(" ++ decimal n.toNat ++ ")"

/-- Whether a placeholder for the second half follows. -/
def isWide (t : ArgType) : Bool := t = .long || t = .double

end ArgType
end PowerAsm
