import PowerAsm.Fault

/-! Memory operands: a base register and a displacement in bytes. -/
namespace PowerAsm
open Numeral

structure Address where
  base : Gpr
  displacement : Int64
deriving DecidableEq, Repr

namespace Address

/-- An address whose base can serve as one: r0 as a base reads as the number zero. -/
def checked (base : Gpr) (displacement : Int64) : Except EncodingError Address :=
  if !base.isValid then .error ⟨"address", .invalidBase base.code⟩
  else if base = .r0 then .error ⟨"address", .zeroBase⟩
  else .ok ⟨base, displacement⟩

/-- A word of the current stack frame. -/
def onStack (displacement : Int64) : Address := ⟨.sp, displacement⟩

/-- The address `delta` bytes further on. -/
def offset (a : Address) (delta : Int64) : Address :=
  ⟨a.base, a.displacement + delta⟩

def text (a : Address) : Text :=
  decimal a.displacement.toInt ++ "(" ++ a.base.name ++ ")"

end Address
end PowerAsm
