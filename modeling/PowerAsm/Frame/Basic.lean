import PowerAsm.Address
import PowerAsm.Target

/-! Activation frames under construction. Requests are counted until the prolog is
emitted; from then on the layout is frozen and every request fails.

A frame holds, from the stack pointer upward: the link area, the parameter area, the
locals, and the save areas of the volatile registers, the condition register, the
general registers and the floating point registers. On 64 bits the condition register
is saved in the link area of the caller instead. -/
namespace PowerAsm

structure Frame where
  target : Target
  params : Nat
  locals : Nat
  crFields : Nat
  gprs : Nat
  fprs : Nat
  preserveVolatiles : Bool
  frozen : Bool
deriving DecidableEq, Repr

namespace Frame

/-- A frame without any requests. -/
def empty (target : Target) : Frame := ⟨target, 0, 0, 0, 0, 0, false, false⟩

/-- r14 to r31. -/
def maxGprs : Nat := 18

/-- f14 to f31. -/
def maxFprs : Nat := 18

/-- cr2 to cr4. -/
def maxCrFields : Nat := 3

/-- The size of a saved floating point register. -/
def fprSize : Nat := 8

/-- f0 to f13. -/
def volatileFprs : Nat := 14

/-- r3 to r12, which are saved in one block. -/
def volatileGprs : Nat := 10

/-! ### Size -/

def paramWords (f : Frame) : Nat := max f.params f.target.minParamWords

/-- The words that a saved floating point register takes. -/
def fprWords (f : Frame) : Nat := fprSize / f.target.wordSize

/-- The words of the volatile save area: r0, r3 to r12, the count register, f0 to f13. -/
def volatileWords (f : Frame) : Nat :=
  if f.preserveVolatiles then 1 + volatileGprs + 1 + volatileFprs * f.fprWords else 0

/-- The words that the condition register takes in the frame itself. -/
def crWords (f : Frame) : Nat :=
  if 0 < f.crFields ∧ f.target.crSaveWord?.isNone then 1 else 0

/-- The size in bytes without padding. -/
def unalignedSize (f : Frame) : Nat :=
  (f.target.linkAreaWords + f.paramWords + f.locals + f.volatileWords + f.crWords + f.gprs
    + f.fprs * f.fprWords) * f.target.wordSize

/-- The bytes that make the size a multiple of the stack alignment. -/
def padding (f : Frame) : Nat :=
  (f.target.stackAlignment - f.unalignedSize % f.target.stackAlignment) % f.target.stackAlignment

/-- The size in bytes: the least multiple of the stack alignment that holds the frame. -/
def size (f : Frame) : Nat := f.unalignedSize + f.padding

/-! ### Requests -/

/-- Refuses requests to a frame whose layout is frozen. -/
def checkOpen (f : Frame) (request : Request) : Except Misuse Unit :=
  if f.frozen then .error (.frozenFrame request) else .ok ()

/-- The address of a word of the frame. -/
def slot (f : Frame) (index : Nat) : Address :=
  .onStack (Int64.ofNat (index * f.target.wordSize))

/-- Reserves the next word of the parameter area. Parameters come before locals. -/
def parameterSlot (f : Frame) : Except Misuse (Address × Frame) := do
  f.checkOpen .parameterSlot
  if 0 < f.locals then throw (.lateParameter f.locals)
  return (f.slot (f.target.linkAreaWords + f.params), { f with params := f.params + 1 })

/-- Reserves the next word of local variable space, above the whole parameter area. -/
def localSlot (f : Frame) : Except Misuse (Address × Frame) := do
  f.checkOpen .localSlot
  return (f.slot (f.target.linkAreaWords + f.paramWords + f.locals),
    { f with params := f.paramWords, locals := f.locals + 1 })

/-- Reserves a non-volatile condition field, from cr4 down to cr2. -/
def conditionField (f : Frame) : Except Misuse (CrField × Frame) := do
  f.checkOpen .conditionField
  if maxCrFields ≤ f.crFields then throw (.exhausted .conditionField)
  return (⟨Int8.ofNat (4 - f.crFields)⟩, { f with crFields := f.crFields + 1 })

/-- Reserves a non-volatile general register, from r31 down to r14. -/
def generalRegister (f : Frame) : Except Misuse (Gpr × Frame) := do
  f.checkOpen .generalRegister
  if maxGprs ≤ f.gprs then throw (.exhausted .generalRegister)
  return (⟨Int8.ofNat (31 - f.gprs)⟩, { f with gprs := f.gprs + 1 })

/-- Reserves a non-volatile floating point register, from f31 down to f14. -/
def floatRegister (f : Frame) : Except Misuse (Fpr × Frame) := do
  f.checkOpen .floatRegister
  if maxFprs ≤ f.fprs then throw (.exhausted .floatRegister)
  return (⟨Int8.ofNat (31 - f.fprs)⟩, { f with fprs := f.fprs + 1 })

/-- Makes the frame save all volatile registers. -/
def saveVolatiles (f : Frame) : Except Misuse (Unit × Frame) := do
  f.checkOpen .volatileArea
  return ((), { f with preserveVolatiles := true })

end Frame
end PowerAsm
