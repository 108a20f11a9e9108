import PowerAsm.Assembler.Sized

/-! Operations that are written as several instructions, or as one with operands
worked out here. -/
namespace PowerAsm.Asm

/-- Refuses an instruction that cannot be encoded. -/
def refuse {α : Type} (op : String) (problem : EncodingProblem) : Asm α :=
  throw (.encoding ⟨op, problem⟩)

/-- An address whose base can serve as one. -/
def address (base : Gpr) (displacement : Int64) : Asm Address :=
  MonadExcept.ofExcept ((Address.checked base displacement).mapError .encoding)

/-- Loads an address. -/
def loadAddress (rt : Gpr) (a : Address) : Asm Unit :=
  instr .addi (rt, a.base, a.displacement, ())

/-- Subtracts a number. -/
def subtractImmediate (rt ra : Gpr) (si : Int64) : Asm Unit := instr .addi (rt, ra, -si, ())

/-- Loads a byte at an indexed address as a signed number. -/
def loadByteAlgebraicIndexed (rt ra rb : Gpr) : Asm Unit := do
  instr .lbzx (rt, ra, rb, ())
  instr .extsb (rt, rt, ())

/-- Loads a halfword at an indexed address as a signed number. -/
def loadHalfAlgebraicIndexed (rt ra rb : Gpr) : Asm Unit := do
  instr .lhzx (rt, ra, rb, ())
  instr .extsh (rt, rt, ())

/-- Moves the address of the next instruction to the link register. The branch has the
form that does not disturb the prediction of returns. -/
def nextAddressToLink : Asm Unit := instr .bcl (branchAlways, 31, 4, ())

/-- Adds a number to a register that is zero in these bits, if there is one to add. -/
def orUnlessZero (op : Opcode) (args : Gpr → Int64 → Args op.operands) (rt : Gpr) (v : Int64) :
    Asm Unit :=
  if v = 0 then pure () else instr op (args rt v)

/-- Sets the low halfword of a register in which it is zero. -/
def setLow (rt : Gpr) (v : Int64) : Asm Unit :=
  orUnlessZero .ori (fun r v => (r, r, v, ())) rt v

/-- Sets the halfword above the lowest of a register in which it is zero. -/
def setNext (rt : Gpr) (v : Int64) : Asm Unit :=
  orUnlessZero .oris (fun r v => (r, r, v, ())) rt v

/-- A halfword as a signed number. -/
def signedHalf (v : Int64) : Int64 := v.toInt16.toInt64

/-- Loads the two upper halfwords of a doubleword into the low word of a register. -/
def loadUpper (rt : Gpr) (q3 q2 : Int64) : Asm Unit := do
  if q3 ≠ 0 then
    short .lis (rt, signedHalf q3, ())
    setLow rt q2
  else if q2 < 0x8000 then
    short .li (rt, q2, ())
  else
    short .li (rt, 0, ())
    instr .ori (rt, rt, q2, ())

/-- Loads a doubleword that no two instructions can load. -/
def loadWide (rt : Gpr) (v : Int64) : Asm Unit := do
  let q3 := v >>> 48 &&& 0xFFFF
  let q2 := v >>> 32 &&& 0xFFFF
  let q1 := v >>> 16 &&& 0xFFFF
  let q0 := v &&& 0xFFFF
  if q3 = 0 ∧ q2 = 0 then
    short .li (rt, 0, ())
    instr .oris (rt, rt, q1, ())
    setLow rt q0
  else
    loadUpper rt q3 q2
    short .sldi (rt, rt, 32, ())
    setNext rt q1
    setLow rt q0

/-- Loads any constant. On 32 bits only its low word counts. -/
def loadConst (rt : Gpr) (v : Int64) : Asm Unit := do
  let v := (← target).choose v.toInt32.toInt64 v
  if fitsSigned v 16 then
    short .li (rt, v, ())
  else if fitsSigned v 32 then
    short .lis (rt, signedHalf (v >>> 16), ())
    setLow rt (v &&& 0xFFFF)
  else loadWide rt v

/-- Replaces the word at `dest` by `exchange` if it equals `compare`, without being
disturbed, and tells in cr0 whether it did. Changes r0. -/
def compareExchange (exchange dest compare : Gpr) : Asm Unit := do
  if exchange = .r0 ∨ dest = .r0 ∨ compare = .r0 ∨ exchange = dest ∨ exchange = compare
      ∨ dest = compare then
    throw (.misuse (.exchangeOperands exchange dest compare))
  let loop ← newLabel
  let done ← newLabel
  instr .sync ()
  bind loop
  loadReserve .r0 .r0 dest
  Asm.compare .cr0 .r0 compare
  branchIf .cr0 .ne done
  storeConditional exchange .r0 dest
  branchIf .cr0 .ne loop
  bind done
  instr .isync ()

/-- Calls through the count register. -/
def callCount (fn : Gpr) : Asm Unit := do
  short .mtctr (fn, ())
  short .bctrl ()

/-- Calls the function that `fn` points to. Where functions have descriptors `fn`
points to one, and the table of contents pointer in r2 is kept during the call. -/
def callRegister (fn : Gpr) : Asm Unit := do
  let t ← target
  match t.tocSaveOffset? with
  | none => callCount fn
  | some toc =>
    store .r2 (.onStack toc)
    load .r2 ⟨fn, Int64.ofNat t.wordSize⟩
    load .r0 ⟨fn, 0⟩
    callCount .r0
    load .r2 (.onStack toc)

/-- Calls the function at an address, which is a multiple of four. -/
def call (entry : Int64) : Asm Unit := do
  if entry.toInt % 4 ≠ 0 then refuse "call" (.misalignedEntry entry)
  let register := (← target).callRegister
  loadConst register entry
  callRegister register

/-- Writes a word that is no instruction. -/
def unimplemented : Asm Unit := emit 0

/-- Writes instructions that do nothing until the offset is a multiple of `modulus`. -/
def fillUp (modulus : Int64) : Asm Unit := fun a =>
  if a.assembler.buffer.length a.segment % modulus = 0 then .ok () a
  else
    match ran : short .nop () a with
    | .ok () b =>
      have : a.segment.size.toInt < b.segment.size.toInt := size_lt_of_emitEncoded ran
      fillUp modulus b
    | .error fault b => .error fault b
termination_by a => (Int64.maxValue.toInt - a.segment.size.toInt).toNat
decreasing_by
  -- Every word moves the end of the segment forward, and there is a last offset.
  have last := Int64.toInt_le b.segment.size
  omega

/-- Fills up with instructions that do nothing until the offset is a multiple of
`modulus`, which is a positive multiple of four. -/
def align (modulus : Int64) : Asm Unit := do
  if modulus ≤ 0 ∨ modulus.toInt % 4 ≠ 0 then refuse "align" (.alignment modulus)
  fillUp modulus

/-- Computes how many bytes are missing from `src` to a multiple of `align`, which is a
power of two. -/
def computePadding (dst src : Gpr) (align : Int64) : Asm Unit := do
  if align ≤ 0 ∨ align &&& (align - 1) ≠ 0 then refuse "align" (.notPowerOfTwo align)
  instr .andi (dst, src, align - 1, ())
  instr .subfic (dst, dst, align, ())
  instr .andi (dst, dst, align - 1, ())

/-- Copies a word from the old bottom of the stack to the new one. -/
def copyStackWord (scratch savedSp : Gpr) (displacement : Int64) : Asm Unit := do
  load scratch (← address savedSp displacement)
  store scratch (.onStack displacement)

/-- Extends the current frame by `required - available` bytes, rounded up to the stack
alignment, when more are required than available. The back chain, and the condition
register where the link area holds it, move along. Changes both registers. -/
def extendFrame (required available : Gpr) : Asm Unit := do
  let t ← target
  let done ← newLabel
  Asm.compare .cr0 required available
  branchIf .cr0 .le done
  short .sub (required, required, available, ())
  computePadding available required (Int64.ofNat t.stackAlignment)
  instr .add (required, required, available, ())
  short .mr (available, .sp, ())
  instr .neg (required, required, ())
  storeUpdateIndexed .sp .sp required
  copyStackWord required available 0
  match t.crSaveWord? with
  | some word => copyStackWord required available (Int64.ofNat (word * t.wordSize))
  | none => pure ()
  bind done

end PowerAsm.Asm
