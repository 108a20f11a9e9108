import PowerAsm.Branch
import PowerAsm.Instruction.Operand

/-! Operand layouts. A layout says which operands an instruction takes, in the order
in which they are written, and where they stand in the word. It is used in both
directions: `Layout.read` takes the operands out of a word, `Layout.encode` puts them
into one. -/
namespace PowerAsm

/-- The name of a layout lists its operands in written order. -/
inductive Layout where
  | nothing
  | rtRaSi
  | raRsUi
  | rtRaRb
  /-- Three registers whose numbers are not cut. -/
  | rtRaRbWide
  | raRsRb
  | rtRa
  | raRs
  | rtOnly
  | rtMem
  | ftMem
  /-- Displacements are multiples of four. -/
  | rtMemWords
  | ftRaRb
  | ftFaFb
  | ftFaFc
  | ftFb
  | crRaRb
  | crRaSi
  | crRaUi
  | crFaFb
  | boBi
  /-- A 32-bit rotate: shift amount and both mask bounds. -/
  | raRsShMbMe
  /-- A 64-bit rotate: shift amount and one mask bound. -/
  | raRsShBound
  | raRsShift32
  | raRsShift64
  | rtSpr
  | sprRs
  | maskRs
  | toRaRb
  | target
  | boBiTarget
  /-- As `boBiTarget`, with the addresses reported as they are. -/
  | boBiTargetWide
deriving DecidableEq, Repr

/-- The constant part of an instruction. -/
structure Constants where
  /-- The primary opcode. -/
  primary : Nat
  /-- The extended opcode, zero in forms that have none. -/
  extended : Nat
  /-- The lowest bit: record, or link. -/
  low : Bool
  /-- The bit that makes a comparison one of doublewords. -/
  doubleword : Bool
deriving DecidableEq, Repr

namespace Layout

def operands : Layout → List OperandType
  | .nothing => []
  | .rtRaSi | .raRsUi => [.gpr, .gpr, .immediate]
  | .rtRaRb | .raRsRb => [.gpr, .gpr, .gpr]
  | .rtRaRbWide => [.wideGpr, .wideGpr, .wideGpr]
  | .rtRa | .raRs => [.gpr, .gpr]
  | .rtOnly => [.gpr]
  | .rtMem | .rtMemWords => [.gpr, .memory]
  | .ftMem => [.fpr, .memory]
  | .ftRaRb => [.fpr, .gpr, .gpr]
  | .ftFaFb | .ftFaFc => [.fpr, .fpr, .fpr]
  | .ftFb => [.fpr, .fpr]
  | .crRaRb => [.crField, .gpr, .gpr]
  | .crRaSi | .crRaUi => [.crField, .gpr, .immediate]
  | .crFaFb => [.crField, .fpr, .fpr]
  | .boBi => [.immediate, .immediate]
  | .raRsShMbMe => [.gpr, .gpr, .immediate, .immediate, .immediate]
  | .raRsShBound => [.gpr, .gpr, .immediate, .immediate]
  | .raRsShift32 | .raRsShift64 => [.gpr, .gpr, .immediate]
  | .rtSpr => [.gpr, .spr]
  | .sprRs => [.spr, .gpr]
  | .maskRs => [.immediate, .gpr]
  | .toRaRb => [.immediate, .gpr, .gpr]
  | .target => [.target]
  | .boBiTarget | .boBiTargetWide => [.immediate, .immediate, .target]

/-- The bits in which the word of an instruction of this layout is constant. -/
def mask : Layout → Word
  | .nothing => 0xFFFFFFFF
  | .rtRaSi | .raRsUi | .rtMem | .ftMem => 0xFC000000
  | .rtMemWords | .target | .boBiTarget | .boBiTargetWide => 0xFC000003
  | .rtRaRb | .rtRaRbWide | .raRsRb | .ftRaRb | .ftFaFb | .boBi | .raRsShift32 | .rtSpr
  | .sprRs | .maskRs | .toRaRb => 0xFC0007FF
  | .rtRa | .raRs => 0xFC00FFFF
  | .rtOnly => 0xFC1FFFFF
  | .ftFb => 0xFC1F07FF
  | .ftFaFc => 0xFC00F83F
  | .crRaRb | .crFaFb => 0xFC6007FF
  | .crRaSi | .crRaUi => 0xFC600000
  | .raRsShMbMe => 0xFC000001
  | .raRsShBound => 0xFC00001D
  | .raRsShift64 => 0xFC0007FD

/-- Where the extended opcode stands. -/
def extendedLow : Layout → Nat
  | .rtMemWords => 0
  | .raRsShBound => 2
  | _ => 1

/-- The constant bits of an instruction of this layout. -/
def value (l : Layout) (k : Constants) : Word :=
  BitVec.ofNat 32 k.primary <<< 26 ||| BitVec.ofNat 32 k.extended <<< l.extendedLow |||
    Word.ofBit k.doubleword 21 ||| Word.ofBit k.low 0

/-! ### Taking operands out of a word -/

/-- The first register field of a word, and with it the condition field. -/
def fieldA (w : Word) : Int64 := w.unsigned 21 5

/-- The second register field. -/
def fieldB (w : Word) : Int64 := w.unsigned 16 5

/-- The third register field. -/
def fieldC (w : Word) : Int64 := w.unsigned 11 5

/-- A displacement in a word: the field and two zero bits, or the constant bits of the
form, which stand in their place. -/
def displacement (w : Word) (width : Nat) : Int64 := w.signed 2 width * 4

/-- The special register of a word, whose number has its two halves swapped. -/
def fieldSpr (w : Word) : Spr := .ofCode (fieldB w + 32 * fieldC w)

/-- The operands of the word `w`, which stands at `pc`. -/
def read (w : Word) (pc : Int64) : (l : Layout) → Args l.operands
  | .nothing => ()
  | .rtRaSi => (.ofCode (fieldA w), .ofCode (fieldB w), w.signed 0 16, ())
  | .raRsUi => (.ofCode (fieldB w), .ofCode (fieldA w), w.unsigned 0 16, ())
  | .rtRaRb => (.ofCode (fieldA w), .ofCode (fieldB w), .ofCode (fieldC w), ())
  | .rtRaRbWide => (fieldA w, fieldB w, fieldC w, ())
  | .raRsRb => (.ofCode (fieldB w), .ofCode (fieldA w), .ofCode (fieldC w), ())
  | .rtRa => (.ofCode (fieldA w), .ofCode (fieldB w), ())
  | .raRs => (.ofCode (fieldB w), .ofCode (fieldA w), ())
  | .rtOnly => (.ofCode (fieldA w), ())
  | .rtMem => (.ofCode (fieldA w), ⟨.ofCode (fieldB w), w.signed 0 16⟩, ())
  | .ftMem => (.ofCode (fieldA w), ⟨.ofCode (fieldB w), w.signed 0 16⟩, ())
  | .rtMemWords => (.ofCode (fieldA w), ⟨.ofCode (fieldB w), displacement w 14⟩, ())
  | .ftRaRb => (.ofCode (fieldA w), .ofCode (fieldB w), .ofCode (fieldC w), ())
  | .ftFaFb => (.ofCode (fieldA w), .ofCode (fieldB w), .ofCode (fieldC w), ())
  | .ftFaFc => (.ofCode (fieldA w), .ofCode (fieldB w), .ofCode (w.unsigned 6 5), ())
  | .ftFb => (.ofCode (fieldA w), .ofCode (fieldC w), ())
  | .crRaRb => (.ofCode (w.unsigned 23 3), .ofCode (fieldB w), .ofCode (fieldC w), ())
  | .crRaSi => (.ofCode (w.unsigned 23 3), .ofCode (fieldB w), w.signed 0 16, ())
  | .crRaUi => (.ofCode (w.unsigned 23 3), .ofCode (fieldB w), w.unsigned 0 16, ())
  | .crFaFb => (.ofCode (w.unsigned 23 3), .ofCode (fieldB w), .ofCode (fieldC w), ())
  | .boBi => (fieldA w, fieldB w, ())
  | .raRsShMbMe =>
    (.ofCode (fieldB w), .ofCode (fieldA w), fieldC w, w.unsigned 6 5, w.unsigned 1 5, ())
  | .raRsShBound =>
    let f := RotateFields.ofWord w
    (.ofCode f.ra, .ofCode f.rs, f.shift, f.bound, ())
  | .raRsShift32 => (.ofCode (fieldB w), .ofCode (fieldA w), fieldC w, ())
  | .raRsShift64 =>
    (.ofCode (fieldB w), .ofCode (fieldA w), fieldC w + 32 * w.unsigned 1 1, ())
  | .rtSpr => (.ofCode (fieldA w), fieldSpr w, ())
  | .sprRs => (fieldSpr w, .ofCode (fieldA w), ())
  | .maskRs => (w.unsigned 12 8, .ofCode (fieldA w), ())
  | .toRaRb => (fieldA w, .ofCode (fieldB w), .ofCode (fieldC w), ())
  | .target => (pc + displacement w 24, ())
  | .boBiTarget => (fieldA w, fieldB w, pc + displacement w 14, ())
  | .boBiTargetWide => (fieldA w, fieldB w, pc + displacement w 14, ())

/-! ### Putting operands into a word -/

/-- Refuses a shift amount above `limit`. -/
def checkShift (op : String) (amount limit : Int64) : Except EncodingError Unit :=
  if 0 ≤ amount ∧ amount ≤ limit then .ok () else .error ⟨op, .shiftAmount amount limit⟩

/-- The first field of a comparison: a condition field and the doubleword bit. -/
def comparison (cr : CrField) (doubleword : Bool) : Int64 :=
  cr.code * 4 + if doubleword then 1 else 0

/-- The word of an instruction without a branch target. -/
def encodeFixed (op : String) (k : Constants) :
    (l : Layout) → Args l.operands → Except EncodingError Word :=
  let opcode := Int64.ofNat k.primary
  let extended := Int64.ofNat k.extended
  fun
  | .nothing, () => Format.x op opcode 0 0 0 extended k.low
  | .rtRaSi, (rt, ra, si, ()) => Format.d op opcode rt.code ra.code si true
  | .raRsUi, (ra, rs, ui, ()) => Format.d op opcode rs.code ra.code ui false
  | .rtRaRb, (rt, ra, rb, ()) => Format.x op opcode rt.code ra.code rb.code extended k.low
  | .rtRaRbWide, (rt, ra, rb, ()) => Format.x op opcode rt ra rb extended k.low
  | .raRsRb, (ra, rs, rb, ()) => Format.x op opcode rs.code ra.code rb.code extended k.low
  | .rtRa, (rt, ra, ()) => Format.x op opcode rt.code ra.code 0 extended k.low
  | .raRs, (ra, rs, ()) => Format.x op opcode rs.code ra.code 0 extended k.low
  | .rtOnly, (rt, ()) => Format.x op opcode rt.code 0 0 extended k.low
  | .rtMem, (rt, a, ()) => Format.d op opcode rt.code a.base.code a.displacement true
  | .ftMem, (ft, a, ()) => Format.d op opcode ft.code a.base.code a.displacement true
  | .rtMemWords, (rt, a, ()) => Format.ds op opcode rt.code a.base.code a.displacement extended
  | .ftRaRb, (ft, ra, rb, ()) => Format.x op opcode ft.code ra.code rb.code extended k.low
  | .ftFaFb, (ft, fa, fb, ()) => Format.x op opcode ft.code fa.code fb.code extended k.low
  | .ftFaFc, (ft, fa, fc, ()) =>
    if fc.isValid then Format.x op opcode ft.code fa.code 0 (fc.code * 32 + extended) k.low
    else .error ⟨op, .width "FRC" fc.code 5 false⟩
  | .ftFb, (ft, fb, ()) => Format.x op opcode ft.code 0 fb.code extended k.low
  | .crRaRb, (cr, ra, rb, ()) =>
    Format.x op opcode (comparison cr k.doubleword) ra.code rb.code extended k.low
  | .crRaSi, (cr, ra, si, ()) => Format.d op opcode (comparison cr k.doubleword) ra.code si true
  | .crRaUi, (cr, ra, ui, ()) => Format.d op opcode (comparison cr k.doubleword) ra.code ui false
  | .crFaFb, (cr, fa, fb, ()) =>
    Format.x op opcode (comparison cr k.doubleword) fa.code fb.code extended k.low
  | .boBi, (bo, bi, ()) => Format.x op opcode bo bi 0 extended k.low
  | .raRsShMbMe, (ra, rs, sh, mb, me, ()) =>
    Format.rotate op opcode rs.code ra.code sh mb me k.low
  | .raRsShBound, (ra, rs, sh, bound, ()) =>
    Format.rotate op opcode rs.code ra.code sh bound extended k.low
  | .raRsShift32, (ra, rs, n, ()) => do
    checkShift op n 31
    Format.x op opcode rs.code ra.code n extended k.low
  | .raRsShift64, (ra, rs, n, ()) => do
    checkShift op n 63
    Format.x op opcode rs.code ra.code (n &&& 0x1F) (extended ||| n >>> 5) k.low
  | .rtSpr, (rt, spr, ()) =>
    Format.x op opcode rt.code (spr.code &&& 0x1F) (spr.code >>> 5) extended k.low
  | .sprRs, (spr, rs, ()) =>
    Format.x op opcode rs.code (spr.code &&& 0x1F) (spr.code >>> 5) extended k.low
  | .maskRs, (mask, rs, ()) =>
    if fitsUnsigned mask 8 then
      Format.x op opcode rs.code (mask >>> 4) ((mask &&& 0xF) * 2) extended k.low
    else .error ⟨op, .width "FXM" mask 8 false⟩
  | .toRaRb, (option, ra, rb, ()) => Format.x op opcode option ra.code rb.code extended k.low
  | .target, (displacement, ()) => Format.i op opcode displacement false k.low
  | .boBiTarget, (bo, bi, displacement, ()) =>
    Format.b op opcode bo bi displacement false k.low
  | .boBiTargetWide, (bo, bi, displacement, ()) =>
    Format.b op opcode bo bi displacement false k.low

/-- The operands with a branch target replaced by its displacement from `pc`, in
words. All but the widest layout report a target out of reach relative to `pc`. -/
def relative (pc : Int64) : (l : Layout) → Args l.operands → Except BranchRangeError (Args l.operands)
  | .target, (dest, ()) => do return (← branchDisplacement 0 (dest - pc) 24, ())
  | .boBiTarget, (bo, bi, dest, ()) => do
    return (bo, bi, ← branchDisplacement 0 (dest - pc) 14, ())
  | .boBiTargetWide, (bo, bi, dest, ()) => do
    return (bo, bi, ← branchDisplacement pc dest 14, ())
  | _, args => .ok args

/-- The word of an instruction that stands at `pc`. -/
def encode (op : String) (k : Constants) (pc : Int64) (l : Layout) (args : Args l.operands) :
    Except Fault Word := do
  let args ← (l.relative pc args).mapError .branchRange
  (l.encodeFixed op k args).mapError .encoding

end Layout
end PowerAsm
