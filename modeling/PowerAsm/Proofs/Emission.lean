import Mathlib.Data.List.Forall2
import PowerAsm.Assembler.Sequence
import PowerAsm.Proofs.Machine
import PowerAsm.Proofs.Storage
import PowerAsm.Proofs.Table

/-! What actions of an assembler write. An instruction whose operands fit is written as a word
that holds exactly this instruction, and actions in sequence write one after the other, so the
machine runs what was asked for. -/
namespace PowerAsm.Proofs.Emission
open Storage Integers Forms OperandFields Layouts Table

/-- The operands fit their fields, with numbers as they are read back. Layouts that are not
described are never used. -/
def Fits : (l : Layout) → Args l.operands → Prop
  | .rtRaSi, (rt, ra, si, ()) => rt.isValid = true ∧ ra.isValid = true ∧ fitsSigned si 16 = true
  | .raRsUi, (ra, rs, ui, ()) => ra.isValid = true ∧ rs.isValid = true ∧ fitsUnsigned ui 16 = true
  | .rtMem, (rt, a, ()) =>
    rt.isValid = true ∧ a.base.isValid = true ∧ fitsSigned a.displacement 16 = true
  | .ftMem, (ft, a, ()) =>
    ft.isValid = true ∧ a.base.isValid = true ∧ fitsSigned a.displacement 16 = true
  | .rtMemWords, (rt, a, ()) =>
    rt.isValid = true ∧ a.base.isValid = true ∧ fitsSigned a.displacement 16 = true ∧
      a.displacement.toInt % 4 = 0
  | .rtOnly, (rt, ()) => rt.isValid = true
  | .rtSpr, (rt, spr, ()) => rt.isValid = true ∧ spr.isValid = true
  | .sprRs, (spr, rs, ()) => spr.isValid = true ∧ rs.isValid = true
  | .maskRs, (mask, rs, ()) => fitsUnsigned mask 8 = true ∧ rs.isValid = true
  | .rtRaRb, (rt, ra, rb, ()) => rt.isValid = true ∧ ra.isValid = true ∧ rb.isValid = true
  | .rtRaRbWide, (rt, ra, rb, ()) =>
    fitsUnsigned rt 5 = true ∧ fitsUnsigned ra 5 = true ∧ fitsUnsigned rb 5 = true
  | .raRsRb, (ra, rs, rb, ()) => ra.isValid = true ∧ rs.isValid = true ∧ rb.isValid = true
  | .rtRa, (rt, ra, ()) => rt.isValid = true ∧ ra.isValid = true
  | .crRaRb, (cr, ra, rb, ()) => cr.isValid = true ∧ ra.isValid = true ∧ rb.isValid = true
  | .boBi, (bo, bi, ()) => fitsUnsigned bo 5 = true ∧ fitsUnsigned bi 5 = true
  | .raRsShBound, (ra, rs, sh, bound, ()) =>
    ra.isValid = true ∧ rs.isValid = true ∧ fitsUnsigned sh 6 = true ∧ fitsUnsigned bound 6 = true
  | .raRsShMbMe, (ra, rs, sh, mb, me, ()) =>
    ra.isValid = true ∧ rs.isValid = true ∧ fitsUnsigned sh 5 = true ∧ fitsUnsigned mb 5 = true ∧
      fitsUnsigned me 5 = true
  | .raRsShift32, (ra, rs, n, ()) =>
    ra.isValid = true ∧ rs.isValid = true ∧ fitsUnsigned n 5 = true
  | .raRsShift64, (ra, rs, n, ()) =>
    ra.isValid = true ∧ rs.isValid = true ∧ fitsUnsigned n 6 = true
  | .nothing, () => True
  | _, _ => False

private theorem number_fits {n : Int8} (valid : (decide (0 ≤ n) && decide (n ≤ 31)) = true) :
    fitsUnsigned n.toInt64 5 = true := by
  simp only [Bool.and_eq_true, decide_eq_true_eq, Int8.le_iff_toInt_le] at valid
  have zero : (0 : Int8).toInt = 0 := rfl
  have last : (31 : Int8).toInt = 31 := rfl
  rw [fitsUnsigned_iff, Int8.toInt_toInt64]
  omega

theorem gpr_fits {r : Gpr} (valid : r.isValid = true) : fitsUnsigned r.code 5 = true :=
  number_fits valid

theorem fpr_fits {f : Fpr} (valid : f.isValid = true) : fitsUnsigned f.code 5 = true :=
  number_fits valid

theorem spr_fits {spr : Spr} (valid : spr.isValid = true) :
    fitsUnsigned (spr.code &&& 0x1F) 5 = true ∧ fitsUnsigned (spr.code >>> 5) 5 = true := by
  simp only [Spr.isValid, Bool.and_eq_true, decide_eq_true_eq, Int16.le_iff_toInt_le,
    Int16.lt_iff_toInt_lt] at valid
  have zero : (0 : Int16).toInt = 0 := rfl
  have limit : (1024 : Int16).toInt = 1024 := rfl
  have same : spr.code.toInt = spr.number.toInt := Int16.toInt_toInt64 spr.number
  have low : (spr.code &&& 0x1F).toInt = spr.code.toInt % 32 :=
    toInt_and_mask spr.code 5 (by decide)
  have high : (spr.code >>> 5).toInt = spr.code.toInt / 32 :=
    toInt_shiftRight spr.code 5 (by decide)
  rw [fitsUnsigned_iff, fitsUnsigned_iff]
  omega

theorem mask_fits {mask : Int64} (fits : fitsUnsigned mask 8 = true) :
    fitsUnsigned (mask >>> 4) 5 = true ∧ fitsUnsigned ((mask &&& 0xF) * 2) 5 = true := by
  rw [fitsUnsigned_iff] at fits
  have two : (2 : Int64).toInt = 2 := rfl
  have low : (mask &&& 0xF).toInt = mask.toInt % 16 := toInt_and_mask mask 4 (by decide)
  have high : (mask >>> 4).toInt = mask.toInt / 16 := toInt_shiftRight mask 4 (by decide)
  have doubled : ((mask &&& 0xF) * 2).toInt = mask.toInt % 16 * 2 := by
    rw [toInt_mul_of_range] <;> rw [low, two] <;> omega
  rw [fitsUnsigned_iff, fitsUnsigned_iff]
  omega

theorem comparison_fits {cr : CrField} (valid : cr.isValid = true) (doubleword : Bool) :
    fitsUnsigned (Layout.comparison cr doubleword) 5 = true := by
  simp only [CrField.isValid, Bool.and_eq_true, decide_eq_true_eq, Int8.le_iff_toInt_le] at valid
  have zero : (0 : Int8).toInt = 0 := rfl
  have last : (7 : Int8).toInt = 7 := rfl
  have code : cr.code.toInt = cr.number.toInt := Int8.toInt_toInt64 cr.number
  have four : (4 : Int64).toInt = 4 := rfl
  have scaled : (cr.code * 4).toInt = cr.number.toInt * 4 := by
    rw [toInt_mul_of_range] <;> rw [code, four] <;> omega
  have bit : (if doubleword then 1 else 0 : Int64).toInt = if doubleword then 1 else 0 := by
    cases doubleword <;> rfl
  rw [fitsUnsigned_iff, Layout.comparison, toInt_add_of_range] <;> rw [scaled, bit] <;>
    split <;> omega

theorem words_fit {d : Int64} (fits : fitsSigned d 16 = true) (aligned : d.toInt % 4 = 0) :
    fitsSigned (d >>> 2) 14 = true := by
  have quarter : (d >>> 2).toInt = d.toInt / 4 := toInt_shiftRight d 2 (by decide)
  rw [fitsSigned_iff (by decide) (by decide)] at fits ⊢
  omega

theorem checkShift_of_fits {op : String} {n limit : Int64} {bits : Nat}
    (fits : fitsUnsigned n bits = true) (last : limit.toInt = 2 ^ bits - 1) :
    Layout.checkShift op n limit = .ok () := by
  rw [fitsUnsigned_iff] at fits
  push_cast at fits
  rw [checkShift_eq_ok_iff]
  omega

/-- A shift amount of six bits, in its two parts. -/
theorem shift_fits {n : Int64} {extended : Nat} (small : extended < 1024)
    (even : extended % 2 = 0) (fits : fitsUnsigned n 6 = true) :
    fitsUnsigned (n &&& 0x1F) 5 = true ∧
      fitsUnsigned (Int64.ofNat extended ||| n >>> 5) 10 = true := by
  rw [fitsUnsigned_iff] at fits
  have low : (n &&& 0x1F).toInt = n.toInt % 32 := toInt_and_mask n 5 (by decide)
  have high : (n >>> 5).toInt = n.toInt / 32 := toInt_shiftRight n 5 (by decide)
  have joined := or_low_bit extended small even (n >>> 5) (by omega)
  rw [fitsUnsigned_iff, fitsUnsigned_iff]
  omega

section Forms
variable {op : String} {p a b c d xo : Int64} (primary : fitsUnsigned p 6 = true)
  (first : fitsUnsigned a 5 = true) (second : fitsUnsigned b 5 = true)
include primary first second

private theorem exists_d (third : fitsSigned d 16 = true) :
    ∃ w, (Format.d op p a b d true).mapError Fault.encoding = .ok w := by
  simp only [mapError_eq_ok_iff]
  refine ⟨_, pack_eq_ok_iff.mpr ⟨?_, rfl⟩⟩
  simp [primary, first, second, third]

private theorem exists_d_unsigned (third : fitsUnsigned d 16 = true) :
    ∃ w, (Format.d op p a b d false).mapError Fault.encoding = .ok w := by
  simp only [mapError_eq_ok_iff]
  refine ⟨_, pack_eq_ok_iff.mpr ⟨?_, rfl⟩⟩
  simp [primary, first, second, third]

private theorem exists_m {e : Int64} {rc : Bool} (third : fitsUnsigned c 5 = true)
    (fourth : fitsUnsigned d 5 = true) (fifth : fitsUnsigned e 5 = true) :
    ∃ w, (Format.m op p a b c d e rc).mapError Fault.encoding = .ok w := by
  simp only [mapError_eq_ok_iff]
  refine ⟨_, pack_eq_ok_iff.mpr ⟨?_, rfl⟩⟩
  simp [primary, first, second, third, fourth, fifth]

private theorem exists_md {rc : Bool} (third : fitsUnsigned c 6 = true)
    (fourth : fitsUnsigned d 6 = true) (extended : fitsUnsigned xo 3 = true) :
    ∃ w, (Format.md op p a b c d xo rc).mapError Fault.encoding = .ok w := by
  simp only [mapError_eq_ok_iff]
  refine ⟨_, pack_eq_ok_iff.mpr ⟨?_, rfl⟩⟩
  simp [primary, first, second, third, fourth, extended]

private theorem exists_ds (third : fitsSigned d 16 = true) (aligned : d.toInt % 4 = 0)
    (extended : fitsUnsigned xo 2 = true) :
    ∃ w, (Format.ds op p a b d xo).mapError Fault.encoding = .ok w := by
  simp only [mapError_eq_ok_iff]
  rw [Format.ds, if_neg (not_not_intro aligned)]
  refine ⟨_, pack_eq_ok_iff.mpr ⟨?_, rfl⟩⟩
  simp [primary, first, second, words_fit third aligned, extended]

private theorem exists_x {rc : Bool} (third : fitsUnsigned c 5 = true)
    (extended : fitsUnsigned xo 10 = true) :
    ∃ w, (Format.x op p a b c xo rc).mapError Fault.encoding = .ok w := by
  simp only [mapError_eq_ok_iff]
  refine ⟨_, pack_eq_ok_iff.mpr ⟨?_, rfl⟩⟩
  simp [primary, first, second, third, extended]

end Forms

/-- Operands that fit are encoded. -/
theorem exists_encode {l : Layout} {k : Constants} (admits : Admits l k) (title : String)
    {args : Args l.operands} (fits : Fits l args) : ∃ w, l.encode title k 0 args = .ok w := by
  obtain ⟨constant, -, split, -, narrow, wide⟩ := admits
  have primary : fitsUnsigned (Int64.ofNat k.primary) 6 = true :=
    constant ⟨26, 6, _⟩ (by cases l <;> exact List.mem_cons_self)
  cases l with
  | rtRaSi =>
    obtain ⟨rt, ra, si, ⟨⟩⟩ := args
    obtain ⟨first, second, third⟩ := fits
    exact exists_d primary (gpr_fits first) (gpr_fits second) third
  | raRsUi =>
    obtain ⟨ra, rs, ui, ⟨⟩⟩ := args
    obtain ⟨first, second, third⟩ := fits
    exact exists_d_unsigned primary (gpr_fits second) (gpr_fits first) third
  | rtMem =>
    obtain ⟨rt, a, ⟨⟩⟩ := args
    obtain ⟨first, second, third⟩ := fits
    exact exists_d primary (gpr_fits first) (gpr_fits second) third
  | ftMem =>
    obtain ⟨ft, a, ⟨⟩⟩ := args
    obtain ⟨first, second, third⟩ := fits
    exact exists_d primary (fpr_fits first) (gpr_fits second) third
  | rtMemWords =>
    obtain ⟨rt, a, ⟨⟩⟩ := args
    obtain ⟨first, second, third, aligned⟩ := fits
    have extended := constant ⟨0, 2, Int64.ofNat k.extended⟩ (by simp [constantPlaces])
    exact exists_ds primary (gpr_fits first) (gpr_fits second) third aligned extended
  | rtOnly =>
    obtain ⟨rt, ⟨⟩⟩ := args
    have extended := constant ⟨1, 10, Int64.ofNat k.extended⟩ (by simp [constantPlaces])
    exact exists_x primary (gpr_fits fits) rfl rfl extended
  | rtSpr =>
    obtain ⟨rt, spr, ⟨⟩⟩ := args
    obtain ⟨first, second⟩ := fits
    have extended := constant ⟨1, 10, Int64.ofNat k.extended⟩ (by simp [constantPlaces])
    exact exists_x primary (gpr_fits first) (spr_fits second).1 (spr_fits second).2 extended
  | sprRs =>
    obtain ⟨spr, rs, ⟨⟩⟩ := args
    obtain ⟨first, second⟩ := fits
    have extended := constant ⟨1, 10, Int64.ofNat k.extended⟩ (by simp [constantPlaces])
    exact exists_x primary (gpr_fits second) (spr_fits first).1 (spr_fits first).2 extended
  | maskRs =>
    obtain ⟨mask, rs, ⟨⟩⟩ := args
    obtain ⟨first, second⟩ := fits
    have extended := constant ⟨1, 10, Int64.ofNat k.extended⟩ (by simp [constantPlaces])
    show ∃ w, (if fitsUnsigned mask 8 then Format.x title _ rs.code (mask >>> 4)
      ((mask &&& 0xF) * 2) _ k.low else .error _).mapError Fault.encoding = .ok w
    rw [if_pos first]
    exact exists_x primary (gpr_fits second) (mask_fits first).1 (mask_fits first).2 extended
  | rtRaRb =>
    obtain ⟨rt, ra, rb, ⟨⟩⟩ := args
    obtain ⟨first, second, third⟩ := fits
    have extended := constant ⟨1, 10, Int64.ofNat k.extended⟩ (by simp [constantPlaces])
    exact exists_x primary (gpr_fits first) (gpr_fits second) (gpr_fits third) extended
  | rtRaRbWide =>
    obtain ⟨rt, ra, rb, ⟨⟩⟩ := args
    obtain ⟨first, second, third⟩ := fits
    have extended := constant ⟨1, 10, Int64.ofNat k.extended⟩ (by simp [constantPlaces])
    exact exists_x primary first second third extended
  | raRsRb =>
    obtain ⟨ra, rs, rb, ⟨⟩⟩ := args
    obtain ⟨first, second, third⟩ := fits
    have extended := constant ⟨1, 10, Int64.ofNat k.extended⟩ (by simp [constantPlaces])
    exact exists_x primary (gpr_fits second) (gpr_fits first) (gpr_fits third) extended
  | rtRa =>
    obtain ⟨rt, ra, ⟨⟩⟩ := args
    obtain ⟨first, second⟩ := fits
    have extended := constant ⟨1, 10, Int64.ofNat k.extended⟩ (by simp [constantPlaces])
    exact exists_x primary (gpr_fits first) (gpr_fits second) rfl extended
  | crRaRb =>
    obtain ⟨cr, ra, rb, ⟨⟩⟩ := args
    obtain ⟨first, second, third⟩ := fits
    have extended := constant ⟨1, 10, Int64.ofNat k.extended⟩ (by simp [constantPlaces])
    exact exists_x primary (comparison_fits first _) (gpr_fits second) (gpr_fits third) extended
  | boBi =>
    obtain ⟨bo, bi, ⟨⟩⟩ := args
    obtain ⟨first, second⟩ := fits
    have extended := constant ⟨1, 10, Int64.ofNat k.extended⟩ (by simp [constantPlaces])
    exact exists_x primary first second rfl extended
  | raRsShBound =>
    obtain ⟨ra, rs, sh, bound, ⟨⟩⟩ := args
    obtain ⟨first, second, third, fourth⟩ := fits
    have extended := constant ⟨2, 3, Int64.ofNat k.extended⟩ (by simp [constantPlaces])
    have opcode : Int64.ofNat k.primary = 30 := by rw [wide rfl]; rfl
    show ∃ w, (Format.rotate title (Int64.ofNat k.primary) rs.code ra.code sh bound _
      k.low).mapError Fault.encoding = .ok w
    rw [Format.rotate, if_neg (by rw [opcode]; decide), if_pos opcode]
    exact exists_md primary (gpr_fits second) (gpr_fits first) third fourth extended
  | raRsShMbMe =>
    obtain ⟨ra, rs, sh, mb, me, ⟨⟩⟩ := args
    obtain ⟨first, second, third, fourth, fifth⟩ := fits
    have opcode : Int64.ofNat k.primary = 21 := by rw [narrow rfl]; rfl
    show ∃ w, (Format.rotate title (Int64.ofNat k.primary) rs.code ra.code sh mb me
      k.low).mapError Fault.encoding = .ok w
    rw [Format.rotate, if_pos opcode]
    exact exists_m primary (gpr_fits second) (gpr_fits first) third fourth fifth
  | raRsShift32 =>
    obtain ⟨ra, rs, n, ⟨⟩⟩ := args
    obtain ⟨first, second, third⟩ := fits
    have extended := constant ⟨1, 10, Int64.ofNat k.extended⟩ (by simp [constantPlaces])
    show ∃ w, (Layout.checkShift title n 31 >>= fun _ => Format.x title _ rs.code ra.code n _
      k.low).mapError Fault.encoding = .ok w
    rw [checkShift_of_fits third rfl]
    exact exists_x primary (gpr_fits second) (gpr_fits first) third extended
  | raRsShift64 =>
    obtain ⟨ra, rs, n, ⟨⟩⟩ := args
    obtain ⟨first, second, third⟩ := fits
    obtain ⟨even, small⟩ := split rfl
    obtain ⟨low, extended⟩ := shift_fits small even third
    show ∃ w, (Layout.checkShift title n 63 >>= fun _ => Format.x title _ rs.code ra.code
      (n &&& 0x1F) (_ ||| n >>> 5) k.low).mapError Fault.encoding = .ok w
    rw [checkShift_of_fits third rfl]
    exact exists_x primary (gpr_fits second) (gpr_fits first) low extended
  | nothing =>
    have extended := constant ⟨1, 10, Int64.ofNat k.extended⟩ (by simp [constantPlaces])
    exact exists_x primary rfl rfl rfl extended
  | _ => cases fits

theorem eq_of_sameHalf {v read : Int64} (fits : fitsSigned v 16 = true)
    (low : -2 ^ 15 ≤ read.toInt) (same : SameHalf v read) : v = read := by
  obtain equal | ⟨negative, shifted⟩ := same
  · exact equal
  · have half : (65536 : Int64).toInt = 65536 := rfl
    have sum : (read + 65536).toInt = read.toInt + 65536 := by
      rw [toInt_add_of_range] <;> rw [half] <;> omega
    rw [fitsSigned_iff (by decide) (by decide), shifted, sum] at fits
    omega

/-- What a field of 16 bits takes is a number of 16 bits, signed or not. -/
theorem sameHalf_range {v read : Int64} (low : -2 ^ 15 ≤ read.toInt) (high : read.toInt < 2 ^ 15)
    (same : SameHalf v read) : -2 ^ 15 ≤ v.toInt ∧ v.toInt < 2 ^ 16 := by
  rcases same with rfl | ⟨negative, rfl⟩
  · omega
  · have half : (65536 : Int64).toInt = 65536 := rfl
    rw [toInt_add_of_range] <;> rw [half] <;> omega

/-- A field of 16 bits is read as a signed number. -/
theorem signed_range (w : Word) : -2 ^ 15 ≤ (w.signed 0 16).toInt ∧ (w.signed 0 16).toInt < 2 ^ 15 := by
  rw [signed_toInt w 0 16 (by decide)]
  exact ⟨BitVec.le_toInt (w.extractLsb' 0 16), BitVec.toInt_lt⟩

theorem displacement_range (w : Word) :
    -2 ^ 15 ≤ (Layout.displacement w 14).toInt ∧ (Layout.displacement w 14).toInt < 2 ^ 15 := by
  have above := BitVec.le_toInt (w.extractLsb' 2 14)
  have below := BitVec.toInt_lt (x := w.extractLsb' 2 14)
  have value := signed_toInt w 2 14 (by decide)
  have four : (4 : Int64).toInt = 4 := rfl
  rw [Layout.displacement, toInt_mul_of_range] <;> rw [four, value] <;> omega

private theorem address_eq {a read : Address} (fits : fitsSigned a.displacement 16 = true)
    (low : -2 ^ 15 ≤ read.displacement.toInt)
    (agree : a.base = read.base ∧ SameHalf a.displacement read.displacement) : a = read := by
  have same := eq_of_sameHalf fits low agree.2
  cases a
  cases read
  rw [Address.mk.injEq]
  exact ⟨agree.1, same⟩

theorem args_eq_read {l : Layout} {args : Args l.operands} (fits : Fits l args) {w : Word}
    (agree : ArgsAgree (signedHalf l) l.operands args (l.read w 0)) : args = l.read w 0 := by
  cases l with
  | rtRaSi =>
    obtain ⟨rt, ra, si, ⟨⟩⟩ := args
    obtain ⟨rfl, rfl, third, -⟩ := agree
    obtain ⟨-, -, fits⟩ := fits
    rw [eq_of_sameHalf fits (signed_range w).1 third]
    rfl
  | rtMem =>
    obtain ⟨rt, a, ⟨⟩⟩ := args
    obtain ⟨rfl, second, -⟩ := agree
    obtain ⟨-, -, fits⟩ := fits
    have same : a = ⟨.ofCode (w.unsigned 16 5), w.signed 0 16⟩ :=
      address_eq fits (signed_range w).1 second
    rw [same]
    rfl
  | ftMem =>
    obtain ⟨ft, a, ⟨⟩⟩ := args
    obtain ⟨rfl, second, -⟩ := agree
    obtain ⟨-, -, fits⟩ := fits
    have same : a = ⟨.ofCode (w.unsigned 16 5), w.signed 0 16⟩ :=
      address_eq fits (signed_range w).1 second
    rw [same]
    rfl
  | rtMemWords =>
    obtain ⟨rt, a, ⟨⟩⟩ := args
    obtain ⟨rfl, second, -⟩ := agree
    obtain ⟨-, -, fits, -⟩ := fits
    have same : a = ⟨.ofCode (w.unsigned 16 5), Layout.displacement w 14⟩ :=
      address_eq fits (displacement_range w).1 second
    rw [same]
    rfl
  | crRaSi => cases fits
  | _ => exact eq_of_argsAgree (by decide) (by decide) agree

/-- An instruction whose operands fit has a word, under any title, that holds it exactly. -/
theorem exists_word {op : Opcode} {args : Args op.operands} (fits : Fits op.layout args) :
    ∃ w, (∀ title, op.encodeAs title args 0 = .ok w) ∧
      Instr.ofWord? Opcode.all w 0 = some ⟨op, args⟩ := by
  obtain ⟨w, encoded⟩ := exists_encode (opcode_admitted op) op.title fits
  have facts := (encodeAs_eq_ok_iff op.title op args 0 w).mp encoded
  have same : args = op.read w 0 := args_eq_read fits facts.2.2
  refine ⟨w, fun title => (encodeAs_eq_ok_iff title op args 0 w).mpr facts, ?_⟩
  exact (ofWord?_instr_eq_some_iff w 0 _).mpr ⟨facts.1, same⟩

/-- The word holds the instruction. -/
def Holds (w : Word) (i : Instr) : Prop := Instr.ofWord? Opcode.all w 0 = some i

/-- From `a` to `b` nothing has happened but that words were written behind the bytes of the
segment, and recorded. -/
structure Wrote (a b : Assembly) (bytes : List UInt8) (ws : List Word) : Prop where
  written : Written b.segment (bytes ++ ws.flatMap a.segment.order.bytes)
  order : b.segment.order = a.segment.order
  assembler : ∃ log, b.assembler = { a.assembler with log }
  room : ∀ n, bytes.length + 4 * ws.length ≤ n → Room a.segment n → Room b.segment n

/-- The instruction is written as this word. -/
def Encodes (w : Word) (i : Instr) : Prop := i.op.encode i.args 0 = .ok w

/-- The operands of the instruction fit. -/
def OperandsFit (i : Instr) : Prop := Fits i.op.layout i.args

/-- The name under which an instruction is refused has no part in its word. -/
theorem encodeAs_iff_encodes (title : String) {w : Word} {i : Instr} :
    i.op.encodeAs title i.args 0 = .ok w ↔ Encodes w i :=
  (encodeAs_eq_ok_iff title i.op i.args 0 w).trans
    (encodeAs_eq_ok_iff i.op.title i.op i.args 0 w).symm

theorem encodes_unique : Relator.LeftUnique Encodes := by
  intro w i v first second
  exact Except.ok.inj (first.symm.trans second)

theorem exists_encodes {is : List Instr} (fits : ∀ i ∈ is, OperandsFit i) :
    ∃ ws, List.Forall₂ Encodes ws is := by
  induction is with
  | nil => exact ⟨[], .nil⟩
  | cons i is ih =>
    obtain ⟨fit, others⟩ := List.forall_mem_cons.mp fits
    obtain ⟨w, encoded, -⟩ := exists_word fit
    obtain ⟨ws, rest⟩ := ih others
    exact ⟨w :: ws, .cons (encoded i.op.title) rest⟩

/-- Instructions whose operands fit are held by the words that they are written as. -/
theorem holds_of_encodes {ws : List Word} {is : List Instr}
    (encoded : List.Forall₂ Encodes ws is) (fits : ∀ i ∈ is, OperandsFit i) :
    List.Forall₂ Holds ws is := by
  induction encoded with
  | nil => exact .nil
  | @cons w i ws is first rest ih =>
    obtain ⟨fit, others⟩ := List.forall_mem_cons.mp fits
    obtain ⟨v, encoded, held⟩ := exists_word fit
    rw [encodes_unique first (encoded i.op.title)]
    exact .cons held (ih others)

/-- For a target: where the action succeeds it has written the words of these instructions, and
it does succeed where they have words and there is room for them. -/
structure Writes (t : Target) (action : Asm Unit) (is : List Instr) : Prop where
  start : ∀ a b, a.segment.storage.size < 2 ^ 63 → a.assembler.target = t → action a = .ok () b →
    (is = [] ∧ b = a) ∨ ∃ bytes, Written a.segment bytes
  done : ∀ a b bytes, Written a.segment bytes → a.assembler.target = t → action a = .ok () b →
    ∃ ws, List.Forall₂ Encodes ws is ∧ Wrote a b bytes ws
  able : ∀ ws, List.Forall₂ Encodes ws is → ∀ a bytes, Written a.segment bytes →
    a.assembler.target = t → Room a.segment (bytes.length + 4 * ws.length) →
    ∃ b, action a = .ok () b

variable {t : Target}

theorem Wrote.refl {a : Assembly} {bytes : List UInt8} (written : Written a.segment bytes) :
    Wrote a a bytes [] where
  written := by rwa [List.flatMap_nil, List.append_nil]
  order := rfl
  assembler := ⟨_, rfl⟩
  room := fun _ _ more => more

theorem Wrote.trans {a b c : Assembly} {bytes : List UInt8} {ws vs : List Word}
    (first : Wrote a b bytes ws)
    (second : Wrote b c (bytes ++ ws.flatMap a.segment.order.bytes) vs) :
    Wrote a c bytes (ws ++ vs) where
  written := by
    have written := second.written
    rwa [first.order, List.append_assoc, ← List.flatMap_append] at written
  order := second.order.trans first.order
  assembler := by
    obtain ⟨log, same⟩ := first.assembler
    obtain ⟨log', same'⟩ := second.assembler
    exact ⟨log', by rw [same', same]⟩
  room := by
    intro n total more
    rw [List.length_append] at total
    refine second.room n ?_ (first.room n (by omega) more)
    rw [List.length_append, length_code]
    omega

theorem Wrote.target {a b : Assembly} {bytes : List UInt8} {ws : List Word}
    (wrote : Wrote a b bytes ws) : b.assembler.target = a.assembler.target := by
  obtain ⟨log, same⟩ := wrote.assembler
  rw [same]

theorem writes_pure : Writes t (pure ()) [] where
  start := by
    rintro a _ - - ⟨⟩
    exact .inl ⟨rfl, rfl⟩
  done := by
    rintro a _ bytes written - ⟨⟩
    exact ⟨[], .nil, .refl written⟩
  able := fun _ _ a _ _ _ _ => ⟨a, rfl⟩

theorem Writes.bind {x y : Asm Unit} {is js : List Instr} (first : Writes t x is)
    (second : Writes t y js) : Writes t (x >>= fun _ => y) (is ++ js) where
  start := by
    intro a c bounded target ran
    obtain ⟨⟨⟩, b, one, two⟩ := bind_ok ran
    rcases first.start a b bounded target one with ⟨rfl, rfl⟩ | written
    · exact second.start b c bounded target two
    · exact .inr written
  done := by
    intro a c bytes written target ran
    obtain ⟨⟨⟩, b, one, two⟩ := bind_ok ran
    obtain ⟨ws, encoded, wrote⟩ := first.done a b bytes written target one
    obtain ⟨vs, encoded', wrote'⟩ := second.done b c _ wrote.written (wrote.target.trans target) two
    exact ⟨ws ++ vs, List.rel_append encoded encoded', wrote.trans wrote'⟩
  able := by
    intro words encoded a bytes written target room
    obtain ⟨ws, vs, one, two, rfl⟩ : ∃ ws vs, List.Forall₂ Encodes ws is ∧
        List.Forall₂ Encodes vs js ∧ words = ws ++ vs :=
      ⟨_, _, List.forall₂_take_append words is js encoded,
        List.forall₂_drop_append words is js encoded, (List.take_append_drop _ _).symm⟩
    rw [List.length_append] at room
    obtain ⟨b, ran⟩ := first.able ws one a bytes written target (room.mono (by omega))
    obtain ⟨ws', encoded', wrote⟩ := first.done a b bytes written target ran
    obtain rfl := List.left_unique_forall₂' encodes_unique one encoded'
    have total : (bytes ++ ws.flatMap a.segment.order.bytes).length + 4 * vs.length =
        bytes.length + 4 * (ws.length + vs.length) := by
      rw [List.length_append, length_code]
      omega
    obtain ⟨c, ran'⟩ := second.able vs two b _ wrote.written (wrote.target.trans target)
      (wrote.room _ (by omega) (by rwa [total]))
    refine ⟨c, ?_⟩
    rw [bind_apply, ran]
    exact ran'

theorem Writes.forM {α : Type} {f : α → Asm Unit} {g : α → Instr} {items : List α}
    (each : ∀ x ∈ items, Writes t (f x) [g x]) : Writes t (items.forM f) (items.map g) := by
  induction items with
  | nil => exact writes_pure
  | cons x rest ih =>
    exact (each x List.mem_cons_self).bind (ih fun y member => each y (List.mem_cons_of_mem _ member))

theorem emit_wrote {a : Assembly} {bytes : List UInt8} (written : Written a.segment bytes)
    (w : Word) (room : Room a.segment (bytes.length + 4)) :
    ∃ b, Asm.emit w a = .ok () b ∧ Wrote a b bytes [w] := by
  obtain ⟨b, log, ran, written', order, same, more⟩ := emit_written written w room
  refine ⟨b, ran, ⟨?_, order, ⟨log, same⟩, more⟩⟩
  rwa [List.flatMap_singleton]

theorem writes_emit {w : Word} {i : Instr} (encoded : Encodes w i) :
    Writes t (Asm.emit w) [i] where
  start := by
    intro a b bounded _ ran
    obtain ⟨s, appended⟩ := append_of_emit ran
    exact .inr (written_of_append bounded appended)
  done := by
    intro a b bytes written _ ran
    obtain ⟨s, appended⟩ := append_of_emit ran
    have four := length_bytes a.segment.order w
    have room := room_of_append written (by omega) appended
    rw [four] at room
    obtain ⟨c, emitted, wrote⟩ := emit_wrote written w room
    rw [emitted] at ran
    cases ran
    exact ⟨[w], .cons encoded .nil, wrote⟩
  able := by
    rintro ws words a bytes written - room
    have one := words.length_eq
    rw [one] at room
    obtain ⟨b, emitted, -⟩ := emit_wrote written w room
    exact ⟨b, emitted⟩

theorem writes_encoded {e : Except Fault Word} {i : Instr} (same : ∀ w, e = .ok w ↔ Encodes w i) :
    Writes t (Asm.emitEncoded e) [i] := by
  cases e with
  | ok w =>
    have emits : Asm.emitEncoded (.ok w) = Asm.emit w := by
      funext a
      simp only [Asm.emitEncoded, bind_apply, ofExcept_ok]
    rw [emits]
    exact writes_emit ((same w).mp rfl)
  | error fault =>
    have fails (a : Assembly) : Asm.emitEncoded (.error fault) a = .error fault a := by
      simp only [Asm.emitEncoded, bind_apply, ofExcept_error]
    constructor
    · intro a b _ _ ran
      rw [fails] at ran
      cases ran
    · intro a b _ _ _ ran
      rw [fails] at ran
      cases ran
    · rintro _ (_ | ⟨encoded, -⟩)
      cases (same _).mpr encoded

theorem writes_titled (title : String) (op : Opcode) (args : Args op.operands) :
    Writes t (Asm.emitEncoded (op.encodeAs title args 0)) [⟨op, args⟩] :=
  writes_encoded fun _ => encodeAs_iff_encodes title (i := ⟨op, args⟩)

theorem writes_instr (op : Opcode) (args : Args op.operands) :
    Writes t (Asm.instr op args) [⟨op, args⟩] :=
  writes_encoded fun _ => Iff.rfl

theorem writes_short {s : Alias} {args : Args s.operands} {i : Instr}
    (expanded : s.expand args = .ok i) : Writes t (Asm.short s args) [i] := by
  refine writes_encoded fun w => ?_
  rw [Alias.encode, expanded]
  exact encodeAs_iff_encodes (s.title i.op)

/-- An action that depends on the target is known once the target is. -/
theorem writes_target {action : Target → Asm Unit} {is : List Instr}
    (chosen : Writes t (action t) is) : Writes t (Asm.target >>= action) is := by
  have same {a : Assembly} (target : a.assembler.target = t) :
      (Asm.target >>= action) a = action t a := by
    simp only [Asm.target, Asm.assembler, bind_apply, get_apply, pure_apply, target]
  constructor
  · intro a b bounded target ran
    rw [same target] at ran
    exact chosen.start a b bounded target ran
  · intro a b bytes written target ran
    rw [same target] at ran
    exact chosen.done a b bytes written target ran
  · intro ws encoded a bytes written target room
    rw [same target]
    exact chosen.able ws encoded a bytes written target room

theorem writes_sized {narrow wide : Asm Unit} {is : List Instr}
    (chosen : Writes t (t.choose narrow wide) is) : Writes t (Asm.sized narrow wide) is :=
  writes_target chosen

/-- For a target, the action writes words that hold these instructions. -/
def Emits (t : Target) (action : Asm Unit) (is : List Instr) : Prop :=
  ∃ ws, List.Forall₂ Holds ws is ∧
    ∀ a bytes, Written a.segment bytes → a.assembler.target = t →
      Room a.segment (bytes.length + 4 * ws.length) →
      ∃ b, action a = .ok () b ∧ Wrote a b bytes ws

theorem Writes.wrote {action : Asm Unit} {is : List Instr} (writes : Writes t action is)
    {ws : List Word} (encoded : List.Forall₂ Encodes ws is) {a : Assembly} {bytes : List UInt8}
    (written : Written a.segment bytes) (target : a.assembler.target = t)
    (room : Room a.segment (bytes.length + 4 * ws.length)) :
    ∃ b, action a = .ok () b ∧ Wrote a b bytes ws := by
  obtain ⟨b, ran⟩ := writes.able ws encoded a bytes written target room
  obtain ⟨vs, encoded', wrote⟩ := writes.done a b bytes written target ran
  obtain rfl := List.left_unique_forall₂' encodes_unique encoded encoded'
  exact ⟨b, ran, wrote⟩

/-- An action that writes instructions whose operands fit. -/
theorem Writes.emits {action : Asm Unit} {is : List Instr} (writes : Writes t action is)
    (fits : ∀ i ∈ is, OperandsFit i) : Emits t action is := by
  obtain ⟨ws, encoded⟩ := exists_encodes fits
  refine ⟨ws, holds_of_encodes encoded fits, fun a bytes written target room => ?_⟩
  exact writes.wrote encoded written target room

theorem run_eq_execAll {order : ByteOrder} {ws : List Word} {is : List Instr}
    (held : List.Forall₂ Holds ws is) (s : Machine t) :
    Machine.run? order ws s = execAll? (Machine.exec? order) is s := by
  induction held generalizing s with
  | nil => rfl
  | @cons w i ws is first rest ih =>
    rw [Machine.run?, first, execAll?, List.foldlM_cons]
    simp only [Option.bind_eq_bind, Option.bind_some]
    cases s.exec? order i with
    | none => rfl
    | some next => exact ih next

end PowerAsm.Proofs.Emission
