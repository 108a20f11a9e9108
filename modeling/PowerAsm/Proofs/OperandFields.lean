import PowerAsm.Instruction.Layout
import PowerAsm.Proofs.Forms

/-! Operands against the fields they stand in. A register number, a condition field, a
special register, a field mask or a shift amount fits the fields of an instruction word
exactly when it is the one that reading the word gives back. -/
namespace PowerAsm.Proofs.OperandFields
open Fields Integers Forms

theorem unsigned_toNat (w : Word) (low width : Nat) (short : width < 64) :
    (w.unsigned low width).toInt = (w.toNat / 2 ^ low % 2 ^ width : Nat) := by
  rw [unsigned_toInt w low width short, BitVec.extractLsb'_toNat, Nat.shiftRight_eq_div_pow]

theorem field_bound (w : Word) (low width : Nat) (short : width < 64) :
    0 ≤ (w.unsigned low width).toInt ∧ (w.unsigned low width).toInt < (2 ^ width : Nat) := by
  rw [unsigned_toInt w low width short]
  have bound := (w.extractLsb' low width).isLt
  omega

private theorem narrow_eq_iff (n : Int8) (v : Int64) (above : 0 ≤ v.toInt) (below : v.toInt < 128) :
    n.toInt64 = v ↔ n = v.toInt8 := by
  constructor
  · rintro rfl
    simp
  · rintro rfl
    apply Int64.toInt_inj.mp
    rw [Int8.toInt_toInt64, Int64.toInt_toInt8, Int.bmod_eq_of_le (by omega) (by omega)]

theorem gpr_code_eq_iff (r : Gpr) (v : Int64) (above : 0 ≤ v.toInt) (below : v.toInt < 128) :
    r.code = v ↔ r = .ofCode v := by
  have same := narrow_eq_iff r.number v above below
  cases r
  simpa [Gpr.code, Gpr.ofCode] using same

theorem fpr_code_eq_iff (f : Fpr) (v : Int64) (above : 0 ≤ v.toInt) (below : v.toInt < 128) :
    f.code = v ↔ f = .ofCode v := by
  have same := narrow_eq_iff f.number v above below
  cases f
  simpa [Fpr.code, Fpr.ofCode] using same

theorem cr_code_eq_iff (cr : CrField) (v : Int64) (above : 0 ≤ v.toInt) (below : v.toInt < 128) :
    cr.code = v ↔ cr = .ofCode v := by
  have same := narrow_eq_iff cr.number v above below
  cases cr
  simpa [CrField.code, CrField.ofCode] using same

theorem spr_code_eq_iff (spr : Spr) (v : Int64) (above : 0 ≤ v.toInt) (below : v.toInt < 32768) :
    spr.code = v ↔ spr = .ofCode v := by
  obtain ⟨number⟩ := spr
  simp only [Spr.code, Spr.ofCode, Spr.mk.injEq]
  constructor
  · rintro rfl
    simp
  · rintro rfl
    apply Int64.toInt_inj.mp
    rw [Int16.toInt_toInt64, Int64.toInt_toInt16, Int.bmod_eq_of_le (by omega) (by omega)]

@[simp] theorem gpr_code_eq_field (r : Gpr) (w : Word) (low : Nat) :
    r.code = w.unsigned low 5 ↔ r = .ofCode (w.unsigned low 5) := by
  have bound := field_bound w low 5 (by decide)
  exact gpr_code_eq_iff r _ bound.1 (by omega)

@[simp] theorem fpr_code_eq_field (f : Fpr) (w : Word) (low : Nat) :
    f.code = w.unsigned low 5 ↔ f = .ofCode (w.unsigned low 5) := by
  have bound := field_bound w low 5 (by decide)
  exact fpr_code_eq_iff f _ bound.1 (by omega)

@[simp] theorem flag_eq_field (w : Word) (position : Nat) (b : Bool) :
    (if b then 1 else 0) = w.unsigned position 1 ↔ b = w.bit position := by
  rw [← eq_unsigned_iff w _ position 1 (by decide), holds_bit_iff]
  cases b <;> simp [fitsUnsigned_iff]

/-- Places that hold zero are zero under their common mask. -/
theorem and_masks_eq_zero_iff (w : Word) (ps : List Placed)
    (inside : ∀ p ∈ ps, p.low + p.width ≤ 32) (apart : ps.Pairwise Placed.Apart)
    (zero : ∀ p ∈ ps, p.value = 0) :
    w &&& masks ps = 0#32 ↔ ∀ p ∈ ps, w.unsigned p.low p.width = 0 := by
  have blank : words ps = 0#32 := by
    clear inside apart
    induction ps with
    | nil => rfl
    | cons p rest ih =>
      have first : p.word = 0#32 := by
        simp [Placed.word, Word.ofField, zero p (by simp)]
      have others := ih fun q member => zero q (by simp [member])
      show p.word ||| words rest = 0#32
      rw [first, others]
      rfl
  rw [← blank, and_masks_eq_words_iff w ps inside apart]
  constructor
  · intro held p member
    have narrow := inside p member
    have value := zero p member
    refine ((eq_unsigned_iff w 0 p.low p.width (by omega)).mp ⟨?_, ?_⟩).symm
    · rw [fitsUnsigned_iff]
      exact ⟨Int.le_refl 0, Int.natCast_pos.mpr (Nat.two_pow_pos p.width)⟩
    · simpa [Placed.Holds, value] using held p member
  · intro same p member
    have narrow := inside p member
    have value := zero p member
    have held := ((eq_unsigned_iff w 0 p.low p.width (by omega)).mpr (same p member).symm).2
    simpa [Placed.Holds, value] using held

/-- `given` is the number `read`, or the unsigned pattern of its 16 bits. -/
def SameHalf (given read : Int64) : Prop := given = read ∨ read.toInt < 0 ∧ given = read + 65536

private theorem half_readings (w : Word) (low width : Nat) (positive : 0 < width)
    (short : width < 64) :
    (w.unsigned low width).toInt = (w.signed low width).toInt ∧ 0 ≤ (w.signed low width).toInt ∨
      (w.unsigned low width).toInt = (w.signed low width).toInt + (2 ^ width : Nat) ∧
        (w.signed low width).toInt < 0 := by
  have power : 2 ^ width = 2 * 2 ^ (width - 1) := by
    rw [← Nat.pow_succ', Nat.succ_eq_add_one, Nat.sub_add_cancel positive]
  have bound := (w.extractLsb' low width).isLt
  rw [unsigned_toInt w low width short, signed_toInt w low width (by omega),
    BitVec.toInt_eq_toNat_cond]
  split <;> omega

@[simp] theorem sameHalf_signed_iff (v : Int64) (w : Word) :
    v = w.unsigned 0 16 ∨ v = w.signed 0 16 ↔ SameHalf v (w.signed 0 16) := by
  have readings := half_readings w 0 16 (by decide) (by decide)
  have shifted : (w.signed 0 16).toInt < 0 →
      (w.signed 0 16 + 65536).toInt = (w.signed 0 16).toInt + 65536 := by
    intro negative
    have lowest := BitVec.le_toInt (w.extractLsb' 0 16)
    have value := signed_toInt w 0 16 (by decide)
    rw [toInt_add_of_range] <;> rw [show (65536 : Int64).toInt = 65536 from rfl] <;> omega
  simp only [SameHalf, ← Int64.toInt_inj]
  omega

@[simp] theorem sameHalf_displacement_iff (v : Int64) (w : Word) :
    v = w.unsigned 2 14 * 4 ∨ v = w.signed 2 14 * 4 ↔ SameHalf v (Layout.displacement w 14) := by
  have readings := half_readings w 2 14 (by decide) (by decide)
  have lowest := BitVec.le_toInt (w.extractLsb' 2 14)
  have highest := BitVec.toInt_lt (x := w.extractLsb' 2 14)
  have value := signed_toInt w 2 14 (by decide)
  have four : (4 : Int64).toInt = 4 := rfl
  have half : (65536 : Int64).toInt = 65536 := rfl
  have scaled : (w.signed 2 14 * 4).toInt = (w.signed 2 14).toInt * 4 := by
    rw [toInt_mul_of_range] <;> rw [four] <;> omega
  have scaledUnsigned : (w.unsigned 2 14 * 4).toInt = (w.unsigned 2 14).toInt * 4 := by
    rw [toInt_mul_of_range] <;> rw [four] <;> omega
  have shifted : (w.signed 2 14 * 4 + 65536).toInt = (w.signed 2 14).toInt * 4 + 65536 := by
    rw [toInt_add_of_range] <;> rw [scaled, half] <;> omega
  simp only [SameHalf, Layout.displacement, ← Int64.toInt_inj, scaled, scaledUnsigned, shifted]
  omega

/-- The first field of a comparison is the condition field, a zero and the size bit. -/
@[simp] theorem comparison_eq_field (cr : CrField) (d : Bool) (w : Word) :
    Layout.comparison cr d = w.unsigned 21 5 ↔
      0 = w.unsigned 22 1 ∧ d = w.bit 21 ∧ cr = .ofCode (w.unsigned 23 3) := by
  have field := unsigned_toNat w 21 5 (by decide)
  have gap := unsigned_toNat w 22 1 (by decide)
  have size := unsigned_toNat w 21 1 (by decide)
  have number := unsigned_toNat w 23 3 (by decide)
  have above := Int8.le_toInt cr.number
  have below := Int8.toInt_lt cr.number
  have code : cr.code.toInt = cr.number.toInt := Int8.toInt_toInt64 _
  have bit : (if d then 1 else 0 : Int64).toInt = if d then 1 else 0 := by cases d <;> rfl
  have scaled : (cr.code * 4).toInt = cr.code.toInt * 4 := by
    rw [toInt_mul_of_range] <;> rw [show (4 : Int64).toInt = 4 from rfl] <;> omega
  have sum : (Layout.comparison cr d).toInt = cr.code.toInt * 4 + if d then 1 else 0 := by
    rw [Layout.comparison, toInt_add_of_range] <;> rw [scaled, bit] <;> split <;> omega
  rw [← flag_eq_field, ← cr_code_eq_iff cr _ (by omega) (by omega), ← Int64.toInt_inj,
    ← Int64.toInt_inj, ← Int64.toInt_inj, ← Int64.toInt_inj, sum, field, gap, size, number, bit,
    show (0 : Int64).toInt = 0 from rfl]
  split <;> omega

/-- The two parts of an operand that stands in two fields, put together. -/
theorem split_toInt (w : Word) (low high width : Nat) (short : width ≤ 5) :
    (w.unsigned low 5 + 32 * w.unsigned high width).toInt =
      (w.unsigned low 5).toInt + 32 * (w.unsigned high width).toInt := by
  have lower := field_bound w low 5 (by decide)
  have upper := field_bound w high width (by omega)
  have power : 2 ^ width ≤ 2 ^ 5 := Nat.pow_le_pow_right (by decide) short
  have scaled : (32 * w.unsigned high width).toInt = 32 * (w.unsigned high width).toInt := by
    rw [toInt_mul_of_range] <;> rw [show (32 : Int64).toInt = 32 from rfl] <;> omega
  rw [toInt_add_of_range] <;> rw [scaled] <;> omega

/-- A special register stands in two fields, the lower half of its number first. -/
theorem spr_eq_fields (spr : Spr) (w : Word) :
    spr.code &&& 0x1F = w.unsigned 16 5 ∧ spr.code >>> 5 = w.unsigned 11 5 ↔
      spr = Layout.fieldSpr w := by
  have lower := unsigned_toNat w 16 5 (by decide)
  have upper := unsigned_toNat w 11 5 (by decide)
  have masked : (spr.code &&& 0x1F).toInt = spr.code.toInt % 32 := toInt_and_mask spr.code 5 (by decide)
  have shifted : (spr.code >>> 5).toInt = spr.code.toInt / 32 := toInt_shiftRight spr.code 5 (by decide)
  have sum := split_toInt w 16 11 5 (by decide)
  rw [Layout.fieldSpr, Layout.fieldB, Layout.fieldC,
    ← spr_code_eq_iff spr _ (by omega) (by omega), ← Int64.toInt_inj, ← Int64.toInt_inj,
    ← Int64.toInt_inj, masked, shifted, sum]
  omega

/-- A mask of condition fields stands in two fields with an unused bit beside each half. -/
theorem mask_eq_fields (mask : Int64) (w : Word) :
    fitsUnsigned mask 8 = true ∧ mask >>> 4 = w.unsigned 16 5 ∧
        (mask &&& 0xF) * 2 = w.unsigned 11 5 ↔
      (w.unsigned 20 1 = 0 ∧ w.unsigned 11 1 = 0) ∧ mask = w.unsigned 12 8 := by
  have upper := unsigned_toNat w 16 5 (by decide)
  have lower := unsigned_toNat w 11 5 (by decide)
  have whole := unsigned_toNat w 12 8 (by decide)
  have above := unsigned_toNat w 20 1 (by decide)
  have below := unsigned_toNat w 11 1 (by decide)
  have masked : (mask &&& 0xF).toInt = mask.toInt % 16 := toInt_and_mask mask 4 (by decide)
  have shifted : (mask >>> 4).toInt = mask.toInt / 16 := toInt_shiftRight mask 4 (by decide)
  have doubled : ((mask &&& 0xF) * 2).toInt = (mask &&& 0xF).toInt * 2 := by
    rw [toInt_mul_of_range] <;> rw [masked, show (2 : Int64).toInt = 2 from rfl] <;> omega
  rw [fitsUnsigned_iff]
  simp only [← Int64.toInt_inj]
  rw [shifted, doubled, masked, upper, lower, whole, above, below, show (0 : Int64).toInt = 0 from rfl]
  omega

/-- The third register of a multiplication stands above the extended opcode. -/
theorem multiplier_eq_field (f : Fpr) (extended : Nat) (small : extended < 32) (w : Word) :
    f.isValid = true ∧ f.code * 32 + Int64.ofNat extended = w.unsigned 1 10 ↔
      Int64.ofNat extended = w.unsigned 1 5 ∧ f = .ofCode (w.unsigned 6 5) := by
  have field := unsigned_toNat w 1 10 (by decide)
  have lower := unsigned_toNat w 1 5 (by decide)
  have upper := unsigned_toNat w 6 5 (by decide)
  have code : f.code.toInt = f.number.toInt := Int8.toInt_toInt64 _
  have above := Int8.le_toInt f.number
  have below := Int8.toInt_lt f.number
  have constant : (Int64.ofNat extended).toInt = extended := Int64.toInt_ofNat_of_lt (by omega)
  have valid : f.isValid = true ↔ 0 ≤ f.number.toInt ∧ f.number.toInt ≤ 31 := by
    simp [Fpr.isValid, Int8.le_iff_toInt_le]
  have scaled : (f.code * 32).toInt = f.code.toInt * 32 := by
    rw [toInt_mul_of_range] <;> rw [show (32 : Int64).toInt = 32 from rfl] <;> omega
  have sum : (f.code * 32 + Int64.ofNat extended).toInt = f.code.toInt * 32 + extended := by
    rw [toInt_add_of_range] <;> rw [scaled, constant] <;> omega
  rw [valid, ← fpr_code_eq_field, ← Int64.toInt_inj, ← Int64.toInt_inj, ← Int64.toInt_inj, sum,
    constant, field, lower, upper]
  omega

theorem checkShift_eq_ok_iff (op : String) (amount limit : Int64) (done : Unit) :
    Layout.checkShift op amount limit = .ok done ↔ 0 ≤ amount.toInt ∧ amount.toInt ≤ limit.toInt := by
  unfold Layout.checkShift
  split <;> simp_all [Int64.le_iff_toInt_le]

theorem or_low_bit (extended : Nat) (small : extended < 1024) (even : extended % 2 = 0)
    (h : Int64) (bit : h.toInt = 0 ∨ h.toInt = 1) :
    (Int64.ofNat extended ||| h).toInt = extended + h.toInt := by
  obtain ⟨half, rfl⟩ : ∃ half, extended = 2 * half := ⟨extended / 2, by omega⟩
  obtain rfl | rfl : h = 0 ∨ h = 1 := bit.imp Int64.toInt_inj.mp Int64.toInt_inj.mp
  · rw [Int64.or_zero, Int64.toInt_ofNat_of_lt (by omega)]
    rfl
  · have joined : Int64.ofNat (2 * half) ||| 1 = Int64.ofNat (2 * half + 1) := by
      apply Int64.toBitVec_inj.mp
      apply BitVec.eq_of_toNat_eq
      have sum := Nat.two_pow_add_eq_or_of_lt (i := 1) (b := 1) (by decide) half
      have left : (Int64.ofNat (2 * half) ||| 1).toBitVec.toNat = 2 * half % 2 ^ 64 ||| 1 := rfl
      have right : (Int64.ofNat (2 * half + 1)).toBitVec.toNat = (2 * half + 1) % 2 ^ 64 := rfl
      rw [left, right, Nat.mod_eq_of_lt (by omega), Nat.mod_eq_of_lt (by omega)]
      exact sum.symm
    rw [joined, Int64.toInt_ofNat_of_lt (by omega)]
    rfl

/-- The upper bit of a six-bit shift amount stands in the lowest bit of the extended
opcode, which is even. -/
theorem shift_eq_fields (n : Int64) (extended : Nat) (small : extended < 1024)
    (even : extended % 2 = 0) (w : Word) :
    (0 ≤ n.toInt ∧ n.toInt ≤ 63) ∧ n &&& 0x1F = w.unsigned 11 5 ∧
        Int64.ofNat extended ||| n >>> 5 = w.unsigned 1 10 ↔
      Int64.ofNat (extended / 2) = w.unsigned 2 9 ∧ n = w.unsigned 11 5 + 32 * w.unsigned 1 1 := by
  have lower := unsigned_toNat w 11 5 (by decide)
  have field := unsigned_toNat w 1 10 (by decide)
  have constant := unsigned_toNat w 2 9 (by decide)
  have upper := unsigned_toNat w 1 1 (by decide)
  have above : (w.unsigned 2 9).toInt = (w.unsigned 1 10).toInt / 2 := by omega
  have below : (w.unsigned 1 1).toInt = (w.unsigned 1 10).toInt % 2 := by omega
  have half : (Int64.ofNat (extended / 2)).toInt = extended / 2 := by
    rw [Int64.toInt_ofNat_of_lt (by omega)]
    omega
  have sum := split_toInt w 11 1 1 (by decide)
  have masked : (n &&& 0x1F).toInt = n.toInt % 32 := toInt_and_mask n 5 (by decide)
  have shifted : (n >>> 5).toInt = n.toInt / 32 := toInt_shiftRight n 5 (by decide)
  simp only [← Int64.toInt_inj]
  rw [half, sum, masked]
  by_cases inside : 0 ≤ n.toInt ∧ n.toInt ≤ 63
  · rw [or_low_bit extended small even (n >>> 5) (by omega), shifted]
    omega
  · omega

end PowerAsm.Proofs.OperandFields
