import Mathlib.Data.Nat.ModEq
import Mathlib.Order.Bounds.Basic
import PowerAsm.Proofs.Processor

/-! Padding. What is missing from a number to a multiple of a power of two is computed by masking,
subtracting and masking again. The number that is subtracted from goes into a signed field, which
the highest power has no room in; the second mask makes up for its wrong sign. -/
namespace PowerAsm.Proofs.Padding
open Storage Integers Forms OperandFields Layouts Table Emission ConditionRegister
open PowerAsm.Proofs.Core

theorem isLeast_missing {m : Nat} (positive : 0 < m) (v : Nat) :
    IsLeast {p | m ∣ v + p} ((m - v % m) % m) := by
  have rest := Nat.mod_lt v positive
  have whole : v + (m - v % m) = m * (v / m + 1) := by
    have parts := Nat.div_add_mod v m
    rw [Nat.mul_add, Nat.mul_one]
    omega
  have multiple : (v + (m - v % m)) % m = 0 := by rw [whole, Nat.mul_mod_right]
  constructor
  · show m ∣ v + (m - v % m) % m
    rw [Nat.dvd_iff_mod_eq_zero, Nat.add_mod_mod, multiple]
  · intro p reached
    -- whatever else leads to a multiple makes up for the same remainder
    have same : m - v % m ≡ p [MOD m] :=
      Nat.ModEq.add_left_cancel' v (multiple.trans (Nat.mod_eq_zero_of_dvd reached).symm)
    rw [same]
    exact Nat.mod_le p m

/-- What is missing, computed with a mask of the bits below the power. -/
theorem masked_toNat {w k : Nat} (short : k ≤ w) {v align mask : BitVec w}
    (low : mask.toNat = 2 ^ k - 1) (aligned : 2 ^ k ∣ align.toNat) :
    ((align - (v &&& mask)) &&& mask).toNat = (2 ^ k - v.toNat % 2 ^ k) % 2 ^ k := by
  have masked (x : BitVec w) : (x &&& mask).toNat = x.toNat % 2 ^ k := by
    rw [BitVec.toNat_and, low, Nat.and_two_pow_sub_one_eq_mod]
  have divides : 2 ^ k ∣ 2 ^ w := Nat.pow_dvd_pow 2 short
  have rest := Nat.mod_lt v.toNat (Nat.two_pow_pos k)
  rw [masked, BitVec.toNat_sub, masked, Nat.mod_mod_of_dvd _ divides]
  obtain ⟨c, whole⟩ := divides
  obtain ⟨d, multiple⟩ := aligned
  have positive : 0 < c := Nat.pos_of_ne_zero fun none => by
    rw [none, Nat.mul_zero] at whole
    exact absurd whole (Nat.ne_of_gt (Nat.two_pow_pos w))
  have sum : 2 ^ w - v.toNat % 2 ^ k + align.toNat =
      2 ^ k - v.toNat % 2 ^ k + 2 ^ k * (c - 1 + d) := by
    have first : 2 ^ k * c = 2 ^ k + 2 ^ k * (c - 1) := by
      rw [Nat.mul_sub, Nat.mul_one, Nat.add_sub_cancel' (Nat.le_mul_of_pos_right _ positive)]
    rw [whole, multiple, Nat.mul_add, first]
    omega
  rw [sum, Nat.add_mul_mod_self_left]

/-- Masks, subtracts from a number and masks again. -/
def maskingCode (dst src : Gpr) (mask si : Int64) : List Instr :=
  [⟨.andi, (dst, src, mask, ())⟩, ⟨.subfic, (dst, dst, si, ())⟩, ⟨.andi, (dst, dst, mask, ())⟩]

/-- What the code computes. -/
def missing {w : Nat} (align mask v : BitVec w) : BitVec w := (align - (v &&& mask)) &&& mask

section Code
variable {t : Target} {dst src : Gpr} {align : Int64}

theorem writes_padding (positive : 0 < align) (power : align &&& (align - 1) = 0) :
    Writes t (Asm.computePadding dst src align) (maskingCode dst src (align - 1) align) := by
  have good : ¬ (align ≤ 0 ∨ align &&& (align - 1) ≠ 0) := by
    rw [not_or, not_not]
    exact ⟨Int64.not_le.mpr positive, power⟩
  rw [Asm.computePadding, if_neg good]
  exact (writes_instr ..).bind ((writes_instr ..).bind (writes_instr ..))

/-- The core with another value in one register, another condition register and another carry. -/
def told (s : Core t) (r : Gpr) (v : BitVec (width t)) (cr : BitVec 32) (carry : Bool) : Core t :=
  { s with gpr := fun x => if x = r then v else s.gpr x, cr, carry }

theorem gpr_told (s : Core t) (r : Gpr) (v : BitVec (width t)) (cr : BitVec 32) (carry : Bool) :
    (told s r v cr carry).gpr r = v :=
  if_pos rfl

theorem told_told (s : Core t) (r : Gpr) (v v' : BitVec (width t)) (cr cr' : BitVec 32)
    (carry carry' : Bool) :
    told (told s r v cr carry) r v' cr' carry' = told s r v' cr' carry' := by
  have same : (fun x => if x = r then v' else (told s r v cr carry).gpr x) =
      fun x => if x = r then v' else s.gpr x := by
    funext x
    split
    · rfl
    · next other => exact if_neg other
  rw [told, same]
  rfl

/-- A conjunction tells in the first condition field how its result compares with zero. -/
theorem exec_andi (order : ByteOrder) (s : Core t) (ra rs : Gpr) (ui : Int64) :
    ∃ v, s.exec? order ⟨.andi, (ra, rs, ui, ())⟩ =
      some (told s ra (s.gpr rs &&& Machine.number ui) (replaceField s.cr .cr0 v) s.carry) :=
  ⟨_, rfl⟩

theorem exec_subfic (order : ByteOrder) (s : Core t) (rt ra : Gpr) (si : Int64) :
    ∃ carry, s.exec? order ⟨.subfic, (rt, ra, si, ())⟩ =
      some (told s rt (Machine.number si - s.gpr ra) s.cr carry) :=
  ⟨_, rfl⟩

/-- Only the register, the first condition field and the carry change. -/
theorem exec_masking (order : ByteOrder) (s : Core t) (dst src : Gpr) (mask si : Int64) :
    ∃ cr carry, SameBehind s.cr cr ∧ execAll? (exec? order) (maskingCode dst src mask si) s = some
      (told s dst (missing (Machine.number si) (Machine.number mask) (s.gpr src)) cr carry) := by
  obtain ⟨first, masked⟩ := exec_andi order s dst src mask
  obtain ⟨carry, subtracted⟩ := exec_subfic order (told s dst _ _ _) dst dst si
  rw [told_told, gpr_told] at subtracted
  obtain ⟨last, masked'⟩ := exec_andi order (told s dst _ _ carry) dst dst mask
  rw [told_told, gpr_told] at masked'
  refine ⟨replaceField (replaceField s.cr .cr0 first) .cr0 last, carry, ?_, ?_⟩
  · exact (sameBehind_replaceField s.cr first).trans (sameBehind_replaceField _ last)
  · rw [maskingCode, execAll_cons masked, execAll_cons subtracted]
    exact execAll_cons masked' []

end Code

theorem and_pred_eq_zero_iff {align : Int64} (positive : 0 < align.toInt) :
    align &&& (align - 1) = 0 ↔ ∃ k, align.toInt = 2 ^ k := by
  have value : align.toInt = align.toBitVec.toNat := by
    rw [← Int64.toInt_toBitVec] at positive ⊢
    exact BitVec.toInt_eq_toNat_of_msb (by rw [BitVec.msb_eq_toInt, decide_eq_false (by omega)])
  have one : (1 : Int64).toBitVec.toNat = 1 := rfl
  have lower : (align - 1).toBitVec.toNat = align.toBitVec.toNat - 1 := by
    rw [Int64.toBitVec_sub, BitVec.toNat_sub_of_le (by rw [BitVec.le_def]; omega), one]
  have masked : (align &&& (align - 1)).toBitVec.toNat =
      align.toBitVec.toNat &&& (align.toBitVec.toNat - 1) := by
    rw [Int64.toBitVec_and, BitVec.toNat_and, lower]
  have none : align &&& (align - 1) = 0 ↔ align.toBitVec.toNat &&& (align.toBitVec.toNat - 1) = 0 := by
    rw [← masked, ← Int64.toBitVec_inj, ← BitVec.toNat_inj]
    rfl
  rw [none, Nat.and_sub_one_eq_zero_iff_isPowerOfTwo (by omega), value]
  exact exists_congr fun k => by norm_cast

/-- What is asked of an alignment before anything is written. -/
theorem refused_iff {align : Int64} :
    (align ≤ 0 ∨ align &&& (align - 1) ≠ 0) ↔ ¬ ∃ k, align.toInt = 2 ^ k := by
  have zero : (0 : Int64).toInt = 0 := rfl
  rw [Int64.le_iff_toInt_le, zero]
  by_cases positive : 0 < align.toInt
  · rw [← and_pred_eq_zero_iff positive]
    exact ⟨fun either => either.resolve_left (by omega), .inr⟩
  · refine ⟨fun _ power => ?_, fun _ => .inl (by omega)⟩
    obtain ⟨k, power⟩ := power
    have above : (0 : Int) < 2 ^ k := Int.pow_pos (by decide)
    omega

/-- A register that was read from a word is one. -/
theorem isValid_field (w : Word) (low : Nat) : (Gpr.ofCode (w.unsigned low 5)).isValid = true := by
  have bound := field_bound w low 5 (by decide)
  have number : (w.unsigned low 5).toInt8.toInt = (w.unsigned low 5).toInt := by
    rw [Int64.toInt_toInt8, Int.bmod_eq_of_le (by omega) (by omega)]
  have zero : (0 : Int8).toInt = 0 := rfl
  have last : (31 : Int8).toInt = 31 := rfl
  rw [Gpr.isValid, Gpr.ofCode, Bool.and_eq_true, decide_eq_true_iff, decide_eq_true_iff,
    Int8.le_iff_toInt_le, Int8.le_iff_toInt_le, number]
  omega

/-- The number that is read from the word of the subtraction. The highest alignment is one more
than its field holds, and has changed its sign. -/
def heldAlign (align : Int64) : Int64 := if align = 32768 then -32768 else align

/-- The code as its words hold it. -/
def heldCode (dst src : Gpr) (align : Int64) : List Instr :=
  maskingCode dst src (align - 1) (heldAlign align)

/-- Both signs of the highest alignment go into the same word. -/
theorem encodes_heldAlign {w : Word} {rt ra : Gpr} (align : Int64) :
    Encodes w ⟨.subfic, (rt, ra, heldAlign align, ())⟩ ↔
      Encodes w ⟨.subfic, (rt, ra, align, ())⟩ := by
  rw [heldAlign]
  split
  · next highest =>
    obtain ⟨low, high⟩ := signed_range w
    have half : (65536 : Int64).toInt = 65536 := rfl
    have positive : (32768 : Int64).toInt = 32768 := rfl
    have negative : (-32768 : Int64).toInt = -32768 := rfl
    have sum : (w.signed 0 16 + 65536).toInt = (w.signed 0 16).toInt + 65536 := by
      rw [toInt_add_of_range] <;> rw [half] <;> omega
    have same : SameHalf (-32768) (w.signed 0 16) ↔ SameHalf 32768 (w.signed 0 16) := by
      simp only [SameHalf, ← Int64.toInt_inj, sum, positive, negative]
      omega
    rw [highest]
    refine (encodeAs_eq_ok_iff _ .subfic (rt, ra, -32768, ()) 0 w).trans
      (.trans ?_ (encodeAs_eq_ok_iff _ .subfic (rt, ra, 32768, ()) 0 w).symm)
    -- only the number differs, and either sign agrees with what is read from the word
    exact and_congr_right fun _ => and_congr_right fun _ => and_congr_right fun _ =>
      and_congr_right fun _ => and_congr_left fun _ => same
  · rfl

theorem encodes_heldCode {ws : List Word} {dst src : Gpr} {align : Int64} :
    List.Forall₂ Encodes ws (heldCode dst src align) ↔
      List.Forall₂ Encodes ws (maskingCode dst src (align - 1) align) := by
  constructor
  · rintro (_ | ⟨first, _ | ⟨second, rest⟩⟩)
    exact .cons first (.cons ((encodes_heldAlign align).mp second) rest)
  · rintro (_ | ⟨first, _ | ⟨second, rest⟩⟩)
    exact .cons first (.cons ((encodes_heldAlign align).mpr second) rest)

/-- What has words is a power of two up to 2 ^ 15, with two registers. -/
theorem accepted_of_encodes {ws : List Word} {dst src : Gpr} {align : Int64} {k : Nat}
    (encoded : List.Forall₂ Encodes ws (maskingCode dst src (align - 1) align))
    (power : align.toInt = 2 ^ k) :
    dst.isValid = true ∧ src.isValid = true ∧ k ≤ 15 := by
  obtain ⟨first, _, masked, rest, -⟩ := List.forall₂_cons_right_iff.mp encoded
  obtain ⟨second, _, subtracted, -, -⟩ := List.forall₂_cons_right_iff.mp rest
  obtain ⟨-, -, target, source, -⟩ :=
    (encodeAs_eq_ok_iff _ .andi (dst, src, align - 1, ()) 0 first).mp masked
  obtain ⟨-, -, -, -, same, -⟩ :=
    (encodeAs_eq_ok_iff _ .subfic (dst, dst, align, ()) 0 second).mp subtracted
  refine ⟨target ▸ isValid_field first 16, source ▸ isValid_field first 21, ?_⟩
  have below := (sameHalf_range (signed_range second).1 (signed_range second).2 same).2
  rw [power] at below
  have short : k < 16 := (Nat.pow_lt_pow_iff_right (by decide : 1 < 2)).mp (by exact_mod_cast below)
  omega

section Accepted
variable {align : Int64} {k : Nat} (small : k ≤ 15) (power : align.toInt = 2 ^ k)
include small power

theorem align_bounds : 1 ≤ align.toInt ∧ align.toInt ≤ 2 ^ 15 := by
  have lower : 1 ≤ 2 ^ k := Nat.one_le_two_pow
  have upper : 2 ^ k ≤ 2 ^ 15 := Nat.pow_le_pow_right (by decide) small
  rw [power]
  exact ⟨by exact_mod_cast lower, by exact_mod_cast upper⟩

theorem pred_toInt : (align - 1).toInt = 2 ^ k - 1 := by
  have bounds := align_bounds small power
  have one : (1 : Int64).toInt = 1 := rfl
  rw [toInt_sub_of_range, one, power] <;> rw [one] <;> omega

theorem fits_heldCode {dst src : Gpr} (target : dst.isValid = true) (source : src.isValid = true) :
    ∀ i ∈ heldCode dst src align, OperandsFit i := by
  have bounds := align_bounds small power
  have mask : fitsUnsigned (align - 1) 16 = true := by
    have value := pred_toInt small power
    rw [fitsUnsigned_iff]
    omega
  have held : fitsSigned (heldAlign align) 16 = true := by
    rw [heldAlign]
    split
    · decide
    · next lower =>
      have highest : (32768 : Int64).toInt = 32768 := rfl
      rw [← Int64.toInt_inj, highest] at lower
      rw [fitsSigned_iff (by decide) (by decide)]
      omega
  simp only [heldCode, maskingCode, List.forall_mem_cons]
  exact ⟨⟨target, source, mask⟩, ⟨target, target, held⟩, ⟨target, target, mask⟩,
    List.forall_mem_nil _⟩

omit small in
/-- Of the highest alignment only the sign has changed, which leaves it a multiple of itself. -/
theorem dvd_heldAlign : (2 ^ k : Int) ∣ (heldAlign align).toInt := by
  rw [heldAlign, ← power]
  split
  · next highest =>
    have negative : (-32768 : Int64).toInt = -(32768 : Int64).toInt := rfl
    rw [negative, ← highest]
    exact Int.dvd_neg.mpr (Int.dvd_refl _)
  · exact Int.dvd_refl _

variable (t : Target)

omit power in
theorem short_width : k < width t := by
  have wide : 15 < width t := by cases t <;> decide
  omega

theorem mask_toNat : (Machine.number (align - 1) : BitVec (width t)).toNat = 2 ^ k - 1 := by
  have positive := Nat.two_pow_pos k
  have wide : 2 ^ k < 2 ^ width t := Nat.pow_lt_pow_right (by decide) (short_width small t)
  have value : (align - 1).toInt = (2 ^ k - 1 : Nat) := by
    rw [pred_toInt small power]
    push_cast [Nat.cast_sub positive]
    rfl
  rw [Machine.number, value, BitVec.ofInt_natCast, BitVec.toNat_ofNat, Nat.mod_eq_of_lt (by omega)]

theorem dvd_number : 2 ^ k ∣ (Machine.number (heldAlign align) : BitVec (width t)).toNat := by
  have divides : (2 ^ k : Int) ∣ (2 ^ width t : Nat) := by
    exact_mod_cast Nat.pow_dvd_pow 2 (Nat.le_of_lt (short_width small t))
  have value : ((Machine.number (heldAlign align) : BitVec (width t)).toNat : Int) =
      (heldAlign align).toInt % (2 ^ width t : Nat) := by
    rw [Machine.number, BitVec.toNat_ofInt]
    exact Int.toNat_of_nonneg (Int.emod_nonneg _ (by exact_mod_cast (Nat.two_pow_pos (width t)).ne'))
  rw [← Int.natCast_dvd_natCast, value, Nat.cast_pow, Nat.cast_ofNat, Int.dvd_iff_emod_eq_zero,
    Int.emod_emod_of_dvd _ divides, ← Int.dvd_iff_emod_eq_zero]
  exact dvd_heldAlign power

/-- What the words compute. -/
theorem isLeast_held (v : BitVec (width t)) :
    IsLeast {p : Nat | align.toInt ∣ ((v.toNat + p) % 2 ^ width t : Nat)}
      (missing (Machine.number (heldAlign align)) (Machine.number (align - 1)) v).toNat := by
  have divides : 2 ^ k ∣ 2 ^ width t := Nat.pow_dvd_pow 2 (Nat.le_of_lt (short_width small t))
  have same (n : Nat) : align.toInt ∣ (n % 2 ^ width t : Nat) ↔ 2 ^ k ∣ n := by
    have cast : align.toInt = (2 ^ k : Nat) := by exact_mod_cast power
    rw [cast, Int.natCast_dvd_natCast, Nat.dvd_mod_iff divides]
  simp only [same]
  rw [missing, masked_toNat (Nat.le_of_lt (short_width small t)) (mask_toNat small power t)
    (dvd_number small power t)]
  exact isLeast_missing (Nat.two_pow_pos k) v.toNat

end Accepted

section Padding
variable {t : Target} {dst src : Gpr} {align : Int64}

theorem run_heldCode {ws : List Word} (held : List.Forall₂ Holds ws (heldCode dst src align))
    (order : ByteOrder) (s : Processor t) :
    ∃ cr carry, SameBehind s.cr cr ∧ Processor.run? order s.pc ws 3 s =
      some ⟨told s.toCore dst (missing (Machine.number (heldAlign align))
        (Machine.number (align - 1)) (s.gpr src)) cr carry, Processor.place s.pc 3⟩ := by
  have three : ws.length = 3 := held.length_eq
  have short : 4 * ws.length ≤ 2 ^ width t := by
    rw [three]
    cases t <;> decide
  obtain ⟨cr, carry, same, done⟩ :=
    exec_masking order s.toCore dst src (align - 1) (heldAlign align)
  have whole : List.Forall₂ Holds ws ([] ++ (heldCode dst src align ++ [])) := by
    rwa [List.nil_append, List.append_nil]
  exact ⟨cr, carry, same,
    Processor.run_block short whole (Processor.place_zero s.pc).symm done⟩

theorem power_of_computed {a b : Assembly} (ran : Asm.computePadding dst src align a = .ok () b) :
    ∃ k, align.toInt = 2 ^ k := by
  by_contra none
  rw [Asm.computePadding, if_pos (refused_iff.mpr none)] at ran
  cases ran

theorem writes_computed {k : Nat} (power : align.toInt = 2 ^ k) :
    Writes t (Asm.computePadding dst src align) (maskingCode dst src (align - 1) align) := by
  have positive : 0 < align.toInt := by
    rw [power]
    exact Int.pow_pos (by decide)
  exact writes_padding (Int64.lt_iff_toInt_lt.mpr positive)
    ((and_pred_eq_zero_iff positive).mpr ⟨k, power⟩)

/-- Where there is room, the padding is computed for two registers and any power of two up to
2 ^ 15. -/
theorem computed_iff {a : Assembly} {bytes : List UInt8} (written : Written a.segment bytes)
    (target : a.assembler.target = t) (room : Room a.segment (bytes.length + 12)) :
    (∃ b, Asm.computePadding dst src align a = .ok () b) ↔
      dst.isValid = true ∧ src.isValid = true ∧ ∃ k ≤ 15, align.toInt = 2 ^ k := by
  constructor
  · rintro ⟨b, ran⟩
    obtain ⟨k, power⟩ := power_of_computed ran
    obtain ⟨ws, encoded, -⟩ := (writes_computed power).done a b bytes written target ran
    obtain ⟨first, second, small⟩ := accepted_of_encodes encoded power
    exact ⟨first, second, k, small, power⟩
  · rintro ⟨first, second, k, small, power⟩
    obtain ⟨ws, encoded⟩ := exists_encodes (fits_heldCode small power first second)
    rw [encodes_heldCode] at encoded
    have length : ws.length = 3 := encoded.length_eq
    exact (writes_computed power).able ws encoded a bytes written target (by rwa [length])

end Padding

/-- Where there is room, the code that computes padding is written for registers and for powers of
two up to 2 ^ 15, and is refused for everything else. Whenever it is written it is three words,
of which the second one holds the alignment, the highest one with its sign changed. Wherever they
run, they leave in `dst` the least number that leads from what `src` held to a multiple of the
alignment, in the arithmetic of registers. All else stays, but for the first condition field and
the carry. -/
theorem computePadding_least (t : Target) (dst src : Gpr) (align : Int64) :
    (∀ a bytes, Written a.segment bytes → a.assembler.target = t →
      Room a.segment (bytes.length + 12) →
      ((∃ b, Asm.computePadding dst src align a = .ok () b) ↔
        dst.isValid = true ∧ src.isValid = true ∧ ∃ k ≤ 15, align.toInt = 2 ^ k)) ∧
    ∀ a b, a.segment.storage.size < 2 ^ 63 → a.assembler.target = t →
      Asm.computePadding dst src align a = .ok () b →
      ∃ bytes ws, Written a.segment bytes ∧ Wrote a b bytes ws ∧
        List.Forall₂ Holds ws (heldCode dst src align) ∧
        ∀ order (s : Processor t), ∃ p cr carry,
          Processor.run? order s.pc ws 3 s =
            some ⟨told s.toCore dst p cr carry, Processor.place s.pc 3⟩ ∧
          SameBehind s.cr cr ∧
          IsLeast {q : Nat | align.toInt ∣ (((s.gpr src).toNat + q) % 2 ^ width t : Nat)}
            p.toNat := by
  refine ⟨fun a bytes written target room => computed_iff written target room, ?_⟩
  intro a b bounded target ran
  obtain ⟨k, power⟩ := power_of_computed ran
  have writes : Writes t (Asm.computePadding dst src align)
      (maskingCode dst src (align - 1) align) :=
    writes_computed power
  obtain ⟨empty, -⟩ | ⟨bytes, written⟩ := writes.start a b bounded target ran
  · cases empty
  obtain ⟨ws, encoded, wrote⟩ := writes.done a b bytes written target ran
  obtain ⟨first, second, small⟩ := accepted_of_encodes encoded power
  have held := holds_of_encodes (encodes_heldCode.mpr encoded)
    (fits_heldCode small power first second)
  refine ⟨bytes, ws, written, wrote, held, fun order s => ?_⟩
  obtain ⟨cr, carry, same, done⟩ := run_heldCode held order s
  exact ⟨_, cr, carry, done, same, isLeast_held small power t (s.gpr src)⟩

/-- The highest alignment, with one register for both, whose sum with the padding goes round. -/
theorem computePadding_least_highest :
    ∃ b ws, Asm.computePadding .r0 .r0 32768 (.fresh .ppc64 .big) = .ok () b ∧
      Wrote (.fresh .ppc64 .big) b [] ws ∧
      List.Forall₂ Holds ws [⟨.andi, (.r0, .r0, 32767, ())⟩, ⟨.subfic, (.r0, .r0, -32768, ())⟩,
        ⟨.andi, (.r0, .r0, 32767, ())⟩] ∧
      ∀ order (s : Processor .ppc64), s.gpr .r0 = 0xFFFFFFFFFFFF8001#64 → ∃ cr carry,
        Processor.run? order s.pc ws 3 s =
          some ⟨told s.toCore .r0 0x7FFF#64 cr carry, Processor.place s.pc 3⟩ := by
  have fresh := fresh_code .ppc64 .big
  have room : Room (Assembly.fresh .ppc64 .big).segment 12 := fresh_room .ppc64 .big (by decide)
  obtain ⟨accepted, computed⟩ := computePadding_least .ppc64 .r0 .r0 32768
  obtain ⟨b, ran⟩ := (accepted _ [] fresh.written rfl room).mpr ⟨rfl, rfl, 15, by decide, rfl⟩
  obtain ⟨bytes, ws, written, wrote, held, runs⟩ := computed _ b (by decide) rfl ran
  have size : (0 : Int) = bytes.length := written.size
  obtain rfl : bytes = [] := List.length_eq_zero_iff.mp (by omega)
  refine ⟨b, ws, ran, wrote, held, fun order s value => ?_⟩
  obtain ⟨p, cr, carry, done, -, least⟩ := runs order s
  have multiple : IsLeast {q : Nat | (32768 : Int64).toInt ∣
      (((s.gpr .r0).toNat + q) % 2 ^ width .ppc64 : Nat)} 0x7FFF := by
    have align : (32768 : Int64).toInt = 32768 := rfl
    have number : (s.gpr .r0).toNat = 2 ^ 64 - 0x7FFF := congrArg BitVec.toNat value
    have wide : width .ppc64 = 64 := rfl
    rw [number, align, wide]
    refine ⟨by decide, fun q reached => ?_⟩
    obtain ⟨c, whole⟩ := reached
    omega
  have padding : p = 0x7FFF#64 := BitVec.eq_of_toNat_eq (least.unique multiple)
  exact ⟨cr, carry, padding ▸ done⟩

end PowerAsm.Proofs.Padding
