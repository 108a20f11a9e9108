import PowerAsm.Proofs.Fields
import PowerAsm.Proofs.Integers

/-! The instruction forms in both directions. Each form accepts exactly the operands
that are readings of the places of one word, and then that word is the result. -/
namespace PowerAsm.Proofs.Forms
open Fields Integers

theorem fitsUnsigned_iff {v : Int64} {bits : Nat} :
    fitsUnsigned v bits = true ↔ 0 ≤ v.toInt ∧ v.toInt < (2 ^ bits : Nat) := by
  simp [fitsUnsigned]

theorem fitsSigned_iff {v : Int64} {bits : Nat} (positive : 0 < bits) (short : bits < 64) :
    fitsSigned v bits = true ↔
      -(2 ^ (bits - 1) : Nat) ≤ v.toInt ∧ v.toInt < (2 ^ (bits - 1) : Nat) := by
  have nonzero : bits ≠ 0 := by omega
  have narrow : ¬ 64 ≤ bits := by omega
  simp [fitsSigned, nonzero, narrow]

theorem unsigned_toInt (w : Word) (low width : Nat) (short : width < 64) :
    (w.unsigned low width).toInt = (w.extractLsb' low width).toNat := by
  have bound : (w.extractLsb' low width).toNat < 2 ^ 63 :=
    Nat.lt_of_lt_of_le (BitVec.isLt _) (Nat.pow_le_pow_right (by omega) (by omega))
  exact Int64.toInt_ofNat_of_lt bound

theorem signed_toInt (w : Word) (low width : Nat) (short : width ≤ 64) :
    (w.signed low width).toInt = (w.extractLsb' low width).toInt := by
  have above := BitVec.le_toInt (w.extractLsb' low width)
  have below := BitVec.toInt_lt (x := w.extractLsb' low width)
  have room : (2 : Int) ^ (width - 1) ≤ 2 ^ 63 := by
    exact_mod_cast Nat.pow_le_pow_right (by omega : 0 < 2) (by omega : width - 1 ≤ 63)
  exact Int64.toInt_ofInt_of_le (by omega) (by omega)

theorem holds_iff (w : Word) (v : Int64) (low width : Nat) :
    Placed.Holds w ⟨low, width, v⟩ ↔
      ((w.extractLsb' low width).toNat : Int) = v.toInt % (2 ^ width : Nat) := by
  rw [Placed.Holds, ← BitVec.toNat_inj, BitVec.toNat_ofInt]
  have nonneg := Int.emod_nonneg v.toInt (b := (2 ^ width : Nat))
    (by exact_mod_cast Nat.ne_of_gt (Nat.two_pow_pos width))
  simp only
  omega

/-- The unsigned reading of a place is the one value that fits it and stands in it. -/
theorem eq_unsigned_iff (w : Word) (v : Int64) (low width : Nat) (short : width < 64) :
    fitsUnsigned v width = true ∧ Placed.Holds w ⟨low, width, v⟩ ↔ v = w.unsigned low width := by
  rw [fitsUnsigned_iff]
  simp only [Placed.Holds]
  constructor
  · rintro ⟨⟨nonneg, small⟩, held⟩
    apply Int64.toInt_inj.mp
    rw [unsigned_toInt w low width short, held, BitVec.toNat_ofInt]
    rw [Int.emod_eq_of_lt nonneg small]
    omega
  · intro same
    have value := unsigned_toInt w low width short
    rw [← same] at value
    refine ⟨⟨by omega, ?_⟩, ?_⟩
    · rw [value]
      exact_mod_cast BitVec.isLt _
    · rw [value, BitVec.ofInt_natCast, BitVec.ofNat_toNat, BitVec.setWidth_eq]

/-- The signed reading of a place is the one value that fits it and stands in it. -/
theorem eq_signed_iff (w : Word) (v : Int64) (low width : Nat) (positive : 0 < width)
    (short : width < 64) :
    fitsSigned v width = true ∧ Placed.Holds w ⟨low, width, v⟩ ↔ v = w.signed low width := by
  rw [fitsSigned_iff positive short]
  simp only [Placed.Holds]
  have power : 2 ^ width = 2 * 2 ^ (width - 1) := by
    rw [← Nat.pow_succ', Nat.succ_eq_add_one, Nat.sub_add_cancel positive]
  constructor
  · rintro ⟨⟨above, below⟩, held⟩
    apply Int64.toInt_inj.mp
    rw [signed_toInt w low width (by omega), held, BitVec.toInt_ofInt]
    rw [Int.bmod_eq_of_le]
    · rw [power]; omega
    · rw [power]; omega
  · intro same
    have value := signed_toInt w low width (by omega)
    rw [← same] at value
    have above := BitVec.le_toInt (w.extractLsb' low width)
    have below := BitVec.toInt_lt (x := w.extractLsb' low width)
    refine ⟨?_, ?_⟩
    · rw [value]
      push_cast
      omega
    · rw [value, BitVec.ofInt_toInt]

/-- A place that takes either range holds a value exactly when the value is one of its
two readings. -/
theorem eq_either_iff (w : Word) (v : Int64) (low width : Nat) (positive : 0 < width)
    (short : width < 64) :
    (fitsUnsigned v width || fitsSigned v width) = true ∧ Placed.Holds w ⟨low, width, v⟩ ↔
      v = w.unsigned low width ∨ v = w.signed low width := by
  rw [← eq_unsigned_iff w v low width short, ← eq_signed_iff w v low width positive short,
    ← or_and_right, Bool.or_eq_true]

/-- A place of two bits or more, cut in two, holds a value when the upper part holds what
is left of it after shifting. -/
theorem eq_split_iff (w : Word) (v : Int64) (low high : Nat) :
    fitsUnsigned v 6 = true ∧ Placed.Holds w ⟨low, 5, v⟩ ∧ Placed.Holds w ⟨high, 1, v >>> 5⟩ ↔
      v = w.unsigned low 5 + 32 * w.unsigned high 1 := by
  have shifted : (v >>> 5).toInt = v.toInt / 32 := toInt_shiftRight v 5 (by decide)
  have lower := unsigned_toInt w low 5 (by decide)
  have upper := unsigned_toInt w high 1 (by decide)
  have lowerBound := (w.extractLsb' low 5).isLt
  have upperBound := (w.extractLsb' high 1).isLt
  have scaled : (32 * w.unsigned high 1).toInt = 32 * (w.extractLsb' high 1).toNat := by
    rw [toInt_mul_of_range] <;> rw [upper, show (32 : Int64).toInt = 32 from rfl] <;> omega
  have total : (w.unsigned low 5 + 32 * w.unsigned high 1).toInt =
      (w.extractLsb' low 5).toNat + 32 * (w.extractLsb' high 1).toNat := by
    rw [toInt_add_of_range] <;> rw [lower, scaled] <;> omega
  rw [fitsUnsigned_iff, holds_iff, holds_iff, ← Int64.toInt_inj, total]
  simp only [shifted]
  omega

@[simp] theorem primary_word (v : Int64) : (Slot.primary v).word = Word.ofField v 26 6 := rfl

@[simp] theorem unsigned_word (name : String) (v : Int64) (bits low : Nat) :
    (Slot.unsigned name v bits low).word = Word.ofField v low bits := rfl

@[simp] theorem signed_word (name : String) (v : Int64) (bits low : Nat) :
    (Slot.signed name v bits low).word = Word.ofField v low bits := rfl

@[simp] theorem either_word (name : String) (v : Int64) (bits low : Nat) :
    (Slot.either name v bits low).word = Word.ofField v low bits := rfl

@[simp] theorem flag_word (name : String) (b : Bool) (position : Nat) :
    (Slot.flag name b position).word = Word.ofField (if b then 1 else 0) position 1 := rfl

@[simp] theorem splitShift_word (v : Int64) :
    (Slot.splitShift v).word = Word.ofField v 11 5 ||| Word.ofField (v >>> 5) 1 1 := rfl

@[simp] theorem splitMask_word (v : Int64) :
    (Slot.splitMask v).word = Word.ofField v 6 5 ||| Word.ofField (v >>> 5) 5 1 := rfl

@[simp] theorem primary_fits (v : Int64) : (Slot.primary v).fits = fitsUnsigned v 6 := rfl

@[simp] theorem unsigned_fits (name : String) (v : Int64) (bits low : Nat) :
    (Slot.unsigned name v bits low).fits = fitsUnsigned v bits := rfl

@[simp] theorem signed_fits (name : String) (v : Int64) (bits low : Nat) :
    (Slot.signed name v bits low).fits = fitsSigned v bits := rfl

@[simp] theorem either_fits (name : String) (v : Int64) (bits low : Nat) :
    (Slot.either name v bits low).fits = (fitsUnsigned v bits || fitsSigned v bits) := rfl

@[simp] theorem flag_fits (name : String) (b : Bool) (position : Nat) :
    (Slot.flag name b position).fits = true := by
  cases b <;> rfl

@[simp] theorem splitShift_fits (v : Int64) : (Slot.splitShift v).fits = fitsUnsigned v 6 := rfl

@[simp] theorem splitMask_fits (v : Int64) : (Slot.splitMask v).fits = fitsUnsigned v 6 := rfl

@[simp] theorem holds_bit_iff (w : Word) (position : Nat) (b : Bool) :
    Placed.Holds w ⟨position, 1, if b then 1 else 0⟩ ↔ b = w.bit position := by
  have single : w.extractLsb' position 1 = BitVec.ofBool (w.bit position) := by
    ext i short
    obtain rfl : i = 0 := by omega
    simp [Word.bit]
  simp only [Placed.Holds, single]
  cases b <;> cases w.bit position <;> decide

/-- A packed word is made of slots that fit. -/
theorem pack_eq_ok_iff {op : String} {slots : List Slot} {w : Word} :
    pack op slots = .ok w ↔
      (∀ s ∈ slots, s.fits = true) ∧ slots.foldl (fun w s => w ||| s.word) 0#32 = w := by
  unfold pack
  cases found : slots.find? (fun s => !s.fits) with
  | none =>
    simp only [List.find?_eq_none, Bool.not_eq_true, Bool.not_eq_false'] at found
    simp only [Except.ok.injEq, BitVec.ofNat_eq_ofNat, iff_and_self]
    exact fun _ => found
  | some s =>
    have member := List.mem_of_find?_eq_some found
    have unfit := List.find?_some found
    simp only [Bool.not_eq_true'] at unfit
    simp only [reduceCtorEq, false_iff, not_and]
    intro fits
    simp [fits s member] at unfit

/-- Slots that fill the whole word with values in disjoint places are packed into `w`
exactly when they fit and `w` holds every value in its place. -/
theorem pack_eq_ok_iff_holds {op : String} {slots : List Slot} {w : Word} (ps : List Placed)
    (made : slots.foldl (fun w s => w ||| s.word) 0#32 = words ps)
    (inside : ∀ p ∈ ps, p.low + p.width ≤ 32) (apart : ps.Pairwise Placed.Apart)
    (whole : masks ps = BitVec.allOnes 32) :
    pack op slots = .ok w ↔ (∀ s ∈ slots, s.fits = true) ∧ ∀ p ∈ ps, p.Holds w := by
  rw [pack_eq_ok_iff, made, ← and_masks_eq_words_iff w ps inside apart, whole,
    BitVec.and_allOnes, eq_comm]

/-- The I form takes the signed reading of its displacement. -/
@[simp] theorem i_eq_ok_iff {op : String} {p li : Int64} {aa lk : Bool} {w : Word} :
    Format.i op p li aa lk = .ok w ↔ p = w.unsigned 26 6 ∧ li = w.signed 2 24 ∧
      aa = w.bit 1 ∧ lk = w.bit 0 := by
  rw [Format.i, pack_eq_ok_iff_holds [⟨26, 6, p⟩, ⟨2, 24, li⟩, ⟨1, 1, if aa then 1 else 0⟩,
    ⟨0, 1, if lk then 1 else 0⟩] (by simp [words, Placed.word, BitVec.or_assoc]) (by simp)
    (by simp [Placed.Apart]) (by simp [masks, Placed.mask]),
    ← eq_unsigned_iff w _ _ 6 (by decide), ← eq_signed_iff w _ _ 24 (by decide) (by decide)]
  simp only [List.forall_mem_cons, List.not_mem_nil, false_imp_iff, implies_true, and_true,
    primary_fits, signed_fits, flag_fits, holds_bit_iff]
  grind

/-- The B form puts its options and its displacement into places of their own. -/
@[simp] theorem b_eq_ok_iff {op : String} {p bo bi bd : Int64} {aa lk : Bool} {w : Word} :
    Format.b op p bo bi bd aa lk = .ok w ↔ p = w.unsigned 26 6 ∧ bo = w.unsigned 21 5 ∧
      bi = w.unsigned 16 5 ∧ bd = w.signed 2 14 ∧ aa = w.bit 1 ∧ lk = w.bit 0 := by
  rw [Format.b, pack_eq_ok_iff_holds [⟨26, 6, p⟩, ⟨21, 5, bo⟩, ⟨16, 5, bi⟩, ⟨2, 14, bd⟩,
    ⟨1, 1, if aa then 1 else 0⟩, ⟨0, 1, if lk then 1 else 0⟩]
    (by simp [words, Placed.word, BitVec.or_assoc]) (by simp) (by simp [Placed.Apart])
    (by simp [masks, Placed.mask]), ← eq_unsigned_iff w p _ 6 (by decide),
    ← eq_unsigned_iff w bo _ 5 (by decide), ← eq_unsigned_iff w bi _ 5 (by decide),
    ← eq_signed_iff w _ _ 14 (by decide) (by decide)]
  simp only [List.forall_mem_cons, List.not_mem_nil, false_imp_iff, implies_true, and_true,
    primary_fits, unsigned_fits, signed_fits, flag_fits, holds_bit_iff]
  grind

/-- The D form with a signed immediate takes either reading of the low half. -/
@[simp] theorem d_signed_eq_ok_iff {op : String} {p a b imm : Int64} {w : Word} :
    Format.d op p a b imm true = .ok w ↔ p = w.unsigned 26 6 ∧ a = w.unsigned 21 5 ∧
      b = w.unsigned 16 5 ∧ (imm = w.unsigned 0 16 ∨ imm = w.signed 0 16) := by
  rw [Format.d, pack_eq_ok_iff_holds [⟨26, 6, p⟩, ⟨21, 5, a⟩, ⟨16, 5, b⟩, ⟨0, 16, imm⟩]
    (by simp [words, Placed.word, BitVec.or_assoc]) (by simp) (by simp [Placed.Apart])
    (by simp [masks, Placed.mask]), ← eq_unsigned_iff w p _ 6 (by decide),
    ← eq_unsigned_iff w a _ 5 (by decide), ← eq_unsigned_iff w b _ 5 (by decide),
    ← eq_either_iff w _ _ 16 (by decide) (by decide)]
  simp only [List.forall_mem_cons, List.not_mem_nil, false_imp_iff, implies_true, and_true,
    primary_fits, unsigned_fits, either_fits, ↓reduceIte]
  grind

/-- The D form with an unsigned immediate takes the unsigned reading only. -/
@[simp] theorem d_unsigned_eq_ok_iff {op : String} {p a b imm : Int64} {w : Word} :
    Format.d op p a b imm false = .ok w ↔ p = w.unsigned 26 6 ∧ a = w.unsigned 21 5 ∧
      b = w.unsigned 16 5 ∧ imm = w.unsigned 0 16 := by
  rw [Format.d, pack_eq_ok_iff_holds [⟨26, 6, p⟩, ⟨21, 5, a⟩, ⟨16, 5, b⟩, ⟨0, 16, imm⟩]
    (by simp [words, Placed.word, BitVec.or_assoc]) (by simp) (by simp [Placed.Apart])
    (by simp [masks, Placed.mask]), ← eq_unsigned_iff w p _ 6 (by decide),
    ← eq_unsigned_iff w a _ 5 (by decide), ← eq_unsigned_iff w b _ 5 (by decide),
    ← eq_unsigned_iff w imm _ 16 (by decide)]
  simp only [List.forall_mem_cons, List.not_mem_nil, false_imp_iff, implies_true, and_true,
    primary_fits, unsigned_fits, Bool.false_eq_true, ↓reduceIte]
  grind

private theorem words_of_bytes {disp : Int64} (aligned : disp.toInt % 4 = 0) (v : Int64)
    (above : -2 ^ 60 ≤ v.toInt) (below : v.toInt < 2 ^ 60) : disp >>> 2 = v ↔ disp = v * 4 := by
  have shifted : (disp >>> 2).toInt = disp.toInt / 4 := toInt_shiftRight disp 2 (by decide)
  have scaled : (v * 4).toInt = v.toInt * 4 := by
    rw [toInt_mul_of_range] <;> rw [show (4 : Int64).toInt = 4 from rfl] <;> omega
  rw [← Int64.toInt_inj, ← Int64.toInt_inj, shifted, scaled]
  omega

private theorem aligned_of_eq_words {disp v : Int64} (above : -2 ^ 60 ≤ v.toInt)
    (below : v.toInt < 2 ^ 60) (same : disp = v * 4) : disp.toInt % 4 = 0 := by
  have scaled : (v * 4).toInt = v.toInt * 4 := by
    rw [toInt_mul_of_range] <;> rw [show (4 : Int64).toInt = 4 from rfl] <;> omega
  rw [same, scaled]
  omega

/-- The DS form takes either reading of its displacement field, times four. -/
@[simp] theorem ds_eq_ok_iff {op : String} {p a b disp xo : Int64} {w : Word} :
    Format.ds op p a b disp xo = .ok w ↔ p = w.unsigned 26 6 ∧ a = w.unsigned 21 5 ∧
      b = w.unsigned 16 5 ∧ (disp = w.unsigned 2 14 * 4 ∨ disp = w.signed 2 14 * 4) ∧
      xo = w.unsigned 0 2 := by
  have unsignedBound := (w.extractLsb' 2 14).isLt
  have signedAbove := BitVec.le_toInt (w.extractLsb' 2 14)
  have signedBelow := BitVec.toInt_lt (x := w.extractLsb' 2 14)
  have unsignedValue := unsigned_toInt w 2 14 (by decide)
  have signedValue := signed_toInt w 2 14 (by decide)
  by_cases aligned : disp.toInt % 4 = 0
  · rw [Format.ds, if_neg (not_not_intro aligned),
      pack_eq_ok_iff_holds [⟨26, 6, p⟩, ⟨21, 5, a⟩, ⟨16, 5, b⟩, ⟨2, 14, disp >>> 2⟩, ⟨0, 2, xo⟩]
      (by simp [words, Placed.word, BitVec.or_assoc]) (by simp) (by simp [Placed.Apart])
      (by simp [masks, Placed.mask]), ← words_of_bytes aligned _ (by omega) (by omega),
      ← words_of_bytes aligned _ (by omega) (by omega), ← eq_unsigned_iff w p _ 6 (by decide),
      ← eq_unsigned_iff w a _ 5 (by decide), ← eq_unsigned_iff w b _ 5 (by decide),
      ← eq_either_iff w _ _ 14 (by decide) (by decide), ← eq_unsigned_iff w xo _ 2 (by decide)]
    simp only [List.forall_mem_cons, List.not_mem_nil, false_imp_iff, implies_true, and_true,
      primary_fits, unsigned_fits, either_fits]
    grind
  · rw [Format.ds, if_pos aligned]
    simp only [reduceCtorEq, false_iff]
    rintro ⟨-, -, -, same | same, -⟩
    · exact aligned (aligned_of_eq_words (by omega) (by omega) same)
    · exact aligned (aligned_of_eq_words (by omega) (by omega) same)

/-- The X form puts each operand into its own place and leaves no other bit. -/
@[simp] theorem x_eq_ok_iff {op : String} {p a b c xo : Int64} {rc : Bool} {w : Word} :
    Format.x op p a b c xo rc = .ok w ↔ p = w.unsigned 26 6 ∧ a = w.unsigned 21 5 ∧
      b = w.unsigned 16 5 ∧ c = w.unsigned 11 5 ∧ xo = w.unsigned 1 10 ∧ rc = w.bit 0 := by
  rw [Format.x, pack_eq_ok_iff_holds [⟨26, 6, p⟩, ⟨21, 5, a⟩, ⟨16, 5, b⟩, ⟨11, 5, c⟩, ⟨1, 10, xo⟩,
    ⟨0, 1, if rc then 1 else 0⟩] (by simp [words, Placed.word, BitVec.or_assoc]) (by simp)
    (by simp [Placed.Apart]) (by simp [masks, Placed.mask]),
    ← eq_unsigned_iff w p _ 6 (by decide), ← eq_unsigned_iff w a _ 5 (by decide),
    ← eq_unsigned_iff w b _ 5 (by decide), ← eq_unsigned_iff w c _ 5 (by decide),
    ← eq_unsigned_iff w xo _ 10 (by decide)]
  simp only [List.forall_mem_cons, List.not_mem_nil, false_imp_iff, implies_true, and_true,
    primary_fits, unsigned_fits, flag_fits, holds_bit_iff]
  grind

/-- The M form of a 32-bit rotate. -/
@[simp] theorem m_eq_ok_iff {op : String} {p rs ra sh mb me : Int64} {rc : Bool} {w : Word} :
    Format.m op p rs ra sh mb me rc = .ok w ↔ p = w.unsigned 26 6 ∧ rs = w.unsigned 21 5 ∧
      ra = w.unsigned 16 5 ∧ sh = w.unsigned 11 5 ∧ mb = w.unsigned 6 5 ∧ me = w.unsigned 1 5 ∧
      rc = w.bit 0 := by
  rw [Format.m, pack_eq_ok_iff_holds [⟨26, 6, p⟩, ⟨21, 5, rs⟩, ⟨16, 5, ra⟩, ⟨11, 5, sh⟩, ⟨6, 5, mb⟩,
    ⟨1, 5, me⟩, ⟨0, 1, if rc then 1 else 0⟩] (by simp [words, Placed.word, BitVec.or_assoc])
    (by simp) (by simp [Placed.Apart]) (by simp [masks, Placed.mask]),
    ← eq_unsigned_iff w p _ 6 (by decide), ← eq_unsigned_iff w rs _ 5 (by decide),
    ← eq_unsigned_iff w ra _ 5 (by decide), ← eq_unsigned_iff w sh _ 5 (by decide),
    ← eq_unsigned_iff w mb _ 5 (by decide), ← eq_unsigned_iff w me _ 5 (by decide)]
  simp only [List.forall_mem_cons, List.not_mem_nil, false_imp_iff, implies_true, and_true,
    primary_fits, unsigned_fits, flag_fits, holds_bit_iff]
  grind

/-- The MD form of a 64-bit rotate, whose two six-bit operands are each cut in two. -/
@[simp] theorem md_eq_ok_iff {op : String} {p rs ra sh bound xo : Int64} {rc : Bool} {w : Word} :
    Format.md op p rs ra sh bound xo rc = .ok w ↔ p = w.unsigned 26 6 ∧ rs = w.unsigned 21 5 ∧
      ra = w.unsigned 16 5 ∧ sh = w.unsigned 11 5 + 32 * w.unsigned 1 1 ∧
      bound = w.unsigned 6 5 + 32 * w.unsigned 5 1 ∧ xo = w.unsigned 2 3 ∧ rc = w.bit 0 := by
  rw [Format.md, pack_eq_ok_iff_holds [⟨26, 6, p⟩, ⟨21, 5, rs⟩, ⟨16, 5, ra⟩, ⟨11, 5, sh⟩,
    ⟨1, 1, sh >>> 5⟩, ⟨6, 5, bound⟩, ⟨5, 1, bound >>> 5⟩, ⟨2, 3, xo⟩, ⟨0, 1, if rc then 1 else 0⟩]
    (by simp [words, Placed.word, BitVec.or_assoc]) (by simp) (by simp [Placed.Apart])
    (by simp [masks, Placed.mask]), ← eq_unsigned_iff w p _ 6 (by decide),
    ← eq_unsigned_iff w rs _ 5 (by decide), ← eq_unsigned_iff w ra _ 5 (by decide),
    ← eq_split_iff w sh 11 1, ← eq_split_iff w bound 6 5, ← eq_unsigned_iff w xo _ 3 (by decide)]
  simp only [List.forall_mem_cons, List.not_mem_nil, false_imp_iff, implies_true, and_true,
    primary_fits, unsigned_fits, splitShift_fits, splitMask_fits, flag_fits,
    holds_bit_iff]
  grind

end PowerAsm.Proofs.Forms
