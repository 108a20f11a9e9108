import PowerAsm.Assembler.Label
import PowerAsm.Proofs.Layouts

/-! Branch words. A branch that was written without a displacement and then patched is the
same word as the branch that is encoded with its displacement at once. -/
namespace PowerAsm.Proofs.Branches
open Fields Integers Forms OperandFields Layouts

/-- The options of a conditional branch fit their fields. -/
def FieldsFit : Branch → Prop
  | .always | .call => True
  | .conditional bo bi =>
    (0 ≤ bo.toInt ∧ bo.toInt < 32) ∧ 0 ≤ bi.toInt ∧ bi.toInt < 32

instance (branch : Branch) : Decidable (FieldsFit branch) :=
  match branch with
  | .always | .call => .isTrue trivial
  | .conditional _ _ => inferInstanceAs (Decidable (_ ∧ _))

/-- The word of a branch without its displacement. -/
def bare : Branch → Word
  | .always => Word.ofField 18 26 6
  | .call => Word.ofField 18 26 6 ||| Word.ofField 1 0 1
  | .conditional bo bi => Word.ofField 16 26 6 ||| Word.ofField bo 21 5 ||| Word.ofField bi 16 5

theorem fitsUnsigned_five_iff (v : Int64) :
    fitsUnsigned v 5 = true ↔ 0 ≤ v.toInt ∧ v.toInt < 32 :=
  fitsUnsigned_iff

/-- A branch has a word exactly when its options and its displacement fit, and then the
displacement is added to the rest of the word. -/
theorem encode_eq_ok_iff (branch : Branch) (d : Int64) (w : Word) :
    branch.encode d = .ok w ↔
      (FieldsFit branch ∧ fitsSigned d branch.bits = true) ∧
        bare branch ||| Word.ofField d 2 branch.bits = w := by
  have opcode : fitsUnsigned 18 6 = true := by decide
  have opcode' : fitsUnsigned 16 6 = true := by decide
  have clear (low : Nat) : Word.ofField 0 low 1 = 0#32 := by simp [Word.ofField]
  cases branch with
  | always =>
    rw [Branch.encode, Format.i, pack_eq_ok_iff]
    simp only [List.forall_mem_cons, List.not_mem_nil, false_imp_iff, implies_true, and_true,
      primary_fits, signed_fits, flag_fits, opcode, true_and, FieldsFit, bare]
    simp only [List.foldl_cons, List.foldl_nil, Slot.primary, Slot.unsigned, Slot.signed, Slot.flag,
      clear, BitVec.zero_or, BitVec.or_zero, Bool.false_eq_true, if_false]
    rfl
  | call =>
    rw [Branch.encode, Format.i, pack_eq_ok_iff]
    simp only [List.forall_mem_cons, List.not_mem_nil, false_imp_iff, implies_true, and_true,
      primary_fits, signed_fits, flag_fits, opcode, true_and, FieldsFit, bare]
    simp only [List.foldl_cons, List.foldl_nil, Slot.primary, Slot.unsigned, Slot.signed, Slot.flag,
      clear, BitVec.zero_or, BitVec.or_zero, Bool.false_eq_true, if_false, if_true]
    rw [BitVec.or_assoc, BitVec.or_comm (Word.ofField d 2 24), ← BitVec.or_assoc]
    rfl
  | conditional bo bi =>
    rw [Branch.encode, Format.b, pack_eq_ok_iff]
    simp only [List.forall_mem_cons, List.not_mem_nil, false_imp_iff, implies_true, and_true,
      primary_fits, signed_fits, unsigned_fits, flag_fits, opcode', true_and, FieldsFit, bare,
      fitsUnsigned_five_iff]
    simp only [List.foldl_cons, List.foldl_nil, Slot.primary, Slot.unsigned, Slot.signed, Slot.flag,
      clear, BitVec.zero_or, BitVec.or_zero, Bool.false_eq_true, if_false, and_assoc]
    rfl

theorem ofField_zero (low width : Nat) : Word.ofField 0 low width = 0#32 := by
  simp [Word.ofField]

theorem bits_eq (branch : Branch) : branch.bits = 24 ∨ branch.bits = 14 := by
  cases branch with
  | always | call => exact .inl rfl
  | conditional bo bi => exact .inr rfl

/-- A branch without its displacement is a branch by nothing. -/
theorem encode_zero {branch : Branch} (fit : FieldsFit branch) :
    branch.encode 0 = .ok (bare branch) := by
  have near : fitsSigned 0 branch.bits = true := by
    obtain bits | bits := bits_eq branch <;> rw [bits] <;> decide
  rw [encode_eq_ok_iff, ofField_zero, BitVec.or_zero]
  exact ⟨⟨fit, near⟩, rfl⟩

theorem primary_of_unsigned {w : Word} {n : Nat} (small : n < 64)
    (same : Int64.ofNat n = w.unsigned 26 6) : w.primary = n := by
  have number := congrArg Int64.toInt same
  rw [unsigned_toInt w 26 6 (by decide), Int64.toInt_ofNat_of_lt (by omega)] at number
  exact (Int.ofNat_inj.mp number).symm

/-- The displacement field of a word is empty when it reads as zero. -/
theorem and_displacementMask_eq_zero {w : Word} {form : Form}
    (zero : 0 = w.signed 2 (Branch.displacementBits form)) :
    w &&& Asm.displacementMask form = 0#32 := by
  have width : 0 < Branch.displacementBits form ∧ Branch.displacementBits form ≤ 24 := by
    cases form <;> decide
  have held := ((eq_signed_iff w 0 2 _ width.1 (by omega)).mpr zero).2
  have mask : (Placed.mask ⟨2, Branch.displacementBits form, 0⟩) = Asm.displacementMask form := by
    cases form <;> decide
  have word := (and_mask_eq_word_iff w _ (by simp only; omega)).mpr held
  rw [mask, Placed.word, ofField_zero] at word
  exact word

theorem bare_facts {branch : Branch} (fit : FieldsFit branch) :
    Asm.branchForm? (bare branch) = some branch.form ∧ (bare branch).bit 1 = false ∧
      bare branch &&& Asm.displacementMask branch.form = 0#32 := by
  have encoded := encode_zero fit
  cases branch with
  | always | call =>
    obtain ⟨opcode, displacement, absolute, -⟩ := i_eq_ok_iff.mp encoded
    have primary := primary_of_unsigned (n := 18) (by decide) opcode
    refine ⟨?_, absolute.symm, and_displacementMask_eq_zero displacement⟩
    rw [Asm.branchForm?, if_pos primary]
    rfl
  | conditional bo bi =>
    obtain ⟨opcode, -, -, displacement, absolute, -⟩ := b_eq_ok_iff.mp encoded
    have primary := primary_of_unsigned (n := 16) (by decide) opcode
    refine ⟨?_, absolute.symm, and_displacementMask_eq_zero displacement⟩
    rw [Asm.branchForm?, primary]
    rfl

/-- Patching a branch gives the word that it has when it is written with its displacement,
or fails with the same fault. -/
theorem patchedWord_bare {branch : Branch} (fit : FieldsFit branch) (source dest : Int64) :
    Asm.patchedWord (bare branch) ⟨source, branch.form⟩ dest =
      branch.encodeFromTo source dest := by
  obtain ⟨form, relative, empty⟩ := bare_facts fit
  have width : Branch.displacementBits branch.form = branch.bits := rfl
  unfold Asm.patchedWord Branch.encodeFromTo
  simp only [form, relative, empty, width, ne_eq, not_true_eq_false, if_false, Bool.false_eq_true]
  cases found : branchDisplacement source dest branch.bits with
  | error e => rfl
  | ok d =>
    have bits := bits_eq branch
    have near := ((branchDisplacement_eq_ok_iff source dest branch.bits (by omega) (by omega) d).mp
      found).1
    have word := (encode_eq_ok_iff branch d _).mpr ⟨⟨fit, near⟩, rfl⟩
    simp [Except.mapError, bind, Except.bind, word, pure, Except.pure]

/-- A branch reaches this many words forward, or backward if they are negative. -/
def InReach (branch : Branch) (words : Int) : Prop :=
  -(2 ^ (branch.bits - 1)) ≤ words ∧ words < 2 ^ (branch.bits - 1)

instance (branch : Branch) (words : Int) : Decidable (InReach branch words) :=
  inferInstanceAs (Decidable (_ ∧ _))

/-- The word of a branch by so many words. -/
def wordOf (branch : Branch) (words : Int) : Word :=
  bare branch ||| Word.ofField (Int64.ofInt words) 2 branch.bits

theorem fitsSigned_ofInt_iff (branch : Branch) {words : Int} (above : -2 ^ 62 ≤ words)
    (below : words ≤ 2 ^ 62) :
    fitsSigned (Int64.ofInt words) branch.bits = true ↔ InReach branch words := by
  have bits := bits_eq branch
  rw [fitsSigned_iff (by omega) (by omega), Int64.toInt_ofInt_of_le (by omega) (by omega), InReach]
  push_cast
  rfl

theorem encode_inReach {branch : Branch} {words : Int} (fit : FieldsFit branch)
    (near : InReach branch words) : branch.encode (Int64.ofInt words) = .ok (wordOf branch words) := by
  have range : -2 ^ 62 ≤ words ∧ words ≤ 2 ^ 62 := by
    obtain ⟨above, below⟩ := near
    obtain bits | bits := bits_eq branch <;> rw [bits] at above below <;> omega
  rw [encode_eq_ok_iff]
  exact ⟨⟨fit, (fitsSigned_ofInt_iff branch range.1 range.2).mpr near⟩, rfl⟩

/-- The displacement between two words of code is the number of words between them, as long
as that fits. -/
theorem branchDisplacement_words {branch : Branch} {source dest : Nat} {d : Int64}
    (low : 4 * source ≤ 2 ^ 62) (high : 4 * dest ≤ 2 ^ 62) :
    branchDisplacement (Int64.ofNat (4 * source)) (Int64.ofNat (4 * dest)) branch.bits = .ok d ↔
      InReach branch (dest - source) ∧ d = Int64.ofInt (dest - source) := by
  have bits := bits_eq branch
  have here : (Int64.ofNat (4 * source)).toInt = 4 * source := by
    rw [Int64.toInt_ofNat_of_lt (by omega)]
    omega
  have there : (Int64.ofNat (4 * dest)).toInt = 4 * dest := by
    rw [Int64.toInt_ofNat_of_lt (by omega)]
    omega
  have way : (Int64.ofInt (dest - source)).toInt = dest - source :=
    Int64.toInt_ofInt_of_le (by omega) (by omega)
  have four : (4 : Int64).toInt = 4 := rfl
  have leads : Int64.ofNat (4 * source) + Int64.ofInt (dest - source) * 4 =
      Int64.ofNat (4 * dest) := by
    have scaled : (Int64.ofInt (dest - source) * 4).toInt = (dest - source) * 4 := by
      rw [toInt_mul_of_range, way, four] <;> rw [way, four] <;> omega
    apply Int64.toInt_inj.mp
    rw [toInt_add_of_range, here, scaled, there] <;> omega
  rw [← fitsSigned_ofInt_iff branch (by omega) (by omega)]
  constructor
  · intro found
    obtain ⟨fits, meets⟩ := (branchDisplacement_eq_ok_iff _ _ _ (by omega) (by omega) d).mp found
    have small : -2 ^ 23 ≤ d.toInt ∧ d.toInt < 2 ^ 23 := by
      have range := (fitsSigned_iff (by omega) (by omega)).mp fits
      obtain bits | bits := bits <;> rw [bits] at range <;> omega
    have scaled : (d * 4).toInt = d.toInt * 4 := by
      rw [toInt_mul_of_range, four] <;> rw [four] <;> omega
    have sum := congrArg Int64.toInt meets
    rw [toInt_add_of_range (by omega) (by omega), here, scaled, there] at sum
    have same : d = Int64.ofInt (dest - source) := by
      apply Int64.toInt_inj.mp
      rw [way]
      omega
    exact ⟨same ▸ fits, same⟩
  · rintro ⟨near, rfl⟩
    exact (branchDisplacement_eq_ok_iff _ _ _ (by omega) (by omega) _).mpr ⟨near, leads⟩

/-- A fault whose text does not blame the assembler itself. -/
def Harmless (fault : Fault) : Prop :=
  ∀ text, fault.message? = some text → ¬ Text.ofString "BUG:" <+: text

/-- A text that starts otherwise is none of those. -/
theorem not_bug_of_head {text : Text} {g : Glyph} (head : text.head? = some g)
    (other : g ≠ .char 'B') : ¬ Text.ofString "BUG:" <+: text := by
  rintro ⟨rest, rfl⟩
  cases head
  exact other rfl

theorem misuse_harmless {m : Misuse}
    (label : Text.ofString "label " <+: m.message) : Harmless (.misuse m) := by
  intro text message
  cases message
  obtain ⟨rest, message⟩ := label
  rw [← message]
  exact not_bug_of_head (g := .char 'l') rfl (by decide)

theorem outOfBounds_harmless : Harmless .outOfBounds := by
  intro text message
  cases message

theorem branchRange_harmless (e : BranchRangeError) : Harmless (.branchRange e) := by
  intro text message
  cases message
  unfold BranchRangeError.message
  split
  · exact not_bug_of_head (g := .char 'b') rfl (by decide)
  · exact not_bug_of_head (g := .char 'b') rfl (by decide)

theorem pack_error_op {op : String} {slots : List Slot} {e : EncodingError}
    (refused : pack op slots = .error e) : e.op = op := by
  unfold pack at refused
  split at refused
  · cases refused
    rfl
  · cases refused

/-- A branch that has no word is reported under its own name. -/
theorem encode_error_harmless {branch : Branch} {d : Int64} {e : EncodingError}
    (refused : branch.encode d = .error e) : Harmless (.encoding e) := by
  intro text message
  cases message
  have named : e.op = "b" ∨ e.op = "bl" ∨ e.op = "bc" := by
    cases branch with
    | always => exact .inl (pack_error_op refused)
    | call => exact .inr (.inl (pack_error_op refused))
    | conditional bo bi => exact .inr (.inr (pack_error_op refused))
  unfold EncodingError.message
  obtain name | name | name := named <;> rw [name] <;>
    exact not_bug_of_head (g := .char 'b') rfl (by decide)

/-- A branch without its displacement is written as long as its options fit. -/
theorem encode_zero_cases (branch : Branch) :
    (FieldsFit branch ∧ (branch.encode 0).mapError Fault.encoding = .ok (bare branch)) ∨
      ¬ FieldsFit branch ∧
        ∃ e, (branch.encode 0).mapError Fault.encoding = .error e ∧ Harmless e := by
  by_cases fit : FieldsFit branch
  · exact .inl ⟨fit, by rw [encode_zero fit]; rfl⟩
  · refine .inr ⟨fit, ?_⟩
    cases encoded : branch.encode 0 with
    | ok w => exact absurd ((encode_eq_ok_iff branch 0 w).mp encoded).1.1 fit
    | error e => exact ⟨_, rfl, encode_error_harmless encoded⟩

/-- A branch between two words of code is written as long as its options fit and the other
word is in reach. -/
theorem encodeFromTo_cases (branch : Branch) (source dest : Nat) (low : 4 * source ≤ 2 ^ 62)
    (high : 4 * dest ≤ 2 ^ 62) :
    ((FieldsFit branch ∧ InReach branch (dest - source)) ∧
        branch.encodeFromTo (Int64.ofNat (4 * source)) (Int64.ofNat (4 * dest)) =
          .ok (wordOf branch (dest - source))) ∨
      ¬ (FieldsFit branch ∧ InReach branch (dest - source)) ∧
        ∃ e, branch.encodeFromTo (Int64.ofNat (4 * source)) (Int64.ofNat (4 * dest)) =
          .error e ∧ Harmless e := by
  unfold Branch.encodeFromTo
  cases found : branchDisplacement (Int64.ofNat (4 * source)) (Int64.ofNat (4 * dest))
      branch.bits with
  | error e =>
    refine .inr ⟨?_, _, rfl, branchRange_harmless e⟩
    rintro ⟨-, near⟩
    rw [(branchDisplacement_words low high).mpr ⟨near, rfl⟩] at found
    cases found
  | ok d =>
    obtain ⟨near, rfl⟩ := (branchDisplacement_words low high).mp found
    by_cases fit : FieldsFit branch
    · refine .inl ⟨⟨fit, near⟩, ?_⟩
      show (branch.encode _).mapError Fault.encoding = _
      rw [encode_inReach fit near]
      rfl
    · refine .inr ⟨fun both => fit both.1, ?_⟩
      show ∃ e, (branch.encode _).mapError Fault.encoding = .error e ∧ Harmless e
      cases encoded : branch.encode (Int64.ofInt (dest - source)) with
      | ok w => exact absurd ((encode_eq_ok_iff branch _ w).mp encoded).1.1 fit
      | error e => exact ⟨_, rfl, encode_error_harmless encoded⟩

end PowerAsm.Proofs.Branches
