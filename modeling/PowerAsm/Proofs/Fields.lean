import Mathlib.Algebra.Ring.Int.Defs
import Mathlib.Algebra.Ring.Nat
import PowerAsm.Format

/-! Words as values in disjoint places. Putting values into their places and reading
the places back are the two sides of one equivalence, which every instruction form
instantiates with its own list of places. -/
namespace PowerAsm.Proofs.Fields

/-- A value with the place it takes in a word: the lowest bit of the place and the
number of bits. -/
structure Placed where
  low : Nat
  width : Nat
  value : Int64

namespace Placed

/-- The value in its place, all other bits being zero. -/
def word (p : Placed) : Word := Word.ofField p.value p.low p.width

/-- The bits of the place. -/
def mask (p : Placed) : Word := (BitVec.allOnes p.width).setWidth 32 <<< p.low

/-- The place of the word holds the low bits of the value. -/
def Holds (w : Word) (p : Placed) : Prop :=
  w.extractLsb' p.low p.width = BitVec.ofInt p.width p.value.toInt

/-- The two places share no bit. -/
def Apart (p q : Placed) : Prop := p.low + p.width ≤ q.low ∨ q.low + q.width ≤ p.low

instance (p q : Placed) : Decidable (Apart p q) :=
  inferInstanceAs (Decidable (_ ∨ _))

end Placed

/-- All values in their places. -/
def words (ps : List Placed) : Word := ps.foldr (fun p w => p.word ||| w) 0#32

/-- The bits of all places. -/
def masks (ps : List Placed) : Word := ps.foldr (fun p w => p.mask ||| w) 0#32

private theorem bit_mask (p : Placed) (i : Nat) :
    p.mask.getLsbD i = (decide (i < 32) && (decide (p.low ≤ i) && decide (i < p.low + p.width))) := by
  simp only [Placed.mask, BitVec.getLsbD_shiftLeft, BitVec.getLsbD_setWidth, BitVec.getLsbD_allOnes]
  by_cases inWord : i < 32
  · by_cases above : p.low ≤ i
    · have short : i - p.low < 32 := by omega
      have shifted : i - p.low < p.width ↔ i < p.low + p.width := by omega
      simp [inWord, above, short, shifted]
    · simp [above, Nat.lt_of_not_le above]
  · simp [inWord]

private theorem bit_word (p : Placed) (i : Nat) :
    p.word.getLsbD i =
      (p.mask.getLsbD i && (BitVec.ofInt p.width p.value.toInt).getLsbD (i - p.low)) := by
  simp only [bit_mask, Placed.word, Word.ofField, BitVec.getLsbD_shiftLeft, BitVec.getLsbD_setWidth]
  by_cases inWord : i < 32
  · by_cases above : p.low ≤ i
    · by_cases below : i < p.low + p.width
      · have short : i - p.low < 32 := by omega
        simp [inWord, above, below, short]
      · have past : p.width ≤ i - p.low := by omega
        simp [below, BitVec.getLsbD_of_ge _ _ past]
    · simp [above, Nat.lt_of_not_le above]
  · simp [inWord]

private theorem bit_extract (w : Word) (p : Placed) (i : Nat) (held : p.Holds w)
    (inside : p.mask.getLsbD i = true) :
    w.getLsbD i = (BitVec.ofInt p.width p.value.toInt).getLsbD (i - p.low) := by
  simp only [bit_mask, Bool.and_eq_true, decide_eq_true_eq] at inside
  rw [← held, BitVec.getLsbD_extractLsb']
  have place : p.low + (i - p.low) = i := by omega
  have short : i - p.low < p.width := by omega
  simp [place, short]

/-- A word agrees with a placed value on its place exactly when the place holds it. -/
theorem and_mask_eq_word_iff (w : Word) (p : Placed) (inside : p.low + p.width ≤ 32) :
    w &&& p.mask = p.word ↔ p.Holds w := by
  constructor
  · intro same
    apply BitVec.eq_of_getLsbD_eq
    intro i short
    have agree := congrArg (fun x => x.getLsbD (p.low + i)) same
    simp only [BitVec.getLsbD_and, bit_word, bit_mask] at agree
    have inWord : p.low + i < 32 := by omega
    simpa [inWord, short] using agree
  · intro held
    apply BitVec.eq_of_getLsbD_eq
    intro i _
    rw [BitVec.getLsbD_and, bit_word, Bool.and_comm]
    cases covered : p.mask.getLsbD i with
    | false => simp
    | true => simpa using bit_extract w p i held covered

private theorem word_and_mask (p : Placed) : p.word &&& p.mask = p.word := by
  apply BitVec.eq_of_getLsbD_eq
  intro i _
  rw [BitVec.getLsbD_and, bit_word]
  cases p.mask.getLsbD i <;> simp

private theorem masks_apart (p q : Placed) (apart : p.Apart q) : p.mask &&& q.mask = 0#32 := by
  apply BitVec.eq_of_getLsbD_eq
  intro i _
  simp only [BitVec.getLsbD_and, bit_mask]
  unfold Placed.Apart at apart
  by_cases inFirst : p.low ≤ i ∧ i < p.low + p.width
  · have outside : ¬ (q.low ≤ i ∧ i < q.low + q.width) := by omega
    by_cases above : q.low ≤ i
    · have past : ¬ i < q.low + q.width := fun below => outside ⟨above, below⟩
      simp [past]
    · simp [above]
  · by_cases above : p.low ≤ i
    · have past : ¬ i < p.low + p.width := fun below => inFirst ⟨above, below⟩
      simp [past]
    · simp [above]

private theorem mask_and_masks (p : Placed) (ps : List Placed) (apart : ∀ q ∈ ps, p.Apart q) :
    p.mask &&& masks ps = 0#32 := by
  induction ps with
  | nil => simp [masks]
  | cons q rest ih =>
    have first : p.mask &&& q.mask = 0#32 := masks_apart p q (apart q (by simp))
    have others : p.mask &&& masks rest = 0#32 := ih fun r member => apart r (by simp [member])
    show p.mask &&& (q.mask ||| masks rest) = 0#32
    rw [BitVec.and_or_distrib_left, first, others]
    rfl

private theorem words_and_masks (ps : List Placed) : words ps &&& masks ps = words ps := by
  induction ps with
  | nil => rfl
  | cons p rest ih =>
    show (p.word ||| words rest) &&& (p.mask ||| masks rest) = p.word ||| words rest
    calc (p.word ||| words rest) &&& (p.mask ||| masks rest)
        = (p.word &&& p.mask ||| p.word &&& masks rest) |||
            (words rest &&& p.mask ||| words rest &&& masks rest) := by
          rw [BitVec.and_or_distrib_right, BitVec.and_or_distrib_left, BitVec.and_or_distrib_left]
      _ = p.word ||| words rest := by
          rw [word_and_mask, ih]
          ext i
          simp only [BitVec.getElem_or, BitVec.getElem_and]
          cases p.word[i] <;> cases (words rest)[i] <;> simp

/-- A word agrees with separate parts on the union of two disjoint masks exactly when
it agrees with each part on its own mask. -/
theorem and_union_eq_iff (w m n x y : Word) (disjoint : m &&& n = 0#32) (within : x &&& m = x)
    (within' : y &&& n = y) : w &&& (m ||| n) = x ||| y ↔ w &&& m = x ∧ w &&& n = y := by
  have crossed : x &&& n = 0#32 := by
    rw [← within, BitVec.and_assoc, disjoint, BitVec.and_zero]
  have crossed' : y &&& m = 0#32 := by
    rw [← within', BitVec.and_assoc, BitVec.and_comm n m, disjoint, BitVec.and_zero]
  constructor
  · intro same
    constructor
    · calc w &&& m = (w &&& (m ||| n)) &&& m := by
            rw [BitVec.and_assoc, BitVec.and_or_distrib_right, BitVec.and_self, BitVec.and_comm n m,
              disjoint, BitVec.or_zero]
        _ = x := by rw [same, BitVec.and_or_distrib_right, within, crossed', BitVec.or_zero]
    · calc w &&& n = (w &&& (m ||| n)) &&& n := by
            rw [BitVec.and_assoc, BitVec.and_or_distrib_right, BitVec.and_self, disjoint,
              BitVec.zero_or]
        _ = y := by rw [same, BitVec.and_or_distrib_right, within', crossed, BitVec.zero_or]
  · rintro ⟨rfl, rfl⟩
    rw [BitVec.and_or_distrib_left]

/-- A word agrees with values in disjoint places, on these places, exactly when every
place holds its value. -/
theorem and_masks_eq_words_iff (w : Word) (ps : List Placed)
    (inside : ∀ p ∈ ps, p.low + p.width ≤ 32) (apart : ps.Pairwise Placed.Apart) :
    w &&& masks ps = words ps ↔ ∀ p ∈ ps, p.Holds w := by
  induction ps with
  | nil => simp [masks, words]
  | cons p rest ih =>
    obtain ⟨first, others⟩ := List.pairwise_cons.mp apart
    have tail := ih (fun q member => inside q (by simp [member])) others
    have head := and_mask_eq_word_iff w p (inside p (by simp))
    show w &&& (p.mask ||| masks rest) = p.word ||| words rest ↔ _
    rw [and_union_eq_iff w _ _ _ _ (mask_and_masks p rest first) (word_and_mask p)
      (words_and_masks rest), head, tail]
    simp

end PowerAsm.Proofs.Fields
