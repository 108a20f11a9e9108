import Mathlib.Algebra.Ring.Int.Defs
import Mathlib.Algebra.Ring.Nat
import PowerAsm.Instruction.Basic

/-! Numbers that are written down are read again: decimal and hexadecimal integers of 64
bits, words with all their digits, and the numbers of registers. -/
namespace PowerAsm.Proofs.Numerals
open Numeral

/-- The glyph of a digit. -/
def figure (d : Nat) : Glyph := .char d.digitChar

theorem digits_eq_if (base n : Nat) (large : 1 < base) :
    digits base n = if n < base then [figure n] else digits base (n / base) ++ [figure (n % base)] := by
  unfold digits
  rw [Nat.toDigits_eq_if large]
  split <;> simp [figure]

/-- Facts about digits follow the way digits are added at the end. -/
theorem digits_induction {base : Nat} (large : 1 < base) {motive : Nat → Text → Prop}
    (single : ∀ d, d < base → motive d [figure d])
    (more : ∀ n d t, 0 < n → d < base → t = digits base n → motive n t →
      motive (n * base + d) (t ++ [figure d])) (n : Nat) : motive n (digits base n) := by
  induction n using Nat.strongRecOn with
  | ind n ih =>
    rw [digits_eq_if base n large]
    by_cases small : n < base
    · rw [if_pos small]
      exact single n small
    · rw [if_neg small]
      have positive : 0 < n / base := Nat.div_pos (by omega) (by omega)
      have smaller : n / base < n := Nat.div_lt_self (by omega) large
      have step := more (n / base) (n % base) _ positive (Nat.mod_lt _ (by omega)) rfl
        (ih (n / base) smaller)
      rwa [Nat.mul_comm, Nat.div_add_mod] at step

theorem digit?_figure : ∀ d < 16, digit? (figure d) = some d := by decide

theorem figure_ne_underscore : ∀ d < 16, figure d ≠ .char '_' := by decide

theorem digits_figures (base n : Nat) (large : 1 < base) :
    ∀ g ∈ digits base n, ∃ d < base, g = figure d := by
  refine digits_induction large (motive := fun _ t => ∀ g ∈ t, ∃ d < base, g = figure d) ?_ ?_ n
  · intro d below g member
    exact ⟨d, below, by simpa using member⟩
  · intro n d t _ below _ ih g member
    rcases List.mem_append.mp member with before | last
    · exact ih g before
    · exact ⟨d, below, by simpa using last⟩

theorem digits_ne_nil (base n : Nat) (large : 1 < base) : digits base n ≠ [] :=
  digits_induction large (motive := fun _ t => t ≠ []) (by simp) (by simp) n

/-- The first digit of a positive number is not zero. -/
theorem head_digits (base n : Nat) (large : 1 < base) (small : base ≤ 16) (positive : 0 < n) :
    ∃ d, 0 < d ∧ d < 16 ∧ (digits base n).head? = some (figure d) := by
  refine digits_induction large
    (motive := fun n t => 0 < n → ∃ d, 0 < d ∧ d < 16 ∧ t.head? = some (figure d)) ?_ ?_ n positive
  · intro d below positive
    exact ⟨d, positive, by omega, rfl⟩
  · intro n d t positive _ _ ih _
    obtain ⟨first, above, below, atHead⟩ := ih positive
    refine ⟨first, above, below, ?_⟩
    rw [List.head?_append, atHead]
    rfl

theorem accumulate_append (base n : Nat) (s t : Text) :
    accumulate base n (s ++ t) = (accumulate base n s).bind fun m => accumulate base m t := by
  induction s generalizing n with
  | nil => rfl
  | cons g rest ih =>
    simp only [List.cons_append, accumulate]
    split
    · exact ih n
    · split
      · rfl
      · split
        · rfl
        · split
          · rfl
          · exact ih _

theorem accumulate_figure (base n d : Nat) (below : d < base) (small : base ≤ 16)
    (range : n * base + d ≤ 0xFFFFFFFFFFFFFFFF) :
    accumulate base n [figure d] = .ok (n * base + d) := by
  have inside : d < 16 := by omega
  simp only [accumulate, if_neg (figure_ne_underscore d inside), digit?_figure d inside,
    if_neg (Nat.not_le.mpr below), if_neg (Nat.not_lt.mpr range)]

/-- The digits of a number have its value. -/
theorem accumulate_digits (base n : Nat) (large : 1 < base) (small : base ≤ 16)
    (range : n ≤ 0xFFFFFFFFFFFFFFFF) : accumulate base 0 (digits base n) = .ok n := by
  refine digits_induction large
    (motive := fun n t => n ≤ 0xFFFFFFFFFFFFFFFF → accumulate base 0 t = .ok n) ?_ ?_ n range
  · intro d below range
    have read := accumulate_figure base 0 d below small (by omega)
    rwa [Nat.zero_mul, Nat.zero_add] at read
  · intro n d t _ below _ ih range
    have scaled : n ≤ n * base := Nat.le_mul_of_pos_right n (by omega)
    rw [accumulate_append, ih (by omega)]
    exact accumulate_figure base n d below small range

/-- Zeros in front do not count. -/
theorem accumulate_zeros (base k : Nat) (large : 1 < base) (small : base ≤ 16) (t : Text) :
    accumulate base 0 (List.replicate k (.char '0') ++ t) = accumulate base 0 t := by
  induction k with
  | zero => rfl
  | succ k ih =>
    have zero := accumulate_figure base 0 0 (by omega) small (by omega)
    rw [Nat.zero_mul] at zero
    rw [List.replicate_succ, List.cons_append, ← List.singleton_append, accumulate_append]
    exact (congrArg (Except.bind · _) zero).trans ih

theorem underscores_separate (marked : Bool) (t : Text) (none : .char '_' ∉ t) :
    underscoresSeparate marked t = true := by
  induction t generalizing marked with
  | nil => rfl
  | cons g rest ih =>
    have first : g ≠ .char '_' := fun same => none (by simp [same])
    unfold underscoresSeparate
    rw [if_neg first]
    exact ih true fun member => none (List.mem_cons_of_mem _ member)

private theorem digits_without_underscore (base n : Nat) (large : 1 < base) (small : base ≤ 16) :
    .char '_' ∉ digits base n := by
  intro member
  obtain ⟨d, below, same⟩ := digits_figures base n large _ member
  exact figure_ne_underscore d (by omega) same.symm

/-- Digits after the mark of the base sixteen. -/
theorem readMagnitude_marked (t : Text) (n : Nat) (some : t ≠ []) (none : .char '_' ∉ t)
    (value : accumulate 16 0 t = .ok n) : readMagnitude ("0x" ++ t) = .ok n := by
  obtain ⟨g, rest, rfl⟩ := List.exists_cons_of_ne_nil some
  have split : splitRadix ("0x" ++ g :: rest) = (⟨16, true⟩, g :: rest) := rfl
  have filled : List.isEmpty ("0x" ++ g :: rest : Text) = false := rfl
  simp only [readMagnitude, filled, split, value, underscores_separate true _ none, bind,
    Except.bind, Bool.false_eq_true, ↓reduceIte]

private theorem splitRadix_decimal (g : Glyph) (rest : Text) (nonzero : g ≠ .char '0') :
    splitRadix (g :: rest) = (⟨10, false⟩, g :: rest) := by
  unfold splitRadix
  split
  · rename_i same
    exact absurd (List.cons.inj same).1 nonzero
  · rename_i same
    exact absurd (List.cons.inj same).1 nonzero
  · rfl

theorem readMagnitude_digits (n : Nat) (range : n ≤ 0xFFFFFFFFFFFFFFFF) :
    readMagnitude (digits 10 n) = .ok n := by
  by_cases zero : n = 0
  · subst zero
    rfl
  · obtain ⟨d, above, below, first⟩ := head_digits 10 n (by decide) (by decide) (by omega)
    obtain ⟨rest, shape⟩ : ∃ rest, digits 10 n = figure d :: rest := by
      cases all : digits 10 n with
      | nil => exact absurd all (digits_ne_nil 10 n (by decide))
      | cons g rest =>
        rw [all] at first
        cases first
        exact ⟨rest, rfl⟩
    have nonzero : ∀ d < 16, 0 < d → figure d ≠ .char '0' := by decide
    have split := splitRadix_decimal (figure d) rest (nonzero d below above)
    have value := accumulate_digits 10 n (by decide) (by decide) range
    have plain := underscores_separate false _ (digits_without_underscore 10 n (by decide) (by decide))
    have filled : (digits 10 n).isEmpty = false := by rw [shape]; rfl
    rw [← shape] at split
    simp only [readMagnitude, filled, split, value, plain, bind, Except.bind, Bool.false_eq_true,
      ↓reduceIte]

/-- A text that starts with a digit has no sign. -/
theorem splitSign_figure (d : Nat) (below : d < 16) (rest : Text) :
    splitSign (figure d :: rest) = (false, figure d :: rest) := by
  have unsigned : ∀ d < 16, figure d ≠ .char '-' ∧ figure d ≠ .char '+' := by decide
  unfold splitSign
  split
  · rename_i same
    exact absurd (List.cons.inj same).1 (unsigned d below).1
  · rename_i same
    exact absurd (List.cons.inj same).1 (unsigned d below).2
  · rfl

theorem splitSign_digits (base n : Nat) (large : 1 < base) (small : base ≤ 16) :
    splitSign (digits base n) = (false, digits base n) := by
  cases shape : digits base n with
  | nil => rfl
  | cons g rest =>
    obtain ⟨d, below, rfl⟩ := digits_figures base n large g (by rw [shape]; simp)
    exact splitSign_figure d (by omega) rest

/-- A magnitude with or without a minus sign in front of it. -/
theorem read_signed (v : Int64) (t : Text) (unsigned : splitSign t = (false, t))
    (value : readMagnitude t = .ok v.toInt.natAbs) :
    Numeral.read (if v.toInt < 0 then .char '-' :: t else t) = .ok v := by
  have lowest := Int64.le_toInt v
  have highest := Int64.toInt_lt v
  by_cases negative : v.toInt < 0
  · have split : splitSign (.char '-' :: t) = (true, t) := rfl
    have range : ¬ 0x8000000000000000 < v.toInt.natAbs := by omega
    have back : (-(v.toInt.natAbs : Int)) = v.toInt := by omega
    simp only [if_pos negative, Numeral.read, split, value, bind, Except.bind, if_neg range, back,
      Int64.ofInt_toInt, ↓reduceIte]
  · have range : ¬ 0x8000000000000000 ≤ v.toInt.natAbs := by omega
    have back : (v.toInt.natAbs : Int) = v.toInt := by omega
    simp only [if_neg negative, Numeral.read, unsigned, value, bind, Except.bind, if_neg range, back,
      Int64.ofInt_toInt, Bool.false_eq_true, ↓reduceIte]

private theorem natAbs_range (v : Int64) : v.toInt.natAbs ≤ 0xFFFFFFFFFFFFFFFF := by
  have lowest := Int64.le_toInt v
  have highest := Int64.toInt_lt v
  omega

theorem read_decimal (v : Int64) : Numeral.read (decimal v.toInt) = .ok v :=
  read_signed v _ (splitSign_digits 10 _ (by decide) (by decide))
    (readMagnitude_digits _ (natAbs_range v))

theorem read_hexadecimal (v : Int64) : Numeral.read (hexadecimal v.toInt) = .ok v :=
  read_signed v _ (splitSign_figure 0 (by decide) _)
    (readMagnitude_marked _ _ (digits_ne_nil 16 _ (by decide))
      (digits_without_underscore 16 _ (by decide) (by decide))
      (accumulate_digits 16 _ (by decide) (by decide) (natAbs_range v)))

theorem read_wordText (w : Word) :
    Numeral.read (Instruction.wordText w) = .ok (Int64.ofNat w.toNat) := by
  have bound := w.isLt
  have value : (Int64.ofNat w.toNat).toInt = w.toNat := Int64.toInt_ofNat_of_lt (by omega)
  have positive : ¬ (Int64.ofNat w.toNat).toInt < 0 := by omega
  have padded : zeroPadded 8 (digits 16 w.toNat) =
      List.replicate (8 - (digits 16 w.toNat).length) (.char '0') ++ digits 16 w.toNat := rfl
  have magnitude : readMagnitude (Instruction.wordText w) =
      .ok (Int64.ofNat w.toNat).toInt.natAbs := by
    rw [value, Int.natAbs_natCast, Instruction.wordText, padded]
    apply readMagnitude_marked
    · simp [digits_ne_nil 16 w.toNat (by decide)]
    · simp [digits_without_underscore 16 w.toNat (by decide) (by decide)]
    · rw [accumulate_zeros 16 _ (by decide) (by decide)]
      exact accumulate_digits 16 w.toNat (by decide) (by decide) (by omega)
  have read := read_signed (Int64.ofNat w.toNat) _ (splitSign_figure 0 (by decide) _) magnitude
  rwa [if_neg positive] at read

theorem decimalValue?_digits (n : Nat) : decimalValue? (digits 10 n) = some n := by
  have filled : (digits 10 n).isEmpty = false := by
    simp [digits_ne_nil 10 n (by decide)]
  rw [decimalValue?, filled]
  refine digits_induction (by decide) (motive := fun n t => t.foldlM _ 0 = some n) ?_ ?_ n
  · intro d below
    simp [digit?_figure d (by omega), below]
  · intro n d t _ below _ ih
    simp [List.foldlM_append, ih, digit?_figure d (by omega), below]

theorem readDecimal?_decimal (v : Int) : readDecimal? (decimal v) = some v := by
  by_cases negative : v < 0
  · have split : splitSign (decimal v) = (true, digits 10 v.natAbs) := by
      rw [decimal, if_pos negative]
      rfl
    have back : -(v.natAbs : Int) = v := by omega
    simp only [readDecimal?, split, decimalValue?_digits]
    exact congrArg some back
  · have split : splitSign (decimal v) = (false, digits 10 v.natAbs) := by
      rw [decimal, if_neg negative]
      exact splitSign_digits 10 _ (by decide) (by decide)
    have back : (v.natAbs : Int) = v := by omega
    simp only [readDecimal?, split, decimalValue?_digits]
    exact congrArg some back

end PowerAsm.Proofs.Numerals
