import Mathlib.Order.Bounds.Defs
import PowerAsm.Proofs.Recovery.Effects
import PowerAsm.Proofs.SharedSegments

/-! Alignment of code. Nothing bounds the filling itself: it ends because an assembler that has its
segment to itself only ever adds whole words, also where an operation fails, so that a multiple of
the modulus is met and not passed over. Up to there every word does nothing, and what was written
before stays as it was. -/
namespace PowerAsm.Proofs.Alignment
open Storage Labels Operations Recovery SharedSegments

/-- The offset of the next word. -/
def offset (a : Assembly) : Int := (a.assembler.buffer.length a.segment).toInt

/-- The multiples of the modulus that the code has not passed. -/
def Multiples (modulus : Int64) (a : Assembly) : Set Int := {m | modulus.toInt ∣ m ∧ offset a ≤ m}

/-- The offset counts the words that were written. -/
theorem offset_eq {origin a : Assembly} {old : List UInt8} {ws : List Word}
    (live : Live origin old ws a) : offset a = 4 * ws.length := by
  rw [offset, live.offset, live.offset_toInt (Nat.le_refl _)]

/-- The word that does nothing. -/
def idle : Word := 0x60000000

/-- `b` is `a` with so many words after its code that do nothing. -/
structure Padded (a b : Assembly) (count : Nat) : Prop where
  bytes : ∃ old, a.segment.bytes = .ok old ∧
    b.segment.bytes = .ok (old ++ (List.replicate count idle).flatMap a.segment.order.bytes)
  order : b.segment.order = a.segment.order
  offset : offset b = offset a + 4 * count
  assembler : ∃ log, b.assembler = { a.assembler with log }

section Filling
variable {origin a b c : Assembly} {old : List UInt8} {ws : List Word} {modulus : Int64}

theorem Padded.refl (live : Live origin old ws a) : Padded a a 0 := by
  have held := bytes_of_written live.holding.written
  exact ⟨⟨_, held, by simpa using held⟩, rfl, by simp, a.assembler.log, rfl⟩

theorem Padded.trans {first second : Nat} (one : Padded a b first) (two : Padded b c second) :
    Padded a c (first + second) := by
  obtain ⟨⟨old, before, between⟩, order, moved, log, rest⟩ := one
  obtain ⟨⟨old', between', later⟩, order', moved', log', rest'⟩ := two
  cases between.symm.trans between'
  refine ⟨⟨old, before, ?_⟩, order'.trans order, ?_, log', by rw [rest', rest]⟩
  · rw [later, order, List.append_assoc, ← List.flatMap_append, List.replicate_append_replicate]
  · rw [moved', moved]
    push_cast
    omega

theorem short_nop (a : Assembly) : Asm.short .nop () a = Asm.emit idle a :=
  emitEncoded_ok (by decide) a

/-- One word that does nothing, or no storage for it. -/
theorem idle_cases (live : Live origin old ws a) :
    (∃ b, Asm.short .nop () a = .ok () b ∧ Live origin old (ws ++ [idle]) b ∧ Padded a b 1) ∨
      Asm.short .nop () a = .error .outOfBounds a ∧ 2 ^ 62 < a.segment.size.toInt + 4 := by
  rw [short_nop]
  rcases live.emit idle with ⟨s, emitted, live'⟩ | full
  · have held := bytes_of_written live.holding.written
    have held' := bytes_of_written live'.holding.written
    have order := live.holding.order
    refine .inl ⟨_, emitted, live', ⟨_, held, ?_⟩, live'.holding.order.trans order.symm, ?_, _, rfl⟩
    · rw [held', List.flatMap_append, ← List.append_assoc, order]
      rfl
    · rw [offset_eq live, offset_eq live', List.length_append, List.length_singleton]
      omega
  · exact .inr full

theorem mod_eq_zero_iff (v modulus : Int64) : v % modulus = 0 ↔ modulus.toInt ∣ v.toInt := by
  rw [← Int64.toInt_inj, Int64.toInt_mod, Int64.toInt_zero]
  exact ⟨Int.dvd_of_tmod_eq_zero, Int.tmod_eq_zero_of_dvd⟩

theorem fillUp_even (even : modulus.toInt ∣ offset a) : Asm.fillUp modulus a = .ok () a := by
  rw [Asm.fillUp, if_pos ((mod_eq_zero_iff _ _).mpr even)]

theorem fillUp_odd (odd : ¬ modulus.toInt ∣ offset a) :
    Asm.fillUp modulus a =
      match Asm.short .nop () a with
      | .ok () b => Asm.fillUp modulus b
      | .error e b => .error e b := by
  rw [Asm.fillUp, if_neg fun even => odd ((mod_eq_zero_iff _ _).mp even)]
  split <;> rename_i ran <;> simp only [ran]

/-- Filling up stops at the first multiple, or where the storage ends before it. The words that are
missing are those that are written. -/
theorem fillUp_cases (live : Live origin old ws a) {missing : Nat}
    (least : IsLeast (Multiples modulus a) (offset a + 4 * missing)) :
    (∃ b, Asm.fillUp modulus a = .ok () b ∧ Padded a b missing) ∨
      ∃ count b, count < missing ∧ Asm.fillUp modulus a = .error .outOfBounds b ∧
        Padded a b count ∧ 2 ^ 62 < a.segment.size.toInt + 4 * (count + 1) := by
  induction missing generalizing a ws with
  | zero =>
    have even := least.1.1
    rw [Int.natCast_zero, Int.mul_zero, Int.add_zero] at even
    exact .inl ⟨a, fillUp_even even, .refl live⟩
  | succ missing ih =>
    have odd : ¬ modulus.toInt ∣ offset a := by
      intro even
      have lower := least.2 ⟨even, Int.le_refl _⟩
      omega
    rw [fillUp_odd odd]
    rcases idle_cases live with ⟨b, ran, live', padded⟩ | ⟨ran, full⟩
    · rw [ran]
      have next : offset b = offset a + 4 := padded.offset
      have least' : IsLeast (Multiples modulus b) (offset b + 4 * missing) := by
        rw [next, show offset a + 4 + 4 * (missing : Int) = offset a + 4 * (missing + 1 : Nat) by omega]
        refine ⟨⟨least.1.1, by omega⟩, fun m above => least.2 ⟨above.1, ?_⟩⟩
        have later := above.2
        omega
      rcases ih live' least' with ⟨c, filled, padded'⟩ | ⟨count, c, short, failed, padded', full⟩
      · exact .inl ⟨c, filled, Nat.add_comm missing 1 ▸ padded.trans padded'⟩
      · refine .inr ⟨count + 1, c, by omega, failed, Nat.add_comm count 1 ▸ padded.trans padded', ?_⟩
        have size := live.holding.written.size
        have size' := live'.holding.written.size
        rw [length_append_code, List.length_append, List.length_singleton] at size'
        rw [length_append_code] at size
        omega
    · rw [ran]
      exact .inr ⟨0, a, by omega, rfl, .refl live, by omega⟩

theorem isLeast_multiple (x : Int) {m : Int} (positive : 0 < m) :
    IsLeast {v | m ∣ v ∧ x ≤ v} (x + (-x) % m) := by
  have remainder := Int.emod_nonneg (-x) (Int.ne_of_gt positive)
  refine ⟨⟨?_, by omega⟩, ?_⟩
  · rw [Int.dvd_iff_emod_eq_zero, Int.add_emod_emod, Int.add_right_neg, Int.zero_emod]
  · rintro v ⟨⟨k, rfl⟩, above⟩
    have same : (m * k - x) % m = (-x) % m := by
      rw [Int.sub_eq_add_neg, Int.mul_add_emod_self_left]
    have parts := Int.emod_add_mul_ediv (m * k - x) m
    have quotient := Int.ediv_nonneg (Int.sub_nonneg_of_le above) (Int.le_of_lt positive)
    have multiple := Int.mul_nonneg (Int.le_of_lt positive) quotient
    omega

/-- Whole words are missing to the next multiple. -/
theorem exists_least (live : Live origin old ws a) (positive : 0 < modulus.toInt)
    (whole : 4 ∣ modulus.toInt) :
    ∃ missing : Nat, IsLeast (Multiples modulus a) (offset a + 4 * missing) := by
  have here := offset_eq live
  have remainder := Int.emod_nonneg (-offset a) (Int.ne_of_gt positive)
  have words : (-offset a) % modulus.toInt % 4 = 0 := by
    rw [Int.emod_emod_of_dvd _ whole]
    omega
  have missing : 4 * (((-offset a) % modulus.toInt).toNat / 4 : Nat) =
      (-offset a) % modulus.toInt := by omega
  refine ⟨((-offset a) % modulus.toInt).toNat / 4, ?_⟩
  rw [missing]
  exact isLeast_multiple (offset a) positive

end Filling

/-- An assembler that was started at the end of any segment, and was alone on it since, has done
whatever it was asked, successfully or not. It refuses to align its code to a modulus that is no
positive multiple of four, and nothing changes. To any other it fills up its code with words that
do nothing, as many as are missing to the next multiple; all else stays as it was. Only storage
that can grow no further ends this before. -/
theorem align_fills_up {s s' : Segment} {t : Target} {x : Assembler} (used : Used s)
    (started : Assembler.start t s = .ok x s') (ops : List Operation) (modulus : Int64) :
    let a := Operation.performAll ⟨s', x⟩ ops
    (¬ (0 < modulus.toInt ∧ 4 ∣ modulus.toInt) →
      Asm.align modulus a = .error (.encoding ⟨"align", .alignment modulus⟩) a) ∧
    (0 < modulus.toInt ∧ 4 ∣ modulus.toInt → ∃ missing : Nat,
      IsLeast (Multiples modulus a) (offset a + 4 * missing) ∧
      ((∃ b, Asm.align modulus a = .ok () b ∧ Padded a b missing) ∨
        ∃ count b, count < missing ∧ Asm.align modulus a = .error .outOfBounds b ∧
          Padded a b count ∧ 2 ^ 62 < a.segment.size.toInt + 4 * (count + 1))) := by
  obtain ⟨old, start, -⟩ := start_live used.intact.bounded used.intact.sturdy started
  obtain ⟨ws, live⟩ := performAll_keeps (stable_live ⟨s', x⟩ old) _ ⟨[], start⟩ ops
  have refused : (modulus ≤ 0 ∨ modulus.toInt % 4 ≠ 0) ↔
      ¬ (0 < modulus.toInt ∧ 4 ∣ modulus.toInt) := by
    rw [Int64.le_iff_toInt_le, Int64.toInt_zero, Int.dvd_iff_emod_eq_zero]
    omega
  intro a
  constructor
  · intro odd
    rw [Asm.align, if_pos (refused.mpr odd)]
    rfl
  · intro even
    have filled : Asm.align modulus a = Asm.fillUp modulus a := by
      rw [Asm.align, if_neg fun odd => refused.mp odd even]
    obtain ⟨missing, least⟩ := exists_least live even.1 even.2
    rw [filled]
    exact ⟨missing, least, fillUp_cases live least⟩

/-- One word and an alignment that was refused leave three words missing to sixteen bytes. -/
theorem align_fills_up_three :
    ∃ a b, Operation.performAll (.fresh .ppc64 .big) [.word 0x4E800020, .align 6] = a ∧
      offset a = 4 ∧ Asm.align 16 a = .ok () b ∧ Padded a b 3 := by
  have used : Used (.empty .big) := .code [] .big (by decide)
  have started := Assembler.start_empty .ppc64 .big
  have word (x : Assembly) : (Operation.word 0x4E800020).perform x = after (Asm.emit 0x4E800020 x) :=
    rfl
  have align (x : Assembly) : (Operation.align 6).perform x = after (Asm.align 6 x) := rfl
  obtain ⟨a, emitted, code, -⟩ := emit_code (fresh_code .ppc64 .big) 0x4E800020 (by decide)
  have first : Operation.performAll (.fresh .ppc64 .big) [.word 0x4E800020] = a := by
    rw [Operation.performAll, List.foldl_cons, List.foldl_nil, word, emitted, after_ok]
  have refused : Asm.align 6 a = .error (.encoding ⟨"align", .alignment 6⟩) a := by
    rw [← first]
    exact (align_fills_up used started [.word 0x4E800020] 6).1 (by decide)
  have second : Operation.performAll ⟨.empty .big, .initial .ppc64 ⟨0⟩⟩
      [.word 0x4E800020, .align 6] = a := by
    show Operation.performAll (.fresh .ppc64 .big) [.word 0x4E800020, .align 6] = a
    rw [Operation.performAll, List.foldl_cons, List.foldl_cons, List.foldl_nil, word, emitted,
      after_ok, align, refused, after_error]
  have here : offset a = 4 := by
    rw [offset, code.length]
    rfl
  obtain ⟨missing, least, outcome⟩ :=
    (align_fills_up used started [.word 0x4E800020, .align 6] 16).2 (by decide)
  rw [second] at least outcome
  have three : missing = 3 := by
    have upper := least.2 ⟨(by decide : (16 : Int64).toInt ∣ 16), (by omega : offset a ≤ 16)⟩
    obtain ⟨k, multiple⟩ := least.1.1
    have modulus : (16 : Int64).toInt = 16 := rfl
    rw [here, modulus] at multiple
    omega
  subst three
  have size := code.size
  rcases outcome with ⟨b, filled, padded⟩ | ⟨count, b, fewer, -, -, full⟩
  · exact ⟨a, b, second, here, filled, padded⟩
  · rw [size] at full
    simp only [List.nil_append, List.length_singleton] at full
    omega

end PowerAsm.Proofs.Alignment
