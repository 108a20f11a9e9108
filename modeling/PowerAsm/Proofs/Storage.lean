import PowerAsm.Assembler.Basic
import PowerAsm.Proofs.Integers

/-! Code in its storage. A segment holds a list of bytes at the start of its storage, and
appending, reading and replacing bytes does the same to that list, however often the
storage grows. Storage is doubled as long as its size can be an offset. -/
namespace PowerAsm.Proofs.Storage
open Segment Integers

/-! ### Actions on a state -/

section Actions
variable {ε σ α β : Type} (s : σ)

-- The parentheses keep these from being used by unfolding, which would run an action in
-- the kernel as far as it goes.

@[simp] theorem pure_apply (a : α) : (pure a : EStateM ε σ α) s = .ok a s := (rfl)

@[simp] theorem get_apply : (get : EStateM ε σ σ) s = .ok s s := (rfl)

@[simp] theorem modify_apply (f : σ → σ) : (modify f : EStateM ε σ PUnit) s = .ok ⟨⟩ (f s) := (rfl)

@[simp] theorem throw_apply (e : ε) : (throw e : EStateM ε σ α) s = .error e s := (rfl)

@[simp] theorem bind_apply (x : EStateM ε σ α) (f : α → EStateM ε σ β) :
    (x >>= f) s = match x s with
      | .ok a s => f a s
      | .error e s => .error e s := (rfl)

@[simp] theorem ofExcept_ok (a : α) :
    (MonadExcept.ofExcept (.ok a : Except ε α) : EStateM ε σ α) s = .ok a s := (rfl)

@[simp] theorem ofExcept_error (e : ε) :
    (MonadExcept.ofExcept (.error e : Except ε α) : EStateM ε σ α) s = .error e s := (rfl)

end Actions

/-! ### Growth -/

theorem le_doubled (capacity want : Nat) (positive : 0 < capacity) :
    want ≤ doubled capacity want := by
  fun_induction doubled capacity want with
  | case1 capacity more ih => exact ih (by omega)
  | case2 capacity enough => omega

/-- Doubling stops before it passes a size that is large enough. -/
theorem doubled_le (capacity want k : Nat) (large : want ≤ capacity * 2 ^ k) :
    doubled capacity want ≤ capacity * 2 ^ k := by
  fun_induction doubled capacity want generalizing k with
  | case1 capacity more ih =>
    cases k with
    | zero => omega
    | succ k =>
      have shifted : capacity * 2 ^ (k + 1) = 2 * capacity * 2 ^ k := by
        rw [Nat.pow_succ]
        ac_rfl
      rw [shifted] at large ⊢
      exact ih k large
  | case2 capacity enough => exact Nat.le_mul_of_pos_right _ (Nat.two_pow_pos k)

/-- As long as doubling goes on, the sizes are too small. -/
theorem doubled_rounds (capacity want : Nat) :
    ∃ k, doubled capacity want = capacity * 2 ^ k ∧ ∀ j < k, capacity * 2 ^ j < want := by
  fun_induction doubled capacity want with
  | case1 capacity more ih =>
    obtain ⟨k, same, before⟩ := ih
    have twice (j : Nat) : 2 * capacity * 2 ^ j = capacity * 2 ^ (j + 1) := by
      rw [Nat.pow_succ]
      ac_rfl
    refine ⟨k + 1, same.trans (twice k), fun j below => ?_⟩
    cases j with
    | zero => rw [Nat.pow_zero, Nat.mul_one]; exact more.2
    | succ j =>
      rw [← twice]
      exact before j (by omega)
  | case2 capacity enough =>
    refine ⟨0, ?_, fun j below => absurd below (Nat.not_lt_zero j)⟩
    rw [Nat.pow_zero, Nat.mul_one]

theorem self_le_doubled (capacity want : Nat) : capacity ≤ doubled capacity want := by
  fun_induction doubled capacity want with
  | case1 capacity more ih => omega
  | case2 capacity enough => exact Nat.le_refl _

/-- Storage that has to grow stays below twice what is wanted. -/
theorem doubled_lt (capacity want : Nat) :
    doubled capacity want = capacity ∨ doubled capacity want < 2 * want := by
  fun_induction doubled capacity want with
  | case1 capacity more ih => omega
  | case2 capacity enough => exact .inl rfl

/-- Growing in two steps is growing at once. -/
theorem doubled_doubled {capacity first second : Nat} (later : first ≤ second) :
    doubled (doubled capacity first) second = doubled capacity second := by
  fun_induction doubled capacity first with
  | case1 capacity more ih =>
    rw [ih, doubled.eq_def capacity second, if_pos ⟨more.1, by omega⟩]
  | case2 capacity enough => rfl

/-- The sizes that storage has: none, or fresh storage doubled some times. -/
def Doubling (n : Nat) : Prop := n = 0 ∨ ∃ k, n = initialCapacity * 2 ^ k

/-- The largest size of storage. Twice as much is no offset any more. -/
def largest : Nat := 2 ^ 62

theorem largest_eq : largest = initialCapacity * 2 ^ 50 := by decide

private theorem grown_from (capacity : Nat) (doubling : Doubling capacity) :
    ∃ k, (if capacity = 0 then initialCapacity else capacity) = initialCapacity * 2 ^ k := by
  rcases doubling with rfl | ⟨k, rfl⟩
  · exact ⟨0, by simp⟩
  · have positive : initialCapacity * 2 ^ k ≠ 0 := by
      have power := Nat.two_pow_pos k
      simp only [initialCapacity]
      omega
    exact ⟨k, if_neg positive⟩

theorem doubling_grown (capacity want : Nat) (doubling : Doubling capacity) :
    Doubling (grownCapacity capacity want) := by
  obtain ⟨k, start⟩ := grown_from capacity doubling
  obtain ⟨j, grown, -⟩ := doubled_rounds (initialCapacity * 2 ^ k) want
  refine .inr ⟨k + j, ?_⟩
  rw [grownCapacity, start, grown, Nat.pow_add]
  ac_rfl

private theorem start_positive (capacity : Nat) :
    0 < if capacity = 0 then initialCapacity else capacity := by
  split
  · decide
  · omega

theorem le_grownCapacity (capacity want : Nat) : want ≤ grownCapacity capacity want :=
  le_doubled _ _ (start_positive capacity)

private theorem grown_le {capacity want power : Nat} (doubling : Doubling capacity)
    (small : capacity ≤ initialCapacity * 2 ^ power) (room : want ≤ initialCapacity * 2 ^ power) :
    grownCapacity capacity want ≤ initialCapacity * 2 ^ power := by
  obtain ⟨k, start⟩ := grown_from capacity doubling
  have below : k ≤ power := by
    apply Nat.le_of_not_lt
    intro above
    have larger : 2 ^ power < 2 ^ k := Nat.pow_lt_pow_right (by decide) above
    have one : 1 ≤ 2 ^ power := Nat.one_le_two_pow
    rcases doubling with rfl | _ <;> simp only [initialCapacity] at * <;> split at start <;> omega
  have split : initialCapacity * 2 ^ k * 2 ^ (power - k) = initialCapacity * 2 ^ power := by
    rw [Nat.mul_assoc, ← Nat.pow_add, Nat.add_sub_cancel' below]
  rw [grownCapacity, start, ← split]
  exact doubled_le _ _ _ (by rw [split]; exact room)

/-- Storage grows within the largest size as long as the code does. -/
theorem grownCapacity_le {capacity want : Nat} (doubling : Doubling capacity)
    (small : capacity ≤ largest) (room : want ≤ largest) :
    grownCapacity capacity want ≤ largest := by
  rw [largest_eq] at *
  exact grown_le doubling small room

/-- Past the largest size storage is doubled once more. -/
theorem grownCapacity_eq {capacity want : Nat} (doubling : Doubling capacity)
    (small : capacity ≤ largest) (past : largest < want) (near : want ≤ 2 * largest) :
    grownCapacity capacity want = 2 * largest := by
  have twice : 2 * largest = initialCapacity * 2 ^ 51 := by decide
  have reached := le_grownCapacity capacity want
  have upper : grownCapacity capacity want ≤ 2 * largest := by
    have smaller : capacity ≤ 2 * largest := by omega
    rw [twice] at near smaller ⊢
    exact grown_le doubling smaller near
  rcases doubling_grown capacity want doubling with none | ⟨j, size⟩
  · omega
  · have power : 50 < j := by
      apply Nat.lt_of_not_le
      intro below
      have lower : 2 ^ j ≤ 2 ^ 50 := Nat.pow_le_pow_right (by decide) below
      rw [largest_eq] at past
      simp only [initialCapacity] at *
      omega
    have lower : 2 ^ 51 ≤ 2 ^ j := Nat.pow_le_pow_right (by decide) power
    simp only [initialCapacity] at *
    omega

theorem grownCapacity_grownCapacity (capacity : Nat) {first second : Nat} (later : first ≤ second) :
    grownCapacity (grownCapacity capacity first) second = grownCapacity capacity second := by
  have kept := self_le_doubled (if capacity = 0 then initialCapacity else capacity) first
  have start := start_positive capacity
  have positive : grownCapacity capacity first ≠ 0 := by
    rw [grownCapacity]
    omega
  rw [grownCapacity, if_neg positive, grownCapacity, doubled_doubled later, ← grownCapacity]

theorem grownCapacity_mono (capacity : Nat) {first second : Nat} (later : first ≤ second) :
    grownCapacity capacity first ≤ grownCapacity capacity second := by
  rw [grownCapacity, grownCapacity, ← doubled_doubled later]
  exact self_le_doubled _ _

/-- The storage of the segment has, or can grow to, the size for so many bytes. -/
def Room (s : Segment) (n : Nat) : Prop := grownCapacity s.storage.size n < 2 ^ 63

theorem Room.mono {s : Segment} {n m : Nat} (room : Room s n) (less : m ≤ n) : Room s m :=
  Nat.lt_of_le_of_lt (grownCapacity_mono _ less) room

/-- Up to half of what an offset can name, storage of any size can grow. -/
theorem grownCapacity_lt {capacity want : Nat} (bounded : capacity < 2 ^ 63)
    (half : want ≤ 2 ^ 62) : grownCapacity capacity want < 2 ^ 63 := by
  have start : (if capacity = 0 then initialCapacity else capacity) < 2 ^ 63 := by
    split
    · decide
    · exact bounded
  rw [grownCapacity]
  rcases doubled_lt (if capacity = 0 then initialCapacity else capacity) want with same | grown
  · rwa [same]
  · omega

/-- Storage that was not large at the start, doubled some times. -/
def Sturdy (n : Nat) : Prop := ∃ m k, m ≤ 2 ^ 60 ∧ n = m * 2 ^ k

theorem sturdy_of_le {n : Nat} (small : n ≤ 2 ^ 60) : Sturdy n :=
  ⟨n, 0, small, (Nat.mul_one n).symm⟩

theorem Sturdy.grown {n : Nat} (sturdy : Sturdy n) (want : Nat) :
    Sturdy (grownCapacity n want) := by
  obtain ⟨m, k, small, rfl⟩ := sturdy
  rw [grownCapacity]
  split
  · obtain ⟨j, same, -⟩ := doubled_rounds initialCapacity want
    exact ⟨initialCapacity, j, by decide, same⟩
  · obtain ⟨j, same, -⟩ := doubled_rounds (m * 2 ^ k) want
    exact ⟨m, k + j, small, by rw [same, Nat.pow_add, Nat.mul_assoc]⟩

/-- The storage never ends within a word of the largest offset, so that the end of one word more
does not wrap around. -/
theorem Sturdy.clear {n : Nat} (sturdy : Sturdy n) (bounded : n < 2 ^ 63) : n + 4 < 2 ^ 63 := by
  obtain ⟨m, k, small, rfl⟩ := sturdy
  by_cases few : k ≤ 2
  · have power : 2 ^ k ≤ 2 ^ 2 := Nat.pow_le_pow_right (by decide) few
    have product := Nat.mul_le_mul small power
    omega
  · have split : 2 ^ k = 8 * 2 ^ (k - 3) := by
      rw [show (8 : Nat) = 2 ^ 3 from rfl, ← Nat.pow_add]
      congr 1
      omega
    rw [split, Nat.mul_left_comm] at bounded ⊢
    omega

/-! ### Bytes in a segment -/

/-- The storage of a segment starts with its code. -/
structure Written (s : Segment) (code : List UInt8) : Prop where
  size : s.size.toInt = code.length
  stored : s.storage.toList.take code.length = code
  bounded : s.storage.size < 2 ^ 63

theorem Written.length_le {s : Segment} {code : List UInt8} (written : Written s code) :
    code.length ≤ s.storage.size := by
  have length := congrArg List.length written.stored
  simp only [List.length_take, Array.length_toList] at length
  omega

theorem Written.capacity {s : Segment} {code : List UInt8} (written : Written s code) :
    s.capacity.toInt = s.storage.size :=
  Int64.toInt_ofNat_of_lt written.bounded

theorem reserve_eq (finish : Int64) (s : Segment) :
    reserve finish s =
      if finish ≤ s.capacity then .ok () s
      else if s.holds 0 s.size ∧ s.canGrow finish.toInt.toNat then
        .ok () (s.grown finish.toInt.toNat)
      else .error .outOfBounds s := by
  by_cases room : finish ≤ s.capacity
  · simp [reserve, room]
  · cases inside : s.holds 0 s.size <;> cases able : s.canGrow finish.toInt.toNat <;>
      simp [reserve, room, inside, able, -Int64.toNat_toInt]

theorem store_eq (first last : Int64) (bytes : List UInt8) (s : Segment) :
    store first last bytes s =
      if s.holds first last then
        .ok () { s with storage := overwrite s.storage first.toInt.toNat bytes }
      else .error .outOfBounds s := by
  cases inside : s.holds first last <;> simp [store, inside]

theorem append_eq (bytes : List UInt8) (s : Segment) :
    append bytes s =
      match reserve (s.size + Int64.ofNat bytes.length) s with
      | .ok _ s' =>
        store s.size (s.size + Int64.ofNat bytes.length) bytes
          { s' with size := s.size + Int64.ofNat bytes.length }
      | .error e s' => .error e s' := by
  simp only [append, bind_apply, get_apply, modify_apply]
  cases reserve (s.size + Int64.ofNat bytes.length) s <;> rfl

/-- Replacing bytes of the storage replaces elements of its list. -/
theorem overwrite_toList (storage : Array UInt8) (position : Nat) (bytes : List UInt8)
    (inside : position + bytes.length ≤ storage.size) :
    (overwrite storage position bytes).toList =
      storage.toList.take position ++ bytes ++ storage.toList.drop (position + bytes.length) := by
  induction bytes generalizing storage position with
  | nil => simp [overwrite]
  | cons b rest ih =>
    have bound : position < storage.toList.length := by
      simp only [List.length_cons, Array.length_toList] at *
      omega
    rw [overwrite, ih _ _ (by simp only [List.length_cons, Array.size_setIfInBounds] at *; omega),
      Array.toList_setIfInBounds]
    have front : (storage.toList.take position).length = position := by
      rw [List.length_take, Nat.min_eq_left (Nat.le_of_lt bound)]
    rw [List.set_eq_take_append_cons_drop, if_pos bound]
    have taken : (storage.toList.take position ++ b :: storage.toList.drop (position + 1)).take
        (position + 1) = storage.toList.take position ++ [b] := by
      rw [List.take_append, front, List.take_of_length_le (by omega), Nat.add_sub_cancel_left]
      rfl
    have dropped : (storage.toList.take position ++ b :: storage.toList.drop (position + 1)).drop
        (position + 1 + rest.length) = storage.toList.drop (position + (rest.length + 1)) := by
      rw [List.drop_append, front, List.drop_eq_nil_of_le (by omega), List.nil_append,
        show position + 1 + rest.length - position = rest.length + 1 by omega, List.drop_succ_cons,
        List.drop_drop, Nat.add_assoc, Nat.add_comm 1]
    rw [taken, dropped]
    simp

theorem overwrite_size (storage : Array UInt8) (position : Nat) (bytes : List UInt8) :
    (overwrite storage position bytes).size = storage.size := by
  induction bytes generalizing storage position with
  | nil => rfl
  | cons b rest ih => rw [overwrite, ih, Array.size_setIfInBounds]

theorem holds_iff (s : Segment) (first last : Int64) :
    s.holds first last = true ↔
      0 ≤ first.toInt ∧ first.toInt ≤ last.toInt ∧ last.toInt ≤ s.capacity.toInt := by
  simp only [holds, Bool.and_eq_true, decide_eq_true_eq, Int64.le_iff_toInt_le]
  exact ⟨fun h => ⟨h.1.1, h.1.2, h.2⟩, fun h => ⟨⟨h.1, h.2.1⟩, h.2.2⟩⟩

/-- New code that fits the storage is put after the code that is there. -/
theorem store_written {s : Segment} {code new : List UInt8} {finish : Int64}
    (written : Written s code) (total : finish.toInt = code.length + new.length)
    (room : code.length + new.length ≤ s.storage.size) :
    ∃ s', store s.size finish new { s with size := finish } = .ok () s' ∧
      Written s' (code ++ new) ∧ s'.order = s.order ∧ s'.storage.size = s.storage.size := by
  have capacity := written.capacity
  have inside : Segment.holds { s with size := finish } s.size finish = true :=
    (holds_iff _ _ _).mpr ⟨by have := written.size; omega, by have := written.size; omega, by
      show _ ≤ s.capacity.toInt
      omega⟩
  refine ⟨_, (store_eq _ _ _ _).trans (if_pos inside), ⟨?_, ?_, ?_⟩, rfl, overwrite_size _ _ _⟩
  · simpa using total
  · have position : s.size.toInt.toNat = code.length := by rw [written.size]; rfl
    show (overwrite s.storage s.size.toInt.toNat new).toList.take _ = _
    rw [position, overwrite_toList _ _ _ room, written.stored, List.take_left' rfl]
  · show (overwrite s.storage s.size.toInt.toNat new).size < _
    rw [overwrite_size]
    exact written.bounded

/-- Growing keeps the code. -/
theorem grown_written {s : Segment} {code : List UInt8} (written : Written s code) (want : Nat)
    (above : code.length ≤ want) (room : grownCapacity s.storage.size want < 2 ^ 63) :
    Written (s.grown want) code ∧
      (s.grown want).storage.size = grownCapacity s.storage.size want := by
  have enough := le_grownCapacity s.storage.size want
  have kept := written.length_le
  have position : s.size.toInt.toNat = code.length := by rw [written.size]; rfl
  have size : (s.grown want).storage.size = grownCapacity s.storage.size want := by
    simp only [grown, position, Array.size_append, Array.size_extract, Array.size_replicate]
    omega
  refine ⟨⟨written.size, ?_, by omega⟩, size⟩
  simp only [grown, position, Array.toList_append, Array.toList_extract, List.extract_eq_take_drop]
  rw [List.drop_zero, Nat.sub_zero, written.stored, List.take_left' rfl]

/-- Appending extends the code, and the storage where it has to grow. -/
theorem append_written {s : Segment} {code : List UInt8} (written : Written s code)
    (new : List UInt8)
    (room : grownCapacity s.storage.size (code.length + new.length) < 2 ^ 63) :
    ∃ s', append new s = .ok () s' ∧ Written s' (code ++ new) ∧ s'.order = s.order ∧
      s'.storage.size = if code.length + new.length ≤ s.storage.size then s.storage.size
        else grownCapacity s.storage.size (code.length + new.length) := by
  have enough := le_grownCapacity s.storage.size (code.length + new.length)
  have added : (Int64.ofNat new.length).toInt = new.length := Int64.toInt_ofNat_of_lt (by omega)
  have start := written.size
  have capacity := written.capacity
  have total : (s.size + Int64.ofNat new.length).toInt = code.length + new.length := by
    rw [toInt_add_of_range] <;> omega
  rw [append_eq, reserve_eq]
  by_cases fits : code.length + new.length ≤ s.storage.size
  · have within : s.size + Int64.ofNat new.length ≤ s.capacity :=
      Int64.le_iff_toInt_le.mpr (by omega)
    rw [if_pos within, if_pos fits]
    exact store_written written total fits
  · have past : ¬ s.size + Int64.ofNat new.length ≤ s.capacity := by
      rw [Int64.le_iff_toInt_le]
      omega
    have inside : s.holds 0 s.size = true :=
      (holds_iff _ _ _).mpr ⟨Int.le_refl 0, by show 0 ≤ _; omega, by have := written.length_le; omega⟩
    have want : (s.size + Int64.ofNat new.length).toInt.toNat = code.length + new.length := by
      omega
    have able : s.canGrow (code.length + new.length) = true := decide_eq_true room
    obtain ⟨kept, size⟩ := grown_written written (code.length + new.length) (by omega) room
    rw [if_neg past, want, if_pos ⟨inside, able⟩, if_neg fits, ← size]
    exact store_written kept total (by omega)

theorem room_of_le {s : Segment} {n : Nat} (bounded : s.storage.size < 2 ^ 63)
    (fits : n ≤ s.storage.size) : Room s n := by
  rw [Room, grownCapacity, doubled, if_neg (by split <;> omega)]
  split
  · decide
  · exact bounded

/-- Code that there is no room for is refused, and nothing changes. -/
theorem append_refused {s : Segment} {code new : List UInt8} (written : Written s code)
    (short : code.length + new.length < 2 ^ 63) (full : ¬ Room s (code.length + new.length)) :
    append new s = .error .outOfBounds s := by
  have start := written.size
  have capacity := written.capacity
  have past : s.storage.size < code.length + new.length := by
    apply Nat.lt_of_not_le
    intro fits
    exact full (room_of_le written.bounded fits)
  have added : (Int64.ofNat new.length).toInt = new.length := Int64.toInt_ofNat_of_lt (by omega)
  have total : (s.size + Int64.ofNat new.length).toInt = code.length + new.length := by
    rw [toInt_add_of_range] <;> omega
  have beyond : ¬ s.size + Int64.ofNat new.length ≤ s.capacity := by
    rw [Int64.le_iff_toInt_le]
    omega
  have want : (s.size + Int64.ofNat new.length).toInt.toNat = code.length + new.length := by omega
  have unable : ¬ (s.holds 0 s.size ∧ s.canGrow (code.length + new.length)) := by
    rintro ⟨-, able⟩
    have fits : grownCapacity s.storage.size (code.length + new.length) < 2 ^ 63 :=
      of_decide_eq_true able
    exact full fits
  rw [append_eq, reserve_eq, if_neg beyond, want, if_neg unable]

/-- Code that would need more than the largest storage is refused, and nothing changes. -/
theorem append_full {s : Segment} {code : List UInt8} (written : Written s code)
    (new : List UInt8) (doubling : Doubling s.storage.size)
    (small : s.storage.size ≤ largest)
    (past : largest < code.length + new.length) (near : code.length + new.length < 2 * largest) :
    append new s = .error .outOfBounds s := by
  have grown := grownCapacity_eq doubling small past (Nat.le_of_lt near)
  simp only [largest] at *
  apply append_refused written (by omega)
  rw [Room, grown]
  omega

theorem append_sturdy {s : Segment} {code new : List UInt8} (written : Written s code)
    (sturdy : Sturdy s.storage.size) (room : Room s (code.length + new.length)) :
    ∃ s', append new s = .ok () s' ∧ Written s' (code ++ new) ∧ s'.order = s.order ∧
      Sturdy s'.storage.size := by
  obtain ⟨s', appended, written', order, size⟩ := append_written written new room
  refine ⟨s', appended, written', order, ?_⟩
  rw [size]
  split
  · exact sturdy
  · exact sturdy.grown _

/-- Where there is no room, nothing is appended, and the code would have become long. -/
theorem room_or_refused {s : Segment} {code new : List UInt8} (written : Written s code)
    (short : code.length + new.length < 2 ^ 63) :
    Room s (code.length + new.length) ∨ append new s = .error .outOfBounds s ∧
      0 < new.length ∧ 2 ^ 62 < code.length + new.length := by
  by_cases room : Room s (code.length + new.length)
  · exact .inl room
  refine .inr ⟨append_refused written short room, ?_, ?_⟩ <;> apply Nat.lt_of_not_le
  · intro none
    have kept := written.length_le
    exact room (room_of_le written.bounded (by omega))
  · intro half
    exact room (grownCapacity_lt written.bounded half)

/-- A word is appended, or nothing changes because there is no room for it. -/
theorem append_cases {s : Segment} {code new : List UInt8} (written : Written s code)
    (sturdy : Sturdy s.storage.size) (four : new.length = 4) :
    (∃ s', append new s = .ok () s' ∧ Written s' (code ++ new) ∧ s'.order = s.order ∧
        Sturdy s'.storage.size) ∨
      append new s = .error .outOfBounds s ∧ 2 ^ 62 < code.length + 4 := by
  have kept := written.length_le
  have clear := sturdy.clear written.bounded
  have short : code.length + new.length < 2 ^ 63 := by omega
  rcases room_or_refused written short with room | ⟨refused, -, large⟩
  · exact .inl (append_sturdy written sturdy room)
  · exact .inr ⟨refused, by omega⟩

/-- A segment whose size lies in its storage has that much of the storage written. -/
theorem exists_written {s : Segment} (above : 0 ≤ s.size.toInt)
    (below : s.size.toInt ≤ s.storage.size) (bounded : s.storage.size < 2 ^ 63) :
    ∃ bytes, Written s bytes := by
  have length : (s.storage.toList.take s.size.toInt.toNat).length = s.size.toInt.toNat := by
    rw [List.length_take, Array.length_toList]
    omega
  refine ⟨s.storage.toList.take s.size.toInt.toNat, ?_, ?_, bounded⟩
  · rw [length]
    omega
  · rw [length]

/-- Bytes are appended only where the written part lies in the storage. -/
theorem written_of_append {s s' : Segment} {new : List UInt8} {u : Unit}
    (bounded : s.storage.size < 2 ^ 63) (ran : append new s = .ok u s') :
    ∃ bytes, Written s bytes := by
  have capacity : s.capacity.toInt = s.storage.size := Int64.toInt_ofNat_of_lt bounded
  have inside : 0 ≤ s.size.toInt ∧ s.size.toInt ≤ s.storage.size := by
    rw [append_eq, reserve_eq] at ran
    by_cases fits : s.size + Int64.ofNat new.length ≤ s.capacity
    · simp only [if_pos fits, store_eq] at ran
      split at ran
      · rename_i held
        obtain ⟨above, ordered, below⟩ := (holds_iff _ _ _).mp held
        have below : _ ≤ s.capacity.toInt := below
        omega
      · cases ran
    · by_cases able : s.holds 0 s.size ∧ s.canGrow (s.size + Int64.ofNat new.length).toInt.toNat
      · obtain ⟨-, above, below⟩ := (holds_iff _ _ _).mp able.1
        have zero : (0 : Int64).toInt = 0 := rfl
        omega
      · rw [if_neg fits, if_neg able] at ran
        cases ran
  exact exists_written inside.1 inside.2 bounded

/-- Bytes are appended only where there is room for them. -/
theorem room_of_append {s s' : Segment} {code new : List UInt8} {u : Unit}
    (written : Written s code) (short : new.length < 2 ^ 63) (ran : append new s = .ok u s') :
    Room s (code.length + new.length) := by
  have bounded := written.bounded
  have kept := written.length_le
  have size := written.size
  have capacity := written.capacity
  have added : (Int64.ofNat new.length).toInt = new.length := Int64.toInt_ofNat_of_lt short
  have sum := Int64.toInt_add s.size (Int64.ofNat new.length)
  rw [append_eq, reserve_eq] at ran
  by_cases fits : code.length + new.length ≤ s.storage.size
  · exact room_of_le bounded fits
  · by_cases wraps : code.length + new.length < 2 ^ 63
    · rw [Int.bmod_eq_of_le (by omega) (by omega)] at sum
      have past : ¬ s.size + Int64.ofNat new.length ≤ s.capacity := by
        rw [Int64.le_iff_toInt_le]
        omega
      have want : (s.size + Int64.ofNat new.length).toInt.toNat = code.length + new.length := by
        omega
      by_cases able : s.holds 0 s.size ∧ s.canGrow (code.length + new.length)
      · have grows : grownCapacity s.storage.size (code.length + new.length) < 2 ^ 63 :=
          of_decide_eq_true able.2
        exact grows
      · rw [if_neg past, want, if_neg able] at ran
        cases ran
    · -- The end would be negative, and nothing is stored up to there.
      have negative : (s.size + Int64.ofNat new.length).toInt < 0 := by
        rw [sum, size, added, Int.bmod_def]
        omega
      have within : s.size + Int64.ofNat new.length ≤ s.capacity := by
        rw [Int64.le_iff_toInt_le]
        omega
      have outside : ¬ Segment.holds { s with size := s.size + Int64.ofNat new.length } s.size
          (s.size + Int64.ofNat new.length) = true := by
        rw [holds_iff]
        omega
      simp only [if_pos within, store_eq, if_neg outside] at ran
      cases ran

/-- A part of the code is read from the storage. -/
theorem slice_written {s : Segment} {code : List UInt8} (written : Written s code)
    {first last : Int64} (above : 0 ≤ first.toInt) (ordered : first.toInt ≤ last.toInt)
    (below : last.toInt ≤ code.length) :
    s.slice first last = .ok ((code.take last.toInt.toNat).drop first.toInt.toNat) := by
  have capacity := written.capacity
  have kept := written.length_le
  have inside : s.holds first last = true := (holds_iff _ _ _).mpr ⟨above, ordered, by omega⟩
  have prefixed : s.storage.toList.take last.toInt.toNat = code.take last.toInt.toNat := by
    rw [← written.stored, List.take_take, Nat.min_eq_left (by omega)]
  rw [slice, if_pos inside, Array.toList_extract, List.extract_eq_take_drop, List.take_drop,
    Nat.add_sub_cancel' (by omega), prefixed]

theorem bytes_of_written {s : Segment} {code : List UInt8} (written : Written s code) :
    s.bytes = .ok code := by
  have size := written.size
  have zero : (0 : Int64).toInt = 0 := rfl
  rw [Segment.bytes, slice_written written (by omega) (by omega) (by omega), size, zero,
    Int.toNat_natCast, List.take_length, Int.toNat_zero, List.drop_zero]

/-- Bytes inside the code are replaced. -/
theorem replace_written {s : Segment} {code : List UInt8} (written : Written s code)
    (new : List UInt8) {first last : Int64} (above : 0 ≤ first.toInt)
    (total : last.toInt = first.toInt + new.length) (below : last.toInt ≤ code.length) :
    ∃ s', store first last new s = .ok () s' ∧
      Written s' (code.take first.toInt.toNat ++ new ++ code.drop (first.toInt.toNat + new.length)) ∧
      s'.order = s.order ∧ s'.storage.size = s.storage.size := by
  have capacity := written.capacity
  have kept := written.length_le
  have inside : s.holds first last = true := (holds_iff _ _ _).mpr ⟨above, by omega, by omega⟩
  have length : (code.take first.toInt.toNat ++ new ++
      code.drop (first.toInt.toNat + new.length)).length = code.length := by
    simp only [List.length_append, List.length_take, List.length_drop]
    omega
  have stored : (overwrite s.storage first.toInt.toNat new).toList =
      (code.take first.toInt.toNat ++ new ++ code.drop (first.toInt.toNat + new.length)) ++
        s.storage.toList.drop code.length := by
    have whole := (List.take_append_drop code.length s.storage.toList).symm
    rw [written.stored] at whole
    rw [overwrite_toList _ _ _ (by omega), whole, List.take_append_of_le_length (by omega),
      List.drop_append_of_le_length (by omega), List.append_assoc, List.append_assoc]
    simp
  refine ⟨{ s with storage := overwrite s.storage first.toInt.toNat new },
    by rw [store_eq, if_pos inside], ⟨?_, ?_, ?_⟩, rfl, overwrite_size _ _ _⟩
  · show s.size.toInt = _
    rw [length, written.size]
  · show (overwrite s.storage first.toInt.toNat new).toList.take _ = _
    rw [stored, List.take_left' rfl]
  · rw [overwrite_size]
    exact written.bounded

/-! ### Words in memory -/

theorem length_bytes (order : ByteOrder) (w : Word) : (order.bytes w).length = 4 := by
  cases order <;> rfl

theorem length_code (order : ByteOrder) (ws : List Word) :
    (ws.flatMap order.bytes).length = 4 * ws.length := by
  induction ws with
  | nil => rfl
  | cons w ws ih =>
    rw [List.flatMap_cons, List.length_append, length_bytes, ih, List.length_cons]
    omega

private theorem byte_toBitVec (w : Word) (low : Nat) :
    (UInt8.ofNat (w.extractLsb' low 8).toNat).toBitVec = w.extractLsb' low 8 := by
  apply BitVec.eq_of_toNat_eq
  simp

private theorem join_bytes (w : Word) :
    w.extractLsb' 24 8 ++ w.extractLsb' 16 8 ++ w.extractLsb' 8 8 ++ w.extractLsb' 0 8 = w := by
  apply BitVec.eq_of_getLsbD_eq
  intro i inside
  simp only [BitVec.getLsbD_append, BitVec.getLsbD_extractLsb']
  grind

/-- The four bytes of a word hold that word. -/
theorem bytes_eq (order : ByteOrder) (w : Word) :
    ∃ b0 b1 b2 b3, order.bytes w = [b0, b1, b2, b3] ∧ order.word b0 b1 b2 b3 = w := by
  cases order with
  | big => exact ⟨_, _, _, _, rfl, by simp only [ByteOrder.word, byte_toBitVec, join_bytes]⟩
  | little => exact ⟨_, _, _, _, rfl, by simp only [ByteOrder.word, byte_toBitVec, join_bytes]⟩

/-- The words of code are found in its bytes. -/
theorem code_at (order : ByteOrder) (ws : List Word) (i : Nat) (inside : i < ws.length) :
    ((ws.flatMap order.bytes).drop (4 * i)).take 4 = order.bytes ws[i] := by
  induction ws generalizing i with
  | nil => simp at inside
  | cons w ws ih =>
    have length := length_bytes order w
    cases i with
    | zero =>
      rw [List.flatMap_cons, Nat.mul_zero, List.drop_zero, List.take_left' length]
      rfl
    | succ i =>
      rw [List.flatMap_cons, List.drop_append, length,
        List.drop_eq_nil_of_le (by rw [length]; omega), List.nil_append,
        show 4 * (i + 1) - 4 = 4 * i by omega]
      exact ih i (by simpa using inside)

/-- Replacing a word of code replaces its bytes. -/
theorem code_set (order : ByteOrder) (ws : List Word) (i : Nat) (w : Word)
    (inside : i < ws.length) :
    (ws.flatMap order.bytes).take (4 * i) ++ order.bytes w ++
      (ws.flatMap order.bytes).drop (4 * i + 4) = (ws.set i w).flatMap order.bytes := by
  induction ws generalizing i with
  | nil => simp at inside
  | cons first ws ih =>
    have length := length_bytes order first
    cases i with
    | zero =>
      rw [List.flatMap_cons, List.set_cons_zero, List.flatMap_cons, Nat.mul_zero, List.take_zero,
        Nat.zero_add, List.drop_left' length, List.nil_append]
    | succ i =>
      rw [List.flatMap_cons, List.set_cons_succ, List.flatMap_cons, ← ih i (by simpa using inside),
        List.take_append, List.drop_append, length, List.take_of_length_le (by rw [length]; omega),
        List.drop_eq_nil_of_le (by rw [length]; omega), List.nil_append,
        show 4 * (i + 1) - 4 = 4 * i by omega, show 4 * (i + 1) + 4 - 4 = 4 * i + 4 by omega,
        List.append_assoc, List.append_assoc, List.append_assoc]

theorem length_append_code (bytes : List UInt8) (order : ByteOrder) (ws : List Word) :
    (bytes ++ ws.flatMap order.bytes).length = bytes.length + 4 * ws.length := by
  rw [List.length_append, length_code]

section Words
variable {s : Segment} {b : Buffer} {bytes : List UInt8} {offset : Int64}

/-- What is asked of an offset at which a word is read or replaced. -/
theorem checkWord_eq_ok_iff : b.checkWord s offset = .ok () ↔
    0 ≤ offset.toInt ∧ offset.toInt % 4 = 0 ∧ (offset + 4).toInt ≤ (b.length s).toInt := by
  have zero : (0 : Int64).toInt = 0 := rfl
  have four : (4 : Int64).toInt = 4 := rfl
  have accepted : b.checkWord s offset = .ok () ↔
      ¬ (offset < 0 ∨ offset % 4 ≠ 0 ∨ b.length s < offset + 4) := by
    unfold Buffer.checkWord
    split <;> simp_all
  rw [accepted, not_or, not_or, not_not, Int64.lt_iff_toInt_lt, Int64.lt_iff_toInt_lt, zero,
    Int.not_lt, Int.not_lt]
  refine and_congr_right fun above => and_congr_left fun _ => ?_
  rw [← Int64.toInt_inj, Int64.toInt_mod, four, zero, Int.tmod_eq_emod_of_nonneg above]

theorem checkWord_ok_or_error (b : Buffer) (s : Segment) (offset : Int64) :
    b.checkWord s offset = .ok () ∨
      b.checkWord s offset = .error (.defect (.wordOffset offset (b.length s))) := by
  unfold Buffer.checkWord
  split
  · exact .inr rfl
  · exact .inl rfl

/-- Behind the last offset there is nothing. -/
theorem not_holds_last (s : Segment) (above : 0 ≤ b.start.toInt)
    (last : offset.toInt = 2 ^ 63 - 4) :
    s.holds (b.start + offset) (b.start + offset + 4) = false := by
  have four : (4 : Int64).toInt = 4 := rfl
  have small := Int64.toInt_lt b.start
  have first := Int64.toInt_add b.start offset
  have second := Int64.toInt_add (b.start + offset) 4
  rw [Int.bmod_def] at first second
  rw [Bool.eq_false_iff, ne_eq, holds_iff]
  omega

/-- Where a word is read, all of it is in the buffer. -/
theorem wordAt_ok (above : 0 ≤ b.start.toInt) {w : Word} (read : b.wordAt s offset = .ok w) :
    0 ≤ offset.toInt ∧ offset.toInt % 4 = 0 ∧ offset.toInt + 4 ≤ (b.length s).toInt := by
  have checked : b.checkWord s offset = .ok () := by
    refine (checkWord_ok_or_error b s offset).resolve_right fun refused => ?_
    rw [Buffer.wordAt, refused] at read
    cases read
  obtain ⟨first, aligned, below⟩ := checkWord_eq_ok_iff.mp checked
  -- The check alone does not see that the end of the word may have wrapped around.
  have inner : offset.toInt ≠ 2 ^ 63 - 4 := by
    intro last
    rw [Buffer.wordAt, checked, Segment.slice, not_holds_last s above last] at read
    cases read
  have four : (4 : Int64).toInt = 4 := rfl
  have bound := Int64.toInt_lt offset
  have next : (offset + 4).toInt = offset.toInt + 4 := by
    rw [toInt_add_of_range] <;> omega
  exact ⟨first, aligned, by omega⟩

theorem putWordAt_eq (b : Buffer) (offset : Int64) (w : Word) (s : Segment) :
    b.putWordAt offset w s = match b.checkWord s offset with
      | .ok _ => store (b.start + offset) (b.start + offset + 4) (s.order.bytes w) s
      | .error fault => .error fault s := by
  cases checked : b.checkWord s offset with
  | ok u => simp only [Buffer.putWordAt, bind_apply, get_apply, checked, ofExcept_ok]
  | error fault => simp only [Buffer.putWordAt, bind_apply, get_apply, checked, ofExcept_error]

section Place
variable {n : Nat} (written : Written s bytes) (checked : b.checkWord s offset = .ok ())
  (here : (b.start + offset).toInt = n)
include written checked here

omit checked in
theorem toInt_behind (below : n + 4 ≤ bytes.length) :
    (b.start + offset + 4).toInt = (n + 4 : Nat) := by
  have kept := written.length_le
  have small := written.bounded
  have four : (4 : Int64).toInt = 4 := rfl
  rw [toInt_add_of_range] <;> omega

/-- The four bytes from some place on are read as a word. -/
theorem wordAt_written {b0 b1 b2 b3 : UInt8} (held : (bytes.drop n).take 4 = [b0, b1, b2, b3]) :
    b.wordAt s offset = .ok (s.order.word b0 b1 b2 b3) := by
  have below : n + 4 ≤ bytes.length := by
    have length := congrArg List.length held
    simp only [List.length_take, List.length_drop, List.length_cons, List.length_nil] at length
    omega
  have next := toInt_behind written here below
  have above : 0 ≤ (b.start + offset).toInt := by omega
  have ordered : (b.start + offset).toInt ≤ (b.start + offset + 4).toInt := by omega
  have read := slice_written written above ordered (by omega)
  rw [here, next, Int.toNat_natCast, Int.toNat_natCast, List.drop_take, Nat.add_sub_cancel_left,
    held] at read
  rw [Buffer.wordAt, checked, read]
  rfl

/-- They are replaced by those of another word. -/
theorem putWordAt_written (below : n + 4 ≤ bytes.length) (w : Word) :
    ∃ s', b.putWordAt offset w s = .ok () s' ∧
      Written s' (bytes.take n ++ s.order.bytes w ++ bytes.drop (n + 4)) ∧
      s'.order = s.order ∧ s'.storage.size = s.storage.size := by
  have four := length_bytes s.order w
  have next := toInt_behind written here below
  have above : 0 ≤ (b.start + offset).toInt := by omega
  have total : (b.start + offset + 4).toInt =
      (b.start + offset).toInt + (s.order.bytes w).length := by
    omega
  obtain ⟨s', stored, written', kept⟩ :=
    replace_written written (s.order.bytes w) above total (by omega)
  rw [here, Int.toNat_natCast, four] at written'
  refine ⟨s', ?_, written', kept⟩
  rw [putWordAt_eq, checked]
  exact stored

end Place

section Behind
variable {ws : List Word} {i : Nat} (written : Written s (bytes ++ ws.flatMap s.order.bytes))
  (checked : b.checkWord s offset = .ok ()) (inside : i < ws.length)
  (here : (b.start + offset).toInt = (bytes.length + 4 * i : Nat))
include written checked here

/-- A word is read from code behind some bytes. -/
theorem wordAt_behind : b.wordAt s offset = .ok ws[i] := by
  obtain ⟨b0, b1, b2, b3, four, word⟩ := bytes_eq s.order ws[i]
  rw [← word]
  refine wordAt_written written checked here ?_
  rw [← List.drop_drop, List.drop_left, code_at _ _ _ inside, four]

include inside in
/-- A word is replaced in code behind some bytes. -/
theorem putWordAt_behind (w : Word) :
    ∃ s', b.putWordAt offset w s = .ok () s' ∧
      Written s' (bytes ++ (ws.set i w).flatMap s.order.bytes) ∧
      s'.order = s.order ∧ s'.storage.size = s.storage.size := by
  have length := length_append_code bytes s.order ws
  obtain ⟨s', stored, written', kept⟩ :=
    putWordAt_written written checked here (by omega) w
  rw [List.take_length_add_append, Nat.add_assoc, List.drop_length_add_append, List.append_assoc,
    List.append_assoc, ← List.append_assoc _ _ (List.drop _ _), code_set _ _ _ _ inside] at written'
  exact ⟨s', stored, written', kept⟩

end Behind

end Words

/-! ### The code of an assembler -/

/-- An assembler that alone owns its segment has written these words. -/
structure Code (a : Assembly) (ws : List Word) : Prop where
  start : a.assembler.buffer.start = 0
  written : Written a.segment (ws.flatMap a.segment.order.bytes)
  doubling : Doubling a.segment.storage.size
  small : a.segment.storage.size ≤ largest

theorem fresh_code (target : Target) (order : ByteOrder) : Code (.fresh target order) [] where
  start := rfl
  written := ⟨rfl, rfl, by show 0 < 2 ^ 63; decide⟩
  doubling := .inl rfl
  small := Nat.zero_le _

/-- There is room for as much code as the largest storage holds. -/
theorem fresh_room (target : Target) (order : ByteOrder) {n : Nat} (small : n ≤ largest) :
    Room (Assembly.fresh target order).segment n :=
  Nat.lt_of_le_of_lt (grownCapacity_le (.inl rfl) (Nat.zero_le _) small) (by decide)

theorem Code.length_le {a : Assembly} {ws : List Word} (code : Code a ws) :
    4 * ws.length ≤ largest := by
  have kept := code.written.length_le
  rw [length_code] at kept
  exact Nat.le_trans kept code.small

theorem Code.size {a : Assembly} {ws : List Word} (code : Code a ws) :
    a.segment.size.toInt = 4 * ws.length := by
  have size := code.written.size
  rw [length_code] at size
  omega

/-- The offset of the next word. -/
theorem Code.length {a : Assembly} {ws : List Word} (code : Code a ws) :
    a.assembler.buffer.length a.segment = Int64.ofNat (4 * ws.length) := by
  have bound := code.length_le
  simp only [largest] at bound
  rw [Buffer.length, code.start, Int64.sub_zero]
  apply Int64.toInt_inj.mp
  rw [code.size, Int64.toInt_ofNat_of_lt (by omega)]
  omega

/-- The code is read from the buffer. -/
theorem Code.bytes {a : Assembly} {ws : List Word} (code : Code a ws) :
    a.assembler.buffer.bytes a.segment = .ok (ws.flatMap a.segment.order.bytes) := by
  have size := code.written.size
  have zero : (0 : Int64).toInt = 0 := rfl
  rw [Buffer.bytes, code.start, slice_written code.written (by omega) (by omega) (by omega), size,
    zero, Int.toNat_natCast, List.take_length, Int.toNat_zero, List.drop_zero]

theorem onSegment_apply {α : Type} (action : SegmentM α) (a : Assembly) :
    Asm.onSegment action a =
      match action a.segment with
      | .ok value segment => .ok value ⟨segment, a.assembler⟩
      | .error fault segment => .error fault ⟨segment, a.assembler⟩ := (rfl)

theorem assembler_apply (a : Assembly) : Asm.assembler a = .ok a.assembler a := (rfl)

theorem modifyAssembler_apply (f : Assembler → Assembler) (a : Assembly) :
    Asm.modifyAssembler f a = .ok () ⟨a.segment, f a.assembler⟩ := (rfl)

theorem offset_apply (a : Assembly) :
    Asm.offset a = .ok (a.assembler.buffer.length a.segment) a := (rfl)

/-- The assembler with this segment, and with one event more in its log. -/
def logged (a : Assembly) (s : Segment) (event : Event) : Assembly :=
  ⟨s, { a.assembler with log := a.assembler.log.push event }⟩

theorem record_apply (event : Event) (a : Assembly) :
    Asm.record event a =
      .ok () (logged a a.segment event) := (rfl)

theorem emit_eq (w : Word) (a : Assembly) :
    Asm.emit w a =
      match append (a.segment.order.bytes w) a.segment with
      | .ok _ segment =>
        .ok () (logged a segment (.emitted (a.assembler.buffer.length a.segment) w))
      | .error e segment => .error e ⟨segment, a.assembler⟩ := by
  simp only [Asm.emit, appendWord, bind_apply, get_apply, offset_apply, onSegment_apply]
  cases append (a.segment.order.bytes w) a.segment with
  | ok u segment => exact record_apply _ _
  | error e segment => rfl

/-- A word is written, or nothing changes because there is no room for it. -/
theorem emit_cases {a : Assembly} {bytes : List UInt8} (written : Written a.segment bytes)
    (sturdy : Sturdy a.segment.storage.size) (w : Word) :
    (∃ s, Asm.emit w a =
          .ok () (logged a s (.emitted (a.assembler.buffer.length a.segment) w)) ∧
        Written s (bytes ++ a.segment.order.bytes w) ∧ s.order = a.segment.order ∧
        Sturdy s.storage.size) ∨
      Asm.emit w a = .error .outOfBounds a ∧ 2 ^ 62 < bytes.length + 4 := by
  have emitted := emit_eq w a
  rcases append_cases written sturdy (length_bytes a.segment.order w) with
    ⟨s, appended, kept⟩ | ⟨refused, full⟩
  · rw [appended] at emitted
    exact .inl ⟨s, emitted, kept⟩
  · rw [refused] at emitted
    exact .inr ⟨emitted, full⟩

/-- A word is written by appending its bytes. -/
theorem append_of_emit {a b : Assembly} {w : Word} {u : Unit} (ran : Asm.emit w a = .ok u b) :
    ∃ s, append (a.segment.order.bytes w) a.segment = .ok () s := by
  rw [emit_eq] at ran
  split at ran
  · exact ⟨_, ‹_›⟩
  · cases ran

/-- The offset of a word of the code. -/
theorem Code.offset_toInt {a : Assembly} {ws : List Word} (code : Code a ws) {i : Nat}
    (inside : i ≤ ws.length) : (Int64.ofNat (4 * i)).toInt = 4 * i := by
  have bound := code.length_le
  simp only [largest] at bound
  rw [Int64.toInt_ofNat_of_lt (by omega)]
  omega

section Code
variable {a : Assembly} {ws : List Word} (code : Code a ws) {i : Nat} (inside : i < ws.length)
include code inside

/-- There is a word at every offset of the code. -/
theorem Code.checkWord :
    a.assembler.buffer.checkWord a.segment (Int64.ofNat (4 * i)) = .ok () := by
  have bound := code.length_le
  have here := code.offset_toInt (Nat.le_of_lt inside)
  have length := code.offset_toInt (Nat.le_refl _)
  have four : (4 : Int64).toInt = 4 := rfl
  simp only [largest] at bound
  have next : (Int64.ofNat (4 * i) + 4).toInt = 4 * i + 4 := by
    rw [toInt_add_of_range] <;> omega
  rw [checkWord_eq_ok_iff, code.length]
  omega

theorem Code.start_add : (a.assembler.buffer.start + Int64.ofNat (4 * i)).toInt =
    (([] : List UInt8).length + 4 * i : Nat) := by
  rw [code.start, Int64.zero_add, code.offset_toInt (Nat.le_of_lt inside), List.length_nil]
  omega

/-- A word of the code is read back. -/
theorem Code.wordAt : a.assembler.buffer.wordAt a.segment (Int64.ofNat (4 * i)) = .ok ws[i] := by
  have written : Written a.segment ([] ++ ws.flatMap a.segment.order.bytes) := code.written
  exact wordAt_behind written (code.checkWord inside) inside (code.start_add inside)

/-- A word of the code is replaced. -/
theorem Code.putWordAt (w : Word) :
    ∃ s, a.assembler.buffer.putWordAt (Int64.ofNat (4 * i)) w a.segment = .ok () s ∧
      Code ⟨s, a.assembler⟩ (ws.set i w) ∧ s.order = a.segment.order := by
  have before : Written a.segment ([] ++ ws.flatMap a.segment.order.bytes) := code.written
  obtain ⟨s, stored, written, order, size⟩ :=
    putWordAt_behind before (code.checkWord inside) inside (code.start_add inside) w
  refine ⟨s, stored, ⟨code.start, ?_, ?_, ?_⟩, order⟩
  · rw [order]
    exact written
  · rw [size]
    exact code.doubling
  · rw [size]
    exact code.small

end Code

/-- A word is written at the end of whatever the segment holds. -/
theorem emit_written {a : Assembly} {bytes : List UInt8} (written : Written a.segment bytes)
    (w : Word) (room : Room a.segment (bytes.length + 4)) :
    ∃ a' log, Asm.emit w a = .ok () a' ∧
      Written a'.segment (bytes ++ a.segment.order.bytes w) ∧
      a'.segment.order = a.segment.order ∧ a'.assembler = { a.assembler with log } ∧
      ∀ n, bytes.length + 4 ≤ n → Room a.segment n → Room a'.segment n := by
  have four := length_bytes a.segment.order w
  obtain ⟨segment, appended, stored, order, size⟩ := append_written written
    (a.segment.order.bytes w) (by rw [four]; exact room)
  have emitted := emit_eq w a
  rw [appended] at emitted
  refine ⟨_, _, emitted, stored, order, rfl, fun n later more => ?_⟩
  show grownCapacity segment.storage.size n < 2 ^ 63
  rw [four] at size
  rw [size]
  split
  · exact more
  · rw [grownCapacity_grownCapacity _ later]
    exact more

/-- A word is written after the others as long as there is storage for it. -/
theorem emit_code {a : Assembly} {ws : List Word} (code : Code a ws) (w : Word)
    (room : 4 * (ws.length + 1) ≤ largest) :
    ∃ a', Asm.emit w a = .ok () a' ∧ Code a' (ws ++ [w]) ∧ a'.segment.order = a.segment.order ∧
      a'.assembler = { a.assembler with
        log := a.assembler.log.push (.emitted (Int64.ofNat (4 * ws.length)) w) } := by
  have total : (ws.flatMap a.segment.order.bytes).length + (a.segment.order.bytes w).length =
      4 * (ws.length + 1) := by
    rw [length_code, length_bytes]
    omega
  have grown := grownCapacity_le code.doubling code.small room
  obtain ⟨segment, appended, written, order, size⟩ := append_written code.written
    (a.segment.order.bytes w) (by rw [total]; simp only [largest] at grown; omega)
  rw [total] at size
  have emitted := emit_eq w a
  rw [appended, code.length] at emitted
  refine ⟨_, emitted, ⟨code.start, ?_, ?_, ?_⟩, order, rfl⟩
  · simpa [logged, order] using written
  · show Doubling segment.storage.size
    rw [size]
    split
    · exact code.doubling
    · exact doubling_grown _ _ code.doubling
  · show segment.storage.size ≤ largest
    rw [size]
    split
    · exact code.small
    · exact grown

/-- Without storage it is refused, and nothing changes. -/
theorem emit_full {a : Assembly} {ws : List Word} (code : Code a ws) (w : Word)
    (full : largest < 4 * (ws.length + 1)) : Asm.emit w a = .error .outOfBounds a := by
  have total : (ws.flatMap a.segment.order.bytes).length + (a.segment.order.bytes w).length =
      4 * (ws.length + 1) := by
    rw [length_code, length_bytes]
    omega
  have bound := code.length_le
  have refused := append_full code.written (a.segment.order.bytes w)
    code.doubling code.small (by omega) (by simp only [largest] at *; omega)
  rw [emit_eq, refused]

end PowerAsm.Proofs.Storage
