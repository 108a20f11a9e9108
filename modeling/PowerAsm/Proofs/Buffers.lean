import PowerAsm.Proofs.SharedSegments

/-! Buffers as views of one list of bytes. However a segment is used through its buffers, its
written part is what the same requests make of a plain list: bytes left over in the storage do not
show, and none is lost when the storage grows. A word is found where the list has four bytes for
it, and nowhere else. -/
namespace PowerAsm.Proofs.Buffers
open Segment Storage Integers Operations SharedSegments

/-- What is asked of a segment, or of a buffer in it. -/
inductive Request where
  | next
  | append (w : Word)
  | put (b : Buffer) (offset : Int64) (w : Word)
  | read (b : Buffer) (offset : Int64)
  | reset (b : Buffer)
  | truncate (b : Buffer) (n : Int64)

inductive Reply where
  | done
  | start (offset : Int64)
  | word (w : Word)
deriving DecidableEq

abbrev Answer := Except Fault Reply

/-- The start of the buffer is not behind the end of the segment. -/
def Begun (b : Buffer) (s : Segment) : Prop := 0 ≤ b.start.toInt ∧ b.start.toInt ≤ s.size.toInt

instance (b : Buffer) (s : Segment) : Decidable (Begun b s) := inferInstanceAs (Decidable (_ ∧ _))

namespace Request

def perform : Request → SegmentM Reply
  | .next => do return .start (← Segment.next)
  | .append w => do
    appendWord w
    return .done
  | .put b offset w => do
    b.putWordAt offset w
    return .done
  | .read b offset => do return .word (← MonadExcept.ofExcept (b.wordAt (← get) offset))
  | .reset b => do
    b.reset
    return .done
  | .truncate b n => do
    b.truncate n
    return .done

/-- Buffers have begun and are cut to a part of what they hold, and the end of what is appended
is an offset. -/
def Permitted (s : Segment) : Request → Prop
  | .next => s.size.toInt + missing s.size < 2 ^ 63
  | .append _ => s.size.toInt + 4 < 2 ^ 63
  | .put b _ _ | .read b _ | .reset b => Begun b s
  | .truncate b n => Begun b s ∧ 0 ≤ n.toInt ∧ n.toInt ≤ (b.length s).toInt

instance (s : Segment) : (r : Request) → Decidable (r.Permitted s)
  | .next | .append _ => inferInstanceAs (Decidable (_ < _))
  | .put b _ _ | .read b _ | .reset b => inferInstanceAs (Decidable (Begun b s))
  | .truncate _ _ => inferInstanceAs (Decidable (_ ∧ _ ∧ _))

end Request

/-- The answer of an action. -/
def answer : EStateM.Result Fault Segment Reply → Answer
  | .ok reply _ => .ok reply
  | .error fault _ => .error fault

/-- Performs requests one after the other, also behind one that fails. -/
def performAll : List Request → Segment → List Answer × Segment
  | [], s => ([], s)
  | r :: rest, s =>
    let (answers, last) := performAll rest (after (r.perform s))
    (answer (r.perform s) :: answers, last)

def PermittedAll : List Request → Segment → Prop
  | [], _ => True
  | r :: rest, s => r.Permitted s ∧ PermittedAll rest (after (r.perform s))

instance decidablePermittedAll : (rs : List Request) → (s : Segment) → Decidable (PermittedAll rs s)
  | [], _ => isTrue trivial
  | r :: rest, s =>
    have := decidablePermittedAll rest (after (r.perform s))
    inferInstanceAs (Decidable (_ ∧ _))

/-- There are four bytes for a word at this offset of a buffer. -/
def Complete (bytes : List UInt8) (b : Buffer) (offset : Int64) : Prop :=
  0 ≤ offset.toInt ∧ offset.toInt % 4 = 0 ∧ b.start.toInt + offset.toInt + 4 ≤ bytes.length

instance (bytes : List UInt8) (b : Buffer) (offset : Int64) : Decidable (Complete bytes b offset) :=
  inferInstanceAs (Decidable (_ ∧ _ ∧ _))

/-- The position of an offset. -/
def position (b : Buffer) (offset : Int64) : Nat := (b.start.toInt + offset.toInt).toNat

/-- The word that the bytes from some position on hold. -/
def heldWord (order : ByteOrder) (bytes : List UInt8) (position : Nat) : Word :=
  match bytes.drop position with
  | b0 :: b1 :: b2 :: b3 :: _ => order.word b0 b1 b2 b3
  | _ => 0

/-- Why an offset is refused. That there is no offset for the end of the word is noticed only when
it is looked for. -/
def refusal (bytes : List UInt8) (b : Buffer) (offset : Int64) : Fault :=
  if offset.toInt = 2 ^ 63 - 4 then .outOfBounds
  else .defect (.wordOffset offset (Int64.ofInt (bytes.length - b.start.toInt)))

/-- The bytes with zeros up to a multiple of sixteen. -/
def padded (bytes : List UInt8) : List UInt8 :=
  bytes ++ List.replicate ((16 - bytes.length % 16) % 16) 0

namespace Request

/-- What a request makes of a list of bytes, with its answer. -/
def meaning (order : ByteOrder) (bytes : List UInt8) : Request → Answer × List UInt8
  | .next => (.ok (.start (Int64.ofNat (padded bytes).length)), padded bytes)
  | .append w => (.ok .done, bytes ++ order.bytes w)
  | .put b offset w =>
    if Complete bytes b offset then
      let here := position b offset
      (.ok .done, bytes.take here ++ order.bytes w ++ bytes.drop (here + 4))
    else (.error (refusal bytes b offset), bytes)
  | .read b offset =>
    if Complete bytes b offset then
      (.ok (.word (heldWord order bytes (position b offset))), bytes)
    else (.error (refusal bytes b offset), bytes)
  | .reset b => (.ok .done, bytes.take b.start.toInt.toNat)
  | .truncate b n => (.ok .done, bytes.take (position b n))

/-- The request makes the list longer, and longer than half of what offsets can name. -/
def Huge (order : ByteOrder) (bytes : List UInt8) (r : Request) : Prop :=
  let length := (r.meaning order bytes).2.length
  bytes.length < length ∧ 2 ^ 62 < length

/-- The request is answered as it is meant. Only a huge list may be refused, and is left alone. -/
def Answers (order : ByteOrder) (bytes : List UInt8) (r : Request) (a : Answer)
    (next : List UInt8) : Prop :=
  (a, next) = r.meaning order bytes ∨ r.Huge order bytes ∧ a = .error .outOfBounds ∧ next = bytes

end Request

/-- The answers that requests get from a list of bytes, and what becomes of it. -/
inductive Follows (order : ByteOrder) :
    List UInt8 → List Request → List Answer → List UInt8 → Prop where
  | none (bytes : List UInt8) : Follows order bytes [] [] bytes
  | request {bytes next last : List UInt8} {r : Request} {a : Answer} {rs : List Request}
      {as : List Answer} (first : r.Answers order bytes a next)
      (rest : Follows order next rs as last) : Follows order bytes (r :: rs) (a :: as) last

section Words
variable {s : Segment} {bytes : List UInt8} {b : Buffer} {offset : Int64}

theorem toInt_length (written : Written s bytes) (begun : Begun b s) :
    (b.length s).toInt = bytes.length - b.start.toInt := by
  have size := written.size
  have small := written.bounded
  have kept := written.length_le
  obtain ⟨above, below⟩ := begun
  rw [Buffer.length, toInt_sub_of_range] <;> omega

theorem length_eq (written : Written s bytes) (begun : Begun b s) :
    b.length s = Int64.ofInt (bytes.length - b.start.toInt) := by
  rw [← toInt_length written begun, Int64.ofInt_toInt]

/-- As long as the end of the word is an offset, the check tells whether the word is there. -/
theorem checkWord_eq (written : Written s bytes) (begun : Begun b s)
    (short : offset.toInt ≠ 2 ^ 63 - 4) :
    b.checkWord s offset =
      if Complete bytes b offset then .ok () else .error (refusal bytes b offset) := by
  have length := toInt_length written begun
  have four : (4 : Int64).toInt = 4 := rfl
  have accepted : b.checkWord s offset = .ok () ↔ Complete bytes b offset := by
    rw [checkWord_eq_ok_iff]
    refine and_congr_right fun above => and_congr_right fun aligned => ?_
    have bound := Int64.toInt_lt offset
    have next : (offset + 4).toInt = offset.toInt + 4 := by
      rw [toInt_add_of_range] <;> omega
    omega
  split
  next complete => exact accepted.mpr complete
  next incomplete =>
    rw [refusal, if_neg short, ← length_eq written begun]
    exact (checkWord_ok_or_error b s offset).resolve_left (mt accepted.mp incomplete)

theorem checkWord_last (written : Written s bytes) (begun : Begun b s)
    (last : offset.toInt = 2 ^ 63 - 4) : b.checkWord s offset = .ok () := by
  have length := toInt_length written begun
  have size := written.size
  have wrapped : (offset + 4).toInt = -2 ^ 63 := by
    rw [Int64.toInt_add, last]
    rfl
  obtain ⟨above, below⟩ := begun
  exact checkWord_eq_ok_iff.mpr ⟨by omega, by omega, by omega⟩

theorem Complete.short (complete : Complete bytes b offset) (written : Written s bytes)
    (begun : Begun b s) : offset.toInt ≠ 2 ^ 63 - 4 := by
  have kept := written.length_le
  have small := written.bounded
  have above := begun.1
  obtain ⟨-, -, below⟩ := complete
  omega

theorem Complete.checked (complete : Complete bytes b offset) (written : Written s bytes)
    (begun : Begun b s) : b.checkWord s offset = .ok () := by
  rw [checkWord_eq written begun (complete.short written begun), if_pos complete]

/-- Where a word that is there begins, and that it ends before the end. -/
theorem Complete.place (complete : Complete bytes b offset) (written : Written s bytes)
    (begun : Begun b s) : (b.start + offset).toInt = position b offset ∧
      position b offset + 4 ≤ bytes.length := by
  have kept := written.length_le
  have small := written.bounded
  have above := begun.1
  obtain ⟨first, -, below⟩ := complete
  have here : (b.start + offset).toInt = b.start.toInt + offset.toInt := by
    rw [toInt_add_of_range] <;> omega
  simp only [position]
  omega

theorem putWordAt_complete (written : Written s bytes) (begun : Begun b s)
    (complete : Complete bytes b offset) (w : Word) :
    ∃ s', b.putWordAt offset w s = .ok () s' ∧ s'.order = s.order ∧
      Written s' (bytes.take (position b offset) ++ s.order.bytes w ++
        bytes.drop (position b offset + 4)) := by
  obtain ⟨here, below⟩ := complete.place written begun
  obtain ⟨s', put, written', order, -⟩ :=
    putWordAt_written written (complete.checked written begun) here below w
  exact ⟨s', put, order, written'⟩

theorem putWordAt_refused (written : Written s bytes) (begun : Begun b s)
    (incomplete : ¬Complete bytes b offset) (w : Word) :
    b.putWordAt offset w s = .error (refusal bytes b offset) s := by
  rw [putWordAt_eq]
  by_cases last : offset.toInt = 2 ^ 63 - 4
  · have nothing := not_holds_last s begun.1 last
    rw [checkWord_last written begun last, refusal, if_pos last]
    exact (store_eq ..).trans (if_neg (Bool.eq_false_iff.mp nothing))
  · rw [checkWord_eq written begun last, if_neg incomplete]

theorem wordAt_complete (written : Written s bytes) (begun : Begun b s)
    (complete : Complete bytes b offset) :
    b.wordAt s offset = .ok (heldWord s.order bytes (position b offset)) := by
  obtain ⟨here, below⟩ := complete.place written begun
  obtain ⟨b0, b1, b2, b3, rest, held⟩ : ∃ b0 b1 b2 b3 rest,
      bytes.drop (position b offset) = b0 :: b1 :: b2 :: b3 :: rest := by
    have length : 4 ≤ (bytes.drop (position b offset)).length := by
      rw [List.length_drop]
      omega
    match bytes.drop (position b offset), length with
    | b0 :: b1 :: b2 :: b3 :: rest, _ => exact ⟨b0, b1, b2, b3, rest, rfl⟩
  rw [heldWord, held]
  exact wordAt_written written (complete.checked written begun) here (by rw [held]; rfl)

theorem wordAt_refused (written : Written s bytes) (begun : Begun b s)
    (incomplete : ¬Complete bytes b offset) :
    b.wordAt s offset = .error (refusal bytes b offset) := by
  rw [Buffer.wordAt]
  by_cases last : offset.toInt = 2 ^ 63 - 4
  · have nothing := not_holds_last s begun.1 last
    rw [checkWord_last written begun last, refusal, if_pos last, Segment.slice, nothing]
    rfl
  · rw [checkWord_eq written begun last, if_neg incomplete]
    rfl

end Words

section Steps
variable {s : Segment} {bytes : List UInt8}

/-- What a segment has become holds the bytes that the request leaves. -/
def Refines (bytes : List UInt8) (r : Request) (s : Segment) : Prop :=
  ∃ next, Written (after (r.perform s)) next ∧ (after (r.perform s)).order = s.order ∧
    r.Answers s.order bytes (answer (r.perform s)) next

/-- Fewer bytes are written where the size is made smaller. -/
theorem written_cut (written : Written s bytes) {size : Int64} (above : 0 ≤ size.toInt)
    (below : size.toInt ≤ bytes.length) :
    Written { s with size := size } (bytes.take size.toInt.toNat) := by
  have length : (bytes.take size.toInt.toNat).length = size.toInt.toNat := by
    rw [List.length_take]
    omega
  refine ⟨?_, ?_, written.bounded⟩
  · rw [length]
    show size.toInt = _
    omega
  · rw [length, ← written.stored, List.take_take]
    show _ = List.take (min size.toInt.toNat bytes.length) s.storage.toList
    rw [Nat.min_eq_left (by omega)]

/-- Bytes are appended, or refused where there would be too many of them. -/
theorem append_written_or_huge (written : Written s bytes) (new : List UInt8)
    (short : bytes.length + new.length < 2 ^ 63) :
    (∃ s', append new s = .ok () s' ∧ Written s' (bytes ++ new) ∧ s'.order = s.order) ∨
      append new s = .error .outOfBounds s ∧ bytes.length < (bytes ++ new).length ∧
        2 ^ 62 < (bytes ++ new).length := by
  rw [List.length_append]
  rcases room_or_refused written short with room | ⟨refused, new, huge⟩
  · obtain ⟨s', appended, written', order, -⟩ := append_written written _ room
    exact .inl ⟨s', appended, written', order⟩
  · exact .inr ⟨refused, by omega, huge⟩

/-- A request that succeeds, by what it comes down to. -/
theorem refines_of_ok {r : Request} {reply : Reply} {s' : Segment} {next : List UInt8}
    (ran : r.perform s = .ok reply s') (written : Written s' next) (order : s'.order = s.order)
    (meant : (.ok reply, next) = r.meaning s.order bytes) : Refines bytes r s := by
  rw [Refines, ran]
  exact ⟨next, written, order, .inl meant⟩

theorem refines_of_huge {r : Request} (ran : r.perform s = .error .outOfBounds s)
    (written : Written s bytes) (huge : r.Huge s.order bytes) : Refines bytes r s := by
  rw [Refines, ran]
  exact ⟨bytes, written, rfl, .inr ⟨huge, rfl, rfl⟩⟩

theorem refines_of_refused {r : Request} {fault : Fault} (ran : r.perform s = .error fault s)
    (written : Written s bytes) (meant : (.error fault, bytes) = r.meaning s.order bytes) :
    Refines bytes r s := by
  rw [Refines, ran]
  exact ⟨bytes, written, rfl, .inl meant⟩

theorem refines_append (written : Written s bytes) (w : Word)
    (permitted : (Request.append w).Permitted s) : Refines bytes (.append w) s := by
  have size := written.size
  have four := length_bytes s.order w
  have short : s.size.toInt + 4 < 2 ^ 63 := permitted
  obtain ⟨s', appended, written', order⟩ | ⟨refused, huge⟩ :=
    append_written_or_huge written (s.order.bytes w) (by omega)
  · rw [← appendWord_eq] at appended
    refine refines_of_ok ?_ written' order rfl
    simp only [Request.perform, bind_apply, appended, pure_apply]
  · rw [← appendWord_eq] at refused
    refine refines_of_huge ?_ written huge
    simp only [Request.perform, bind_apply, refused]

theorem missing_eq (written : Written s bytes) :
    missing s.size = (16 - bytes.length % 16) % 16 := by
  rw [missing, written.size]
  omega

theorem refines_next (written : Written s bytes) (permitted : Request.next.Permitted s) :
    Refines bytes .next s := by
  have size := written.size
  have fill := missing_eq written
  have short : s.size.toInt + missing s.size < 2 ^ 63 := permitted
  obtain ⟨s', appended, written', order⟩ | ⟨refused, huge⟩ :=
    append_written_or_huge written (List.replicate (missing s.size) 0)
      (by rw [List.length_replicate]; omega)
  · have start : s'.size = Int64.ofNat (bytes ++ List.replicate (missing s.size) 0).length := by
      apply Int64.toInt_inj.mp
      rw [written'.size, Int64.toInt_ofNat_of_lt]
      exact Nat.lt_of_le_of_lt written'.length_le written'.bounded
    have ran : Request.next.perform s = .ok (.start s'.size) s' := by
      simp only [Request.perform, Segment.next, bind_apply, get_apply, appended, pure_apply]
    refine refines_of_ok ran written' order ?_
    rw [start, fill]
    rfl
  · refine refines_of_huge ?_ written ?_
    · simp only [Request.perform, Segment.next, bind_apply, get_apply, refused]
    · rwa [fill] at huge

theorem refines_put (written : Written s bytes) {b : Buffer} (begun : Begun b s) (offset : Int64)
    (w : Word) : Refines bytes (.put b offset w) s := by
  by_cases complete : Complete bytes b offset
  · obtain ⟨s', put, order, written'⟩ := putWordAt_complete written begun complete w
    refine refines_of_ok ?_ written' order (if_pos complete).symm
    simp only [Request.perform, bind_apply, put, pure_apply]
  · have refused := putWordAt_refused written begun complete w
    refine refines_of_refused ?_ written (if_neg complete).symm
    simp only [Request.perform, bind_apply, refused]

theorem refines_read (written : Written s bytes) {b : Buffer} (begun : Begun b s)
    (offset : Int64) : Refines bytes (.read b offset) s := by
  by_cases complete : Complete bytes b offset
  · have read := wordAt_complete written begun complete
    refine refines_of_ok ?_ written rfl (if_pos complete).symm
    simp only [Request.perform, bind_apply, get_apply, read, ofExcept_ok, pure_apply]
  · have refused := wordAt_refused written begun complete
    refine refines_of_refused ?_ written (if_neg complete).symm
    simp only [Request.perform, bind_apply, get_apply, refused, ofExcept_error]

theorem refines_reset (written : Written s bytes) {b : Buffer} (begun : Begun b s) :
    Refines bytes (.reset b) s := by
  obtain ⟨above, below⟩ := begun
  rw [written.size] at below
  exact ⟨_, written_cut written above below, rfl, .inl rfl⟩

theorem refines_truncate (written : Written s bytes) {b : Buffer} {n : Int64}
    (permitted : (Request.truncate b n).Permitted s) : Refines bytes (.truncate b n) s := by
  obtain ⟨begun, first, last⟩ := permitted
  have small := written.bounded
  have kept := written.length_le
  have above := begun.1
  rw [toInt_length written begun] at last
  have here : (b.start + n).toInt = b.start.toInt + n.toInt := by
    rw [toInt_add_of_range] <;> omega
  have inside : 0 ≤ (b.start + n).toInt := by omega
  have cut := written_cut written inside (by omega)
  rw [here] at cut
  exact ⟨_, cut, rfl, .inl rfl⟩

/-- One request does to the segment what it does to the bytes. -/
theorem perform_refines (written : Written s bytes) {r : Request} (permitted : r.Permitted s) :
    Refines bytes r s := by
  cases r with
  | next => exact refines_next written permitted
  | append w => exact refines_append written w permitted
  | put b offset w => exact refines_put written permitted offset w
  | read b offset => exact refines_read written permitted offset
  | reset b => exact refines_reset written permitted
  | truncate b n => exact refines_truncate written permitted

end Steps

theorem performAll_follows {rs : List Request} {s : Segment} {bytes : List UInt8}
    (written : Written s bytes) (permitted : PermittedAll rs s) :
    ∃ last, Written (performAll rs s).2 last ∧ (performAll rs s).2.order = s.order ∧
      Follows s.order bytes rs (performAll rs s).1 last := by
  induction rs generalizing s bytes with
  | nil => exact ⟨bytes, written, rfl, .none bytes⟩
  | cons r rs ih =>
    obtain ⟨now, later⟩ := permitted
    obtain ⟨next, written', order, answered⟩ := perform_refines written now
    obtain ⟨last, finished, order', follows⟩ := ih written' later
    rw [order] at follows
    exact ⟨last, finished, order'.trans order, .request answered follows⟩

theorem ofCode_written {code : List UInt8} (short : code.length < 2 ^ 63) (order : ByteOrder) :
    Written (.ofCode code order) code where
  size := Int64.toInt_ofNat_of_lt short
  stored := List.take_length
  bounded := short

/-- The size that doubling starts with. -/
def startCapacity (capacity : Nat) : Nat := if capacity = 0 then initialCapacity else capacity

/-- Doubling comes to an end, with the first size that is large enough, and every size on the way
is an offset. -/
def GrowthEnds (capacity want : Nat) : Prop :=
  ∃ k, grownCapacity capacity want = startCapacity capacity * 2 ^ k ∧
    startCapacity capacity * 2 ^ k < 2 ^ 63 ∧ want ≤ startCapacity capacity * 2 ^ k ∧
    ∀ j < k, startCapacity capacity * 2 ^ j < want

theorem growthEnds {capacity want : Nat} (bounded : capacity < 2 ^ 63) (half : want ≤ 2 ^ 62) :
    GrowthEnds capacity want := by
  obtain ⟨k, same, before⟩ := doubled_rounds (startCapacity capacity) want
  have grown : grownCapacity capacity want = startCapacity capacity * 2 ^ k := same
  refine ⟨k, grown, ?_, ?_, before⟩ <;> rw [← grown]
  · exact grownCapacity_lt bounded half
  · exact le_grownCapacity capacity want

/-- A segment with some code in it is used through buffers. Whatever is asked of it, it answers as
the list of its bytes would, and holds the bytes that are left of the list, also as its buffers show
them. Wherever the storage has to grow, this comes to an end. -/
theorem buffers_refine_bytes {code : List UInt8} (order : ByteOrder) (short : code.length < 2 ^ 63)
    {rs : List Request} (permitted : PermittedAll rs (.ofCode code order)) :
    ∃ bytes answers s, performAll rs (.ofCode code order) = (answers, s) ∧
      Follows order code rs answers bytes ∧ s.bytes = .ok bytes ∧
      (∀ b, Begun b s → b.bytes s = .ok (bytes.drop b.start.toInt.toNat)) ∧
      ∀ want ≤ 2 ^ 62, GrowthEnds s.storage.size want := by
  obtain ⟨bytes, written, -, follows⟩ := performAll_follows (ofCode_written short order) permitted
  refine ⟨bytes, _, _, rfl, follows, bytes_of_written written, fun b begun => ?_,
    fun want half => growthEnds written.bounded half⟩
  have size := written.size
  obtain ⟨above, below⟩ := begun
  rw [Buffer.bytes, slice_written written above below (by omega), size, Int.toNat_natCast,
    List.take_length]

/-- Two words are written behind some code, and cut off in the middle of the first, so that the
next one is found at another offset. On the way the storage grows from five bytes to forty, and the
offset is refused whose word would end behind all offsets. -/
theorem buffers_refine_bytes_cut :
    let rs : List Request := [.next, .append 0x11223344, .append 0x55667788, .put ⟨16⟩ 4 0x99AABBCC,
      .read ⟨16⟩ 4, .truncate ⟨16⟩ 2, .read ⟨16⟩ 0, .append 0xDDEEFF00, .read ⟨18⟩ 0,
      .read ⟨16⟩ (2 ^ 63 - 4), .reset ⟨0⟩]
    PermittedAll rs (.ofCode [1, 2, 3, 4, 5] .little) ∧
      ∃ bytes answers s, performAll rs (.ofCode [1, 2, 3, 4, 5] .little) = (answers, s) ∧
        Follows .little [1, 2, 3, 4, 5] rs answers bytes ∧ s.bytes = .ok bytes ∧
        (∀ b, Begun b s → b.bytes s = .ok (bytes.drop b.start.toInt.toNat)) ∧
        ∀ want ≤ 2 ^ 62, GrowthEnds s.storage.size want := by
  intro rs
  have permitted : PermittedAll rs (.ofCode [1, 2, 3, 4, 5] .little) := by decide +kernel
  exact ⟨permitted, buffers_refine_bytes .little (by decide) permitted⟩

end PowerAsm.Proofs.Buffers
