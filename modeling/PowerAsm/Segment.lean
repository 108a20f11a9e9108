import PowerAsm.Fault

/-! Code segments: storage for instruction words that grows as they are appended. The
written part is the first `size` bytes. A buffer is the part of a segment from some
start on; giving a buffer up shortens the written part and leaves the bytes in place.

A request outside the storage fails with `Fault.outOfBounds`; what was changed before
the failure stays changed. -/
namespace PowerAsm

structure Segment where
  storage : Array UInt8
  /-- The number of bytes written. Cutting a buffer can move it out of the storage. -/
  size : Int64
  order : ByteOrder
deriving Repr

/-- An action on a segment. A failed action keeps the changes made so far. -/
abbrev SegmentM := EStateM Fault Segment

/-- What an action in two parts has done, if it has succeeded. -/
theorem bind_ok {ε σ α β : Type} {x : EStateM ε σ α} {f : α → EStateM ε σ β} {s c : σ} {v : β}
    (ran : (x >>= f) s = .ok v c) : ∃ u b, x s = .ok u b ∧ f u b = .ok v c := by
  simp only [bind, EStateM.bind] at ran
  split at ran
  · exact ⟨_, _, ‹_›, ran⟩
  · cases ran

namespace Segment

/-- A segment that holds some code already. -/
def ofCode (code : List UInt8) (order : ByteOrder) : Segment :=
  ⟨code.toArray, Int64.ofNat code.length, order⟩

def empty (order : ByteOrder) : Segment := ofCode [] order

/-- The size of the storage. -/
def capacity (s : Segment) : Int64 := Int64.ofNat s.storage.size

/-- Whether the bytes from `first` up to `last` lie in the storage. -/
def holds (s : Segment) (first last : Int64) : Bool :=
  0 ≤ first && first ≤ last && last ≤ s.capacity

/-- The bytes from `first` up to `last`. -/
def slice (s : Segment) (first last : Int64) : Except Fault (List UInt8) :=
  if s.holds first last then
    .ok (s.storage.extract first.toInt.toNat last.toInt.toNat).toList
  else .error .outOfBounds

/-- The written part. -/
def bytes (s : Segment) : Except Fault (List UInt8) := s.slice 0 s.size

/-- The storage with bytes replaced from `position` on. -/
def overwrite (storage : Array UInt8) (position : Nat) : List UInt8 → Array UInt8
  | [] => storage
  | b :: rest => overwrite (storage.setIfInBounds position b) (position + 1) rest

/-- The least of `capacity`, twice `capacity`, and so on, that is at least `want`. -/
def doubled (capacity want : Nat) : Nat :=
  if 0 < capacity ∧ capacity < want then doubled (2 * capacity) want else capacity
termination_by want - capacity

/-- The size of fresh storage. -/
def initialCapacity : Nat := 4096

/-- The size to which storage grows so that it holds `want` bytes. -/
def grownCapacity (capacity want : Nat) : Nat :=
  doubled (if capacity = 0 then initialCapacity else capacity) want

/-- The segment with storage for `want` bytes. Only the written part is kept. -/
def grown (s : Segment) (want : Nat) : Segment :=
  let written := s.size.toInt.toNat
  let capacity := grownCapacity s.storage.size want
  { s with storage := s.storage.extract 0 written ++ Array.replicate (capacity - written) 0 }

/-- Whether storage for `want` bytes has a size that an offset can name. -/
def canGrow (s : Segment) (want : Nat) : Bool :=
  grownCapacity s.storage.size want < 0x8000000000000000

/-- Makes room up to `finish`. -/
def reserve (finish : Int64) : SegmentM Unit := do
  if finish ≤ (← get).capacity then return
  if !(← get).holds 0 (← get).size then throw .outOfBounds
  if !(← get).canGrow finish.toInt.toNat then throw .outOfBounds
  modify fun s => s.grown finish.toInt.toNat

/-- Replaces the bytes from `first` up to `last`. -/
def store (first last : Int64) (bytes : List UInt8) : SegmentM Unit := do
  if !(← get).holds first last then throw .outOfBounds
  modify fun s => { s with storage := overwrite s.storage first.toInt.toNat bytes }

theorem store_ok {first last : Int64} {bytes : List UInt8} {s s' : Segment}
    (ran : store first last bytes s = .ok () s') : first ≤ last ∧ s'.size = s.size := by
  obtain ⟨s₀, s₁, read, rest⟩ := bind_ok ran
  cases read
  cases held : s.holds first last with
  | false =>
    rw [held] at rest
    cases rest
  | true =>
    rw [held] at rest
    cases rest
    simp only [holds, Bool.and_eq_true, decide_eq_true_eq] at held
    exact ⟨held.1.2, rfl⟩

/-- Appends bytes to the written part. -/
def append (bytes : List UInt8) : SegmentM Unit := do
  let start := (← get).size
  let finish := start + Int64.ofNat bytes.length
  reserve finish
  modify fun s => { s with size := finish }
  store start finish bytes

/-- What is appended moves the end of the written part forward. -/
theorem size_lt_of_append {bytes : List UInt8} {s s' : Segment} (some : 0 < bytes.length)
    (few : bytes.length ≤ Int64.maxValue.toInt) (ran : append bytes s = .ok () s') :
    s.size.toInt < s'.size.toInt := by
  obtain ⟨s₀, s₁, read, rest⟩ := bind_ok ran
  cases read
  obtain ⟨⟨⟩, s₂, -, rest⟩ := bind_ok rest
  obtain ⟨⟨⟩, s₃, moved, stored⟩ := bind_ok rest
  cases moved
  obtain ⟨forward, size⟩ := store_ok stored
  rw [Int64.toInt_maxValue] at few
  have apart : s.size ≠ s.size + Int64.ofNat bytes.length := by
    intro same
    have length := Int64.toInt_ofNat_of_lt (n := bytes.length) (by omega)
    rw [Int64.left_eq_add.mp same, Int64.toInt_zero] at length
    omega
  rw [size]
  exact Int64.lt_iff_toInt_lt.mp (Int64.lt_of_le_of_ne forward apart)

/-- Appends a word in the byte order of the segment. -/
def appendWord (w : Word) : SegmentM Unit := do
  append ((← get).order.bytes w)

/-- How many bytes are missing from a multiple of sixteen. -/
def missing (size : Int64) : Nat := ((-size.toInt) % 16).toNat

/-- Starts a new buffer at the next multiple of sixteen, and returns its start. -/
def next : SegmentM Int64 := do
  append (List.replicate (missing (← get).size) 0)
  return (← get).size

/-- Replaces a word of the written part, wherever it stands. -/
def poke (offset : Int64) (w : Word) : SegmentM Unit := do
  let s ← get
  if !s.holds 0 s.size || offset < 0 || s.size < offset || s.size - offset < 4 then
    throw .outOfBounds
  store offset (offset + 4) (s.order.bytes w)

end Segment

/-- The part of a segment from `start` on. -/
structure Buffer where
  start : Int64
deriving DecidableEq, Repr

namespace Buffer

/-- The number of bytes written to the buffer. -/
def length (b : Buffer) (s : Segment) : Int64 := s.size - b.start

def bytes (b : Buffer) (s : Segment) : Except Fault (List UInt8) := s.slice b.start s.size

/-- Cuts the buffer to its first `n` bytes. -/
def truncate (b : Buffer) (n : Int64) : SegmentM Unit :=
  modify fun s => { s with size := b.start + n }

/-- Cuts the buffer to nothing. -/
def reset (b : Buffer) : SegmentM Unit :=
  modify fun s => { s with size := b.start }

/-- Refuses an offset at which no complete word was written. -/
def checkWord (b : Buffer) (s : Segment) (offset : Int64) : Except Fault Unit :=
  if offset < 0 ∨ offset % 4 ≠ 0 ∨ b.length s < offset + 4 then
    .error (.defect (.wordOffset offset (b.length s)))
  else .ok ()

/-- The word written at an offset of the buffer. -/
def wordAt (b : Buffer) (s : Segment) (offset : Int64) : Except Fault Word := do
  b.checkWord s offset
  match ← s.slice (b.start + offset) (b.start + offset + 4) with
  | [b0, b1, b2, b3] => .ok (s.order.word b0 b1 b2 b3)
  | _ => .error .outOfBounds

/-- Replaces the word written at an offset of the buffer. -/
def putWordAt (b : Buffer) (offset : Int64) (w : Word) : SegmentM Unit := do
  MonadExcept.ofExcept (b.checkWord (← get) offset)
  Segment.store (b.start + offset) (b.start + offset + 4) ((← get).order.bytes w)

end Buffer
end PowerAsm
