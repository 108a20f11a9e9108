import PowerAsm.Proofs.Operations

/-! Segments that are shared. Several assemblers and buffers may write to one segment, so that an
assembler finds its segment changed between two of its own operations. What it can rely on is that
the written part lies in the storage. Everything that is done to a segment keeps that, whether it
succeeds or fails, except for cutting a buffer where there is nothing to cut. -/
namespace PowerAsm.Proofs.SharedSegments
open Segment Storage Integers Operations

/-- The written part lies in the storage, which was not large at the start. -/
structure Intact (s : Segment) : Prop where
  above : 0 ≤ s.size.toInt
  below : s.size.toInt ≤ s.storage.size
  bounded : s.storage.size < 2 ^ 63
  sturdy : Sturdy s.storage.size

section Bytes
variable {s s' : Segment} {bytes new : List UInt8}

theorem Intact.written (intact : Intact s) : ∃ bytes, Written s bytes :=
  exists_written intact.above intact.below intact.bounded

theorem intact_of_written (written : Written s bytes) (sturdy : Sturdy s.storage.size) :
    Intact s := by
  have size := written.size
  have kept := written.length_le
  exact ⟨by omega, by omega, written.bounded, sturdy⟩

theorem intact_append (intact : Intact s) (short : new.length < 2 ^ 63)
    (ran : append new s = .ok () s') : Intact s' := by
  obtain ⟨bytes, written⟩ := intact.written
  obtain ⟨s'', appended, written', -, sturdy⟩ :=
    append_sturdy written intact.sturdy (room_of_append written short ran)
  cases appended.symm.trans ran
  exact intact_of_written written' sturdy

theorem append_keeps (intact : Intact s) (four : new.length = 4) :
    Intact (after (append new s)) := by
  obtain ⟨bytes, written⟩ := intact.written
  rcases append_cases written intact.sturdy four with
    ⟨s', appended, written', -, sturdy⟩ | ⟨refused, -⟩
  · rw [appended]
    exact intact_of_written written' sturdy
  · rw [refused]
    exact intact

end Bytes

theorem keeps_store (first last : Int64) (bytes : List UInt8) :
    Keeps Intact Expected (store first last bytes) := by
  refine keeps_get.bind fun _ => .ite (keeps_throw_bind expected_outOfBounds) ?_
  refine keeps_modify fun s intact => ?_
  have size := overwrite_size s.storage first.toInt.toNat bytes
  obtain ⟨above, below, bounded, sturdy⟩ := intact
  exact ⟨above, by rwa [size], by rwa [size], by rwa [size]⟩

theorem keeps_putWordAt (b : Buffer) (offset : Int64) (w : Word) :
    Keeps Intact Expected (b.putWordAt offset w) :=
  keeps_get.bind fun _ => (keeps_ofExcept (expected_checkWord _ _ _)).bind fun _ =>
    keeps_get.bind fun _ => keeps_store ..

theorem keeps_poke (offset : Int64) (w : Word) : Keeps Intact Expected (poke offset w) :=
  keeps_get.bind fun _ => .ite (keeps_throw_bind expected_outOfBounds) (keeps_store ..)

theorem appendWord_eq (w : Word) (s : Segment) : appendWord w s = append (s.order.bytes w) s := by
  simp only [appendWord, bind_apply, get_apply]

theorem keeps_appendWord (w : Word) : Keeps Intact Expected (appendWord w) := by
  refine keeps_of_state (keeps_get.bind fun _ => faults_append _) fun s intact => ?_
  rw [appendWord_eq]
  exact append_keeps intact (length_bytes s.order w)

/-- No step of an assembler moves the written part out of the storage. -/
theorem stable_intact : Stable fun a => Intact a.segment where
  emit := fun w => keeps_offset.bind fun _ => (keeps_onSegment (keeps_appendWord w)).bind fun _ =>
    keeps_modify fun _ intact => intact
  patch := fun dest site => keeps_assembler.bind fun _ => keeps_get.bind fun _ =>
    (keeps_ofExcept (expected_wordAt _ _ _)).bind fun w =>
    (keeps_ofExcept (expected_patchedWord w site dest)).bind fun _ =>
    (keeps_onSegment (keeps_putWordAt ..)).bind fun _ => keeps_modify fun _ intact => intact
  labels := fun _ _ intact => intact
  frames := fun _ _ intact => intact

/-- A word that is not written leaves everything as it was, and there was no room for it. -/
theorem emit_error {a b : Assembly} {bytes : List UInt8} {w : Word} {e : Fault}
    (written : Written a.segment bytes) (sturdy : Sturdy a.segment.storage.size)
    (failed : Asm.emit w a = .error e b) :
    b = a ∧ e = .outOfBounds ∧ 2 ^ 62 < bytes.length + 4 := by
  rcases emit_cases written sturdy w with ⟨s, emitted, -⟩ | ⟨full, large⟩
  · cases emitted.symm.trans failed
  · cases full.symm.trans failed
    exact ⟨rfl, rfl, large⟩

theorem intact_next {s s' : Segment} {start : Int64} (intact : Intact s)
    (ran : Segment.next s = .ok start s') : Intact s' := by
  obtain ⟨s₀, s₁, read, rest⟩ := bind_ok ran
  cases read
  obtain ⟨⟨⟩, s₂, filled, last⟩ := bind_ok rest
  obtain ⟨s₃, s₄, read, returned⟩ := bind_ok last
  cases read
  cases returned
  refine intact_append intact ?_ filled
  rw [List.length_replicate, missing]
  omega

/-- What may become of a segment between two operations of an assembler: any other assembler may
be at work on it, and so may buffers. A buffer is cut to a part of what is written. -/
inductive Shares (s : Segment) : Segment → Prop
  | assembler (other : Assembler) (op : Operation) : Shares s (op.perform ⟨s, other⟩).segment
  | next {start : Int64} {s' : Segment} (ran : Segment.next s = .ok start s') : Shares s s'
  | append (w : Word) : Shares s (after (appendWord w s))
  | put (b : Buffer) (offset : Int64) (w : Word) : Shares s (after (b.putWordAt offset w s))
  | poke (offset : Int64) (w : Word) : Shares s (after (Segment.poke offset w s))
  | cut (b : Buffer) (n : Int64) (above : 0 ≤ (b.start + n).toInt)
      (below : (b.start + n).toInt ≤ s.size.toInt) : Shares s (after (b.truncate n s))

/-- A segment that held some code and was then shared. -/
inductive Used : Segment → Prop
  | code (bytes : List UInt8) (order : ByteOrder) (short : bytes.length ≤ 2 ^ 60) :
    Used (.ofCode bytes order)
  | shared {s s' : Segment} (used : Used s) (step : Shares s s') : Used s'

/-- An assembler that was started at the end of a segment, and did whatever was asked of it,
while the segment was shared. -/
inductive Reachable : Assembly → Prop
  | start {s s' : Segment} {t : Target} {assembler : Assembler} (used : Used s)
      (ran : Assembler.start t s = .ok assembler s') : Reachable ⟨s', assembler⟩
  | operation {a : Assembly} (reachable : Reachable a) (op : Operation) :
    Reachable (op.perform a)
  | shared {a : Assembly} {s : Segment} (reachable : Reachable a) (step : Shares a.segment s) :
    Reachable ⟨s, a.assembler⟩

theorem Shares.intact {s s' : Segment} (shares : Shares s s') (intact : Intact s) : Intact s' := by
  cases shares with
  | assembler other op => exact perform_keeps stable_intact ⟨s, other⟩ intact op
  | next ran => exact intact_next intact ran
  | append w => exact (keeps_appendWord w).state s intact
  | put b offset w => exact (keeps_putWordAt b offset w).state s intact
  | poke offset w => exact (keeps_poke offset w).state s intact
  | cut b n above below =>
    have size := intact.below
    exact ⟨above, Int.le_trans below size, intact.bounded, intact.sturdy⟩

theorem Used.intact {s : Segment} (used : Used s) : Intact s := by
  induction used with
  | code bytes order short =>
    have size : (Int64.ofNat bytes.length).toInt = bytes.length :=
      Int64.toInt_ofNat_of_lt (by omega)
    have storage : (Segment.ofCode bytes order).storage.size = bytes.length := rfl
    refine ⟨?_, ?_, ?_, sturdy_of_le short⟩
    · rw [ofCode, size]
      omega
    · rw [ofCode, size]
      exact Int.le_refl _
    · rw [storage]
      omega
  | shared used step ih => exact step.intact ih

theorem Reachable.intact {a : Assembly} (reachable : Reachable a) : Intact a.segment := by
  induction reachable with
  | start used ran =>
    obtain ⟨start, s', ran', last⟩ := bind_ok ran
    cases last
    exact intact_next used.intact ran'
  | operation reachable op ih => exact perform_keeps stable_intact _ ih op
  | shared reachable step ih => exact step.intact ih

end PowerAsm.Proofs.SharedSegments
