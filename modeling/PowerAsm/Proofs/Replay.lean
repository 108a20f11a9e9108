import PowerAsm.Proofs.Recovery.Effects
import PowerAsm.Proofs.SharedSegments

/-! The log of an assembler as a recording of its code. Replaying the log on an empty list
of words gives the words of the buffer, after every operation and also after one that
failed halfway; and a patch changes nothing of a word but the displacement of a branch. -/
namespace PowerAsm.Proofs.Replay
open Storage Operations Recovery SharedSegments

/-- One event on the words so far: a word is emitted at their end, and a patch replaces one
of them. -/
def redo? (ws : List Word) : Event → Option (List Word)
  | .emitted offset w => if offset.toInt = 4 * ws.length then some (ws ++ [w]) else none
  | .patched offset w =>
    if 0 ≤ offset.toInt ∧ offset.toInt % 4 = 0 ∧ offset.toInt < 4 * ws.length then
      some (ws.set (offset.toInt / 4).toNat w)
    else none

/-- The words that events leave, from none on. -/
def replay (events : List Event) : Option (List Word) := events.foldlM redo? []

/-- The new word differs from the old one in the displacement field of a branch only. -/
def FillsIn (old new : Word) : Prop :=
  ∃ form, Asm.branchForm? old = some form ∧
    ∀ k, new.getLsbD k ≠ old.getLsbD k → 2 ≤ k ∧ k < 2 + Branch.displacementBits form

/-- Every patch among the events fills in a branch that was there when it was made. -/
def OnlyFillsIn (events : List Event) : Prop :=
  ∀ before offset w later, events = before ++ .patched offset w :: later →
    ∃ ws old, replay before = some ws ∧ ws[(offset.toInt / 4).toNat]? = some old ∧ FillsIn old w

theorem replay_snoc {events : List Event} {ws : List Word} (replayed : replay events = some ws)
    (event : Event) : replay (events ++ [event]) = redo? ws event := by
  have start : List.foldlM redo? [] events = some ws := replayed
  rw [replay, List.foldlM_append, start]
  simp only [Option.bind_eq_bind, Option.bind_some, List.foldlM_cons, List.foldlM_nil]
  cases redo? ws event <;> rfl

/-- A patch stands either among the earlier events or at their end. -/
theorem snoc_eq_split {events before later : List Event} {event patch : Event}
    (split : events ++ [event] = before ++ patch :: later) :
    (∃ rest, events = before ++ patch :: rest) ∨ events = before ∧ event = patch := by
  rcases List.eq_nil_or_concat later with rfl | ⟨rest, last, rfl⟩
  · obtain ⟨same, last⟩ := List.append_inj' split rfl
    exact .inr ⟨same, List.head_eq_of_cons_eq last⟩
  · refine .inl ⟨rest, ?_⟩
    have regrouped : events ++ [event] = (before ++ patch :: rest) ++ [last] := by
      rw [split]
      simp
    exact (List.append_inj' regrouped rfl).1

theorem onlyFillsIn_emitted {events : List Event} (clean : OnlyFillsIn events) (offset : Int64)
    (w : Word) : OnlyFillsIn (events ++ [.emitted offset w]) := by
  intro before offset' w' later split
  rcases snoc_eq_split split with ⟨rest, earlier⟩ | ⟨-, same⟩
  · exact clean before offset' w' rest earlier
  · cases same

theorem onlyFillsIn_patched {events : List Event} (clean : OnlyFillsIn events) {ws : List Word}
    (replayed : replay events = some ws) {offset : Int64} {old w : Word}
    (there : ws[(offset.toInt / 4).toNat]? = some old) (fills : FillsIn old w) :
    OnlyFillsIn (events ++ [.patched offset w]) := by
  intro before offset' w' later split
  rcases snoc_eq_split split with ⟨rest, earlier⟩ | ⟨rfl, same⟩
  · exact clean before offset' w' rest earlier
  · cases same
    exact ⟨ws, old, replayed, there, fills⟩

theorem ofField_inside {v : Int64} {low width k : Nat}
    (set : (Word.ofField v low width).getLsbD k = true) : low ≤ k ∧ k < low + width := by
  simp only [Word.ofField, BitVec.getLsbD_shiftLeft, BitVec.getLsbD_setWidth, Bool.and_eq_true,
    Bool.not_eq_true', decide_eq_true_eq, decide_eq_false_iff_not] at set
  have short := BitVec.lt_of_getLsbD set.2.2
  omega

/-- A patched word is the old one with its displacement filled in. -/
theorem patchedWord_fillsIn {old w : Word} {site : PatchSite} {dest : Int64}
    (patched : Asm.patchedWord old site dest = .ok w) : FillsIn old w := by
  unfold Asm.patchedWord at patched
  cases known : Asm.branchForm? old with
  | none =>
    rw [known] at patched
    cases patched
  | some form =>
    refine ⟨form, known, fun k differs => ?_⟩
    rw [known] at patched
    dsimp only at patched
    -- Of the checks only the last step matters, which adds the displacement to the old word.
    split at patched
    · cases patched
    · split at patched
      · cases patched
      · split at patched
        · cases patched
        · obtain ⟨displacement, -, made⟩ := Layouts.bind_eq_ok_iff.mp patched
          obtain rfl := Except.ok.inj made
          rw [BitVec.getLsbD_or] at differs
          refine ofField_inside (v := displacement) (Bool.of_not_eq_false fun unset => ?_)
          rw [unset, Bool.or_false] at differs
          exact differs rfl

/-- The log of the assembler records these words, which are its code. It was started as `origin`
behind the bytes `old`. -/
structure Recorded (origin : Assembly) (old : List UInt8) (a : Assembly) (ws : List Word) :
    Prop where
  live : Live origin old ws a
  replayed : replay a.assembler.log.toList = some ws
  clean : OnlyFillsIn a.assembler.log.toList

def Records (origin : Assembly) (old : List UInt8) (a : Assembly) : Prop :=
  ∃ ws, Recorded origin old a ws

section Steps
variable {origin a : Assembly} {old : List UInt8} {ws : List Word}
  (recorded : Recorded origin old a ws)
include recorded

theorem recorded_emit (w : Word) : Records origin old (after (Asm.emit w a)) := by
  rcases recorded.live.emit w with ⟨s, emitted, live⟩ | ⟨failed, -⟩
  · have place := recorded.live.offset_toInt (Nat.le_refl ws.length)
    rw [emitted, after_ok]
    refine ⟨ws ++ [w], live, ?_, ?_⟩ <;> rw [logged, Array.toList_push]
    · rw [replay_snoc recorded.replayed, redo?, if_pos place]
    · exact onlyFillsIn_emitted recorded.clean _ w
  · rw [failed]
    exact ⟨ws, recorded⟩

theorem recorded_patch (dest : Int64) (site : PatchSite) :
    Records origin old (after (Asm.patch dest site a)) := by
  rcases recorded.live.patch dest site with
    ⟨s, w, i, inside, here, patched, filled, live⟩ | ⟨e, failed⟩
  · have place := recorded.live.offset_toInt (Nat.le_of_lt inside)
    rw [← here] at place
    have index : (site.offset.toInt / 4).toNat = i := by omega
    rw [patched, after_ok]
    refine ⟨ws.set i w, live, ?_, ?_⟩ <;> rw [logged, Array.toList_push]
    · rw [replay_snoc recorded.replayed, redo?, index, if_pos]
      omega
    · refine onlyFillsIn_patched recorded.clean recorded.replayed ?_ (patchedWord_fillsIn filled)
      rw [index, List.getElem?_eq_getElem inside]
  · rw [failed]
    exact ⟨ws, recorded⟩

end Steps

/-- Every step of an assembler is recorded. -/
theorem stable_records (origin : Assembly) (old : List UInt8) : Stable (Records origin old) where
  emit := fun w => keeps_of_state (stable_true.emit w)
    fun _ ⟨_, recorded⟩ => recorded_emit recorded w
  patch := fun dest site => keeps_of_state (stable_true.patch dest site)
    fun _ ⟨_, recorded⟩ => recorded_patch recorded dest site
  labels := fun _ labels ⟨ws, recorded⟩ =>
    ⟨ws, recorded.live.elsewhere labels _ _, recorded.replayed, recorded.clean⟩
  frames := fun _ frames ⟨ws, recorded⟩ =>
    ⟨ws, recorded.live.elsewhere _ frames _, recorded.replayed, recorded.clean⟩

/-- Nothing is recorded at the start. -/
theorem start_records {s s' : Segment} {t : Target} {x : Assembler} (intact : Intact s)
    (started : Assembler.start t s = .ok x s') :
    ∃ old, Written s' old ∧ s'.order = s.order ∧ Records ⟨s', x⟩ old ⟨s', x⟩ := by
  obtain ⟨old, live, order⟩ := start_live intact.bounded intact.sturdy started
  have written := live.holding.written
  rw [List.flatMap_nil, List.append_nil] at written
  have nothing : x.log = #[] := by
    obtain ⟨first, s₁, -, rest⟩ := bind_ok started
    cases rest
    rfl
  refine ⟨old, written, order, [], live, ?_, ?_⟩ <;> rw [nothing]
  · rfl
  · intro before offset w later split
    cases before <;> cases split

/-- An assembler that was started at the end of any segment, and was alone on it since, has done
whatever it was asked, however often it failed: what stood in the segment before is still there,
and replaying the log gives exactly the words behind it, which are those of the buffer. Every patch
has changed the displacement of a branch only. -/
theorem replay_log_eq_code {s s' : Segment} {t : Target} {x : Assembler} (used : Used s)
    (started : Assembler.start t s = .ok x s') (ops : List Operation) :
    let a := Operation.performAll ⟨s', x⟩ ops
    ∃ old ws, s'.bytes = .ok old ∧ a.segment.bytes = .ok (old ++ ws.flatMap s.order.bytes) ∧
      replay a.assembler.log.toList = some ws ∧
      a.assembler.buffer.bytes a.segment = .ok (ws.flatMap s.order.bytes) ∧
      OnlyFillsIn a.assembler.log.toList := by
  intro a
  obtain ⟨old, written, order, records⟩ := start_records used.intact started
  obtain ⟨ws, recorded⟩ := performAll_keeps (stable_records ⟨s', x⟩ old) _ records ops
  have now := recorded.live.holding.written
  have code := recorded.live.bytes_eq
  dsimp only at now code
  rw [order] at now code
  exact ⟨old, ws, bytes_of_written written, bytes_of_written now, recorded.replayed, code,
    recorded.clean⟩

/-- A segment with five bytes of code in storage for eight words. -/
def begun : Segment := ⟨Array.replicate 32 7, 5, .big⟩

/-- Behind the five bytes, filled up to sixteen, a branch forward is written, and a word behind it.
Binding the label fills in the branch; binding a label from elsewhere has failed before. -/
theorem replay_log_eq_code_behind :
    let ops : List Operation :=
      [.newLabel, .branchTo .always ⟨0⟩, .bind ⟨7⟩, .word 0x60000000, .bind ⟨0⟩]
    let old : List UInt8 := List.replicate 5 7 ++ List.replicate 11 0
    let code : List UInt8 := [0x48, 0, 0, 8, 0x60, 0, 0, 0]
    Used begun ∧ ∃ x s', Assembler.start .ppc64 begun = .ok x s' ∧ s'.bytes = .ok old ∧
      let a := Operation.performAll ⟨s', x⟩ ops
      a.assembler.log =
        #[.emitted 0 0x48000000, .emitted 4 0x60000000, .patched 0 0x48000008] ∧
      a.segment.bytes = .ok (old ++ code) ∧ a.assembler.buffer.bytes a.segment = .ok code ∧
      OnlyFillsIn a.assembler.log.toList := by
  intro ops old code
  have used : Used begun :=
    .shared (.code (List.replicate 32 7) .big (by decide)) (.cut ⟨0⟩ 5 (by decide) (by decide))
  have started : Assembler.start .ppc64 begun = .ok _ _ := rfl
  obtain ⟨before, ws, first, whole, replayed, own, clean⟩ := replay_log_eq_code used started ops
  cases (show Except.ok old = _ from rfl).trans first
  cases (show some [0x48000008, 0x60000000] = replay _ from rfl).trans replayed
  exact ⟨used, _, _, started, first, rfl, whole, own, clean⟩

end PowerAsm.Proofs.Replay
