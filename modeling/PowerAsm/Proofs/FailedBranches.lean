import PowerAsm.Proofs.Recovery
import PowerAsm.Proofs.SharedSegments

/-! What a branch leaves behind that could not be written. The code, the offset and the log are as
they were. If the label was not bound, however, the branch waits for it all the same, at the end of
the code, where the next word will stand: binding the label later rewrites that word, whatever it
is. Apart from this, binding a label rewrites nothing but branches to it. -/
namespace PowerAsm.Proofs.FailedBranches
open Segment Storage Integers Branches Labels Writing Operations Recovery SharedSegments

/-- The call is for a branch to a label. -/
def IsBranch : Call → Prop
  | .branchTo _ _ | .branchIf _ _ _ => True
  | .newLabel | .word _ | .bind _ => False

/-- The assembler with one more branch that waits for the label, at the end of the code. -/
def withSite (a : Assembly) (branch : Branch) (l : Label) (pending : List PatchSite) : Assembly :=
  withState a l ⟨none, pending ++ [⟨a.assembler.buffer.length a.segment, branch.form⟩]⟩

/-- What the assembler is after a call for a branch that failed when the segment held these
bytes. -/
inductive Remains (c : Call) (a : Assembly) (bytes : List UInt8) : Fault → Assembly → Prop
  | nothing {e : Fault} (settled : ∀ branch l, c.branch? = some (branch, l) → ¬ Free a l) :
    Remains c a bytes e a
  | waiting {e : Fault} {branch : Branch} {l : Label} {pending : List PatchSite}
      (leads : c.branch? = some (branch, l))
      (free : stateOf? a.assembler.labels l = some ⟨none, pending⟩)
      (cause : ¬ FieldsFit branch ∨ e = .outOfBounds ∧ 2 ^ 62 < bytes.length + 4) :
    Remains c a bytes e (withSite a branch l pending)

section Failure
variable {a b : Assembly} {bytes : List UInt8} {e : Fault}

theorem emitEncoded_failed {x : Except Fault Word} (written : Written a.segment bytes)
    (sturdy : Sturdy a.segment.storage.size) (failed : Asm.emitEncoded x a = .error e b) :
    b = a ∧ (x = .error e ∨ e = .outOfBounds ∧ 2 ^ 62 < bytes.length + 4) := by
  cases x with
  | error f =>
    rw [emitEncoded_error rfl] at failed
    cases failed
    exact ⟨rfl, .inl rfl⟩
  | ok w =>
    rw [emitEncoded_ok rfl] at failed
    obtain ⟨same, full⟩ := emit_error written sturdy failed
    exact ⟨same, .inr full⟩

theorem remains_of_branchTo {c : Call} {branch : Branch} {l : Label}
    (leads : c.branch? = some (branch, l)) (written : Written a.segment bytes)
    (sturdy : Sturdy a.segment.storage.size) (failed : Asm.branchTo branch l a = .error e b) :
    Remains c a bytes e b := by
  have nothing (taken : ¬ Free a l) : Remains c a bytes e a := by
    refine .nothing fun branch' l' leads' => ?_
    cases leads.symm.trans leads'
    exact taken
  cases found : stateOf? a.assembler.labels l with
  | none =>
    rw [branchTo_foreign found] at failed
    cases failed
    exact nothing (by simp [Free, found])
  | some state =>
    obtain ⟨bound, pending⟩ := state
    cases bound with
    | some dest =>
      rw [branchTo_bound found] at failed
      obtain ⟨rfl, -⟩ := emitEncoded_failed written sturdy failed
      exact nothing (by simp [Free, found])
    | none =>
      rw [branchTo_free found] at failed
      obtain ⟨rfl, cause⟩ :=
        emitEncoded_failed (a := withSite a branch l pending) written sturdy failed
      refine .waiting leads found (cause.imp_left fun unfit fit => ?_)
      rw [encode_zero fit] at unfit
      cases unfit

/-- A branch that fails leaves nothing, unless it is to a label that is not bound. -/
theorem branch_remains {c : Call} (isBranch : IsBranch c) (written : Written a.segment bytes)
    (sturdy : Sturdy a.segment.storage.size) (failed : c.run a = .error e b) :
    Remains c a bytes e b := by
  cases leads : c.branch? with
  | some way =>
    rw [Call.run_branch leads] at failed
    exact remains_of_branchTo leads written sturdy failed
  | none =>
    cases c with
    | branchIf cr code l =>
      rw [Call.run_unknown leads] at failed
      cases failed
      refine .nothing fun branch l' leads' => ?_
      cases leads.symm.trans leads'
    | branchTo branch l => cases leads
    | newLabel | word w | bind l => cases isBranch

end Failure

/-- The byte of the segment belongs to the word at this offset of the buffer. -/
def OfWord (b : Buffer) (offset : Int64) (j : Nat) : Prop :=
  (b.start + offset).toInt ≤ j ∧ j < (b.start + offset).toInt + 4

/-- Nothing is changed in the segment but words at some of these offsets. -/
structure Rewritten (offsets : Int64 → Prop) (a b : Assembly) : Prop where
  buffer : b.assembler.buffer = a.assembler.buffer
  size : b.segment.size = a.segment.size
  capacity : b.segment.storage.size = a.segment.storage.size
  bytes : ∀ j, (∀ o, offsets o → ¬ OfWord a.assembler.buffer o j) →
    b.segment.storage[j]? = a.segment.storage[j]?

namespace Rewritten
variable {offsets offsets' : Int64 → Prop} {a b c : Assembly}

theorem refl (offsets : Int64 → Prop) (a : Assembly) : Rewritten offsets a a :=
  ⟨rfl, rfl, rfl, fun _ _ => rfl⟩

theorem trans (first : Rewritten offsets a b) (second : Rewritten offsets b c) :
    Rewritten offsets a c := by
  refine ⟨second.buffer.trans first.buffer, second.size.trans first.size,
    second.capacity.trans first.capacity, fun j outside => ?_⟩
  refine (second.bytes j ?_).trans (first.bytes j outside)
  rwa [first.buffer]

theorem mono (rewritten : Rewritten offsets a b) (more : ∀ o, offsets o → offsets' o) :
    Rewritten offsets' a b :=
  { rewritten with bytes := fun j outside => rewritten.bytes j fun o here => outside o (more o here) }

end Rewritten

theorem Rewritten.written {offsets : Int64 → Prop} {a b : Assembly} {bytes : List UInt8}
    (rewritten : Rewritten offsets a b) (written : Written a.segment bytes) :
    ∃ bytes', Written b.segment bytes' ∧ bytes'.length = bytes.length ∧
      ∀ j, bytes'[j]? ≠ bytes[j]? → ∃ o, offsets o ∧ OfWord a.assembler.buffer o j := by
  have inside := written.length_le
  have capacity := rewritten.capacity
  have stored : b.segment.storage.toList.length = b.segment.storage.size := Array.length_toList
  have length : (b.segment.storage.toList.take bytes.length).length = bytes.length :=
    List.length_take_of_le (by omega)
  refine ⟨b.segment.storage.toList.take bytes.length, ⟨?_, ?_, ?_⟩, length, fun j changed => ?_⟩
  · rw [rewritten.size, written.size, length]
  · rw [length]
  · rw [capacity]
    exact written.bounded
  · by_contra none
    have same := rewritten.bytes j fun o here spot => none ⟨o, here, spot⟩
    apply changed
    rw [← written.stored, List.getElem?_take, List.getElem?_take, Array.getElem?_toList,
      Array.getElem?_toList, same, written.stored]

theorem overwrite_outside (storage : Array UInt8) (position : Nat) (new : List UInt8) {j : Nat}
    (outside : j < position ∨ position + new.length ≤ j) :
    (overwrite storage position new)[j]? = storage[j]? := by
  induction new generalizing storage position with
  | nil => rfl
  | cons b rest ih =>
    rw [List.length_cons] at outside
    rw [overwrite, ih _ _ (by omega), Array.getElem?_setIfInBounds_ne (by omega)]

theorem store_cases (first last : Int64) (bytes : List UInt8) (s : Segment) :
    after (store first last bytes s) = s ∨ 0 ≤ first.toInt ∧
      after (store first last bytes s) =
        { s with storage := overwrite s.storage first.toInt.toNat bytes } := by
  rw [store_eq]
  split
  · rename_i inside
    exact .inr ⟨((holds_iff _ _ _).mp inside).1, rfl⟩
  · exact .inl rfl

theorem putWordAt_cases (b : Buffer) (offset : Int64) (w : Word) (s : Segment) :
    after (b.putWordAt offset w s) = s ∨ 0 ≤ (b.start + offset).toInt ∧
      after (b.putWordAt offset w s) = { s with
        storage := overwrite s.storage (b.start + offset).toInt.toNat (s.order.bytes w) } := by
  rw [putWordAt_eq]
  cases b.checkWord s offset with
  | error e => exact .inl rfl
  | ok u => exact store_cases _ _ _ s

/-- Filling in a branch replaces its word, or changes nothing. -/
theorem patch_cases (dest : Int64) (site : PatchSite) (a : Assembly) :
    after (Asm.patch dest site a) = a ∨ ∃ w log, after (Asm.patch dest site a) =
      ⟨after (a.assembler.buffer.putWordAt site.offset w a.segment), { a.assembler with log }⟩ := by
  rw [patch_eq]
  cases a.assembler.buffer.wordAt a.segment site.offset with
  | error e => exact .inl rfl
  | ok old =>
    dsimp only
    cases Asm.patchedWord old site dest with
    | error e => exact .inl rfl
    | ok w =>
      dsimp only
      cases ran : a.assembler.buffer.putWordAt site.offset w a.segment with
      | error e s => exact .inr ⟨w, a.assembler.log, by rw [ran]; rfl⟩
      | ok u s => exact .inr ⟨w, _, by rw [ran]; rfl⟩

theorem patch_labels (dest : Int64) (site : PatchSite) (a : Assembly) :
    (after (Asm.patch dest site a)).assembler.labels = a.assembler.labels := by
  rcases patch_cases dest site a with same | ⟨w, log, patched⟩
  · rw [same]
  · rw [patched]

theorem patch_rewritten (dest : Int64) (site : PatchSite) (a : Assembly) :
    Rewritten (· = site.offset) a (after (Asm.patch dest site a)) := by
  rcases patch_cases dest site a with same | ⟨w, log, patched⟩
  · rw [same]
    exact .refl _ a
  · rw [patched]
    rcases putWordAt_cases a.assembler.buffer site.offset w a.segment with same | ⟨above, put⟩
    · rw [same]
      exact ⟨rfl, rfl, rfl, fun _ _ => rfl⟩
    · rw [put]
      refine ⟨rfl, rfl, overwrite_size _ _ _, fun j outside => ?_⟩
      have apart := outside site.offset rfl
      apply overwrite_outside
      rw [length_bytes]
      unfold OfWord at apart
      omega

/-- Filling in branches changes their words only. -/
theorem patchAll_rewritten (dest : Int64) (sites : List PatchSite) (a : Assembly) :
    Rewritten (fun o => ∃ site ∈ sites, site.offset = o) a
        (after (sites.forM (Asm.patch dest) a)) ∧
      (after (sites.forM (Asm.patch dest) a)).assembler.labels = a.assembler.labels := by
  induction sites generalizing a with
  | nil => exact ⟨.refl _ a, rfl⟩
  | cons site rest ih =>
    have first : Rewritten (fun o => ∃ site' ∈ site :: rest, site'.offset = o) a
        (after (Asm.patch dest site a)) :=
      (patch_rewritten dest site a).mono fun o here => ⟨site, List.mem_cons_self, here.symm⟩
    have labels := patch_labels dest site a
    rw [List.forM, bind_apply]
    cases ran : Asm.patch dest site a with
    | error e b =>
      rw [ran] at first labels
      exact ⟨first, labels⟩
    | ok u b =>
      rw [ran] at first labels
      obtain ⟨later, same⟩ := ih b
      refine ⟨first.trans (later.mono ?_), same.trans labels⟩
      rintro o ⟨site', member, here⟩
      exact ⟨site', List.mem_cons_of_mem _ member, here⟩

/-- Binding a label rewrites the branches that wait for it. -/
theorem bind_rewritten {a : Assembly} {l : Label} {pending : List PatchSite}
    (free : stateOf? a.assembler.labels l = some ⟨none, pending⟩) :
    Rewritten (fun o => ∃ site ∈ pending, site.offset = o) a (after (Asm.bind l a)) ∧
      ∃ dest left, (after (Asm.bind l a)).assembler.labels =
        a.assembler.labels.setIfInBounds l.index ⟨some dest, left⟩ := by
  obtain ⟨rewritten, labels⟩ := patchAll_rewritten (a.assembler.buffer.length a.segment) pending
    (withState a l ⟨some (a.assembler.buffer.length a.segment), pending⟩)
  rw [bind_free free, bind_apply]
  cases ran : pending.forM (Asm.patch (a.assembler.buffer.length a.segment))
      (withState a l ⟨some (a.assembler.buffer.length a.segment), pending⟩) with
  | error e b =>
    rw [ran] at rewritten labels
    exact ⟨⟨rewritten.buffer, rewritten.size, rewritten.capacity, rewritten.bytes⟩, _, _, labels⟩
  | ok u b =>
    rw [ran] at rewritten labels
    refine ⟨⟨rewritten.buffer, rewritten.size, rewritten.capacity, rewritten.bytes⟩, ?_⟩
    refine ⟨a.assembler.buffer.length a.segment, [], ?_⟩
    simp only [after_ok, setLabelState_apply, withState] at labels ⊢
    rw [labels, Array.setIfInBounds_setIfInBounds]

/-- How a call turns what is known of labels into something else, whether it succeeds or fails. -/
inductive Relabelled (c : Call) (a : Assembly) : Array LabelState → Prop
  | same : Relabelled c a a.assembler.labels
  | created : Relabelled c a (a.assembler.labels.push ⟨none, []⟩)
  | waits {branch : Branch} {l : Label} {pending : List PatchSite}
      (leads : c.branch? = some (branch, l))
      (free : stateOf? a.assembler.labels l = some ⟨none, pending⟩) :
    Relabelled c a (withSite a branch l pending).assembler.labels
  | bound {l : Label} {pending left : List PatchSite} {dest : Int64}
      (free : stateOf? a.assembler.labels l = some ⟨none, pending⟩) :
    Relabelled c a (a.assembler.labels.setIfInBounds l.index ⟨some dest, left⟩)

theorem emit_labels (w : Word) (a : Assembly) :
    (after (Asm.emit w a)).assembler.labels = a.assembler.labels := by
  rw [emit_eq]
  cases append (a.segment.order.bytes w) a.segment <;> rfl

theorem emitEncoded_labels (x : Except Fault Word) (a : Assembly) :
    (after (Asm.emitEncoded x a)).assembler.labels = a.assembler.labels := by
  cases x with
  | error e => rfl
  | ok w =>
    rw [emitEncoded_ok rfl]
    exact emit_labels w a

theorem branchTo_relabelled {c : Call} {a : Assembly} {branch : Branch} {l : Label}
    (leads : c.branch? = some (branch, l)) :
    Relabelled c a (after (Asm.branchTo branch l a)).assembler.labels := by
  cases found : stateOf? a.assembler.labels l with
  | none =>
    rw [branchTo_foreign found]
    exact .same
  | some state =>
    obtain ⟨bound, pending⟩ := state
    cases bound with
    | some dest =>
      rw [branchTo_bound found, emitEncoded_labels]
      exact .same
    | none =>
      rw [branchTo_free found, emitEncoded_labels]
      exact .waits leads found

theorem bind_relabelled (c : Call) (l : Label) (a : Assembly) :
    Relabelled c a (after (Asm.bind l a)).assembler.labels := by
  cases found : stateOf? a.assembler.labels l with
  | none =>
    rw [bind_foreign found]
    exact .same
  | some state =>
    obtain ⟨bound, pending⟩ := state
    cases bound with
    | some dest =>
      rw [bind_bound found]
      exact .same
    | none =>
      obtain ⟨-, dest, left, labels⟩ := bind_rewritten found
      rw [labels]
      exact .bound found

theorem run_relabelled (c : Call) (a : Assembly) :
    Relabelled c a (after (c.run a)).assembler.labels := by
  cases leads : c.branch? with
  | some way =>
    rw [Call.run_branch leads]
    exact branchTo_relabelled leads
  | none =>
    cases c with
    | newLabel => exact .created
    | word w =>
      rw [Call.run, emit_labels]
      exact .same
    | branchTo branch l => cases leads
    | branchIf cr code l =>
      rw [Call.run_unknown leads]
      exact .same
    | bind l => exact bind_relabelled _ l a

/-- The calls that an assembler has come by to where it is, each with the assembler that it was
made on. Frames may have been opened and closed and the segment may have been shared between any two
of them. -/
inductive History : List (Assembly × Call) → Assembly → Prop
  | start {s s' : Segment} {t : Target} {assembler : Assembler} (used : Used s)
      (ran : Assembler.start t s = .ok assembler s') : History [] ⟨s', assembler⟩
  | call {calls : List (Assembly × Call)} {a : Assembly} (history : History calls a) (c : Call) :
    History (calls ++ [(a, c)]) (after (c.run a))
  | frames {calls : List (Assembly × Call)} {a : Assembly} (history : History calls a)
      (frames : Array OpenFrame) : History calls ⟨a.segment, { a.assembler with frames }⟩
  | shared {calls : List (Assembly × Call)} {a : Assembly} {s : Segment}
      (history : History calls a) (step : Shares a.segment s) : History calls ⟨s, a.assembler⟩

/-- Every operation is made of calls. -/
theorem lasting_history : Lasting fun a => ∃ calls, History calls a where
  emit := fun w => keeps_of_state (stable_true.emit w)
    fun _ ⟨_, history⟩ => ⟨_, history.call (.word w)⟩
  newLabel := keeps_of_state stable_true.lasting.newLabel
    fun _ ⟨_, history⟩ => ⟨_, history.call .newLabel⟩
  branchTo := fun branch l => keeps_of_state (stable_true.lasting.branchTo branch l)
    fun _ ⟨_, history⟩ => ⟨_, history.call (.branchTo branch l)⟩
  bind := fun l => keeps_of_state (stable_true.lasting.bind l)
    fun _ ⟨_, history⟩ => ⟨_, history.call (.bind l)⟩
  frames := fun _ frames ⟨_, history⟩ => ⟨_, history.frames frames⟩

theorem exists_history {a : Assembly} (reachable : Reachable a) : ∃ calls, History calls a := by
  induction reachable with
  | start used ran => exact ⟨[], .start used ran⟩
  | operation reachable op ih => exact lasting_history.perform _ ih op
  | shared reachable step ih =>
    obtain ⟨calls, history⟩ := ih
    exact ⟨calls, history.shared step⟩

/-- A branch to this label was asked for at this offset when the label was not bound, and was
written or has failed. -/
def Asked (calls : List (Assembly × Call)) (l : Label) (o : Int64) (ok : Bool) : Prop :=
  ∃ a c branch, (a, c) ∈ calls ∧ c.branch? = some (branch, l) ∧ Free a l ∧
    Asm.offset a = .ok o a ∧ succeeded (c.run a) = ok

theorem Asked.mono {calls calls' : List (Assembly × Call)} {l : Label} {o : Int64} {ok : Bool}
    (asked : Asked calls l o ok) (more : calls ⊆ calls') : Asked calls' l o ok := by
  obtain ⟨a, c, branch, member, rest⟩ := asked
  exact ⟨a, c, branch, more member, rest⟩

/-- Every branch that waits for a label was asked for. -/
def Accounted (calls : List (Assembly × Call)) (labels : Array LabelState) : Prop :=
  ∀ l pending, stateOf? labels l = some ⟨none, pending⟩ →
    ∀ site ∈ pending, ∃ ok, Asked calls l site.offset ok

theorem Relabelled.accounted {calls : List (Assembly × Call)} {a : Assembly} {c : Call}
    {labels : Array LabelState} (relabelled : Relabelled c a labels)
    (accounted : Accounted calls a.assembler.labels) : Accounted (calls ++ [(a, c)]) labels := by
  have before (l : Label) (pending : List PatchSite)
      (free : stateOf? a.assembler.labels l = some ⟨none, pending⟩) (site : PatchSite)
      (member : site ∈ pending) : ∃ ok, Asked (calls ++ [(a, c)]) l site.offset ok := by
    obtain ⟨ok, asked⟩ := accounted l pending free site member
    exact ⟨ok, asked.mono (List.subset_append_left _ _)⟩
  intro l pending free
  cases relabelled with
  | same => exact before l pending free
  | created =>
    rcases stateOf?_push a.assembler.labels ⟨none, []⟩ l with same | ⟨-, new⟩
    · exact before l pending (same.symm.trans free)
    · cases new.symm.trans free
      exact nofun
  | @waits branch l₀ pending₀ leads free₀ =>
    rw [withSite, withState, stateOf?_set free₀] at free
    split at free
    · rename_i same
      subst same
      cases free
      intro site member
      rcases List.mem_append.mp member with old | new
      · exact before l pending₀ free₀ site old
      · rw [List.mem_singleton.mp new]
        exact ⟨_, a, c, branch, List.mem_append_right _ (.head _), leads, ⟨_, free₀⟩,
          offset_apply a, rfl⟩
    · exact before l pending free
  | bound free₀ =>
    rw [stateOf?_set free₀] at free
    split at free
    · cases free
    · exact before l pending free

theorem History.accounted {calls : List (Assembly × Call)} {a : Assembly}
    (history : History calls a) : Accounted calls a.assembler.labels := by
  induction history with
  | start used ran =>
    obtain ⟨first, s, -, rest⟩ := bind_ok ran
    cases rest
    intro l pending free
    cases (Option.ite_none_left_eq_some.mp free).2
  | call history c ih => exact (run_relabelled c _).accounted ih
  | frames history frames ih => exact ih
  | shared history step ih => exact ih

theorem History.runAll {calls : List (Assembly × Call)} {a : Assembly} (history : History calls a)
    (rest : List Call) : History (calls ++ trail a rest) (runAll a rest) := by
  induction rest generalizing calls a with
  | nil => rwa [trail, List.append_nil]
  | cons c rest ih =>
    have later := ih (history.call c)
    rwa [List.append_assoc] at later

/-- Binding a label rewrites a word only where a branch to the label was asked for. -/
theorem bind_rewrites_asked {calls : List (Assembly × Call)} {a : Assembly}
    (history : History calls a) (l : Label) :
    Rewritten (fun o => ∃ ok, Asked calls l o ok) a (after (Asm.bind l a)) := by
  cases found : stateOf? a.assembler.labels l with
  | none =>
    rw [bind_foreign found]
    exact .refl _ a
  | some state =>
    obtain ⟨bound, pending⟩ := state
    cases bound with
    | some dest =>
      rw [bind_bound found]
      exact .refl _ a
    | none =>
      refine (bind_rewritten found).1.mono ?_
      rintro o ⟨site, member, rfl⟩
      exact history.accounted l pending found site member

/-- A branch to a label that fails leaves the assembler as it was, if the label is bound or does not
exist. If the label is not bound, all that is left of the branch is that it waits for the label.
Hence a label that is bound rewrites words only where a branch to it was written, or has failed,
when the label was not bound. -/
theorem failed_branch_remains {a : Assembly} (reachable : Reachable a) :
    ∃ bytes, a.segment.bytes = .ok bytes ∧
      (∀ c e b, IsBranch c → c.run a = .error e b → Remains c a bytes e b) ∧
      (∃ calls, History calls a) ∧
      ∀ calls l, History calls a → ∃ bytes', (after (Asm.bind l a)).segment.bytes = .ok bytes' ∧
        bytes'.length = bytes.length ∧ ∀ j, bytes'[j]? ≠ bytes[j]? →
          ∃ o, (∃ ok, Asked calls l o ok) ∧ OfWord a.assembler.buffer o j := by
  obtain ⟨bytes, written⟩ := reachable.intact.written
  refine ⟨bytes, bytes_of_written written, ?_, exists_history reachable, ?_⟩
  · intro c e b isBranch failed
    exact branch_remains isBranch written reachable.intact.sturdy failed
  · intro calls l history
    obtain ⟨bytes', written', rest⟩ := (bind_rewrites_asked history l).written written
    exact ⟨bytes', bytes_of_written written', rest⟩

/-- A branch that has no word, and then a word that looks like a branch. -/
def lured : List Call :=
  [.newLabel, .branchTo (.conditional 32 0) ⟨0⟩, .word 0x41820000#32]

theorem used_roomy : Used roomy.segment :=
  .shared (.code (List.replicate 16 0) .big (by decide)) (.cut ⟨0⟩ 0 (by decide) (by decide))

theorem reachable_lured : Reachable (runAll roomy lured) :=
  .operation (.operation (.operation (.start (t := .ppc64) used_roomy rfl) .newLabel)
    (.branchTo (.conditional 32 0) ⟨0⟩)) (.word 0x41820000#32)

theorem failed_branch_remains_lured :
    Reachable (runAll roomy lured) ∧ History (trail roomy lured) (runAll roomy lured) ∧
    (∃ e b bytes, Asm.branchTo (.conditional 0 77) ⟨0⟩ (runAll roomy lured) = .error e b ∧
      Remains (.branchTo (.conditional 0 77) ⟨0⟩) (runAll roomy lured) bytes e b) ∧
    (after (Asm.bind ⟨0⟩ (runAll roomy lured))).segment.bytes = .ok [0x41, 0x82, 0, 4] ∧
    ∃ o, (∃ ok, Asked (trail roomy lured) ⟨0⟩ o ok) ∧ OfWord roomy.assembler.buffer o 3 := by
  have history : History (trail roomy lured) (runAll roomy lured) :=
    History.runAll (.start (t := .ppc64) used_roomy rfl) lured
  obtain ⟨bytes, held, remains, -, rewrites⟩ := failed_branch_remains reachable_lured
  obtain ⟨bytes', held', -, changed⟩ := rewrites _ ⟨0⟩ history
  have before : (runAll roomy lured).segment.bytes = .ok [0x41, 0x82, 0, 0] := rfl
  have after : (after (Asm.bind ⟨0⟩ (runAll roomy lured))).segment.bytes =
    .ok [0x41, 0x82, 0, 4] := rfl
  cases held.symm.trans before
  cases held'.symm.trans after
  exact ⟨reachable_lured, history, ⟨_, _, _, rfl, remains _ _ _ trivial rfl⟩, after,
    changed 3 (by decide)⟩

/-- The branch that fails changes what is known of its label, so that a word is rewritten although
no branch was written. -/
theorem failed_branch_rewrites_word :
    (∃ e b, Reachable (runAll roomy [.newLabel]) ∧
      Asm.branchTo (.conditional 32 0) ⟨0⟩ (runAll roomy [.newLabel]) = .error e b ∧
      (runAll roomy [.newLabel]).assembler.labels = #[⟨none, []⟩] ∧
      b.assembler.labels = #[⟨none, [⟨0, .b⟩]⟩]) ∧
    (runAll roomy lured).segment.bytes = .ok [0x41, 0x82, 0, 0] ∧
    (∀ a c branch l, (a, c) ∈ trail roomy lured → c.branch? = some (branch, l) →
      succeeded (c.run a) = false) ∧
    ∃ b, Asm.finalize (runAll roomy (lured ++ [.bind ⟨0⟩])) = .ok [0x41, 0x82, 0, 4] b := by
  have started : Reachable roomy := .start (t := .ppc64) used_roomy rfl
  refine ⟨⟨_, _, .operation started .newLabel, rfl, rfl, rfl⟩, rfl, ?_, _, rfl⟩
  intro a c branch l member leads
  simp only [lured, trail, List.mem_cons, Prod.mk.injEq, List.not_mem_nil, or_false] at member
  rcases member with ⟨-, rfl⟩ | ⟨rfl, rfl⟩ | ⟨-, rfl⟩
  · cases leads
  · rfl
  · cases leads

end PowerAsm.Proofs.FailedBranches
