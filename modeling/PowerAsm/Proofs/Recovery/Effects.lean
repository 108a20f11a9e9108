import PowerAsm.Proofs.Operations
import PowerAsm.Proofs.Writing

/-! What calls to an assembler with labels do, one by one, whether they succeed or fail. A call
that fails has changed what it had come to: a label that could not be bound to the end counts as
bound, and a branch that could not be written still waits for its label. -/
namespace PowerAsm.Proofs.Recovery
open Segment Storage Integers Branches Labels Writing Operations

/-- What is asked of an assembler with labels. -/
inductive Call where
  | newLabel
  | word (w : Word)
  | branchTo (branch : Branch) (l : Label)
  | branchIf (cr : CrField) (code : UInt8) (l : Label)
  | bind (l : Label)

namespace Call

def run : Call → Asm Unit
  | .newLabel => do let _ ← Asm.newLabel
  | .word w => Asm.emit w
  | .branchTo branch l => Asm.branchTo branch l
  | .branchIf cr code l => do Asm.branchIf cr (← condition code) l
  | .bind l => Asm.bind l

/-- The branch that is to be written, and its label. A condition that does not exist has none. -/
def branch? : Call → Option (Branch × Label)
  | .branchTo branch l => some (branch, l)
  | .branchIf cr code l => (Condition.ofCode? code).map fun c =>
    (.conditional (branchOption c.onSet) (cr.bit c.bit), l)
  | .newLabel | .word _ | .bind _ => none

theorem run_branch {c : Call} {branch : Branch} {l : Label} (leads : c.branch? = some (branch, l)) :
    c.run = Asm.branchTo branch l := by
  cases c with
  | branchTo b dest =>
    cases leads
    rfl
  | branchIf cr code dest =>
    obtain ⟨condition, known, same⟩ := Option.map_eq_some_iff.mp leads
    cases same
    simp only [run, Operations.condition, known]
    rfl
  | newLabel | word w | bind dest => cases leads

theorem run_unknown {cr : CrField} {code : UInt8} {l : Label}
    (unknown : (branchIf cr code l).branch? = none) (a : Assembly) :
    (branchIf cr code l).run a = .error (.unknownCondition code) a := by
  have none : Condition.ofCode? code = none := Option.map_eq_none_iff.mp unknown
  simp only [run, Operations.condition, none]
  rfl

end Call

/-- The assembler after calls one after the other, those that fail included. -/
def runAll (a : Assembly) (calls : List Call) : Assembly :=
  calls.foldl (fun a c => after (c.run a)) a

/-- The calls with the assemblers that they were made on. -/
def trail (a : Assembly) : List Call → List (Assembly × Call)
  | [] => []
  | c :: rest => (a, c) :: trail (after (c.run a)) rest

theorem trail_append (a : Assembly) (before rest : List Call) :
    trail a (before ++ rest) = trail a before ++ trail (runAll a before) rest := by
  induction before generalizing a with
  | nil => rfl
  | cons c before ih => exact congrArg _ (ih _)

theorem split_of_mem_trail {a b : Assembly} {c : Call} {calls : List Call}
    (member : (b, c) ∈ trail a calls) :
    ∃ before rest, calls = before ++ c :: rest ∧ b = runAll a before := by
  induction calls generalizing a with
  | nil => cases member
  | cons first calls ih =>
    rcases List.mem_cons.mp member with same | later
    · cases same
      exact ⟨[], calls, rfl, rfl⟩
    · obtain ⟨before, rest, rfl, rfl⟩ := ih later
      exact ⟨first :: before, rest, rfl, rfl⟩

/-- The label is not bound. -/
def Free (a : Assembly) (l : Label) : Prop :=
  ∃ pending, stateOf? a.assembler.labels l = some ⟨none, pending⟩

/-- What an assembler is that was started as `origin` behind these bytes and has written `ws`. -/
structure Live (origin : Assembly) (bytes : List UInt8) (ws : List Word) (a : Assembly) :
    Prop where
  holding : Holding origin bytes ws a.assembler.labels.toList a
  sturdy : Sturdy a.segment.storage.size
  whole : Whole origin bytes 0
  unlabelled : origin.assembler.labels = #[]

section Live
variable {origin a : Assembly} {bytes : List UInt8} {ws : List Word}

/-- Nothing depends on what is known of labels and frames, or on the log. -/
theorem Live.elsewhere (live : Live origin bytes ws a) (labels : Array LabelState)
    (frames : Array OpenFrame) (log : Array Event) :
    Live origin bytes ws ⟨a.segment, { a.assembler with labels, frames, log }⟩ := by
  obtain ⟨holding, sturdy, whole, unlabelled⟩ := live
  refine ⟨⟨holding.written, holding.order, holding.room, holding.target, holding.buffer, ?_⟩,
    sturdy, whole, unlabelled⟩
  rw [unlabelled]
  rfl

theorem Live.withLabels (live : Live origin bytes ws a) (labels : Array LabelState) :
    Live origin bytes ws ⟨a.segment, { a.assembler with labels }⟩ :=
  live.elsewhere labels a.assembler.frames a.assembler.log

/-- The code is what stands in the segment behind the bytes. -/
theorem Live.bytes_eq (live : Live origin bytes ws a) :
    a.assembler.buffer.bytes a.segment = .ok (ws.flatMap origin.segment.order.bytes) := by
  have holding := live.holding
  have first := live.whole.words
  have size := holding.written.size
  have total := length_append_code bytes origin.segment.order ws
  rw [Buffer.bytes, holding.buffer, slice_written holding.written (by omega) (by omega) (by omega),
    size, Int.toNat_natCast, List.take_length, List.drop_left']
  omega

end Live

/-- An assembler can be started on a segment only where it can write. -/
theorem start_live {target : Target} {s s' : Segment} {x : Assembler}
    (bounded : s.storage.size < 2 ^ 63) (sturdy : Sturdy s.storage.size)
    (started : Assembler.start target s = .ok x s') :
    ∃ bytes, Live ⟨s', x⟩ bytes [] ⟨s', x⟩ ∧ s'.order = s.order := by
  obtain ⟨first, s₁, next, rest⟩ := bind_ok started
  cases rest
  obtain ⟨s₂, s₃, got, next⟩ := bind_ok next
  cases got
  obtain ⟨_, s₄, appended, ended⟩ := bind_ok next
  cases ended
  have few : (List.replicate (missing s.size) (0 : UInt8)).length < 2 ^ 63 := by
    rw [List.length_replicate, missing]
    omega
  obtain ⟨bytes, written⟩ := written_of_append bounded appended
  obtain ⟨s₅, appended', kept, order, sturdy'⟩ :=
    append_sturdy written sturdy (room_of_append written few appended)
  cases appended.symm.trans appended'
  have size := kept.size
  refine ⟨_, ⟨holding_origin kept, sturdy', ⟨?_, ?_⟩, rfl⟩, order⟩
  · show 0 ≤ s'.size.toInt
    omega
  · show s'.size.toInt + 4 * (0 : Nat) = _
    omega

/-- Filling in the branches at these places, from the first on, turns the words `ws` into others.
It stops before the first that cannot be filled in. -/
inductive Filled (dest : Int64) : List PatchSite → List Word → Bool → List Word → Prop
  | done (ws : List Word) : Filled dest [] ws true ws
  | stopped (site : PatchSite) (rest : List PatchSite) (ws : List Word) :
    Filled dest (site :: rest) ws false ws
  | next {i : Nat} {form : Form} {rest : List PatchSite} {ws ws' : List Word} {w : Word}
      {complete : Bool} (inside : i < ws.length)
      (filled : Asm.patchedWord ws[i] ⟨Int64.ofNat (4 * i), form⟩ dest = .ok w)
      (later : Filled dest rest (ws.set i w) complete ws') :
    Filled dest (⟨Int64.ofNat (4 * i), form⟩ :: rest) ws complete ws'

/-- How a call that succeeds, or does not, turns words and labels into others. -/
inductive Effect (c : Call) (ws : List Word) (labels : Array LabelState) :
    Bool → List Word → Array LabelState → Prop
  | refused (unbound : ∀ l pending, c = .bind l → stateOf? labels l ≠ some ⟨none, pending⟩)
      (unwritten : ∀ branch l pending, c.branch? = some (branch, l) →
        stateOf? labels l ≠ some ⟨none, pending⟩) :
    Effect c ws labels false ws labels
  | created (new : c = .newLabel) : Effect c ws labels true ws (labels.push ⟨none, []⟩)
  | wrote {w : Word} (other : ∀ l, c ≠ .bind l)
      (leads : ∀ branch l, c.branch? = some (branch, l) → ∃ dest pending,
        stateOf? labels l = some ⟨some dest, pending⟩ ∧
          branch.encodeFromTo (Int64.ofNat (4 * ws.length)) dest = .ok w) :
    Effect c ws labels true (ws ++ [w]) labels
  | waits {branch : Branch} {l : Label} {pending : List PatchSite} {ok : Bool} {ws' : List Word}
      (leads : c.branch? = some (branch, l)) (free : stateOf? labels l = some ⟨none, pending⟩)
      (written : ok = true ∧ FieldsFit branch ∧ ws' = ws ++ [bare branch] ∨ ok = false ∧ ws' = ws) :
    Effect c ws labels ok ws' (labels.setIfInBounds l.index
      ⟨none, pending ++ [⟨Int64.ofNat (4 * ws.length), branch.form⟩]⟩)
  | binds {l : Label} {pending left : List PatchSite} {ok : Bool} {ws' : List Word}
      (asked : c = .bind l) (free : stateOf? labels l = some ⟨none, pending⟩)
      (filled : Filled (Int64.ofNat (4 * ws.length)) pending ws ok ws') :
    Effect c ws labels ok ws'
      (labels.setIfInBounds l.index ⟨some (Int64.ofNat (4 * ws.length)), left⟩)

theorem Filled.length {dest : Int64} {sites : List PatchSite} {ws ws' : List Word} {ok : Bool}
    (filled : Filled dest sites ws ok ws') : ws'.length = ws.length := by
  induction filled with
  | done | stopped => rfl
  | next inside filled later ih => rw [ih, List.length_set]

theorem Effect.length_le {c : Call} {ws ws' : List Word} {labels labels' : Array LabelState}
    {ok : Bool} (effect : Effect c ws labels ok ws' labels') :
    ws.length ≤ ws'.length := by
  cases effect with
  | refused | created => exact Nat.le_refl _
  | wrote =>
    rw [List.length_append]
    omega
  | waits leads free written =>
    rcases written with ⟨-, -, rfl⟩ | ⟨-, rfl⟩
    · rw [List.length_append]
      omega
    · exact Nat.le_refl _
  | binds asked free filled => exact Nat.le_of_eq filled.length.symm

/-- Whether an action has succeeded. -/
def succeeded {ε σ α : Type} : EStateM.Result ε σ α → Bool
  | .ok _ _ => true
  | .error _ _ => false

section Live
variable {origin a : Assembly} {bytes : List UInt8} {ws : List Word}
  (live : Live origin bytes ws a)
include live

theorem Live.place_eq {i : Nat} (inside : i ≤ ws.length) :
    place origin bytes i = Int64.ofNat (4 * i) := by
  have small := live.holding.small
  have here := live.holding.place_toInt live.whole inside
  apply Int64.toInt_inj.mp
  rw [here, Int64.toInt_ofNat_of_lt (by omega)]
  omega

theorem Live.offset : a.assembler.buffer.length a.segment = Int64.ofNat (4 * ws.length) := by
  rw [live.holding.offset, live.place_eq (Nat.le_refl _)]

theorem Live.short : 4 * ws.length + 4 < 2 ^ 63 := by
  have clear := live.sturdy.clear live.holding.written.bounded
  have kept := live.holding.written.length_le
  rw [length_append_code] at kept
  omega

theorem Live.offset_toInt {i : Nat} (inside : i ≤ ws.length) :
    (Int64.ofNat (4 * i)).toInt = 4 * i := by
  have short := live.short
  rw [Int64.toInt_ofNat_of_lt (by omega)]
  omega

/-- A word is written, or nothing changes. -/
theorem Live.emit (w : Word) :
    (∃ s, Asm.emit w a = .ok () (logged a s (.emitted (Int64.ofNat (4 * ws.length)) w)) ∧
      Live origin bytes (ws ++ [w]) (logged a s (.emitted (Int64.ofNat (4 * ws.length)) w))) ∨
      Asm.emit w a = .error .outOfBounds a ∧ 2 ^ 62 < a.segment.size.toInt + 4 := by
  have size := live.holding.written.size
  rw [← live.offset]
  rcases emit_cases live.holding.written live.sturdy w with
    ⟨s, emitted, -, -, sturdy⟩ | ⟨refused, full⟩
  · exact .inl ⟨s, emitted, live.holding.emit emitted, sturdy, live.whole, live.unlabelled⟩
  · exact .inr ⟨refused, by omega⟩

/-- A word is read at the place of one of the words only. -/
theorem Live.wordAt_ok {offset : Int64} {w : Word}
    (read : a.assembler.buffer.wordAt a.segment offset = .ok w) :
    ∃ i, ∃ inside : i < ws.length, offset = Int64.ofNat (4 * i) ∧ ws[i] = w := by
  have above := live.whole.above
  rw [← live.holding.buffer] at above
  obtain ⟨first, aligned, below⟩ := Storage.wordAt_ok above read
  rw [live.offset, live.offset_toInt (Nat.le_refl _)] at below
  have inside : (offset.toInt / 4).toNat < ws.length := by omega
  have here : offset = Int64.ofNat (4 * (offset.toInt / 4).toNat) := by
    apply Int64.toInt_inj.mp
    rw [live.offset_toInt (Nat.le_of_lt inside)]
    omega
  have found := live.holding.wordAt_place inside (live.holding.checkWord_place live.whole inside)
  rw [live.place_eq (Nat.le_of_lt inside), ← here, read] at found
  exact ⟨_, inside, here, (Except.ok.inj found).symm⟩

/-- Filling in one branch changes its word, or nothing. -/
theorem Live.patch (dest : Int64) (site : PatchSite) :
    (∃ s w i, ∃ inside : i < ws.length, site.offset = Int64.ofNat (4 * i) ∧
        Asm.patch dest site a = .ok () (logged a s (.patched site.offset w)) ∧
        Asm.patchedWord ws[i] site dest = .ok w ∧
        Live origin bytes (ws.set i w) (logged a s (.patched site.offset w))) ∨
      ∃ e, Asm.patch dest site a = .error e a := by
  cases read : a.assembler.buffer.wordAt a.segment site.offset with
  | error e => exact .inr ⟨e, by simp only [patch_eq, read]⟩
  | ok old =>
    obtain ⟨i, inside, here, rfl⟩ := live.wordAt_ok read
    cases filled : Asm.patchedWord ws[i] site dest with
    | error e => exact .inr ⟨e, by simp only [patch_eq, read, filled]⟩
    | ok w =>
      have checked := live.holding.checkWord_place live.whole inside
      obtain ⟨offset, form⟩ := site
      obtain rfl : offset = place origin bytes i :=
        here.trans (live.place_eq (Nat.le_of_lt inside)).symm
      obtain ⟨s, patched, kept, size⟩ := live.holding.patch_at inside checked filled
      refine .inl ⟨s, w, i, inside, here, patched, filled, kept, ?_, live.whole, live.unlabelled⟩
      show Sturdy s.storage.size
      rw [size]
      exact live.sturdy

/-- Filling in branches changes their words, up to the first that fails. -/
theorem Live.patchAll (dest : Int64) (sites : List PatchSite) :
    ∃ ws', Live origin bytes ws' (after (sites.forM (Asm.patch dest) a)) ∧
      (after (sites.forM (Asm.patch dest) a)).assembler.labels = a.assembler.labels ∧
      Filled dest sites ws (succeeded (sites.forM (Asm.patch dest) a)) ws' := by
  induction sites generalizing ws a with
  | nil => exact ⟨ws, live, rfl, .done ws⟩
  | cons site rest ih =>
    rw [List.forM, bind_apply]
    rcases live.patch dest site with
      ⟨s, w, i, inside, here, patched, filled, kept⟩ | ⟨e, failed⟩
    · rw [patched]
      obtain ⟨ws', last, same, done⟩ := ih kept
      obtain ⟨offset, form⟩ := site
      cases here
      exact ⟨ws', last, same, .next inside filled done⟩
    · rw [failed]
      exact ⟨ws, live, rfl, .stopped _ rest ws⟩

end Live

/-- No step of an assembler leaves part of a word behind, or touches what stood there before. -/
theorem stable_live (origin : Assembly) (bytes : List UInt8) :
    Stable fun a => ∃ ws, Live origin bytes ws a where
  emit := fun w => keeps_of_state (stable_true.emit w) <| by
    rintro a ⟨ws, live⟩
    rcases live.emit w with ⟨s, emitted, written⟩ | ⟨failed, -⟩
    · rw [emitted]
      exact ⟨ws ++ [w], written⟩
    · rw [failed]
      exact ⟨ws, live⟩
  patch := fun dest site => keeps_of_state (stable_true.patch dest site) <| by
    rintro a ⟨ws, live⟩
    rcases live.patch dest site with ⟨s, w, i, inside, -, patched, -, kept⟩ | ⟨e, failed⟩
    · rw [patched]
      exact ⟨ws.set i w, kept⟩
    · rw [failed]
      exact ⟨ws, live⟩
  labels := fun _ labels ⟨ws, live⟩ => ⟨ws, live.withLabels labels⟩
  frames := fun _ frames ⟨ws, live⟩ => ⟨ws, live.elsewhere _ frames _⟩

/-- A call that came to this result has left words, and has had an effect. -/
def Comes (origin : Assembly) (bytes : List UInt8) (c : Call) (ws : List Word) (a : Assembly)
    (result : EStateM.Result Fault Assembly Unit) : Prop :=
  ∃ ws', Live origin bytes ws' (after result) ∧
    Effect c ws a.assembler.labels (succeeded result) ws' (after result).assembler.labels

section Run
variable {origin a : Assembly} {bytes : List UInt8} {ws : List Word}
  (live : Live origin bytes ws a) {c : Call} {branch : Branch} {l : Label}
include live

theorem Live.refused
    (unbound : ∀ l pending, c = .bind l → stateOf? a.assembler.labels l ≠ some ⟨none, pending⟩)
    (unwritten : ∀ branch l pending, c.branch? = some (branch, l) →
      stateOf? a.assembler.labels l ≠ some ⟨none, pending⟩) (e : Fault) :
    Comes origin bytes c ws a (.error e a) :=
  ⟨ws, live, .refused unbound unwritten⟩

theorem Live.run_word {w : Word} (other : ∀ l, c ≠ .bind l)
    (leads : ∀ branch l, c.branch? = some (branch, l) → ∃ dest pending,
      stateOf? a.assembler.labels l = some ⟨some dest, pending⟩ ∧
        branch.encodeFromTo (Int64.ofNat (4 * ws.length)) dest = .ok w) :
    Comes origin bytes c ws a (Asm.emit w a) := by
  rcases live.emit w with ⟨s, emitted, written⟩ | ⟨failed, -⟩
  · rw [emitted]
    exact ⟨ws ++ [w], written, .wrote other leads⟩
  · rw [failed]
    refine live.refused (fun l pending same => absurd same (other l)) ?_ _
    intro branch l pending known free
    obtain ⟨dest, pending', bound, -⟩ := leads branch l known
    cases bound.symm.trans free

theorem Live.run_branch (leads : c.branch? = some (branch, l)) :
    Comes origin bytes c ws a (Asm.branchTo branch l a) := by
  have other : ∀ l, c ≠ .bind l := by
    rintro l rfl
    cases leads
  have refused (taken : ∀ pending, stateOf? a.assembler.labels l ≠ some ⟨none, pending⟩)
      (e : Fault) : Comes origin bytes c ws a (.error e a) := by
    refine live.refused (fun l pending same => absurd same (other l)) ?_ e
    intro branch' l' pending leads'
    cases leads.symm.trans leads'
    exact taken pending
  cases found : stateOf? a.assembler.labels l with
  | none =>
    rw [branchTo_foreign found]
    exact refused (by simp [found]) _
  | some state =>
    obtain ⟨bound, pending⟩ := state
    cases bound with
    | some dest =>
      rw [branchTo_bound found, live.offset]
      cases encoded : branch.encodeFromTo (Int64.ofNat (4 * ws.length)) dest with
      | error e =>
        rw [emitEncoded_error rfl]
        exact refused (by simp [found]) e
      | ok w =>
        rw [emitEncoded_ok rfl]
        refine live.run_word other ?_
        intro branch' l' leads'
        cases leads.symm.trans leads'
        exact ⟨dest, pending, found, encoded⟩
    | none =>
      have marked : Live origin bytes ws (withState a l
        ⟨none, pending ++ [⟨Int64.ofNat (4 * ws.length), branch.form⟩]⟩) := live.withLabels _
      rw [branchTo_free found, live.offset]
      rcases encode_zero_cases branch with ⟨fit, encoded⟩ | ⟨-, e, unfit, -⟩
      · rw [emitEncoded_ok encoded]
        rcases marked.emit (bare branch) with ⟨s, emitted, written⟩ | ⟨failed, -⟩
        · rw [emitted]
          exact ⟨ws ++ [bare branch], written, .waits leads found (.inl ⟨rfl, fit, rfl⟩)⟩
        · rw [failed]
          exact ⟨ws, marked, .waits leads found (.inr ⟨rfl, rfl⟩)⟩
      · rw [emitEncoded_error unfit]
        exact ⟨ws, marked, .waits leads found (.inr ⟨rfl, rfl⟩)⟩

theorem Live.run_bind : Comes origin bytes (.bind l) ws a (Asm.bind l a) := by
  have refused (taken : ∀ pending, stateOf? a.assembler.labels l ≠ some ⟨none, pending⟩)
      (e : Fault) : Comes origin bytes (.bind l) ws a (.error e a) := by
    refine live.refused ?_ ?_ e
    · rintro _ pending ⟨⟩
      exact taken pending
    · rintro branch l' pending ⟨⟩
  cases found : stateOf? a.assembler.labels l with
  | none =>
    rw [bind_foreign found]
    exact refused (by simp [found]) _
  | some state =>
    obtain ⟨bound, pending⟩ := state
    cases bound with
    | some first =>
      rw [bind_bound found]
      exact refused (by simp [found]) _
    | none =>
      have marked : Live origin bytes ws
        (withState a l ⟨some (Int64.ofNat (4 * ws.length)), pending⟩) := live.withLabels _
      obtain ⟨ws', last, labels, filled⟩ := marked.patchAll (Int64.ofNat (4 * ws.length)) pending
      rw [bind_free found, live.offset, bind_apply]
      cases ran : pending.forM (Asm.patch (Int64.ofNat (4 * ws.length)))
          (withState a l ⟨some (Int64.ofNat (4 * ws.length)), pending⟩) with
      | error e b =>
        rw [ran] at last labels filled
        refine ⟨ws', last, ?_⟩
        simp only [after_error] at labels ⊢
        rw [labels]
        exact .binds rfl found filled
      | ok u b =>
        rw [ran] at last labels filled
        refine ⟨ws', last.withLabels _, ?_⟩
        simp only [after_ok, setLabelState_apply, withState] at labels ⊢
        rw [labels, Array.setIfInBounds_setIfInBounds]
        exact .binds rfl found filled

/-- What a call does, whether it succeeds or fails. -/
theorem Live.run (c : Call) : Comes origin bytes c ws a (c.run a) := by
  cases leads : c.branch? with
  | some way =>
    rw [Call.run_branch leads]
    exact live.run_branch leads
  | none =>
    cases c with
    | newLabel => exact ⟨ws, live.withLabels _, .created rfl⟩
    | word w => exact live.run_word nofun (fun branch l => nofun)
    | branchTo branch l => cases leads
    | branchIf cr code l =>
      rw [Call.run_unknown leads]
      refine live.refused ?_ ?_ _
      · rintro l' pending ⟨⟩
      · intro branch l' pending known
        cases leads.symm.trans known
    | bind l => exact live.run_bind

end Run

end PowerAsm.Proofs.Recovery
