import PowerAsm.Proofs.Decoding
import PowerAsm.Proofs.Recovery.Effects

/-! Runs that go on after a failure. What a finished run holds is followed branch by branch, from
the call that has written it to the end: a branch leads to its label unless binding that label has
failed, or a branch that failed waits at the same place. -/
namespace PowerAsm.Proofs.Recovery
open Segment Storage Integers Branches Labels Writing Operations

/-- A branch to a label that was not bound has failed at this offset. -/
def BranchFailed (calls : List (Assembly × Call)) (o : Int64) : Prop :=
  ∃ a c branch l, (a, c) ∈ calls ∧ c.branch? = some (branch, l) ∧ Free a l ∧
    Asm.offset a = .ok o a ∧ succeeded (c.run a) = false

/-- Binding this label has failed when it was not bound. -/
def BindFailed (calls : List (Assembly × Call)) (l : Label) : Prop :=
  ∃ a, (a, .bind l) ∈ calls ∧ Free a l ∧ succeeded (Asm.bind l a) = false

theorem BranchFailed.mono {calls calls' : List (Assembly × Call)} {o : Int64}
    (failed : BranchFailed calls o) (more : calls ⊆ calls') : BranchFailed calls' o := by
  obtain ⟨a, c, branch, l, member, rest⟩ := failed
  exact ⟨a, c, branch, l, more member, rest⟩

/-- Branches wait at words, and right behind the last one only where a branch has failed. -/
def Sited (before : List (Assembly × Call)) (ws : List Word) (labels : Array LabelState) : Prop :=
  ∀ l pending, stateOf? labels l = some ⟨none, pending⟩ → ∀ site ∈ pending,
    ∃ i ≤ ws.length, site.offset = Int64.ofNat (4 * i) ∧
      (i = ws.length → BranchFailed before site.offset)

theorem offset_injective {i j : Nat} (low : 4 * i < 2 ^ 63) (high : 4 * j < 2 ^ 63)
    (same : Int64.ofNat (4 * i) = Int64.ofNat (4 * j)) : i = j := by
  have numbers := congrArg Int64.toInt same
  rw [Int64.toInt_ofNat_of_lt low, Int64.toInt_ofNat_of_lt high] at numbers
  omega

/-- A new word has a place of its own. -/
theorem end_ne_place {k n : Nat} (inside : k < n) (short : 4 * n < 2 ^ 63) :
    Int64.ofNat (4 * n) ≠ Int64.ofNat (4 * k) := by
  intro same
  have last := offset_injective short (by omega) same
  omega

section Sites
variable {before : List (Assembly × Call)} {ws ws' : List Word} {labels labels' : Array LabelState}

/-- Where a branch waits after a call, it has waited before, or the call has just come to it. -/
theorem Effect.waits_cases {c : Call} {ok : Bool} {l : Label} {pending : List PatchSite}
    {site : PatchSite} (effect : Effect c ws labels ok ws' labels')
    (free : stateOf? labels' l = some ⟨none, pending⟩) (member : site ∈ pending) :
    ∃ old, stateOf? labels l = some ⟨none, old⟩ ∧
      (site ∈ old ∨ site.offset = Int64.ofNat (4 * ws.length) ∧
        (∃ branch, c.branch? = some (branch, l)) ∧ (ok = true → ws.length < ws'.length)) := by
  cases effect with
  | refused | wrote => exact ⟨pending, free, .inl member⟩
  | created =>
    rcases stateOf?_push labels ⟨none, []⟩ l with same | ⟨-, new⟩
    · exact ⟨pending, same.symm.trans free, .inl member⟩
    · cases new.symm.trans free
      cases member
  | waits leads free₀ written =>
    rw [stateOf?_set free₀] at free
    split at free
    · rename_i same
      subst same
      cases free
      refine ⟨_, free₀, (List.mem_append.mp member).imp_right fun new => ?_⟩
      rw [List.mem_singleton.mp new]
      refine ⟨rfl, ⟨_, leads⟩, fun succeeds => ?_⟩
      rcases written with ⟨-, -, rfl⟩ | ⟨refused, -⟩
      · rw [List.length_append]
        exact Nat.lt_succ_self _
      · cases refused.symm.trans succeeds
    · exact ⟨pending, free, .inl member⟩
  | binds asked free₀ filled =>
    rw [stateOf?_set free₀] at free
    split at free
    · cases free
    · exact ⟨pending, free, .inl member⟩

theorem Effect.sited {a : Assembly} {c : Call}
    (effect : Effect c ws a.assembler.labels (succeeded (c.run a)) ws' labels')
    (here : a.assembler.buffer.length a.segment = Int64.ofNat (4 * ws.length))
    (sited : Sited before ws a.assembler.labels) : Sited (before ++ [(a, c)]) ws' labels' := by
  intro l pending free site member
  have longer := effect.length_le
  obtain ⟨old, free₀, waited | ⟨place, ⟨branch, leads⟩, written⟩⟩ := effect.waits_cases free member
  · obtain ⟨i, inside, place, failed⟩ := sited l old free₀ site waited
    refine ⟨i, by omega, place, fun last => ?_⟩
    exact (failed (by omega)).mono (List.subset_append_left _ _)
  · refine ⟨ws.length, longer, place, fun last => ?_⟩
    refine ⟨a, c, branch, l, List.mem_append_right _ (.head _), leads, ⟨old, free₀⟩, ?_, ?_⟩
    · rw [offset_apply, here, place]
    · apply Bool.eq_false_iff.mpr
      intro succeeds
      have grown := written succeeds
      omega

end Sites

/-- The branch that was written as the `k`th word waits for its label, alone at its place, or
leads to where the label is bound. -/
inductive Tracked (k : Nat) (branch : Branch) (l : Label) (ws : List Word)
    (labels : Array LabelState) : Prop
  | waiting {pre post : List PatchSite}
      (state : stateOf? labels l =
        some ⟨none, pre ++ ⟨Int64.ofNat (4 * k), branch.form⟩ :: post⟩)
      (single : ∀ site ∈ pre ++ post, site.offset ≠ Int64.ofNat (4 * k))
      (fit : FieldsFit branch) (held : ws[k]? = some (bare branch))
  | resolved {dest : Int64} {pending : List PatchSite} {w : Word}
      (state : stateOf? labels l = some ⟨some dest, pending⟩) (held : ws[k]? = some w)
      (leads : branch.encodeFromTo (Int64.ofNat (4 * k)) dest = .ok w)

/-- No other label that is not bound will have the `k`th word filled in. -/
def Alone (k : Nat) (l : Label) (labels : Array LabelState) : Prop :=
  ∀ l' pending, l' ≠ l → stateOf? labels l' = some ⟨none, pending⟩ →
    ∀ site ∈ pending, site.offset ≠ Int64.ofNat (4 * k)

/-- The label is bound, or some branch waits for it. -/
def Awaited (l : Label) (labels : Array LabelState) : Prop :=
  ∃ state, stateOf? labels l = some state ∧ (state.bound = none → state.pending ≠ [])

namespace Filled
variable {dest : Int64} {sites : List PatchSite} {ws ws' : List Word} {ok : Bool} {k : Nat}

/-- The words of other branches stay as they are. -/
theorem away (filled : Filled dest sites ws ok ws') (inside : k < ws.length)
    (short : 4 * ws.length < 2 ^ 63) (other : ∀ site ∈ sites, site.offset ≠ Int64.ofNat (4 * k)) :
    ws'[k]? = ws[k]? := by
  induction filled with
  | done | stopped => rfl
  | @next i form rest ws ws' w complete before filled later ih =>
    obtain ⟨first, others⟩ := List.forall_mem_cons.mp other
    have apart : i ≠ k := by
      rintro rfl
      exact first rfl
    rw [ih (by rwa [List.length_set]) (by rwa [List.length_set]) others, List.getElem?_set_ne apart]

theorem cons_ok {site : PatchSite} (filled : Filled dest (site :: sites) ws true ws') :
    ∃ i, ∃ inside : i < ws.length, ∃ w, site.offset = Int64.ofNat (4 * i) ∧
      Asm.patchedWord ws[i] site dest = .ok w ∧ Filled dest sites (ws.set i w) true ws' := by
  cases filled with
  | next inside filled later => exact ⟨_, inside, _, rfl, filled, later⟩

theorem append_ok {first rest : List PatchSite} (filled : Filled dest (first ++ rest) ws true ws') :
    ∃ middle, Filled dest first ws true middle ∧ Filled dest rest middle true ws' := by
  induction first generalizing ws with
  | nil => exact ⟨ws, .done ws, filled⟩
  | cons site first ih =>
    obtain ⟨offset, form⟩ := site
    obtain ⟨i, inside, w, rfl, here, later⟩ := cons_ok filled
    obtain ⟨middle, done, left⟩ := ih later
    exact ⟨middle, .next inside here done, left⟩

/-- The branch that waits at the place of its word is filled in with its own way. -/
theorem resolves {pre post : List PatchSite} {branch : Branch}
    (filled : Filled dest (pre ++ ⟨Int64.ofNat (4 * k), branch.form⟩ :: post) ws true ws')
    (single : ∀ site ∈ pre ++ post, site.offset ≠ Int64.ofNat (4 * k)) (fit : FieldsFit branch)
    (held : ws[k]? = some (bare branch)) (short : 4 * ws.length < 2 ^ 63) :
    ∃ w, branch.encodeFromTo (Int64.ofNat (4 * k)) dest = .ok w ∧ ws'[k]? = some w := by
  obtain ⟨inside, -⟩ := List.getElem?_eq_some_iff.mp held
  obtain ⟨early, late⟩ := List.forall_mem_append.mp single
  obtain ⟨middle, before, rest⟩ := append_ok filled
  have length := before.length
  have kept : middle[k]? = some (bare branch) := (before.away inside short early).trans held
  obtain ⟨i, inside', w, here, patched, after⟩ := cons_ok rest
  obtain rfl : k = i := offset_injective (by omega) (by omega) here
  have own : middle[k] = bare branch := (List.getElem?_eq_some_iff.mp kept).2
  rw [own, patchedWord_bare fit] at patched
  refine ⟨w, patched, ?_⟩
  rw [after.away (by rwa [List.length_set]) (by rw [List.length_set]; omega) late]
  exact List.getElem?_set_self inside'

end Filled

namespace Effect
variable {c : Call} {ws ws' : List Word} {labels labels' : Array LabelState} {ok : Bool} {k : Nat}
  {branch : Branch} {l : Label}

theorem alone (effect : Effect c ws labels ok ws' labels') (inside : k < ws.length)
    (short : 4 * ws.length < 2 ^ 63) (alone : Alone k l labels) : Alone k l labels' := by
  intro l' pending other free site member
  obtain ⟨old, free₀, waited | ⟨place, -⟩⟩ := effect.waits_cases free member
  · exact alone l' old other free₀ site waited
  · rw [place]
    exact end_ne_place inside short

theorem awaited (effect : Effect c ws labels ok ws' labels') (awaited : Awaited l labels) :
    Awaited l labels' := by
  obtain ⟨state, known, waits⟩ := awaited
  cases effect with
  | refused | wrote => exact ⟨state, known, waits⟩
  | created =>
    rcases stateOf?_push labels ⟨none, []⟩ l with same | ⟨foreign, -⟩
    · exact ⟨state, same.trans known, waits⟩
    · cases foreign.symm.trans known
  | @waits branch₀ l₀ pending₀ _ _ leads free₀ written =>
    by_cases same : l = l₀
    · refine ⟨_, (stateOf?_set free₀ _ l).trans (if_pos same), fun _ => ?_⟩
      simp
    · exact ⟨state, ((stateOf?_set free₀ _ l).trans (if_neg same)).trans known, waits⟩
  | @binds l₀ pending₀ left _ _ asked free₀ filled =>
    by_cases same : l = l₀
    · exact ⟨_, (stateOf?_set free₀ _ l).trans (if_pos same), nofun⟩
    · exact ⟨state, ((stateOf?_set free₀ _ l).trans (if_neg same)).trans known, waits⟩

/-- A branch that was written is followed from here on. -/
theorem starts (effect : Effect c ws labels true ws' labels')
    (leads : c.branch? = some (branch, l)) :
    ws'.length = ws.length + 1 ∧ Awaited l labels' ∧
      ((∀ l' pending, stateOf? labels l' = some ⟨none, pending⟩ →
          ∀ site ∈ pending, site.offset ≠ Int64.ofNat (4 * ws.length)) →
        Tracked ws.length branch l ws' labels' ∧ Alone ws.length l labels') := by
  cases effect with
  | created new =>
    subst new
    cases leads
  | @wrote w other written =>
    obtain ⟨dest, pending, bound, encoded⟩ := written branch l leads
    refine ⟨by simp, ⟨_, bound, nofun⟩, fun clear => ⟨?_, fun l' pending _ => clear l' pending⟩⟩
    exact .resolved bound (by simp) encoded
  | @waits branch₀ l₀ pending₀ _ _ leads₀ free₀ written =>
    cases leads.symm.trans leads₀
    rcases written with ⟨-, fit, rfl⟩ | ⟨⟨⟩, -⟩
    have state := (stateOf?_set free₀ ⟨none, pending₀ ++
      [⟨Int64.ofNat (4 * ws.length), branch.form⟩]⟩ l).trans (if_pos rfl)
    refine ⟨by simp, ⟨_, state, fun _ => by simp⟩, fun clear => ⟨?_, ?_⟩⟩
    · refine .waiting state ?_ fit (by simp)
      rw [List.append_nil]
      exact clear l pending₀ free₀
    · intro l' pending other free
      rw [stateOf?_set free₀, if_neg other] at free
      exact clear l' pending free
  | binds asked free filled =>
    subst asked
    cases leads

/-- A call leaves the branch followed, if binding its label does not fail. -/
theorem tracked (effect : Effect c ws labels ok ws' labels') (inside : k < ws.length)
    (short : 4 * ws.length < 2 ^ 63) (alone : Alone k l labels)
    (well : c = .bind l → (∃ pending, stateOf? labels l = some ⟨none, pending⟩) → ok = true)
    (tracked : Tracked k branch l ws labels) : Tracked k branch l ws' labels' := by
  -- Where neither the word nor the state of the label changes, there is nothing to show.
  have same (word : ws'[k]? = ws[k]?) (state : stateOf? labels' l = stateOf? labels l) :
      Tracked k branch l ws' labels' := by
    cases tracked with
    | waiting known single fit held =>
      exact .waiting (state.trans known) single fit (word.trans held)
    | resolved known held leads => exact .resolved (state.trans known) (word.trans held) leads
  cases effect with
  | refused => exact tracked
  | created =>
    apply same rfl
    rcases stateOf?_push labels ⟨none, []⟩ l with old | ⟨foreign, -⟩
    · exact old
    · cases tracked with
      | waiting known => cases foreign.symm.trans known
      | resolved known => cases foreign.symm.trans known
  | wrote => exact same (List.getElem?_append_left inside) rfl
  | @waits branch₀ l₀ pending₀ _ _ leads free₀ written =>
    have word : ws'[k]? = ws[k]? := by
      rcases written with ⟨-, -, rfl⟩ | ⟨-, rfl⟩
      · exact List.getElem?_append_left inside
      · rfl
    by_cases own : l = l₀
    · subst own
      cases tracked with
      | resolved known => cases free₀.symm.trans known
      | @waiting pre post known single fit held =>
        cases free₀.symm.trans known
        rw [List.append_assoc, List.cons_append]
        refine .waiting ((stateOf?_set free₀ _ l).trans (if_pos rfl)) ?_ fit (word.trans held)
        rw [← List.append_assoc]
        intro site member
        rcases List.mem_append.mp member with old | new
        · exact single site old
        · rw [List.mem_singleton.mp new]
          exact end_ne_place inside short
    · exact same word ((stateOf?_set free₀ _ l).trans (if_neg own))
  | @binds l₀ pending₀ left _ _ asked free₀ filled =>
    by_cases own : l = l₀
    · subst own
      have state := (stateOf?_set free₀ ⟨some (Int64.ofNat (4 * ws.length)), left⟩ l).trans
        (if_pos rfl)
      cases tracked with
      | resolved known => cases free₀.symm.trans known
      | waiting known single fit held =>
        cases free₀.symm.trans known
        rw [well asked ⟨_, free₀⟩] at filled
        obtain ⟨w, encoded, word⟩ := filled.resolves single fit held short
        exact .resolved state word encoded
    · have word := filled.away inside short (alone l₀ pending₀ (Ne.symm own) free₀)
      exact same word ((stateOf?_set free₀ _ l).trans (if_neg own))

end Effect

/-- The branch to an address as an instruction. -/
def leading (dest : Int64) : Branch → Instr
  | .always => ⟨.b, (dest, ())⟩
  | .call => ⟨.bl, (dest, ())⟩
  | .conditional bo bi => ⟨.bc, (bo, bi, dest, ())⟩

theorem encode_leading {branch : Branch} {source dest : Int64} {w : Word}
    (encoded : branch.encodeFromTo source dest = .ok w) :
    (leading dest branch).encode source = .ok w := by
  obtain ⟨d, found, word⟩ := Layouts.bind_eq_ok_iff.mp encoded
  rw [Layouts.mapError_eq_ok_iff] at found word
  have bits := bits_eq branch
  have way := Layouts.branchDisplacement_sub (by omega) (by omega) found
  have step {β : Type} (pack : Int64 → β) (f : β → Except EncodingError Word) :
      ((branchDisplacement 0 (dest - source) branch.bits >>= fun d => .ok (pack d)).mapError
        Fault.branchRange >>= fun args => (f args).mapError Fault.encoding) =
          (f (pack d)).mapError Fault.encoding := by
    rw [way]
    rfl
  cases branch with
  | always =>
    exact (step (·, ()) fun args => Format.i "b" 18 args.1 false false).trans
      (congrArg (Except.mapError Fault.encoding) word)
  | call =>
    exact (step (·, ()) fun args => Format.i "bl" 18 args.1 false true).trans
      (congrArg (Except.mapError Fault.encoding) word)
  | conditional bo bi =>
    exact (step (bo, bi, ·, ()) fun args =>
      Format.b "bc" 16 args.1 args.2.1 args.2.2.1 false false).trans
        (congrArg (Except.mapError Fault.encoding) word)

theorem ofWord?_leading {branch : Branch} {source dest : Int64} {w : Word}
    (encoded : branch.encodeFromTo source dest = .ok w) :
    Instr.ofWord? Opcode.all w source = some (leading dest branch) := by
  have word := encode_leading encoded
  cases branch with
  | always => exact Table.ofWord?_of_encodeAs (by decide) (by decide) word
  | call => exact Table.ofWord?_of_encodeAs (by decide) (by decide) word
  | conditional bo bi => exact Table.ofWord?_of_encodeAs (by decide) (by decide) word

section Runs
variable {origin a : Assembly} {bytes : List UInt8} {ws : List Word}
  {before : List (Assembly × Call)}

theorem run_all (live : Live origin bytes ws a) (sited : Sited before ws a.assembler.labels)
    (calls : List Call) : ∃ ws', Live origin bytes ws' (runAll a calls) ∧
      Sited (before ++ trail a calls) ws' (runAll a calls).assembler.labels := by
  induction calls generalizing before ws a with
  | nil => exact ⟨ws, live, by rwa [trail, List.append_nil]⟩
  | cons c rest ih =>
    obtain ⟨next, live', effect⟩ := live.run c
    have done := ih live' (effect.sited live.offset sited)
    rwa [List.append_assoc] at done

/-- What becomes of a branch that was written as the `k`th word. -/
theorem follow {k : Nat} (branch : Branch) {l : Label} (live : Live origin bytes ws a)
    (sited : Sited before ws a.assembler.labels) (inside : k < ws.length)
    (awaited : Awaited l a.assembler.labels) (calls : List Call) :
    ∃ ws', Live origin bytes ws' (runAll a calls) ∧ k < ws'.length ∧
      Awaited l (runAll a calls).assembler.labels ∧
      (Tracked k branch l ws a.assembler.labels → Alone k l a.assembler.labels →
        ¬ BindFailed (trail a calls) l →
        Tracked k branch l ws' (runAll a calls).assembler.labels) := by
  induction calls generalizing before ws a with
  | nil => exact ⟨ws, live, inside, awaited, fun tracked _ _ => tracked⟩
  | cons c rest ih =>
    have short : 4 * ws.length < 2 ^ 63 := Nat.lt_of_add_right_lt live.short
    obtain ⟨next, live', effect⟩ := live.run c
    obtain ⟨ws', last, within, waits, later⟩ := ih live' (effect.sited live.offset sited)
      (Nat.lt_of_lt_of_le inside effect.length_le) (effect.awaited awaited)
    refine ⟨ws', last, within, waits, fun tracked alone well => later ?_ ?_ ?_⟩
    · refine effect.tracked inside short alone ?_ tracked
      rintro rfl free
      by_contra failed
      exact well ⟨a, List.mem_cons_self, free, Bool.eq_false_iff.mpr failed⟩
    · exact effect.alone inside short alone
    · rintro ⟨b, member, failed⟩
      exact well ⟨b, List.mem_cons_of_mem _ member, failed⟩

theorem checkLabels_ok {b : Assembly} {u : Unit} (checked : Asm.checkLabels a = .ok u b) :
    b = a ∧ ∀ l pending, stateOf? a.assembler.labels l = some ⟨none, pending⟩ → pending = [] := by
  rcases checkLabels_cases a with ⟨passed, idle⟩ | ⟨i, site, rest, -, failed⟩
  · cases passed.symm.trans checked
    exact ⟨rfl, fun l pending free => idle l.index pending (Option.ite_none_left_eq_some.mp free).2⟩
  · cases failed.symm.trans checked

/-- Finishing shows the code, and that no branch waits for a label that is not bound. -/
theorem finalize_ok {code : List UInt8} {b : Assembly} (live : Live origin bytes ws a)
    (finished : Asm.finalize a = .ok code b) :
    b = a ∧ code = ws.flatMap origin.segment.order.bytes ∧
      ∀ l pending, stateOf? a.assembler.labels l = some ⟨none, pending⟩ → pending = [] := by
  obtain ⟨_, a₁, checked, rest⟩ := bind_ok finished
  obtain ⟨rfl, idle⟩ := checkLabels_ok checked
  obtain ⟨_, a₂, closed, shown⟩ := bind_ok rest
  obtain rfl : a₂ = a₁ := by
    simp only [Asm.checkFrames, bind_apply, assembler_apply] at closed
    generalize a₁.assembler.frames.toList.find? _ = unclosed at closed
    cases unclosed <;> cases closed
    rfl
  simp only [bind_apply, assembler_apply, get_apply, live.bytes_eq, ofExcept_ok] at shown
  cases shown
  exact ⟨rfl, rfl, idle⟩

/-- A branch that was written somewhere in a run is followed to its end. -/
theorem written_branch_followed {calls : List Call} {c : Call} {branch : Branch} {l : Label}
    (first : Live origin bytes [] origin) (made : (a, c) ∈ trail origin calls)
    (leads : c.branch? = some (branch, l)) (written : succeeded (c.run a) = true) :
    ∃ ws k, Live origin bytes ws (runAll origin calls) ∧ k < ws.length ∧
      Asm.offset a = .ok (Int64.ofNat (4 * k)) a ∧
      Awaited l (runAll origin calls).assembler.labels ∧
      (¬ BindFailed (trail origin calls) l →
        ¬ BranchFailed (trail origin calls) (Int64.ofNat (4 * k)) →
        Tracked k branch l ws (runAll origin calls).assembler.labels) := by
  obtain ⟨before, rest, rfl, rfl⟩ := split_of_mem_trail made
  have none : Sited [] [] origin.assembler.labels := by
    intro l pending free
    rw [first.unlabelled] at free
    cases (Option.ite_none_left_eq_some.mp free).2
  obtain ⟨ws, live, sited⟩ := run_all first none before
  obtain ⟨next, live', effect⟩ := live.run c
  have later := effect.sited live.offset sited
  rw [written] at effect
  obtain ⟨length, awaited, begins⟩ := effect.starts leads
  have reached : ws.length < next.length := by omega
  obtain ⟨last, ended, inside, waits, tracked⟩ := follow branch live' later reached awaited rest
  have run : runAll origin (before ++ c :: rest) =
      runAll (after (c.run (runAll origin before))) rest := List.foldl_append
  rw [run, trail_append]
  refine ⟨last, ws.length, ended, inside, by rw [offset_apply, live.offset], waits, ?_⟩
  intro well clear
  obtain ⟨start, alone⟩ := begins fun l' pending free site member same => by
    obtain ⟨i, within, place, failed⟩ := sited l' pending free site member
    have short := live.short
    have here := offset_injective (by omega) (by omega) (place.symm.trans same)
    refine clear ((same ▸ failed here).mono ?_)
    exact List.subset_append_left _ _
  refine tracked start alone ?_
  rintro ⟨b, member, failed⟩
  exact well ⟨b, List.mem_append_right _ (List.mem_cons_of_mem _ member), failed⟩

end Runs

/-- A branch to a label that was written stands in the finished code, and its label is bound. It
leads there, if binding the label has not failed before, nor another branch at the same place:
whatever else has failed does no harm. Storage of at most `2 ^ 60` bytes at the start reaches its
limit before an offset can wrap around. -/
theorem finished_branch_leads {target : Target} {s s' : Segment} {x : Assembler}
    (small : s.storage.size ≤ 2 ^ 60) (started : Assembler.start target s = .ok x s')
    {calls : List Call} {code : List UInt8} {b : Assembly}
    (finished : Asm.finalize (runAll ⟨s', x⟩ calls) = .ok code b)
    {a : Assembly} {c : Call} {branch : Branch} {l : Label}
    (made : (a, c) ∈ trail ⟨s', x⟩ calls) (leads : c.branch? = some (branch, l))
    (written : succeeded (c.run a) = true) :
    ∃ k w dest, Asm.offset a = .ok (Int64.ofNat (4 * k)) a ∧
      (code.drop (4 * k)).take 4 = s.order.bytes w ∧ Asm.labelOffset l b = .ok dest b ∧
      (¬ BindFailed (trail ⟨s', x⟩ calls) l →
        ¬ BranchFailed (trail ⟨s', x⟩ calls) (Int64.ofNat (4 * k)) →
        Instr.ofWord? Opcode.all w (Int64.ofNat (4 * k)) = some (leading dest branch)) := by
  obtain ⟨bytes, first, order⟩ := start_live (by omega) (sturdy_of_le small) started
  obtain ⟨ws, k, live, inside, offset, ⟨state, known, waits⟩, tracked⟩ :=
    written_branch_followed first made leads written
  obtain ⟨rfl, rfl, idle⟩ := finalize_ok live finished
  obtain ⟨bound, pending⟩ := state
  cases bound with
  | none => exact absurd (idle l pending known) (waits rfl)
  | some dest =>
    refine ⟨k, ws[k], dest, offset, ?_, ?_, fun well clear => ?_⟩
    · rw [← order]
      exact code_at s'.order ws k inside
    · simp only [Asm.labelOffset, bind_apply, labelState_eq, known, pure_apply]
    · cases tracked well clear with
      | waiting state => cases known.symm.trans state
      | resolved state held encoded =>
        cases known.symm.trans state
        rw [(List.getElem?_eq_some_iff.mp held).2]
        exact ofWord?_leading encoded

/-- A 64-bit assembler of an empty segment with storage for four words. -/
def roomy : Assembly := ⟨⟨Array.replicate 16 0, 0, .big⟩, .initial .ppc64 ⟨0⟩⟩

/-- A branch forward, and failures after it: a label from elsewhere, a label bound twice, and a
branch without a word to a label that is bound. -/
def recovered : List Call := [.newLabel, .branchTo .always ⟨0⟩, .bind ⟨7⟩, .bind ⟨0⟩, .bind ⟨0⟩,
  .branchTo (.conditional 32 0) ⟨0⟩]

theorem recovered_branch_leads :
    Assembler.start .ppc64 roomy.segment = .ok roomy.assembler roomy.segment ∧
    ∃ a b w, Asm.finalize (runAll roomy recovered) = .ok [0x48, 0, 0, 4] b ∧
      (a, .branchTo .always ⟨0⟩) ∈ trail roomy recovered ∧
      succeeded (Asm.branchTo .always ⟨0⟩ a) = true ∧ ByteOrder.big.bytes w = [0x48, 0, 0, 4] ∧
      Asm.labelOffset ⟨0⟩ b = .ok 4 b ∧
      Instr.ofWord? Opcode.all w 0 = some (leading 4 .always) := by
  have started : Assembler.start .ppc64 roomy.segment = .ok roomy.assembler roomy.segment := rfl
  obtain ⟨b, finished, reached⟩ : ∃ b, Asm.finalize (runAll roomy recovered) =
      .ok [0x48, 0, 0, 4] b ∧ Asm.labelOffset ⟨0⟩ b = .ok 4 b := ⟨_, rfl, rfl⟩
  obtain ⟨a, made, written⟩ : ∃ a, (a, .branchTo .always ⟨0⟩) ∈ trail roomy recovered ∧
      succeeded (Asm.branchTo .always ⟨0⟩ a) = true := ⟨_, .tail _ (.head _), rfl⟩
  have well : ¬ BindFailed (trail roomy recovered) ⟨0⟩ := by
    rintro ⟨c, member, ⟨pending, free⟩, failed⟩
    simp only [recovered, trail, List.mem_cons, Prod.mk.injEq, reduceCtorEq, and_false, false_or,
      Call.bind.injEq, List.not_mem_nil, or_false] at member
    rcases member with ⟨rfl, other⟩ | ⟨rfl, -⟩ | ⟨rfl, -⟩
    · cases other
    · cases failed
    · cases free
  have clear : ¬ BranchFailed (trail roomy recovered) 0 := by
    rintro ⟨c, call, branch, l, member, leads, ⟨pending, free⟩, -, failed⟩
    simp only [recovered, trail, List.mem_cons, Prod.mk.injEq, List.not_mem_nil, or_false] at member
    rcases member with ⟨-, rfl⟩ | ⟨rfl, rfl⟩ | ⟨-, rfl⟩ | ⟨-, rfl⟩ | ⟨-, rfl⟩ | ⟨rfl, rfl⟩
    all_goals cases leads
    · cases failed
    · cases free
  obtain ⟨k, w, dest, -, held, bound, sound⟩ := finished_branch_leads (by decide) started finished
    made rfl written
  have first : k = 0 := by
    have length := congrArg List.length held
    simp only [length_bytes, List.length_take, List.length_drop, List.length_cons, List.length_nil]
      at length
    omega
  subst first
  cases bound.symm.trans reached
  exact ⟨started, a, b, w, finished, made, written, held.symm, reached, sound well clear⟩

/-- A branch that fails waits for its label all the same, where the next one is written. The next
one may wait for the same label: its displacement is filled in twice, which fails, and the branches
after it are never filled in. -/
def collided : List Call := [.newLabel, .branchTo (.conditional 32 0) ⟨0⟩,
  .branchTo (.conditional 12 2) ⟨0⟩, .branchTo .always ⟨0⟩, .bind ⟨0⟩]

/-- Or the next one leads to another label, and is led away from it. -/
def misled : List Call := [.newLabel, .newLabel, .branchTo (.conditional 32 0) ⟨0⟩, .bind ⟨1⟩,
  .branchTo (.conditional 12 2) ⟨1⟩, .bind ⟨0⟩]

/-- Neither of the two conditions can be left out. -/
theorem finished_branch_lost :
    (∃ a b, Asm.finalize (runAll roomy collided) = .ok [0x41, 0x82, 0, 8, 0x48, 0, 0, 0] b ∧
      (a, .branchTo .always ⟨0⟩) ∈ trail roomy collided ∧ Asm.offset a = .ok 4 a ∧
      succeeded (Asm.branchTo .always ⟨0⟩ a) = true ∧ Asm.labelOffset ⟨0⟩ b = .ok 8 b ∧
      Instr.ofWord? Opcode.all 0x48000000#32 4 = some (leading 4 .always)) ∧
    ∃ a b, Asm.finalize (runAll roomy misled) = .ok [0x41, 0x82, 0, 4] b ∧
      (a, .branchTo (.conditional 12 2) ⟨1⟩) ∈ trail roomy misled ∧ Asm.offset a = .ok 0 a ∧
      succeeded (Asm.branchTo (.conditional 12 2) ⟨1⟩ a) = true ∧
      Asm.labelOffset ⟨1⟩ b = .ok 0 b ∧
      Instr.ofWord? Opcode.all 0x41820004#32 0 = some (leading 4 (.conditional 12 2)) := by
  constructor
  · exact ⟨_, _, rfl, .tail _ (.tail _ (.tail _ (.head _))), rfl, rfl, rfl, rfl⟩
  · exact ⟨_, _, rfl, .tail _ (.tail _ (.tail _ (.tail _ (.head _)))), rfl, rfl, rfl, rfl⟩

end PowerAsm.Proofs.Recovery
