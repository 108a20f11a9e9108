import PowerAsm.Proofs.Labels

/-! The one-pass assembler finishes exactly the runs of steps that the two-pass assembler
accepts, with the same code. A run that fails never blames the assembler. -/
namespace PowerAsm.Proofs.OnePass
open Storage Branches TwoPass Labels

def runSteps : List Step → Asm Unit
  | [] => return
  | s :: rest => do
    runStep s
    runSteps rest

/-- Runs the steps and finishes the code. -/
def assemble (steps : List Step) : Asm (List UInt8) := do
  runSteps steps
  Asm.finalize

/-- Sound steps whose code fits the storage. -/
def Runs (steps : List Step) : Prop := Sound steps ∧ 4 * words steps ≤ largest

theorem Runs.takes {before rest : List Step} {s : Step} (runs : Runs (before ++ s :: rest)) :
    Takes before s := by
  obtain ⟨sound, room⟩ := runs
  rw [List.append_cons] at sound room
  rw [words_append] at room
  exact ⟨sound.of_append.accepts, by omega⟩

/-- Steps run to their end when they are sound and fit, and fail harmlessly otherwise. The
induction extends the steps that were run by the one that was taken. -/
theorem run_steps {order : ByteOrder} {before : List Step} {a : Assembly} (steps : List Step)
    (traced : Traced order before a) (sound : Sound before) :
    (Runs (before ++ steps) ∧ ∃ b, runSteps steps a = .ok () b ∧ Traced order (before ++ steps) b) ∨
      ¬ Runs (before ++ steps) ∧ ∃ e b, runSteps steps a = .error e b ∧ Harmless e := by
  induction steps generalizing before a with
  | nil =>
    rw [List.append_nil]
    exact .inl ⟨⟨sound, traced.room⟩, a, rfl, traced⟩
  | cons s rest ih =>
    rw [runSteps, bind_apply]
    obtain ⟨takes, b, taken, traced'⟩ | ⟨refuses, e, b, refused, harmless⟩ := run_step traced sound s
    · rw [taken, List.append_cons]
      exact ih traced' (sound.snoc takes.1)
    · rw [refused]
      exact .inr ⟨fun runs => refuses runs.takes, e, b, rfl, harmless⟩

theorem sites_ne_nil_iff {steps : List Step} {l : Label} :
    (placed steps).filterMap (siteOf? l) ≠ [] ↔
      ∃ s ∈ steps, ∃ branch, s.branch? = some (branch, l) := by
  constructor
  · intro some
    obtain ⟨site, member⟩ := List.exists_mem_of_ne_nil _ some
    obtain ⟨⟨here, s⟩, place, found⟩ := List.mem_filterMap.mp member
    by_cases leads : ∃ branch, s.branch? = .some (branch, l)
    · exact ⟨s, mem_of_mem_placedFrom place, leads⟩
    · rw [siteOf?_of_ne fun branch same => leads ⟨branch, same⟩] at found
      cases found
  · rintro ⟨s, member, branch, leads⟩ none
    obtain ⟨here, place⟩ := exists_mem_placedFrom member 0
    have site := List.filterMap_eq_nil_iff.mp none (here, s) place
    simp only [siteOf?, leads, if_pos, reduceCtorEq] at site

/-- A label is refused at the end when it is not bound and some branch names it. -/
theorem waits_iff {steps : List Step} {l : Label} :
    (∃ pending, stateOf steps l = ⟨none, pending⟩ ∧ pending ≠ []) ↔
      .bind l ∉ steps ∧ ∃ s ∈ steps, ∃ branch, s.branch? = some (branch, l) := by
  rw [← labelAt?_eq_none_iff, ← sites_ne_nil_iff]
  cases found : labelAt? steps l <;> simp [stateOf, found]

theorem checkLabels_traced {order : ByteOrder} {steps : List Step} {a : Assembly}
    (traced : Traced order steps a) (sound : Sound steps) :
    (Bound steps ∧ Asm.checkLabels a = .ok () a) ∨
      ¬ Bound steps ∧ ∃ e, Asm.checkLabels a = .error e a ∧ Harmless e := by
  rcases checkLabels_cases a with ⟨checked, idle⟩ | ⟨i, site, rest, held, refused⟩
  · refine .inl ⟨fun s member branch l leads => ?_, checked⟩
    by_contra unbound
    have made := sound.created_of_mem member (branch_facts leads).1
    have entry := traced.entry l.index
    rw [if_pos (index_lt made), stateAt_index made.1, Array.getElem?_toList] at entry
    obtain ⟨pending, waits, some⟩ := waits_iff.mpr ⟨unbound, s, member, branch, leads⟩
    rw [waits] at entry
    exact some (idle _ _ entry)
  · refine .inr ⟨fun bound => ?_, _, refused, dangling_harmless i (rest.length + 1) site.offset⟩
    rw [← Array.getElem?_toList, traced.entry i] at held
    have known := Option.some.inj (Option.ite_none_right_eq_some.mp held).2
    rw [stateAt] at known
    split at known
    · obtain ⟨unbound, s, member, branch, leads⟩ :=
        waits_iff.mp ⟨_, known, List.cons_ne_nil site rest⟩
      exact unbound (bound s member branch _ leads)
    · cases known

theorem finalize_cases {order : ByteOrder} {steps : List Step} {a : Assembly}
    (traced : Traced order steps a) (sound : Sound steps) :
    (Bound steps ∧ Asm.finalize a =
        .ok ((codeOf (labelAt? steps) (placed steps)).flatMap order.bytes) a) ∨
      ¬ Bound steps ∧ ∃ e, Asm.finalize a = .error e a ∧ Harmless e := by
  obtain ⟨bound, checked⟩ | ⟨unbound, e, refused, harmless⟩ := checkLabels_traced traced sound
  · refine .inl ⟨bound, ?_⟩
    have closed : Asm.checkFrames a = .ok () a := by
      simp only [Asm.checkFrames, bind_apply, assembler_apply, traced.frames, List.find?_nil,
        pure_apply]
    simp only [Asm.finalize, bind_apply, checked, closed, assembler_apply, get_apply,
      traced.code.bytes, ofExcept_ok, traced.order]
  · refine .inr ⟨unbound, e, ?_, harmless⟩
    simp only [Asm.finalize, bind_apply, refused]

theorem mapM_eq_some {α β : Type} {f : α → Option β} {g : α → β} {items : List α}
    (each : ∀ x ∈ items, f x = some (g x)) : items.mapM f = some (items.map g) := by
  induction items with
  | nil => rfl
  | cons x rest ih =>
    rw [List.mapM_cons, each x List.mem_cons_self,
      ih fun y member => each y (List.mem_cons_of_mem _ member)]
    rfl

/-- What is written when all labels are bound is what the second pass writes. -/
theorem twoPass_eq {steps : List Step} (sound : Sound steps) (bound : Bound steps) :
    twoPass steps = some (codeOf (labelAt? steps) (placed steps)) := by
  have each : ∀ place ∈ placed steps,
      wordsOf? (labelAt? steps) place = some (codeAt (labelAt? steps) place) := by
    rintro ⟨here, s⟩ place
    have member := mem_of_mem_placedFrom place
    cases leads : s.branch? with
    | none => simp only [wordsOf?, codeAt, leads]
    | some way =>
      obtain ⟨branch, l⟩ := way
      cases found : labelAt? steps l with
      | none => exact absurd (bound s member branch l leads) (labelAt?_eq_none_iff.mp found)
      | some dest =>
        have near := sound.reach here s branch l dest place leads (labelAt?_mem found)
        have encoded := encode_inReach (sound.fields s member branch l leads) near
        simp only [wordsOf?, codeAt, leads, found, Option.bind_eq_bind, Option.bind_some, encoded]
        rfl
  rw [twoPass, mapM_eq_some each]
  rfl

/-- Assembling gives the code, or the steps are refused. -/
theorem assemble_cases (target : Target) (order : ByteOrder) (steps : List Step) :
    (Valid steps ∧ 4 * words steps ≤ largest ∧ ∃ a, assemble steps (.fresh target order) =
        .ok ((codeOf (labelAt? steps) (placed steps)).flatMap order.bytes) a) ∨
      ¬ (Valid steps ∧ 4 * words steps ≤ largest) ∧
        ∃ e a, assemble steps (.fresh target order) = .error e a ∧ Harmless e := by
  have ran := run_steps steps (fresh_traced target order) sound_nil
  rw [List.nil_append] at ran
  obtain ⟨⟨sound, room⟩, a, ran, traced⟩ | ⟨fails, e, a, refused, harmless⟩ := ran
  · have run : assemble steps (.fresh target order) = Asm.finalize a := by
      simp only [assemble, bind_apply, ran]
    rw [run]
    obtain ⟨bound, finished⟩ | ⟨unbound, e, refused, harmless⟩ := finalize_cases traced sound
    · exact .inl ⟨⟨sound, bound⟩, room, a, finished⟩
    · exact .inr ⟨fun valid => unbound valid.1.bound, e, a, refused, harmless⟩
  · refine .inr ⟨fun valid => fails ⟨valid.1.toSound, valid.2⟩, e, a, ?_, harmless⟩
    simp only [assemble, bind_apply, refused]

/-- Assembling in one pass succeeds exactly on the steps that a two-pass assembler accepts and
that fit the storage, and gives its code. No fault blames the assembler itself. -/
theorem assemble_eq_twoPass (target : Target) (order : ByteOrder) (steps : List Step) :
    ((∃ code a, assemble steps (.fresh target order) = .ok code a) ↔
        Valid steps ∧ 4 * words steps ≤ largest) ∧
      (∀ code a, assemble steps (.fresh target order) = .ok code a →
        ∃ ws, twoPass steps = some ws ∧ code = ws.flatMap order.bytes) ∧
      ∀ e a text, assemble steps (.fresh target order) = .error e a → e.message? = some text →
        ¬ Text.ofString "BUG:" <+: text := by
  obtain ⟨valid, room, a, run⟩ | ⟨invalid, e, a, run, harmless⟩ := assemble_cases target order steps
  · rw [run]
    refine ⟨⟨fun _ => ⟨valid, room⟩, fun _ => ⟨_, a, rfl⟩⟩, ?_, fun e a' text => nofun⟩
    rintro code a' ⟨⟩
    exact ⟨_, twoPass_eq valid.toSound valid.bound, rfl⟩
  · rw [run]
    refine ⟨⟨?_, fun valid => absurd valid invalid⟩, fun code a' => nofun, ?_⟩
    · rintro ⟨code, a', ⟨⟩⟩
    · rintro e' a' text ⟨⟩
      exact harmless text

-- A branch over one word, to a label that is bound after it.
example : twoPass [.newLabel, .branchTo .always ⟨0⟩, .word 0x60000000, .bind ⟨0⟩] =
    some [0x48000008, 0x60000000] := by
  decide

end PowerAsm.Proofs.OnePass
