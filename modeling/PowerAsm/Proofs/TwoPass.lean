import PowerAsm.Proofs.Branches

/-! A two-pass assembler. The first pass gives every step the number of words before it, and
with it every label that is bound its place; the second pass encodes each branch with the
way to its label. `Valid` says which runs of steps such an assembler accepts. -/
namespace PowerAsm.Proofs.TwoPass
open Branches

/-- What is asked of an assembler: any word, a branch to a label, or a label. -/
inductive Step where
  | newLabel
  | word (w : Word)
  | branchTo (branch : Branch) (l : Label)
  | branchIf (cr : CrField) (c : Condition) (l : Label)
  | bind (l : Label)
deriving DecidableEq

namespace Step

/-- The number of words that the step writes. -/
def size : Step → Nat
  | .newLabel | .bind _ => 0
  | .word _ | .branchTo _ _ | .branchIf _ _ _ => 1

/-- The branch that the step writes, and the label that it leads to. -/
def branch? : Step → Option (Branch × Label)
  | .branchTo branch l => some (branch, l)
  | .branchIf cr c l => some (.conditional (branchOption c.onSet) (cr.bit c.bit), l)
  | .newLabel | .word _ | .bind _ => none

/-- What the step writes if it is no branch. -/
def plain : Step → List Word
  | .word w => [w]
  | .newLabel | .branchTo _ _ | .branchIf _ _ _ | .bind _ => []

/-- The label that the step names. -/
def label? : Step → Option Label
  | .branchTo _ l | .branchIf _ _ l | .bind l => some l
  | .newLabel | .word _ => none

end Step

/-- The number of words that steps write. -/
def words (steps : List Step) : Nat := (steps.map Step.size).sum

/-- The number of labels that steps create. -/
def created (steps : List Step) : Nat := steps.count .newLabel

/-- Every step with the number of words before it, when `here` words were written already. -/
def placedFrom (here : Nat) : List Step → List (Nat × Step)
  | [] => []
  | s :: rest => (here, s) :: placedFrom (here + s.size) rest

def placed (steps : List Step) : List (Nat × Step) := placedFrom 0 steps

/-- The number of words before the place that a label is bound to. -/
def labelAt? (steps : List Step) (l : Label) : Option Nat :=
  (placed steps).findSome? fun (here, s) => if s = .bind l then some here else none

/-- The words of a step, with all labels known. -/
def wordsOf? (labelAt? : Label → Option Nat) : Nat × Step → Option (List Word)
  | (here, s) =>
    match s.branch? with
    | some (branch, l) => do
      let dest ← labelAt? l
      let w ← (branch.encode (Int64.ofInt (dest - here))).toOption
      return [w]
    | none => some s.plain

/-- The code of steps, if every branch has a word. -/
def twoPass (steps : List Step) : Option (List Word) := do
  return (← (placed steps).mapM (wordsOf? (labelAt? steps))).flatten

/-- The label was created by these steps. -/
def Created (steps : List Step) (l : Label) : Prop :=
  0 ≤ l.number.toInt ∧ l.number.toInt < created steps

/-- Labels are created before they are used and bound once, and branches fit their words as
far as their labels are bound. -/
structure Sound (steps : List Step) : Prop where
  created : ∀ before s after l, steps = before ++ s :: after → s.label? = some l → Created before l
  once : ∀ l, steps.count (.bind l) ≤ 1
  fields : ∀ s ∈ steps, ∀ branch l, s.branch? = some (branch, l) → FieldsFit branch
  reach : ∀ here s branch l dest, (here, s) ∈ placed steps → s.branch? = some (branch, l) →
    (dest, .bind l) ∈ placed steps → InReach branch (dest - here)

/-- Every label that a branch names is bound. -/
def Bound (steps : List Step) : Prop :=
  ∀ s ∈ steps, ∀ branch l, s.branch? = some (branch, l) → .bind l ∈ steps

/-- Sound steps in which every label that a branch names is bound. -/
structure Valid (steps : List Step) : Prop extends Sound steps where
  bound : Bound steps

@[simp] theorem words_append (before after : List Step) :
    words (before ++ after) = words before + words after := by
  simp [words]

@[simp] theorem created_append (before after : List Step) :
    created (before ++ after) = created before + created after :=
  List.count_append

theorem placedFrom_append (here : Nat) (before after : List Step) :
    placedFrom here (before ++ after) =
      placedFrom here before ++ placedFrom (here + words before) after := by
  induction before generalizing here with
  | nil => rfl
  | cons s before ih =>
    rw [List.cons_append, placedFrom, ih, placedFrom, List.cons_append, words, words,
      List.map_cons, List.sum_cons, Nat.add_assoc]

theorem placed_snoc (before : List Step) (s : Step) :
    placed (before ++ [s]) = placed before ++ [(words before, s)] := by
  rw [placed, placedFrom_append, Nat.zero_add]
  rfl

theorem mem_placed_snoc {before : List Step} {s t : Step} {here : Nat} :
    (here, t) ∈ placed (before ++ [s]) ↔
      (here, t) ∈ placed before ∨ here = words before ∧ t = s := by
  rw [placed_snoc, List.mem_append, List.mem_singleton, Prod.mk.injEq]

theorem mem_of_mem_placedFrom {here start : Nat} {s : Step} {steps : List Step}
    (member : (here, s) ∈ placedFrom start steps) : s ∈ steps := by
  induction steps generalizing start with
  | nil => cases member
  | cons first rest ih =>
    obtain same | later := List.mem_cons.mp member
    · cases same
      exact List.mem_cons_self
    · exact List.mem_cons_of_mem _ (ih later)

theorem exists_mem_placedFrom {s : Step} {steps : List Step} (member : s ∈ steps) (start : Nat) :
    ∃ here, (here, s) ∈ placedFrom start steps := by
  induction steps generalizing start with
  | nil => cases member
  | cons first rest ih =>
    obtain rfl | later := List.mem_cons.mp member
    · exact ⟨start, List.mem_cons_self⟩
    · obtain ⟨here, found⟩ := ih later (start + first.size)
      exact ⟨here, List.mem_cons_of_mem _ found⟩

/-- A label that is bound once is bound at one place. -/
theorem bind_unique {l : Label} {steps : List Step} {start first second : Nat}
    (once : steps.count (.bind l) ≤ 1) (one : (first, .bind l) ∈ placedFrom start steps)
    (other : (second, .bind l) ∈ placedFrom start steps) : first = second := by
  induction steps generalizing start with
  | nil => cases one
  | cons s rest ih =>
    by_cases here : s = .bind l
    · subst here
      have none : .bind l ∉ rest := by
        rw [List.count_cons_self] at once
        exact List.count_eq_zero.mp (by omega)
      have head (place : Nat) (member : (place, Step.bind l) ∈ placedFrom start (.bind l :: rest)) :
          place = start := by
        obtain same | later := List.mem_cons.mp member
        · exact (Prod.mk.inj same).1
        · exact absurd (mem_of_mem_placedFrom later) none
      rw [head first one, head second other]
    · rw [List.count_cons_of_ne here] at once
      have tail (place : Nat) (member : (place, Step.bind l) ∈ placedFrom start (s :: rest)) :
          (place, Step.bind l) ∈ placedFrom (start + s.size) rest := by
        obtain same | later := List.mem_cons.mp member
        · exact absurd (Prod.mk.inj same).2.symm here
        · exact later
      exact ih once (tail first one) (tail second other)

theorem labelAt?_mem {steps : List Step} {l : Label} {dest : Nat}
    (found : labelAt? steps l = some dest) : (dest, .bind l) ∈ placed steps := by
  obtain ⟨⟨here, s⟩, member, same⟩ := List.exists_of_findSome?_eq_some found
  obtain ⟨rfl, ⟨⟩⟩ := Option.ite_none_right_eq_some.mp same
  exact member

theorem labelAt?_eq_none_iff {steps : List Step} {l : Label} :
    labelAt? steps l = none ↔ .bind l ∉ steps := by
  rw [labelAt?, List.findSome?_eq_none_iff]
  constructor
  · intro none member
    obtain ⟨here, found⟩ := exists_mem_placedFrom member 0
    simpa using none _ found
  · rintro absent ⟨here, s⟩ member
    refine if_neg ?_
    rintro rfl
    exact absent (mem_of_mem_placedFrom member)

theorem labelAt?_snoc (before : List Step) (s : Step) (l : Label) :
    labelAt? (before ++ [s]) l =
      (labelAt? before l).or (if s = .bind l then some (words before) else none) := by
  rw [labelAt?, placed_snoc, List.findSome?_append, List.findSome?_singleton]
  rfl

/-- Sound steps may be followed by this one. -/
structure Accepts (before : List Step) (s : Step) : Prop where
  created : ∀ l, s.label? = some l → Created before l
  fields : ∀ branch l, s.branch? = some (branch, l) → FieldsFit branch
  backward : ∀ branch l dest, s.branch? = some (branch, l) → labelAt? before l = some dest →
    InReach branch (dest - words before)
  fresh : ∀ l, s = .bind l → labelAt? before l = none
  forward : ∀ here t branch l, s = .bind l → (here, t) ∈ placed before →
    t.branch? = some (branch, l) → InReach branch (words before - here)

theorem sound_nil : Sound [] where
  created before s after l same := by simp at same
  once l := by simp
  fields s member := by cases member
  reach here s branch l dest member := by cases member

theorem Sound.of_append {before after : List Step} (sound : Sound (before ++ after)) :
    Sound before where
  created first s rest l same :=
    sound.created first s (rest ++ after) l (by rw [same, List.append_assoc, List.cons_append])
  once l := Nat.le_trans (by rw [List.count_append]; omega) (sound.once l)
  fields s member := sound.fields s (List.mem_append_left _ member)
  reach here s branch l dest place leads bound := by
    have kept {p : Nat × Step} (member : p ∈ placed before) : p ∈ placed (before ++ after) := by
      rw [placed, placedFrom_append]
      exact List.mem_append_left _ member
    exact sound.reach here s branch l dest (kept place) leads (kept bound)

theorem Sound.created_of_mem {steps : List Step} (sound : Sound steps) {s : Step}
    (member : s ∈ steps) {l : Label} (names : s.label? = some l) : Created steps l := by
  obtain ⟨before, after, rfl⟩ := List.append_of_mem member
  obtain ⟨above, below⟩ := sound.created before s after l rfl names
  refine ⟨above, ?_⟩
  rw [created_append]
  omega

/-- What steps accept next is what keeps them sound. -/
theorem Sound.accepts {before : List Step} {s : Step} (sound : Sound (before ++ [s])) :
    Accepts before s where
  created l names := sound.created before s [] l rfl names
  fields branch l leads := sound.fields s (by simp) branch l leads
  backward branch l dest leads found :=
    sound.reach (words before) s branch l dest (mem_placed_snoc.mpr (.inr ⟨rfl, rfl⟩)) leads
      (mem_placed_snoc.mpr (.inl (labelAt?_mem found)))
  fresh l same := by
    rw [labelAt?_eq_none_iff]
    intro member
    have once := sound.once l
    have some := List.count_pos_iff.mpr member
    rw [same, List.count_append, List.count_singleton_self] at once
    omega
  forward here t branch l same place leads :=
    sound.reach here t branch l (words before) (mem_placed_snoc.mpr (.inl place)) leads
      (mem_placed_snoc.mpr (.inr ⟨rfl, same.symm⟩))

theorem Sound.snoc {before : List Step} {s : Step} (sound : Sound before)
    (accepts : Accepts before s) : Sound (before ++ [s]) where
  created first t rest l same names := by
    obtain ⟨after, rfl, split⟩ | ⟨after, rfl, split⟩ := List.append_eq_append_iff.mp same
    · cases after with
      | nil =>
        cases split
        rw [List.append_nil]
        exact accepts.created l names
      | cons u after => simp at split
    · cases after with
      | nil =>
        cases split
        rw [List.append_nil] at accepts
        exact accepts.created l names
      | cons u after =>
        obtain ⟨rfl, -⟩ := List.cons.inj split
        exact sound.created first _ after l rfl names
  once l := by
    have once := sound.once l
    rw [List.count_append]
    by_cases same : s = .bind l
    · have none := List.count_eq_zero.mpr (labelAt?_eq_none_iff.mp (accepts.fresh l same))
      have one : [s].count (.bind l) = 1 := by rw [same, List.count_singleton_self]
      omega
    · rw [List.count_cons_of_ne same, List.count_nil]
      exact once
  fields t member branch l leads := by
    obtain old | new := List.mem_append.mp member
    · exact sound.fields t old branch l leads
    · rw [List.mem_singleton.mp new] at leads
      exact accepts.fields branch l leads
  reach here t branch l dest place leads bound := by
    obtain source | ⟨rfl, rfl⟩ := mem_placed_snoc.mp place
    · obtain target | ⟨rfl, same⟩ := mem_placed_snoc.mp bound
      · exact sound.reach here t branch l dest source leads target
      · exact accepts.forward here t branch l same.symm source leads
    · obtain target | ⟨rfl, same⟩ := mem_placed_snoc.mp bound
      · cases found : labelAt? before l with
        | none => exact absurd (mem_of_mem_placedFrom target) (labelAt?_eq_none_iff.mp found)
        | some other =>
          rw [bind_unique (sound.once l) target (labelAt?_mem found)]
          exact accepts.backward branch l other leads found
      · rw [← same] at leads
        cases leads

end PowerAsm.Proofs.TwoPass
