import PowerAsm.Proofs.Labels.States
import PowerAsm.Proofs.TwoPass

/-! Labels in one pass. While steps are run, every branch to a bound label holds its
displacement and every other one waits at its label with an empty field; binding a label
fills these in. What is finished is the code of the two-pass assembler. -/
namespace PowerAsm.Proofs.Labels
open Storage Branches TwoPass

/-- What a step asks of the assembler. -/
def runStep : Step → Asm Unit
  | .newLabel => do
    let _ ← Asm.newLabel
  | .word w => Asm.emit w
  | .branchTo branch l => Asm.branchTo branch l
  | .branchIf cr c l => Asm.branchIf cr c l
  | .bind l => Asm.bind l

/-- What a step has written when only some labels are bound. -/
def codeAt (labelAt? : Label → Option Nat) : Nat × Step → List Word
  | (here, s) =>
    match s.branch? with
    | some (branch, l) =>
      [match labelAt? l with
        | some dest => wordOf branch (dest - here)
        | none => bare branch]
    | none => s.plain

def codeOf (labelAt? : Label → Option Nat) (places : List (Nat × Step)) : List Word :=
  places.flatMap (codeAt labelAt?)

/-- A branch to the label, as a place to be patched. -/
def siteOf? (l : Label) : Nat × Step → Option PatchSite
  | (here, s) =>
    match s.branch? with
    | some (branch, other) =>
      if other = l then some ⟨Int64.ofNat (4 * here), branch.form⟩ else none
    | none => none

/-- What is known of a label: its place, or the branches that wait for it. -/
def stateOf (steps : List Step) (l : Label) : LabelState :=
  match labelAt? steps l with
  | some dest => ⟨some (Int64.ofNat (4 * dest)), []⟩
  | none => ⟨none, (placed steps).filterMap (siteOf? l)⟩

/-- What is known of the label of an index. Only an index that is a number has one. -/
def stateAt (steps : List Step) (i : Nat) : LabelState :=
  if i < 2 ^ 63 then stateOf steps ⟨Int64.ofNat i⟩ else ⟨none, []⟩

/-- An assembler that has run these steps. -/
structure Traced (order : ByteOrder) (steps : List Step) (a : Assembly) : Prop where
  code : Code a (codeOf (labelAt? steps) (placed steps))
  labels : a.assembler.labels.toList = (List.range (created steps)).map (stateAt steps)
  frames : a.assembler.frames = #[]
  order : a.segment.order = order

theorem fresh_traced (target : Target) (order : ByteOrder) :
    Traced order [] (.fresh target order) where
  code := fresh_code target order
  labels := rfl
  frames := rfl
  order := rfl

theorem length_codeOf (labelAt? : Label → Option Nat) (here : Nat) (steps : List Step) :
    (codeOf labelAt? (placedFrom here steps)).length = words steps := by
  induction steps generalizing here with
  | nil => rfl
  | cons s rest ih =>
    have own : (codeAt labelAt? (here, s)).length = s.size := by
      cases s <;> rfl
    rw [placedFrom, codeOf, List.flatMap_cons, List.length_append, own]
    exact congrArg (s.size + ·) (ih _)

theorem Traced.length {order : ByteOrder} {steps : List Step} {a : Assembly}
    (traced : Traced order steps a) :
    a.assembler.buffer.length a.segment = Int64.ofNat (4 * words steps) := by
  rw [traced.code.length, placed, length_codeOf]

theorem Traced.room {order : ByteOrder} {steps : List Step} {a : Assembly}
    (traced : Traced order steps a) : 4 * words steps ≤ largest := by
  have bound := traced.code.length_le
  rwa [placed, length_codeOf] at bound

theorem stateAt_index {steps : List Step} {l : Label} (above : 0 ≤ l.number.toInt) :
    stateAt steps l.index = stateOf steps l := by
  obtain ⟨small, same⟩ := index_label above
  rw [stateAt, if_pos small, same]

theorem Traced.entry {order : ByteOrder} {steps : List Step} {a : Assembly}
    (traced : Traced order steps a) (i : Nat) :
    a.assembler.labels.toList[i]? = if i < created steps then some (stateAt steps i) else none := by
  rw [traced.labels, List.getElem?_map]
  split
  · rename_i inside
    rw [List.getElem?_range inside]
    rfl
  · rename_i outside
    rw [List.getElem?_eq_none (by simpa using outside)]
    rfl

theorem index_lt {steps : List Step} {l : Label} (made : Created steps l) :
    l.index < created steps := by
  obtain ⟨above, below⟩ := made
  simp only [Label.index]
  omega

theorem code_withState {a : Assembly} {ws : List Word} (code : Code a ws) (l : Label)
    (state : LabelState) : Code (withState a l state) ws :=
  ⟨code.start, code.written, code.doubling, code.small⟩

theorem foreign_harmless (number : Int64) : Harmless (.misuse (.foreignLabel number)) := by
  refine misuse_harmless ?_
  simp only [Misuse.message, List.append_assoc]
  exact List.prefix_append _ _

theorem rebound_harmless (number first second : Int64) :
    Harmless (.misuse (.reboundLabel number first second)) := by
  refine misuse_harmless ?_
  simp only [Misuse.message, List.append_assoc]
  exact List.prefix_append _ _

theorem dangling_harmless (index branches : Nat) (first : Int64) :
    Harmless (.misuse (.danglingLabel index branches first)) := by
  refine misuse_harmless ?_
  simp only [Misuse.message, List.append_assoc]
  exact List.prefix_append _ _

/-- The state of a label is known exactly when the label was created. -/
theorem Traced.state_cases {order : ByteOrder} {steps : List Step} {a : Assembly}
    (traced : Traced order steps a) (l : Label) :
    (Created steps l ∧ stateOf? a.assembler.labels l = some (stateOf steps l)) ∨
      ¬ Created steps l ∧ stateOf? a.assembler.labels l = none := by
  have entry := traced.entry l.index
  rw [Array.getElem?_toList] at entry
  by_cases above : 0 ≤ l.number.toInt
  · rw [stateOf?_of_nonneg above, entry]
    by_cases inside : l.index < created steps
    · refine .inl ⟨⟨above, by simp only [Label.index] at inside; omega⟩, ?_⟩
      rw [if_pos inside, stateAt_index above]
    · exact .inr ⟨fun made => inside (index_lt made), if_neg inside⟩
  · have negative : l.number < 0 := Int64.lt_iff_toInt_lt.mpr (Int.not_le.mp above)
    exact .inr ⟨fun made => above made.1, if_pos negative⟩

theorem labelAt?_snoc_of_ne {s : Step} (other : ∀ l, s ≠ .bind l) (before : List Step) :
    labelAt? (before ++ [s]) = labelAt? before := by
  funext l
  rw [labelAt?_snoc, if_neg (other l), Option.or_none]

theorem codeOf_snoc (labelAt? : Label → Option Nat) (before : List Step) (s : Step) :
    codeOf labelAt? (placed (before ++ [s])) =
      codeOf labelAt? (placed before) ++ codeAt labelAt? (words before, s) := by
  rw [placed_snoc, codeOf, List.flatMap_append, List.flatMap_singleton]
  rfl

theorem siteOf?_of_ne {l : Label} {here : Nat} {s : Step}
    (away : ∀ branch, s.branch? ≠ some (branch, l)) : siteOf? l (here, s) = none := by
  cases leads : s.branch? with
  | none => simp only [siteOf?, leads]
  | some way =>
    obtain ⟨branch, other⟩ := way
    have elsewhere : other ≠ l := by
      rintro rfl
      exact away branch leads
    simp only [siteOf?, leads, if_neg elsewhere]

/-- A step that neither binds a label nor branches to it leaves the label as it is. -/
theorem stateOf_snoc_of_ne {before : List Step} {s : Step} {l : Label} (other : s ≠ .bind l)
    (away : ∀ branch, s.branch? ≠ some (branch, l)) :
    stateOf (before ++ [s]) l = stateOf before l := by
  have sites : (placed (before ++ [s])).filterMap (siteOf? l) =
      (placed before).filterMap (siteOf? l) := by
    rw [placed_snoc, List.filterMap_append, List.filterMap_cons_none (siteOf?_of_ne away),
      List.filterMap_nil, List.append_nil]
  rw [stateOf, stateOf, labelAt?_snoc, if_neg other, Option.or_none, sites]

/-- A branch to a label that is not bound waits there. -/
theorem stateOf_snoc_branch {before : List Step} {s : Step} {l : Label} {branch : Branch}
    (leads : s.branch? = some (branch, l)) (free : labelAt? before l = none) :
    stateOf (before ++ [s]) l =
      { stateOf before l with pending := (stateOf before l).pending ++
        [⟨Int64.ofNat (4 * words before), branch.form⟩] } := by
  have other : s ≠ .bind l := by
    rintro rfl
    cases leads
  have site : siteOf? l (words before, s) =
      some ⟨Int64.ofNat (4 * words before), branch.form⟩ := by
    simp only [siteOf?, leads, if_pos]
  simp only [stateOf, labelAt?_snoc, free, if_neg other, Option.or_none]
  rw [placed_snoc, List.filterMap_append, List.filterMap_cons_some site, List.filterMap_nil]

theorem stateAt_congr {steps steps' : List Step}
    (same : ∀ l, stateOf steps' l = stateOf steps l) : stateAt steps' = stateAt steps := by
  funext i
  rw [stateAt, stateAt, same]

/-- Storing the new state of one label is all that a step on that label takes. -/
theorem labels_set {steps steps' : List Step} {labels : Array LabelState} {l : Label}
    (held : labels.toList = (List.range (created steps)).map (stateAt steps))
    (above : 0 ≤ l.number.toInt) (count : created steps' = created steps)
    (others : ∀ other, other ≠ l → stateOf steps' other = stateOf steps other) :
    (labels.setIfInBounds l.index (stateOf steps' l)).toList =
      (List.range (created steps')).map (stateAt steps') := by
  rw [Array.toList_setIfInBounds, held, count]
  apply List.ext_getElem?
  intro i
  rw [List.getElem?_set, List.getElem?_map, List.getElem?_map]
  by_cases inside : i < created steps
  · rw [List.getElem?_range inside, Option.map_some, Option.map_some]
    by_cases here : l.index = i
    · subst here
      rw [if_pos rfl, if_pos (by simpa using inside), stateAt_index above]
    · rw [if_neg here, stateAt, stateAt]
      split
      · rename_i small
        rw [others]
        rintro rfl
        apply here
        show (Int64.ofNat i).toInt.toNat = i
        rw [Int64.toInt_ofNat_of_lt small]
        exact Int.toNat_natCast i
      · rfl
  · have outside : (List.range (created steps))[i]? = none :=
      List.getElem?_eq_none (by simpa using inside)
    rw [outside]
    split
    · rename_i here
      subst here
      rw [if_neg (by simpa using inside)]
      rfl
    · rfl

/-- Steps may be followed by this one, and there is storage for its word. -/
def Takes (before : List Step) (s : Step) : Prop :=
  Accepts before s ∧ 4 * words (before ++ [s]) ≤ largest

/-- What running a step comes to: the step is taken and leaves a traced assembler, or it is
not taken and fails without blaming the assembler. -/
def Outcome (order : ByteOrder) (before : List Step) (s : Step)
    (result : EStateM.Result Fault Assembly Unit) : Prop :=
  (Takes before s ∧ ∃ a, result = .ok () a ∧ Traced order (before ++ [s]) a) ∨
    ¬ Takes before s ∧ ∃ e a, result = .error e a ∧ Harmless e

/-- Writing the word of an accepted step when the labels are up to date already. -/
theorem emit_outcome {order : ByteOrder} {before : List Step} {s : Step} {a : Assembly} {w : Word}
    (code : Code a (codeOf (labelAt? before) (placed before)))
    (labels : a.assembler.labels.toList =
      (List.range (created (before ++ [s]))).map (stateAt (before ++ [s])))
    (frames : a.assembler.frames = #[]) (same : a.segment.order = order)
    (other : ∀ l, s ≠ .bind l) (size : s.size = 1)
    (own : codeAt (labelAt? before) (words before, s) = [w]) (accepts : Accepts before s) :
    Outcome order before s (Asm.emit w a) := by
  have length := length_codeOf (labelAt? before) 0 before
  have total : words (before ++ [s]) = words before + 1 := by
    rw [words_append]
    exact congrArg (words before + ·) size
  by_cases room : 4 * (words before + 1) ≤ largest
  · obtain ⟨a', emitted, code', order', assembler⟩ :=
      emit_code code w (by rw [placed, length]; exact room)
    refine .inl ⟨⟨accepts, by rw [total]; exact room⟩, a', emitted, ?_, ?_, ?_, order'.trans same⟩
    · rw [labelAt?_snoc_of_ne other, codeOf_snoc, own]
      exact code'
    · rw [assembler]
      exact labels
    · rw [assembler]
      exact frames
  · have refused := emit_full code w (by rw [placed, length]; omega)
    refine .inr ⟨fun takes => room ?_, _, _, refused, outOfBounds_harmless⟩
    rw [← total]
    exact takes.2

theorem run_word {order : ByteOrder} {before : List Step} {a : Assembly}
    (traced : Traced order before a) (w : Word) :
    Outcome order before (.word w) (runStep (.word w) a) := by
  have accepts : Accepts before (.word w) := by
    constructor <;> intros <;> contradiction
  have states : stateAt (before ++ [.word w]) = stateAt before :=
    stateAt_congr fun l => stateOf_snoc_of_ne nofun nofun
  refine emit_outcome traced.code ?_ traced.frames traced.order nofun rfl rfl accepts
  rw [states, created_append]
  exact traced.labels

/-- A place that a label is bound to lies in the code. -/
theorem place_le {here start : Nat} {s : Step} {steps : List Step}
    (member : (here, s) ∈ placedFrom start steps) : here ≤ start + words steps := by
  induction steps generalizing start with
  | nil => cases member
  | cons first rest ih =>
    obtain same | later := List.mem_cons.mp member
    · cases same
      exact Nat.le_add_right _ _
    · have bound := ih later
      rw [words, List.map_cons, List.sum_cons, ← Nat.add_assoc]
      exact bound

theorem branch_facts {s : Step} {branch : Branch} {l : Label}
    (leads : s.branch? = some (branch, l)) :
    s.label? = some l ∧ s.size = 1 ∧ (∀ other, s ≠ .bind other) ∧ s ≠ .newLabel := by
  cases s with
  | branchTo b dest =>
    cases leads
    exact ⟨rfl, rfl, nofun, nofun⟩
  | branchIf cr c dest =>
    cases leads
    exact ⟨rfl, rfl, nofun, nofun⟩
  | newLabel | word w | bind dest => cases leads

/-- A branch to a created label is accepted when it fits its word. -/
theorem accepts_branch {before : List Step} {s : Step} {branch : Branch} {l : Label}
    (leads : s.branch? = some (branch, l)) (made : Created before l) (fit : FieldsFit branch)
    (near : ∀ dest, labelAt? before l = some dest → InReach branch (dest - words before)) :
    Accepts before s := by
  obtain ⟨names, -, other, -⟩ := branch_facts leads
  refine ⟨?_, ?_, ?_, ?_, ?_⟩
  · intro l' names'
    cases names.symm.trans names'
    exact made
  · intro branch' l' leads'
    cases leads.symm.trans leads'
    exact fit
  · intro branch' l' dest leads'
    cases leads.symm.trans leads'
    exact near dest
  · exact fun l' same => absurd same (other l')
  · exact fun here t branch' l' same => absurd same (other l')

section Branch
variable {order : ByteOrder} {before : List Step} {a : Assembly} {s : Step} {branch : Branch}
  {l : Label}

theorem created_branch (leads : s.branch? = some (branch, l)) :
    created (before ++ [s]) = created before := by
  obtain ⟨-, -, -, old⟩ := branch_facts leads
  rw [created_append]
  exact congrArg (created before + ·) (List.count_eq_zero.mpr (by simpa using old.symm))

theorem stateOf_branch_of_ne (leads : s.branch? = some (branch, l)) {l' : Label} (ne : l' ≠ l) :
    stateOf (before ++ [s]) l' = stateOf before l' := by
  obtain ⟨-, -, other, -⟩ := branch_facts leads
  refine stateOf_snoc_of_ne (other l') fun branch' leads' => ne ?_
  cases leads.symm.trans leads'
  rfl

/-- A branch to a bound label is written with its displacement. -/
theorem branch_bound (traced : Traced order before a) (leads : s.branch? = some (branch, l))
    (made : Created before l) (known : stateOf? a.assembler.labels l = some (stateOf before l))
    {dest : Nat} (found : labelAt? before l = some dest) :
    Outcome order before s (Asm.branchTo branch l a) := by
  obtain ⟨-, size, other, -⟩ := branch_facts leads
  have state : stateOf before l = ⟨some (Int64.ofNat (4 * dest)), []⟩ := by
    rw [stateOf, found]
  rw [state] at known
  have room := traced.room
  have inside := place_le (labelAt?_mem found)
  simp only [largest] at room
  rw [branchTo_bound known, traced.length]
  obtain ⟨⟨fit, near⟩, encoded⟩ | ⟨unfit, e, refused, harmless⟩ :=
    encodeFromTo_cases branch (words before) dest (by omega) (by omega)
  · rw [emitEncoded_ok encoded]
    have same : ∀ l', stateOf (before ++ [s]) l' = stateOf before l' := by
      intro l'
      by_cases here : l' = l
      · subst here
        rw [stateOf, stateOf, labelAt?_snoc, found]
        rfl
      · exact stateOf_branch_of_ne leads here
    refine emit_outcome traced.code ?_ traced.frames traced.order other size ?_ ?_
    · rw [stateAt_congr same, created_branch leads]
      exact traced.labels
    · simp only [codeAt, leads, found]
    · refine accepts_branch leads made fit fun dest' found' => ?_
      cases found.symm.trans found'
      exact near
  · rw [emitEncoded_error refused]
    refine .inr ⟨fun takes => unfit ?_, e, a, rfl, harmless⟩
    exact ⟨takes.1.fields branch l leads, takes.1.backward branch l dest leads found⟩

/-- A branch to a label that is not bound is written bare and waits at the label. -/
theorem branch_free (traced : Traced order before a) (leads : s.branch? = some (branch, l))
    (made : Created before l) (known : stateOf? a.assembler.labels l = some (stateOf before l))
    (found : labelAt? before l = none) :
    Outcome order before s (Asm.branchTo branch l a) := by
  obtain ⟨-, size, other, -⟩ := branch_facts leads
  have state : stateOf before l = ⟨none, (placed before).filterMap (siteOf? l)⟩ := by
    rw [stateOf, found]
  have next := stateOf_snoc_branch leads found
  rw [state] at known next
  rw [branchTo_free known, traced.length, ← next]
  obtain ⟨fit, encoded⟩ | ⟨unfit, e, refused, harmless⟩ := encode_zero_cases branch
  · rw [emitEncoded_ok encoded]
    refine emit_outcome (code_withState traced.code _ _) ?_ traced.frames traced.order other size
      ?_ ?_
    · exact labels_set traced.labels made.1 (created_branch leads)
        fun l' ne => stateOf_branch_of_ne leads ne
    · simp only [codeAt, leads, found]
    · refine accepts_branch leads made fit fun dest found' => ?_
      cases found.symm.trans found'
  · rw [emitEncoded_error refused]
    exact .inr ⟨fun takes => unfit (takes.1.fields branch l leads), e, _, rfl, harmless⟩

theorem run_branch (traced : Traced order before a) (leads : s.branch? = some (branch, l)) :
    Outcome order before s (Asm.branchTo branch l a) := by
  obtain ⟨made, known⟩ | ⟨foreign, unknown⟩ := traced.state_cases l
  · cases found : labelAt? before l with
    | some dest => exact branch_bound traced leads made known found
    | none => exact branch_free traced leads made known found
  · obtain ⟨names, -, -, -⟩ := branch_facts leads
    exact .inr ⟨fun takes => foreign (takes.1.created l names), _, a, branchTo_foreign unknown,
      foreign_harmless l.number⟩

end Branch

/-- Two assemblers that differ only in what is written. -/
def SameLabels (a b : Assembly) : Prop :=
  b.assembler.labels = a.assembler.labels ∧ b.assembler.frames = a.assembler.frames ∧
    b.segment.order = a.segment.order

theorem SameLabels.trans {a b c : Assembly} (first : SameLabels a b) (second : SameLabels b c) :
    SameLabels a c :=
  ⟨second.1.trans first.1, second.2.1.trans first.2.1, second.2.2.trans first.2.2⟩

/-- A branch that waits is patched when its label is in reach. -/
theorem patch_cases {a : Assembly} {ws : List Word} (code : Code a ws) (here : Nat) {dest : Nat}
    {branch : Branch} (held : ws[here]? = some (bare branch)) (fit : FieldsFit branch)
    (room : 4 * dest ≤ largest) :
    (InReach branch (dest - here) ∧
        ∃ b, Asm.patch (Int64.ofNat (4 * dest)) ⟨Int64.ofNat (4 * here), branch.form⟩ a =
            .ok () b ∧
          Code b (ws.set here (wordOf branch (dest - here))) ∧ SameLabels a b) ∨
      ¬ InReach branch (dest - here) ∧
        ∃ e b, Asm.patch (Int64.ofNat (4 * dest)) ⟨Int64.ofNat (4 * here), branch.form⟩ a =
          .error e b ∧ Harmless e := by
  obtain ⟨inside, word⟩ := List.getElem?_eq_some_iff.mp held
  have read := code.wordAt inside
  have bound := code.length_le
  rw [word] at read
  simp only [largest] at room bound
  obtain ⟨⟨-, near⟩, patched⟩ | ⟨unfit, e, refused, harmless⟩ :=
    encodeFromTo_cases branch here dest (by omega) (by omega)
  · obtain ⟨segment, stored, code', order⟩ := code.putWordAt inside (wordOf branch (dest - here))
    have ran := patch_eq (Int64.ofNat (4 * dest)) ⟨Int64.ofNat (4 * here), branch.form⟩ a
    simp only [read, patchedWord_bare fit, patched, stored] at ran
    exact .inl ⟨near, _, ran, ⟨code'.start, code'.written, code'.doubling, code'.small⟩,
      rfl, rfl, order⟩
  · refine .inr ⟨fun near => unfit ⟨fit, near⟩, e, a, ?_, harmless⟩
    simp only [patch_eq, read, patchedWord_bare fit, refused]

/-- The labels with one more bound. -/
def bindTo (labelAt? : Label → Option Nat) (l : Label) (dest : Nat) : Label → Option Nat :=
  fun other => if other = l then some dest else labelAt? other

/-- All waiting branches of some steps can reach the place. -/
def AllInReach (l : Label) (dest : Nat) (places : List (Nat × Step)) : Prop :=
  ∀ here s branch, (here, s) ∈ places → s.branch? = some (branch, l) → InReach branch (dest - here)

theorem allInReach_cons {l : Label} {dest here : Nat} {s : Step} {places : List (Nat × Step)} :
    AllInReach l dest ((here, s) :: places) ↔
      (∀ branch, s.branch? = some (branch, l) → InReach branch (dest - here)) ∧
        AllInReach l dest places := by
  constructor
  · intro all
    exact ⟨fun branch => all here s branch List.mem_cons_self,
      fun place t branch member => all place t branch (List.mem_cons_of_mem _ member)⟩
  · rintro ⟨first, rest⟩ place t branch member leads
    obtain same | later := List.mem_cons.mp member
    · cases same
      exact first branch leads
    · exact rest place t branch later leads

/-- What patching the waiting branches of some places comes to, with `done` before them. -/
def Patches (labelAt? : Label → Option Nat) (l : Label) (dest : Nat) (a : Assembly)
    (done : List Word) (places : List (Nat × Step))
    (result : EStateM.Result Fault Assembly Unit) : Prop :=
  (AllInReach l dest places ∧ ∃ b, result = .ok () b ∧
      Code b (done ++ codeOf (bindTo labelAt? l dest) places) ∧ SameLabels a b) ∨
    ¬ AllInReach l dest places ∧ ∃ e b, result = .error e b ∧ Harmless e

theorem codeAt_bindTo_of_ne {l : Label} {s : Step} (away : ∀ branch, s.branch? ≠ some (branch, l))
    (labelAt? : Label → Option Nat) (dest here : Nat) :
    codeAt (bindTo labelAt? l dest) (here, s) = codeAt labelAt? (here, s) := by
  cases leads : s.branch? with
  | none => simp only [codeAt, leads]
  | some way =>
    obtain ⟨branch, other⟩ := way
    have elsewhere : other ≠ l := by
      rintro rfl
      exact away branch leads
    simp only [codeAt, leads, bindTo, if_neg elsewhere]

/-- Patching goes through the branches that wait for a label in the order of the code. -/
theorem patch_all {labelAt? : Label → Option Nat} {l : Label} {dest : Nat}
    (free : labelAt? l = none) (room : 4 * dest ≤ largest) (steps : List Step)
    (fields : ∀ s ∈ steps, ∀ branch l, s.branch? = some (branch, l) → FieldsFit branch)
    {a : Assembly} {done : List Word}
    (code : Code a (done ++ codeOf labelAt? (placedFrom done.length steps))) :
    Patches labelAt? l dest a done (placedFrom done.length steps)
      (((placedFrom done.length steps).filterMap (siteOf? l)).forM
        (Asm.patch (Int64.ofNat (4 * dest))) a) := by
  induction steps generalizing a done with
  | nil => exact .inl ⟨fun here s branch => nofun, a, rfl, code, rfl, rfl, rfl⟩
  | cons s rest ih =>
    have later : ∀ s ∈ rest, ∀ branch l, s.branch? = some (branch, l) → FieldsFit branch :=
      fun s member => fields s (List.mem_cons_of_mem _ member)
    have places (own : List Word) (size : own.length = s.size) :
        placedFrom done.length (s :: rest) =
          (done.length, s) :: placedFrom (done ++ own).length rest := by
      rw [placedFrom, List.length_append, size]
    by_cases leads : ∃ branch, s.branch? = some (branch, l)
    · obtain ⟨branch, leads⟩ := leads
      obtain ⟨-, size, -, -⟩ := branch_facts leads
      let filled := wordOf branch (dest - done.length)
      have site : siteOf? l (done.length, s) =
          some ⟨Int64.ofNat (4 * done.length), branch.form⟩ := by
        simp only [siteOf?, leads, if_pos]
      have before : codeAt labelAt? (done.length, s) = [bare branch] := by
        simp only [codeAt, leads, free]
      have after : codeAt (bindTo labelAt? l dest) (done.length, s) = [filled] := by
        simp only [codeAt, leads, bindTo, if_pos, filled]
      have place := places [filled] size.symm
      rw [place, codeOf, List.flatMap_cons, before] at code
      rw [place, List.filterMap_cons_some site]
      have here := patch_cases code done.length (by simp)
        (fields s List.mem_cons_self branch l leads) room
      obtain ⟨near, b, patched, code', same⟩ | ⟨far, e, b, refused, harmless⟩ := here
      · rw [List.forM, bind_apply, patched]
        have next : Code b
            ((done ++ [filled]) ++ codeOf labelAt? (placedFrom (done ++ [filled]).length rest)) := by
          simpa [codeOf] using code'
        obtain ⟨reach, c, looped, code'', same'⟩ | ⟨short, failed⟩ := ih later next
        · refine .inl ⟨allInReach_cons.mpr ⟨?_, reach⟩, c, looped, ?_, same.trans same'⟩
          · intro branch' leads'
            cases leads.symm.trans leads'
            exact near
          · rw [codeOf, List.flatMap_cons, after, ← List.append_assoc]
            exact code''
        · exact .inr ⟨fun all => short (allInReach_cons.mp all).2, failed⟩
      · rw [List.forM, bind_apply, refused]
        exact .inr ⟨fun all => far ((allInReach_cons.mp all).1 branch leads), e, b, rfl, harmless⟩
    · have away : ∀ branch, s.branch? ≠ some (branch, l) := fun branch same => leads ⟨branch, same⟩
      have kept := codeAt_bindTo_of_ne away labelAt? dest done.length
      have place := places (codeAt labelAt? (done.length, s)) (by cases s <;> rfl)
      rw [place, codeOf, List.flatMap_cons, ← List.append_assoc] at code
      rw [place, List.filterMap_cons_none (siteOf?_of_ne away)]
      obtain ⟨reach, c, looped, code', same⟩ | ⟨short, failed⟩ := ih later code
      · refine .inl ⟨allInReach_cons.mpr ⟨fun branch leads' => absurd leads' (away branch), reach⟩,
          c, looped, ?_, same⟩
        rw [codeOf, List.flatMap_cons, kept, ← List.append_assoc]
        exact code'
      · exact .inr ⟨fun all => short (allInReach_cons.mp all).2, failed⟩

theorem patch_placed {before : List Step} {l : Label} {dest : Nat}
    (free : labelAt? before l = none) (room : 4 * dest ≤ largest)
    (fields : ∀ s ∈ before, ∀ branch l, s.branch? = some (branch, l) → FieldsFit branch)
    {a : Assembly} (code : Code a (codeOf (labelAt? before) (placed before))) :
    Patches (labelAt? before) l dest a [] (placed before)
      (((placed before).filterMap (siteOf? l)).forM (Asm.patch (Int64.ofNat (4 * dest))) a) :=
  @patch_all _ _ _ free room before fields a [] code

theorem labelAt?_bind {before : List Step} {l : Label} (free : labelAt? before l = none) :
    labelAt? (before ++ [.bind l]) = bindTo (labelAt? before) l (words before) := by
  funext other
  rw [labelAt?_snoc, bindTo]
  by_cases same : other = l
  · subst same
    rw [free, if_pos rfl, if_pos rfl]
    rfl
  · have differs : Step.bind l ≠ .bind other := fun equal => same (Step.bind.inj equal).symm
    rw [if_neg differs, if_neg same, Option.or_none]

theorem stateOf_bind {before : List Step} {l : Label} (free : labelAt? before l = none) :
    stateOf (before ++ [.bind l]) l = ⟨some (Int64.ofNat (4 * words before)), []⟩ := by
  rw [stateOf, labelAt?_bind free, bindTo, if_pos rfl]

theorem accepts_bind {before : List Step} {l : Label} :
    Accepts before (.bind l) ↔ Created before l ∧ labelAt? before l = none ∧
      AllInReach l (words before) (placed before) := by
  constructor
  · intro accepts
    exact ⟨accepts.created l rfl, accepts.fresh l rfl,
      fun here s branch => accepts.forward here s branch l rfl⟩
  · rintro ⟨made, free, reach⟩
    refine ⟨?_, nofun, nofun, ?_, ?_⟩
    · rintro l' ⟨⟩
      exact made
    · rintro l' ⟨⟩
      exact free
    · rintro here t branch l' ⟨⟩
      exact reach here t branch

theorem run_bind_free {order : ByteOrder} {before : List Step} {a : Assembly}
    (traced : Traced order before a) (sound : Sound before) {l : Label} (made : Created before l)
    (free : labelAt? before l = none)
    (known : stateOf? a.assembler.labels l = some (stateOf before l)) :
    Outcome order before (.bind l) (Asm.bind l a) := by
  have state : stateOf before l = ⟨none, (placed before).filterMap (siteOf? l)⟩ := by
    rw [stateOf, free]
  rw [state] at known
  have others : ∀ other, other ≠ l → stateOf (before ++ [.bind l]) other = stateOf before other :=
    fun other ne => stateOf_snoc_of_ne (fun same => ne (Step.bind.inj same).symm) nofun
  rw [bind_free known, traced.length, ← stateOf_bind free, bind_apply]
  obtain ⟨reach, b, patched, code, labels, frames, order'⟩ | ⟨short, e, b, refused, harmless⟩ :=
    patch_placed free traced.room sound.fields (code_withState traced.code l _)
  · rw [patched]
    have takes : Takes before (.bind l) :=
      ⟨accepts_bind.mpr ⟨made, free, reach⟩, by simpa [words, Step.size] using traced.room⟩
    refine .inl ⟨takes, _, setLabelState_apply _ _ b, ?_, ?_, frames.trans traced.frames,
      order'.trans traced.order⟩
    · rw [labelAt?_bind free, codeOf_snoc]
      rw [List.nil_append] at code
      simpa only [codeAt, Step.branch?, Step.plain, List.append_nil] using code_withState code l _
    · rw [← labels_set traced.labels made.1 (created_append before [.bind l]) others]
      show (b.assembler.labels.setIfInBounds _ _).toList = _
      rw [labels]
      exact congrArg Array.toList (Array.setIfInBounds_setIfInBounds _)
  · rw [refused]
    exact .inr ⟨fun takes => short (accepts_bind.mp takes.1).2.2, e, b, rfl, harmless⟩

/-- A label that is bound already, or that some branch cannot reach, is not bound. -/
theorem run_bind {order : ByteOrder} {before : List Step} {a : Assembly}
    (traced : Traced order before a) (sound : Sound before) (l : Label) :
    Outcome order before (.bind l) (Asm.bind l a) := by
  obtain ⟨made, known⟩ | ⟨foreign, unknown⟩ := traced.state_cases l
  · cases found : labelAt? before l with
    | some dest =>
      rw [stateOf, found] at known
      refine .inr ⟨fun takes => ?_, _, a, bind_bound known, rebound_harmless _ _ _⟩
      cases found.symm.trans (accepts_bind.mp takes.1).2.1
    | none => exact run_bind_free traced sound made found known
  · exact .inr ⟨fun takes => foreign (takes.1.created l rfl), _, a, bind_foreign unknown,
      foreign_harmless l.number⟩

/-- A label that was not created is not bound and has no branches. -/
theorem stateOf_unused {steps : List Step} (sound : Sound steps) {l : Label}
    (unused : ¬ Created steps l) : stateOf steps l = ⟨none, []⟩ := by
  have free : labelAt? steps l = none :=
    labelAt?_eq_none_iff.mpr fun member => unused (sound.created_of_mem member rfl)
  have sites : (placed steps).filterMap (siteOf? l) = [] := by
    rw [List.filterMap_eq_nil_iff]
    rintro ⟨here, s⟩ member
    refine siteOf?_of_ne fun branch leads => unused ?_
    exact sound.created_of_mem (mem_of_mem_placedFrom member) (branch_facts leads).1
  rw [stateOf, free, sites]

theorem run_newLabel {order : ByteOrder} {before : List Step} {a : Assembly}
    (traced : Traced order before a) (sound : Sound before) :
    Outcome order before .newLabel (runStep .newLabel a) := by
  have accepts : Accepts before .newLabel := by
    constructor <;> intros <;> contradiction
  have still : ∀ l, Step.newLabel ≠ .bind l := fun l => Step.noConfusion
  have states : stateAt (before ++ [.newLabel]) = stateAt before :=
    stateAt_congr fun l => stateOf_snoc_of_ne (still l) fun _ => (Option.some_ne_none _).symm
  have last : stateAt before (created before) = ⟨none, []⟩ := by
    rw [stateAt]
    split
    · rename_i small
      refine stateOf_unused sound fun made => ?_
      have below := made.2
      rw [Int64.toInt_ofNat_of_lt small] at below
      omega
    · rfl
  have room := traced.room
  refine .inl ⟨⟨accepts, by simpa [words, Step.size] using room⟩, _, rfl, ?_, ?_, traced.frames,
    traced.order⟩
  · rw [labelAt?_snoc_of_ne still, codeOf_snoc]
    have code := traced.code
    exact ⟨code.start, by simpa [codeAt, Step.branch?, Step.plain] using code.written, code.doubling,
      code.small⟩
  · rw [states, created_append]
    show (a.assembler.labels.push ⟨none, []⟩).toList = _
    rw [Array.toList_push, traced.labels]
    show _ = (List.range (created before + 1)).map (stateAt before)
    rw [List.range_succ, List.map_append, List.map_singleton, last]

/-- Every step is taken exactly when it may follow the steps before it. -/
theorem run_step {order : ByteOrder} {before : List Step} {a : Assembly}
    (traced : Traced order before a) (sound : Sound before) (s : Step) :
    Outcome order before s (runStep s a) := by
  cases s with
  | newLabel => exact run_newLabel traced sound
  | word w => exact run_word traced w
  | branchTo branch l => exact run_branch traced rfl
  | branchIf cr c l => exact run_branch traced rfl
  | bind l => exact run_bind traced sound l

end PowerAsm.Proofs.Labels
