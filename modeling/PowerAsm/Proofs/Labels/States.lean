import PowerAsm.Assembler.Label
import PowerAsm.Proofs.Storage

/-! What an assembler knows of its labels, and what a call with a label does in each of the three
cases: the label is not its own, it is bound, or branches may still wait for it. Nothing here
depends on what the segment holds. -/
namespace PowerAsm.Proofs.Labels
open Storage

theorem emitEncoded_ok {w : Except Fault Word} {word : Word} (encoded : w = .ok word)
    (a : Assembly) : Asm.emitEncoded w a = Asm.emit word a := by
  simp only [Asm.emitEncoded, encoded, bind_apply, ofExcept_ok]

theorem emitEncoded_error {w : Except Fault Word} {e : Fault} (refused : w = .error e)
    (a : Assembly) : Asm.emitEncoded w a = .error e a := by
  simp only [Asm.emitEncoded, refused, bind_apply, ofExcept_error]

/-- The assembler with the state of one label replaced. -/
def withState (a : Assembly) (l : Label) (state : LabelState) : Assembly :=
  ⟨a.segment, { a.assembler with labels := a.assembler.labels.setIfInBounds l.index state }⟩

theorem setLabelState_apply (l : Label) (state : LabelState) (a : Assembly) :
    Asm.setLabelState l state a = .ok () (withState a l state) := (rfl)

/-- What is known of a label, where the assembler has it. -/
def stateOf? (labels : Array LabelState) (l : Label) : Option LabelState :=
  if l.number < 0 then none else labels[l.index]?

theorem stateOf?_of_nonneg {labels : Array LabelState} {l : Label} (above : 0 ≤ l.number.toInt) :
    stateOf? labels l = labels[l.index]? := by
  have zero : (0 : Int64).toInt = 0 := rfl
  rw [stateOf?, if_neg]
  rw [Int64.lt_iff_toInt_lt]
  omega

theorem labelState_eq (l : Label) (a : Assembly) :
    Asm.labelState l a = match stateOf? a.assembler.labels l with
      | some state => .ok state a
      | none => .error (.misuse (.foreignLabel l.number)) a := by
  simp only [Asm.labelState, bind_apply, assembler_apply, stateOf?]
  generalize (if l.number < 0 then none else a.assembler.labels[l.index]?) = found
  cases found <;> rfl

theorem index_label {l : Label} (above : 0 ≤ l.number.toInt) :
    l.index < 2 ^ 63 ∧ (⟨Int64.ofNat l.index⟩ : Label) = l := by
  obtain ⟨number⟩ := l
  have below := Int64.toInt_lt number
  simp only at above
  have small : number.toInt.toNat < 2 ^ 63 := by omega
  refine ⟨small, ?_⟩
  rw [Label.mk.injEq]
  apply Int64.toInt_inj.mp
  show (Int64.ofNat number.toInt.toNat).toInt = number.toInt
  rw [Int64.toInt_ofNat_of_lt small]
  omega

theorem label_of_index {l l' : Label} (above : ¬ l.number < 0) (above' : ¬ l'.number < 0)
    (same : l.index = l'.index) : l = l' := by
  have zero : (0 : Int64).toInt = 0 := rfl
  rw [Int64.lt_iff_toInt_lt, Int.not_lt, zero] at above above'
  rw [← (index_label above).2, ← (index_label above').2, same]

theorem stateOf?_push (labels : Array LabelState) (new : LabelState) (l : Label) :
    stateOf? (labels.push new) l = stateOf? labels l ∨
      stateOf? labels l = none ∧ stateOf? (labels.push new) l = some new := by
  unfold stateOf?
  split
  · exact .inl rfl
  · rw [Array.getElem?_push]
    split
    · rename_i last
      rw [last]
      exact .inr ⟨Array.getElem?_eq_none (Nat.le_refl _), rfl⟩
    · exact .inl rfl

theorem stateOf?_set {labels : Array LabelState} {l : Label} {old : LabelState}
    (found : stateOf? labels l = some old) (new : LabelState) (l' : Label) :
    stateOf? (labels.setIfInBounds l.index new) l' =
      if l' = l then some new else stateOf? labels l' := by
  unfold stateOf? at found ⊢
  split at found
  · cases found
  · rename_i above
    have inside := (Array.getElem?_eq_some_iff.mp found).1
    by_cases same : l' = l
    · subst same
      rw [if_neg above, if_pos rfl, Array.getElem?_setIfInBounds_self_of_lt inside]
    · rw [if_neg same]
      split
      · rfl
      · rename_i above'
        apply Array.getElem?_setIfInBounds_ne
        exact fun equal => same (label_of_index above' above equal.symm)

section Calls
variable {a : Assembly} {l : Label} {branch : Branch} {dest : Int64} {pending : List PatchSite}

theorem branchTo_foreign (foreign : stateOf? a.assembler.labels l = none) :
    Asm.branchTo branch l a = .error (.misuse (.foreignLabel l.number)) a := by
  simp only [Asm.branchTo, bind_apply, labelState_eq, foreign]

/-- A branch to a label that is bound is written with its way. -/
theorem branchTo_bound (bound : stateOf? a.assembler.labels l = some ⟨some dest, pending⟩) :
    Asm.branchTo branch l a =
      Asm.emitEncoded (branch.encodeFromTo (a.assembler.buffer.length a.segment) dest) a := by
  simp only [Asm.branchTo, bind_apply, labelState_eq, bound, offset_apply]

/-- A branch to a label that is not bound is made to wait for it, and only then written. -/
theorem branchTo_free (free : stateOf? a.assembler.labels l = some ⟨none, pending⟩) :
    Asm.branchTo branch l a = Asm.emitEncoded ((branch.encode 0).mapError .encoding)
      (withState a l
        ⟨none, pending ++ [⟨a.assembler.buffer.length a.segment, branch.form⟩]⟩) := by
  simp only [Asm.branchTo, bind_apply, labelState_eq, free, offset_apply, setLabelState_apply]

theorem bind_foreign (foreign : stateOf? a.assembler.labels l = none) :
    Asm.bind l a = .error (.misuse (.foreignLabel l.number)) a := by
  simp only [Asm.bind, bind_apply, labelState_eq, foreign]

theorem bind_bound (bound : stateOf? a.assembler.labels l = some ⟨some dest, pending⟩) :
    Asm.bind l a = .error (.misuse (.reboundLabel l.number dest
      (a.assembler.buffer.length a.segment))) a := by
  simp only [Asm.bind, bind_apply, labelState_eq, bound, offset_apply, throw_apply]

/-- A label is bound before the branches that wait for it are filled in. -/
theorem bind_free (free : stateOf? a.assembler.labels l = some ⟨none, pending⟩) :
    Asm.bind l a =
      (pending.forM (Asm.patch (a.assembler.buffer.length a.segment)) >>= fun _ =>
        Asm.setLabelState l ⟨some (a.assembler.buffer.length a.segment), []⟩)
      (withState a l ⟨some (a.assembler.buffer.length a.segment), pending⟩) := by
  simp only [Asm.bind, bind_apply, labelState_eq, free, offset_apply, setLabelState_apply]

end Calls

/-- A branch is filled in by reading its word and putting another one in its place. -/
theorem patch_eq (dest : Int64) (site : PatchSite) (a : Assembly) :
    Asm.patch dest site a =
      match a.assembler.buffer.wordAt a.segment site.offset with
      | .error e => .error e a
      | .ok old => match Asm.patchedWord old site dest with
        | .error e => .error e a
        | .ok w => match a.assembler.buffer.putWordAt site.offset w a.segment with
          | .error e s => .error e ⟨s, a.assembler⟩
          | .ok _ s => .ok () (logged a s (.patched site.offset w)) := by
  simp only [Asm.patch, bind_apply, assembler_apply, get_apply]
  cases a.assembler.buffer.wordAt a.segment site.offset with
  | error e => rfl
  | ok old =>
    simp only [ofExcept_ok]
    cases Asm.patchedWord old site dest with
    | error e => rfl
    | ok w =>
      simp only [ofExcept_ok, onSegment_apply]
      cases a.assembler.buffer.putWordAt site.offset w a.segment <;> rfl

/-- A label is refused at the end when it is not bound and some branch waits for it. -/
theorem checkLabels_cases (a : Assembly) :
    (Asm.checkLabels a = .ok () a ∧
        ∀ (i : Nat) pending, a.assembler.labels[i]? = some ⟨none, pending⟩ → pending = []) ∨
      ∃ (i : Nat) (site : PatchSite) (rest : List PatchSite),
        a.assembler.labels[i]? = some ⟨none, site :: rest⟩ ∧ Asm.checkLabels a =
          .error (.misuse (.danglingLabel i (rest.length + 1) site.offset)) a := by
  simp only [Asm.checkLabels, bind_apply, assembler_apply]
  generalize found : a.assembler.labels.toList.zipIdx.find? _ = first
  cases first with
  | none =>
    refine .inl ⟨rfl, fun i pending held => ?_⟩
    rw [← Array.getElem?_toList] at held
    have idle := List.find?_eq_none.mp found (⟨none, pending⟩, i)
      (List.mem_zipIdx_iff_getElem?.mpr held)
    simpa using idle
  | some entry =>
    obtain ⟨⟨bound, pending⟩, i⟩ := entry
    have waits := List.find?_some found
    have held := List.mem_zipIdx_iff_getElem?.mp (List.mem_of_find?_eq_some found)
    rw [Array.getElem?_toList] at held
    cases pending with
    | nil => simp at waits
    | cons site rest =>
      cases bound with
      | some dest => simp at waits
      | none => exact .inr ⟨i, site, rest, held, rfl⟩

end PowerAsm.Proofs.Labels
