import PowerAsm.Proofs.ArgumentPlaces

/-! The order of arguments. Places are given from the first argument to the last, so that what
comes behind some arguments does not change their places. The registers of a class are handed out
in increasing order, and once an argument has gone to the stack all later ones of its class do. A
list is refused for the first of its arguments that can have no place. -/
namespace PowerAsm.Proofs.ArgumentOrder
open Signature Layouts ArgumentPlaces

inductive RegisterClass where
  | general
  | floating
deriving DecidableEq

/-- The registers in which an argument may be passed. A second half takes none of its own. -/
def registerClass? : ArgType → Option RegisterClass
  | .int | .pointer | .long => some .general
  | .float | .double => some .floating
  | .half | .unknown _ => none

def OnStack (l : Location) : Prop := (range? l).isSome = true

/-- Whether an argument can be passed there: in registers of its class, or on the stack. -/
def Suits (arg : ArgType) : Location → Prop
  | .nowhere => arg = .half
  | .register _ | .pair _ => registerClass? arg = some .general
  | .floatRegister _ => registerClass? arg = some .floating
  | .stack _ _ => (registerClass? arg).isSome = true

/-- How many registers of a class are in use, or were passed over. -/
def taken (u : Usage) : RegisterClass → Nat
  | .general => u.ints
  | .floating => u.floats

def available (t : Target) : RegisterClass → Nat
  | .general => intRegisters
  | .floating => t.floatArgs

/-- How an argument is passed, by the registers of its class that are left. One that goes to the
stack leaves no register of its class for those behind it. -/
inductive Passed (t : Target) (u : Usage) : ArgType → Location → Usage → Prop
  | nowhere : Passed t u .half .nowhere u
  | inRegister {arg : ArgType} {l : Location} {v : Usage} {c : RegisterClass}
      (own : registerClass? arg = some c) (suits : Suits arg l) (elsewhere : ¬OnStack l)
      (free : taken u c < available t c) (more : ∀ d, taken u d ≤ taken v d) : Passed t u arg l v
  | onStack {arg : ArgType} {v : Usage} {slot slots : Nat} {c : RegisterClass}
      (own : registerClass? arg = some c) (full : available t c ≤ taken v c)
      (more : ∀ d, taken u d ≤ taken v d) : Passed t u arg (.stack slot slots) v

section Passing
variable {t : Target} {u : Usage} {arg : ArgType}

/-- What is put on the stack takes no registers. -/
def Spills (spilled : Usage → Location × Usage) : Prop :=
  ∀ u, OnStack (spilled u).1 ∧ taken (spilled u).2 = taken u

theorem spills_onStack (slots : Nat) : Spills (onStack slots) := by
  intro u
  refine ⟨rfl, ?_⟩
  funext c
  cases c <;> rfl

theorem spills_onStackEven (slots : Nat) : Spills (onStackEven slots) := by
  intro u
  refine ⟨rfl, ?_⟩
  funext c
  cases c <;> rfl

variable {spilled : Usage → Location × Usage} (spills : Spills spilled)

include spills in
theorem passed_spilled {c : RegisterClass} (own : registerClass? arg = some c)
    (full : available t c ≤ taken u c) : Passed t u arg (spilled u).1 (spilled u).2 := by
  obtain ⟨stacked, same⟩ := spills u
  cases place : (spilled u).1 with
  | stack slot slots => exact .onStack own (by rwa [same]) fun d => by rw [same]
  | _ =>
    rw [place] at stacked
    cases stacked

include spills in
theorem passed_inRegister (own : registerClass? arg = some .general) :
    Passed t u arg (inRegister spilled u).1 (inRegister spilled u).2 := by
  unfold inRegister
  split
  · next free =>
    refine .inRegister own own nofun free fun d => ?_
    cases d
    · exact Nat.le_succ _
    · exact Nat.le_refl _
  · next full => exact passed_spilled spills own (Nat.le_of_not_lt full)

theorem passed_inPair (own : registerClass? arg = some .general) :
    Passed t u arg (inPair u).1 (inPair u).2 := by
  have later := le_roundUpToEven u.ints
  have even := roundUpToEven_mod u.ints
  have eight : intRegisters = 8 := rfl
  unfold inPair
  dsimp only
  split
  · next free =>
    refine .inRegister own own nofun (show u.ints < intRegisters by omega) fun d => ?_
    cases d
    · exact Nat.le_trans later (Nat.le_add_right _ 2)
    · exact Nat.le_refl _
  · next full =>
    -- a last register that has no partner is passed over for good
    refine .onStack own (show intRegisters ≤ roundUpToEven u.ints by omega) fun d => ?_
    cases d
    · exact later
    · exact Nat.le_refl _

include spills in
theorem passed_inFloatRegister (own : registerClass? arg = some .floating) :
    Passed t u arg (inFloatRegister t spilled u).1 (inFloatRegister t spilled u).2 := by
  unfold inFloatRegister
  split
  · next free =>
    refine .inRegister own own nofun free fun d => ?_
    cases d
    · exact Nat.le_refl _
    · exact Nat.le_succ _
  · next full => exact passed_spilled spills own (Nat.le_of_not_lt full)

end Passing

theorem passed_of_ok {t : Target} {u v : Usage} {arg : ArgType} {l : Location}
    {x : Location × Usage} (passed : Passed t u arg x.1 x.2)
    (same : (.ok x : Except SignatureError (Location × Usage)) = .ok (l, v)) :
    Passed t u arg l v := by
  cases same
  exact passed

theorem assignOne_passed {t : Target} {u v : Usage} {index : Nat} {previous : Option ArgType}
    {arg : ArgType} {l : Location} (assigned : assignOne t index previous arg u = .ok (l, v)) :
    Passed t u arg l v := by
  cases arg with
  | int | pointer => exact passed_of_ok (passed_inRegister (spills_onStack _) rfl) assigned
  | long =>
    cases t with
    | ppc32 => exact passed_of_ok (passed_inPair rfl) assigned
    | ppc64 => exact passed_of_ok (passed_inRegister (spills_onStack _) rfl) assigned
  | float =>
    cases t with
    | ppc32 => exact passed_of_ok (passed_inFloatRegister (spills_onStackEven _) rfl) assigned
    | ppc64 => exact passed_of_ok (passed_inFloatRegister (spills_onStack _) rfl) assigned
  | double => exact passed_of_ok (passed_inFloatRegister (spills_onStackEven _) rfl) assigned
  | half =>
    unfold assignOne at assigned
    dsimp only at assigned
    split at assigned
    · exact passed_of_ok .nowhere assigned
    · cases assigned
  | unknown code => cases assigned

theorem Passed.suits {t : Target} {u v : Usage} {arg : ArgType} {l : Location}
    (passed : Passed t u arg l v) : Suits arg l := by
  cases passed with
  | nowhere => rfl
  | inRegister own suits elsewhere free more => exact suits
  | onStack own full more =>
    show (registerClass? arg).isSome = true
    rw [own]
    rfl

theorem Passed.more {t : Target} {u v : Usage} {arg : ArgType} {l : Location}
    (passed : Passed t u arg l v) (c : RegisterClass) : taken u c ≤ taken v c := by
  cases passed with
  | nowhere => exact Nat.le_refl _
  | inRegister own suits elsewhere free more => exact more c
  | onStack own full more => exact more c

/-- Passes arguments that come behind others. -/
def assignAfter (t : Target) (before rest : List ArgType) (u : Usage) :
    Except SignatureError (List Location × Usage) :=
  assignFrom t before.length before.getLast? rest u

theorem assignAfter_nil {t : Target} {before : List ArgType} {u v : Usage} {ls : List Location}
    (assigned : assignAfter t before [] u = .ok (ls, v)) : ls = [] ∧ v = u := by
  cases assigned
  exact ⟨rfl, rfl⟩

theorem assignAfter_cons (t : Target) (before : List ArgType) (arg : ArgType)
    (rest : List ArgType) (u : Usage) :
    assignAfter t before (arg :: rest) u = do
      let (l, v) ← assignOne t before.length before.getLast? arg u
      let (ls, w) ← assignAfter t (before ++ [arg]) rest v
      return (l :: ls, w) := by
  simp only [assignAfter, assignFrom, List.length_append, List.length_singleton,
    List.getLast?_concat]

/-- The first argument has got its place, and then the others theirs. -/
theorem of_assignAfter_cons {t : Target} {before rest : List ArgType} {arg : ArgType}
    {u w : Usage} {ls : List Location}
    (assigned : assignAfter t before (arg :: rest) u = .ok (ls, w)) :
    ∃ l v others, assignOne t before.length before.getLast? arg u = .ok (l, v) ∧
      assignAfter t (before ++ [arg]) rest v = .ok (others, w) ∧ ls = l :: others := by
  rw [assignAfter_cons] at assigned
  obtain ⟨⟨l, v⟩, first, assigned⟩ := bind_eq_ok_iff.mp assigned
  obtain ⟨⟨others, w'⟩, behind, assigned⟩ := bind_eq_ok_iff.mp assigned
  cases assigned
  exact ⟨l, v, others, first, behind, rfl⟩

theorem bind_eq_error_iff {ε α β : Type} {x : Except ε α} {f : α → Except ε β} {e : ε} :
    (x >>= f) = .error e ↔ x = .error e ∨ ∃ a, x = .ok a ∧ f a = .error e := by
  cases x <;> simp [bind, Except.bind]

/-- The first argument has no place, or one behind it has none. -/
theorem of_assignAfter_cons_error {t : Target} {before rest : List ArgType} {arg : ArgType}
    {u : Usage} {e : SignatureError} (failed : assignAfter t before (arg :: rest) u = .error e) :
    assignOne t before.length before.getLast? arg u = .error e ∨
      ∃ l v, assignOne t before.length before.getLast? arg u = .ok (l, v) ∧
        assignAfter t (before ++ [arg]) rest v = .error e := by
  rw [assignAfter_cons] at failed
  rcases bind_eq_error_iff.mp failed with first | ⟨⟨l, v⟩, one, failed⟩
  · exact .inl first
  · rcases bind_eq_error_iff.mp failed with later | ⟨others, -, returned⟩
    · exact .inr ⟨l, v, one, later⟩
    · cases returned

/-- What becomes of some arguments depends on nothing behind them. -/
theorem of_assignAfter_append {t : Target} {before xs ys : List ArgType} {u w : Usage}
    {ls : List Location} (assigned : assignAfter t before (xs ++ ys) u = .ok (ls, w)) :
    ∃ first later v, first.length = xs.length ∧ ls = first ++ later ∧
      assignAfter t before xs u = .ok (first, v) ∧
      assignAfter t (before ++ xs) ys v = .ok (later, w) := by
  induction xs generalizing before u ls with
  | nil =>
    refine ⟨[], ls, u, rfl, rfl, rfl, ?_⟩
    rwa [List.append_nil]
  | cons x xs ih =>
    obtain ⟨l, v, others, one, behind, rfl⟩ := of_assignAfter_cons assigned
    obtain ⟨first, later, v', length, rfl, placed, rest⟩ := ih behind
    refine ⟨l :: first, later, v', congrArg (· + 1) length, rfl, ?_, ?_⟩
    · rw [assignAfter_cons, one]
      show (assignAfter t (before ++ [x]) xs v >>= _) = _
      rw [placed]
      rfl
    · rwa [List.append_assoc, List.singleton_append] at rest

section Runs
variable {t : Target} {before args : List ArgType} {u v : Usage} {ls : List Location}

/-- Once the registers of a class are used up, they stay so. -/
theorem stacked_of_full {c : RegisterClass} (full : available t c ≤ taken u c)
    (assigned : assignAfter t before args u = .ok (ls, v)) :
    ∀ x ∈ args.zip ls, registerClass? x.1 = some c → OnStack x.2 := by
  induction args generalizing before u ls with
  | nil => exact fun x member => absurd member List.not_mem_nil
  | cons arg args ih =>
    obtain ⟨l, u', others, one, behind, rfl⟩ := of_assignAfter_cons assigned
    have passed := assignOne_passed one
    intro x member own
    rcases List.mem_cons.mp member with rfl | later
    · cases passed with
      | nowhere => cases own
      | @inRegister _ _ _ d own' suits elsewhere free more =>
        obtain rfl : c = d := Option.some.inj (own.symm.trans own')
        exact absurd full (Nat.not_le_of_lt free)
      | onStack own' full more => rfl
    · exact ih (Nat.le_trans full (passed.more c)) behind x later own

/-- Behind an argument on the stack there are no others of its class in registers. -/
theorem stacked_behind (assigned : assignAfter t before args u = .ok (ls, v)) :
    (args.zip ls).Pairwise fun x y =>
      OnStack x.2 → registerClass? y.1 = registerClass? x.1 → OnStack y.2 := by
  induction args generalizing before u ls with
  | nil => exact .nil
  | cons arg args ih =>
    obtain ⟨l, u', others, one, behind, rfl⟩ := of_assignAfter_cons assigned
    refine .cons (fun y later stacked own => ?_) (ih behind)
    cases assignOne_passed one with
    | nowhere => cases stacked
    | inRegister own' suits elsewhere free more => exact absurd stacked elsewhere
    | onStack own' full more => exact stacked_of_full full behind y later (own.trans own')

theorem suits_all (assigned : assignAfter t before args u = .ok (ls, v)) :
    List.Forall₂ Suits args ls := by
  induction args generalizing before u ls with
  | nil =>
    obtain ⟨rfl, -⟩ := assignAfter_nil assigned
    exact .nil
  | cons arg args ih =>
    obtain ⟨l, u', others, one, behind, rfl⟩ := of_assignAfter_cons assigned
    exact .cons (assignOne_passed one).suits (ih behind)

/-- Slots are only ever added. -/
theorem Steps.stack_le (steps : Steps t u args ls v) : u.stack ≤ v.stack := by
  induction steps with
  | nil u => exact Nat.le_refl _
  | cons first rest ih =>
    refine Nat.le_trans ?_ ih
    cases first with
    | nowhere | register | pair | floatRegister => exact Nat.le_refl _
    | stack whole later follows =>
      have behind := follows.le
      exact Nat.le_trans behind.1 (Nat.le_of_lt behind.2)

theorem Steps.settled (steps : Steps t u args ls v) (settled : Settled t u) : Settled t v := by
  induction steps with
  | nil u => exact settled
  | cons first rest ih => exact ih (first.settled settled)

end Runs

/-- Why an argument behind others is refused: its type is unknown, or it is the second half of
something that is not a wide value. -/
inductive Refused (before : List ArgType) : ArgType → SignatureError → Prop
  | unknown (code : UInt8) : Refused before (.unknown code) (.unknownType code)
  | stray (alone : ∀ arg, before.getLast? = some arg → arg ≠ .long ∧ arg ≠ .double) :
    Refused before .half (.strayHalf before.length before.getLast?)

/-- Why the argument with this index is refused. -/
def RefusedAt (args : List ArgType) (index : Nat) (e : SignatureError) : Prop :=
  ∃ arg, args[index]? = some arg ∧ Refused (args.take index) arg e

theorem Refused.unique {before : List ArgType} {arg : ArgType} {e e' : SignatureError}
    (first : Refused before arg e) (second : Refused before arg e') : e = e' := by
  cases first <;> cases second <;> rfl

theorem assignOne_error_iff {t : Target} {before : List ArgType} {arg : ArgType} {u : Usage}
    {e : SignatureError} :
    assignOne t before.length before.getLast? arg u = .error e ↔ Refused before arg e := by
  cases arg with
  | int | pointer | long | float | double => exact ⟨nofun, nofun⟩
  | unknown code =>
    refine ⟨fun failed => ?_, fun refused => ?_⟩
    · cases failed
      exact .unknown code
    · cases refused
      rfl
  | half =>
    have alone_iff : before.getLast?.any ArgType.isWide = false ↔
        ∀ arg, before.getLast? = some arg → arg ≠ .long ∧ arg ≠ .double := by
      cases before.getLast? with
      | none => simp
      | some last => simp [ArgType.isWide]
    unfold assignOne
    dsimp only
    split
    · next wide =>
      refine ⟨nofun, fun refused => ?_⟩
      cases refused with
      | stray alone =>
        rw [alone_iff.mpr alone] at wide
        cases wide
    · next narrow =>
      refine ⟨fun failed => ?_, fun refused => ?_⟩
      · cases failed
        exact .stray (alone_iff.mp (Bool.not_eq_true _ ▸ narrow))
      · cases refused
        rfl

section Refusals
variable {t : Target} {before rest : List ArgType} {u : Usage} {e : SignatureError}

theorem refusedAt_length {arg : ArgType} :
    RefusedAt (before ++ arg :: rest) before.length e ↔ Refused before arg e := by
  simp [RefusedAt]

theorem refusedAt_later {arg : ArgType} {index : Nat} :
    RefusedAt (before ++ arg :: rest) index e ↔ RefusedAt ((before ++ [arg]) ++ rest) index e := by
  rw [List.append_assoc, List.singleton_append]

theorem accepted_of_assignAfter {ls : List Location} {v : Usage}
    (assigned : assignAfter t before rest u = .ok (ls, v)) {index : Nat}
    (behind : before.length ≤ index) : ¬RefusedAt (before ++ rest) index e := by
  induction rest generalizing before u ls with
  | nil =>
    rintro ⟨arg, found, -⟩
    rw [List.append_nil, List.getElem?_eq_none behind] at found
    cases found
  | cons arg rest ih =>
    obtain ⟨l, u', others, one, later, rfl⟩ := of_assignAfter_cons assigned
    intro refused
    rcases Nat.eq_or_lt_of_le behind with rfl | further
    · rw [refusedAt_length, ← assignOne_error_iff (t := t) (u := u), one] at refused
      cases refused
    · refine ih later ?_ (refusedAt_later.mp refused)
      rwa [List.length_append, List.length_singleton]

theorem refused_of_assignAfter (failed : assignAfter t before rest u = .error e) :
    ∃ index, before.length ≤ index ∧ RefusedAt (before ++ rest) index e ∧
      ∀ j, before.length ≤ j → j < index → ∀ e', ¬RefusedAt (before ++ rest) j e' := by
  induction rest generalizing before u with
  | nil => cases failed
  | cons arg rest ih =>
    rcases of_assignAfter_cons_error failed with first | ⟨l, v, one, later⟩
    · refine ⟨before.length, Nat.le_refl _, refusedAt_length.mpr (assignOne_error_iff.mp first), ?_⟩
      intro j behind front
      omega
    · obtain ⟨index, behind, refused, accepted⟩ := ih later
      rw [List.length_append, List.length_singleton] at behind accepted
      refine ⟨index, by omega, refusedAt_later.mpr refused, fun j above below e' early => ?_⟩
      rcases Nat.eq_or_lt_of_le above with rfl | further
      · rw [refusedAt_length, ← assignOne_error_iff (t := t) (u := u), one] at early
        cases early
      · exact accepted j further below e' (refusedAt_later.mp early)

end Refusals

/-- How the places of arguments follow their order. -/
structure InOrder (args : List ArgType) (locations : List Location) : Prop where
  /-- Each argument is passed in registers of its class or on the stack. -/
  suits : List.Forall₂ Suits args locations
  gprs_increase : (locations.flatMap gprs).Pairwise fun r s => r.number < s.number
  fprs_increase : (locations.flatMap fprs).Pairwise fun f g => f.number < g.number
  /-- Behind an argument on the stack none of its class is in a register. -/
  stacked : (args.zip locations).Pairwise fun x y =>
    OnStack x.2 → registerClass? y.1 = registerClass? x.1 → OnStack y.2

/-- Things that are numbered from `base` on increase where their places do. -/
theorem increase_of_ascending {α : Type} {low high : Nat} {is : List Nat}
    (ascending : Ascending low high is) (f : Nat → α) (number : α → Int8) {base : Int}
    (numbered : ∀ i < high, (number (f i)).toInt = base + i) :
    (is.map f).Pairwise fun x y => number x < number y := by
  obtain ⟨increasing, bounds⟩ := ascending
  apply List.pairwise_map.mpr
  apply increasing.imp_of_mem
  intro i j first second less
  have here := numbered i (bounds i first).2
  have there := numbered j (bounds j second).2
  rw [Int8.lt_iff_toInt_lt]
  omega

section Assignments
variable {t : Target} {args xs ys : List ArgType} {ls : List Location} {stack : Nat}
  {e : SignatureError}

theorem of_assign (assigned : assign t args = .ok (ls, stack)) :
    ∃ u, assignAfter t [] args ⟨0, 0, 0⟩ = .ok (ls, u) ∧ stack = u.stack := by
  obtain ⟨⟨ls', u⟩, placed, assigned⟩ := bind_eq_ok_iff.mp assigned
  cases assigned
  exact ⟨u, placed, rfl⟩

theorem assign_of_assignAfter {u : Usage} (placed : assignAfter t [] args ⟨0, 0, 0⟩ = .ok (ls, u)) :
    assign t args = .ok (ls, u.stack) :=
  bind_eq_ok_iff.mpr ⟨(ls, u), placed, rfl⟩

theorem inOrder_of_assign (assigned : assign t args = .ok (ls, stack)) : InOrder args ls := by
  obtain ⟨u, placed, -⟩ := of_assign assigned
  have steps := assignFrom_steps (fun _ => rfl) placed
  obtain ⟨is, general, ascending⟩ := steps.gprs
  obtain ⟨js, floating, ascending'⟩ := steps.fprs
  refine ⟨suits_all placed, ?_, ?_, stacked_behind placed⟩
  · rw [general]
    exact increase_of_ascending ascending intRegister Gpr.number fun i => intRegister_toInt
  · rw [floating]
    exact increase_of_ascending ascending' floatRegister Fpr.number fun i => floatRegister_toInt

/-- What follows some arguments changes neither their places nor takes slots away. -/
theorem assign_take (assigned : assign t (xs ++ ys) = .ok (ls, stack)) :
    ∃ used ≤ stack, assign t xs = .ok (ls.take xs.length, used) := by
  obtain ⟨u, placed, rfl⟩ := of_assign assigned
  obtain ⟨first, later, v, length, rfl, front, behind⟩ := of_assignAfter_append placed
  have steps := assignFrom_steps (fun _ => rfl) front
  have settled : Settled t v := Steps.settled steps fun _ => rfl
  refine ⟨v.stack, Steps.stack_le (assignFrom_steps settled behind), ?_⟩
  rw [List.take_left' length]
  exact assign_of_assignAfter front

theorem assign_error_iff :
    assign t args = .error e ↔
      ∃ index, RefusedAt args index e ∧ ∀ j < index, ∀ e', ¬RefusedAt args j e' := by
  have first_of_failed {e : SignatureError} (failed : assignAfter t [] args ⟨0, 0, 0⟩ = .error e) :
      ∃ index, RefusedAt args index e ∧ ∀ j < index, ∀ e', ¬RefusedAt args j e' := by
    obtain ⟨index, -, refused, accepted⟩ := refused_of_assignAfter failed
    exact ⟨index, refused, fun j below => accepted j (Nat.zero_le j) below⟩
  refine ⟨fun failed => ?_, fun ⟨index, refused, accepted⟩ => ?_⟩
  · rcases bind_eq_error_iff.mp failed with failed | ⟨r, -, returned⟩
    · exact first_of_failed failed
    · cases returned
  · refine bind_eq_error_iff.mpr (.inl ?_)
    show assignAfter t [] args ⟨0, 0, 0⟩ = .error e
    cases outcome : assignAfter t [] args ⟨0, 0, 0⟩ with
    | ok r => exact absurd refused (accepted_of_assignAfter outcome (Nat.zero_le index))
    | error e' =>
      obtain ⟨index', refused', accepted'⟩ := first_of_failed outcome
      have same : index = index' := by
        apply Nat.le_antisymm
        · exact Nat.le_of_not_lt fun below => accepted index' below e' refused'
        · exact Nat.le_of_not_lt fun below => accepted' index below e refused
      subst same
      obtain ⟨arg, found, why⟩ := refused
      obtain ⟨arg', found', why'⟩ := refused'
      obtain rfl : arg = arg' := Option.some.inj (found.symm.trans found')
      rw [why.unique why']

/-- A list is refused if any of its arguments is. -/
theorem assign_refused_iff :
    (∃ e, assign t args = .error e) ↔ ∃ index e, RefusedAt args index e := by
  refine ⟨fun ⟨e, failed⟩ => ?_, fun ⟨index, e, refused⟩ => ?_⟩
  · obtain ⟨index, refused, -⟩ := assign_error_iff.mp failed
    exact ⟨index, e, refused⟩
  · cases outcome : assign t args with
    | error e' => exact ⟨e', rfl⟩
    | ok r =>
      obtain ⟨u, placed, -⟩ := of_assign outcome
      exact absurd refused (accepted_of_assignAfter placed (Nat.zero_le index))

end Assignments

/-- Arguments are given their places in order. What comes behind some arguments leaves them where
they are and takes no slot away; registers of a class increase from argument to argument, and are
not returned to once an argument of the class is on the stack; and a list is refused exactly for
the first of its arguments that can have no place. -/
theorem assign_in_order (t : Target) :
    (∀ xs ys ls stack, assign t (xs ++ ys) = .ok (ls, stack) →
      ∃ used ≤ stack, assign t xs = .ok (ls.take xs.length, used)) ∧
    (∀ args ls stack, assign t args = .ok (ls, stack) → InOrder args ls) ∧
    (∀ args, (∃ e, assign t args = .error e) ↔ ∃ index e, RefusedAt args index e) ∧
    ∀ args e, assign t args = .error e ↔
      ∃ index, RefusedAt args index e ∧ ∀ j < index, ∀ e', ¬RefusedAt args j e' :=
  ⟨fun _ _ _ _ => assign_take, fun _ _ _ => inOrder_of_assign, fun _ => assign_refused_iff,
    fun _ _ => assign_error_iff⟩

/-- Arguments of which the last one, a wide value, finds no partner for the last general register. -/
def crowded : List ArgType := [.int, .int, .int, .int, .int, .int, .int, .long, .half]

def crowdedPlaces : List Location :=
  [.register ⟨3⟩, .register ⟨4⟩, .register ⟨5⟩, .register ⟨6⟩, .register ⟨7⟩, .register ⟨8⟩,
    .register ⟨9⟩, .stack 0 2, .nowhere]

def following : List ArgType := [.int, .float]

def followingPlaces : List Location := [.stack 2 1, .floatRegister ⟨1⟩]

/-- The argument behind them does not get that register either. -/
theorem assign_in_order_skipping :
    assign .ppc32 (crowded ++ following) = .ok (crowdedPlaces ++ followingPlaces, 3) ∧
    (∃ used ≤ 3, assign .ppc32 crowded = .ok (crowdedPlaces, used)) ∧
    InOrder (crowded ++ following) (crowdedPlaces ++ followingPlaces) ∧
    ∃ index, RefusedAt [.long, .half, .half, .unknown 9] index (.strayHalf 2 (some .half)) ∧
      ∀ j < index, ∀ e', ¬RefusedAt [.long, .half, .half, .unknown 9] j e' := by
  obtain ⟨stable, ordered, -, refused⟩ := assign_in_order .ppc32
  have placed : assign .ppc32 (crowded ++ following) =
      .ok (crowdedPlaces ++ followingPlaces, 3) := rfl
  have stray : assign .ppc32 [.long, .half, .half, .unknown 9] =
      .error (.strayHalf 2 (some .half)) := rfl
  exact ⟨placed, stable _ _ _ _ placed, ordered _ _ _ placed, (refused _ _).mp stray⟩

end PowerAsm.Proofs.ArgumentOrder
