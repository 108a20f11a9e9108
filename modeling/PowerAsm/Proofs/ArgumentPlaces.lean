import Mathlib.Data.List.Forall2
import PowerAsm.Proofs.Layouts
import PowerAsm.Signature.Assignment

/-! The places of arguments. Each argument takes registers or stack slots behind all that
were taken before it, so no two arguments share a place; only the pairs of a 32-bit target
leave a register or a slot unused. -/
namespace PowerAsm.Proofs.ArgumentPlaces
open Signature Layouts

/-- The general registers of a place, both halves of a pair among them. -/
def gprs : Location → List Gpr
  | .register r => [r]
  | .pair r => [r, ⟨r.number + 1⟩]
  | _ => []

def fprs : Location → List Fpr
  | .floatRegister f => [f]
  | _ => []

/-- Stack slots one after the other. -/
structure Range where
  slot : Nat
  slots : Nat
deriving DecidableEq

/-- The first slot behind the range. -/
def Range.finish (r : Range) : Nat := r.slot + r.slots

def range? : Location → Option Range
  | .stack slot slots => some ⟨slot, slots⟩
  | _ => none

/-- The stack ranges of places, in the order of the arguments. -/
def ranges (locations : List Location) : List Range := locations.filterMap range?

/-- Where the last range ends, zero if there is none. -/
def finish (rs : List Range) : Nat := (rs.getLast?.map Range.finish).getD 0

/-- How a range follows on slots that are taken up to `reached`. A 32-bit target may leave
one slot unused before a range of two, which starts at an even slot. -/
def Follows (t : Target) (reached : Nat) (r : Range) : Prop :=
  match t with
  | .ppc32 => r.slots = 1 ∧ r.slot = reached ∨
      r.slots = 2 ∧ r.slot % 2 = 0 ∧ reached ≤ r.slot ∧ r.slot ≤ reached + 1
  | .ppc64 => r.slots = 2 ∧ r.slot % 2 = 0 ∧ r.slot = reached

theorem Follows.le {t : Target} {reached : Nat} {r : Range} (follows : Follows t reached r) :
    reached ≤ r.slot ∧ r.slot < r.finish := by
  have finish : r.finish = r.slot + r.slots := rfl
  cases t with
  | ppc32 =>
    rcases follows with ⟨one, here⟩ | ⟨two, -, above, -⟩
    · omega
    · omega
  | ppc64 =>
    obtain ⟨two, -, here⟩ := follows
    omega

/-- On a 64-bit target ranges have two slots each, so that the end is always even. -/
def Settled (t : Target) (u : Usage) : Prop := t = .ppc64 → u.stack % 2 = 0

/-- The place that one argument can get, and what is in use then. Only a second half gets
none. -/
inductive Step (t : Target) (u : Usage) : ArgType → Location → Usage → Prop
  | nowhere : Step t u .half .nowhere u
  | register {arg : ArgType} (whole : arg ≠ .half) (free : u.ints < intRegisters) :
    Step t u arg (.register (intRegister u.ints)) { u with ints := u.ints + 1 }
  | pair {arg : ArgType} {first : Nat} (whole : arg ≠ .half) (narrow : t = .ppc32)
      (even : first % 2 = 0) (later : u.ints ≤ first) (free : first + 1 < intRegisters) :
    Step t u arg (.pair (intRegister first)) { u with ints := first + 2 }
  | floatRegister {arg : ArgType} (whole : arg ≠ .half) (free : u.floats < t.floatArgs) :
    Step t u arg (.floatRegister (floatRegister u.floats)) { u with floats := u.floats + 1 }
  | stack {arg : ArgType} {ints : Nat} {r : Range} (whole : arg ≠ .half) (later : u.ints ≤ ints)
      (follows : Follows t u.stack r) :
    Step t u arg (.stack r.slot r.slots) ⟨ints, u.floats, r.finish⟩

theorem le_roundUpToEven (n : Nat) : n ≤ roundUpToEven n := Nat.le_add_right n _

theorem roundUpToEven_le (n : Nat) : roundUpToEven n ≤ n + 1 := by
  unfold roundUpToEven
  omega

theorem roundUpToEven_mod (n : Nat) : roundUpToEven n % 2 = 0 := by
  unfold roundUpToEven
  omega

theorem roundUpToEven_of_even {n : Nat} (even : n % 2 = 0) : roundUpToEven n = n := by
  unfold roundUpToEven
  omega

section Steps
variable {t : Target} {u : Usage} (settled : Settled t u)
include settled

/-- A word takes one slot of a 32-bit target, and two of a 64-bit one. -/
theorem follows_word : Follows t u.stack ⟨u.stack, slotsPerWord t⟩ := by
  cases t with
  | ppc32 => exact .inl ⟨rfl, rfl⟩
  | ppc64 => exact ⟨rfl, settled rfl, rfl⟩

/-- Two slots from an even one on suit both targets. -/
theorem follows_even : Follows t u.stack ⟨roundUpToEven u.stack, 2⟩ := by
  cases t with
  | ppc32 => exact .inr ⟨rfl, roundUpToEven_mod _, le_roundUpToEven _, roundUpToEven_le _⟩
  | ppc64 => exact ⟨rfl, roundUpToEven_mod _, roundUpToEven_of_even (settled rfl)⟩

variable {arg : ArgType} (whole : arg ≠ .half)
include whole

theorem step_onStack : Step t u arg (onStack (slotsPerWord t) u).1 (onStack (slotsPerWord t) u).2 :=
  .stack whole (Nat.le_refl _) (follows_word settled)

theorem step_onStackEven {ints : Nat} (later : u.ints ≤ ints) :
    Step t u arg (onStackEven 2 { u with ints }).1 (onStackEven 2 { u with ints }).2 :=
  .stack whole later (follows_even settled)

theorem step_inPair (narrow : t = .ppc32) : Step t u arg (inPair u).1 (inPair u).2 := by
  unfold inPair
  dsimp only
  split
  · exact .pair whole narrow (roundUpToEven_mod _) (le_roundUpToEven _) ‹_›
  · exact step_onStackEven settled whole (le_roundUpToEven _)

omit settled
variable {spilled : Usage → Location × Usage} (spills : Step t u arg (spilled u).1 (spilled u).2)
include spills

theorem step_inRegister : Step t u arg (inRegister spilled u).1 (inRegister spilled u).2 := by
  unfold inRegister
  split
  · exact .register whole ‹_›
  · exact spills

theorem step_inFloatRegister :
    Step t u arg (inFloatRegister t spilled u).1 (inFloatRegister t spilled u).2 := by
  unfold inFloatRegister
  split
  · exact .floatRegister whole ‹_›
  · exact spills

end Steps

theorem step_of_ok {t : Target} {u u' : Usage} {arg : ArgType} {l : Location}
    {x : Location × Usage} (step : Step t u arg x.1 x.2)
    (same : (.ok x : Except SignatureError (Location × Usage)) = .ok (l, u')) :
    Step t u arg l u' := by
  cases same
  exact step

/-- Every argument that has a place takes one of these steps. -/
theorem assignOne_step {t : Target} {u u' : Usage} {index : Nat} {previous : Option ArgType}
    {arg : ArgType} {l : Location} (settled : Settled t u)
    (assigned : assignOne t index previous arg u = .ok (l, u')) : Step t u arg l u' := by
  by_cases second : arg = .half
  · subst second
    unfold assignOne at assigned
    dsimp only at assigned
    split at assigned
    · exact step_of_ok .nowhere assigned
    · cases assigned
  · have word := step_onStack settled second
    have even := step_onStackEven settled second (Nat.le_refl _)
    cases arg with
    | int | pointer => exact step_of_ok (step_inRegister second word) assigned
    | long =>
      cases t with
      | ppc32 => exact step_of_ok (step_inPair settled second rfl) assigned
      | ppc64 => exact step_of_ok (step_inRegister second word) assigned
    | float =>
      cases t with
      | ppc32 => exact step_of_ok (step_inFloatRegister second even) assigned
      | ppc64 => exact step_of_ok (step_inFloatRegister second word) assigned
    | double => exact step_of_ok (step_inFloatRegister second even) assigned
    | half => exact absurd rfl second
    | unknown code => cases assigned

theorem Step.settled {t : Target} {u u' : Usage} {arg : ArgType} {l : Location}
    (step : Step t u arg l u') (settled : Settled t u) : Settled t u' := by
  cases step with
  | nowhere | register | pair | floatRegister => exact settled
  | @stack _ ints r whole later follows =>
    rintro rfl
    obtain ⟨two, even, -⟩ := follows
    show (r.slot + r.slots) % 2 = 0
    omega

/-- The places that arguments get one after the other. -/
inductive Steps (t : Target) : Usage → List ArgType → List Location → Usage → Prop
  | nil (u : Usage) : Steps t u [] [] u
  | cons {u v w : Usage} {arg : ArgType} {args : List ArgType} {l : Location} {ls : List Location}
      (first : Step t u arg l v) (rest : Steps t v args ls w) : Steps t u (arg :: args) (l :: ls) w

theorem assignFrom_steps {t : Target} {index : Nat} {previous : Option ArgType}
    {args : List ArgType} {u u' : Usage} {ls : List Location} (settled : Settled t u)
    (assigned : assignFrom t index previous args u = .ok (ls, u')) : Steps t u args ls u' := by
  induction args generalizing index previous u ls with
  | nil =>
    cases assigned
    exact .nil _
  | cons arg args ih =>
    obtain ⟨⟨l, v⟩, first, assigned⟩ := bind_eq_ok_iff.mp assigned
    obtain ⟨⟨others, w⟩, rest, assigned⟩ := bind_eq_ok_iff.mp assigned
    cases assigned
    have step := assignOne_step settled first
    exact .cons step (ih (step.settled settled) rest)

theorem intRegister_succ (i : Nat) : intRegister (i + 1) = ⟨(intRegister i).number + 1⟩ :=
  congrArg Gpr.mk (Int8.ofNat_add (3 + i) 1)

theorem intRegister_toInt {i : Nat} (inside : i < intRegisters) :
    (intRegister i).number.toInt = 3 + i := by
  have eight : intRegisters = 8 := rfl
  exact Int8.toInt_ofNat_of_lt (by omega)

theorem floatRegister_toInt {t : Target} {i : Nat} (inside : i < t.floatArgs) :
    (floatRegister i).number.toInt = 1 + i := by
  have few : t.floatArgs ≤ 13 := by cases t <;> decide
  exact Int8.toInt_ofNat_of_lt (by omega)

/-- Numbers that increase from `low` on and stay below `high`. -/
def Ascending (low high : Nat) (is : List Nat) : Prop :=
  is.Pairwise (· < ·) ∧ ∀ i ∈ is, low ≤ i ∧ i < high

theorem ascending_nil (low high : Nat) : Ascending low high [] := ⟨.nil, nofun⟩

theorem Ascending.cons {low high i : Nat} {is : List Nat} (rest : Ascending (i + 1) high is)
    (above : low ≤ i) (below : i < high) : Ascending low high (i :: is) := by
  obtain ⟨increasing, bounds⟩ := rest
  refine ⟨.cons (fun j member => (bounds j member).1) increasing, fun j member => ?_⟩
  rcases List.mem_cons.mp member with rfl | later
  · exact ⟨above, below⟩
  · obtain ⟨behind, inside⟩ := bounds j later
    exact ⟨by omega, inside⟩

theorem Ascending.mono {low low' high : Nat} {is : List Nat} (ascending : Ascending low high is)
    (less : low' ≤ low) : Ascending low' high is :=
  ⟨ascending.1, fun i member => ⟨Nat.le_trans less (ascending.2 i member).1, (ascending.2 i member).2⟩⟩

/-- Things that are numbered from `base` on are different where their places increase. -/
theorem Ascending.nodup {α : Type} {low high : Nat} {is : List Nat}
    (ascending : Ascending low high is) (f : Nat → α) (number : α → Int) {base : Int}
    (numbered : ∀ i < high, number (f i) = base + i) :
    (is.map f).Nodup ∧ ∀ x ∈ is.map f, base ≤ number x ∧ number x < base + high := by
  obtain ⟨increasing, bounds⟩ := ascending
  constructor
  · apply List.pairwise_map.mpr
    apply increasing.imp_of_mem
    intro i j first second less same
    have here := numbered i (bounds i first).2
    have there := numbered j (bounds j second).2
    rw [same] at here
    omega
  · intro x member
    obtain ⟨i, inside, rfl⟩ := List.mem_map.mp member
    have below := (bounds i inside).2
    rw [numbered i below]
    omega

/-- Ranges in a row, the first of them behind `reached`. -/
inductive Row (t : Target) : Nat → List Range → Prop
  | nil (reached : Nat) : Row t reached []
  | cons {reached : Nat} {r : Range} {rs : List Range} (first : Follows t reached r)
      (rest : Row t r.finish rs) : Row t reached (r :: rs)

section Runs
variable {t : Target} {u u' : Usage} {args : List ArgType} {ls : List Location}

/-- General registers are taken in increasing order. -/
theorem Steps.gprs (steps : Steps t u args ls u') :
    ∃ is, ls.flatMap ArgumentPlaces.gprs = is.map intRegister ∧
      Ascending u.ints intRegisters is := by
  induction steps with
  | nil u => exact ⟨[], rfl, ascending_nil _ _⟩
  | @cons u v w arg args l ls first rest ih =>
    obtain ⟨is, taken, ascending⟩ := ih
    rw [List.flatMap_cons, taken]
    cases first with
    | nowhere | floatRegister => exact ⟨is, rfl, ascending⟩
    | register whole free => exact ⟨u.ints :: is, rfl, ascending.cons (Nat.le_refl _) free⟩
    | @pair _ first whole narrow even later free =>
      refine ⟨first :: (first + 1) :: is, ?_, (ascending.cons (Nat.le_refl _) free).cons later ?_⟩
      · rw [List.map_cons, List.map_cons, intRegister_succ]
        rfl
      · omega
    | stack whole later follows => exact ⟨is, rfl, ascending.mono later⟩

/-- So are floating point registers. -/
theorem Steps.fprs (steps : Steps t u args ls u') :
    ∃ is, ls.flatMap ArgumentPlaces.fprs = is.map floatRegister ∧
      Ascending u.floats t.floatArgs is := by
  induction steps with
  | nil u => exact ⟨[], rfl, ascending_nil _ _⟩
  | @cons u v w arg args l ls first rest ih =>
    obtain ⟨is, taken, ascending⟩ := ih
    rw [List.flatMap_cons, taken]
    cases first with
    | nowhere | register | pair | stack => exact ⟨is, rfl, ascending⟩
    | floatRegister whole free => exact ⟨u.floats :: is, rfl, ascending.cons (Nat.le_refl _) free⟩

/-- Stack slots are taken in a row. -/
theorem Steps.row (steps : Steps t u args ls u') : Row t u.stack (ranges ls) := by
  induction steps with
  | nil u => exact .nil _
  | @cons u v w arg args l ls first rest ih =>
    cases first with
    | nowhere | register | pair | floatRegister => exact ih
    | stack whole later follows => exact .cons follows ih

/-- Where the ranges end that come behind `reached`. -/
theorem Steps.stack (steps : Steps t u args ls u') :
    u'.stack = ((ranges ls).getLast?.map Range.finish).getD u.stack := by
  induction steps with
  | nil u => rfl
  | @cons u v w arg args l ls first rest ih =>
    cases first with
    | nowhere | register | pair | floatRegister => exact ih
    | @stack _ ints r whole later follows =>
      have taken : ranges (.stack r.slot r.slots :: ls) = r :: ranges ls := rfl
      rw [ih, taken, List.getLast?_cons]
      cases (ranges ls).getLast? <;> rfl

/-- Pairs start at an even place. -/
theorem Steps.pairs (steps : Steps t u args ls u') {r : Gpr} (member : .pair r ∈ ls) :
    t = .ppc32 ∧ ∃ first, first % 2 = 0 ∧ first + 1 < intRegisters ∧ r = intRegister first := by
  induction steps with
  | nil u => cases member
  | @cons u v w arg args l ls first rest ih =>
    rcases List.mem_cons.mp member with same | later
    · subst same
      cases first with
      | pair whole narrow even later free => exact ⟨narrow, _, even, free, rfl⟩
    · exact ih later

theorem Steps.halves (steps : Steps t u args ls u') :
    List.Forall₂ (fun arg l => l = .nowhere ↔ arg = .half) args ls := by
  induction steps with
  | nil u => exact .nil
  | @cons u v w arg args l ls first rest ih =>
    refine .cons ?_ ih
    cases first with
    | nowhere => exact iff_of_true rfl rfl
    | register whole | pair whole | floatRegister whole | stack whole =>
      exact iff_of_false nofun whole

end Runs

section Rows
variable {t : Target} {reached : Nat} {rs : List Range}

theorem Row.above (row : Row t reached rs) {r : Range} (member : r ∈ rs) :
    reached ≤ r.slot ∧ r.slot < r.finish := by
  induction row with
  | nil => cases member
  | cons first rest ih =>
    have here := first.le
    rcases List.mem_cons.mp member with rfl | later
    · exact here
    · have behind := ih later
      exact ⟨by omega, behind.2⟩

theorem Row.ordered (row : Row t reached rs) : rs.Pairwise fun r s => r.finish ≤ s.slot := by
  induction row with
  | nil => exact .nil
  | cons first rest ih => exact .cons (fun s member => (rest.above member).1) ih

/-- Each range follows on the ones before it. -/
theorem Row.follows {before after : List Range} {r : Range}
    (row : Row t reached (before ++ r :: after)) :
    Follows t ((before.getLast?.map Range.finish).getD reached) r := by
  induction before generalizing reached with
  | nil =>
    cases row with
    | cons first rest => exact first
  | cons s before ih =>
    cases row with
    | cons first rest =>
      have follows := ih rest
      rw [List.getLast?_cons]
      cases last : before.getLast? <;> rw [last] at follows <;> exact follows

end Rows

/-- The places of arguments, and the stack slots that they take in all. -/
structure Apart (t : Target) (args : List ArgType) (locations : List Location) (stack : Nat) :
    Prop where
  gprs_nodup : (locations.flatMap gprs).Nodup
  gprs_range : ∀ r ∈ locations.flatMap gprs, 3 ≤ r.number.toInt ∧ r.number.toInt ≤ 10
  fprs_nodup : (locations.flatMap fprs).Nodup
  fprs_range : ∀ f ∈ locations.flatMap fprs, 1 ≤ f.number.toInt ∧ f.number.toInt ≤ t.choose 8 13
  /-- Ranges do not overlap, and come in the order of the arguments. -/
  ordered : (ranges locations).Pairwise fun r s => r.finish ≤ s.slot
  occupied : ∀ r ∈ ranges locations, 0 < r.slots
  size : stack = finish (ranges locations)
  /-- Which slots are left unused before a range. -/
  follows : ∀ before r after, ranges locations = before ++ r :: after → Follows t (finish before) r
  pairs : ∀ r, .pair r ∈ locations → t = .ppc32 ∧ r.number ∈ [3, 5, 7, 9]
  /-- Only second halves have no place. -/
  halves : List.Forall₂ (fun arg l => l = .nowhere ↔ arg = .half) args locations

theorem Steps.apart {t : Target} {args : List ArgType} {ls : List Location} {u : Usage}
    (steps : Steps t ⟨0, 0, 0⟩ args ls u) : Apart t args ls u.stack := by
  obtain ⟨is, general, ascending⟩ := steps.gprs
  obtain ⟨js, floating, ascending'⟩ := steps.fprs
  obtain ⟨nodup, range⟩ := ascending.nodup intRegister (·.number.toInt) fun i => intRegister_toInt
  obtain ⟨nodup', range'⟩ := ascending'.nodup floatRegister (·.number.toInt) fun i =>
    floatRegister_toInt
  have eight : intRegisters = 8 := rfl
  have floats : (t.floatArgs : Int) = t.choose 8 13 := by cases t <;> rfl
  constructor
  · rwa [general]
  · intro r member
    rw [general] at member
    have bounds := range r member
    omega
  · rwa [floating]
  · intro f member
    rw [floating] at member
    have bounds := range' f member
    omega
  · exact steps.row.ordered
  · intro r member
    have whole : r.slot < r.slot + r.slots := (steps.row.above member).2
    omega
  · exact steps.stack
  · intro before r after split
    have row := steps.row
    rw [split] at row
    exact row.follows
  · intro r member
    obtain ⟨narrow, first, even, inside, rfl⟩ := steps.pairs member
    refine ⟨narrow, ?_⟩
    have places : first = 0 ∨ first = 2 ∨ first = 4 ∨ first = 6 := by omega
    rcases places with rfl | rfl | rfl | rfl <;> decide
  · exact steps.halves

/-- No two arguments are given the same place: what `Apart` says holds of every list of
arguments that is a signature. -/
theorem assign_apart {t : Target} {args : List ArgType} {locations : List Location} {stack : Nat}
    (assigned : assign t args = .ok (locations, stack)) : Apart t args locations stack := by
  obtain ⟨⟨ls, u⟩, placed, assigned⟩ := bind_eq_ok_iff.mp assigned
  cases assigned
  exact (assignFrom_steps (fun _ => rfl) placed).apart

/-- The register that a pair leaves unused may be the last one, and a range of two slots may
meet an odd end of the stack. -/
theorem assign_apart_mixed :
    assign .ppc32 [.int, .long, .half, .long, .half, .pointer, .long, .half, .int, .long, .half,
        .int] =
      .ok ([.register ⟨3⟩, .pair ⟨5⟩, .nowhere, .pair ⟨7⟩, .nowhere, .register ⟨9⟩, .stack 0 2,
        .nowhere, .stack 2 1, .stack 4 2, .nowhere, .stack 6 1], 7) ∧
    Apart .ppc32 [.int, .long, .half, .long, .half, .pointer, .long, .half, .int, .long, .half,
        .int]
      [.register ⟨3⟩, .pair ⟨5⟩, .nowhere, .pair ⟨7⟩, .nowhere, .register ⟨9⟩, .stack 0 2,
        .nowhere, .stack 2 1, .stack 4 2, .nowhere, .stack 6 1] 7 :=
  ⟨rfl, assign_apart rfl⟩

end PowerAsm.Proofs.ArgumentPlaces
