import PowerAsm.Condition
import PowerAsm.Proofs.ConditionRegister

/-! Threads that share memory. A thread runs its own code word by word. Between two of its
words other agents may store to memory, and the reservation that the thread holds on a place
may end: a store to that place ends it, and so may anything else. Every interleaving is a list
of turns, each of which is over before the next one starts. Instructions that are not
described here stop the thread. -/
namespace PowerAsm.Proofs
open Memory ConditionRegister

/-- What a thread does to memory: it reads a value, or it puts a value in the place of another
one. -/
inductive Access (t : Target) where
  | load (a : BitVec (width t)) (n : Nat) (v : BitVec (8 * n))
  | store (a : BitVec (width t)) (n : Nat) (old new : BitVec (8 * n))

namespace Access
variable {t : Target}

def isStore : Access t → Bool
  | .load .. => false
  | .store .. => true

/-- The stores among some accesses. -/
def stores (accesses : List (Access t)) : List (Access t) := accesses.filter isStore

/-- The last access that is a load. -/
def lastLoad? (accesses : List (Access t)) : Option (Access t) :=
  (accesses.filter (!·.isStore)).getLast?

section Last
variable (accesses : List (Access t)) (a : BitVec (width t)) (n : Nat) (old v : BitVec (8 * n))

theorem stores_snoc_load : stores (accesses ++ [.load a n v]) = stores accesses := by
  rw [stores, List.filter_append]
  exact List.append_nil _

theorem stores_snoc_store :
    stores (accesses ++ [.store a n old v]) = stores accesses ++ [.store a n old v] := by
  rw [stores, List.filter_append]
  rfl

theorem lastLoad?_snoc_load : lastLoad? (accesses ++ [.load a n v]) = some (.load a n v) := by
  rw [lastLoad?, List.filter_append]
  exact List.getLast?_concat

end Last

end Access

structure Thread (t : Target) extends Machine t where
  /-- The number of the next word in the code. -/
  pc : Nat
  /-- The summary overflow bit, which goes into every result of a comparison. -/
  overflow : Bool
  /-- The place that the thread has reserved. -/
  reservation : Option (Place (width t))

/-- What may happen next: the thread goes on, another agent stores, or the reservation of the
thread is lost. -/
inductive Turn (t : Target) where
  | own
  | store (a : BitVec (width t)) (n : Nat) (v : BitVec (8 * n))
  | loss

namespace Thread
variable {t : Target}

/-- A bit of the condition register. The first one is the most significant. -/
def conditionBit (s : Thread t) (i : Nat) : Bool := s.cr.getMsbD i

/-- Whether the first condition field says equal. -/
def isEqual (s : Thread t) : Bool := s.conditionBit 2

def next (s : Thread t) : Thread t := { s with pc := s.pc + 1 }

/-- Branches by a distance in bytes. Nothing stands before the code. -/
def jump? (s : Thread t) (distance : Int64) : Option (Thread t) :=
  let dest := (s.pc : Int) + distance.toInt / 4
  if dest < 0 then none else some { s with pc := dest.toNat }

/-- Branches when a bit of the condition register is as asked for. -/
def branch? (s : Thread t) (bo bi distance : Int64) : Option (Thread t) :=
  let bit := s.conditionBit bi.toInt.toNat
  if bo = branchAlways then s.jump? distance
  else if bo = branchOption true then if bit then s.jump? distance else some s.next
  else if bo = branchOption false then if bit then some s.next else s.jump? distance
  else none

/-- Loads a value and reserves its place. -/
def loadReserve (order : ByteOrder) (s : Thread t) (rt : Gpr) (a : BitVec (width t)) (n : Nat) :
    Thread t × List (Access t) :=
  let v := Memory.load order s.memory a n
  ({ s with
      toMachine := s.setGpr rt (v.setWidth _)
      pc := s.pc + 1
      reservation := some ⟨a, n⟩ }, [.load a n v])

/-- Stores if the place is still reserved, and tells in the first condition field whether it
did. -/
def storeConditional (order : ByteOrder) (s : Thread t) (rs : Gpr) (a : BitVec (width t))
    (n : Nat) : Thread t × List (Access t) :=
  let v := (s.gpr rs).setWidth (8 * n)
  let held := decide (s.reservation = some ⟨a, n⟩)
  let told := { s with
    cr := replaceField s.cr .cr0 (flags false false held s.overflow)
    pc := s.pc + 1
    reservation := none }
  if held then
    ({ told with memory := Memory.store order s.memory a n v },
      [.store a n (Memory.load order s.memory a n) v])
  else (told, [])

/-- What an instruction does. -/
def exec? (order : ByteOrder) (s : Thread t) : Instr → Option (Thread t × List (Access t))
  | ⟨.sync, ()⟩ | ⟨.isync, ()⟩ => some (s.next, [])
  | ⟨.bc, (bo, bi, distance, ())⟩ => (s.branch? bo bi distance).map (·, [])
  | ⟨.lwarx, (rt, ra, rb, ())⟩ => some (s.loadReserve order rt (s.base ra + s.gpr rb) 4)
  | ⟨.ldarx, (rt, ra, rb, ())⟩ =>
    if t.is64 then some (s.loadReserve order rt (s.base ra + s.gpr rb) 8) else none
  | ⟨.stwcx, (rs, ra, rb, ())⟩ => some (s.storeConditional order rs (s.base ra + s.gpr rb) 4)
  | ⟨.stdcx, (rs, ra, rb, ())⟩ =>
    if t.is64 then some (s.storeConditional order rs (s.base ra + s.gpr rb) 8) else none
  | i => (s.comparison? s.overflow i).map fun m => ({ s with toMachine := m, pc := s.pc + 1 }, [])

/-- What happens in one turn. A thread that has come to the end of its code stays there. -/
def turn? (order : ByteOrder) (code : List Word) (s : Thread t) :
    Turn t → Option (Thread t × List (Access t))
  | .own =>
    match code[s.pc]? with
    | none => some (s, [])
    | some w => do s.exec? order (← Instr.ofWord? Opcode.all w 0)
  | .store a n v => some ({ s with
      memory := Memory.store order s.memory a n v
      reservation := s.reservation.filter fun p => !p.touchedBy a n }, [])
  | .loss => some ({ s with reservation := none }, [])

/-- Runs code with turns in the order given, and collects what the thread does to memory. -/
def run? (order : ByteOrder) (code : List Word) :
    List (Turn t) → Thread t → Option (Thread t × List (Access t))
  | [], s => some (s, [])
  | turn :: rest, s => do
    let (next, first) ← s.turn? order code turn
    let (final, later) ← run? order code rest next
    return (final, first ++ later)

/-- What every turn keeps, and lets happen, holds after all of them. -/
theorem run_of_turn {order : ByteOrder} {code : List Word}
    {holds : Thread t → List (Access t) → Prop}
    (step : ∀ s accesses turn, holds s accesses →
      ∃ s' more, s.turn? order code turn = some (s', more) ∧ holds s' (accesses ++ more))
    (turns : List (Turn t)) {s : Thread t} {accesses : List (Access t)} (start : holds s accesses) :
    ∃ s' more, run? order code turns s = some (s', more) ∧ holds s' (accesses ++ more) := by
  induction turns generalizing s accesses with
  | nil => exact ⟨s, [], rfl, by rwa [List.append_nil]⟩
  | cons turn rest ih =>
    obtain ⟨next, first, done, kept⟩ := step s accesses turn start
    obtain ⟨final, later, ran, kept⟩ := ih kept
    refine ⟨final, first ++ later, ?_, by rwa [← List.append_assoc]⟩
    rw [run?, done]
    simp only [Option.bind_eq_bind, Option.bind_some, ran]
    rfl

end Thread
end PowerAsm.Proofs
