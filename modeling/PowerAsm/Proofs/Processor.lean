import PowerAsm.Proofs.ConditionRegister
import PowerAsm.Proofs.Emission

/-! A processor that runs code with branches and calls. Its code stands at some address, apart
from the memory that it loads from and stores to. An instruction either computes, and then the
next one follows, or it says where the processor goes on. Instructions that are not described
here stop the processor. -/
namespace PowerAsm.Proofs
open Emission

/-- A machine with the bits of the exception register that its instructions tell. -/
structure Core (t : Target) extends Machine t where
  carry : Bool
  /-- The summary overflow bit, which goes into every result of a comparison. -/
  overflow : Bool

structure Processor (t : Target) extends Core t where
  /-- The address of the next word. -/
  pc : BitVec (width t)

namespace Core
variable {t : Target}

/-- What an instruction does that tells more than what it computes. -/
def tell? (s : Core t) : Instr → Option (Core t)
  | ⟨.andi, (ra, rs, ui, ())⟩ =>
    let v := s.gpr rs &&& Machine.number ui
    some { s with toMachine := (s.setGpr ra v).compare s.overflow .cr0 v 0 }
  | ⟨.subfic, (rt, ra, si, ())⟩ =>
    -- the difference is a sum with the complement, which carries unless it would borrow
    some { s with
      toMachine := s.setGpr rt (Machine.number si - s.gpr ra)
      carry := (s.gpr ra).ule (Machine.number si) }
  | i => (s.comparison? s.overflow i).map fun m => { s with toMachine := m }

def exec? (order : ByteOrder) (s : Core t) (i : Instr) : Option (Core t) :=
  match s.toMachine.exec? order i with
  | some m => some { s with toMachine := m }
  | none => s.tell? i

/-- Whether a branch is taken that asks for a bit of the condition register. -/
def taken? (s : Core t) (bo bi : Int64) : Option Bool :=
  let bit := s.cr.getMsbD bi.toInt.toNat
  if bo = branchAlways then some true
  else if bo = branchOption true then some bit
  else if bo = branchOption false then some !bit
  else none

section Run
variable {order : ByteOrder} {s : Core t}

theorem exec_machine {i : Instr} {m : Machine t} (done : s.toMachine.exec? order i = some m) :
    s.exec? order i = some { s with toMachine := m } := by
  rw [exec?, done]

/-- What a machine runs in a straight line tells nothing. -/
theorem execAll_machine {is : List Instr} {m : Machine t}
    (done : execAll? (Machine.exec? order) is s.toMachine = some m) :
    execAll? (exec? order) is s = some { s with toMachine := m } := by
  induction is generalizing s with
  | nil =>
    cases done
    rfl
  | cons i is ih =>
    obtain ⟨next, first, rest⟩ := exists_of_execAll_cons done
    rw [execAll_cons (exec_machine first)]
    exact ih (s := { s with toMachine := next }) rest

end Run

end Core

namespace Processor
variable {t : Target}

/-- Where the processor goes on after an instruction that does not compute. -/
def control? (s : Processor t) : Instr → Option (Processor t)
  | ⟨.bc, (bo, bi, distance, ())⟩ =>
    (s.taken? bo bi).map fun taken =>
      { s with pc := s.pc + if taken then Machine.number distance else 4 }
  | ⟨.bcctrl, (bo, bi, ())⟩ =>
    (s.taken? bo bi).map fun taken =>
      { s with lr := s.pc + 4, pc := if taken then s.ctr &&& ~~~3 else s.pc + 4 }
  | _ => none

def exec? (order : ByteOrder) (s : Processor t) (i : Instr) : Option (Processor t) :=
  match s.toCore.exec? order i with
  | some c => some ⟨c, s.pc + 4⟩
  | none => s.control? i

/-- The address of a word of code that stands at `start`. -/
def place (start : BitVec (width t)) (k : Nat) : BitVec (width t) :=
  start + BitVec.ofNat (width t) (4 * k)

/-- The word at an address, of code that stands at `start`. -/
def fetch? (start : BitVec (width t)) (code : List Word) (a : BitVec (width t)) : Option Word :=
  let distance := (a - start).toNat
  if distance % 4 = 0 then code[distance / 4]? else none

/-- Runs the next word. -/
def step? (order : ByteOrder) (start : BitVec (width t)) (code : List Word) (s : Processor t) :
    Option (Processor t) := do
  s.exec? order (← Instr.ofWord? Opcode.all (← fetch? start code s.pc) 0)

/-- Runs a number of words. -/
def run? (order : ByteOrder) (start : BitVec (width t)) (code : List Word) :
    Nat → Processor t → Option (Processor t)
  | 0, s => some s
  | n + 1, s => do run? order start code n (← s.step? order start code)

/-- The processor comes from `s` to `s'`. -/
def Reaches (order : ByteOrder) (start : BitVec (width t)) (code : List Word)
    (s s' : Processor t) : Prop :=
  ∃ n, run? order start code n s = some s'

section Run
variable {order : ByteOrder} {start : BitVec (width t)} {code : List Word} {s s' s'' : Processor t}

theorem Reaches.refl (s : Processor t) : Reaches order start code s s := ⟨0, rfl⟩

theorem Reaches.step (first : s.step? order start code = some s')
    (rest : Reaches order start code s' s'') : Reaches order start code s s'' := by
  obtain ⟨n, ran⟩ := rest
  refine ⟨n + 1, ?_⟩
  rw [run?, first]
  exact ran

theorem Reaches.trans (first : Reaches order start code s s')
    (second : Reaches order start code s' s'') : Reaches order start code s s'' := by
  obtain ⟨n, ran⟩ := first
  induction n generalizing s with
  | zero =>
    cases ran
    exact second
  | succ n ih =>
    cases next : s.step? order start code with
    | none =>
      rw [run?, next] at ran
      cases ran
    | some middle =>
      rw [run?, next] at ran
      exact .step next (ih ran)

theorem place_zero (start : BitVec (width t)) : place start 0 = start := BitVec.add_zero start

theorem place_succ (start : BitVec (width t)) (k : Nat) :
    place start k + 4 = place start (k + 1) := by
  rw [place, place, Nat.mul_add, BitVec.ofNat_add, ← BitVec.add_assoc]
  rfl

/-- Code that is no longer than the addresses go is read word by word. -/
theorem fetch_place {k : Nat} {w : Word} (short : 4 * code.length ≤ 2 ^ width t)
    (found : code[k]? = some w) : fetch? start code (place start k) = some w := by
  obtain ⟨inside, -⟩ := List.getElem?_eq_some_iff.mp found
  have distance : (place start k - start).toNat = 4 * k := by
    rw [place, BitVec.add_comm, BitVec.add_sub_cancel, BitVec.toNat_ofNat]
    exact Nat.mod_eq_of_lt (by omega)
  rw [fetch?, distance, if_pos (Nat.mul_mod_right 4 k), Nat.mul_div_cancel_left k (by decide),
    found]

variable {is : List Instr} (held : List.Forall₂ Holds code is)
  (short : 4 * code.length ≤ 2 ^ width t)
include held short

theorem step_held {k : Nat} {i : Instr} (here : s.pc = place start k) (found : is[k]? = some i) :
    s.step? order start code = s.exec? order i := by
  obtain ⟨inside, value⟩ := List.getElem?_eq_some_iff.mp found
  have inside' : k < code.length := by rwa [held.length_eq]
  have holds : Holds code[k] i := by
    rw [← value]
    exact held.get inside' inside
  have word : fetch? start code (place start k) = some code[k] :=
    fetch_place short (List.getElem?_eq_getElem inside')
  rw [step?, here, word]
  simp only [Option.bind_eq_bind, Option.bind_some]
  rw [holds]
  rfl

omit held in
/-- Instructions that compute are run one after the other. -/
theorem run_block {before js after : List Instr}
    (held : List.Forall₂ Holds code (before ++ (js ++ after)))
    (here : s.pc = place start before.length) {c : Core t}
    (done : execAll? (Core.exec? order) js s.toCore = some c) :
    run? order start code js.length s = some ⟨c, place start (before.length + js.length)⟩ := by
  induction js generalizing before s with
  | nil =>
    cases done
    rw [List.length_nil, Nat.add_zero, ← here]
    rfl
  | cons j js ih =>
    obtain ⟨next, first, others⟩ := exists_of_execAll_cons done
    have found : (before ++ (j :: js ++ after))[before.length]? = some j := by
      rw [List.getElem?_append_right (Nat.le_refl _), Nat.sub_self]
      rfl
    have stepped : s.step? order start code = some ⟨next, place start (before.length + 1)⟩ := by
      rw [step_held held short here found, exec?, first, here, place_succ]
    have behind : List.Forall₂ Holds code ((before ++ [j]) ++ (js ++ after)) := by
      simpa using held
    have length : (before ++ [j]).length = before.length + 1 := List.length_append
    have rest := ih behind (s := ⟨next, place start (before.length + 1)⟩) (by rw [length]) others
    rw [length, Nat.add_assoc, Nat.add_comm 1] at rest
    rw [List.length_cons, run?, stepped]
    exact rest

omit held in
theorem reaches_block {before js after : List Instr}
    (held : List.Forall₂ Holds code (before ++ (js ++ after)))
    (here : s.pc = place start before.length) {c : Core t}
    (done : execAll? (Core.exec? order) js s.toCore = some c) :
    Reaches order start code s ⟨c, place start (before.length + js.length)⟩ :=
  ⟨js.length, run_block short held here done⟩

end Run

end Processor
end PowerAsm.Proofs
