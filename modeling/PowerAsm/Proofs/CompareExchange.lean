import PowerAsm.Proofs.Thread
import PowerAsm.Proofs.Writing

/-! Compare and exchange. However the words of a compare-and-exchange are interleaved with
stores by other agents, it either stores once, in an instant in which the word is the expected
one, or not at all, because it has found another word. -/
namespace PowerAsm.Proofs.CompareExchange
open Storage Branches Emission Writing Thread Access ConditionRegister
open Machine (compareWords)

section Instructions
variable {t : Target}

def loadReserved (t : Target) (rt rb : Gpr) : Instr :=
  t.choose ⟨.lwarx, (rt, .r0, rb, ())⟩ ⟨.ldarx, (rt, .r0, rb, ())⟩

def storeReserved (t : Target) (rs rb : Gpr) : Instr :=
  t.choose ⟨.stwcx, (rs, .r0, rb, ())⟩ ⟨.stdcx, (rs, .r0, rb, ())⟩

/-- Branches by a distance in bytes unless the first condition field says equal. -/
def branchUnequal (distance : Int64) : Instr := ⟨.bc, (4, 2, distance, ())⟩

/-- The instructions of a compare-and-exchange. The second one is where it starts over, the
last one where it ends. -/
def exchangeCode (t : Target) (exchange dest compare : Gpr) : List Instr :=
  [⟨.sync, ()⟩, loadReserved t .r0 dest, compareWords t .r0 compare, branchUnequal 12,
    storeReserved t exchange dest, branchUnequal (-16), ⟨.isync, ()⟩]

theorem exec_loadReserved (order : ByteOrder) (s : Thread t) (rt rb : Gpr) :
    s.exec? order (loadReserved t rt rb) =
      some (s.loadReserve order rt (s.gpr rb) t.wordSize) := by
  have sum : s.base .r0 + s.gpr rb = s.gpr rb := BitVec.zero_add _
  cases t <;> simp only [loadReserved, Target.choose, exec?, sum] <;> rfl

theorem exec_storeReserved (order : ByteOrder) (s : Thread t) (rs rb : Gpr) :
    s.exec? order (storeReserved t rs rb) =
      some (s.storeConditional order rs (s.gpr rb) t.wordSize) := by
  have sum : s.base .r0 + s.gpr rb = s.gpr rb := BitVec.zero_add _
  cases t <;> simp only [storeReserved, Target.choose, exec?, sum] <;> rfl

theorem exec_compareWords (order : ByteOrder) (s : Thread t) (ra rb : Gpr) :
    s.exec? order (compareWords t ra rb) =
      some ({ s with
        toMachine := s.compare s.overflow .cr0 (s.gpr ra) (s.gpr rb)
        pc := s.pc + 1 }, []) := by
  have other : s.exec? order (compareWords t ra rb) =
      (s.comparison? s.overflow (compareWords t ra rb)).map fun m =>
        ({ s with toMachine := m, pc := s.pc + 1 }, []) := by cases t <;> rfl
  rw [other, Machine.comparison_compareWords, Option.map_some]

theorem exec_branchUnequal (order : ByteOrder) (s : Thread t) (distance : Int64) :
    s.exec? order (branchUnequal distance) =
      if s.isEqual then some (s.next, []) else (s.jump? distance).map (·, []) := by
  have bit : (2 : Int64).toInt.toNat = 2 := rfl
  have option : branchOption false = 4 := rfl
  have others : (4 : Int64) ≠ branchAlways ∧ (4 : Int64) ≠ branchOption true := by decide
  simp only [branchUnequal, exec?, branch?, option, if_neg others.1, if_neg others.2, if_pos, bit]
  rw [isEqual]
  split <;> rfl

/-- Words that hold instructions are run as these. -/
theorem turn_own {ws : List Word} {is : List Instr} (held : List.Forall₂ Holds ws is)
    (order : ByteOrder) (s : Thread t) : s.turn? order ws .own =
      match is[s.pc]? with
      | none => some (s, [])
      | some i => s.exec? order i := by
  have found (k : Nat) : ws[k]? = none ∧ is[k]? = none ∨
      ∃ w i, ws[k]? = some w ∧ is[k]? = some i ∧ Holds w i := by
    induction held generalizing k with
    | nil => exact .inl ⟨rfl, rfl⟩
    | cons first _ ih =>
      cases k with
      | zero => exact .inr ⟨_, _, rfl, rfl, first⟩
      | succ k => exact ih k
  obtain ⟨ended, ended'⟩ | ⟨w, i, word, instr, holds⟩ := found s.pc
  · rw [turn?, ended, ended']
  · simp only [turn?, word, instr]
    rw [holds]
    rfl

end Instructions

section Stages
variable {t : Target} {order : ByteOrder} {exchange dest compare : Gpr} {s s' : Thread t}
  {accesses : List (Access t)}

/-- Only r0 and the first condition field have changed from `s` to `s'`. -/
structure Kept (s s' : Thread t) : Prop where
  gprs : ∀ r, r ≠ .r0 → s'.gpr r = s.gpr r
  fprs : s'.fpr = s.fpr
  fields : ∀ c, c.isValid = true → c ≠ .cr0 → s'.field c = s.field c
  lr : s'.lr = s.lr
  ctr : s'.ctr = s.ctr
  overflow : s'.overflow = s.overflow

theorem Kept.elsewhere (kept : Kept s s') (memory : Memory (width t)) (pc : Nat)
    (reservation : Option (Place (width t))) : Kept s { s' with memory, pc, reservation } :=
  ⟨kept.gprs, kept.fprs, kept.fields, kept.lr, kept.ctr, kept.overflow⟩

theorem Kept.told (kept : Kept s s') (v : BitVec 4) (memory : Memory (width t)) (pc : Nat)
    (reservation : Option (Place (width t))) :
    Kept s { s' with cr := replaceField s'.cr .cr0 v, memory, pc, reservation } where
  gprs := kept.gprs
  fprs := kept.fprs
  fields := fun c valid spared =>
    (field_replaceField_cr0 rfl valid spared).trans (kept.fields c valid spared)
  lr := kept.lr
  ctr := kept.ctr
  overflow := kept.overflow

/-- If the thread has a reservation then it is on the word at `a`, and the word is `v`. -/
def Guarded (order : ByteOrder) (s : Thread t) (a v : BitVec (width t)) : Prop :=
  s.reservation = none ∨
    s.reservation = some ⟨a, t.wordSize⟩ ∧ Memory.load order s.memory a t.wordSize = v

/-- The one store of a compare-and-exchange that succeeds. -/
def exchanged (exchange dest compare : Gpr) (s : Thread t) : Access t :=
  .store (s.gpr dest) t.wordSize (s.gpr compare) (s.gpr exchange)

/-- The thread has stored once, the new word for the expected one, and says so. -/
def Succeeded (exchange dest compare : Gpr) (s s' : Thread t) (accesses : List (Access t)) : Prop :=
  s'.isEqual = true ∧ stores accesses = [exchanged exchange dest compare s]

/-- The thread has stored nothing, for the word that it has read last is not the expected one,
and says so. -/
def Failed (dest compare : Gpr) (s s' : Thread t) (accesses : List (Access t)) : Prop :=
  s'.isEqual = false ∧ stores accesses = [] ∧
    ∃ v, lastLoad? accesses = some (.load (s.gpr dest) t.wordSize v) ∧ v ≠ s.gpr compare

/-- How far a thread has come that has started as `s`. -/
inductive Stage (order : ByteOrder) (exchange dest compare : Gpr) (s s' : Thread t)
    (accesses : List (Access t)) : Prop
  | starting (pc : s'.pc = 0 ∨ s'.pc = 1) (unstored : stores accesses = [])
  | loaded (pc : s'.pc = 2) (unstored : stores accesses = [])
      (read : lastLoad? accesses = some (.load (s.gpr dest) t.wordSize (s'.gpr .r0)))
      (guarded : Guarded order s' (s.gpr dest) (s'.gpr .r0))
  | compared (pc : s'.pc = 3) (unstored : stores accesses = [])
      (read : lastLoad? accesses = some (.load (s.gpr dest) t.wordSize (s'.gpr .r0)))
      (guarded : Guarded order s' (s.gpr dest) (s'.gpr .r0))
      (told : s'.isEqual = (s'.gpr .r0 == s.gpr compare))
  | equal (pc : s'.pc = 4) (unstored : stores accesses = [])
      (guarded : Guarded order s' (s.gpr dest) (s.gpr compare))
  | tried (pc : s'.pc = 5) (outcome : Succeeded exchange dest compare s s' accesses ∨
      s'.isEqual = false ∧ stores accesses = [])
  | ended (pc : s'.pc = 6 ∨ s'.pc = 7) (outcome : Succeeded exchange dest compare s s' accesses ∨
      Failed dest compare s s' accesses)

theorem Guarded.store {a v : BitVec (width t)} (guarded : Guarded order s a v)
    (b : BitVec (width t)) (n : Nat) (x : BitVec (8 * n)) :
    Guarded order { s with
      memory := Memory.store order s.memory b n x
      reservation := s.reservation.filter fun p => !p.touchedBy b n } a v := by
  obtain none | ⟨held, value⟩ := guarded
  · left
    show s.reservation.filter _ = _
    rw [none]
    rfl
  · by_cases touched : Place.touchedBy ⟨a, t.wordSize⟩ b n = true
    · left
      show s.reservation.filter _ = _
      rw [held, Option.filter_some, touched]
      rfl
    · rw [Bool.not_eq_true] at touched
      right
      refine ⟨?_, (Place.load_store_of_not_touched x touched).trans value⟩
      show s.reservation.filter _ = _
      rw [held, Option.filter_some, touched]
      rfl

/-- What other agents do to memory and to the reservation does not take a thread back. -/
theorem Stage.disturbed {memory : Memory (width t)} {reservation : Option (Place (width t))}
    (stage : Stage order exchange dest compare s s' accesses)
    (guards : ∀ a v, Guarded order s' a v → Guarded order { s' with memory, reservation } a v) :
    Stage order exchange dest compare s { s' with memory, reservation } accesses := by
  cases stage with
  | starting pc unstored => exact .starting pc unstored
  | loaded pc unstored read guarded => exact .loaded pc unstored read (guards _ _ guarded)
  | compared pc unstored read guarded told =>
    exact .compared pc unstored read (guards _ _ guarded) told
  | equal pc unstored guarded => exact .equal pc unstored (guards _ _ guarded)
  | tried pc outcome => exact .tried pc outcome
  | ended pc outcome => exact .ended pc outcome

/-- The thread runs an instruction and has come further then. -/
def Advances (order : ByteOrder) (exchange dest compare : Gpr) (s s' : Thread t)
    (accesses : List (Access t)) (i : Instr) : Prop :=
  ∃ s'' more, s'.exec? order i = some (s'', more) ∧ Kept s s'' ∧
    Stage order exchange dest compare s s'' (accesses ++ more)

theorem advances_sync (kept : Kept s s') (pc : s'.pc = 0) (unstored : stores accesses = []) :
    Advances order exchange dest compare s s' accesses ⟨.sync, ()⟩ := by
  refine ⟨s'.next, [], rfl, kept.elsewhere _ _ _, ?_⟩
  rw [List.append_nil]
  exact .starting (.inr (congrArg (· + 1) pc)) unstored

theorem advances_load (other : dest ≠ .r0) (kept : Kept s s') (pc : s'.pc = 1)
    (unstored : stores accesses = []) :
    Advances order exchange dest compare s s' accesses (loadReserved t .r0 dest) := by
  have ran := exec_loadReserved order s' .r0 dest
  rw [loadReserve, kept.gprs dest other, BitVec.setWidth_eq] at ran
  refine ⟨_, _, ran, ?_, ?_⟩
  · exact ⟨fun r spared => (if_neg spared).trans (kept.gprs r spared), kept.fprs, kept.fields,
      kept.lr, kept.ctr, kept.overflow⟩
  · refine .loaded (congrArg (· + 1) pc) ?_ ?_ ?_
    · rw [stores_snoc_load, unstored]
    · rw [lastLoad?_snoc_load]
      rfl
    · exact .inr ⟨rfl, rfl⟩

theorem advances_compare (other : compare ≠ .r0) (kept : Kept s s') (pc : s'.pc = 2)
    (unstored : stores accesses = [])
    (read : lastLoad? accesses = some (.load (s.gpr dest) t.wordSize (s'.gpr .r0)))
    (guarded : Guarded order s' (s.gpr dest) (s'.gpr .r0)) :
    Advances order exchange dest compare s s' accesses (compareWords t .r0 compare) := by
  refine ⟨_, _, exec_compareWords order s' .r0 compare, ?_, ?_⟩
  · exact kept.told _ _ _ _
  · rw [List.append_nil]
    refine .compared (congrArg (· + 1) pc) unstored read guarded ?_
    rw [← kept.gprs compare other]
    exact getMsbD_replaceField_cr0 _ _ _ _ _

theorem advances_leave (kept : Kept s s') (pc : s'.pc = 3) (unstored : stores accesses = [])
    (read : lastLoad? accesses = some (.load (s.gpr dest) t.wordSize (s'.gpr .r0)))
    (guarded : Guarded order s' (s.gpr dest) (s'.gpr .r0))
    (told : s'.isEqual = (s'.gpr .r0 == s.gpr compare)) :
    Advances order exchange dest compare s s' accesses (branchUnequal 12) := by
  have ran := exec_branchUnequal order s' 12
  by_cases same : s'.gpr .r0 = s.gpr compare
  · rw [told, same, beq_self_eq_true, if_pos rfl] at ran
    refine ⟨_, _, ran, kept.elsewhere _ _ _, ?_⟩
    rw [List.append_nil]
    rw [same] at guarded
    exact .equal (congrArg (· + 1) pc) unstored guarded
  · have unequal : s'.isEqual = false := by rw [told, beq_eq_false_iff_ne.mpr same]
    rw [unequal, if_neg Bool.false_ne_true, jump?, pc] at ran
    refine ⟨_, _, ran, kept.elsewhere _ _ _, ?_⟩
    rw [List.append_nil]
    exact .ended (.inl rfl) (.inr ⟨unequal, unstored, _, read, same⟩)

theorem advances_store (others : exchange ≠ .r0 ∧ dest ≠ .r0) (kept : Kept s s') (pc : s'.pc = 4)
    (unstored : stores accesses = []) (guarded : Guarded order s' (s.gpr dest) (s.gpr compare)) :
    Advances order exchange dest compare s s' accesses (storeReserved t exchange dest) := by
  have ran := exec_storeReserved order s' exchange dest
  rw [storeConditional, kept.gprs dest others.2, kept.gprs exchange others.1,
    BitVec.setWidth_eq] at ran
  obtain lost | ⟨held, value⟩ := guarded
  · rw [lost] at ran
    refine ⟨_, _, ran, kept.told _ _ _ _, ?_⟩
    rw [List.append_nil]
    exact .tried (congrArg (· + 1) pc) (.inr ⟨getMsbD_replaceField_cr0 _ _ _ _ _, unstored⟩)
  · rw [held, decide_eq_true rfl, value] at ran
    refine ⟨_, _, ran, kept.told _ _ _ _, ?_⟩
    refine .tried (congrArg (· + 1) pc) (.inl ⟨getMsbD_replaceField_cr0 _ _ _ _ _, ?_⟩)
    rw [stores_snoc_store, unstored]
    rfl

theorem advances_repeat (kept : Kept s s') (pc : s'.pc = 5)
    (outcome : Succeeded exchange dest compare s s' accesses ∨
      s'.isEqual = false ∧ stores accesses = []) :
    Advances order exchange dest compare s s' accesses (branchUnequal (-16)) := by
  have ran := exec_branchUnequal order s' (-16)
  obtain ⟨equal, stored⟩ | ⟨unequal, unstored⟩ := outcome
  · rw [equal, if_pos rfl] at ran
    refine ⟨_, _, ran, kept.elsewhere _ _ _, ?_⟩
    rw [List.append_nil]
    exact .ended (.inl (congrArg (· + 1) pc)) (.inl ⟨equal, stored⟩)
  · rw [unequal, if_neg Bool.false_ne_true, jump?, pc] at ran
    refine ⟨_, _, ran, kept.elsewhere _ _ _, ?_⟩
    rw [List.append_nil]
    exact .starting (.inr rfl) unstored

theorem advances_isync (kept : Kept s s') (pc : s'.pc = 6)
    (outcome : Succeeded exchange dest compare s s' accesses ∨
      Failed dest compare s s' accesses) :
    Advances order exchange dest compare s s' accesses ⟨.isync, ()⟩ := by
  refine ⟨s'.next, [], rfl, kept.elsewhere _ _ _, ?_⟩
  rw [List.append_nil]
  exact .ended (.inr (congrArg (· + 1) pc)) outcome

/-- In every turn, its own or not, the thread knows what it needs for the next one. -/
theorem Stage.turn {ws : List Word}
    (held : List.Forall₂ Holds ws (exchangeCode t exchange dest compare))
    (others : exchange ≠ .r0 ∧ dest ≠ .r0 ∧ compare ≠ .r0) (kept : Kept s s')
    (stage : Stage order exchange dest compare s s' accesses) (turn : Turn t) :
    ∃ s'' more, s'.turn? order ws turn = some (s'', more) ∧ Kept s s'' ∧
      Stage order exchange dest compare s s'' (accesses ++ more) := by
  obtain ⟨first, second, third⟩ := others
  have own := turn_own held order s'
  cases turn with
  | store a n v =>
    refine ⟨_, _, rfl, kept.elsewhere _ _ _, ?_⟩
    rw [List.append_nil]
    exact stage.disturbed fun _ _ guarded => guarded.store a n v
  | loss =>
    refine ⟨_, _, rfl, kept.elsewhere _ _ _, ?_⟩
    rw [List.append_nil]
    exact stage.disturbed fun _ _ _ => .inl rfl
  | own =>
    cases stage with
    | starting pc unstored =>
      obtain pc | pc := pc
      · rw [own, pc]
        exact advances_sync kept pc unstored
      · rw [own, pc]
        exact advances_load second kept pc unstored
    | loaded pc unstored read guarded =>
      rw [own, pc]
      exact advances_compare third kept pc unstored read guarded
    | compared pc unstored read guarded told =>
      rw [own, pc]
      exact advances_leave kept pc unstored read guarded told
    | equal pc unstored guarded =>
      rw [own, pc]
      exact advances_store ⟨first, second⟩ kept pc unstored guarded
    | tried pc outcome =>
      rw [own, pc]
      exact advances_repeat kept pc outcome
    | ended pc outcome =>
      obtain pc | pc := pc
      · rw [own, pc]
        exact advances_isync kept pc outcome
      · rw [own, pc]
        refine ⟨s', [], rfl, kept, ?_⟩
        rw [List.append_nil]
        exact .ended (.inr pc) outcome

end Stages

section Alone
variable {t : Target} {order : ByteOrder} {exchange dest compare : Gpr} {ws : List Word}
  {s : Thread t}

/-- A thread that no other agent disturbs comes to the end of its code. -/
def Ends (order : ByteOrder) (ws : List Word) (s : Thread t) : Prop :=
  ∃ n s' accesses, run? order ws (List.replicate n .own) s = some (s', accesses) ∧ s'.pc = ws.length

variable (held : List.Forall₂ Holds ws (exchangeCode t exchange dest compare))
include held

theorem Ends.step {s' : Thread t} {i : Instr} {more : List (Access t)} (ends : Ends order ws s')
    (found : (exchangeCode t exchange dest compare)[s.pc]? = some i)
    (stepped : s.exec? order i = some (s', more)) : Ends order ws s := by
  obtain ⟨n, final, accesses, ran, finish⟩ := ends
  refine ⟨n + 1, final, more ++ accesses, ?_, finish⟩
  rw [List.replicate_succ, run?, turn_own held, found]
  simp only [stepped, Option.bind_eq_bind, Option.bind_some, ran]
  rfl

theorem ends_isync (pc : s.pc = 6) : Ends order ws s := by
  have ended : Ends order ws s.next := by
    refine ⟨0, s.next, [], rfl, ?_⟩
    rw [held.length_eq]
    exact congrArg (· + 1) pc
  exact ended.step held (by rw [pc]; rfl) rfl

theorem ends_stored (pc : s.pc = 5) (equal : s.isEqual = true) : Ends order ws s := by
  have ran := exec_branchUnequal order s (-16)
  rw [if_pos equal] at ran
  exact (ends_isync held (congrArg (· + 1) pc)).step held (by rw [pc]; rfl) ran

theorem ends_reserved (pc : s.pc = 4) (reserved : s.reservation = some ⟨s.gpr dest, t.wordSize⟩) :
    Ends order ws s := by
  have ran := exec_storeReserved order s exchange dest
  rw [storeConditional, reserved, decide_eq_true rfl] at ran
  refine .step held ?_ (by rw [pc]; rfl) ran
  exact ends_stored held (congrArg (· + 1) pc) (getMsbD_replaceField_cr0 _ _ _ _ _)

theorem ends_compared (pc : s.pc = 3) (reserved : s.reservation = some ⟨s.gpr dest, t.wordSize⟩) :
    Ends order ws s := by
  have ran := exec_branchUnequal order s 12
  by_cases equal : s.isEqual = true
  · rw [if_pos equal] at ran
    refine .step held ?_ (by rw [pc]; rfl) ran
    exact ends_reserved held (congrArg (· + 1) pc) reserved
  · rw [if_neg equal, jump?, pc] at ran
    exact .step held (ends_isync held rfl) (by rw [pc]; rfl) ran

theorem ends_loaded (pc : s.pc = 2) (reserved : s.reservation = some ⟨s.gpr dest, t.wordSize⟩) :
    Ends order ws s := by
  refine .step held ?_ (by rw [pc]; rfl) (exec_compareWords order s .r0 compare)
  exact ends_compared held (congrArg (· + 1) pc) reserved

theorem ends_started (other : dest ≠ .r0) (pc : s.pc = 1) : Ends order ws s := by
  refine .step held (ends_loaded held ?_ ?_) (by rw [pc]; rfl) (exec_loadReserved order s .r0 dest)
  · exact congrArg (· + 1) pc
  · show _ = some (Place.mk (if dest = .r0 then _ else s.gpr dest) t.wordSize)
    rw [if_neg other]

/-- Left alone, a compare-and-exchange ends: nothing takes its reservation away. -/
theorem ends_of_start (other : dest ≠ .r0) (start : s.pc = 0) : Ends order ws s :=
  (ends_started held other (congrArg (· + 1) start)).step held (by rw [start]; rfl) rfl

end Alone

/-- The branches of a compare-and-exchange, without their displacements. -/
def unequal : Branch := .conditional 4 2

theorem fits_unequal : FieldsFit unequal := by decide

theorem inReach_unequal {words : Int} (above : -4 ≤ words) (below : words ≤ 3) :
    InReach unequal words := by
  have bits : unequal.bits = 14 := rfl
  rw [InReach, bits]
  omega

theorem holds_leave : Holds (wordOf unequal 3) (branchUnequal 12) := by
  rw [Holds, Instr.ofWord?, (Table.ofWord?_eq_some_iff _ .bc).mpr (by decide)]
  rfl

theorem holds_repeat : Holds (wordOf unequal (-4)) (branchUnequal (-16)) := by
  rw [Holds, Instr.ofWord?, (Table.ofWord?_eq_some_iff _ .bc).mpr (by decide)]
  rfl

/-- A compare-and-exchange is accepted only where the segment can be written to. -/
theorem written_of_accepted {a b : Assembly} {u : Unit} {exchange dest compare : Gpr}
    (stored : a.segment.storage.size < 2 ^ 63)
    (accepted : Asm.compareExchange exchange dest compare a = .ok u b) :
    ∃ bytes, Written a.segment bytes := by
  rw [Asm.compareExchange] at accepted
  split at accepted
  · cases accepted
  · obtain ⟨loop, a₁, ran, accepted⟩ := bind_ok accepted
    cases ran
    obtain ⟨done, a₂, ran, accepted⟩ := bind_ok accepted
    cases ran
    obtain ⟨⟨⟩, a₃, ran, -⟩ := bind_ok accepted
    obtain ⟨bytes, written⟩ := written_of_encoded (by exact stored) ran
    exact ⟨bytes, written⟩

/-- A compare-and-exchange that was accepted has been written as its instructions. -/
theorem compareExchange_code {a b : Assembly} {u : Unit} {bytes : List UInt8}
    {exchange dest compare : Gpr} (written : Written a.segment bytes)
    (few : a.assembler.labels.size + 1 < 2 ^ 63)
    (accepted : Asm.compareExchange exchange dest compare a = .ok u b) :
    (exchange ≠ .r0 ∧ dest ≠ .r0 ∧ compare ≠ .r0) ∧ ∃ ws,
      Written b.segment (bytes ++ ws.flatMap a.segment.order.bytes) ∧
      List.Forall₂ Holds ws (exchangeCode a.assembler.target exchange dest compare) := by
  have holding := holding_origin written
  have first : a.assembler.labels.size + 0 < 2 ^ 63 := Nat.lt_of_succ_lt few
  by_cases bad : exchange = .r0 ∨ dest = .r0 ∨ compare = .r0 ∨ exchange = dest ∨
      exchange = compare ∨ dest = compare
  · simp only [Asm.compareExchange, if_pos bad] at accepted
    cases accepted
  · rw [Asm.compareExchange, if_neg bad] at accepted
    simp only [not_or] at bad
    refine ⟨⟨bad.1, bad.2.1, bad.2.2.1⟩, ?_⟩
    -- One action after the other. The branch to the end is the only one that waits.
    obtain ⟨loop, _, ran, accepted⟩ := bind_ok accepted
    obtain ⟨rfl, holding⟩ := holding.newLabel ran
    obtain ⟨done, _, ran, accepted⟩ := bind_ok accepted
    obtain ⟨rfl, holding⟩ := holding.newLabel ran
    obtain ⟨⟨⟩, _, ran, accepted⟩ := bind_ok accepted
    obtain ⟨w₀, held₀, holding⟩ := holding.instr (by decide) ran
    obtain ⟨⟨⟩, _, ran, accepted⟩ := bind_ok accepted
    have holding := holding.bind_unused first rfl ran
    obtain ⟨⟨⟩, _, ran, accepted⟩ := bind_ok accepted
    obtain ⟨w₁, held₁, holding⟩ := holding.sized (by decide) (by decide) ran
    obtain ⟨⟨⟩, _, ran, accepted⟩ := bind_ok accepted
    obtain ⟨w₂, held₂, holding⟩ := holding.sized (by decide) (by decide) ran
    obtain ⟨⟨⟩, _, ran, accepted⟩ := bind_ok accepted
    have holding := holding.branch_free few rfl fits_unequal ran
    obtain ⟨⟨⟩, _, ran, accepted⟩ := bind_ok accepted
    obtain ⟨w₄, held₄, holding⟩ := holding.sized (by decide) (by decide) ran
    obtain ⟨⟨⟩, _, ran, accepted⟩ := bind_ok accepted
    have ran : Asm.branchTo unequal _ _ = _ := ran
    have holding := holding.branch_bound first rfl (by simp) (by simp) ran
    obtain ⟨⟨⟩, _, ran, accepted⟩ := bind_ok accepted
    have holding := holding.bind_waiting few rfl rfl fits_unequal (by simp) ran
    obtain ⟨w₆, held₆, holding⟩ := holding.instr (by decide) accepted
    refine ⟨_, holding.written, ?_⟩
    exact .cons held₀ (.cons held₁ (.cons held₂ (.cons holds_leave (.cons held₄
      (.cons holds_repeat (.cons held₆ .nil))))))

/-- The registers that a compare-and-exchange can work with. -/
def Distinct (exchange dest compare : Gpr) : Prop :=
  (exchange.isValid = true ∧ dest.isValid = true ∧ compare.isValid = true) ∧
    [exchange, dest, compare, .r0].Nodup

/-- A compare-and-exchange is accepted if its registers are three, r0 not among them, and there
is room for it behind whole words. -/
theorem compareExchange_accepted {a : Assembly} {bytes : List UInt8} {words : Nat}
    {exchange dest compare : Gpr} (written : Written a.segment bytes)
    (few : a.assembler.labels.size + 1 < 2 ^ 63) (whole : Whole a bytes words)
    (room : Room a.segment (bytes.length + 4 * 7)) (distinct : Distinct exchange dest compare) :
    ∃ b, Asm.compareExchange exchange dest compare a = .ok () b := by
  have holding := holding_origin written
  have first : a.assembler.labels.size + 0 < 2 ^ 63 := Nat.lt_of_succ_lt few
  have room (n : Nat) (inside : n ≤ 7) : Room a.segment (bytes.length + 4 * n) :=
    room.mono (by omega)
  obtain ⟨⟨validExchange, validDest, validCompare⟩, apart⟩ := distinct
  have good : ¬ (exchange = .r0 ∨ dest = .r0 ∨ compare = .r0 ∨ exchange = dest ∨
      exchange = compare ∨ dest = compare) := by
    simp at apart
    tauto
  rw [Asm.compareExchange, if_neg good]
  refine ok_bind holding.newLabel_ok fun _ ran => ?_
  obtain ⟨-, holding⟩ := holding.newLabel ran
  refine ok_bind holding.newLabel_ok fun _ ran => ?_
  obtain ⟨-, holding⟩ := holding.newLabel ran
  refine ok_bind (holding.instr_ok trivial (room 1 (by decide))) fun _ ran => ?_
  obtain ⟨w₀, -, holding⟩ := holding.instr (by decide) ran
  refine ok_bind (holding.bind_unused_ok first rfl) fun _ ran => ?_
  have holding := holding.bind_unused first rfl ran
  refine ok_bind (holding.sized_ok ⟨rfl, rfl, validDest⟩ ⟨rfl, rfl, validDest⟩
    (room 2 (by decide))) fun _ ran => ?_
  obtain ⟨w₁, -, holding⟩ := holding.sized (by decide) (by decide) ran
  refine ok_bind (holding.sized_ok ⟨rfl, rfl, validCompare⟩ ⟨rfl, rfl, validCompare⟩
    (room 3 (by decide))) fun _ ran => ?_
  obtain ⟨w₂, -, holding⟩ := holding.sized (by decide) (by decide) ran
  refine ok_bind (holding.branch_free_ok few rfl fits_unequal (room 4 (by decide)))
    fun _ ran => ?_
  have holding := holding.branch_free few rfl fits_unequal ran
  refine ok_bind (holding.sized_ok ⟨validExchange, rfl, validDest⟩ ⟨validExchange, rfl, validDest⟩
    (room 5 (by decide))) fun _ ran => ?_
  obtain ⟨w₄, -, holding⟩ := holding.sized (by decide) (by decide) ran
  refine ok_bind (holding.branch_bound_ok first rfl (by simp) (by simp) fits_unequal
    (inReach_unequal (by simp) (by simp)) (room 6 (by decide))) fun _ ran => ?_
  have holding := holding.branch_bound first rfl (by simp) (by simp) ran
  refine ok_bind (holding.bind_waiting_ok whole few rfl rfl fits_unequal (by simp)
    (inReach_unequal (by simp) (by simp))) fun _ ran => ?_
  have holding := holding.bind_waiting few rfl rfl fits_unequal (by simp) ran
  exact holding.instr_ok trivial (room 7 (by decide))

/-- What a thread has done that started the code as `s` and has come to `s'`, with these
accesses to memory. -/
structure Atomic {t : Target} (code : List Word) (exchange dest compare : Gpr) (s s' : Thread t)
    (accesses : List (Access t)) : Prop where
  kept : Kept s s'
  /-- At the end, equal means one store, of the new word for the expected one. -/
  equal : s'.pc = code.length → s'.isEqual = true →
    stores accesses = [.store (s.gpr dest) t.wordSize (s.gpr compare) (s.gpr exchange)]
  /-- At the end, unequal means no store, and another word that was read. -/
  unequal : s'.pc = code.length → s'.isEqual = false → stores accesses = [] ∧
    ∃ v, lastLoad? accesses = some (.load (s.gpr dest) t.wordSize v) ∧ v ≠ s.gpr compare

theorem Stage.outcome {t : Target} {order : ByteOrder} {exchange dest compare : Gpr}
    {s s' : Thread t} {accesses : List (Access t)}
    (stage : Stage order exchange dest compare s s' accesses) (finish : s'.pc = 7) :
    Succeeded exchange dest compare s s' accesses ∨ Failed dest compare s s' accesses := by
  cases stage with
  | ended _ outcome => exact outcome
  | starting | loaded | compared | equal | tried => omega

/-- Wherever a compare-and-exchange was written, it is atomic in every interleaving with other
agents. Storage and labels are counted by signed numbers of 64 bits, so there are no more of
them than that. -/
theorem compareExchange_atomic {a b : Assembly} {exchange dest compare : Gpr}
    (stored : a.segment.storage.size < 2 ^ 63) (few : a.assembler.labels.size + 1 < 2 ^ 63)
    (accepted : Asm.compareExchange exchange dest compare a = .ok () b) :
    ∃ bytes ws, a.segment.bytes = .ok bytes ∧
      b.segment.bytes = .ok (bytes ++ ws.flatMap a.segment.order.bytes) ∧
      ∀ (order : ByteOrder) (s : Thread a.assembler.target), s.pc = 0 → Ends order ws s ∧
        ∀ turns, ∃ s' accesses, run? order ws turns s = some (s', accesses) ∧
          Atomic ws exchange dest compare s s' accesses := by
  obtain ⟨bytes, before⟩ := written_of_accepted stored accepted
  obtain ⟨others, ws, after, held⟩ := compareExchange_code before few accepted
  refine ⟨bytes, ws, bytes_of_written before, bytes_of_written after,
    fun order s start => ⟨ends_of_start held others.2.1 start, fun turns => ?_⟩⟩
  have same : Kept s s := ⟨fun _ _ => rfl, rfl, fun _ _ _ => rfl, rfl, rfl, rfl⟩
  obtain ⟨s', accesses, ran, kept, stage⟩ :=
    @run_of_turn _ order ws (fun s' accesses => Kept s s' ∧
      Stage order exchange dest compare s s' accesses)
      (fun s' accesses turn ⟨kept, stage⟩ => stage.turn held others kept turn) turns s []
      ⟨same, .starting (.inl start) rfl⟩
  have length : ws.length = 7 := held.length_eq
  refine ⟨s', accesses, ran, kept, fun finish equal => ?_, fun finish unequal => ?_⟩
  · obtain ⟨-, stored⟩ | ⟨unequal, -⟩ := stage.outcome (finish.trans length)
    · exact stored
    · cases equal.symm.trans unequal
  · obtain ⟨equal, -⟩ | ⟨-, refused⟩ := stage.outcome (finish.trans length)
    · cases equal.symm.trans unequal
    · exact refused

/-- An assembler that shares its segment: sixteen bytes stand before its buffer. -/
def sharing : Assembly := ⟨.ofCode (List.replicate 16 0) .little, .initial .ppc64 ⟨16⟩⟩

/-- It can start with a compare-and-exchange. -/
theorem compareExchange_atomic_sharing : ∃ b,
    sharing.segment.storage.size < 2 ^ 63 ∧ sharing.assembler.labels.size + 1 < 2 ^ 63 ∧
    Asm.compareExchange ⟨3⟩ ⟨4⟩ ⟨5⟩ sharing = .ok () b ∧
    ∃ bytes ws, sharing.segment.bytes = .ok bytes ∧
      b.segment.bytes = .ok (bytes ++ ws.flatMap sharing.segment.order.bytes) ∧
      ∀ (order : ByteOrder) (s : Thread .ppc64), s.pc = 0 → Ends order ws s ∧
        ∀ turns, ∃ s' accesses, run? order ws turns s = some (s', accesses) ∧
          Atomic ws ⟨3⟩ ⟨4⟩ ⟨5⟩ s s' accesses := by
  have stored : sharing.segment.storage.size < 2 ^ 63 := by decide
  have few : sharing.assembler.labels.size + 1 < 2 ^ 63 := by decide
  have room : Room sharing.segment (16 + 4 * 7) :=
    Nat.lt_of_le_of_lt (doubled_le 16 44 2 (by decide)) (by decide)
  have written : Written sharing.segment (List.replicate 16 0) := ⟨by decide, by decide, stored⟩
  have whole : Whole sharing (List.replicate 16 0) 0 := ⟨by decide, by decide⟩
  obtain ⟨b, accepted⟩ := compareExchange_accepted written few whole room
    (show Distinct ⟨3⟩ ⟨4⟩ ⟨5⟩ by unfold Distinct; decide)
  exact ⟨b, stored, few, accepted, compareExchange_atomic stored few accepted⟩

end PowerAsm.Proofs.CompareExchange
