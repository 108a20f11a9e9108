import PowerAsm.Proofs.ConstantLoads
import PowerAsm.Proofs.FrameExecution
import PowerAsm.Proofs.Processor

/-! Calls of functions at known addresses. On 32 bits the address goes to the count register, and
the call leads there. On 64 bits it is the address of a descriptor, from which the function and its
table of contents pointer are loaded; the pointer of the caller waits on the stack and is loaded
again behind the call. -/
namespace PowerAsm.Proofs.Calls
open Storage Emission FrameCode FrameExecution Processor ConstantLoads

/-- Puts r2 on the stack and loads the descriptor that `fn` points to. -/
def switchCode (t : Target) (fn : Gpr) : List Instr :=
  [storeWord t .r2 (stack 40), loadWord t .r2 ⟨fn, 8⟩, loadWord t .r0 ⟨fn, 0⟩, moveTo .ctr]

/-- Makes the function ready to be called that `fn` points to. -/
def prepareCode (t : Target) (fn : Gpr) : List Instr :=
  t.choose [⟨.mtspr, (.ctr, fn, ())⟩] (switchCode t fn)

/-- Calls what the count register points to. -/
def callCount : Instr := ⟨.bcctrl, (branchAlways, 0, ())⟩

/-- The code behind a call. -/
def resumeCode (t : Target) : List Instr := t.choose [] [loadWord t .r2 (stack 40)]

section Writes
variable {t : Target}

theorem writes_callCount (fn : Gpr) :
    Writes t (Asm.callCount fn) [⟨.mtspr, (.ctr, fn, ())⟩, callCount] :=
  (writes_short rfl).bind (writes_short rfl)

theorem writes_callRegister (fn : Gpr) :
    Writes t (Asm.callRegister fn) (prepareCode t fn ++ callCount :: resumeCode t) := by
  refine writes_target ?_
  cases t with
  | ppc32 => exact writes_callCount fn
  | ppc64 =>
    exact writes_store.bind (writes_load.bind (writes_load.bind
      ((writes_callCount .r0).bind writes_load)))

theorem writes_call {entry : Int64} (aligned : entry.toInt % 4 = 0) {is : List Instr}
    (loads : Writes t (Asm.loadConst t.callRegister entry) is) :
    Writes t (Asm.call entry)
      (is ++ (prepareCode t t.callRegister ++ callCount :: resumeCode t)) := by
  rw [Asm.call, if_neg (not_not.mpr aligned)]
  exact writes_target (loads.bind (writes_callRegister _))

theorem fits_prepare {fn : Gpr} (valid : fn.isValid = true) :
    ∀ i ∈ prepareCode t fn, OperandsFit i := by
  cases t with
  | ppc32 => exact List.forall_mem_singleton.mpr ⟨rfl, valid⟩
  | ppc64 =>
    have near : fitsSigned 8 16 = true ∧ (8 : Int64).toInt % 4 = 0 := by decide
    have start : fitsSigned 0 16 = true ∧ (0 : Int64).toInt % 4 = 0 := by decide
    simp only [prepareCode, switchCode, Target.choose, List.forall_mem_cons]
    exact ⟨fits_storeWord rfl ⟨rfl, rfl, rfl⟩, fits_loadWord rfl ⟨valid, near⟩,
      fits_loadWord rfl ⟨valid, start⟩, ⟨rfl, rfl⟩, List.forall_mem_nil _⟩

theorem fits_resume : ∀ i ∈ callCount :: resumeCode t, OperandsFit i := by
  refine List.forall_mem_cons.mpr ⟨⟨rfl, rfl⟩, ?_⟩
  cases t with
  | ppc32 => exact List.forall_mem_nil _
  | ppc64 => exact List.forall_mem_singleton.mpr ⟨rfl, rfl, rfl, rfl⟩

end Writes

/-- The address of a function, or of its descriptor, as a register holds it. -/
def entryAddress (t : Target) (entry : Int64) : BitVec (width t) :=
  entry.toBitVec.setWidth (width t)

/-- A descriptor: the address of the function and its table of contents pointer. -/
def descriptor (t : Target) (entry : Int64) : Place (width t) :=
  ⟨entryAddress t entry, 2 * t.wordSize⟩

section Running
variable {t : Target} {order : ByteOrder} {entry : Int64}

/-- The word of the stack that holds r2 during a call. -/
def tocSave (s : Machine t) : Place (width t) := ⟨s.gpr .sp + 40#_, t.wordSize⟩

/-- The memory once r2 is on the stack. -/
def saved (order : ByteOrder) (s : Machine t) : Memory (width t) :=
  Memory.store order s.memory (tocSave s).address t.wordSize (s.gpr .r2)

/-- The table of contents pointer that is loaded through a register. -/
def loadedToc (order : ByteOrder) (fn : Gpr) (s : Machine t) : BitVec (width t) :=
  Memory.load order (saved order s) (s.base fn + 8#_) t.wordSize

/-- The address of a function that is loaded through a register, where r2 has been replaced. -/
def loadedFunction (order : ByteOrder) (fn : Gpr) (s : Machine t) : BitVec (width t) :=
  let place := if fn = .r2 then loadedToc order fn s else s.base fn
  Memory.load order (saved order s) place t.wordSize

/-- The machine once r2 is on the stack, and a descriptor loaded through a register. -/
def switchedThrough (order : ByteOrder) (fn : Gpr) (s : Machine t) : Machine t :=
  { (s.setGpr .r2 (loadedToc order fn s)).setGpr .r0 (loadedFunction order fn s) with
    ctr := loadedFunction order fn s
    memory := saved order s }

/-- A register as a base, once r2 is replaced. -/
theorem base_setGpr_toc {fn : Gpr} (s : Machine t) (v : BitVec (width t)) :
    (s.setGpr .r2 v).base fn = if fn = .r2 then v else s.base fn := by
  by_cases zero : fn = .r0
  · subst zero
    rfl
  · simp only [Machine.base, if_neg zero, Machine.setGpr]

theorem exec_switchThrough {fn : Gpr} (s : Machine t) :
    execAll? (Machine.exec? order) (switchCode t fn) s = some (switchedThrough order fn s) := by
  have near (s : Machine t) : s.address ⟨fn, 8⟩ = s.base fn + 8#_ := address_of_nat s fn (by decide)
  have start (s : Machine t) : s.address ⟨fn, 0⟩ = s.base fn := by
    have first := address_of_nat s fn (show 0 < 2 ^ 63 by decide)
    rwa [BitVec.add_zero] at first
  have first : s.exec? order (storeWord t .r2 (stack 40)) =
      some { s with memory := saved order s } := by
    rw [exec_storeWord, Machine.store, address_stack s (by decide)]
    rfl
  rw [switchCode, execAll_cons first,
    execAll_cons (exec_loadWord order _ .r2 ⟨fn, 8⟩), Machine.load, near,
    execAll_cons (exec_loadWord order _ .r0 ⟨fn, 0⟩), Machine.load, start, base_setGpr_toc]
  rfl

/-- Through a register that is a base and is not replaced, a descriptor is found that r2 was not
put over. -/
theorem loaded_descriptor {fn : Gpr} (used : fn ≠ .r0) (other : fn ≠ .r2) {s : Machine .ppc64}
    (apart : Place.Apart ⟨s.gpr fn, 16⟩ (tocSave s)) :
    loadedFunction order fn s = Memory.load order s.memory (s.gpr fn) 8 ∧
      loadedToc order fn s = Memory.load order s.memory (s.gpr fn + 8#_) 8 := by
  have base : s.base fn = s.gpr fn := if_neg used
  have unchanged (o : Nat) (inside : o + 8 ≤ 16) :
      Memory.load order (saved order s) (s.gpr fn + BitVec.ofNat _ o) 8 =
        Memory.load order s.memory (s.gpr fn + BitVec.ofNat _ o) 8 :=
    apart.load_store (s.gpr .r2) inside
  have function := unchanged 0 (by decide)
  rw [BitVec.add_zero] at function
  rw [loadedFunction, if_neg other, loadedToc, base]
  exact ⟨function, unchanged 8 (by decide)⟩

/-- The machine `s` has become `m`, which is about to call the function at `entry`. -/
structure Calling (order : ByteOrder) (entry : Int64) (s m : Machine t) : Prop where
  ctr : m.ctr = t.choose (entryAddress t entry)
    (Memory.load order s.memory (entryAddress t entry) t.wordSize)
  toc : m.gpr .r2 = t.choose (s.gpr .r2)
    (Memory.load order s.memory (entryAddress t entry + 8#_) t.wordSize)
  memory : m.memory = t.choose s.memory (saved order s)
  gprs : ∀ r, r ≠ .r0 → r ≠ .r12 → r ≠ .r2 → m.gpr r = s.gpr r
  fprs : m.fpr = s.fpr
  cr : m.cr = s.cr
  lr : m.lr = s.lr

theorem exec_prepare (order : ByteOrder) (s : Machine t)
    (apart : t = .ppc64 → (descriptor t entry).Apart (tocSave s)) :
    ∃ m, execAll? (Machine.exec? order) (prepareCode t t.callRegister)
        (s.setGpr t.callRegister (entryAddress t entry)) = some m ∧ Calling order entry s m := by
  cases t with
  | ppc32 => exact ⟨_, rfl, rfl, rfl, rfl, fun r other _ _ => if_neg other, rfl, rfl, rfl⟩
  | ppc64 =>
    obtain ⟨function, toc⟩ := @loaded_descriptor order .r12 (by decide) (by decide)
      (s.setGpr .r12 (entryAddress .ppc64 entry)) (apart rfl)
    refine ⟨_, exec_switchThrough _, function, toc, rfl, fun r first second third => ?_, rfl, rfl,
      rfl⟩
    show (if r = .r0 then _ else if r = .r2 then _ else if r = .r12 then _ else s.gpr r) = _
    rw [if_neg first, if_neg third, if_neg second]

/-- Behind the call r2 is loaded from the stack, where it went there. -/
theorem exec_resume {v : BitVec (width t)} (s : Machine t)
    (kept : t = .ppc64 → Memory.load order s.memory (tocSave s).address t.wordSize = v) :
    execAll? (Machine.exec? order) (resumeCode t) s =
      some (s.setGpr .r2 (t.choose (s.gpr .r2) v)) := by
  cases t with
  | ppc32 => exact congrArg some (setGpr_self s .r2).symm
  | ppc64 =>
    have loaded := exec_loadWord order s .r2 (stack 40)
    rw [Machine.load, address_stack s (by decide)] at loaded
    rw [resumeCode, Target.choose, execAll_cons loaded]
    exact congrArg (fun v => some (s.setGpr .r2 v)) (kept rfl)

theorem exec_callCount (s : Processor t) :
    s.exec? order callCount = some { s with lr := s.pc + 4, pc := s.ctr &&& ~~~3 } :=
  rfl

/-- How the processor `s` runs the words of a call, with the machine `m` at the call itself. -/
structure Runs (order : ByteOrder) (start : BitVec (width t)) (before : List Word) (call : Word)
    (after : List Word) (entry : Int64) (s : Processor t) (m : Machine t) : Prop where
  calling : Calling order entry s.toMachine m
  comes : Reaches order start (before ++ call :: after) s
    { s with toMachine := m, pc := place start before.length }
  leaves : step? order start (before ++ call :: after)
      { s with toMachine := m, pc := place start before.length } =
    some { s with
      toMachine := { m with lr := place start (before.length + 1) }
      pc := m.ctr &&& ~~~3 }
  /-- Where the function returns and has kept the stack, r2 is as before the call. -/
  returns : ∀ s' : Processor t, s'.pc = place start (before.length + 1) →
    (t = .ppc64 → s'.gpr .sp = m.gpr .sp ∧
      Memory.load order s'.memory (tocSave m).address t.wordSize =
        Memory.load order m.memory (tocSave m).address t.wordSize) →
    Reaches order start (before ++ call :: after) s' { s' with
      toMachine := s'.setGpr .r2 (t.choose (s'.gpr .r2) (s.gpr .r2))
      pc := place start (before ++ call :: after).length }

/-- At the call, r2 lies on the stack. -/
theorem Calling.saved_toc {s m : Machine .ppc64} (calling : Calling order entry s m) :
    Memory.load order m.memory (tocSave m).address 8 = s.gpr .r2 := by
  have pointer : m.gpr .sp = s.gpr .sp := calling.gprs .sp (by decide) (by decide) (by decide)
  have memory : m.memory = saved order s := calling.memory
  rw [memory, tocSave, pointer]
  exact Memory.load_store (by decide)

theorem runs_call {start : BitVec (width t)} {is : List Instr} {before after : List Word}
    {call : Word} (loads : ∀ s : Machine t, execAll? (Machine.exec? order) is s =
      some (s.setGpr t.callRegister (entryAddress t entry)))
    (first : List.Forall₂ Holds before (is ++ prepareCode t t.callRegister))
    (second : List.Forall₂ Holds (call :: after) (callCount :: resumeCode t))
    (small : 4 * (before ++ call :: after).length ≤ 2 ^ width t) (s : Processor t)
    (here : s.pc = start) (apart : t = .ppc64 → (descriptor t entry).Apart (tocSave s.toMachine)) :
    ∃ m, Runs order start before call after entry s m := by
  have held := List.rel_append first second
  obtain ⟨m, ran, calling⟩ := exec_prepare order s.toMachine apart
  refine ⟨m, calling, ?_, ?_, fun s' back kept => ?_⟩
  · have computed : execAll? (Core.exec? order) (is ++ prepareCode t t.callRegister) s.toCore =
        some { s.toCore with toMachine := m } :=
      Core.execAll_machine (by rw [execAll_append (loads _), ran])
    have whole : List.Forall₂ Holds (before ++ call :: after)
        ([] ++ ((is ++ prepareCode t t.callRegister) ++ callCount :: resumeCode t)) := held
    have reached := reaches_block small whole (here.trans (place_zero start).symm) computed
    rwa [List.length_nil, Nat.zero_add, ← first.length_eq] at reached
  · have found : (is ++ prepareCode t t.callRegister ++ callCount :: resumeCode t)[before.length]? =
        some callCount := by
      rw [first.length_eq, List.getElem?_append_right (Nat.le_refl _), Nat.sub_self]
      rfl
    rw [step_held held small rfl found, exec_callCount, place_succ]
  · have restored : execAll? (Machine.exec? order) (resumeCode t) s'.toMachine =
        some (s'.setGpr .r2 (t.choose (s'.gpr .r2) (s.gpr .r2))) := by
      refine exec_resume s'.toMachine fun wide => ?_
      subst wide
      obtain ⟨pointer, word⟩ := kept rfl
      have place : (tocSave s'.toMachine).address = (tocSave m).address := by
        rw [tocSave, pointer, tocSave]
      rw [place]
      exact word.trans calling.saved_toc
    have behind : List.Forall₂ Holds (before ++ call :: after)
        ((is ++ prepareCode t t.callRegister ++ [callCount]) ++ (resumeCode t ++ [])) := by
      simpa using held
    have reached := reaches_block small behind (s := s')
      (by rw [back, List.length_append, first.length_eq]; rfl) (Core.execAll_machine restored)
    have total : (is ++ prepareCode t t.callRegister ++ [callCount]).length + (resumeCode t).length =
        (before ++ call :: after).length := by
      rw [held.length_eq]
      simp only [List.length_append, List.length_cons, List.length_nil]
      omega
    rw [total] at reached
    exact reached

end Running

/-- A call of a function at a multiple of four is written as words that reach the function, and
come back from it with r2 as it was. No other register is changed but r0, r12, the count and the
link register. -/
theorem call_reaches_callee {t : Target} {entry : Int64} (aligned : entry.toInt % 4 = 0) :
    ∃ before call after, Holds call callCount ∧
      (before ++ call :: after).length ≤ t.choose 4 11 ∧
      (∀ a bytes, Written a.segment bytes → a.assembler.target = t →
        Room a.segment (bytes.length + 4 * (before ++ call :: after).length) →
        ∃ b, Asm.call entry a = .ok () b ∧ Wrote a b bytes (before ++ call :: after)) ∧
      ∀ order start (s : Processor t), s.pc = start →
        (t = .ppc64 → (descriptor t entry).Apart (tocSave s.toMachine)) →
        ∃ m, Runs order start before call after entry s m := by
  have valid : t.callRegister.isValid = true := by cases t <;> rfl
  obtain ⟨is, writes, fits, short, runs⟩ := computes_loadConst (t := t) valid entry
  have fits : ∀ i ∈ is ++ prepareCode t t.callRegister, OperandsFit i :=
    fun i member => (List.mem_append.mp member).elim (fits i) (fits_prepare valid i)
  obtain ⟨before, first⟩ := exists_encodes fits
  obtain ⟨rest, second⟩ := exists_encodes (fits_resume (t := t))
  have encoded : List.Forall₂ Encodes (before ++ rest)
      (is ++ (prepareCode t t.callRegister ++ callCount :: resumeCode t)) := by
    rw [← List.append_assoc]
    exact List.rel_append first second
  have held := holds_of_encodes first fits
  have held' := holds_of_encodes second fits_resume
  obtain ⟨call, after, rfl⟩ : ∃ call after, rest = call :: after := by
    cases second
    exact ⟨_, _, rfl⟩
  have total : (before ++ call :: after).length ≤ t.choose 4 11 := by
    rw [encoded.length_eq]
    cases t <;> simp [prepareCode, switchCode, resumeCode, Target.choose] at short ⊢ <;> omega
  have small : 4 * (before ++ call :: after).length ≤ 2 ^ width t :=
    Nat.le_trans (Nat.mul_le_mul_left 4 total) (by cases t <;> decide)
  refine ⟨before, call, after, (List.forall₂_cons.mp held').1, total, ?_, ?_⟩
  · intro a bytes written target room
    exact (writes_call aligned writes).wrote encoded written target room
  · intro order start s here apart
    exact runs_call (runs order) held held' small s here apart

/-- A processor at rest, with its stack at the bottom of memory. -/
def resting : Processor .ppc64 :=
  ⟨⟨⟨fun _ => 0, fun _ => 0, 0, 0, 0, fun _ => 0⟩, false, false⟩, 0x1000⟩

/-- It can call a function by a descriptor far away, of whose address every half counts. -/
theorem call_reaches_callee_distant : (0x123456789ABCDEF0 : Int64).toInt % 4 = 0 ∧
    (descriptor .ppc64 0x123456789ABCDEF0).Apart (tocSave resting.toMachine) ∧
    ∃ before call after b, Holds call callCount ∧
      Asm.call 0x123456789ABCDEF0 (.fresh .ppc64 .big) = .ok () b ∧
      Wrote (.fresh .ppc64 .big) b [] (before ++ call :: after) ∧
      ∀ order, ∃ m, Runs order 0x1000 before call after 0x123456789ABCDEF0 resting m := by
  have aligned : (0x123456789ABCDEF0 : Int64).toInt % 4 = 0 := by decide
  have apart : (descriptor .ppc64 0x123456789ABCDEF0).Apart (tocSave resting.toMachine) := by
    unfold Place.Apart
    decide
  obtain ⟨before, call, after, called, short, accepts, runs⟩ :=
    call_reaches_callee (t := .ppc64) aligned
  have small : 4 * (before ++ call :: after).length ≤ largest :=
    Nat.le_trans (Nat.mul_le_mul_left 4 short) (by decide)
  obtain ⟨b, ran, wrote⟩ := accepts (.fresh .ppc64 .big) [] (fresh_code .ppc64 .big).written rfl
    (fresh_room .ppc64 .big (by rwa [List.length_nil, Nat.zero_add]))
  exact ⟨aligned, apart, before, call, after, b, called, ran, wrote,
    fun order => runs order 0x1000 resting rfl fun _ => apart⟩

end PowerAsm.Proofs.Calls
