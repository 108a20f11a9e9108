import PowerAsm.Proofs.Calls

/-! Calls of functions that a register points to. On 64 bits the descriptor is read in two loads,
of which the first one replaces r2, and r0 is no base for an address. A descriptor is found through
any other register, and through these two it is not. -/
namespace PowerAsm.Proofs.RegisterCalls
open Storage Emission FrameCode FrameExecution Calls

variable {t : Target}

/-- The descriptor that a register points to. -/
def pointed (fn : Gpr) (s : Machine t) : Place (width t) := ⟨s.gpr fn, 2 * t.wordSize⟩

/-- The machine that is about to make a call. -/
def prepared (order : ByteOrder) (fn : Gpr) (s : Machine t) : Machine t :=
  t.choose { s with ctr := s.gpr fn } (switchedThrough order fn s)

/-- The machine `s` has become `m`, which is about to call what `fn` pointed to. -/
structure Ready (order : ByteOrder) (fn : Gpr) (s m : Machine t) : Prop where
  ctr : m.ctr = t.choose (s.gpr fn) (Memory.load order s.memory (s.gpr fn) t.wordSize)
  toc : m.gpr .r2 = t.choose (s.gpr .r2) (Memory.load order s.memory (s.gpr fn + 8#_) t.wordSize)

/-- The registers that a descriptor is not found through. -/
def Unusable (t : Target) (fn : Gpr) : Prop := t = .ppc64 ∧ (fn = .r0 ∨ fn = .r2)

section Running
variable {order : ByteOrder} {fn : Gpr}

theorem exec_prepareCode (s : Machine t) :
    execAll? (Machine.exec? order) (prepareCode t fn) s = some (prepared order fn s) := by
  cases t with
  | ppc32 => rfl
  | ppc64 => exact exec_switchThrough s

/-- Through any other register the descriptor is found, unless r2 is put over it. -/
theorem ready_of_usable (usable : ¬Unusable t fn) {s : Machine t}
    (apart : t = .ppc64 → (pointed fn s).Apart (tocSave s)) :
    Ready order fn s (prepared order fn s) := by
  cases t with
  | ppc32 => exact ⟨rfl, rfl⟩
  | ppc64 =>
    obtain ⟨used, other⟩ := not_or.mp fun either => usable ⟨rfl, either⟩
    obtain ⟨function, toc⟩ := loaded_descriptor used other (apart rfl)
    exact ⟨function, toc⟩

/-- Every register points to the same descriptor, of a function at another address than zero. -/
def pointing : Machine .ppc64 :=
  ⟨fun _ => 0x1000, fun _ => 0, 0, 0, 0, fun a => if a = 0x1000 then 1 else 0⟩

theorem pointing_apart (fn : Gpr) : (pointed fn pointing).Apart (tocSave pointing) := by
  show Place.Apart ⟨0x1000#64, 16⟩ ⟨0x1000#64 + 40#64, 8⟩
  unfold Place.Apart
  decide

/-- Neither the zero that r0 stands for nor what r2 is replaced by leads to the function. -/
theorem pointing_misses (either : fn = .r0 ∨ fn = .r2) :
    (prepared .big fn pointing).ctr ≠ Memory.load .big pointing.memory (pointing.gpr fn) 8 := by
  have function : Memory.load .big pointing.memory 0x1000#64 8 = 0x0100000000000000#64 := rfl
  have missed : (prepared .big fn pointing).ctr = 0#64 := by
    obtain rfl | rfl := either <;> rfl
  have other : 0#64 ≠ 0x0100000000000000#64 := by decide
  rw [missed]
  exact fun same => other (same.trans function)

/-- It is on these two registers alone that readiness depends. -/
theorem ready_iff_usable : (∀ order (s : Machine t),
    (t = .ppc64 → (pointed fn s).Apart (tocSave s)) → Ready order fn s (prepared order fn s)) ↔
      ¬Unusable t fn := by
  constructor
  · rintro ready ⟨rfl, either⟩
    exact pointing_misses either (ready .big pointing fun _ => pointing_apart fn).ctr
  · intro usable order s apart
    exact ready_of_usable usable apart

end Running

/-- A call through a register is written as the word `call` between others. -/
structure WrittenAs (t : Target) (fn : Gpr) (before : List Word) (call : Word)
    (after : List Word) : Prop where
  calls : Holds call callCount
  length : (before ++ call :: after).length = t.choose 2 6
  written : ∀ a bytes, Written a.segment bytes → a.assembler.target = t →
    Room a.segment (bytes.length + 4 * (before ++ call :: after).length) →
    ∃ b, Asm.callRegister fn a = .ok () b ∧ Wrote a b bytes (before ++ call :: after)

theorem exists_writtenAs {fn : Gpr} (valid : fn.isValid = true) :
    ∃ before call after, WrittenAs t fn before call after ∧
      ∀ order (s : Machine t), Machine.run? order before s = some (prepared order fn s) := by
  obtain ⟨before, first⟩ := exists_encodes (fits_prepare (t := t) valid)
  obtain ⟨rest, second⟩ := exists_encodes (fits_resume (t := t))
  have encoded := List.rel_append first second
  have held := holds_of_encodes first (fits_prepare valid)
  have held' := holds_of_encodes second fits_resume
  obtain ⟨call, after, rfl⟩ : ∃ call after, rest = call :: after := by
    cases second
    exact ⟨_, _, rfl⟩
  refine ⟨before, call, after, ⟨(List.forall₂_cons.mp held').1, ?_, ?_⟩, fun order s => ?_⟩
  · rw [encoded.length_eq]
    cases t <;> rfl
  · intro a bytes written target room
    exact (writes_callRegister fn).wrote encoded written target room
  · rw [run_eq_execAll held s, exec_prepareCode]

/-- An assembler that has written nothing accepts the call. -/
theorem WrittenAs.fresh {fn : Gpr} {before after : List Word} {call : Word}
    (words : WrittenAs t fn before call after) (order : ByteOrder) :
    ∃ b, Asm.callRegister fn (.fresh t order) = .ok () b ∧
      Wrote (.fresh t order) b [] (before ++ call :: after) := by
  have small : 4 * (before ++ call :: after).length ≤ largest := by
    rw [words.length]
    cases t <;> decide
  have room := fresh_room t order small
  exact words.written _ [] (fresh_code t order).written rfl
    (by rwa [List.length_nil, Nat.zero_add])

/-- A call through any register is written as words of which those before the call leave the
machine that is described. In every machine that puts r2 apart from the descriptor, the function
that the register pointed to is then ready, unless on 64 bits the register is r0 or r2. -/
theorem register_call_ready_iff {t : Target} {fn : Gpr} (valid : fn.isValid = true) :
    ∃ before call after, WrittenAs t fn before call after ∧
      (∀ order (s : Machine t), Machine.run? order before s = some (prepared order fn s)) ∧
      ((∀ order (s : Machine t), (t = .ppc64 → (pointed fn s).Apart (tocSave s)) →
        Ready order fn s (prepared order fn s)) ↔ ¬Unusable t fn) := by
  obtain ⟨before, call, after, words, runs⟩ := exists_writtenAs (t := t) valid
  exact ⟨before, call, after, words, runs, ready_iff_usable⟩

/-- The stack pointer itself may point to a descriptor, since r2 is put above it. -/
theorem register_call_ready_stack : Gpr.sp.isValid = true ∧ ¬Unusable .ppc64 .sp ∧
    (pointed .sp pointing).Apart (tocSave pointing) ∧
    ∃ before call after b, Holds call callCount ∧
      Asm.callRegister .sp (.fresh .ppc64 .big) = .ok () b ∧
      Wrote (.fresh .ppc64 .big) b [] (before ++ call :: after) ∧
      ∃ m, Machine.run? .big before pointing = some m ∧ Ready .big .sp pointing m := by
  have usable : ¬Unusable .ppc64 .sp := fun unusable => absurd unusable.2 (by decide)
  have valid : Gpr.sp.isValid = true := rfl
  obtain ⟨before, call, after, words, runs, ready⟩ := register_call_ready_iff (t := .ppc64) valid
  obtain ⟨b, ran, wrote⟩ := words.fresh .big
  exact ⟨valid, usable, pointing_apart .sp, before, call, after, b, words.calls, ran, wrote, _,
    runs .big pointing, ready.mpr usable .big pointing fun _ => pointing_apart .sp⟩

/-- A call through the register is accepted, and leads elsewhere than to the function. -/
def Misses (fn : Gpr) : Prop :=
  ∃ before call after b, Holds call callCount ∧
    Asm.callRegister fn (.fresh .ppc64 .big) = .ok () b ∧
    Wrote (.fresh .ppc64 .big) b [] (before ++ call :: after) ∧
    (pointed fn pointing).Apart (tocSave pointing) ∧
    ∃ m, Machine.run? .big before pointing = some m ∧
      m.ctr ≠ Memory.load .big pointing.memory (pointing.gpr fn) 8

theorem misses_of_unusable {fn : Gpr} (either : fn = .r0 ∨ fn = .r2) : Misses fn := by
  have valid : fn.isValid = true := by obtain rfl | rfl := either <;> rfl
  obtain ⟨before, call, after, words, runs⟩ := exists_writtenAs (t := .ppc64) valid
  obtain ⟨b, ran, wrote⟩ := words.fresh .big
  exact ⟨before, call, after, b, words.calls, ran, wrote, pointing_apart fn, _, runs .big pointing,
    pointing_misses either⟩

theorem register_call_misses : Misses .r0 ∧ Misses .r2 :=
  ⟨misses_of_unusable (.inl rfl), misses_of_unusable (.inr rfl)⟩

end PowerAsm.Proofs.RegisterCalls
