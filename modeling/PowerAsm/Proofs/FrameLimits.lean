import PowerAsm.Proofs.FrameRegions
import PowerAsm.Proofs.FrameSymmetry

/-! Frames that are too large for their instructions. A prolog that was accepted has moved the
stack pointer by at most 32768 bytes. Of the frames that this lets through, those are written
as they were laid out whose size, and whose distance to the return address where the code goes
by it, are below 32768. The others are not refused: their words hold other offsets. -/
namespace PowerAsm.Proofs.FrameLimits
open PowerAsm.Frame Emission FrameLayout FrameCode FrameSaves FrameExecution FrameSymmetry
open FrameRegions Operations Storage Machine Integers OperandFields Layouts Table

/-- An instruction can name all offsets of the frame. The one of the return address is counted
from the stack pointer of the frame only where volatile registers are preserved. -/
def Nameable (f : Frame) : Prop :=
  f.size < 2 ^ 15 ∧ (f.preserveVolatiles = true → f.size + f.target.lrSaveOffset < 2 ^ 15)

instance (f : Frame) : Decidable (Nameable f) := inferInstanceAs (Decidable (_ ∧ (_ → _)))

theorem Nameable.spare {f : Frame} (nameable : Nameable f) : ∃ spare, f.size + spare ≤ 32767 ∧
    (f.preserveVolatiles = true → f.target.lrSaveOffset ≤ spare) := by
  obtain ⟨size, link⟩ := nameable
  by_cases volatiles : f.preserveVolatiles = true
  · exact ⟨f.target.lrSaveOffset, by have := link volatiles; omega, fun _ => Nat.le_refl _⟩
  · exact ⟨0, by omega, fun yes => absurd yes volatiles⟩

theorem exists_of_mem_right {α β : Type} {R : α → β → Prop} {as : List α} {bs : List β}
    (all : List.Forall₂ R as bs) {b : β} (member : b ∈ bs) : ∃ a, R a b := by
  induction all with
  | nil => cases member
  | cons first rest ih =>
    rcases List.mem_cons.mp member with rfl | later
    · exact ⟨_, first⟩
    · exact ih later

theorem read_of_holds {w : Word} {op : Opcode} {args : Args op.operands}
    (held : Holds w ⟨op, args⟩) : args = op.read w 0 := by
  obtain ⟨found, -, same⟩ := Option.map_eq_some_iff.mp held
  cases same
  rfl

theorem addi_lt {w : Word} {rt ra : Gpr} {si : Int64} (held : Holds w ⟨.addi, (rt, ra, si, ())⟩) :
    si.toInt < 2 ^ 15 := by
  have same : si = w.signed 0 16 := congrArg (fun args => args.2.2.1) (read_of_holds held)
  rw [same]
  exact (signed_range w).2

theorem loadWord_lt {t : Target} {w : Word} {r : Gpr} {a : Address}
    (held : Holds w (loadWord t r a)) : a.displacement.toInt < 2 ^ 15 := by
  cases t with
  | ppc32 =>
    have read := read_of_holds (show Holds w ⟨.lwz, (r, a, ())⟩ from held)
    have same : a.displacement = w.signed 0 16 := congrArg (fun args => args.2.1.displacement) read
    rw [same]
    exact (signed_range w).2
  | ppc64 =>
    have read := read_of_holds (show Holds w ⟨.ld, (r, a, ())⟩ from held)
    have same : a.displacement = Layout.displacement w 14 :=
      congrArg (fun args => args.2.1.displacement) read
    rw [same]
    exact (displacement_range w).2

/-- No word moves the stack pointer down by more than 32768 bytes. -/
theorem updateWord_ge {t : Target} {w : Word} {r : Gpr} {a : Address}
    (encoded : Encodes w (updateWord t r a)) : -2 ^ 15 ≤ a.displacement.toInt := by
  cases t with
  | ppc32 =>
    have agree := ((encodeAs_eq_ok_iff _ Opcode.stwu (r, a, ()) 0 w).mp encoded).2.2
    exact (sameHalf_range (signed_range w).1 (signed_range w).2 agree.2.1.2).1
  | ppc64 =>
    have agree := ((encodeAs_eq_ok_iff _ Opcode.stdu (r, a, ()) 0 w).mp encoded).2.2
    exact (sameHalf_range (displacement_range w).1 (displacement_range w).2 agree.2.1.2).1

section Accepted
variable {target : Target} {gs : List Grant} {f : Frame} {prolog epilog : List Word}

/-- Every word is decoded to the instruction that the frame has asked for, with the operands that
it has computed. -/
def Exact (f : Frame) (prolog epilog : List Word) : Prop :=
  List.Forall₂ Holds prolog (prologCode f) ∧ List.Forall₂ Holds epilog (epilogCode f)

theorem exact_of_nameable (built : Built target gs f)
    (first : List.Forall₂ Encodes prolog (prologCode f))
    (last : List.Forall₂ Encodes epilog (epilogCode f)) (nameable : Nameable f) :
    Exact f prolog epilog := by
  obtain ⟨spare, small, link⟩ := nameable.spare
  exact ⟨holds_of_encodes first (fits_prolog small link built),
    holds_of_encodes last (fits_epilog small link built)⟩

section Sizes
variable (range : f.size + 16 < 2 ^ 63)
include range

/-- The stack pointer is moved by one instruction. -/
theorem size_le_of_accepted (first : List.Forall₂ Encodes prolog (prologCode f)) :
    f.size ≤ 2 ^ 15 := by
  have member : updateWord f.target .sp (below f) ∈ prologCode f := by
    apply List.mem_append_left
    unfold allocateCode
    split <;> simp
  obtain ⟨w, encoded⟩ := exists_of_mem_right first member
  have low := updateWord_ge encoded
  have down : (below f).displacement = -f.sizeOffset := rfl
  have size : f.sizeOffset.toInt = f.size := Int64.toInt_ofNat_of_lt (by omega)
  rw [down, Int64.toInt_neg, size, Int.bmod_eq_of_le (by omega) (by omega)] at low
  omega

/-- The instruction that frees the frame holds its size, and the one that loads the return
address the distance to it. -/
theorem nameable_of_exact (exact : Exact f prolog epilog) : Nameable f := by
  have freed : ∀ i ∈ freeCode f, ∃ w, Holds w i := by
    intro i member
    apply exists_of_mem_right exact.2
    exact List.mem_append_right _ (List.mem_append_right _ member)
  constructor
  · have member : ⟨.addi, (.sp, .sp, f.sizeOffset, ())⟩ ∈ freeCode f := by
      unfold freeCode
      split <;> simp
    obtain ⟨w, held⟩ := freed _ member
    have size : f.sizeOffset.toInt = f.size := Int64.toInt_ofNat_of_lt (by omega)
    have high := addi_lt held
    omega
  · intro volatiles
    have member : loadWord f.target .r0 (stack (lrStart f)) ∈ freeCode f := by
      rw [freeCode, if_pos volatiles]
      simp
    obtain ⟨w, held⟩ := freed _ member
    have near := lrSaveOffset_le f.target
    have sum : lrStart f = f.size + f.target.lrSaveOffset := rfl
    have place : (stack (lrStart f)).displacement.toInt = lrStart f :=
      Int64.toInt_ofNat_of_lt (by omega)
    have high := loadWord_lt held
    omega

end Sizes

/-- Prolog and epilog run from the machine `e` on, with code in between that respects the frame:
the return address lies where the caller expects it, and what the frame has handed out comes
back, the stack pointer first of all. -/
def Recovers (order : ByteOrder) (gs : List Grant) (f : Frame) (prolog epilog : List Word)
    (e : Machine f.target) : Prop :=
  ∃ entered, run? order prolog e = some entered ∧ Entered order f e entered ∧
    Memory.load order entered.memory (e.gpr .sp + BitVec.ofNat _ f.target.lrSaveOffset)
      f.target.wordSize = e.lr ∧
    ∀ s, Respects f entered s → ∃ final, run? order epilog s = some final ∧ Returned gs e s final

theorem recovers_of_exact (built : Built target gs f) (nameable : Nameable f)
    (exact : Exact f prolog epilog) (order : ByteOrder) (e : Machine f.target) :
    Recovers order gs f prolog epilog e := by
  obtain ⟨spare, small, -⟩ := nameable.spare
  have entered : execAll? (exec? order) (prologCode f) e = _ := exec_prolog small built
  have pushed : Entered order f e _ := entered_prolog small e
  have below : Held order f e (Memory.storeAll order (lowered f e) e.memory (kept f e))
      (lowered f e) := held_kept small fun _ _ => rfl
  refine ⟨_, (run_eq_execAll exact.1 e).trans entered, pushed, ?_, fun s respects => ?_⟩
  · rw [← link_place]
    exact below.lr
  · obtain ⟨pointer, held⟩ := held_respected small respects
    have left := exec_epilog small held built pointer
    exact ⟨_, (run_eq_execAll exact.2 s).trans left, returned_epilog built e s⟩

end Accepted

/-- From `s` to `s'` the words were written behind the bytes of the segment. -/
def Appended (s s' : Segment) (ws : List Word) : Prop :=
  ∃ bytes, Written s bytes ∧ Written s' (bytes ++ ws.flatMap s.order.bytes)

theorem prologCode_ne_nil (f : Frame) : prologCode f ≠ [] := by
  rw [prologCode, allocateCode]
  split <;> simp

theorem epilogCode_ne_nil (f : Frame) : epilogCode f ≠ [] := by
  rw [epilogCode, freeCode]
  split <;> simp

theorem appended_of_writes {t : Target} {action : Asm Unit} {is : List Instr} {a b : Assembly}
    (writes : Writes t action is) (something : is ≠ []) (bounded : a.segment.storage.size < 2 ^ 63)
    (target : a.assembler.target = t) (ran : action a = .ok () b) :
    ∃ ws, List.Forall₂ Encodes ws is ∧ Appended a.segment b.segment ws := by
  rcases writes.start a b bounded target ran with ⟨nothing, -⟩ | ⟨bytes, written⟩
  · exact absurd nothing something
  · obtain ⟨ws, encoded, wrote⟩ := writes.done a b bytes written target ran
    exact ⟨ws, encoded, bytes, written, wrote.written⟩

theorem appended_prolog {f : Frame} {a b : Assembly} {index : Nat}
    (bounded : a.segment.storage.size < 2 ^ 63) (entered : writeProlog f a = .ok index b) :
    ∃ prolog, List.Forall₂ Encodes prolog (prologCode f) ∧ Appended a.segment b.segment prolog := by
  obtain ⟨allowed, c, o, ran, -, -, same⟩ := writeProlog_ok entered
  have target : a.assembler.target = f.target := by
    rw [checkProlog] at allowed
    split at allowed
    · cases allowed
    · split at allowed
      · cases allowed
      · exact not_not.mp ‹_›
  have appended := appended_of_writes (writes_prolog f) (prologCode_ne_nil f) bounded target ran
  rw [same]
  exact appended

theorem appended_epilog {o : OpenFrame} {a b : Assembly} {index : Nat}
    (bounded : a.segment.storage.size < 2 ^ 63) (same : a.assembler.target = o.frame.target)
    (opened : a.assembler.frames[index]? = some o) (left : writeEpilog index a = .ok () b) :
    ∃ epilog, List.Forall₂ Encodes epilog (epilogCode o.frame) ∧
      Appended a.segment b.segment epilog := by
  rw [writeEpilog, bind_apply, assembler_apply] at left
  simp only [opened] at left
  obtain ⟨done, c, ran, counted⟩ := bind_ok left
  have appended := appended_of_writes (writes_epilog o.frame) (epilogCode_ne_nil _) bounded same ran
  cases counted
  exact appended

/-- Of the frames that are accepted, an instruction can name the offsets of exactly those whose
words hold what was computed. Their code brings the caller back. Whatever was done in between,
the epilog is that of the frame. -/
theorem accepted_exact_iff_nameable {target : Target} {requests : List Request} {gs : List Grant}
    {f : Frame} (granted : grantAll (.empty target) requests = .ok (gs, f))
    {a b c d : Assembly} {first index : Nat} {o : OpenFrame}
    (boundedA : a.segment.storage.size < 2 ^ 63) (entered : writeProlog f a = .ok first b)
    (boundedC : c.segment.storage.size < 2 ^ 63) (same : c.assembler.target = target)
    (opened : c.assembler.frames[index]? = some o) (own : o.frame = f)
    (left : writeEpilog index c = .ok () d) :
    ∃ prolog epilog, Appended a.segment b.segment prolog ∧ Appended c.segment d.segment epilog ∧
      (f.size + 16 < 2 ^ 63 → f.size ≤ 2 ^ 15 ∧ (Exact f prolog epilog ↔ Nameable f)) ∧
      (Nameable f → Exact f prolog epilog ∧ ∀ order e, Recovers order gs f prolog epilog e) := by
  have built : Built target gs f := (built_empty target).grantAll granted
  subst own
  obtain ⟨prolog, encodedProlog, appendedProlog⟩ := appended_prolog boundedA entered
  obtain ⟨epilog, encodedEpilog, appendedEpilog⟩ :=
    appended_epilog boundedC (same.trans built.target.symm) opened left
  have exact := exact_of_nameable built encodedProlog encodedEpilog
  refine ⟨prolog, epilog, appendedProlog, appendedEpilog, fun range => ⟨?_, ?_, exact⟩, ?_⟩
  · exact size_le_of_accepted range encodedProlog
  · exact nameable_of_exact range
  · intro nameable
    exact ⟨exact nameable, recovers_of_exact built nameable (exact nameable)⟩

theorem grantAll_localSlots (n : Nat) {f : Frame} (unfrozen : f.frozen = false) :
    ∃ gs, grantAll f (List.replicate (n + 1) .localSlot) =
      .ok (gs, { f with params := f.paramWords, locals := f.locals + (n + 1) }) := by
  induction n generalizing f with
  | zero =>
    refine ⟨[.slot (f.slot (f.target.linkAreaWords + f.paramWords + f.locals))], ?_⟩
    simp only [List.replicate, grantAll, grant, localSlot, checkOpen, unfrozen]
    rfl
  | succ n ih =>
    obtain ⟨gs, rest⟩ :=
      ih (f := { f with params := f.paramWords, locals := f.locals + 1 }) unfrozen
    have once : max f.paramWords f.target.minParamWords = f.paramWords :=
      Nat.max_eq_left (Nat.le_max_right _ _)
    refine ⟨.slot (f.slot (f.target.linkAreaWords + f.paramWords + f.locals)) :: gs, ?_⟩
    have first : grant f .localSlot =
        .ok (.slot (f.slot (f.target.linkAreaWords + f.paramWords + f.locals)),
          { f with params := f.paramWords, locals := f.locals + 1 }) := by
      simp only [grant, localSlot, checkOpen, unfrozen]
      rfl
    rw [List.replicate_succ, grantAll, first]
    dsimp only [bind, Except.bind]
    rw [rest]
    simp only [Nat.add_assoc, Nat.add_comm 1, paramWords] at once ⊢
    rw [once]
    rfl

section Accepting
variable {f : Frame} {prolog epilog : List Word} {a : Assembly} {bytes : List UInt8}

/-- A prolog is accepted wherever its instructions have words and there is room for them. -/
theorem writeProlog_accepts (allowed : f.checkProlog a.assembler.target = .ok ())
    (encoded : List.Forall₂ Encodes prolog (prologCode f)) (written : Written a.segment bytes)
    (same : a.assembler.target = f.target)
    (room : Room a.segment (bytes.length + 4 * prolog.length)) :
    ∃ b c o, writeProlog f a = .ok b.assembler.frames.size c ∧ Wrote a b bytes prolog ∧
      c = ⟨b.segment, { b.assembler with frames := b.assembler.frames.push o }⟩ ∧ o.frame = f := by
  obtain ⟨b, ran, wrote⟩ := (writes_prolog f).wrote encoded written same room
  refine ⟨b, _, ⟨f, a.assembler.buffer.length a.segment, 0⟩, ?_, wrote, rfl, rfl⟩
  simp only [writeProlog, Asm.target, enter, if_neg (not_not.mpr (finish_eq f)), bind_apply,
    assembler_apply, pure_apply, allowed, Except.mapError, ofExcept_ok, offset_apply, ran,
    modifyAssembler_apply]

theorem writeEpilog_accepts {o : OpenFrame} {index : Nat}
    (opened : a.assembler.frames[index]? = some o)
    (encoded : List.Forall₂ Encodes epilog (epilogCode o.frame))
    (written : Written a.segment bytes) (same : a.assembler.target = o.frame.target)
    (room : Room a.segment (bytes.length + 4 * epilog.length)) :
    ∃ b, writeEpilog index a = .ok () b ∧
      Written b.segment (bytes ++ epilog.flatMap a.segment.order.bytes) := by
  obtain ⟨b, ran, wrote⟩ := (writes_epilog o.frame).wrote encoded written same room
  obtain ⟨c, left, code⟩ := leave_wrote rfl ran wrote
  refine ⟨c, ?_, code⟩
  rw [writeEpilog, bind_apply, assembler_apply]
  simp only [opened]
  exact left

/-- A fresh assembler accepts every frame whose code has words. -/
theorem fresh_accepts (unfrozen : f.frozen = false)
    (first : List.Forall₂ Encodes prolog (prologCode f))
    (last : List.Forall₂ Encodes epilog (epilogCode f))
    (short : 4 * prolog.length + 4 * epilog.length ≤ largest) (order : ByteOrder) :
    ∃ a b o, writeProlog f (.fresh f.target order) = .ok 0 a ∧
      a.assembler.frames[0]? = some o ∧ o.frame = f ∧ a.assembler.target = f.target ∧
      Written a.segment (prolog.flatMap order.bytes) ∧ writeEpilog 0 a = .ok () b ∧
      Written b.segment ((prolog ++ epilog).flatMap order.bytes) := by
  have written : Written (Assembly.fresh f.target order).segment [] := ⟨rfl, rfl, Nat.two_pow_pos _⟩
  have room : Room (Assembly.fresh f.target order).segment
      (4 * prolog.length + 4 * epilog.length) :=
    Nat.lt_of_le_of_lt (grownCapacity_le (.inl rfl) (Nat.zero_le _) short) (by decide)
  have allowed : f.checkProlog (Assembly.fresh f.target order).assembler.target = .ok () := by
    rw [checkProlog, unfrozen, if_neg Bool.false_ne_true]
    exact if_neg (not_not.mpr rfl)
  obtain ⟨b, a, o, entered, wrote, same, own⟩ := writeProlog_accepts allowed first written rfl
    (room.mono (by rw [List.length_nil]; omega))
  have size : b.assembler.frames.size = 0 := by
    obtain ⟨log, fresh⟩ := wrote.assembler
    rw [fresh]
    rfl
  have code : Written a.segment (prolog.flatMap order.bytes) := by
    rw [same]
    exact wrote.written
  have target : a.assembler.target = f.target := by
    rw [same]
    exact wrote.target
  have opened : a.assembler.frames[0]? = some o := by
    rw [same, ← size]
    exact Array.getElem?_push_size
  have rest : Room a.segment ((prolog.flatMap order.bytes).length + 4 * epilog.length) := by
    rw [length_code, same]
    exact wrote.room _ (by rw [List.length_nil]; omega) room
  subst own
  obtain ⟨c, left, whole⟩ := writeEpilog_accepts opened last code target rest
  rw [size] at entered
  refine ⟨a, c, o, entered, opened, rfl, target, code, left, ?_⟩
  have kept : a.segment.order = order := by
    rw [same]
    exact wrote.order
  rw [kept] at whole
  rwa [List.flatMap_append]

end Accepting

/-- A frame with so many locals, on 64 bits. -/
def manyLocals (n : Nat) : Frame := ⟨.ppc64, 8, n, 0, 0, 0, false, false⟩

theorem grantAll_manyLocals (n : Nat) : ∃ gs,
    grantAll (.empty .ppc64) (List.replicate (n + 1) .localSlot) =
      .ok (gs, manyLocals (n + 1)) := by
  obtain ⟨gs, granted⟩ := grantAll_localSlots n (f := .empty .ppc64) rfl
  refine ⟨gs, granted.trans ?_⟩
  simp only [Frame.empty, Nat.zero_add]
  rfl

/-- The largest frame that is written as it was laid out. -/
theorem exact_of_largest : ∃ gs a b o, (manyLocals 4080).size = 32752 ∧
    grantAll (.empty .ppc64) (List.replicate 4080 .localSlot) = .ok (gs, manyLocals 4080) ∧
    writeProlog (manyLocals 4080) (.fresh .ppc64 .big) = .ok 0 a ∧
    a.assembler.frames[0]? = some o ∧ o.frame = manyLocals 4080 ∧ writeEpilog 0 a = .ok () b ∧
    ∃ prolog epilog, Exact (manyLocals 4080) prolog epilog ∧
      ∀ order e, Recovers order gs (manyLocals 4080) prolog epilog e := by
  obtain ⟨gs, granted⟩ := grantAll_manyLocals 4079
  have first : List.Forall₂ Encodes [0x7C0802A6#32, 0xF8010010#32, 0xF8218011#32]
      (prologCode (manyLocals 4080)) := .cons rfl (.cons rfl (.cons rfl .nil))
  have last : List.Forall₂ Encodes [0x38217FF0#32, 0xE8010010#32, 0x7C0803A6#32]
      (epilogCode (manyLocals 4080)) := .cons rfl (.cons rfl (.cons rfl .nil))
  obtain ⟨a, b, o, entered, opened, own, target, written, left, -⟩ :=
    fresh_accepts rfl first last (by decide) .big
  obtain ⟨prolog, epilog, -, -, -, sound⟩ := accepted_exact_iff_nameable granted
    (Nat.two_pow_pos _) entered written.bounded target opened own left
  exact ⟨gs, a, b, o, by decide, granted, entered, opened, own, left, prolog, epilog,
    sound (by decide)⟩

/-- The next larger frame is accepted too. Its epilog was to free it, and moves the stack pointer
down once more. -/
theorem lost_pointer_of_next_larger : ∃ gs a b, (manyLocals 4082).size = 32768 ∧
    grantAll (.empty .ppc64) (List.replicate 4082 .localSlot) = .ok (gs, manyLocals 4082) ∧
    writeProlog (manyLocals 4082) (.fresh .ppc64 .big) = .ok 0 a ∧ writeEpilog 0 a = .ok () b ∧
    Written b.segment ([0x7C0802A6#32, 0xF8010010#32, 0xF8218001#32, 0x38218000#32, 0xE8010010#32,
      0x7C0803A6#32].flatMap ByteOrder.big.bytes) ∧
    ⟨.addi, (.sp, .sp, 32768, ())⟩ ∈ epilogCode (manyLocals 4082) ∧
    Holds 0x38218000#32 ⟨.addi, (.sp, .sp, -32768, ())⟩ ∧
    ∀ order (e : Machine .ppc64), ∃ final,
      run? order [0x7C0802A6#32, 0xF8010010#32, 0xF8218001#32, 0x38218000#32, 0xE8010010#32,
        0x7C0803A6#32] e = some final ∧
      final.gpr .sp = e.gpr .sp - 65536 ∧ final.gpr .sp ≠ e.gpr .sp := by
  obtain ⟨gs, granted⟩ := grantAll_manyLocals 4081
  have first : List.Forall₂ Encodes [0x7C0802A6#32, 0xF8010010#32, 0xF8218001#32]
      (prologCode (manyLocals 4082)) := .cons rfl (.cons rfl (.cons rfl .nil))
  have last : List.Forall₂ Encodes [0x38218000#32, 0xE8010010#32, 0x7C0803A6#32]
      (epilogCode (manyLocals 4082)) := .cons rfl (.cons rfl (.cons rfl .nil))
  obtain ⟨a, b, o, entered, -, -, -, -, left, written⟩ :=
    fresh_accepts rfl first last (by decide) .big
  have held : List.Forall₂ Holds [0x7C0802A6#32, 0xF8010010#32, 0xF8218001#32, 0x38218000#32,
        0xE8010010#32, 0x7C0803A6#32]
      [moveFrom .lr, storeWord .ppc64 .r0 (.onStack 16), updateWord .ppc64 .sp (.onStack (-32768)),
        ⟨.addi, (.sp, .sp, -32768, ())⟩, loadWord .ppc64 .r0 (.onStack 16), moveTo .lr] := by
    repeat' constructor
  refine ⟨gs, a, b, by decide, granted, entered, left, written, .head _, by constructor, ?_⟩
  intro order e
  obtain ⟨final, ran, pointer⟩ : ∃ final, execAll? (exec? order) [moveFrom .lr,
      storeWord .ppc64 .r0 (.onStack 16), updateWord .ppc64 .sp (.onStack (-32768)),
      ⟨.addi, (.sp, .sp, -32768, ())⟩, loadWord .ppc64 .r0 (.onStack 16), moveTo .lr] e =
        some final ∧ final.gpr .sp = e.gpr .sp + number (-32768) + number (-32768) :=
    ⟨_, rfl, rfl⟩
  have down : final.gpr .sp = e.gpr .sp - 65536 := by
    rw [pointer, BitVec.add_assoc, BitVec.sub_eq_add_neg]
    rfl
  have other (p : BitVec 64) : p - 65536 ≠ p := by bv_omega
  refine ⟨final, (run_eq_execAll held e).trans ran, down, ?_⟩
  rw [down]
  exact other _

end PowerAsm.Proofs.FrameLimits
