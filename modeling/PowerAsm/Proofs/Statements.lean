import PowerAsm.Proofs.SharedSegments

/-! Instructions that are given as text are written as a whole or not at all. Whatever the
mnemonic and the operands are, either one word is appended and recorded, or the reason why there is
none is returned and nothing has changed. The reasons are all about the instruction, so none of them
is a defect of the assembler. -/
namespace PowerAsm.Proofs.Statements
open Segment Storage Integers Operations SharedSegments

/-- Faults of an instruction by itself: an operand, or the reach of a branch. -/
inductive OfInstruction : Fault → Prop
  | encoding (e : EncodingError) : OfInstruction (.encoding e)
  | branchRange (e : BranchRangeError) : OfInstruction (.branchRange e)

/-- The reasons that are returned to whoever asked for an instruction. -/
inductive Returned : StatementError → Prop
  | unknownMnemonic (op : Text) : Returned (.unknownMnemonic op)
  | operands (m : Mnemonic) (given : List Operand) : Returned (.operands m given)
  | fault {f : Fault} (own : OfInstruction f) : Returned (.fault f)

theorem own_encodeAs (op : Opcode) (title : String) (args : Args op.operands) (pc : Int64) :
    FailsOnly OfInstruction (op.encodeAs title args pc) :=
  (failsOnly_mapError .branchRange _).bind fun _ => failsOnly_mapError .encoding _

theorem own_alias (s : Alias) (args : Args s.operands) (pc : Int64) :
    FailsOnly OfInstruction (s.encode args pc) :=
  (failsOnly_mapError .encoding _).bind fun i => own_encodeAs i.op _ _ _

theorem own_mnemonic {m : Mnemonic} {operands : List Operand} {pc : Int64}
    {x : Except Fault Word} (taken : m.encode? operands pc = some x) :
    FailsOnly OfInstruction x := by
  cases m with
  | word =>
    obtain ⟨⟨v, ⟨⟩⟩, -, rfl⟩ := Option.map_eq_some_iff.mp taken
    exact .ite nofun (failsOnly_error (.encoding _))
  | base op =>
    obtain ⟨args, -, rfl⟩ := Option.map_eq_some_iff.mp taken
    exact own_encodeAs op _ args pc
  | short s =>
    obtain ⟨args, -, rfl⟩ := Option.map_eq_some_iff.mp taken
    exact own_alias s args pc

theorem returned_of_encode {i : Instruction} {pc : Int64} {e : StatementError}
    (failed : i.encode pc = .error e) : Returned e := by
  unfold Instruction.encode at failed
  split at failed
  · cases failed
    exact .unknownMnemonic _
  · split at failed
    · cases failed
      exact .operands _ _
    · next x taken =>
      cases x with
      | ok w => cases failed
      | error f =>
        cases failed
        exact .fault (own_mnemonic taken f rfl)

/-- From `a` to `b` nothing has happened but that one word was appended to the bytes of the segment
and recorded. -/
structure Appended (a : Assembly) (bytes : List UInt8) (w : Word) (b : Assembly) : Prop where
  bytes : b.segment.bytes = .ok (bytes ++ a.segment.order.bytes w)
  order : b.segment.order = a.segment.order
  offset : b.assembler.buffer.length b.segment = a.assembler.buffer.length a.segment + 4
  assembler : b.assembler = { a.assembler with
    log := a.assembler.log.push (.emitted (a.assembler.buffer.length a.segment) w) }

/-- What comes of an instruction at `pc`, asked for when the segment holds these bytes. Only a
segment that takes up half of what an offset can name has no room for its word. -/
inductive Outcome (i : Instruction) (pc : Int64) (a : Assembly) (bytes : List UInt8) :
    EStateM.Result StatementError Assembly Unit → Prop
  | appended {w : Word} {b : Assembly} (encoded : i.encode pc = .ok w)
      (appended : Appended a bytes w b) : Outcome i pc a bytes (.ok () b)
  | returned {e : StatementError} (failed : i.encode pc = .error e) (returned : Returned e) :
    Outcome i pc a bytes (.error e a)
  | full (large : 2 ^ 62 < bytes.length + 4) : Outcome i pc a bytes (.error (.fault .outOfBounds) a)

theorem appended_or_full {a : Assembly} (intact : Intact a.segment) {bytes : List UInt8}
    (written : Written a.segment bytes) (w : Word) :
    (∃ b, Asm.emit w a = .ok () b ∧ Appended a bytes w b) ∨
      Asm.emit w a = .error .outOfBounds a ∧ 2 ^ 62 < bytes.length + 4 := by
  have four := length_bytes a.segment.order w
  rcases emit_cases written intact.sturdy w with ⟨s, emitted, written', order, -⟩ | full
  · have before := written.size
    have after := written'.size
    have short := written'.bounded
    have inside := written'.length_le
    rw [List.length_append, four] at after inside
    have next : s.size = a.segment.size + 4 := by
      apply Int64.toInt_inj.mp
      have width : (4 : Int64).toInt = 4 := rfl
      rw [toInt_add_of_range] <;> omega
    refine .inl ⟨_, emitted, bytes_of_written written', order, ?_, rfl⟩
    show s.size - a.assembler.buffer.start = a.segment.size - a.assembler.buffer.start + 4
    rw [next]
    grind
  · exact .inr full

/-- In every state that an assembler can come to and for every instruction, however it is made up,
either its word is appended or the assembler is as it was. -/
theorem statement_all_or_nothing {a : Assembly} (reachable : Reachable a) (i : Instruction)
    (pc : Int64) :
    ∃ bytes, a.segment.bytes = .ok bytes ∧ Outcome i pc a bytes (Asm.statement i pc a) := by
  obtain ⟨bytes, written⟩ := reachable.intact.written
  refine ⟨bytes, bytes_of_written written, ?_⟩
  unfold Asm.statement
  cases encoded : i.encode pc with
  | error e => exact .returned encoded (returned_of_encode encoded)
  | ok w =>
    rcases appended_or_full reachable.intact written w with ⟨b, emitted, appended⟩ | ⟨full, large⟩
    · simp only [emitted]
      exact .appended encoded appended
    · simp only [full]
      exact .full large

/-- A branch was refused, and then something else was added to the segment. -/
def disturbed : Assembly :=
  let a := Operation.perform (.fresh .ppc64 .big) (.branchTo (.conditional 32 0) ⟨0⟩)
  ⟨after (appendWord 0x60000000#32 a.segment), a.assembler⟩

/-- A register that does not exist, under a number that is too large for a register. -/
theorem statement_all_or_nothing_disturbed : Reachable disturbed ∧
    ∃ bytes, disturbed.segment.bytes = .ok bytes ∧
      Outcome (.written "add" [.register 300, .register 4, .register 5]) 8 disturbed bytes
        (Asm.statement (.written "add" [.register 300, .register 4, .register 5]) 8 disturbed) := by
  have started : Reachable (.fresh .ppc64 .big) := .start (.code [] .big (Nat.zero_le _)) rfl
  have reachable : Reachable disturbed :=
    .shared (.operation started (.branchTo (.conditional 32 0) ⟨0⟩)) (.append 0x60000000#32)
  exact ⟨reachable, statement_all_or_nothing reachable _ 8⟩

end PowerAsm.Proofs.Statements
