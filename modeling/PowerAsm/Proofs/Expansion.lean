import Mathlib.Data.List.Forall2
import PowerAsm.Proofs.Disassembly
import PowerAsm.Proofs.Storage
import PowerAsm.Source

/-! The assembler encodes what was asked. A line of source is written out by the documented
meaning of its mnemonic; when it is assembled, the word decodes to the instruction that was
meant, and the operands taken out of the word are those that were written. -/
namespace PowerAsm.Proofs.Expansion
open Integers OperandFields Layouts Table Aliases Decoding InstructionText Disassembly Storage

/-- The operands of a conditional branch on a bit of a condition field, which is cr0 if none
is written. -/
def conditional (option bit : Int64) : List Operand → List Operand
  | [.target dest] => [.immediate option, .immediate bit, .target dest]
  | [.conditionField cr, .target dest] =>
    [.immediate option, .immediate (4 * cr + bit), .target dest]
  | _ => []

/-- The simplified mnemonics, each with the instruction that it stands for and with the
operands of that instruction by its own. -/
def expansions : List (String × String × (List Operand → List Operand)) := [
  ("mr", "or", fun
    | [ra, rs] => [ra, rs, rs]
    | _ => []),
  ("nop", "ori", fun _ => [.register 0, .register 0, .immediate 0]),
  ("li", "addi", fun
    | [rt, si] => [rt, .register 0, si]
    | _ => []),
  ("lis", "addis", fun
    | [rt, si] => [rt, .register 0, si]
    | _ => []),
  ("sub", "subf", fun
    | [rt, ra, rb] => [rt, rb, ra]
    | _ => []),
  ("slwi", "rlwinm", fun
    | [ra, rs, .immediate n] => [ra, rs, .immediate n, .immediate 0, .immediate (31 - n)]
    | _ => []),
  ("srwi", "rlwinm", fun
    | [ra, rs, .immediate n] =>
      [ra, rs, .immediate ((32 - n) % 32), .immediate n, .immediate 31]
    | _ => []),
  ("sldi", "rldicr", fun
    | [ra, rs, .immediate n] => [ra, rs, .immediate n, .immediate (63 - n)]
    | _ => []),
  ("srdi", "rldicl", fun
    | [ra, rs, .immediate n] => [ra, rs, .immediate ((64 - n) % 64), .immediate n]
    | _ => []),
  ("clrldi", "rldicl", fun
    | [ra, rs, n] => [ra, rs, .immediate 0, n]
    | _ => []),
  ("beq", "bc", conditional 12 2),
  ("bne", "bc", conditional 4 2),
  ("blt", "bc", conditional 12 0),
  ("bge", "bc", conditional 4 0),
  ("bgt", "bc", conditional 12 1),
  ("ble", "bc", conditional 4 1),
  ("blr", "bclr", fun _ => [.immediate 20, .immediate 0]),
  ("bctr", "bcctr", fun _ => [.immediate 20, .immediate 0]),
  ("bctrl", "bcctrl", fun _ => [.immediate 20, .immediate 0]),
  ("mflr", "mfspr", fun operands => operands ++ [.immediate 8]),
  ("mfctr", "mfspr", fun operands => operands ++ [.immediate 9]),
  ("mtlr", "mtspr", fun operands => .immediate 8 :: operands),
  ("mtctr", "mtspr", fun operands => .immediate 9 :: operands),
  ("mtcr", "mtcrf", fun operands => .immediate 255 :: operands),
  ("trap", "tw", fun _ => [.immediate 31, .register 0, .register 0])]

/-- The instruction that a line of source means, with its operands. A mnemonic that is not
a simplified one means itself. -/
def expansion (op : String) (operands : List Operand) : String × List Operand :=
  match expansions.lookup op with
  | some (base, arrange) => (base, arrange operands)
  | none => (op, operands)

/-- An instruction of the table means itself. -/
theorem expansion_base (op : Opcode) (operands : List Operand) :
    expansion op.name operands = (op.name, operands) := by
  have simplified : ∀ entry ∈ expansions, entry.1 ∈ Alias.all.map Alias.name := by decide
  have other : expansions.lookup op.name = none := by
    rw [List.lookup_eq_none_iff]
    intro entry member
    have listed := simplified entry member
    obtain ⟨a, -, same⟩ := List.mem_map.mp listed
    rw [← same, bne_iff_ne]
    intro equal
    cases name_injective (.short a) (.base op) (congrArg Text.ofString equal.symm)
  rw [expansion, other]

theorem parseRegister_range {letters : String} {last : Int} {t : Text} {n : Int64}
    (small : last ≤ 31) (parsed : Operand.parseRegister letters last t = .ok n) :
    0 ≤ n.toInt ∧ n.toInt ≤ last := by
  unfold Operand.parseRegister at parsed
  dsimp only at parsed
  cases found : Numeral.readDecimal? (t.drop (Text.ofString letters).length) with
  | none =>
    rw [found] at parsed
    cases parsed
  | some value =>
    rw [found] at parsed
    obtain ⟨⟨-, above, below⟩, ⟨⟩⟩ := ite_error_eq_ok_iff.mp parsed
    rw [Int64.toInt_ofInt_of_le (by omega) (by omega)]
    exact ⟨above, below⟩

/-- The registers of an operand that was read exist, and it is not yet known to be a target. -/
theorem operand_parse_read {t : Text} {o : Operand} (parsed : Operand.parse t = .ok o) :
    InRange o ∧ ∀ address, o ≠ .target address := by
  unfold Operand.parse at parsed
  split at parsed
  · cases parsed
  · split at parsed
    · unfold Operand.parseMemory at parsed
      split at parsed
      · cases parsed
      · obtain ⟨disp, -, more⟩ := bind_eq_ok_iff.mp parsed
        obtain ⟨base, register, ⟨⟩⟩ := bind_eq_ok_iff.mp more
        exact ⟨parseRegister_range (by decide) register, nofun⟩
    · split at parsed
      · obtain ⟨n, register, ⟨⟩⟩ := bind_eq_ok_iff.mp parsed
        exact ⟨parseRegister_range (by decide) register, nofun⟩
      · split at parsed
        · obtain ⟨n, register, ⟨⟩⟩ := bind_eq_ok_iff.mp parsed
          exact ⟨parseRegister_range (by decide) register, nofun⟩
        · split at parsed
          · obtain ⟨n, register, ⟨⟩⟩ := bind_eq_ok_iff.mp parsed
            exact ⟨parseRegister_range (by decide) register, nofun⟩
          · obtain ⟨v, -, ⟨⟩⟩ := bind_eq_ok_iff.mp parsed
            exact ⟨trivial, nofun⟩

theorem mapM_parse_read {fields : List Text} {operands : List Operand}
    (parsed : fields.mapM (fun field => Operand.parse field.trim) = .ok operands) :
    ∀ o ∈ operands, InRange o ∧ ∀ address, o ≠ .target address := by
  induction fields generalizing operands with
  | nil =>
    cases parsed
    simp
  | cons field fields ih =>
    rw [List.mapM_cons] at parsed
    obtain ⟨o, first, more⟩ := bind_eq_ok_iff.mp parsed
    obtain ⟨os, rest, ⟨⟩⟩ := bind_eq_ok_iff.mp more
    intro other member
    obtain rfl | later := List.mem_cons.mp member
    · exact operand_parse_read first
    · exact ih rest other later

theorem modifyLast_inRange {operands : List Operand} (inRange : ∀ o ∈ operands, InRange o) :
    ∀ o ∈ Instruction.modifyLast Operand.asTarget operands, InRange o := by
  intro o member
  obtain inner | last := List.mem_append.mp member
  · exact inRange o ((List.dropLast_sublist operands).subset inner)
  · obtain ⟨given, found, rfl⟩ := List.mem_map.mp last
    have kept := inRange given (List.mem_of_getLast? (Option.mem_toList.mp found))
    cases given with
    | immediate v => trivial
    | _ => exact kept

/-- Operands are read one by one, and only then is the last one of a branch taken for a target. -/
theorem parse_operands {t : Text} {i : Instruction} (parsed : Instruction.parse t = .ok i) :
    ∃ operands, (∀ o ∈ operands, InRange o ∧ ∀ address, o ≠ .target address) ∧
      i.operands = if Instruction.isBranch i.op then
        Instruction.modifyLast Operand.asTarget operands else operands := by
  unfold Instruction.parse at parsed
  dsimp only at parsed
  split at parsed
  · cases parsed
  · split at parsed
    · cases parsed
      refine ⟨[], fun o member => absurd member List.not_mem_nil, ?_⟩
      split <;> rfl
    · obtain ⟨operands, read, ⟨⟩⟩ := bind_eq_ok_iff.mp parsed
      exact ⟨operands, mapM_parse_read (mapError_eq_ok_iff.mp read), rfl⟩

/-- The registers of an instruction that was read exist. -/
theorem parse_inRange {t : Text} {i : Instruction} (parsed : Instruction.parse t = .ok i) :
    ∀ o ∈ i.operands, InRange o := by
  obtain ⟨operands, read, same⟩ := parse_operands parsed
  have inRange : ∀ o ∈ operands, InRange o := fun o member => (read o member).1
  rw [same]
  split
  · exact modifyLast_inRange inRange
  · exact inRange

/-- An operand is read as the value that is written like it, as long as the number of a
special register is one. -/
theorem write_read? {t : OperandType} {o : Operand} {v : t.Value} (inRange : InRange o)
    (special : t = .spr → ∀ n, o = .immediate n → 0 ≤ n.toInt ∧ n.toInt ≤ 1023)
    (read : t.read? o = some v) : t.write v = o := by
  cases t with
  | gpr =>
    cases o with
    | register n =>
      cases read
      exact congrArg Operand.register
        ((gpr_code_eq_iff _ n inRange.1 (Int.lt_of_le_of_lt inRange.2 (by decide))).mpr rfl)
    | _ => cases read
  | fpr =>
    cases o with
    | floatRegister n =>
      cases read
      exact congrArg Operand.floatRegister
        ((fpr_code_eq_iff _ n inRange.1 (Int.lt_of_le_of_lt inRange.2 (by decide))).mpr rfl)
    | _ => cases read
  | crField =>
    cases o with
    | conditionField n =>
      cases read
      exact congrArg Operand.conditionField
        ((cr_code_eq_iff _ n inRange.1 (Int.lt_of_le_of_lt inRange.2 (by decide))).mpr rfl)
    | _ => cases read
  | memory =>
    cases o with
    | memory disp n =>
      cases read
      exact congrArg (Operand.memory disp)
        ((gpr_code_eq_iff _ n inRange.1 (Int.lt_of_le_of_lt inRange.2 (by decide))).mpr rfl)
    | _ => cases read
  | spr =>
    cases o with
    | immediate n =>
      cases read
      have range := special rfl n rfl
      exact congrArg Operand.immediate ((spr_code_eq_iff _ n range.1 (by omega)).mpr rfl)
    | _ => cases read
  | wideGpr | immediate | target =>
    cases o <;> cases read
    rfl

theorem toOperands_ofOperands? {types : List OperandType} {operands : List Operand}
    {args : Args types} (inRange : ∀ o ∈ operands, InRange o)
    (special : .spr ∈ types → ∀ n, .immediate n ∈ operands → 0 ≤ n.toInt ∧ n.toInt ≤ 1023)
    (read : Args.ofOperands? types operands = some args) :
    Args.toOperands types args = operands := by
  induction types generalizing operands with
  | nil =>
    cases operands with
    | nil => rfl
    | cons o os => cases read
  | cons t ts ih =>
    cases operands with
    | nil => cases read
    | cons o os =>
      obtain ⟨v, vs⟩ := args
      simp only [Args.ofOperands?] at read
      split at read
      · rename_i first rest
        cases read
        have head := write_read? (inRange o List.mem_cons_self)
          (fun spr n same => special (spr ▸ List.mem_cons_self) n (same ▸ List.mem_cons_self)) first
        have tail := ih (fun o member => inRange o (List.mem_cons_of_mem _ member))
          (fun spr n member => special (List.mem_cons_of_mem _ spr) n (List.mem_cons_of_mem _ member))
          rest
        rw [Args.toOperands, head, tail]
      · cases read

/-- The rest of a whole turn, for a shift amount that is in range. -/
theorem remaining_turn {n : Int64} (bits : Nat) (narrow : bits ≤ 6) (above : 0 ≤ n.toInt)
    (below : n.toInt ≤ (Int64.ofNat (2 ^ bits - 1)).toInt) :
    (Int64.ofNat (2 ^ bits) - n) &&& Int64.ofNat (2 ^ bits - 1) =
      (Int64.ofNat (2 ^ bits) - n) % Int64.ofNat (2 ^ bits) := by
  have some := Nat.two_pow_pos bits
  have size : 2 ^ bits ≤ 2 ^ 6 := Nat.pow_le_pow_right (by decide) narrow
  have whole : (Int64.ofNat (2 ^ bits)).toInt = (2 ^ bits : Nat) :=
    Int64.toInt_ofNat_of_lt (by omega)
  have last : (Int64.ofNat (2 ^ bits - 1)).toInt = (2 ^ bits - 1 : Nat) :=
    Int64.toInt_ofNat_of_lt (by omega)
  apply and_mask_eq_mod bits (by omega)
  rw [toInt_sub_of_range] <;> omega

theorem complete_branch {c : Condition} {operands : List Operand} {cr : CrField} {dest : Int64}
    (given : [.conditionField cr.code, .target dest] = (Alias.branch c).complete operands) :
    operands = [.conditionField cr.code, .target dest] ∨
      cr.code = 0 ∧ operands = [.target dest] := by
  unfold Alias.complete at given
  split at given
  · injection given with field rest
    cases rest
    exact .inr ⟨Operand.conditionField.inj field, rfl⟩
  · exact .inl given.symm

theorem complete_inRange {a : Alias} {operands : List Operand}
    (inRange : ∀ o ∈ operands, InRange o) : ∀ o ∈ a.complete operands, InRange o := by
  unfold Alias.complete
  split
  · intro o member
    obtain rfl | rest := List.mem_cons.mp member
    · exact ⟨Int.le_refl 0, by decide⟩
    · exact inRange o rest
  · exact inRange

/-- A simplified mnemonic is expanded to what it means. -/
theorem expansion_alias {a : Alias} {operands : List Operand} {args : Args a.operands} {i : Instr}
    (given : Args.toOperands a.operands args = a.complete operands)
    (expanded : a.expand args = .ok i) :
    expansion a.name operands = (i.op.name, i.operands) := by
  cases a with
  | branch c =>
    obtain ⟨cr, dest, ⟨⟩⟩ := args
    cases expanded
    have position (b : ConditionBit) : cr.bit b = 4 * cr.code + b.index := by
      rw [CrField.bit, Int64.mul_comm]
    have meaning : expansion (Alias.branch c).name operands =
        ("bc", conditional (branchOption c.onSet) c.bit.index operands) := by
      cases c <;> rfl
    rw [meaning]
    obtain rfl | ⟨zero, rfl⟩ := complete_branch given
    · show ("bc", [Operand.immediate _, .immediate (4 * cr.code + c.bit.index), .target dest]) = _
      rw [← position]
      rfl
    · have bit : cr.bit c.bit = c.bit.index := by
        rw [position, zero, Int64.mul_zero, Int64.zero_add]
      show ("bc", [Operand.immediate _, .immediate c.bit.index, .target dest]) = _
      rw [← bit]
      rfl
  | slwi | sldi | clrldi =>
    obtain ⟨ra, rs, n, ⟨⟩⟩ := args
    obtain ⟨-, rfl⟩ := checkShift_then_eq_ok_iff.mp expanded
    cases given
    rfl
  | srwi =>
    obtain ⟨ra, rs, n, ⟨⟩⟩ := args
    obtain ⟨⟨above, below⟩, rfl⟩ := checkShift_then_eq_ok_iff.mp expanded
    have amount : (32 - n) &&& 31 = (32 - n) % 32 := remaining_turn 5 (by decide) above below
    cases given
    show ("rlwinm", [_, _, Operand.immediate ((32 - n) % 32), _, _]) = _
    rw [← amount]
    rfl
  | srdi =>
    obtain ⟨ra, rs, n, ⟨⟩⟩ := args
    obtain ⟨⟨above, below⟩, rfl⟩ := checkShift_then_eq_ok_iff.mp expanded
    have amount : (64 - n) &&& 63 = (64 - n) % 64 := remaining_turn 6 (by decide) above below
    cases given
    show ("rldicl", [_, _, Operand.immediate ((64 - n) % 64), _]) = _
    rw [← amount]
    rfl
  | _ =>
    cases expanded
    cases given
    rfl

/-- The instructions whose immediate is a signed number of 16 bits. -/
def signedImmediates : List String := ["mulli", "subfic", "addi", "addis", "cmpwi", "cmpdi"]

/-- Two numbers that are the same in 16 bits. -/
def SameLow (given read : Int64) : Prop := given.toInt % 2 ^ 16 = read.toInt % 2 ^ 16

/-- An operand that was asked for against the one that a word of `op` holds: displacements
and signed immediates are the same in 16 bits, all others are equal. -/
def Agrees (op : String) : Operand → Operand → Prop
  | .immediate given, .immediate read =>
    if op ∈ signedImmediates then SameLow given read else given = read
  | .memory given base, .memory read base' => SameLow given read ∧ base = base'
  | given, read => given = read

theorem sameLow_of_sameHalf {given read : Int64} (same : SameHalf given read) :
    SameLow given read := by
  obtain rfl | ⟨negative, rfl⟩ := same
  · rfl
  · have above := Int64.le_toInt read
    have offset : (65536 : Int64).toInt = 65536 := rfl
    rw [SameLow, toInt_add_of_range] <;> omega

theorem mem_signedImmediates (op : Opcode) :
    op.name ∈ signedImmediates ↔ signedHalf op.layout = true := by
  cases op <;> decide

theorem agrees_write {op : Opcode} {t : OperandType} {given read : t.Value}
    (agree : ValueAgrees (signedHalf op.layout) t given read) :
    Agrees op.name (t.write given) (t.write read) := by
  cases t with
  | immediate =>
    simp only [OperandType.write, Agrees, mem_signedImmediates]
    simp only [ValueAgrees] at agree
    split
    · rename_i signed
      exact sameLow_of_sameHalf (by rwa [if_pos signed] at agree)
    · rename_i unsigned
      rwa [if_neg unsigned] at agree
  | memory => exact ⟨sameLow_of_sameHalf agree.2, congrArg Gpr.code agree.1⟩
  | spr =>
    cases agree
    show if op.name ∈ signedImmediates then SameLow given.code given.code else given.code = given.code
    split <;> rfl
  | gpr | wideGpr | fpr | crField | target =>
    cases agree
    rfl

theorem agrees_toOperands {op : Opcode} {types : List OperandType} {given read : Args types}
    (agree : ArgsAgree (signedHalf op.layout) types given read) :
    List.Forall₂ (Agrees op.name) (Args.toOperands types given) (Args.toOperands types read) := by
  induction types with
  | nil => exact .nil
  | cons t ts ih => exact .cons (agrees_write agree.1) (ih agree.2)

theorem toString_ofString (s : String) : (Text.ofString s).toString = s := by
  simp [Text.toString, Text.ofString, Function.comp_def]

/-- Only the moves from and to special registers name one. -/
theorem special_opcode {op : Opcode} (member : .spr ∈ op.operands) :
    op = .mfspr ∨ op = .mtspr := by
  cases op <;> first | decide | (revert member; decide)

theorem alias_not_special (a : Alias) : OperandType.spr ∉ a.operands := by
  cases a <;> simp [Alias.operands]

/-- An instruction that has a word is encoded as the one that it means. -/
theorem encode_expansion {i : Instruction} {pc : Int64} {w : Word}
    (inRange : ∀ o ∈ i.operands, InRange o) (instruction : i.op ≠ (".long" : Text))
    (special : i.op = ("mfspr" : Text) ∨ i.op = ("mtspr" : Text) →
      ∀ n, .immediate n ∈ i.operands → 0 ≤ n.toInt ∧ n.toInt ≤ 1023)
    (encoded : i.encode pc = .ok w) :
    ∃ (title : String) (op : Opcode) (args : Args op.operands),
      expansion i.op.toString i.operands = (op.name, Args.toOperands op.operands args) ∧
        op.encodeAs title args pc = .ok w := by
  unfold Instruction.encode at encoded
  split at encoded
  · cases encoded
  · rename_i m found
    have named := name_of_ofName? found
    rw [← named, toString_ofString]
    split at encoded
    · cases encoded
    · rename_i word taken
      rw [mapError_eq_ok_iff] at encoded
      subst encoded
      cases m with
      | word => exact absurd named.symm instruction
      | base op =>
        obtain ⟨args, read, encoded⟩ := Option.map_eq_some_iff.mp taken
        have written := toOperands_ofOperands? inRange (fun member => special <| by
          obtain rfl | rfl := special_opcode member
          · exact .inl named.symm
          · exact .inr named.symm) read
        exact ⟨op.title, op, args, by rw [written]; exact expansion_base op i.operands, encoded⟩
      | short a =>
        obtain ⟨args, read, encoded⟩ := Option.map_eq_some_iff.mp taken
        obtain ⟨j, expanded, encoded⟩ := bind_eq_ok_iff.mp encoded
        have written := toOperands_ofOperands? (complete_inRange inRange)
          (fun member => absurd member (alias_not_special a)) read
        exact ⟨a.title j.op, j.op, j.args,
          expansion_alias written (mapError_eq_ok_iff.mp expanded), encoded⟩

theorem statement_eq {i : Instruction} {pc : Int64} {w : Word} {a a' : Assembly}
    (encoded : i.encode pc = .ok w) (emitted : Asm.emit w a = .ok () a') :
    Asm.statement i pc a = .ok () a' := by
  unfold Asm.statement
  rw [encoded]
  dsimp only
  rw [emitted]

/-- The assembler encodes what was asked: the word of a line of source that was read and
assembled is one of the instruction that the line means, and holds the operands of that
instruction. -/
theorem statement_encodes_expansion {t : Text} {i : Instruction} {pc : Int64} {target : Target}
    {order : ByteOrder} {a : Assembly} (parsed : Instruction.parse t = .ok i)
    (instruction : i.op ≠ (".long" : Text))
    (special : i.op = ("mfspr" : Text) ∨ i.op = ("mtspr" : Text) →
      ∀ n, .immediate n ∈ i.operands → 0 ≤ n.toInt ∧ n.toInt ≤ 1023)
    (assembled : Asm.statement i pc (.fresh target order) = .ok () a) :
    ∃ w j, a.assembler.buffer.bytes a.segment = .ok (order.bytes w) ∧
      (Instruction.decode w pc).isKnown = true ∧
      (Instruction.decode w pc).base = Text.ofString (expansion i.op.toString i.operands).1 ∧
      Instr.ofWord? Opcode.all w pc = some j ∧
      List.Forall₂ (Agrees (expansion i.op.toString i.operands).1)
        (expansion i.op.toString i.operands).2 j.operands := by
  cases encoded : i.encode pc with
  | error e =>
    rw [Asm.statement, encoded] at assembled
    cases assembled
  | ok w =>
    obtain ⟨a', emitted, code, order', -⟩ := emit_code (fresh_code target order) w (by decide)
    rw [statement_eq encoded emitted] at assembled
    cases assembled
    have bytes := code.bytes
    rw [order'] at bytes
    obtain ⟨title, op, args, meaning, taken⟩ :=
      encode_expansion (parse_inRange parsed) instruction special encoded
    obtain ⟨belongs, -, agree⟩ := (encodeAs_eq_ok_iff title op args pc w).mp taken
    have found := (ofWord?_instr_eq_some_iff w pc ⟨op, op.read w pc⟩).mpr ⟨belongs, rfl⟩
    have base := base_known found
    rw [meaning]
    exact ⟨w, ⟨op, op.read w pc⟩, bytes.trans (congrArg Except.ok (List.append_nil _)),
      isKnown_decode found, base, found, agrees_toOperands agree⟩

/-- A shift to the right by nothing, which is the same rotate as a shift to the left by
nothing. -/
theorem statement_encodes_shift :
    ∃ a, Asm.statement (.written "srwi" [.register 3, .register 4, .immediate 0]) 16
        (.fresh .ppc64 .little) = .ok () a ∧
      ∃ w j, a.assembler.buffer.bytes a.segment = .ok (ByteOrder.little.bytes w) ∧
        (Instruction.decode w 16).isKnown = true ∧
        (Instruction.decode w 16).base = Text.ofString "rlwinm" ∧
        Instr.ofWord? Opcode.all w 16 = some j ∧
        List.Forall₂ (Agrees "rlwinm")
          [.register 3, .register 4, .immediate 0, .immediate 0, .immediate 31] j.operands := by
  have formed : WellFormed "srwi" [.register 3, .register 4, .immediate 0] :=
    wellFormed_written (.short .srwi) (⟨3⟩, ⟨4⟩, 0, ()) (by
      simp [Args.toOperands, Mnemonic.operands, Alias.operands, OperandType.write, InRange, Gpr.code])
  have taken : (Mnemonic.short .srwi).encode? [.register 3, .register 4, .immediate 0] 16 =
      some (.ok 0x5483003E#32) := rfl
  have meaning : expansion (Text.ofString "srwi").toString
        [.register 3, .register 4, .immediate 0] =
      ("rlwinm", [.register 3, .register 4, .immediate 0, .immediate 0, .immediate 31]) := by
    rw [toString_ofString]
    rfl
  obtain ⟨a, emitted, -⟩ := emit_code (fresh_code .ppc64 .little) 0x5483003E#32 (by decide)
  have assembled := statement_eq (encode_eq (i := .written "srwi" _) rfl taken) emitted
  have encodes := statement_encodes_expansion (parse_line formed) (by decide)
    (fun moves => absurd moves (by decide)) assembled
  simp only [Instruction.written, meaning] at encodes
  exact ⟨a, assembled, encodes⟩

end PowerAsm.Proofs.Expansion
