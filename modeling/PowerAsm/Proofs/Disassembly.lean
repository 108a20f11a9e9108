import PowerAsm.Proofs.Decoding
import PowerAsm.Proofs.InstructionText

/-! The text of a decoded instruction. It is read as the instruction that was decoded, and
it is a line of source by itself: short, visible, and without a comment. -/
namespace PowerAsm.Proofs.Disassembly
open Numeral Numerals Integers OperandFields Layouts Table Aliases Decoding InstructionText

@[simp] theorem gpr_code_field (w : Word) (low : Nat) :
    (Gpr.ofCode (w.unsigned low 5)).code = w.unsigned low 5 :=
  (gpr_code_eq_field _ w low).mpr rfl

@[simp] theorem fpr_code_field (w : Word) (low : Nat) :
    (Fpr.ofCode (w.unsigned low 5)).code = w.unsigned low 5 :=
  (fpr_code_eq_field _ w low).mpr rfl

theorem cr_code_field (w : Word) (low : Nat) :
    (CrField.ofCode (w.unsigned low 3)).code = w.unsigned low 3 := by
  have bound := field_bound w low 3 (by decide)
  exact (cr_code_eq_iff _ _ bound.1 (by omega)).mpr rfl

private theorem field_le (w : Word) (low : Nat) :
    0 ≤ (w.unsigned low 5).toInt ∧ (w.unsigned low 5).toInt ≤ 31 := by
  have bound := field_bound w low 5 (by decide)
  omega

private theorem cr_field_le (w : Word) (low : Nat) :
    0 ≤ (w.unsigned low 3).toInt ∧ (w.unsigned low 3).toInt ≤ 7 := by
  have bound := field_bound w low 3 (by decide)
  omega

/-- The operands that are read from a word are in range. -/
theorem read_inRange (l : Layout) (w : Word) (pc : Int64) :
    ∀ o ∈ Args.toOperands l.operands (l.read w pc), InRange o := by
  cases l <;> simp [Layout.operands, Layout.read, Args.toOperands, OperandType.write, InRange,
    Layout.fieldA, Layout.fieldB, Layout.fieldC, RotateFields.ofWord, field_le, cr_code_field,
    cr_field_le]

theorem bit_toInt (cr : CrField) (b : ConditionBit) :
    (cr.bit b).toInt = cr.code.toInt * 4 + b.index.toInt := by
  have code : cr.code.toInt = cr.number.toInt := Int8.toInt_toInt64 _
  have above := Int8.le_toInt cr.number
  have below := Int8.toInt_lt cr.number
  have index : 0 ≤ b.index.toInt ∧ b.index.toInt ≤ 3 := by cases b <;> decide
  have scaled : (cr.code * 4).toInt = cr.code.toInt * 4 := by
    rw [toInt_mul_of_range] <;> rw [show (4 : Int64).toInt = 4 from rfl] <;> omega
  rw [CrField.bit, toInt_add_of_range] <;> rw [scaled] <;> omega

/-- An alias has only registers that its instruction has, and a branch has a condition
field that its instruction can name. -/
theorem alias_inRange {u : Alias.Use} {i : Instr} {w : Word} {pc : Int64}
    (read : i.args = i.op.read w pc) (short : i.simplify = some u) :
    ∀ o ∈ Args.toOperands u.head.operands u.args, InRange o := by
  have expanded := expand_simplify i u w pc read short
  have inRange : ∀ o ∈ Args.toOperands i.op.operands i.args, InRange o := by
    rw [read]
    exact read_inRange i.op.layout w pc
  obtain ⟨head, args⟩ := u
  cases head with
  | nop | blr | bctr | bctrl | trap => exact fun _ member => nomatch member
  | mr =>
    obtain ⟨ra, rs, ⟨⟩⟩ := args
    cases expanded
    have held : ∀ o ∈ [Operand.register ra.code, .register rs.code, .register rs.code], InRange o :=
      inRange
    show ∀ o ∈ [Operand.register ra.code, .register rs.code], InRange o
    simp_all
  | li | lis =>
    obtain ⟨rt, si, ⟨⟩⟩ := args
    cases expanded
    have held : ∀ o ∈ [Operand.register rt.code, .register Gpr.r0.code, .immediate si], InRange o :=
      inRange
    show ∀ o ∈ [Operand.register rt.code, .immediate si], InRange o
    simp_all
  | sub =>
    obtain ⟨rt, ra, rb, ⟨⟩⟩ := args
    cases expanded
    have held : ∀ o ∈ [Operand.register rt.code, .register rb.code, .register ra.code], InRange o :=
      inRange
    show ∀ o ∈ [Operand.register rt.code, .register ra.code, .register rb.code], InRange o
    simp_all
  | mflr | mfctr =>
    obtain ⟨rt, ⟨⟩⟩ := args
    cases expanded
    exact List.forall_mem_singleton.mpr (inRange _ (.head _))
  | mtlr | mtctr | mtcr =>
    obtain ⟨rs, ⟨⟩⟩ := args
    cases expanded
    exact List.forall_mem_singleton.mpr (inRange _ (.tail _ (.head _)))
  | slwi | srwi | sldi | srdi | clrldi =>
    obtain ⟨ra, rs, n, ⟨⟩⟩ := args
    obtain ⟨-, rfl⟩ := checkShift_then_eq_ok_iff.mp expanded
    have first := inRange (.register ra.code) (.head _)
    have second := inRange (.register rs.code) (.tail _ (.head _))
    show ∀ o ∈ [Operand.register ra.code, .register rs.code, .immediate n], InRange o
    simp_all [InRange]
  | branch c =>
    obtain ⟨cr, dest, ⟨⟩⟩ := args
    cases expanded
    have bit : cr.bit c.bit = w.unsigned 16 5 := congrArg (·.2.1) read
    have bound := field_bound w 16 5 (by decide)
    have value := bit_toInt cr c.bit
    have index : 0 ≤ c.bit.index.toInt ∧ c.bit.index.toInt ≤ 3 := by cases c <;> decide
    have field : InRange (.conditionField cr.code) := by
      rw [bit] at value
      exact ⟨by omega, by omega⟩
    exact List.forall_mem_cons.mpr ⟨field, List.forall_mem_singleton.mpr trivial⟩

theorem write_ne_target {t : OperandType} (other : t ≠ .target) (v : t.Value) :
    ∀ address, t.write v ≠ .target address := by
  intro address
  cases t <;> simp_all [OperandType.write]

/-- Only operands of the type of targets are targets. -/
theorem toOperands_inner (types : List OperandType) (args : Args types)
    (inner : .target ∉ types.dropLast) :
    ∀ o ∈ (Args.toOperands types args).dropLast, ∀ address, o ≠ .target address := by
  induction types with
  | nil => simp [Args.toOperands]
  | cons t ts ih =>
    obtain ⟨v, vs⟩ := args
    cases ts with
    | nil => simp [Args.toOperands]
    | cons t' ts =>
      obtain ⟨v', vs⟩ := vs
      simp only [List.dropLast_cons_cons, List.mem_cons, not_or] at inner
      intro o member
      simp only [Args.toOperands, List.dropLast_cons_cons, List.mem_cons] at member
      rcases member with rfl | later
      · exact write_ne_target (Ne.symm inner.1) v
      · exact ih (v', vs) inner.2 o later

theorem toOperands_last (types : List OperandType) (args : Args types) :
    ∀ o ∈ (Args.toOperands types args).getLast?,
      if types.getLast? == some .target then ∀ v, o ≠ .immediate v
      else ∀ address, o ≠ .target address := by
  induction types with
  | nil => simp [Args.toOperands]
  | cons t ts ih =>
    obtain ⟨v, vs⟩ := args
    cases ts with
    | nil =>
      intro o member
      simp only [Args.toOperands, List.getLast?_singleton, Option.mem_def, Option.some.injEq] at member
      subst member
      cases t <;> simp [OperandType.write]
    | cons t' ts =>
      obtain ⟨v', vs⟩ := vs
      simpa [Args.toOperands, List.getLast?_cons_cons] using ih (v', vs)

theorem targets_last (m : Mnemonic) : .target ∉ m.operands.dropLast := by
  cases m with
  | word => decide
  | base op => 
    show .target ∉ op.layout.operands.dropLast
    cases op.layout <;> decide
  | short a => cases a <;> simp [Mnemonic.operands, Alias.operands]

theorem names_plain : ∀ m ∈ Mnemonic.all,
    Text.ofString m.name ≠ [] ∧ Plain m.name ∧ (Text.ofString m.name).length ≤ 7 := by
  decide +kernel

theorem isBranch_name (m : Mnemonic) : Instruction.isBranch m.name = m.leadsTo := by
  rw [Instruction.isBranch, ofName?_name, Option.any_some]

/-- A mnemonic with all its operands can be written down. -/
theorem wellFormed_written (m : Mnemonic) (args : Args m.operands)
    (inRange : ∀ o ∈ Args.toOperands m.operands args, InRange o) :
    WellFormed m.name (Args.toOperands m.operands args) := by
  obtain ⟨named, plain, -⟩ := names_plain m (mnemonic_mem_all m)
  refine ⟨named, fun g member => not_blank_of_plain g (plain g member), inRange,
    toOperands_inner _ args (targets_last m), ?_⟩
  rw [isBranch_name]
  exact toOperands_last _ args

/-- So can an alias without a condition field that need not be written. -/
theorem wellFormed_shorten (a : Alias) (args : Args a.operands)
    (inRange : ∀ o ∈ Args.toOperands a.operands args, InRange o) :
    WellFormed a.name (a.shorten (Args.toOperands a.operands args)) := by
  have formed := wellFormed_written (.short a) args inRange
  cases a with
  | branch c =>
    obtain ⟨cr, dest, ⟨⟩⟩ := args
    show WellFormed _ (if cr.code = 0 then [Operand.target dest] else _)
    split
    · have branch : Instruction.isBranch (Alias.branch c).name = true :=
        isBranch_name (.short (.branch c))
      refine ⟨formed.named, formed.solid, by simp [InRange], by simp, ?_⟩
      simp [branch]
    · exact formed
  | _ => exact formed

/-- A decoded instruction can be written down. -/
theorem wellFormed_decode {w : Word} {pc : Int64} {i : Instr}
    (found : Instr.ofWord? Opcode.all w pc = some i) :
    WellFormed (Instruction.decode w pc).op (Instruction.decode w pc).operands := by
  obtain ⟨-, read⟩ := (ofWord?_instr_eq_some_iff w pc i).mp found
  cases short : i.simplify with
  | none =>
    rw [decode_plain found short]
    apply wellFormed_written (.base i.op) i.args
    rw [read]
    exact read_inRange i.op.layout w pc
  | some u =>
    rw [decode_short found short]
    exact wellFormed_shorten u.head u.args (alias_inRange read short)

/-- The directive for a word is written as a line with the word as its operand. -/
theorem text_directive {i : Instruction} (unknown : i.base = [])
    (directive : i.op = Text.ofString ".long") :
    i.text = Instruction.line (Text.ofString ".long") [Instruction.wordText i.word] := by
  have single : Text.join ", " [Instruction.wordText i.word] = Instruction.wordText i.word := by
    simp [Text.join]
  rw [Instruction.text, if_pos ⟨by rw [Instruction.isKnown, unknown]; rfl, directive⟩,
    Instruction.line, single]
  rfl

theorem text_unknown {w : Word} {pc : Int64} (none : Instr.ofWord? Opcode.all w pc = none) :
    (Instruction.decode w pc).text =
      Instruction.line (Text.ofString ".long") [Instruction.wordText w] := by
  rw [decode_unknown none]
  exact text_directive rfl rfl

theorem isKnown_decode {w : Word} {pc : Int64} {i : Instr}
    (found : Instr.ofWord? Opcode.all w pc = some i) :
    (Instruction.decode w pc).isKnown = true := by
  obtain ⟨named, -⟩ := names_plain (.base i.op) (mnemonic_mem_all _)
  rw [Instruction.isKnown, base_known found]
  simpa [Mnemonic.name] using named

theorem text_known {w : Word} {pc : Int64} {i : Instr}
    (found : Instr.ofWord? Opcode.all w pc = some i) :
    (Instruction.decode w pc).text = Instruction.line (Instruction.decode w pc).op
      ((Instruction.decode w pc).operands.map Operand.text) := by
  rw [Instruction.text, if_neg (by simp [isKnown_decode found])]

theorem plain_zeroPadded (width : Nat) {t : Text} (plain : Plain t) : Plain (zeroPadded width t) := by
  apply plain_append _ plain
  intro g member
  rw [List.eq_of_mem_replicate member]
  rfl

theorem plain_wordText (w : Word) : Plain (Instruction.wordText w) :=
  plain_append (s := "0x") (by decide)
    (plain_zeroPadded 8 (plain_digits 16 _ (by decide) (by decide)))

theorem parse_wordText (w : Word) :
    Operand.parse (Instruction.wordText w) = .ok (.immediate (Int64.ofNat w.toNat)) :=
  parse_number (.inr ⟨0, by decide, rfl⟩)
    (last_digits (Text.ofString "0x" ++ List.replicate _ (.char '0')) 16 w.toNat (by decide)
      (by decide))
    (read_wordText w)

/-- The directive for a word is read as the number that the word is. -/
theorem parse_directive (w : Word) :
    Instruction.parse (Instruction.line (Text.ofString ".long") [Instruction.wordText w]) =
      .ok (.written (Text.ofString ".long") [.immediate (Int64.ofNat w.toNat)]) := by
  have parts : ∀ t ∈ [Instruction.wordText w], t ≠ [] ∧ Plain t :=
    List.forall_mem_singleton.mpr ⟨by simp [Instruction.wordText, Text.ofString], plain_wordText w⟩
  have read : [Instruction.wordText w].mapM Operand.parse =
      .ok [.immediate (Int64.ofNat w.toNat)] := by
    rw [List.mapM_cons, parse_wordText]
    rfl
  have straight : Instruction.isBranch (Text.ofString ".long") = false := isBranch_name .word
  rw [parse_texts (by decide) (by decide) parts read, straight]
  rfl

/-- What is decoded from a word is read from its text. -/
theorem parse_decode (w : Word) (pc : Int64) :
    Instruction.parse (Instruction.decode w pc).text =
      .ok (.written (Instruction.decode w pc).op (Instruction.decode w pc).operands) := by
  cases found : Instr.ofWord? Opcode.all w pc with
  | none => rw [text_unknown found, decode_unknown found, parse_directive]
  | some i => rw [text_known found, parse_line (wellFormed_decode found)]

/-- The glyphs of a line: those of operands, and what separates operands. -/
def isWritten (g : Glyph) : Bool := isPlain g || g == .char ' ' || g == .char ','

theorem written_of_plain {t : Text} (plain : Plain t) : ∀ g ∈ t, isWritten g = true := by
  intro g member
  rw [isWritten, plain g member]
  rfl

theorem join_written {separator : Text} (between : ∀ g ∈ separator, isWritten g = true)
    (texts : List Text) (plain : ∀ t ∈ texts, Plain t) :
    ∀ g ∈ Text.join separator texts, isWritten g = true := by
  induction texts with
  | nil => simp [Text.join]
  | cons first rest ih =>
    have start := written_of_plain (plain first (by simp))
    have others := ih fun t member => plain t (by simp [member])
    cases rest with
    | nil => simpa [Text.join] using start
    | cons second rest =>
      rw [join_cons_cons]
      simp only [List.forall_mem_append]
      exact ⟨⟨start, between⟩, others⟩

theorem length_join (texts : List Text) (bound : ∀ t ∈ texts, t.length ≤ 64) :
    (Text.join ", " texts).length ≤ 66 * texts.length := by
  induction texts with
  | nil => simp [Text.join]
  | cons first rest ih =>
    have start := bound first (by simp)
    have others := ih fun t member => bound t (by simp [member])
    cases rest with
    | nil =>
      simp only [Text.join, List.intersperse, List.flatten_cons, List.flatten_nil, List.append_nil,
        List.length_cons, List.length_nil]
      omega
    | cons second rest =>
      have separator : (Text.ofString ", ").length = 2 := rfl
      rw [join_cons_cons, List.length_append, List.length_append, separator, List.length_cons]
      omega

theorem length_digits (base n k : Nat) (large : 1 < base) (positive : 0 < k)
    (range : n < base ^ k) : (digits base n).length ≤ k := by
  rw [digits, List.length_map]
  exact (Nat.length_toDigits_le_iff large positive).mpr range

theorem length_decimal (v : Int64) : (decimal v.toInt).length ≤ 20 := by
  have lowest := Int64.le_toInt v
  have highest := Int64.toInt_lt v
  have short := length_digits 10 v.toInt.natAbs 19 (by decide) (by decide) (by omega)
  unfold decimal
  split
  · rw [List.length_cons]
    omega
  · omega

theorem length_hexadecimal (v : Int64) : (hexadecimal v.toInt).length ≤ 19 := by
  have lowest := Int64.le_toInt v
  have highest := Int64.toInt_lt v
  have short := length_digits 16 v.toInt.natAbs 16 (by decide) (by decide) (by omega)
  have mark : (Text.ofString "0x").length = 2 := rfl
  simp only [hexadecimal]
  split
  · rw [List.length_cons, List.length_append, mark]
    omega
  · rw [List.length_append, mark]
    omega

theorem length_text (o : Operand) : o.text.length ≤ 64 := by
  have marks : (Text.ofString "r").length = 1 ∧ (Text.ofString "f").length = 1 ∧
      (Text.ofString "cr").length = 2 ∧ (Text.ofString "(r").length = 2 ∧
      (Text.ofString ")").length = 1 ∧ (Text.ofString "?").length = 1 := by decide
  cases o with
  | register n | floatRegister n | conditionField n =>
    have number := length_decimal n
    simp only [Operand.text, List.length_append]
    omega
  | immediate v => exact Nat.le_trans (length_decimal v) (by decide)
  | memory disp base =>
    have first := length_decimal disp
    have second := length_decimal base
    simp only [Operand.text, List.length_append]
    omega
  | target address => exact Nat.le_trans (length_hexadecimal address) (by decide)
  | other n =>
    simp only [Operand.text]
    omega

theorem length_toOperands (types : List OperandType) (args : Args types) :
    (Args.toOperands types args).length = types.length := by
  induction types with
  | nil => rfl
  | cons t ts ih => exact congrArg (· + 1) (ih args.2)

theorem length_operands (m : Mnemonic) : m.operands.length ≤ 5 := by
  cases m with
  | word => decide
  | base op =>
    show op.layout.operands.length ≤ 5
    cases op.layout <;> decide
  | short a => cases a <;> simp [Mnemonic.operands, Alias.operands]

theorem length_shorten (a : Alias) (operands : List Operand) :
    (a.shorten operands).length ≤ operands.length := by
  unfold Alias.shorten
  split
  · split <;> simp
  · exact Nat.le_refl _

/-- A decoded instruction is written as a mnemonic and a few short operands. -/
theorem decode_line (w : Word) (pc : Int64) :
    ∃ (m : Mnemonic) (texts : List Text),
      (Instruction.decode w pc).text = Instruction.line m.name texts ∧ texts.length ≤ 5 ∧
        ∀ t ∈ texts, Plain t ∧ t.length ≤ 64 := by
  cases found : Instr.ofWord? Opcode.all w pc with
  | none =>
    have bound := w.isLt
    have short := length_digits 16 w.toNat 8 (by decide) (by decide) (by omega)
    have padded : (zeroPadded 8 (digits 16 w.toNat)).length = 8 := by
      rw [zeroPadded, List.length_leftpad]
      omega
    have length : (Instruction.wordText w).length = 10 := by
      rw [Instruction.wordText, List.length_append, padded]
      rfl
    refine ⟨.word, [Instruction.wordText w], text_unknown found, by simp, ?_⟩
    exact List.forall_mem_singleton.mpr ⟨plain_wordText w, by omega⟩
  | some i =>
    have formed := wellFormed_decode found
    have texts : ∀ t ∈ (Instruction.decode w pc).operands.map Operand.text,
        Plain t ∧ t.length ≤ 64 :=
      List.forall_mem_map.mpr fun o member =>
        ⟨plain_text o (formed.inRange o member), length_text o⟩
    have count : ∀ m : Mnemonic, ∀ args,
        (Args.toOperands m.operands args).length ≤ 5 := fun m args =>
      length_toOperands m.operands args ▸ length_operands m
    cases short : i.simplify with
    | none =>
      refine ⟨.base i.op, _, text_known found |>.trans ?_, ?_, texts⟩
      · rw [decode_plain found short]
        rfl
      · rw [List.length_map, decode_plain found short]
        exact count (.base i.op) i.args
    | some u =>
      refine ⟨.short u.head, _, text_known found |>.trans ?_, ?_, texts⟩
      · rw [decode_short found short]
        rfl
      · rw [List.length_map, decode_short found short]
        exact Nat.le_trans (length_shorten u.head _) (count (.short u.head) u.args)

/-- The glyphs of a decoded instruction are visible ones and blanks. -/
theorem decode_written (w : Word) (pc : Int64) :
    ∀ g ∈ (Instruction.decode w pc).text, isWritten g = true := by
  obtain ⟨m, texts, shape, -, parts⟩ := decode_line w pc
  have named := written_of_plain (names_plain m (mnemonic_mem_all m)).2.1
  rw [shape, Instruction.line]
  split
  · exact named
  · have separator : ∀ g ∈ Text.ofString " ", isWritten g = true := by decide
    simp only [List.forall_mem_append]
    exact ⟨⟨named, separator⟩, join_written (by decide) texts fun t member => (parts t member).1⟩

theorem length_decode (w : Word) (pc : Int64) : (Instruction.decode w pc).text.length ≤ 400 := by
  obtain ⟨m, texts, shape, count, parts⟩ := decode_line w pc
  have named := (names_plain m (mnemonic_mem_all m)).2.2
  have joined := length_join texts fun t member => (parts t member).2
  rw [shape, Instruction.line]
  split
  · omega
  · have separator : (Text.ofString " ").length = 1 := rfl
    rw [List.length_append, List.length_append, separator]
    omega

/-- The text of a decoded instruction is not blank. -/
theorem trim_decode (w : Word) (pc : Int64) :
    (Instruction.decode w pc).text.trim.isEmpty = false := by
  have read := parse_decode w pc
  cases blank : (Instruction.decode w pc).text.trim.isEmpty with
  | false => rfl
  | true =>
    rw [Instruction.parse, blank] at read
    cases read

end PowerAsm.Proofs.Disassembly
