import PowerAsm.Instruction.Statement
import PowerAsm.Proofs.Aliases

/-! Decoded instructions. What is decoded from a word is encoded to that word again, but
for the bits that its instruction does not use. -/
namespace PowerAsm.Proofs.Decoding
open Fields Forms OperandFields Layouts Table Aliases

/-- A text as a number, so that texts are compared by numbers. -/
def code (t : Text) : Nat :=
  t.foldr (fun g n => n * 256 + match g with
    | .char c => c.toNat
    | .stray b => b.toNat) 0

private theorem names_differ :
    (Mnemonic.all.map fun m => code (Text.ofString m.name)).Nodup := by
  decide +kernel

theorem mnemonic_mem_all (m : Mnemonic) : m ∈ Mnemonic.all := by
  cases m with
  | word => exact List.mem_cons_self
  | base op =>
    exact List.mem_cons_of_mem _ (List.mem_append_left _ (List.mem_map_of_mem (mem_all op)))
  | short a =>
    refine List.mem_cons_of_mem _ (List.mem_append_right _ (List.mem_map_of_mem ?_))
    cases a with
    | branch c => cases c <;> decide
    | _ => decide

theorem name_injective (m other : Mnemonic)
    (same : Text.ofString m.name = Text.ofString other.name) : m = other := by
  have codes : code (Text.ofString m.name) = code (Text.ofString other.name) := by rw [same]
  exact eq_of_pairwise (List.pairwise_map.mp names_differ) (mnemonic_mem_all m)
    (mnemonic_mem_all other) (not_not_intro codes) (not_not_intro codes.symm)

theorem name_of_ofName? {t : Text} {m : Mnemonic} (found : Mnemonic.ofName? t = some m) :
    Text.ofString m.name = t :=
  beq_iff_eq.mp (List.find?_some (p := fun n : Mnemonic => Text.ofString n.name == t) found)

/-- Every mnemonic is found by its name. -/
theorem ofName?_name (m : Mnemonic) : Mnemonic.ofName? (Text.ofString m.name) = some m := by
  cases found : Mnemonic.ofName? (Text.ofString m.name) with
  | none => simpa using List.find?_eq_none.mp found m (mnemonic_mem_all m)
  | some other => rw [name_injective _ _ (name_of_ofName? found)]

/-- The bits of a word that its instruction does not use, by the mnemonic of the table
entry that the word matches. -/
def unusedBits (base : Text) : Word :=
  if base = ("mtcrf" : Text) then 0x00100800
  else if base = ("bclr" : Text) ∨ base = ("bcctr" : Text) ∨ base = ("bcctrl" : Text) then
    0x0000F800
  else 0

theorem unusedBits_name (op : Opcode) : unusedBits op.name = ignored op.layout := by
  have named (other : Opcode) : Text.ofString op.name = Text.ofString other.name ↔ op = other :=
    ⟨fun same => Mnemonic.base.inj (name_injective (.base op) (.base other) same),
      fun same => by rw [same]⟩
  have meant : unusedBits op.name =
      if op = .mtcrf then 0x00100800
      else if op = .bclr ∨ op = .bcctr ∨ op = .bcctrl then 0x0000F800 else 0 := by
    simp only [← named]
    rfl
  rw [meant]
  cases op <;> rfl

/-- Only the mnemonic and the operands of an instruction matter to its word. -/
theorem encode_written (i : Instruction) (pc : Int64) :
    (Instruction.written i.op i.operands).encode pc = i.encode pc := rfl

/-- A word that is given as a number is that word. -/
theorem encode_word (w : Word) (pc : Int64) :
    (Instruction.written ".long" [.immediate (Int64.ofNat w.toNat)]).encode pc = .ok w := by
  have bound := w.isLt
  have value : (Int64.ofNat w.toNat).toInt = w.toNat := Int64.toInt_ofNat_of_lt (by omega)
  have fits : fitsUnsigned (Int64.ofNat w.toNat) 32 = true :=
    fitsUnsigned_iff.mpr (by rw [value]; omega)
  have named : Mnemonic.ofName? (".long" : Text) = some .word := ofName?_name .word
  simp [Instruction.encode, Instruction.written, named, Mnemonic.encode?, Args.ofOperands?,
    OperandType.read?, fits, value, Except.mapError]

theorem decode_unknown {w : Word} {pc : Int64} (none : Instr.ofWord? Opcode.all w pc = none) :
    Instruction.decode w pc = ⟨".long", [], [.immediate (Int64.ofNat w.toNat)], w⟩ := by
  rw [Instruction.decode, Instruction.decodeWith, none]

theorem decode_plain {w : Word} {pc : Int64} {i : Instr}
    (found : Instr.ofWord? Opcode.all w pc = some i) (plain : i.simplify = none) :
    Instruction.decode w pc = ⟨i.op.name, i.op.name, i.operands, w⟩ := by
  simp only [Instruction.decode, Instruction.decodeWith, found, plain]

theorem decode_short {w : Word} {pc : Int64} {i : Instr} {u : Alias.Use}
    (found : Instr.ofWord? Opcode.all w pc = some i) (short : i.simplify = some u) :
    Instruction.decode w pc = ⟨u.head.name, i.op.name, u.operands, w⟩ := by
  simp only [Instruction.decode, Instruction.decodeWith, found, short]

theorem base_known {w : Word} {pc : Int64} {i : Instr}
    (found : Instr.ofWord? Opcode.all w pc = some i) :
    (Instruction.decode w pc).base = i.op.name := by
  cases short : i.simplify with
  | none => rw [decode_plain found short]
  | some u => rw [decode_short found short]

/-- The word of an instruction whose mnemonic is known and has taken its operands. -/
theorem encode_eq {i : Instruction} {m : Mnemonic} {pc : Int64} {word : Except Fault Word}
    (named : i.op = Text.ofString m.name) (taken : m.encode? i.operands pc = some word) :
    i.encode pc = word.mapError .fault := by
  simp only [Instruction.encode, named, ofName?_name, taken]

private theorem encode_known {w : Word} {pc : Int64} {i : Instr}
    (found : Instr.ofWord? Opcode.all w pc = some i) :
    (Instruction.decode w pc).encode pc = .ok (w &&& ~~~ignored i.op.layout) := by
  obtain ⟨belongs, read⟩ := (ofWord?_instr_eq_some_iff w pc i).mp found
  cases short : i.simplify with
  | none =>
    have taken : (Mnemonic.base i.op).encode? i.operands pc = some (i.op.encode i.args pc) := by
      rw [Mnemonic.encode?, Instr.operands, ofOperands?_toOperands, Option.map_some]
    rw [decode_plain found short, encode_eq (m := .base i.op) rfl taken, read, Opcode.encode,
      encodeAs_read _ pc belongs]
    rfl
  | some u =>
    have taken : (Mnemonic.short u.head).encode? u.operands pc =
        some (u.head.encode u.args pc) := by
      rw [Mnemonic.encode?, Alias.Use.operands, complete_shorten, ofOperands?_toOperands,
        Option.map_some]
    have encoded : u.head.encode u.args pc =
        i.op.encodeAs (u.head.title i.op) i.args pc := by
      rw [Alias.encode, expand_simplify i u w pc read short]
      rfl
    rw [decode_short found short, encode_eq (m := .short u.head) rfl taken, encoded, read,
      encodeAs_read _ pc belongs]
    rfl

/-- What is decoded from a word is encoded to that word without its unused bits. -/
theorem encode_decode (w : Word) (pc : Int64) :
    (Instruction.decode w pc).encode pc =
      .ok (w &&& ~~~unusedBits (Instruction.decode w pc).base) := by
  cases found : Instr.ofWord? Opcode.all w pc with
  | none =>
    have all : w &&& ~~~unusedBits [] = w := BitVec.and_allOnes
    rw [decode_unknown found, all, ← encode_written, encode_word]
  | some i => rw [encode_known found, base_known found, unusedBits_name]

end PowerAsm.Proofs.Decoding
