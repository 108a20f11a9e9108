import PowerAsm.Proofs.Expansion

/-! Reading an instruction undoes writing it. What is read is always an instruction that can be
written, and what can be written is read as it was, with the mnemonic deciding whether the number
in the last place is the address of a branch. -/
namespace PowerAsm.Proofs.TextRoundTrip
open InstructionText Decoding Disassembly Expansion

/-- The mnemonics whose last operand is the address that they lead to. -/
def branchNames : List String :=
  ["bc", "bcl", "b", "bl", "beq", "bne", "blt", "bge", "bgt", "ble"]

def NamesBranch (op : Text) : Prop := ∃ name ∈ branchNames, op = Text.ofString name

theorem map_leadsTo : (Mnemonic.all.filter Mnemonic.leadsTo).map Mnemonic.name = branchNames := by
  decide +kernel

theorem isBranch_iff (op : Text) : Instruction.isBranch op = true ↔ NamesBranch op := by
  rw [NamesBranch, ← map_leadsTo]
  constructor
  · intro branch
    cases found : Mnemonic.ofName? op with
    | none =>
      rw [Instruction.isBranch, found] at branch
      cases branch
    | some m =>
      rw [Instruction.isBranch, found, Option.any_some] at branch
      have listed := List.mem_filter.mpr ⟨mnemonic_mem_all m, branch⟩
      exact ⟨m.name, List.mem_map_of_mem listed, (name_of_ofName? found).symm⟩
  · rintro ⟨name, listed, rfl⟩
    obtain ⟨m, member, rfl⟩ := List.mem_map.mp listed
    rw [isBranch_name]
    exact (List.mem_filter.mp member).2

/-- The operands of an instruction with this mnemonic are as they can be written. -/
structure Formed (op : Text) (operands : List Operand) : Prop where
  /-- Every operand is of a kind that instructions take, and its registers exist. -/
  inRange : ∀ o ∈ operands, InRange o
  /-- A branch target stands last, after the mnemonic of a branch. -/
  targets : ∀ k address, operands[k]? = some (.target address) →
    k + 1 = operands.length ∧ NamesBranch op
  /-- No other number stands there. -/
  numbers : NamesBranch op → ∀ v, operands.getLast? ≠ some (.immediate v)

section Operands
variable {op : Text} {operands : List Operand}

/-- Operands among which there is no target are those of a mnemonic that is no branch. -/
theorem formed_straight (read : ∀ o ∈ operands, InRange o ∧ ∀ address, o ≠ .target address)
    (straight : ¬ NamesBranch op) : Formed op operands where
  inRange := fun o member => (read o member).1
  targets := fun _ address found =>
    absurd rfl ((read _ (List.mem_of_getElem? found)).2 address)
  numbers := fun branch => absurd branch straight

theorem modifyLast_append (f : Operand → Operand) (front : List Operand) (last : Operand) :
    Instruction.modifyLast f (front ++ [last]) = front ++ [f last] := by
  simp [Instruction.modifyLast]

/-- Made a target, the number in the last place gives those of a branch. -/
theorem formed_branch (read : ∀ o ∈ operands, InRange o ∧ ∀ address, o ≠ .target address)
    (branch : NamesBranch op) : Formed op (Instruction.modifyLast Operand.asTarget operands) := by
  have inRange := modifyLast_inRange fun o member => (read o member).1
  rcases List.eq_nil_or_concat operands with rfl | ⟨front, last, shape⟩
  · exact ⟨inRange, nofun, nofun⟩
  · rw [List.concat_eq_append] at shape
    subst shape
    rw [modifyLast_append] at inRange ⊢
    refine ⟨inRange, fun k address found => ⟨?_, branch⟩, fun _ v found => ?_⟩
    · by_cases inner : k < front.length
      · rw [List.getElem?_append_left inner] at found
        have member := List.mem_append_left [last] (List.mem_of_getElem? found)
        exact absurd rfl ((read _ member).2 address)
      · have bound := (List.getElem?_eq_some_iff.mp found).1
        rw [List.length_append, List.length_singleton] at bound ⊢
        omega
    · rw [List.getLast?_concat] at found
      cases last <;> cases found

/-- The operands of an instruction that was read can be written. -/
theorem formed_parse {t : Text} {i : Instruction} (parsed : Instruction.parse t = .ok i) :
    Formed i.op i.operands := by
  obtain ⟨operands, read, same⟩ := parse_operands parsed
  rw [same]
  split
  · next branch => exact formed_branch read ((isBranch_iff i.op).mp branch)
  · next straight => exact formed_straight read fun branch => straight ((isBranch_iff i.op).mpr branch)

/-- With a mnemonic that has no blanks, they can be read again. -/
theorem Formed.wellFormed (formed : Formed op operands) (named : op ≠ [])
    (solid : ∀ g ∈ op, g.isBlank = false) : WellFormed op operands where
  named := named
  solid := solid
  inRange := formed.inRange
  inner := by
    rintro _ member address rfl
    obtain ⟨k, bound, found⟩ := List.getElem_of_mem member
    rw [List.length_dropLast] at bound
    rw [List.getElem_dropLast] at found
    have last := (formed.targets k address (List.getElem?_eq_some_iff.mpr ⟨_, found⟩)).1
    omega
  last := by
    intro o last
    split
    · next branch =>
      rintro v rfl
      exact formed.numbers ((isBranch_iff op).mp branch) v last
    · next straight =>
      rintro address rfl
      rw [List.getLast?_eq_getElem?] at last
      exact straight ((isBranch_iff op).mpr (formed.targets _ address last).2)

end Operands

/-- Whatever text is read gives an instruction that can be written, and reading what is written for
an instruction gives its mnemonic and its operands. The mnemonic may be any text without blanks,
and stands alone if there are no operands. The directive for a word that was decoded is written
with the word, which is its only operand. -/
theorem parse_undoes_text :
    (∀ t i, Instruction.parse t = .ok i → Formed i.op i.operands) ∧
    ∀ i : Instruction, i.op ≠ [] → (∀ g ∈ i.op, g.isBlank = false) → Formed i.op i.operands →
      (i.op = Text.ofString ".long" → i.base = [] →
        i.operands = [.immediate (Int64.ofNat i.word.toNat)]) →
      Instruction.parse i.text = .ok (.written i.op i.operands) := by
  refine ⟨fun t i parsed => formed_parse parsed, fun i named solid formed directive => ?_⟩
  by_cases own : i.op = Text.ofString ".long" ∧ i.base = []
  · rw [text_directive own.2 own.1, parse_directive, directive own.1 own.2, own.1]
  · have plain : i.text = Instruction.line i.op (i.operands.map Operand.text) := by
      rw [Instruction.text, if_neg]
      rintro ⟨unknown, same⟩
      refine own ⟨same, ?_⟩
      simpa [Instruction.isKnown] using unknown
    rw [plain, parse_line (formed.wellFormed named solid)]

/-- The lowest address that a branch can lead to, read with blanks around it, and then written. -/
theorem parse_undoes_text_lowest :
    Instruction.parse " bne\tcr7 , -0x8000000000000000 " =
      .ok (.written "bne" [.conditionField 7, .target (-0x8000000000000000)]) ∧
    Formed "bne" [.conditionField 7, .target (-0x8000000000000000)] ∧
    Instruction.parse (Instruction.text
        ⟨"bne", "bc", [.conditionField 7, .target (-0x8000000000000000)], 0x409E0000⟩) =
      .ok (.written "bne" [.conditionField 7, .target (-0x8000000000000000)]) := by
  have read : Instruction.parse " bne\tcr7 , -0x8000000000000000 " =
    .ok (.written "bne" [.conditionField 7, .target (-0x8000000000000000)]) := by decide +kernel
  have formed : Formed "bne" [.conditionField 7, .target (-0x8000000000000000)] :=
    parse_undoes_text.1 _ _ read
  exact ⟨read, formed, parse_undoes_text.2 ⟨"bne", "bc", _, _⟩ (by decide) (by decide) formed
    (fun directive => absurd directive (by decide))⟩

end PowerAsm.Proofs.TextRoundTrip
