import PowerAsm.Proofs.Layouts

/-! The instruction table. No word belongs to two entries, so the entry found for a word
is the only one it belongs to, and every entry encodes the operands it reads. -/
namespace PowerAsm.Proofs.Table
open Fields Integers Forms OperandFields Layouts

theorem mem_all (op : Opcode) : op ∈ Opcode.all := by
  cases op <;> decide

/-- Members of a list that are not related either way are the same where the list relates
every two of its places. -/
theorem eq_of_pairwise {α : Type} {l : List α} {r : α → α → Prop} (related : l.Pairwise r)
    {a b : α} (first : a ∈ l) (second : b ∈ l) (forward : ¬ r a b) (backward : ¬ r b a) :
    a = b := by
  obtain ⟨i, inside, rfl⟩ := List.getElem_of_mem first
  obtain ⟨j, within, rfl⟩ := List.getElem_of_mem second
  have apart := List.pairwise_iff_getElem.mp related
  rcases Nat.lt_trichotomy i j with before | same | after
  · exact absurd (apart i j inside within before) forward
  · subst same
    rfl
  · exact absurd (apart j i within inside after) backward

/-- Two pairs of constant bits and a mask differ in a bit that both masks cover. -/
def Conflict (a b : Nat × Nat) : Prop := Nat.land (Nat.land (Nat.xor a.1 b.1) a.2) b.2 ≠ 0

instance (a b : Nat × Nat) : Decidable (Conflict a b) := inferInstanceAs (Decidable (_ ≠ _))

theorem entries_conflict :
    (Opcode.all.map fun op => (op.value.toNat, op.mask.toNat)).Pairwise Conflict := by
  decide +kernel

theorem isWord_eq_true_iff (op : Opcode) (w : Word) :
    op.isWord w = true ↔ w &&& op.mask = op.value := by
  rw [Opcode.isWord, beq_iff_eq]

private theorem no_conflict {op other : Opcode} {w : Word} (first : op.isWord w = true)
    (second : other.isWord w = true) :
    ¬ Conflict (op.value.toNat, op.mask.toNat) (other.value.toNat, other.mask.toNat) := by
  rw [isWord_eq_true_iff] at first second
  have same : (op.value ^^^ other.value) &&& op.mask &&& other.mask = 0#32 := by
    rw [← first, ← second]
    ext i inside
    simp only [BitVec.getElem_and, BitVec.getElem_xor, BitVec.getElem_zero]
    cases w[i] <;> cases op.mask[i] <;> cases other.mask[i] <;> rfl
  intro differ
  exact differ (congrArg BitVec.toNat same)

/-- No word belongs to two entries of the table. -/
theorem isWord_unique {op other : Opcode} {w : Word} (first : op.isWord w = true)
    (second : other.isWord w = true) : op = other :=
  eq_of_pairwise (List.pairwise_map.mp entries_conflict) (mem_all op) (mem_all other)
    (no_conflict first second) (no_conflict second first)

private theorem mask_primary (l : Layout) : l.mask.extractLsb' 26 6 = BitVec.allOnes 6 := by
  cases l <;> decide

theorem primary_eq_of_isWord {op : Opcode} {w : Word} (belongs : op.isWord w = true) :
    op.value.primary = w.primary := by
  rw [isWord_eq_true_iff] at belongs
  unfold Word.primary
  rw [← belongs, BitVec.extractLsb'_and, Opcode.mask, mask_primary, BitVec.and_allOnes]

/-- Entries with another primary opcode can be left out of the search. -/
theorem ofWord?_eq_find? (table : List Opcode) (w : Word) :
    Opcode.ofWord? table w = table.find? (·.isWord w) := by
  rw [Opcode.ofWord?, Opcode.withPrimary, List.find?_filter]
  congr 1
  funext op
  rw [Bool.eq_iff_iff, decide_eq_true_iff, beq_iff_eq]
  exact ⟨And.right, fun belongs => ⟨primary_eq_of_isWord belongs, belongs⟩⟩

/-- The entry found for a word is the one it belongs to. -/
theorem ofWord?_eq_some_iff (w : Word) (op : Opcode) :
    Opcode.ofWord? Opcode.all w = some op ↔ op.isWord w = true := by
  rw [ofWord?_eq_find?]
  constructor
  · intro found
    exact List.find?_some (p := (Opcode.isWord · w)) found
  · intro belongs
    cases found : Opcode.all.find? (·.isWord w) with
    | none => exact absurd belongs (List.find?_eq_none.mp found op (mem_all op))
    | some other => rw [isWord_unique belongs (List.find?_some (p := (Opcode.isWord · w)) found)]

theorem ofWord?_instr_eq_some_iff (w : Word) (pc : Int64) (i : Instr) :
    Instr.ofWord? Opcode.all w pc = some i ↔ i.op.isWord w = true ∧ i.args = i.op.read w pc := by
  obtain ⟨op, args⟩ := i
  simp only [Instr.ofWord?, Option.map_eq_some_iff, ofWord?_eq_some_iff]
  constructor
  · rintro ⟨op, belongs, ⟨⟩⟩
    exact ⟨belongs, rfl⟩
  · rintro ⟨belongs, rfl⟩
    exact ⟨op, belongs, rfl⟩

/-- An entry encodes its operands to the words of its own that have nothing in their
unused bits and from which the operands are read. -/
theorem encodeAs_eq_ok_iff (title : String) (op : Opcode) (args : Args op.operands) (pc : Int64)
    (w : Word) :
    op.encodeAs title args pc = .ok w ↔
      op.isWord w = true ∧ w &&& ignored op.layout = 0#32 ∧
        ArgsAgree (signedHalf op.layout) op.operands args (op.read w pc) := by
  rw [isWord_eq_true_iff]
  exact encode_eq_ok_iff (opcode_admitted op) title pc args w

/-- A word that was encoded is found with its operands, where none of them can be written in two
ways. -/
theorem ofWord?_of_encodeAs {title : String} {op : Opcode} {args : Args op.operands} {pc : Int64}
    {w : Word} (numbers : signedHalf op.layout = true → .immediate ∉ op.operands)
    (addresses : .memory ∉ op.operands) (encoded : op.encodeAs title args pc = .ok w) :
    Instr.ofWord? Opcode.all w pc = some ⟨op, args⟩ := by
  obtain ⟨belongs, -, agree⟩ := (encodeAs_eq_ok_iff title op args pc w).mp encoded
  exact (ofWord?_instr_eq_some_iff w pc _).mpr
    ⟨belongs, eq_of_argsAgree numbers addresses agree⟩

theorem sameHalf_refl (v : Int64) : SameHalf v v := .inl rfl

theorem valueAgrees_refl (half : Bool) (t : OperandType) (v : t.Value) : ValueAgrees half t v v := by
  cases t with
  | immediate => cases half <;> simp [ValueAgrees, sameHalf_refl]
  | memory => exact ⟨rfl, sameHalf_refl _⟩
  | _ => rfl

theorem argsAgree_refl (half : Bool) (types : List OperandType) (args : Args types) :
    ArgsAgree half types args args := by
  induction types with
  | nil => trivial
  | cons t ts ih => exact ⟨valueAgrees_refl half t args.1, ih args.2⟩

private theorem ignored_outside_mask (l : Layout) : ~~~ignored l &&& l.mask = l.mask := by
  cases l <;> decide

private theorem unsigned_clear (w bits : Word) (low width : Nat)
    (outside : (~~~bits).extractLsb' low width = BitVec.allOnes width) :
    (w &&& ~~~bits).unsigned low width = w.unsigned low width := by
  rw [Word.unsigned, BitVec.extractLsb'_and, outside, BitVec.and_allOnes, Word.unsigned]

/-- No operand stands in the unused bits. -/
theorem read_clear (l : Layout) (w : Word) (pc : Int64) :
    l.read (w &&& ~~~ignored l) pc = l.read w pc := by
  cases l with
  | boBi =>
    simp only [Layout.read, Layout.fieldA, Layout.fieldB]
    rw [unsigned_clear w _ 21 5 (by decide), unsigned_clear w _ 16 5 (by decide)]
  | maskRs =>
    simp only [Layout.read, Layout.fieldA]
    rw [unsigned_clear w _ 21 5 (by decide), unsigned_clear w _ 12 8 (by decide)]
  | _ =>
    have whole : w &&& ~~~(0#32) = w := by rw [BitVec.not_zero, BitVec.and_allOnes]
    exact congrArg (Layout.read · pc _) whole

/-- The operands of a word, encoded again, give the word without its unused bits. -/
theorem encodeAs_read (title : String) {op : Opcode} {w : Word} (pc : Int64)
    (belongs : op.isWord w = true) :
    op.encodeAs title (op.read w pc) pc = .ok (w &&& ~~~ignored op.layout) := by
  rw [encodeAs_eq_ok_iff, isWord_eq_true_iff, BitVec.and_assoc, BitVec.and_assoc]
  refine ⟨?_, ?_, ?_⟩
  · rw [Opcode.mask, ignored_outside_mask]
    exact (isWord_eq_true_iff op w).mp belongs
  · rw [BitVec.not_and_self]
    exact BitVec.and_zero
  · rw [Opcode.read, Opcode.read, read_clear]
    exact argsAgree_refl _ _ _

end PowerAsm.Proofs.Table
