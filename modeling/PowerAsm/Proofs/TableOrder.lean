import Mathlib.Data.List.Find
import PowerAsm.Instruction.Basic
import PowerAsm.Proofs.Table

/-! The order of the instruction table. Every two of its entries differ in a bit that is constant
in the words of both, wherever their masks have holes. A word therefore belongs to one entry at
most, and a search for the first one finds the same whatever the order of the table. -/
namespace PowerAsm.Proofs.TableOrder
open Table

theorem conflict_irrefl (a : Nat × Nat) : ¬ Conflict a a := by
  intro differ
  apply differ
  show (a.1 ^^^ a.1) &&& a.2 &&& a.2 = 0
  rw [Nat.xor_self, Nat.zero_and, Nat.zero_and]

/-- No entry stands twice in the table. -/
theorem all_nodup : Opcode.all.Nodup := by
  refine (List.pairwise_map.mp entries_conflict).imp fun {op other} conflict same => ?_
  rw [same] at conflict
  exact conflict_irrefl _ conflict

/-- The constant bits of an entry are among those that its mask covers, which is asked of every
entry before it can be searched for. -/
theorem value_covered (op : Opcode) : op.value &&& ~~~op.mask = 0 := by
  have covered : ∀ op ∈ Opcode.all, op.value &&& ~~~op.mask = 0 := by decide +kernel
  exact covered op (mem_all op)

/-- An entry is found under the primary opcode of each of its words, and under no other. -/
theorem mem_withPrimary_iff {table : List Opcode} {op : Opcode} (member : op ∈ table) {w : Word}
    (belongs : op.isWord w = true) (primary : Nat) :
    op ∈ Opcode.withPrimary table primary ↔ primary = w.primary := by
  rw [Opcode.withPrimary, List.mem_filter, beq_iff_eq, primary_eq_of_isWord belongs]
  exact ⟨fun found => found.2.symm, fun same => ⟨member, same.symm⟩⟩

section Order
variable {table other : List Opcode} (same : table.Perm other) (w : Word) (pc : Int64)
include same

theorem ofWord?_perm : Opcode.ofWord? table w = Opcode.ofWord? other w := by
  rw [ofWord?_eq_find?, ofWord?_eq_find?]
  refine List.find?_eq_find?_of_perm same ?_
  rintro op ⟨-, belongs⟩ op' ⟨-, belongs'⟩
  exact isWord_unique belongs belongs'

theorem decodeWith_perm :
    Instruction.decodeWith table w pc = Instruction.decodeWith other w pc := by
  rw [Instruction.decodeWith, Instruction.decodeWith, Instr.ofWord?, Instr.ofWord?,
    ofWord?_perm same]

end Order

/-- A word belongs to no two places of the table. The constant bits of each entry lie under its
mask, and every word of the entry finds it under the primary opcode of the word and no other. In
whatever order the table is searched, every word is decoded to the same instruction. -/
theorem table_unambiguous :
    (∀ (w : Word) (i j : Fin Opcode.all.length),
      w &&& Opcode.all[i].mask = Opcode.all[i].value →
      w &&& Opcode.all[j].mask = Opcode.all[j].value → i = j) ∧
    (∀ op ∈ Opcode.all, op.value &&& ~~~op.mask = 0 ∧
      ∀ w, w &&& op.mask = op.value →
        ∀ primary, op ∈ Opcode.withPrimary Opcode.all primary ↔ primary = w.primary) ∧
    ∀ table : List Opcode, table.Perm Opcode.all → ∀ (w : Word) (pc : Int64),
      Instruction.decodeWith table w pc = Instruction.decode w pc := by
  refine ⟨fun w i j first second => ?_, fun op member => ⟨value_covered op, fun w belongs => ?_⟩,
    fun table same w pc => decodeWith_perm same w pc⟩
  · rw [← isWord_eq_true_iff] at first second
    exact Fin.ext ((List.getElem_inj all_nodup).mp (isWord_unique first second))
  · exact mem_withPrimary_iff member ((isWord_eq_true_iff op w).mpr belongs)

/-- A word whose shift amount stands in a hole of the mask, searched from the last entry on. -/
theorem table_unambiguous_reversed :
    (0x7C000676#32 &&& Opcode.sradi.mask = Opcode.sradi.value ∧ Opcode.sradi ∈ Opcode.all ∧
      Opcode.all.reverse.Perm Opcode.all) ∧
    (∀ i : Fin Opcode.all.length,
      0x7C000676#32 &&& Opcode.all[i].mask = Opcode.all[i].value → i = ⟨74, by decide⟩) ∧
    Opcode.sradi ∈ Opcode.withPrimary Opcode.all 31 ∧
    Instruction.decodeWith Opcode.all.reverse 0x7C000676 0 =
      ⟨"sradi", "sradi", [.register 0, .register 0, .immediate 32], 0x7C000676⟩ := by
  have belongs : 0x7C000676#32 &&& Opcode.sradi.mask = Opcode.sradi.value := by decide
  have member := mem_all .sradi
  have turned := List.reverse_perm Opcode.all
  refine ⟨⟨belongs, member, turned⟩, fun i found => ?_, ?_, ?_⟩
  · exact table_unambiguous.1 _ i ⟨74, by decide⟩ found belongs
  · exact ((table_unambiguous.2.1 _ member).2 _ belongs 31).mpr (by decide)
  · rw [table_unambiguous.2.2 _ turned]
    decide +kernel

end PowerAsm.Proofs.TableOrder
