import PowerAsm.Proofs.Aliases
import PowerAsm.Proofs.Branches

/-! Words of 64-bit rotates. Taking the operands out of such a word and packing operands into one
are inverse to each other, although the shift amount and the bound of the mask each have their
highest bit apart from the other five. -/
namespace PowerAsm.Proofs.RotateWords
open Forms OperandFields Aliases Branches

/-- Operands for which a word has room. -/
structure InRange (f : RotateFields) : Prop where
  rs : 0 ≤ f.rs.toInt ∧ f.rs.toInt ≤ 31
  ra : 0 ≤ f.ra.toInt ∧ f.ra.toInt ≤ 31
  shift : 0 ≤ f.shift.toInt ∧ f.shift.toInt ≤ 63
  bound : 0 ≤ f.bound.toInt ∧ f.bound.toInt ≤ 63
  extended : 0 ≤ f.extended.toInt ∧ f.extended.toInt ≤ 7

/-- The word of a 64-bit rotate with these operands. -/
def encode (op : String) (f : RotateFields) : Except EncodingError Word :=
  Format.rotate op 30 f.rs f.ra f.shift f.bound f.extended f.record

section Words
variable {op : String} {f : RotateFields} {w : Word}

theorem encode_eq_md (op : String) (f : RotateFields) :
    encode op f = Format.md op 30 f.rs f.ra f.shift f.bound f.extended f.record := by
  rw [encode, Format.rotate, if_neg (by decide), if_pos rfl]

theorem primary_eq_iff (w : Word) : 30 = w.unsigned 26 6 ↔ w.primary = 30 := by
  constructor
  · exact primary_of_unsigned (by decide)
  · intro rotate
    show 30 = Int64.ofNat w.primary
    rw [rotate]
    rfl

/-- Operands are packed into the word that has the primary opcode of rotates, and from which they
are read. -/
theorem encode_eq_ok_iff : encode op f = .ok w ↔ w.primary = 30 ∧ f = .ofWord w := by
  obtain ⟨rs, ra, shift, bound, extended, record⟩ := f
  rw [encode_eq_md, md_eq_ok_iff, primary_eq_iff, RotateFields.ofWord, RotateFields.mk.injEq]

/-- What is read from a word fits into a word again. -/
theorem inRange_ofWord (w : Word) : InRange (.ofWord w) := by
  have rs := field_bound w 21 5 (by decide)
  have ra := field_bound w 16 5 (by decide)
  have extended := field_bound w 2 3 (by decide)
  exact ⟨⟨rs.1, Int.le_of_lt_add_one rs.2⟩, ⟨ra.1, Int.le_of_lt_add_one ra.2⟩, split_bound w 11 1,
    split_bound w 6 5, ⟨extended.1, Int.le_of_lt_add_one extended.2⟩⟩

/-- Operands that are in range are packed. -/
theorem exists_word (inRange : InRange f) : ∃ w, encode op f = .ok w := by
  have rs : fitsUnsigned f.rs 5 = true :=
    fitsUnsigned_iff.mpr ⟨inRange.rs.1, Int.lt_add_one_of_le inRange.rs.2⟩
  have ra : fitsUnsigned f.ra 5 = true :=
    fitsUnsigned_iff.mpr ⟨inRange.ra.1, Int.lt_add_one_of_le inRange.ra.2⟩
  have shift : fitsUnsigned f.shift 6 = true :=
    fitsUnsigned_iff.mpr ⟨inRange.shift.1, Int.lt_add_one_of_le inRange.shift.2⟩
  have bound : fitsUnsigned f.bound 6 = true :=
    fitsUnsigned_iff.mpr ⟨inRange.bound.1, Int.lt_add_one_of_le inRange.bound.2⟩
  have extended : fitsUnsigned f.extended 3 = true :=
    fitsUnsigned_iff.mpr ⟨inRange.extended.1, Int.lt_add_one_of_le inRange.extended.2⟩
  have opcode : fitsUnsigned 30 6 = true := by decide
  refine ⟨_, (encode_eq_md op f).trans (pack_eq_ok_iff.mpr ⟨?_, rfl⟩)⟩
  simp [opcode, rs, ra, shift, bound, extended]

end Words

/-- Every word of a rotate is packed again from what is read from it. Operands are packed exactly
when they are in range, and are then read again from the word. -/
theorem rotate_words_inverse (op : String) :
    (∀ w : Word, w.primary = 30 → encode op (.ofWord w) = .ok w) ∧
    ∀ f : RotateFields, ((∃ w, encode op f = .ok w) ↔ InRange f) ∧
      ∀ w, encode op f = .ok w → w.primary = 30 ∧ RotateFields.ofWord w = f := by
  refine ⟨fun w rotate => encode_eq_ok_iff.mpr ⟨rotate, rfl⟩, fun f => ⟨⟨?_, exists_word⟩, ?_⟩⟩
  · rintro ⟨w, encoded⟩
    obtain ⟨-, rfl⟩ := encode_eq_ok_iff.mp encoded
    exact inRange_ofWord w
  · intro w encoded
    obtain ⟨primary, rfl⟩ := encode_eq_ok_iff.mp encoded
    exact ⟨primary, rfl⟩

/-- All operands at their largest fill the word; a bound that is one larger is refused. -/
theorem rotate_words_inverse_largest :
    encode "rldcl" ⟨31, 31, 63, 63, 7, true⟩ = .ok 0x7BFFFFFF ∧
      RotateFields.ofWord 0x7BFFFFFF = ⟨31, 31, 63, 63, 7, true⟩ ∧
      ¬ ∃ w, encode "rldcl" ⟨31, 31, 63, 64, 7, true⟩ = .ok w := by
  have packed : encode "rldcl" ⟨31, 31, 63, 63, 7, true⟩ = .ok 0x7BFFFFFF :=
    (rotate_words_inverse "rldcl").1 0x7BFFFFFF (by decide)
  refine ⟨packed, ((rotate_words_inverse "rldcl").2 _).2 _ packed |>.2, fun found => ?_⟩
  have bound := ((rotate_words_inverse "rldcl").2 _).1.mp found |>.bound.2
  exact absurd bound (by decide)

end PowerAsm.Proofs.RotateWords
