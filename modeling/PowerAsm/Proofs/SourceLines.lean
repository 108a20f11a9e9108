import PowerAsm.Source
import PowerAsm.Proofs.Disassembly

/-! Source made of lines. Lines of visible characters that are joined by line feeds are
split into the same lines again, and none of them holds a comment. -/
namespace PowerAsm.Proofs.SourceLines
open InstructionText Disassembly

/-- A line that is joined to others: short, not empty, and made of visible characters. -/
structure Proper (t : Text) : Prop where
  written : ∀ g ∈ t, isWritten g = true
  filled : t ≠ []
  short : t.length < Line.bufferSize

theorem proper_decode (w : Word) (pc : Int64) : Proper (Instruction.decode w pc).text where
  written := decode_written w pc
  filled := by
    intro empty
    have trimmed := trim_decode w pc
    rw [empty] at trimmed
    cases trimmed
  short := Nat.lt_of_le_of_lt (length_decode w pc) (by decide)

/-- A glyph of a line is one byte that is neither a line feed nor a carriage return. -/
theorem written_byte {g : Glyph} (written : isWritten g = true) :
    ∃ c : Char, g = .char c ∧ c.toNat < 128 ∧ 0x20 ≤ c.toNat ∧ c ≠ '#' := by
  cases g with
  | stray b => cases written
  | char c =>
    refine ⟨c, rfl, ?_⟩
    simp only [isWritten, isPlain, Bool.or_eq_true, Bool.and_eq_true, decide_eq_true_eq, bne_iff_ne,
      beq_iff_eq, Glyph.char.injEq] at written
    rcases written with (⟨⟨⟨low, high⟩, -⟩, hash⟩ | rfl) | rfl
    · exact ⟨by omega, by omega, hash⟩
    · decide
    · decide

theorem utf8EncodeChar_ascii {c : Char} (ascii : c.toNat < 128) :
    String.utf8EncodeChar c = [UInt8.ofNat c.toNat] := by
  have single : c.utf8Size = 1 :=
    Char.utf8Size_eq_one_iff.mpr (UInt32.le_iff_toNat_le.mpr (Nat.le_of_lt_succ ascii))
  rw [String.utf8EncodeChar_eq_singleton single]
  rfl

theorem utf8_cons {c : Char} (ascii : c.toNat < 128) (rest : Text) :
    Text.utf8 (.char c :: rest) = UInt8.ofNat c.toNat :: Text.utf8 rest := by
  show String.utf8EncodeChar c ++ Text.utf8 rest = _
  rw [utf8EncodeChar_ascii ascii]
  rfl

theorem byte_toNat {c : Char} (ascii : c.toNat < 128) :
    (UInt8.ofNat c.toNat).toNat = c.toNat := by
  rw [UInt8.toNat_ofNat']
  omega

/-- Visible characters are read from their bytes. -/
theorem ofUtf8_utf8 {t : Text} (written : ∀ g ∈ t, isWritten g = true) :
    Text.ofUtf8 t.utf8 = t := by
  induction t with
  | nil => rfl
  | cons g rest ih =>
    obtain ⟨c, rfl, ascii, -⟩ := written_byte (written g (by simp))
    have lead := byte_toNat ascii
    have first : Text.leadingChar? (UInt8.ofNat c.toNat :: Text.utf8 rest) = some (c, 1) := by
      simp [Text.leadingChar?, lead, ascii]
    rw [utf8_cons ascii, Text.ofUtf8, Text.ofUtf8Skipping, first]
    exact congrArg (.char c :: ·) (ih fun g member => written g (by simp [member]))

theorem length_utf8 {t : Text} (written : ∀ g ∈ t, isWritten g = true) :
    t.utf8.length = t.length := by
  induction t with
  | nil => rfl
  | cons g rest ih =>
    obtain ⟨c, rfl, ascii, -⟩ := written_byte (written g (by simp))
    rw [utf8_cons ascii, List.length_cons, List.length_cons,
      ih fun g member => written g (by simp [member])]

/-- No byte of a line ends it. -/
theorem utf8_bytes {t : Text} (written : ∀ g ∈ t, isWritten g = true) :
    ∀ b ∈ t.utf8, b ≠ 0x0A ∧ b ≠ 0x0D := by
  induction t with
  | nil => simp [Text.utf8]
  | cons g rest ih =>
    obtain ⟨c, rfl, ascii, visible, -⟩ := written_byte (written g (by simp))
    have value := byte_toNat ascii
    rw [utf8_cons ascii]
    refine List.forall_mem_cons.mpr ⟨⟨?_, ?_⟩, ih fun g member => written g (by simp [member])⟩
    · intro same
      rw [same] at value
      exact absurd value (by show 10 ≠ _; omega)
    · intro same
      rw [same] at value
      exact absurd value (by show 13 ≠ _; omega)

theorem pieces_append (start bytes rest : List UInt8) (none : ∀ b ∈ bytes, b ≠ 0x0A) :
    Line.pieces start (bytes ++ 0x0A :: rest) = (start.reverse ++ bytes) :: Line.pieces [] rest := by
  induction bytes generalizing start with
  | nil => simp [Line.pieces]
  | cons b bytes ih =>
    rw [List.cons_append, Line.pieces, if_neg (none b (by simp)),
      ih (b :: start) fun b member => none b (by simp [member])]
    simp

theorem pieces_last (start bytes : List UInt8) (none : ∀ b ∈ bytes, b ≠ 0x0A)
    (filled : start ++ bytes ≠ []) : Line.pieces start bytes = [start.reverse ++ bytes] := by
  induction bytes generalizing start with
  | nil =>
    have some : start.isEmpty = false := by simpa using filled
    rw [Line.pieces, some]
    simp
  | cons b bytes ih =>
    rw [Line.pieces, if_neg (none b (by simp)),
      ih (b :: start) (fun b member => none b (by simp [member])) (by simp)]
    simp

theorem utf8_append (s t : Text) : Text.utf8 (s ++ t) = s.utf8 ++ t.utf8 := by
  simp [Text.utf8]

theorem utf8_ne_nil {t : Text} (proper : Proper t) : t.utf8 ≠ [] := by
  intro empty
  have length := length_utf8 proper.written
  rw [empty] at length
  exact proper.filled (List.eq_nil_of_length_eq_zero length.symm)

theorem pieces_join (lines : List Text) (proper : ∀ t ∈ lines, Proper t) :
    Line.pieces [] (Text.utf8 (Text.join "\n" lines)) = lines.map Text.utf8 := by
  induction lines with
  | nil => rfl
  | cons first rest ih =>
    have start := proper first (by simp)
    have ends : ∀ b ∈ first.utf8, b ≠ 0x0A := fun b member => (utf8_bytes start.written b member).1
    cases rest with
    | nil =>
      have single : Text.join "\n" [first] = first := by simp [Text.join]
      rw [single, pieces_last [] first.utf8 ends (by simpa using utf8_ne_nil start)]
      simp
    | cons second rest =>
      have feed : Text.utf8 (Text.ofString "\n") = [0x0A] := by decide
      rw [join_cons_cons, utf8_append, utf8_append, feed, List.append_assoc, List.singleton_append,
        pieces_append [] first.utf8 _ ends, ih fun t member => proper t (by simp [member])]
      simp

/-- Lines that are joined by line feeds are the lines of the source. -/
theorem split_join (lines : List Text) (proper : ∀ t ∈ lines, Proper t) :
    Line.split (Text.utf8 (Text.join "\n" lines)) = lines.map fun t => some t.utf8 := by
  rw [Line.split, pieces_join lines proper, List.map_map]
  apply List.map_congr_left
  intro t member
  have line := proper t member
  have bytes := utf8_bytes line.written
  have kept : Line.dropReturn t.utf8 = t.utf8 := by
    rw [Line.dropReturn, if_neg]
    intro last
    exact (bytes _ (List.mem_of_getLast? last)).2 rfl
  have fits : t.utf8.length < Line.bufferSize := by
    rw [length_utf8 line.written]
    exact line.short
  show Line.ofPiece t.utf8 = some t.utf8
  rw [Line.ofPiece, if_pos fits, kept]

theorem withoutComment_eq_self {t : Text} (written : ∀ g ∈ t, isWritten g = true) :
    Source.withoutComment t = t := by
  have visible : ∀ g ∈ t, (g != .char '#') = true := by
    intro g member
    obtain ⟨c, rfl, -, -, plain⟩ := written_byte (written g member)
    simpa using plain
  rw [Source.withoutComment, ← List.append_nil t, List.takeWhile_append_of_pos visible]
  rfl

end PowerAsm.Proofs.SourceLines
