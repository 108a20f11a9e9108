import PowerAsm.Proofs.SourceLines
import PowerAsm.Proofs.Storage

/-! Disassembled code assembles to itself. The texts of the decoded words, one to a line,
are source; assembling it at the same base address writes every word again, with only
the bits cleared that its instruction does not use. -/
namespace PowerAsm.Proofs.Reassembly
open Decoding Disassembly SourceLines Storage Listing

theorem words_flatMap (order : ByteOrder) (ws : List Word) :
    order.words (ws.flatMap order.bytes) = ws := by
  induction ws with
  | nil => rfl
  | cons w ws ih =>
    obtain ⟨b0, b1, b2, b3, bytes, word⟩ := bytes_eq order w
    rw [List.flatMap_cons, bytes]
    show order.word b0 b1 b2 b3 :: order.words (ws.flatMap order.bytes) = w :: ws
    rw [word, ih]

theorem length_words (order : ByteOrder) (code : List UInt8) :
    (order.words code).length = code.length / 4 := by
  fun_induction ByteOrder.words order code with
  | case1 b0 b1 b2 b3 rest ih =>
    simp only [List.length_cons, ih]
    omega
  | case2 code short =>
    match code, short with
    | [], _ | [_], _ | [_, _], _ | [_, _, _], _ => simp
    | b0 :: b1 :: b2 :: b3 :: rest, short => exact (short b0 b1 b2 b3 rest rfl).elim

/-- The text of a word at its address. -/
def text (place : Int64 × Word) : Text := (Instruction.decode place.2 place.1).text

/-- What is left of a word: the bits that its instruction uses. -/
def used (place : Int64 × Word) : Word :=
  place.2 &&& ~~~unusedBits (Instruction.decode place.2 place.1).base

/-- Source for the code that is loaded at `base`. -/
def source (order : ByteOrder) (base : Int64) (code : List UInt8) : List UInt8 :=
  Text.utf8 (Text.join "\n" ((placed base (order.words code)).map text))

/-- The words with their addresses, when `before` words stand at `base` already. -/
def placedAfter (base : Int64) (before : Nat) (words : List Word) : List (Int64 × Word) :=
  (words.zipIdx before).map fun (w, index) => (base + Int64.ofNat (4 * index), w)

theorem placedAfter_cons (base : Int64) (before : Nat) (w : Word) (words : List Word) :
    placedAfter base before (w :: words) =
      (base + Int64.ofNat (4 * before), w) :: placedAfter base (before + 1) words := rfl

theorem length_placedAfter (base : Int64) (before : Nat) (words : List Word) :
    (placedAfter base before words).length = words.length := by
  simp [placedAfter]

/-- The text of a word at the address of the word encodes to what is used of it. -/
theorem encode_text (w : Word) (pc : Int64) :
    (Instruction.written (Instruction.decode w pc).op (Instruction.decode w pc).operands).encode pc =
      .ok (used (pc, w)) := by
  rw [encode_written]
  exact encode_decode w pc

/-- Assembling the text of a word at its address writes the word. -/
theorem assembleLine_text {a : Assembly} {ws : List Word} (code : Code a ws) (base : Int64)
    (w : Word) :
    Source.assembleLine base (text (base + Int64.ofNat (4 * ws.length), w)) a =
      match Asm.emit (used (base + Int64.ofNat (4 * ws.length), w)) a with
      | .ok () a' => .ok () a'
      | .error fault a' => .error (.statement (.fault fault)) a' := by
  simp only [Source.assembleLine, text, parse_decode, Asm.statement, code.length, encode_text]
  cases Asm.emit (used (base + Int64.ofNat (4 * ws.length), w)) a with
  | ok u a' => rfl
  | error fault a' => rfl

/-- A visible line is assembled as it stands. -/
theorem assembleLines_cons {t : Text} (written : ∀ g ∈ t, isWritten g = true)
    (filled : t.trim.isEmpty = false) (base : Int64) (number : Nat)
    (rest : List (Option (List UInt8))) (a : Assembly) :
    Source.assembleLines base number (some t.utf8 :: rest) a =
      match Source.assembleLine base t a with
      | .ok () a => Source.assembleLines base (number + 1) rest a
      | .error e a => .error (.line number e) a := by
  rw [Source.assembleLines]
  simp only [ofUtf8_utf8 written, withoutComment_eq_self written, filled]
  rfl

/-- The lines that hold the texts of words. -/
def textLines (places : List (Int64 × Word)) : List (Option (List UInt8)) :=
  (places.map text).map fun t => some t.utf8

theorem assembleLines_text {a : Assembly} {ws : List Word} (code : Code a ws) (base : Int64)
    (number : Nat) (w : Word) (rest : List (Option (List UInt8))) :
    Source.assembleLines base number
        (some (text (base + Int64.ofNat (4 * ws.length), w)).utf8 :: rest) a =
      match Asm.emit (used (base + Int64.ofNat (4 * ws.length), w)) a with
      | .ok () a => Source.assembleLines base (number + 1) rest a
      | .error fault a => .error (.line number (.statement (.fault fault))) a := by
  refine (assembleLines_cons (decode_written w _) (trim_decode w _) base number rest a).trans ?_
  have line := assembleLine_text code base w
  simp only [text] at line ⊢
  rw [line]
  cases Asm.emit (used (base + Int64.ofNat (4 * ws.length), w)) a with
  | ok u a' => rfl
  | error fault a' => rfl

/-- Assembling the texts of words writes them after what is written already, as long as
there is storage for them. -/
theorem assembleLines_textLines (base : Int64) (words : List Word) {a : Assembly}
    {ws : List Word} (number : Nat) (code : Code a ws)
    (room : 4 * (ws.length + words.length) ≤ largest) :
    ∃ a', Source.assembleLines base number (textLines (placedAfter base ws.length words)) a =
        .ok () a' ∧
      Code a' (ws ++ (placedAfter base ws.length words).map used) ∧
      a'.segment.order = a.segment.order := by
  induction words generalizing a ws number with
  | nil => exact ⟨a, rfl, by simpa [placedAfter] using code, rfl⟩
  | cons w words ih =>
    rw [List.length_cons] at room
    let place := (base + Int64.ofNat (4 * ws.length), w)
    obtain ⟨next, emitted, code', order, -⟩ := emit_code code (used place) (by omega)
    have count : (ws ++ [used place]).length = ws.length + 1 := by simp
    obtain ⟨a', later, code'', order'⟩ := ih (number + 1) code' (by rw [count]; omega)
    rw [count] at later code''
    refine ⟨a', ?_, ?_, order'.trans order⟩
    · refine (assembleLines_text code base number w _).trans ?_
      rw [emitted]
      exact later
    · rw [placedAfter_cons, List.map_cons, List.append_cons]
      exact code''

/-- The first word for which there is no storage is refused, at its line. -/
theorem assembleLines_full (base : Int64) (words : List Word) {a : Assembly} {ws : List Word}
    (number : Nat) (code : Code a ws) (past : largest < 4 * (ws.length + words.length)) :
    ∃ a', Source.assembleLines base number (textLines (placedAfter base ws.length words)) a =
      .error (.line (number + (largest / 4 - ws.length)) (.statement (.fault .outOfBounds))) a' := by
  induction words generalizing a ws number with
  | nil =>
    have bound := code.length_le
    rw [List.length_nil] at past
    omega
  | cons w words ih =>
    have bound := code.length_le
    rw [List.length_cons] at past
    let place := (base + Int64.ofNat (4 * ws.length), w)
    by_cases room : 4 * (ws.length + 1) ≤ largest
    · obtain ⟨next, emitted, code', -⟩ := emit_code code (used place) room
      have count : (ws ++ [used place]).length = ws.length + 1 := by simp
      obtain ⟨a', later⟩ := ih (number + 1) code' (by rw [count]; omega)
      have same : number + 1 + (largest / 4 - (ws.length + 1)) =
          number + (largest / 4 - ws.length) := by omega
      rw [count, same] at later
      refine ⟨a', (assembleLines_text code base number w _).trans ?_⟩
      rw [emitted]
      exact later
    · have refused := emit_full code (used place) (by omega)
      have last : largest / 4 - ws.length = 0 := by omega
      refine ⟨a, (assembleLines_text code base number w _).trans ?_⟩
      rw [refused, last]
      rfl

/-- Disassembling and assembling again reproduces the code: the same number of bytes, and
every word with its unused bits cleared. Only code that no storage can hold is refused. -/
theorem assemble_source (target : Target) (order : ByteOrder) (base : Int64) (code : List UInt8)
    (whole : code.length % 4 = 0) :
    (code.length ≤ largest →
      ∃ a out, Source.assemble base (source order base code) (.fresh target order) = .ok () a ∧
        a.assembler.buffer.bytes a.segment = .ok out ∧ out.length = code.length ∧
        order.words out = (placed base (order.words code)).map used) ∧
    (largest < code.length →
      ∃ a, Source.assemble base (source order base code) (.fresh target order) =
        .error (.line (largest / 4 + 1) (.statement (.fault .outOfBounds))) a) := by
  have count := length_words order code
  have start : placed base (order.words code) = placedAfter base 0 (order.words code) := rfl
  have lines : Source.assemble base (source order base code) =
      Source.assembleLines base 1 (textLines (placed base (order.words code))) := by
    rw [Source.assemble, source, split_join]
    · rfl
    · intro t member
      obtain ⟨⟨pc, w⟩, -, rfl⟩ := List.mem_map.mp member
      exact proper_decode w pc
  rw [lines, start]
  constructor
  · intro storable
    obtain ⟨a, assembled, written, same⟩ := assembleLines_textLines base (order.words code) 1
      (fresh_code target order) (by rw [count, List.length_nil]; omega)
    have bytes := written.bytes
    rw [same] at bytes
    refine ⟨a, _, assembled, bytes, ?_, ?_⟩
    · rw [length_code, List.nil_append, List.length_map, length_placedAfter, count]
      omega
    · exact words_flatMap order _
  · intro past
    obtain ⟨a, refused⟩ := assembleLines_full base (order.words code) 1 (fresh_code target order)
      (by rw [count, List.length_nil]; omega)
    exact ⟨a, by rw [Nat.add_comm (largest / 4)]; exact refused⟩

/-- A move to all condition fields and a return with their unused bits set, a word that is
no instruction, and a branch back over the end of the address space. -/
theorem assemble_source_unused :
    ∃ a out, Source.assemble (-8) (source .big (-8)
        [0x7C, 0x7F, 0xF9, 0x20, 0x4E, 0x80, 0xF8, 0x20, 0, 0, 0, 1, 0x4B, 0xFF, 0xFF, 0xF4])
        (.fresh .ppc64 .big) = .ok () a ∧
      a.assembler.buffer.bytes a.segment = .ok out ∧ out.length = 16 ∧
      ByteOrder.big.words out = [0x7C6FF120, 0x4E800020, 0x00000001, 0x4BFFFFF4] :=
  (assemble_source .ppc64 .big (-8) _ (by decide)).1 (by decide)

end PowerAsm.Proofs.Reassembly
