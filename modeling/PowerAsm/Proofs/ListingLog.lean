import PowerAsm.Assembler.Log
import PowerAsm.Proofs.Operations
import PowerAsm.Proofs.Reassembly
import PowerAsm.Proofs.SourceAssembly

/-! The log of assembled source is a listing. Assembling source only writes words, one after
the other, so that what is logged meanwhile is what the disassembler lists afterwards. -/
namespace PowerAsm.Proofs.ListingLog
open Numeral Numerals InstructionText Disassembly Storage Operations Reassembly SourceAssembly

theorem address_figures (v : Int) :
    ∀ g ∈ address v, g = .char '-' ∨ ∃ d < 16, g = figure d := by
  have padded (width : Nat) : ∀ g ∈ zeroPadded width (digits 16 v.natAbs), ∃ d < 16, g = figure d := by
    intro g member
    rcases List.mem_append.mp member with zero | digit
    · exact ⟨0, by decide, List.eq_of_mem_replicate zero⟩
    · exact digits_figures 16 v.natAbs (by decide) g digit
  intro g member
  unfold address at member
  split at member
  · rcases List.mem_cons.mp member with sign | digit
    · exact .inl sign
    · exact .inr (padded 7 g digit)
  · exact .inr (padded 8 g member)

theorem plain_address (v : Int) : Plain (address v) := by
  have figures : ∀ d < 16, isPlain (figure d) = true := by decide
  intro g member
  rcases address_figures v g member with rfl | ⟨d, small, rfl⟩
  · rfl
  · exact figures d small

theorem address_ne_nil (v : Int) : address v ≠ [] := by
  unfold address
  split
  · simp
  · exact List.append_ne_nil_of_right_ne_nil _ (digits_ne_nil 16 _ (by decide))

theorem line_written (order : ByteOrder) (pc : Int64) (w : Word) :
    ∀ g ∈ Listing.line order pc w, isWritten g = true := by
  have bytes : ∀ t ∈ (order.bytes w).map hexByte, Plain t := by
    intro t member
    obtain ⟨b, -, rfl⟩ := List.mem_map.mp member
    exact plain_zeroPadded 2 (plain_digits 16 _ (by decide) (by decide))
  unfold Listing.line
  simp only [List.forall_mem_append]
  exact ⟨⟨⟨⟨written_of_plain (plain_address _), by decide⟩, join_written (by decide) _ bytes⟩,
    by decide⟩, decode_written w pc⟩

/-- A listing line is one line. -/
theorem line_unbroken (order : ByteOrder) (pc : Int64) (w : Word) :
    ∀ g ∈ Listing.line order pc w, (g == .char '\n') = false := by
  intro g member
  have written := line_written order pc w g member
  cases feed : g == .char '\n' with
  | false => rfl
  | true =>
    rw [eq_of_beq feed] at written
    cases written

/-- A listing line starts with an address, so it never looks like a patched one. -/
theorem line_not_patch (order : ByteOrder) (pc : Int64) (w : Word) :
    ¬ Text.ofString "patch " <+: Listing.line order pc w := by
  rintro ⟨rest, same⟩
  have letter : ∀ d < 16, figure d ≠ .char 'p' := by decide
  unfold Listing.line at same
  cases start : address pc.toInt with
  | nil => exact address_ne_nil _ start
  | cons g digits =>
    rw [start] at same
    have first : g = .char 'p' := (List.cons.inj same).1.symm
    rcases address_figures pc.toInt g (by simp [start]) with sign | ⟨d, small, digit⟩
    · rw [first] at sign
      cases sign
    · exact letter d small (digit.symm.trans first)

/-- The lines of a text in which every line ends in a line feed. -/
theorem splitAt_lines (lines : List Text)
    (unbroken : ∀ line ∈ lines, ∀ g ∈ line, (g == .char '\n') = false) :
    Text.splitAt (· == .char '\n') (lines.flatMap (· ++ Text.ofString "\n")) = lines ++ [[]] := by
  induction lines with
  | nil => rfl
  | cons line lines ih =>
    obtain ⟨first, others⟩ := List.forall_mem_cons.mp unbroken
    have feed : (line ++ Text.ofString "\n") ++ lines.flatMap (· ++ Text.ofString "\n") =
        line ++ .char '\n' :: lines.flatMap (· ++ Text.ofString "\n") := by
      rw [List.append_assoc]
      rfl
    rw [List.flatMap_cons, feed, splitAt_append _ first (by rfl), ih others]
    rfl

/-- The words that were written one after the other are logged as they are listed. -/
theorem logText_emitted (order : ByteOrder) (base : Int64) (ws : List Word) :
    Event.logText order base (ws.zipIdx.map fun (w, i) => .emitted (Int64.ofNat (4 * i)) w) =
      ((Listing.placed base ws).map fun (pc, w) => Listing.line order pc w).flatMap
        (· ++ Text.ofString "\n") := by
  rw [Event.logText, Listing.placed, List.flatMap_map, List.map_map, List.flatMap_map]
  rfl

theorem disassemble_words (order : ByteOrder) (base : Int64) (ws : List Word) :
    Listing.disassemble order base (ws.flatMap order.bytes) =
      .ok ((Listing.placed base ws).map fun (pc, w) => Listing.line order pc w) := by
  have whole : (ws.flatMap order.bytes).length % 4 = 0 := by
    rw [length_code]
    omega
  rw [Listing.disassemble, Listing.lines, if_pos whole, words_flatMap]

/-- What a fresh assembler is left with by source, whether or not it was refused. -/
def assembled (target : Target) (order : ByteOrder) (base : Int64) (source : List UInt8) :
    Assembly :=
  after (Source.assemble base source (.fresh target order))

theorem assembled_fed (target : Target) (order : ByteOrder) (base : Int64) (source : List UInt8) :
    ∃ ws, Fed order (assembled target order base source) ws := by
  have run := run_assembleLines base order (Line.pieces [] source) 1 (fresh_fed target order)
  rw [assembled, Source.assemble, Line.split]
  generalize Source.assembleLines base 1 _ _ = result at run ⊢
  cases run with
  | done words fed => exact ⟨_, fed⟩
  | stopped before line later split words fed stops => exact ⟨_, fed⟩

/-- Whether source is assembled or refused, its log is the listing of the code that was
written, and no line of it tells of a patch. -/
theorem log_eq_listing (target : Target) (order : ByteOrder) (base : Int64)
    (source : List UInt8) :
    ∃ code lines log,
      (assembled target order base source).assembler.buffer.bytes
        (assembled target order base source).segment = .ok code ∧
      Listing.disassemble order base code = .ok lines ∧
      Event.logText order base (assembled target order base source).assembler.log.toList = log ∧
      log = lines.flatMap (· ++ Text.ofString "\n") ∧
      ∀ line ∈ Text.splitAt (· == .char '\n') log, ¬ Text.ofString "patch " <+: line := by
  obtain ⟨ws, fed⟩ := assembled_fed target order base source
  refine ⟨_, _, _, fed.bytes, disassemble_words order base ws,
    (congrArg _ fed.log).trans (logText_emitted order base ws), rfl, ?_⟩
  rw [splitAt_lines]
  · intro line member
    rcases List.mem_append.mp member with listed | last
    · obtain ⟨⟨pc, w⟩, -, rfl⟩ := List.mem_map.mp listed
      exact line_not_patch order pc w
    · rw [List.mem_singleton.mp last]
      exact fun start => absurd (List.prefix_nil.mp start) (by decide)
  · intro line member
    obtain ⟨⟨pc, w⟩, -, rfl⟩ := List.mem_map.mp member
    exact line_unbroken order pc w

end PowerAsm.Proofs.ListingLog
