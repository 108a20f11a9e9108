import Mathlib.Data.List.TakeWhile
import PowerAsm.Proofs.SourceLines
import PowerAsm.Proofs.Storage

/-! Source is assembled line by line. Every line that is not blank stands for one word at
the next address. The first line that stands for none ends the run and is told by its
number, and the words of the lines before it stay written. -/
namespace PowerAsm.Proofs.SourceAssembly
open Storage SourceLines Numeral

/-- The text of a line before its first hash sign. -/
def content (line : List UInt8) : Text :=
  Text.ofUtf8 ((Line.dropReturn line).takeWhile (· != 0x23))

def isBlankLine (line : List UInt8) : Bool := (content line).all Glyph.isBlank

/-- The lines that are not blank. -/
def filled (lines : List (List UInt8)) : List (List UInt8) :=
  lines.filter fun line => !isBlankLine line

theorem trim_isEmpty (t : Text) : t.trim.isEmpty = t.all Glyph.isBlank := by
  have ends : t.trim = [] ↔ ∀ g ∈ t.dropWhile Glyph.isBlank, g.isBlank = true := by
    simp [Text.trim, Text.trimRight, Text.trimLeft, List.dropWhile_eq_nil_iff]
  have whole := List.takeWhile_append_dropWhile (p := Glyph.isBlank) (l := t)
  rw [Bool.eq_iff_iff, List.isEmpty_iff, ends, List.all_eq_true]
  constructor
  · intro rest g member
    rw [← whole] at member
    rcases List.mem_append.mp member with front | back
    · exact List.mem_takeWhile_imp front
    · exact rest g back
  · intro all g member
    exact all g ((List.dropWhile_sublist _).subset member)

section Cut

private theorem take_takeWhile {p : UInt8 → Bool} (bytes : List UInt8) (n : Nat)
    (kept : ∀ b ∈ bytes.take n, p b = true) : (bytes.takeWhile p).take n = bytes.take n := by
  induction bytes generalizing n with
  | nil => rfl
  | cons first bytes ih =>
    cases n with
    | zero => rfl
    | succ n =>
      obtain ⟨keep, later⟩ := List.forall_mem_cons.mp kept
      rw [List.takeWhile_cons_of_pos keep, List.take_succ_cons, List.take_succ_cons, ih n later]

private theorem length_takeWhile_lt {p : UInt8 → Bool} (bytes : List UInt8) (n : Nat)
    (cut : ∃ b ∈ bytes.take n, p b = false) : ((bytes.takeWhile p).take n).length < n := by
  induction bytes generalizing n with
  | nil => simp at cut
  | cons first bytes ih =>
    cases n with
    | zero => simp at cut
    | succ n =>
      rw [List.takeWhile_cons]
      cases keep : p first with
      | false => simp
      | true =>
        have later : ∃ b ∈ bytes.take n, p b = false := by simpa [keep] using cut
        simpa using ih n later

/-- A byte that continues no character ends the reading of one. -/
private theorem foldlM_continuation (bytes : List UInt8) (start : Nat)
    (other : ∃ b ∈ bytes, Text.continuation? b = none) :
    bytes.foldlM (fun v c => (Text.continuation? c).map (v * 64 + ·)) start = none := by
  induction bytes generalizing start with
  | nil => simp at other
  | cons b bytes ih =>
    rw [List.foldlM_cons]
    cases found : Text.continuation? b with
    | none => rfl
    | some bits =>
      have later : ∃ b ∈ bytes, Text.continuation? b = none := by simpa [found] using other
      exact ih _ later

private theorem toNat_ofNat {n : Nat} (valid : n.isValidChar) : (Char.ofNat n).toNat = n := by
  rw [Char.ofNat, dif_pos valid]
  rfl

theorem continuation_hash {b : UInt8} (hash : (b != 0x23) = false) :
    Text.continuation? b = none := by
  have same : b = 0x23 := by simpa using hash
  rw [same]
  rfl

/-- A hash sign never belongs to a longer character, so cutting there changes no character
before it. -/
theorem leadingChar?_takeWhile (b : UInt8) (rest : List UInt8) :
    Text.leadingChar? (b :: rest.takeWhile (· != 0x23)) = Text.leadingChar? (b :: rest) := by
  simp only [Text.leadingChar?]
  by_cases kept : ∀ c ∈ rest.take (Text.announced b.toNat).2.1, (c != 0x23) = true
  · rw [take_takeWhile rest _ kept]
  · have cut : ∃ c ∈ rest.take (Text.announced b.toNat).2.1, (c != 0x23) = false := by
      simpa using kept
    have shorter := length_takeWhile_lt rest _ cut
    obtain ⟨c, member, hash⟩ := cut
    rw [foldlM_continuation _ _ ⟨c, member, continuation_hash hash⟩, if_pos shorter]
    simp

private theorem announced_least (lead : Nat) : 0x80 ≤ (Text.announced lead).2.2 := by
  unfold Text.announced
  split
  · exact Nat.le_refl _
  · split <;> exact Nat.le_of_ble_eq_true rfl

/-- A character is one byte below 128, or a larger one whose further bytes continue it. -/
theorem leadingChar?_cases {b : UInt8} {rest : List UInt8} {c : Char} {width : Nat}
    (read : Text.leadingChar? (b :: rest) = some (c, width)) :
    (b.toNat < 0x80 ∧ c = Char.ofNat b.toNat ∧ width = 1) ∨
      (0x80 ≤ c.toNat ∧ ∀ d ∈ rest.take (width - 1), Text.continuation? d ≠ none) := by
  simp only [Text.leadingChar?] at read
  split at read
  · rename_i ascii
    cases read
    exact .inl ⟨ascii, rfl, rfl⟩
  · split at read
    · cases read
    · split at read
      · cases read
      · obtain ⟨value, folded, read⟩ := Option.bind_eq_some_iff.mp read
        split at read
        · rename_i proper
          cases read
          right
          constructor
          · rw [toNat_ofNat proper.2]
            exact Nat.le_trans (announced_least b.toNat) proper.1
          · intro d member other
            rw [Nat.add_sub_cancel] at member
            rw [foldlM_continuation _ _ ⟨d, member, other⟩] at folded
            cases folded
        · cases read

/-- Only the byte of a hash sign is read as one, and none continues a character. -/
theorem leadingChar?_ne_hash {b : UInt8} {rest : List UInt8} {c : Char} {width : Nat}
    (read : Text.leadingChar? (b :: rest) = some (c, width)) (other : b ≠ 0x23) :
    c ≠ '#' ∧ ∀ d ∈ rest.take (width - 1), (d != 0x23) = true := by
  rcases leadingChar?_cases read with ⟨ascii, rfl, rfl⟩ | ⟨large, further⟩
  · refine ⟨fun hash => other ?_, by simp⟩
    have valid : b.toNat.isValidChar := .inl (by omega)
    have value := congrArg Char.toNat hash
    rw [toNat_ofNat valid] at value
    exact UInt8.toNat_inj.mp value
  · refine ⟨?_, fun d member => ?_⟩
    · rintro rfl
      exact absurd large (by decide)
    · cases hash : d != 0x23 with
      | true => rfl
      | false => exact absurd (continuation_hash hash) (further d member)

theorem ofUtf8Skipping_takeWhile (skip : Nat) (bytes : List UInt8)
    (kept : ∀ b ∈ bytes.take skip, (b != 0x23) = true) :
    Text.ofUtf8Skipping skip (bytes.takeWhile (· != 0x23)) =
      Source.withoutComment (Text.ofUtf8Skipping skip bytes) := by
  induction bytes generalizing skip with
  | nil => cases skip <;> rfl
  | cons b rest ih =>
    cases skip with
    | succ skip =>
      obtain ⟨keep, later⟩ := List.forall_mem_cons.mp kept
      rw [List.takeWhile_cons_of_pos (p := (· != 0x23)) keep]
      exact ih skip later
    | zero =>
      by_cases hash : b = 0x23
      · subst hash
        rfl
      · have keep : (b != 0x23) = true := by simpa using hash
        rw [List.takeWhile_cons_of_pos (p := (· != 0x23)) keep, Text.ofUtf8Skipping,
          Text.ofUtf8Skipping, leadingChar?_takeWhile]
        cases read : Text.leadingChar? (b :: rest) with
        | none =>
          show _ = List.takeWhile _ _
          rw [List.takeWhile_cons_of_pos (by rfl)]
          exact congrArg _ (ih 0 (by simp))
        | some found =>
          obtain ⟨c, width⟩ := found
          obtain ⟨plain, kept⟩ := leadingChar?_ne_hash read hash
          show _ = List.takeWhile _ _
          rw [List.takeWhile_cons_of_pos (by simpa using plain)]
          exact congrArg _ (ih (width - 1) kept)

theorem content_eq (line : List UInt8) :
    content line = Source.withoutComment (Text.ofUtf8 (Line.dropReturn line)) :=
  ofUtf8Skipping_takeWhile 0 _ (by simp)

end Cut

/-- The word of a line that comes after `count` others, or why there is none. -/
def lineWord (base : Int64) (count : Nat) (line : List UInt8) : Except LineError Word :=
  match Instruction.parse (content line) with
  | .error e => .error (.parse e)
  | .ok i =>
    match i.encode (base + Int64.ofNat (4 * count)) with
    | .error e => .error (.statement e)
    | .ok w =>
      -- Past the largest storage every word is refused.
      if 4 * (count + 1) ≤ largest then .ok w else .error (.statement (.fault .outOfBounds))

/-- The lines stand for these words, the first of which comes after `count` others: no line
is too long, and every line that is not blank has its word. -/
structure Words (base : Int64) (count : Nat) (lines : List (List UInt8)) (ws : List Word) :
    Prop where
  short : ∀ line ∈ lines, line.length < Line.bufferSize
  each : ((filled lines).zipIdx count).map (fun (line, k) => lineWord base k line) = ws.map .ok

section Words
variable {base : Int64} {count : Nat} {line : List UInt8} {lines : List (List UInt8)}
  {ws : List Word}

theorem words_nil (base : Int64) (count : Nat) : Words base count [] [] := ⟨by simp, rfl⟩

theorem words_blank (short : line.length < Line.bufferSize) (blank : isBlankLine line = true)
    (rest : Words base count lines ws) : Words base count (line :: lines) ws where
  short := List.forall_mem_cons.mpr ⟨short, rest.short⟩
  each := by
    rw [filled, List.filter_cons_of_neg (by simp [blank])]
    exact rest.each

theorem words_cons {w : Word} (short : line.length < Line.bufferSize)
    (visible : isBlankLine line = false) (word : lineWord base count line = .ok w)
    (rest : Words base (count + 1) lines ws) : Words base count (line :: lines) (w :: ws) where
  short := List.forall_mem_cons.mpr ⟨short, rest.short⟩
  each := by
    rw [filled, List.filter_cons_of_pos (by simp [visible]), List.zipIdx_cons, List.map_cons,
      List.map_cons]
    exact congrArg₂ List.cons word rest.each

theorem Words.length (words : Words base count lines ws) : ws.length = (filled lines).length := by
  simpa using (congrArg List.length words.each).symm

/-- Among lines that stand for words, each one that is not blank has a word. -/
theorem Words.word {before later : List (List UInt8)}
    (words : Words base count (before ++ line :: later) ws) (visible : isBlankLine line = false) :
    ∃ w, lineWord base (count + (filled before).length) line = .ok w := by
  have each := words.each
  have rest : filled (before ++ line :: later) = filled before ++ line :: filled later := by
    rw [filled, List.filter_append, List.filter_cons_of_pos (by simp [visible])]
    rfl
  rw [rest, List.zipIdx_append, List.map_append, List.zipIdx_cons, List.map_cons] at each
  have member : lineWord base (count + (filled before).length) line ∈ ws.map Except.ok := by
    rw [← each]
    simp
  obtain ⟨w, -, same⟩ := List.mem_map.mp member
  exact ⟨w, same.symm⟩

end Words

/-- An assembler of this byte order has written the words one by one, and nothing else. -/
structure Fed (order : ByteOrder) (a : Assembly) (ws : List Word) : Prop where
  code : Code a ws
  order : a.segment.order = order
  log : a.assembler.log.toList = ws.zipIdx.map fun (w, i) => .emitted (Int64.ofNat (4 * i)) w

theorem fresh_fed (target : Target) (order : ByteOrder) : Fed order (.fresh target order) [] where
  code := fresh_code target order
  order := rfl
  log := rfl

theorem Fed.bytes {order : ByteOrder} {a : Assembly} {ws : List Word} (fed : Fed order a ws) :
    a.assembler.buffer.bytes a.segment = .ok (ws.flatMap order.bytes) := by
  rw [fed.code.bytes, fed.order]

/-- Assembling a line writes its word, or changes nothing. -/
theorem assembleLine_content {order : ByteOrder} {a : Assembly} {ws : List Word}
    (fed : Fed order a ws) (base : Int64) (line : List UInt8) :
    (∃ w b, lineWord base ws.length line = .ok w ∧
      Source.assembleLine base (content line) a = .ok () b ∧ Fed order b (ws ++ [w])) ∨
    ∃ e, lineWord base ws.length line = .error e ∧
      Source.assembleLine base (content line) a = .error e a := by
  cases parsed : Instruction.parse (content line) with
  | error e => exact .inr ⟨.parse e, by simp only [lineWord, parsed],
      by simp only [Source.assembleLine, parsed]⟩
  | ok i =>
    cases encoded : i.encode (base + Int64.ofNat (4 * ws.length)) with
    | error e => exact .inr ⟨.statement e, by simp only [lineWord, parsed, encoded],
        by simp only [Source.assembleLine, parsed, Asm.statement, fed.code.length, encoded]⟩
    | ok w =>
      by_cases room : 4 * (ws.length + 1) ≤ largest
      · obtain ⟨b, emitted, code, order', assembler⟩ := emit_code fed.code w room
        refine .inl ⟨w, b, by simp only [lineWord, parsed, encoded, if_pos room],
          by simp only [Source.assembleLine, parsed, Asm.statement, fed.code.length, encoded,
            emitted], code, order'.trans fed.order, ?_⟩
        rw [assembler, Array.toList_push, fed.log, List.zipIdx_append, List.map_append]
        simp
      · have full := emit_full fed.code w (by omega)
        exact .inr ⟨.statement (.fault .outOfBounds),
          by simp only [lineWord, parsed, encoded, if_neg room],
          by simp only [Source.assembleLine, parsed, Asm.statement, fed.code.length, encoded,
            full]⟩

/-- Why a line ends the run: the one with this number, with so many words before it. -/
inductive Stops (base : Int64) (number count : Nat) (line : List UInt8) : SourceError → Prop where
  | tooLong (long : Line.bufferSize ≤ line.length) : Stops base number count line .tooLong
  | line {e : LineError} (short : line.length < Line.bufferSize)
      (visible : isBlankLine line = false) (wrong : lineWord base count line = .error e) :
      Stops base number count line (.line number e)

/-- What comes of a run over lines, the first of which has this number. -/
inductive Run (base : Int64) (order : ByteOrder) (number : Nat) (ws : List Word)
    (lines : List (List UInt8)) : EStateM.Result SourceError Assembly Unit → Prop where
  | done {a : Assembly} {vs : List Word} (words : Words base ws.length lines vs)
      (fed : Fed order a (ws ++ vs)) : Run base order number ws lines (.ok () a)
  | stopped {a : Assembly} {vs : List Word} (before : List (List UInt8)) (line : List UInt8)
      (later : List (List UInt8)) {e : SourceError} (split : lines = before ++ line :: later)
      (words : Words base ws.length before vs) (fed : Fed order a (ws ++ vs))
      (stops : Stops base (number + before.length) (ws.length + vs.length) line e) :
      Run base order number ws lines (.error e a)

theorem run_blank {base : Int64} {order : ByteOrder} {number : Nat} {ws : List Word}
    {line : List UInt8} {lines : List (List UInt8)}
    {result : EStateM.Result SourceError Assembly Unit}
    (short : line.length < Line.bufferSize) (blank : isBlankLine line = true)
    (rest : Run base order (number + 1) ws lines result) :
    Run base order number ws (line :: lines) result := by
  cases rest with
  | done words fed => exact .done (words_blank short blank words) fed
  | stopped before stop later split words fed stops =>
    refine .stopped (line :: before) stop later (congrArg _ split)
      (words_blank short blank words) fed ?_
    rwa [List.length_cons, Nat.add_comm before.length, ← Nat.add_assoc]

theorem run_cons {base : Int64} {order : ByteOrder} {number : Nat} {ws : List Word} {w : Word}
    {line : List UInt8} {lines : List (List UInt8)}
    {result : EStateM.Result SourceError Assembly Unit}
    (short : line.length < Line.bufferSize) (visible : isBlankLine line = false)
    (word : lineWord base ws.length line = .ok w)
    (rest : Run base order (number + 1) (ws ++ [w]) lines result) :
    Run base order number ws (line :: lines) result := by
  have count : (ws ++ [w]).length = ws.length + 1 := by simp
  cases rest with
  | done words fed =>
    rw [count] at words
    rw [List.append_assoc] at fed
    exact .done (words_cons short visible word words) fed
  | stopped before stop later split words fed stops =>
    rw [count] at words stops
    rw [List.append_assoc] at fed
    refine .stopped (line :: before) stop later (congrArg _ split)
      (words_cons short visible word words) fed ?_
    rwa [List.length_cons, List.length_cons, Nat.add_comm before.length, ← Nat.add_assoc,
      Nat.add_comm (List.length _) 1, ← Nat.add_assoc]

/-- The lines are assembled one after the other, up to the first that cannot be. -/
theorem run_assembleLines (base : Int64) (order : ByteOrder) (lines : List (List UInt8))
    (number : Nat) {a : Assembly} {ws : List Word} (fed : Fed order a ws) :
    Run base order number ws lines
      (Source.assembleLines base number (lines.map Line.ofPiece) a) := by
  induction lines generalizing number a ws with
  | nil => exact .done (words_nil base _) (by rwa [List.append_nil])
  | cons line lines ih =>
    rw [List.map_cons, Line.ofPiece]
    by_cases short : line.length < Line.bufferSize
    · rw [if_pos short, Source.assembleLines]
      simp only [← content_eq, trim_isEmpty]
      cases blank : isBlankLine line with
      | true =>
        rw [isBlankLine] at blank
        rw [if_pos blank]
        exact run_blank short blank (ih (number + 1) fed)
      | false =>
        have visible := blank
        rw [isBlankLine] at blank
        rw [if_neg (by simp [blank])]
        obtain ⟨w, b, word, wrote, fed'⟩ | ⟨e, wrong, refused⟩ :=
          assembleLine_content fed base line
        · simp only [wrote]
          exact run_cons short visible word (ih (number + 1) fed')
        · simp only [refused]
          exact .stopped [] line lines rfl (words_nil base _) (by rwa [List.append_nil])
            (.line short visible wrong)
    · rw [if_neg short]
      exact .stopped [] line lines rfl (words_nil base _) (by rwa [List.append_nil])
        (.tooLong (by omega))

end PowerAsm.Proofs.SourceAssembly
