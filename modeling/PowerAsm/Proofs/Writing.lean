import PowerAsm.Proofs.Emission
import PowerAsm.Proofs.Labels

/-! Actions that write code with labels of their own, on any assembler and behind whatever its
segment holds. For each action there is what it has done if it has succeeded, and when it
does. -/
namespace PowerAsm.Proofs.Writing
open Segment Storage Integers Branches Labels Emission

/-- An action in two parts succeeds if its first part does, and the rest after it. -/
theorem ok_bind {α β : Type} {x : Asm α} {f : α → Asm β} {a : Assembly} {u : α} {v : β}
    (first : ∃ b, x a = .ok u b) (rest : ∀ b, x a = .ok u b → ∃ c, f u b = .ok v c) :
    ∃ c, (x >>= f) a = .ok v c := by
  obtain ⟨b, ran⟩ := first
  obtain ⟨c, done⟩ := rest b ran
  exact ⟨c, by rw [bind_apply, ran]; exact done⟩

/-- Operands that are read back as they were given. -/
def Plain (types : List OperandType) : Prop := ∀ t ∈ types, t ≠ .immediate ∧ t ≠ .memory

instance (types : List OperandType) : Decidable (Plain types) :=
  inferInstanceAs (Decidable (∀ t ∈ types, t ≠ .immediate ∧ t ≠ .memory))

theorem holds_of_encode {op : Opcode} {args : Args op.operands} {w : Word}
    (plain : Plain op.operands) (encoded : op.encode args 0 = .ok w) : Holds w ⟨op, args⟩ :=
  Table.ofWord?_of_encodeAs (fun _ member => (plain _ member).1 rfl)
    (fun member => (plain _ member).2 rfl) encoded

theorem written_of_encoded {a b : Assembly} {e : Except Fault Word} {u : Unit}
    (bounded : a.segment.storage.size < 2 ^ 63) (ran : Asm.emitEncoded e a = .ok u b) :
    ∃ bytes, Written a.segment bytes := by
  cases e with
  | error e =>
    rw [emitEncoded_error rfl] at ran
    cases ran
  | ok w =>
    rw [emitEncoded_ok rfl] at ran
    obtain ⟨s, appended⟩ := append_of_emit ran
    exact written_of_append bounded appended

/-- What an assembler is that was `origin`, with these bytes in its segment, now that it has
written `ws` and created labels of which `own` is known. -/
structure Holding (origin : Assembly) (bytes : List UInt8) (ws : List Word)
    (own : List LabelState) (a : Assembly) : Prop where
  written : Written a.segment (bytes ++ ws.flatMap origin.segment.order.bytes)
  order : a.segment.order = origin.segment.order
  room : ∀ n, bytes.length + 4 * ws.length ≤ n → Room origin.segment n → Room a.segment n
  target : a.assembler.target = origin.assembler.target
  buffer : a.assembler.buffer = origin.assembler.buffer
  labels : a.assembler.labels.toList = origin.assembler.labels.toList ++ own

theorem holding_origin {a : Assembly} {bytes : List UInt8} (written : Written a.segment bytes) :
    Holding a bytes [] [] a where
  written := by rwa [List.flatMap_nil, List.append_nil]
  order := rfl
  room := fun _ _ room => room
  target := rfl
  buffer := rfl
  labels := (List.append_nil _).symm

/-- The offset of a word behind the bytes. Offsets count from the start of the buffer. -/
def place (origin : Assembly) (bytes : List UInt8) (k : Nat) : Int64 :=
  Int64.ofNat (bytes.length + 4 * k) - origin.assembler.buffer.start

/-- A label behind those that the assembler had. -/
def later (origin : Assembly) (k : Nat) : Label :=
  ⟨Int64.ofNat (origin.assembler.labels.size + k)⟩

section Places
variable {origin : Assembly} {bytes : List UInt8} {k : Nat}

theorem index_later (few : origin.assembler.labels.size + k < 2 ^ 63) :
    (later origin k).index = origin.assembler.labels.size + k := by
  show (Int64.ofNat (origin.assembler.labels.size + k)).toInt.toNat = _
  rw [Int64.toInt_ofNat_of_lt few]
  exact Int.toNat_natCast _

theorem start_add_place (origin : Assembly) (bytes : List UInt8) (k : Nat) :
    origin.assembler.buffer.start + place origin bytes k = Int64.ofNat (bytes.length + 4 * k) := by
  rw [place]
  grind

/-- How far two words are apart does not depend on where the code starts. -/
theorem place_sub_place (origin : Assembly) (bytes : List UInt8) (i j : Nat) :
    place origin bytes j - place origin bytes i = Int64.ofNat (4 * j) - Int64.ofNat (4 * i) := by
  rw [place, place, Int64.ofNat_add, Int64.ofNat_add]
  grind

theorem encodeFromTo_congr {branch : Branch} {source dest source' dest' : Int64} {w : Word}
    (same : dest - source = dest' - source') :
    branch.encodeFromTo source dest = .ok w ↔ branch.encodeFromTo source' dest' = .ok w := by
  unfold Branch.encodeFromTo branchDisplacement
  simp only [same]
  split
  · rfl
  · constructor <;> intro encoded <;> cases encoded

/-- A branch between two words is written as in code that starts at zero. -/
theorem encodeFromTo_place {branch : Branch} {here dest : Nat} {w : Word}
    (low : 4 * here ≤ 2 ^ 62) (high : 4 * dest ≤ 2 ^ 62) :
    branch.encodeFromTo (place origin bytes here) (place origin bytes dest) = .ok w ↔
      (FieldsFit branch ∧ InReach branch (dest - here)) ∧ w = wordOf branch (dest - here) := by
  rw [encodeFromTo_congr (place_sub_place origin bytes here dest)]
  obtain ⟨near, encoded⟩ | ⟨far, e, refused, -⟩ := encodeFromTo_cases branch here dest low high
  · rw [encoded, and_iff_right near, eq_comm, Except.ok.injEq]
  · rw [refused]
    refine iff_of_false ?_ fun both => far both.1
    intro encoded
    cases encoded

end Places

section Actions
variable {origin : Assembly} {bytes : List UInt8} {ws : List Word} {own : List LabelState}
  {a b : Assembly} {u : Unit} {k : Nat}

namespace Holding
variable (holding : Holding origin bytes ws own a)
include holding

theorem small : bytes.length + 4 * ws.length < 2 ^ 63 := by
  have kept := holding.written.length_le
  have bounded := holding.written.bounded
  rw [length_append_code] at kept
  omega

theorem offset : a.assembler.buffer.length a.segment = place origin bytes ws.length := by
  have size : a.segment.size = Int64.ofNat (bytes.length + 4 * ws.length) := by
    apply Int64.toInt_inj.mp
    rw [holding.written.size, length_append_code, Int64.toInt_ofNat_of_lt holding.small]
  rw [Buffer.length, holding.buffer, size, place]

theorem position_toInt {i : Nat} (inside : i ≤ ws.length) :
    (Int64.ofNat (bytes.length + 4 * i)).toInt = bytes.length + 4 * i := by
  have small := holding.small
  rw [Int64.toInt_ofNat_of_lt (by omega)]
  omega

theorem newLabel {l : Label} (ran : Asm.newLabel a = .ok l b) :
    l = later origin own.length ∧ Holding origin bytes ws (own ++ [⟨none, []⟩]) b := by
  have size : a.assembler.labels.size = origin.assembler.labels.size + own.length := by
    rw [← Array.length_toList, holding.labels, List.length_append, Array.length_toList]
  cases ran
  refine ⟨by rw [later, ← size], holding.written, holding.order, holding.room, holding.target,
    holding.buffer, ?_⟩
  show (a.assembler.labels.push _).toList = _
  rw [Array.toList_push, holding.labels, List.append_assoc]

theorem emit {w : Word} (ran : Asm.emit w a = .ok u b) :
    Holding origin bytes (ws ++ [w]) own b := by
  have four := length_bytes a.segment.order w
  obtain ⟨s, appended⟩ := append_of_emit ran
  have room := room_of_append holding.written (by omega) appended
  rw [four] at room
  obtain ⟨c, log, emitted, written, order, same, more⟩ := emit_written holding.written w room
  rw [emitted] at ran
  cases ran
  refine ⟨?_, order.trans holding.order, ?_, ?_, ?_, ?_⟩
  · rw [holding.order] at written
    rwa [List.flatMap_append, List.flatMap_singleton, ← List.append_assoc]
  · intro n total first
    rw [List.length_append, List.length_singleton] at total
    exact more n (by rw [length_append_code]; omega) (holding.room n (by omega) first)
  all_goals rw [same]
  · exact holding.target
  · exact holding.buffer
  · exact holding.labels

theorem encoded {e : Except Fault Word} (ran : Asm.emitEncoded e a = .ok u b) :
    ∃ w, e = .ok w ∧ Holding origin bytes (ws ++ [w]) own b := by
  cases e with
  | error e =>
    rw [emitEncoded_error rfl] at ran
    cases ran
  | ok w =>
    rw [emitEncoded_ok rfl] at ran
    exact ⟨w, rfl, holding.emit ran⟩

/-- An instruction whose operands are read back is written as a word that holds it. -/
theorem instr {op : Opcode} {args : Args op.operands} (plain : Plain op.operands)
    (ran : Asm.instr op args a = .ok u b) :
    ∃ w, Holds w ⟨op, args⟩ ∧ Holding origin bytes (ws ++ [w]) own b := by
  obtain ⟨w, encoded, holding⟩ := holding.encoded ran
  exact ⟨w, holds_of_encode plain encoded, holding⟩

/-- What an action without labels writes goes behind the code. -/
theorem writes {action : Asm Unit} {is : List Instr} {vs : List Word}
    (writes : Writes origin.assembler.target action is) (encoded : List.Forall₂ Encodes vs is)
    (ran : action a = .ok u b) : Holding origin bytes (ws ++ vs) own b := by
  obtain ⟨vs', encoded', wrote⟩ := writes.done a b _ holding.written holding.target ran
  obtain rfl := List.left_unique_forall₂' encodes_unique encoded encoded'
  obtain ⟨log, same⟩ := wrote.assembler
  refine ⟨?_, wrote.order.trans holding.order, ?_, ?_, ?_, ?_⟩
  · have written := wrote.written
    rwa [holding.order, List.append_assoc, ← List.flatMap_append] at written
  · intro n total first
    rw [List.length_append] at total
    exact wrote.room n (by rw [length_append_code]; omega) (holding.room n (by omega) first)
  all_goals rw [same]
  · exact holding.target
  · exact holding.buffer
  · exact holding.labels

theorem sized_eq (narrow wide : Asm Unit) :
    Asm.sized narrow wide a = origin.assembler.target.choose narrow wide a := by
  simp only [Asm.sized, Asm.target, bind_apply, assembler_apply, pure_apply, holding.target]

/-- As `instr`, for one of two instructions of the same kind. -/
theorem sized {narrow wide : Opcode} {args : Args narrow.operands} {args' : Args wide.operands}
    (plain : Plain narrow.operands) (plain' : Plain wide.operands)
    (ran : Asm.sized (Asm.instr narrow args) (Asm.instr wide args') a = .ok u b) :
    ∃ w, Holds w (origin.assembler.target.choose ⟨narrow, args⟩ ⟨wide, args'⟩) ∧
      Holding origin bytes (ws ++ [w]) own b := by
  rw [holding.sized_eq] at ran
  cases target : origin.assembler.target with
  | ppc32 =>
    rw [target] at ran
    exact holding.instr plain ran
  | ppc64 =>
    rw [target] at ran
    exact holding.instr plain' ran

theorem known_later {state : LabelState} (few : origin.assembler.labels.size + k < 2 ^ 63)
    (known : own[k]? = some state) :
    stateOf? a.assembler.labels (later origin k) = some state := by
  have number : (later origin k).number.toInt = origin.assembler.labels.size + k :=
    Int64.toInt_ofNat_of_lt few
  rw [stateOf?_of_nonneg (by omega), ← Array.getElem?_toList, holding.labels, index_later few,
    ← Array.length_toList, List.getElem?_append_right (Nat.le_add_right _ _),
    Nat.add_sub_cancel_left, known]

theorem withState (few : origin.assembler.labels.size + k < 2 ^ 63) (state : LabelState) :
    Holding origin bytes ws (own.set k state) (Labels.withState a (later origin k) state) where
  written := holding.written
  order := holding.order
  room := holding.room
  target := holding.target
  buffer := holding.buffer
  labels := by
    show (a.assembler.labels.setIfInBounds _ _).toList = _
    rw [Array.toList_setIfInBounds, holding.labels, index_later few, ← Array.length_toList,
      List.set_append_right _ _ (Nat.le_add_right _ _), Nat.add_sub_cancel_left]

/-- A branch to a label that is not bound waits at the label. -/
theorem branch_free_eq {branch : Branch} {pending : List PatchSite}
    (few : origin.assembler.labels.size + k < 2 ^ 63) (known : own[k]? = some ⟨none, pending⟩)
    (fit : FieldsFit branch) :
    Asm.branchTo branch (later origin k) a = Asm.emit (bare branch)
      (Labels.withState a (later origin k)
        ⟨none, pending ++ [⟨place origin bytes ws.length, branch.form⟩]⟩) := by
  rw [branchTo_free (holding.known_later few known), holding.offset, encode_zero fit]
  exact emitEncoded_ok rfl _

theorem branch_free {branch : Branch} {pending : List PatchSite}
    (few : origin.assembler.labels.size + k < 2 ^ 63) (known : own[k]? = some ⟨none, pending⟩)
    (fit : FieldsFit branch) (ran : Asm.branchTo branch (later origin k) a = .ok u b) :
    Holding origin bytes (ws ++ [bare branch])
      (own.set k ⟨none, pending ++ [⟨place origin bytes ws.length, branch.form⟩]⟩) b := by
  rw [holding.branch_free_eq few known fit] at ran
  exact (holding.withState few _).emit ran

/-- A branch to a label that is bound is written with its displacement. -/
theorem branch_bound {branch : Branch} {dest : Nat}
    (few : origin.assembler.labels.size + k < 2 ^ 63)
    (known : own[k]? = some ⟨some (place origin bytes dest), []⟩) (low : 4 * ws.length ≤ 2 ^ 62)
    (high : 4 * dest ≤ 2 ^ 62) (ran : Asm.branchTo branch (later origin k) a = .ok u b) :
    Holding origin bytes (ws ++ [wordOf branch (dest - ws.length)]) own b := by
  rw [branchTo_bound (holding.known_later few known), holding.offset] at ran
  obtain ⟨w, encoded, holding⟩ := holding.encoded ran
  obtain ⟨-, rfl⟩ := (encodeFromTo_place low high).mp encoded
  exact holding

theorem start_add_place_toInt {i : Nat} (inside : i ≤ ws.length) :
    (a.assembler.buffer.start + place origin bytes i).toInt = (bytes.length + 4 * i : Nat) := by
  rw [holding.buffer, start_add_place, holding.position_toInt inside]
  norm_cast

theorem written_own : Written a.segment (bytes ++ ws.flatMap a.segment.order.bytes) := by
  rw [holding.order]
  exact holding.written

/-- Where a word can be read at all, it is the one that was written. -/
theorem wordAt_place {i : Nat} (inside : i < ws.length)
    (checked : a.assembler.buffer.checkWord a.segment (place origin bytes i) = .ok ()) :
    a.assembler.buffer.wordAt a.segment (place origin bytes i) = .ok ws[i] :=
  wordAt_behind holding.written_own checked inside
    (holding.start_add_place_toInt (Nat.le_of_lt inside))

theorem putWordAt_place {i : Nat} (inside : i < ws.length)
    (checked : a.assembler.buffer.checkWord a.segment (place origin bytes i) = .ok ()) (w : Word) :
    ∃ s, a.assembler.buffer.putWordAt (place origin bytes i) w a.segment = .ok () s ∧
      Holding origin bytes (ws.set i w) own ⟨s, a.assembler⟩ ∧
      s.storage.size = a.segment.storage.size := by
  obtain ⟨s, stored, written, order, size⟩ := putWordAt_behind holding.written_own checked inside
    (holding.start_add_place_toInt (Nat.le_of_lt inside)) w
  rw [holding.order] at written
  refine ⟨s, stored, ⟨written, order.trans holding.order, ?_, holding.target, holding.buffer,
    holding.labels⟩, size⟩
  intro n total room
  rw [List.length_set] at total
  show grownCapacity s.storage.size n < _
  rw [size]
  exact holding.room n total room

theorem patch_at {i : Nat} (inside : i < ws.length)
    (checked : a.assembler.buffer.checkWord a.segment (place origin bytes i) = .ok ()) {form : Form}
    {dest : Int64} {w : Word}
    (filled : Asm.patchedWord ws[i] ⟨place origin bytes i, form⟩ dest = .ok w) :
    ∃ s, Asm.patch dest ⟨place origin bytes i, form⟩ a =
        .ok () (logged a s (.patched (place origin bytes i) w)) ∧
      Holding origin bytes (ws.set i w) own (logged a s (.patched (place origin bytes i) w)) ∧
      s.storage.size = a.segment.storage.size := by
  have read := holding.wordAt_place inside checked
  obtain ⟨s, stored, kept, size⟩ := holding.putWordAt_place inside checked w
  refine ⟨s, ?_, ⟨kept.written, kept.order, kept.room, kept.target, kept.buffer, kept.labels⟩, size⟩
  simp only [patch_eq, read, filled, stored]

/-- Filling in a branch gives the word that leads to the other place. -/
theorem patch_ok {branch : Branch} {here dest : Nat} (held : ws[here]? = some (bare branch))
    (fit : FieldsFit branch)
    (checked : a.assembler.buffer.checkWord a.segment (place origin bytes here) = .ok ()) {w : Word}
    (encoded : branch.encodeFromTo (place origin bytes here) (place origin bytes dest) = .ok w) :
    ∃ b, Asm.patch (place origin bytes dest) ⟨place origin bytes here, branch.form⟩ a = .ok () b ∧
      Holding origin bytes (ws.set here w) own b := by
  obtain ⟨inside, word⟩ := List.getElem?_eq_some_iff.mp held
  have filled : Asm.patchedWord ws[here] ⟨place origin bytes here, branch.form⟩
      (place origin bytes dest) = .ok w := by
    rw [word, patchedWord_bare fit, encoded]
  obtain ⟨s, patched, kept, -⟩ := holding.patch_at inside checked filled
  exact ⟨_, patched, kept⟩

theorem patch {branch : Branch} {here dest : Nat} (held : ws[here]? = some (bare branch))
    (fit : FieldsFit branch)
    (ran : Asm.patch (place origin bytes dest) ⟨place origin bytes here, branch.form⟩ a =
      .ok u b) :
    ∃ w, branch.encodeFromTo (place origin bytes here) (place origin bytes dest) = .ok w ∧
      Holding origin bytes (ws.set here w) own b := by
  obtain ⟨inside, word⟩ := List.getElem?_eq_some_iff.mp held
  cases checked : a.assembler.buffer.checkWord a.segment (place origin bytes here) with
  | error e =>
    have unread : a.assembler.buffer.wordAt a.segment (place origin bytes here) = .error e := by
      rw [Buffer.wordAt, checked]
      rfl
    simp only [patch_eq, unread] at ran
    cases ran
  | ok =>
    cases encoded : branch.encodeFromTo (place origin bytes here) (place origin bytes dest) with
    | error e =>
      have read := holding.wordAt_place inside checked
      rw [word] at read
      simp only [patch_eq, read, patchedWord_bare fit, encoded] at ran
      cases ran
    | ok w =>
      obtain ⟨c, patched, filled⟩ := holding.patch_ok held fit checked encoded
      rw [patched] at ran
      cases ran
      exact ⟨w, rfl, filled⟩

theorem bind_eq {pending : List PatchSite} (few : origin.assembler.labels.size + k < 2 ^ 63)
    (known : own[k]? = some ⟨none, pending⟩) :
    Asm.bind (later origin k) a =
      (pending.forM (Asm.patch (place origin bytes ws.length)) >>= fun _ =>
          Asm.setLabelState (later origin k) ⟨some (place origin bytes ws.length), []⟩)
        (Labels.withState a (later origin k) ⟨some (place origin bytes ws.length), pending⟩) := by
  rw [bind_free (holding.known_later few known), holding.offset]

/-- A label that no branch waits for is bound to the end of the code. -/
theorem bind_unused (few : origin.assembler.labels.size + k < 2 ^ 63)
    (known : own[k]? = some ⟨none, []⟩) (ran : Asm.bind (later origin k) a = .ok u b) :
    Holding origin bytes ws (own.set k ⟨some (place origin bytes ws.length), []⟩) b := by
  rw [holding.bind_eq few known] at ran
  cases ran
  have twice := (holding.withState few ⟨some (place origin bytes ws.length), []⟩).withState few
    ⟨some (place origin bytes ws.length), []⟩
  rwa [List.set_set] at twice

/-- Binding a label that one branch waits for fills in the displacement of the branch. -/
theorem bind_waiting {branch : Branch} {here : Nat}
    (few : origin.assembler.labels.size + k < 2 ^ 63)
    (known : own[k]? = some ⟨none, [⟨place origin bytes here, branch.form⟩]⟩)
    (held : ws[here]? = some (bare branch)) (fit : FieldsFit branch)
    (high : 4 * ws.length ≤ 2 ^ 62) (ran : Asm.bind (later origin k) a = .ok u b) :
    Holding origin bytes (ws.set here (wordOf branch (ws.length - here)))
      (own.set k ⟨some (place origin bytes ws.length), []⟩) b := by
  have inside := (List.getElem?_eq_some_iff.mp held).1
  have marked := holding.withState few
    ⟨some (place origin bytes ws.length), [⟨place origin bytes here, branch.form⟩]⟩
  rw [holding.bind_eq few known] at ran
  obtain ⟨⟨⟩, c, patched, ran⟩ := bind_ok ran
  obtain ⟨⟨⟩, d, patched, ended⟩ := bind_ok patched
  cases ended
  cases ran
  obtain ⟨w, encoded, filled⟩ := marked.patch held fit patched
  obtain ⟨-, rfl⟩ := (encodeFromTo_place (by omega) high).mp encoded
  have twice := filled.withState few ⟨some (place origin bytes ws.length), []⟩
  rwa [List.set_set] at twice

theorem newLabel_ok : ∃ b, Asm.newLabel a = .ok (later origin own.length) b := by
  have ran : Asm.newLabel a = .ok ⟨Int64.ofNat a.assembler.labels.size⟩ _ := (rfl)
  obtain ⟨same, -⟩ := holding.newLabel ran
  exact ⟨_, by rw [ran, same]⟩

theorem emit_ok (w : Word) (room : Room origin.segment (bytes.length + 4 * (ws.length + 1))) :
    ∃ b, Asm.emit w a = .ok () b := by
  have more := holding.room _ (by omega) room
  obtain ⟨b, -, ran, -⟩ := emit_written holding.written w
    (more.mono (by rw [length_append_code]; omega))
  exact ⟨b, ran⟩

theorem instr_ok {op : Opcode} {args : Args op.operands} (fits : Fits op.layout args)
    (room : Room origin.segment (bytes.length + 4 * (ws.length + 1))) :
    ∃ b, Asm.instr op args a = .ok () b := by
  obtain ⟨w, encoded, -⟩ := exists_word fits
  obtain ⟨b, ran⟩ := holding.emit_ok w room
  exact ⟨b, (emitEncoded_ok (encoded op.title) a).trans ran⟩

theorem writes_ok {action : Asm Unit} {is : List Instr} {vs : List Word}
    (writes : Writes origin.assembler.target action is) (encoded : List.Forall₂ Encodes vs is)
    (room : Room origin.segment (bytes.length + 4 * (ws.length + vs.length))) :
    ∃ b, action a = .ok () b := by
  have more := holding.room _ (by omega) room
  exact writes.able vs encoded a _ holding.written holding.target
    (more.mono (by rw [length_append_code]; omega))

theorem sized_ok {narrow wide : Opcode} {args : Args narrow.operands} {args' : Args wide.operands}
    (fits : Fits narrow.layout args) (fits' : Fits wide.layout args')
    (room : Room origin.segment (bytes.length + 4 * (ws.length + 1))) :
    ∃ b, Asm.sized (Asm.instr narrow args) (Asm.instr wide args') a = .ok () b := by
  rw [holding.sized_eq]
  cases origin.assembler.target with
  | ppc32 => exact holding.instr_ok fits room
  | ppc64 => exact holding.instr_ok fits' room

theorem branch_free_ok {branch : Branch} {pending : List PatchSite}
    (few : origin.assembler.labels.size + k < 2 ^ 63) (known : own[k]? = some ⟨none, pending⟩)
    (fit : FieldsFit branch) (room : Room origin.segment (bytes.length + 4 * (ws.length + 1))) :
    ∃ b, Asm.branchTo branch (later origin k) a = .ok () b := by
  rw [holding.branch_free_eq few known fit]
  exact (holding.withState few _).emit_ok _ room

theorem branch_bound_ok {branch : Branch} {dest : Nat}
    (few : origin.assembler.labels.size + k < 2 ^ 63)
    (known : own[k]? = some ⟨some (place origin bytes dest), []⟩) (low : 4 * ws.length ≤ 2 ^ 62)
    (high : 4 * dest ≤ 2 ^ 62) (fit : FieldsFit branch) (near : InReach branch (dest - ws.length))
    (room : Room origin.segment (bytes.length + 4 * (ws.length + 1))) :
    ∃ b, Asm.branchTo branch (later origin k) a = .ok () b := by
  have encoded : branch.encodeFromTo (place origin bytes ws.length) (place origin bytes dest) =
      .ok (wordOf branch (dest - ws.length)) := (encodeFromTo_place low high).mpr ⟨⟨fit, near⟩, rfl⟩
  rw [branchTo_bound (holding.known_later few known), holding.offset, emitEncoded_ok encoded]
  exact holding.emit_ok _ room

theorem bind_unused_ok (few : origin.assembler.labels.size + k < 2 ^ 63)
    (known : own[k]? = some ⟨none, []⟩) : ∃ b, Asm.bind (later origin k) a = .ok () b := by
  rw [holding.bind_eq few known]
  exact ⟨_, rfl⟩

end Holding

/-- The buffer of the assembler starts so many words before the end of the bytes. -/
structure Whole (origin : Assembly) (bytes : List UInt8) (words : Nat) : Prop where
  above : 0 ≤ origin.assembler.buffer.start.toInt
  words : origin.assembler.buffer.start.toInt + 4 * words = bytes.length

namespace Holding
variable {words : Nat} (holding : Holding origin bytes ws own a) (whole : Whole origin bytes words)
include holding whole

theorem place_toInt {i : Nat} (inside : i ≤ ws.length) :
    (place origin bytes i).toInt = 4 * (words + i) := by
  have small := holding.small
  have above := whole.above
  have total := whole.words
  have here := holding.position_toInt inside
  rw [place, toInt_sub_of_range] <;> omega

theorem checkWord_place {i : Nat} (inside : i < ws.length) :
    a.assembler.buffer.checkWord a.segment (place origin bytes i) = .ok () := by
  have small := holding.small
  have first := whole.above
  have total := whole.words
  have here := holding.place_toInt whole (Nat.le_of_lt inside)
  have finish := holding.place_toInt whole (Nat.le_refl _)
  have four : (4 : Int64).toInt = 4 := rfl
  have next : (place origin bytes i + 4).toInt = 4 * (words + i) + 4 := by
    rw [toInt_add_of_range] <;> omega
  rw [checkWord_eq_ok_iff, holding.offset]
  omega

theorem bind_waiting_ok {branch : Branch} {here : Nat}
    (few : origin.assembler.labels.size + k < 2 ^ 63)
    (known : own[k]? = some ⟨none, [⟨place origin bytes here, branch.form⟩]⟩)
    (held : ws[here]? = some (bare branch)) (fit : FieldsFit branch)
    (high : 4 * ws.length ≤ 2 ^ 62) (near : InReach branch (ws.length - here)) :
    ∃ b, Asm.bind (later origin k) a = .ok () b := by
  have inside := (List.getElem?_eq_some_iff.mp held).1
  have marked := holding.withState few
    ⟨some (place origin bytes ws.length), [⟨place origin bytes here, branch.form⟩]⟩
  have encoded : branch.encodeFromTo (place origin bytes here) (place origin bytes ws.length) =
      .ok (wordOf branch (ws.length - here)) :=
    (encodeFromTo_place (by omega) high).mpr ⟨⟨fit, near⟩, rfl⟩
  obtain ⟨b, done, -⟩ := marked.patch_ok held fit (marked.checkWord_place whole inside) encoded
  rw [holding.bind_eq few known]
  have patched := ok_bind ⟨b, done⟩ fun c _ => ⟨c, pure_apply c ()⟩
  exact ok_bind patched fun c _ => ⟨_, setLabelState_apply _ _ c⟩

end Holding

end Actions

end PowerAsm.Proofs.Writing
