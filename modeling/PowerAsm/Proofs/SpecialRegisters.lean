import PowerAsm.Proofs.Decoding
import PowerAsm.Proofs.FailedBranches
import PowerAsm.Proofs.Statements

/-! Special registers by their numbers. A move to or from a special register cuts the number it is
given to sixteen bits before it looks whether the two halves of the number fit their fields. So a
number that no register has is refused if it is near enough, and taken for another one if what is
left of it is the number of a register. -/
namespace PowerAsm.Proofs.SpecialRegisters
open OperandFields Layouts Table Decoding Emission Writing SharedSegments Statements
open Recovery (roomy)
open FailedBranches (used_roomy)

/-- The number of the special register in a word, with its two halves put in order. -/
def numberIn (w : Word) : Nat := (w.extractLsb' 16 5).toNat + 32 * (w.extractLsb' 11 5).toNat

theorem fieldSpr_number (w : Word) : (Layout.fieldSpr w).number.toInt = numberIn w := by
  have lower := (w.extractLsb' 16 5).isLt
  have upper := (w.extractLsb' 11 5).isLt
  have sum := split_toInt w 16 11 5 (by decide)
  rw [Forms.unsigned_toInt w 16 5 (by decide), Forms.unsigned_toInt w 11 5 (by decide)] at sum
  show (Layout.fieldB w + 32 * Layout.fieldC w).toInt16.toInt = _
  rw [Int64.toInt_toInt16, Layout.fieldB, Layout.fieldC, sum, numberIn,
    Int.bmod_eq_of_le (by omega) (by omega)]
  norm_cast

theorem isValid_iff (spr : Spr) :
    spr.isValid = true ↔ 0 ≤ spr.number.toInt ∧ spr.number.toInt ≤ 1023 := by
  have zero : (0 : Int16).toInt = 0 := rfl
  have limit : (1024 : Int16).toInt = 1024 := rfl
  simp only [Spr.isValid, Bool.and_eq_true, decide_eq_true_eq, Int16.le_iff_toInt_le,
    Int16.lt_iff_toInt_lt]
  omega

theorem fieldSpr_isValid (w : Word) : (Layout.fieldSpr w).isValid = true := by
  have lower := (w.extractLsb' 16 5).isLt
  have upper := (w.extractLsb' 11 5).isLt
  rw [isValid_iff, fieldSpr_number, numberIn]
  omega

/-- What is left of a number that is cut. -/
theorem ofCode_number (n : Int64) :
    (Spr.ofCode n).number.toInt % 2 ^ 16 = n.toInt % 2 ^ 16 ∧
      -2 ^ 15 ≤ (Spr.ofCode n).number.toInt ∧ (Spr.ofCode n).number.toInt < 2 ^ 15 := by
  have value : (Spr.ofCode n).number.toInt = n.toInt.bmod (2 ^ 16) := Int64.toInt_toInt16 n
  have same := Int.bmod_emod (x := n.toInt) (m := 2 ^ 16)
  have above := Int.le_bmod (x := n.toInt) (m := 2 ^ 16) (by decide)
  have below := Int.bmod_lt (x := n.toInt) (m := 2 ^ 16) (by decide)
  omega

theorem ofCode_isValid_iff (n : Int64) :
    (Spr.ofCode n).isValid = true ↔ n.toInt % 2 ^ 16 ≤ 1023 := by
  have cut := ofCode_number n
  rw [isValid_iff]
  omega

/-- The moves between a general and a special register. -/
inductive Move where
  | fromSpecial
  | toSpecial

namespace Move

/-- The move as it is written, with the numbers of a general and of a special register. -/
def written : Move → Int64 → Int64 → Instruction
  | .fromSpecial, r, n => .written "mfspr" [.register r, .immediate n]
  | .toSpecial, r, n => .written "mtspr" [.immediate n, .register r]

def instr : Move → Gpr → Spr → Instr
  | .fromSpecial, r, spr => ⟨.mfspr, (r, spr, ())⟩
  | .toSpecial, r, spr => ⟨.mtspr, (spr, r, ())⟩

variable {m : Move} {r : Gpr} {spr : Spr} {w : Word}

/-- Both numbers are cut, whatever they are, and the place of the move does not matter. -/
theorem encode_written (m : Move) (r n pc : Int64) :
    (m.written r n).encode pc = ((m.instr (.ofCode r) (.ofCode n)).encode 0).mapError .fault := by
  cases m with
  | fromSpecial => exact encode_eq (m := .base .mfspr) rfl rfl
  | toSpecial => exact encode_eq (m := .base .mtspr) rfl rfl

theorem holds_of_encode (encoded : (m.instr r spr).encode 0 = .ok w) :
    Holds w (m.instr r spr) := by
  cases m with
  | fromSpecial => exact Writing.holds_of_encode (by decide) encoded
  | toSpecial => exact Writing.holds_of_encode (by decide) encoded

theorem spr_of_encode (encoded : (m.instr r spr).encode 0 = .ok w) : spr = Layout.fieldSpr w := by
  cases m with
  | fromSpecial =>
    obtain ⟨-, -, -, same, -⟩ := (encodeAs_eq_ok_iff _ .mfspr (r, spr, ()) 0 w).mp encoded
    exact same
  | toSpecial =>
    obtain ⟨-, -, same, -⟩ := (encodeAs_eq_ok_iff _ .mtspr (spr, r, ()) 0 w).mp encoded
    exact same

/-- A move has a word if its special register exists. -/
theorem encode_iff_isValid (m : Move) (valid : r.isValid = true) :
    (∃ w, (m.instr r spr).encode 0 = .ok w) ↔ spr.isValid = true := by
  constructor
  · rintro ⟨w, encoded⟩
    rw [spr_of_encode encoded]
    exact fieldSpr_isValid w
  · intro known
    cases m with
    | fromSpecial =>
      obtain ⟨w, encoded, -⟩ := @exists_word .mfspr (r, spr, ()) ⟨valid, known⟩
      exact ⟨w, encoded _⟩
    | toSpecial =>
      obtain ⟨w, encoded, -⟩ := @exists_word .mtspr (spr, r, ()) ⟨known, valid⟩
      exact ⟨w, encoded _⟩

end Move

theorem gpr_isValid {r : Int64} (above : 0 ≤ r.toInt) (below : r.toInt ≤ 31) :
    (Gpr.ofCode r).isValid = true := by
  have zero : (0 : Int8).toInt = 0 := rfl
  have last : (31 : Int8).toInt = 31 := rfl
  have number : (Gpr.ofCode r).number.toInt = r.toInt := by
    show r.toInt8.toInt = _
    rw [Int64.toInt_toInt8, Int.bmod_eq_of_le (by omega) (by omega)]
  simp only [Gpr.isValid, Bool.and_eq_true, decide_eq_true_eq, Int8.le_iff_toInt_le]
  omega

section Statements
variable {a : Assembly} {bytes : List UInt8} (intact : Intact a.segment)
  (holds : a.segment.bytes = .ok bytes) (room : bytes.length + 4 ≤ 2 ^ 62)
include intact holds room

theorem emit_appended (w : Word) : ∃ b, Asm.emit w a = .ok () b ∧ Appended a bytes w b := by
  obtain ⟨bytes', written⟩ := intact.written
  cases (Storage.bytes_of_written written).symm.trans holds
  obtain done | ⟨-, large⟩ := appended_or_full intact written w
  · exact done
  · omega

theorem statement_of_encode {i : Instruction} {pc : Int64} {w : Word}
    (encoded : i.encode pc = .ok w) : ∃ b, Asm.statement i pc a = .ok () b ∧ Appended a bytes w b := by
  obtain ⟨b, emitted, appended⟩ := emit_appended intact holds room w
  exact ⟨b, by simp only [Asm.statement, encoded, emitted], appended⟩

theorem encode_of_statement {i : Instruction} {pc : Int64} {b : Assembly}
    (ran : Asm.statement i pc a = .ok () b) :
    ∃ w, i.encode pc = .ok w ∧ Appended a bytes w b := by
  cases encoded : i.encode pc with
  | error e =>
    rw [Asm.statement, encoded] at ran
    cases ran
  | ok w =>
    obtain ⟨b', again, appended⟩ := statement_of_encode intact holds room encoded
    cases again.symm.trans ran
    exact ⟨w, rfl, appended⟩

end Statements

/-- A move is accepted exactly if the low sixteen bits of the number are the number of a special
register, and then this is the register that its word holds. So from -64512 to 65535 only the
numbers 0 to 1023 are accepted, and each stands for itself. -/
theorem special_move_cuts_number {a : Assembly} (reachable : Reachable a) {bytes : List UInt8}
    (holds : a.segment.bytes = .ok bytes) (room : bytes.length + 4 ≤ 2 ^ 62) (m : Move) {r : Int64}
    (above : 0 ≤ r.toInt) (below : r.toInt ≤ 31) (n pc : Int64) :
    ((∃ b, Asm.statement (m.written r n) pc a = .ok () b) ↔ n.toInt % 2 ^ 16 ≤ 1023) ∧
      ∀ b, Asm.statement (m.written r n) pc a = .ok () b → ∃ w, Appended a bytes w b ∧
        Holds w (m.instr (.ofCode r) (.ofCode n)) ∧ numberIn w = n.toInt % 2 ^ 16 := by
  have words : (∃ w, (m.instr (.ofCode r) (.ofCode n)).encode 0 = .ok w) ↔ _ :=
    m.encode_iff_isValid (gpr_isValid above below)
  rw [ofCode_isValid_iff] at words
  have cut := ofCode_number n
  have written_ok {w : Word} : (m.written r n).encode pc = .ok w ↔
      (m.instr (.ofCode r) (.ofCode n)).encode 0 = .ok w := by
    rw [m.encode_written, mapError_eq_ok_iff]
  have appends {b : Assembly} (ran : Asm.statement (m.written r n) pc a = .ok () b) :
      ∃ w, (m.instr (.ofCode r) (.ofCode n)).encode 0 = .ok w ∧ Appended a bytes w b := by
    obtain ⟨w, encoded, appended⟩ := encode_of_statement reachable.intact holds room ran
    exact ⟨w, written_ok.mp encoded, appended⟩
  refine ⟨⟨?_, fun small => ?_⟩, fun b ran => ?_⟩
  · rintro ⟨b, ran⟩
    obtain ⟨w, encoded, -⟩ := appends ran
    exact words.mp ⟨w, encoded⟩
  · obtain ⟨w, encoded⟩ := words.mpr small
    obtain ⟨b, ran, -⟩ := statement_of_encode reachable.intact holds room (written_ok.mpr encoded)
    exact ⟨b, ran⟩
  · obtain ⟨w, encoded, appended⟩ := appends ran
    refine ⟨w, appended, Move.holds_of_encode encoded, ?_⟩
    have small := words.mp ⟨w, encoded⟩
    rw [← fieldSpr_number, ← Move.spr_of_encode encoded]
    omega

theorem reachable_roomy : Reachable roomy := .start (t := .ppc64) used_roomy rfl

/-- The last special register is accepted, and the next number is not. -/
theorem special_move_cuts_number_last :
    Reachable roomy ∧ roomy.segment.bytes = .ok [] ∧
    (∃ b, Asm.statement (Move.toSpecial.written 31 1023) 8 roomy = .ok () b) ∧
      ¬ ∃ b, Asm.statement (Move.toSpecial.written 31 1024) 8 roomy = .ok () b := by
  have accepts n := (special_move_cuts_number reachable_roomy rfl (by decide) .toSpecial
    (r := 31) (by decide) (by decide) n 8).1
  refine ⟨reachable_roomy, rfl, (accepts 1023).mpr (by decide), fun accepted => ?_⟩
  exact absurd ((accepts 1024).mp accepted) (by decide)

/-- No special register has the number 65545. The move from it is accepted, as one from the count
register. -/
theorem special_move_takes_other :
    ¬ ((∃ b, Asm.statement (Move.fromSpecial.written 3 65545) 0 roomy = .ok () b) ↔
      0 ≤ (65545 : Int64).toInt ∧ (65545 : Int64).toInt ≤ 1023) ∧
    ∃ b, Asm.statement (Move.fromSpecial.written 3 65545) 0 roomy = .ok () b ∧
      b.segment.bytes = .ok [0x7C, 0x69, 0x02, 0xA6] ∧
      Instruction.decode 0x7C6902A6#32 0 = ⟨"mfctr", "mfspr", [.register 3], 0x7C6902A6#32⟩ := by
  have accepted : Asm.statement (Move.fromSpecial.written 3 65545) 0 roomy = .ok () _ := (rfl)
  exact ⟨fun claim => absurd (claim.mp ⟨_, accepted⟩) (by decide), _, accepted, rfl, rfl⟩

end PowerAsm.Proofs.SpecialRegisters
