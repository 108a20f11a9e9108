import PowerAsm.Instruction.Alias
import PowerAsm.Proofs.Table

/-! Simplified mnemonics. The alias that is written for a decoded instruction stands for
that instruction, and its operands are found again when they are written down. -/
namespace PowerAsm.Proofs.Aliases
open Fields Integers Forms OperandFields Layouts Table
open Option (ite_none_right_eq_some)

/-- A shift stands for its rotate as long as the amount is in range. -/
theorem checkShift_then_eq_ok_iff {op : String} {n limit : Int64} {i j : Instr} :
    (Layout.checkShift op n limit >>= fun _ => .ok i) = .ok j ↔
      (0 ≤ n.toInt ∧ n.toInt ≤ limit.toInt) ∧ i = j := by
  simp [bind_eq_ok_iff, checkShift_eq_ok_iff]

theorem exists_ofNat {v : Int64} (bound : Nat) (above : 0 ≤ v.toInt) (below : v.toInt < bound) :
    ∃ n < bound, Int64.ofNat n = v := by
  have largest := Int64.toInt_lt v
  refine ⟨v.toInt.toNat, by omega, Int64.toInt_inj.mp ?_⟩
  rw [Int64.toInt_ofNat_of_lt (by omega), Int.toNat_of_nonneg above]

/-- A conditional branch is written with the condition field and the condition that its
options stand for. -/
theorem ofBranch?_eq_some {bo bi : Int64} {cr : CrField} {c : Condition} (above : 0 ≤ bi.toInt)
    (below : bi.toInt < 32) (found : Condition.ofBranch? bo bi = some (cr, c)) :
    branchOption c.onSet = bo ∧ cr.bit c.bit = bi := by
  have option : bo = branchOption true ∨ bo = branchOption false := by
    by_cases set : bo = branchOption true
    · exact .inl set
    · by_cases clear : bo = branchOption false
      · exact .inr clear
      · simp [Condition.ofBranch?, set, clear] at found
  have meant : ∀ n < 32, ∀ onSet, (Condition.ofBranch? (branchOption onSet) (Int64.ofNat n)).all
      (fun p => branchOption p.2.onSet == branchOption onSet &&
        p.1.bit p.2.bit == Int64.ofNat n) = true := by
    decide
  obtain ⟨n, small, rfl⟩ := exists_ofNat 32 above below
  obtain rfl | rfl := option
  · simpa [found] using meant n small true
  · simpa [found] using meant n small false

theorem split_bound (w : Word) (low high : Nat) :
    0 ≤ (w.unsigned low 5 + 32 * w.unsigned high 1).toInt ∧
      (w.unsigned low 5 + 32 * w.unsigned high 1).toInt ≤ 63 := by
  have lower := field_bound w low 5 (by decide)
  have upper := field_bound w high 1 (by decide)
  rw [split_toInt w low high 1 (by decide)]
  omega

/-- The alias that is written for a decoded instruction stands for that instruction. -/
theorem expand_simplify (i : Instr) (u : Alias.Use) (w : Word) (pc : Int64)
    (read : i.args = i.op.read w pc) (found : i.simplify = some u) :
    u.head.expand u.args = .ok i := by
  obtain ⟨op, args⟩ := i
  cases op with
  | or =>
    obtain ⟨ra, rs, rb, ⟨⟩⟩ := args
    obtain ⟨rfl, ⟨⟩⟩ := ite_none_right_eq_some.mp found
    rfl
  | ori =>
    obtain ⟨ra, rs, ui, ⟨⟩⟩ := args
    obtain ⟨⟨rfl, rfl, rfl⟩, ⟨⟩⟩ := ite_none_right_eq_some.mp found
    rfl
  | addi | addis =>
    obtain ⟨rt, ra, si, ⟨⟩⟩ := args
    obtain ⟨rfl, ⟨⟩⟩ := ite_none_right_eq_some.mp found
    rfl
  | subf =>
    cases found
    rfl
  | bclr | bcctr | bcctrl =>
    obtain ⟨bo, bi, ⟨⟩⟩ := args
    obtain ⟨⟨rfl, rfl⟩, ⟨⟩⟩ := ite_none_right_eq_some.mp found
    rfl
  | bc =>
    obtain ⟨bo, bi, dest, ⟨⟩⟩ := args
    cases read
    obtain ⟨⟨cr, c⟩, tested, ⟨⟩⟩ := Option.map_eq_some_iff.mp found
    have bound := field_bound w 16 5 (by decide)
    obtain ⟨option, bit⟩ := ofBranch?_eq_some bound.1 bound.2 tested
    show Except.ok (Instr.mk .bc (branchOption c.onSet, cr.bit c.bit, _, ())) = _
    rw [option, bit]
    rfl
  | rlwinm =>
    obtain ⟨ra, rs, sh, mb, me, ⟨⟩⟩ := args
    have amount : 0 ≤ sh.toInt ∧ sh.toInt ≤ 31 := by
      cases read
      have bound := field_bound w 11 5 (by decide)
      exact ⟨bound.1, Int.le_of_lt_add_one bound.2⟩
    have start : 0 ≤ mb.toInt ∧ mb.toInt ≤ 31 := by
      cases read
      have bound := field_bound w 6 5 (by decide)
      exact ⟨bound.1, Int.le_of_lt_add_one bound.2⟩
    simp only [Instr.simplify] at found
    split at found
    · rename_i matched
      obtain ⟨rfl, rfl⟩ := matched
      cases found
      exact checkShift_then_eq_ok_iff.mpr ⟨amount, rfl⟩
    · obtain ⟨⟨rfl, rfl⟩, ⟨⟩⟩ := ite_none_right_eq_some.mp found
      exact checkShift_then_eq_ok_iff.mpr ⟨start, rfl⟩
  | rldicr =>
    obtain ⟨ra, rs, sh, me, ⟨⟩⟩ := args
    have amount : 0 ≤ sh.toInt ∧ sh.toInt ≤ 63 := by
      cases read
      exact split_bound w 11 1
    obtain ⟨rfl, ⟨⟩⟩ := ite_none_right_eq_some.mp found
    exact checkShift_then_eq_ok_iff.mpr ⟨amount, rfl⟩
  | rldicl =>
    obtain ⟨ra, rs, sh, mb, ⟨⟩⟩ := args
    have start : 0 ≤ mb.toInt ∧ mb.toInt ≤ 63 := by
      cases read
      exact split_bound w 6 5
    simp only [Instr.simplify] at found
    split at found
    · rename_i matched
      subst matched
      cases found
      exact checkShift_then_eq_ok_iff.mpr ⟨start, rfl⟩
    · obtain ⟨rfl, ⟨⟩⟩ := ite_none_right_eq_some.mp found
      exact checkShift_then_eq_ok_iff.mpr ⟨start, rfl⟩
  | mfspr =>
    obtain ⟨rt, spr, ⟨⟩⟩ := args
    simp only [Instr.simplify] at found
    split at found
    · rename_i matched
      subst matched
      cases found
      rfl
    · obtain ⟨rfl, ⟨⟩⟩ := ite_none_right_eq_some.mp found
      rfl
  | mtspr =>
    obtain ⟨spr, rs, ⟨⟩⟩ := args
    simp only [Instr.simplify] at found
    split at found
    · rename_i matched
      subst matched
      cases found
      rfl
    · obtain ⟨rfl, ⟨⟩⟩ := ite_none_right_eq_some.mp found
      rfl
  | mtcrf =>
    obtain ⟨mask, rs, ⟨⟩⟩ := args
    obtain ⟨rfl, ⟨⟩⟩ := ite_none_right_eq_some.mp found
    rfl
  | tw =>
    obtain ⟨option, ra, rb, ⟨⟩⟩ := args
    obtain ⟨⟨rfl, rfl, rfl⟩, ⟨⟩⟩ := ite_none_right_eq_some.mp found
    rfl
  | _ => exact nomatch (show none = some u from found)

theorem read?_write (t : OperandType) (v : t.Value) : t.read? (t.write v) = some v := by
  cases t <;> simp [OperandType.read?, OperandType.write, Gpr.ofCode, Gpr.code, Fpr.ofCode,
    Fpr.code, CrField.ofCode, CrField.code, Spr.ofCode, Spr.code]

/-- Operands that are written down and read again are the same. -/
theorem ofOperands?_toOperands (types : List OperandType) (args : Args types) :
    Args.ofOperands? types (Args.toOperands types args) = some args := by
  induction types with
  | nil => rfl
  | cons t ts ih =>
    obtain ⟨v, vs⟩ := args
    simp [Args.toOperands, Args.ofOperands?, read?_write, ih]

/-- A condition field that is left out is filled in again. -/
theorem complete_shorten (a : Alias) (args : Args a.operands) :
    a.complete (a.shorten (Args.toOperands a.operands args)) = Args.toOperands a.operands args := by
  cases a with
  | branch c =>
    obtain ⟨cr, dest, ⟨⟩⟩ := args
    by_cases zero : cr.code = 0
    · simp [Alias.operands, Args.toOperands, OperandType.write, Alias.shorten, Alias.complete, zero]
    · simp [Alias.operands, Args.toOperands, OperandType.write, Alias.shorten, Alias.complete, zero]
  | _ => rfl

end PowerAsm.Proofs.Aliases
