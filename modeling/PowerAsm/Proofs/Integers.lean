import Mathlib.Algebra.Ring.Int.Defs
import Mathlib.Algebra.Ring.Nat
import PowerAsm.Format

/-! Machine integers as mathematical ones. Within the 64-bit range the operations on
`Int64` are those on integers, shifting to the right divides and masking takes a
remainder; a register number that fits its field survives the way through a word. -/
namespace PowerAsm.Proofs.Integers

theorem toInt_add_of_range {a b : Int64} (above : -2 ^ 63 ≤ a.toInt + b.toInt)
    (below : a.toInt + b.toInt < 2 ^ 63) : (a + b).toInt = a.toInt + b.toInt := by
  rw [Int64.toInt_add, Int.bmod_eq_of_le (by omega) (by omega)]

theorem toInt_sub_of_range {a b : Int64} (above : -2 ^ 63 ≤ a.toInt - b.toInt)
    (below : a.toInt - b.toInt < 2 ^ 63) : (a - b).toInt = a.toInt - b.toInt := by
  rw [Int64.toInt_sub, Int.bmod_eq_of_le (by omega) (by omega)]

theorem toInt_mul_of_range {a b : Int64} (above : -2 ^ 63 ≤ a.toInt * b.toInt)
    (below : a.toInt * b.toInt < 2 ^ 63) : (a * b).toInt = a.toInt * b.toInt := by
  rw [Int64.toInt_mul, Int.bmod_eq_of_le (by omega) (by omega)]

private theorem shift_amount :
    ∀ n < 64, (Int64.ofNat n).toBitVec.smod 64 = BitVec.ofNat 64 n := by
  decide +kernel

/-- Shifting to the right divides, rounding down. -/
theorem toInt_shiftRight (a : Int64) (n : Nat) (small : n < 64) :
    (a >>> Int64.ofNat n).toInt = a.toInt / 2 ^ n := by
  rw [← Int64.toInt_toBitVec, Int64.toBitVec_shiftRight, shift_amount n small,
    BitVec.toInt_sshiftRight', BitVec.toNat_ofNat, Nat.mod_eq_of_lt (by omega),
    Int64.toInt_toBitVec]
  exact Int.shiftRight_eq_div_pow a.toInt n

private theorem toInt_emod_pow (a : Int64) (n : Nat) (small : n ≤ 64) :
    a.toInt % 2 ^ n = (a.toBitVec.toNat : Int) % 2 ^ n := by
  have divides : (2 ^ n : Int) ∣ (2 ^ 64 : Nat) := by
    exact_mod_cast Nat.pow_dvd_pow 2 small
  have close : (2 ^ n : Int) ∣ (a.toBitVec.toNat : Int).bmod (2 ^ 64) - a.toBitVec.toNat :=
    Int.dvd_trans divides Int.dvd_bmod_sub_self
  rw [← Int64.toInt_toBitVec, BitVec.toInt_eq_toNat_bmod]
  exact Int.emod_eq_emod_iff_emod_sub_eq_zero.mpr (Int.emod_eq_zero_of_dvd close)

/-- Masking the low bits takes the remainder. -/
theorem toInt_and_mask (a : Int64) (n : Nat) (small : n < 63) :
    (a &&& Int64.ofNat (2 ^ n - 1)).toInt = a.toInt % 2 ^ n := by
  have room : 2 ^ n ≤ 2 ^ 62 := Nat.pow_le_pow_right (by omega) (by omega)
  have mask : (Int64.ofNat (2 ^ n - 1)).toBitVec.toNat = 2 ^ n - 1 := by
    simp
    omega
  have low : (a.toBitVec &&& (Int64.ofNat (2 ^ n - 1)).toBitVec).toNat =
      a.toBitVec.toNat % 2 ^ n := by
    rw [BitVec.toNat_and, mask, Nat.and_two_pow_sub_one_eq_mod]
  have short : a.toBitVec.toNat % 2 ^ n < 2 ^ n := Nat.mod_lt _ (by omega)
  rw [toInt_emod_pow a n (by omega), ← Int64.toInt_toBitVec, Int64.toBitVec_and,
    BitVec.toInt_eq_toNat_of_lt (by rw [low]; omega), low]
  simp

theorem and_mask_eq_mod {a : Int64} (n : Nat) (small : n < 62) (above : 0 ≤ a.toInt) :
    a &&& Int64.ofNat (2 ^ n - 1) = a % Int64.ofNat (2 ^ n) := by
  have room : 2 ^ n ≤ 2 ^ 62 := Nat.pow_le_pow_right (by omega) (by omega)
  apply Int64.toInt_inj.mp
  rw [toInt_and_mask a n (by omega), Int64.toInt_mod, Int64.toInt_ofNat_of_lt (by omega),
    Int.tmod_eq_emod_of_nonneg above]
  norm_cast

end PowerAsm.Proofs.Integers
