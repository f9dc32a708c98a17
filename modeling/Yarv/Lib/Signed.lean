import Mathlib.Data.BitVec
import Mathlib.Tactic

/-!
# Signed words as integers

Two's complement arithmetic is exact while its results fit.
-/

namespace Signed

variable {w : ℕ} {a b : BitVec (w + 1)} {z : ℤ}

/-- A value of `w + 1` bits with a sign. -/
def Fits (w : ℕ) (z : ℤ) : Prop := -2 ^ w ≤ z ∧ z < 2 ^ w

theorem bmod_of_fits (h : Fits w z) : z.bmod (2 ^ (w + 1)) = z := by
  obtain ⟨hlo, hhi⟩ := h
  apply Int.bmod_eq_of_le_mul_two
  · push_cast
    rw [pow_succ]
    linarith
  · push_cast
    rw [pow_succ]
    linarith

theorem toInt_add (h : Fits w (a.toInt + b.toInt)) : (a + b).toInt = a.toInt + b.toInt := by
  rw [BitVec.toInt_add, bmod_of_fits h]

theorem toInt_sub (h : Fits w (a.toInt - b.toInt)) : (a - b).toInt = a.toInt - b.toInt := by
  rw [BitVec.toInt_sub, bmod_of_fits h]

theorem toInt_mul (h : Fits w (a.toInt * b.toInt)) : (a * b).toInt = a.toInt * b.toInt := by
  rw [BitVec.toInt_mul, bmod_of_fits h]

theorem toInt_neg (h : Fits w (-a.toInt)) : (-a).toInt = -a.toInt := by
  rw [BitVec.toInt_neg, bmod_of_fits h]

theorem toInt_cast (h : Fits w z) : ((z : BitVec (w + 1))).toInt = z := by
  rw [BitVec.toInt_intCast, bmod_of_fits h]

theorem toInt_sshiftRight (a : BitVec (w + 1)) (n : ℕ) : (a.sshiftRight n).toInt = a.toInt / 2 ^ n := by
  rw [BitVec.toInt_sshiftRight, Int.shiftRight_eq_div_pow]
  norm_cast

end Signed
