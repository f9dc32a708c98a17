import Mathlib.Analysis.Complex.Norm
import Mathlib.Data.Int.Bitwise

/-!
# Rounding half up

`halfUp k v` is `v / 2 ^ (k + 1)` rounded half up, as a shift computes it.
-/

namespace Yarv

/-- Add a half, then shift. -/
def halfUp (k : Nat) (v : Int) : Int := (v + 2 ^ k) >>> (k + 1)

variable {k : Nat} {v n : Int}

theorem le_halfUp_iff : n ≤ halfUp k v ↔ 2 ^ (k + 1) * n - 2 ^ k ≤ v := by
  have hpos : (0 : Int) < 2 ^ (k + 1) := by positivity
  unfold halfUp
  rw [Int.shiftRight_eq_div_pow, Int.le_ediv_iff_mul_le (by exact_mod_cast hpos)]
  push_cast
  constructor
  · intro h
    linarith
  · intro h
    linarith

theorem halfUp_lt_iff : halfUp k v < n ↔ v < 2 ^ (k + 1) * n - 2 ^ k := by
  rw [← not_le, le_halfUp_iff, not_le]

/-- The error is at most one half. -/
theorem halfUp_error (k : Nat) (v : Int) : |(halfUp k v : ℝ) - v / 2 ^ (k + 1)| ≤ 1 / 2 := by
  have h1 : 2 ^ (k + 1) * halfUp k v - 2 ^ k ≤ v := le_halfUp_iff.mp le_rfl
  have h2 : v < 2 ^ (k + 1) * (halfUp k v + 1) - 2 ^ k := halfUp_lt_iff.mp (Int.lt_succ _)
  have h1' : (2 : ℝ) ^ (k + 1) * halfUp k v - 2 ^ k ≤ v := by exact_mod_cast h1
  have h2' : (v : ℝ) < 2 ^ (k + 1) * (halfUp k v + 1) - 2 ^ k := by exact_mod_cast h2
  have hpos : (0 : ℝ) < 2 ^ (k + 1) := by positivity
  have hpow : (2 : ℝ) ^ (k + 1) = 2 * 2 ^ k := by rw [pow_succ, mul_comm]
  have hdiv : (halfUp k v : ℝ) - v / 2 ^ (k + 1) = (2 ^ (k + 1) * halfUp k v - v) / 2 ^ (k + 1) := by
    field_simp
  rw [hdiv, abs_div, abs_of_pos hpos, div_le_iff₀ hpos, abs_le]
  rw [mul_add, mul_one] at h2'
  constructor
  · linarith
  · linarith

/-- A complex number of small parts. -/
theorem norm_le_of_parts {z : ℂ} {e : ℝ} (hre : |z.re| ≤ e) (him : |z.im| ≤ e) : ‖z‖ ≤ 1.4143 * e := by
  have he : 0 ≤ e := le_trans (abs_nonneg _) hre
  have hsqrt : √2 ≤ 1.4143 := by
    rw [Real.sqrt_le_left (by norm_num)]
    norm_num
  calc ‖z‖ ≤ √2 * max |z.re| |z.im| := Complex.norm_le_sqrt_two_mul_max z
    _ ≤ 1.4143 * e := mul_le_mul hsqrt (max_le hre him) (le_max_of_le_left (abs_nonneg _)) (by norm_num)

end Yarv
