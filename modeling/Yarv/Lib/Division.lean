import Mathlib.Tactic

/-!
# Restoring division

The shift-and-subtract division of an `n`-bit dividend by a positive divisor, with remainder and quotient in one
`2 n`-bit register.  `acc` is the register after `k` iterations; one iteration doubles it and, when the divisor fits
into the upper half, subtracts it there and sets the quotient bit.
-/

namespace Division

variable (n A B : Nat)

/-- The dividend bits consumed after `k` iterations. -/
def taken (k : Nat) : Nat := A / 2 ^ (n - k)

/-- The register after `k` iterations: the partial remainder, the bits still to come, the quotient so far. -/
def acc (k : Nat) : Nat := taken n A k % B * 2 ^ n + (A % 2 ^ (n - k) * 2 ^ k + taken n A k / B)

variable {n A B} {k : Nat}

theorem acc_zero (hA : A < 2 ^ n) : acc n A B 0 = A := by
  simp [acc, taken, Nat.div_eq_of_lt hA, Nat.mod_eq_of_lt hA]

theorem acc_last : acc n A B n = A % B * 2 ^ n + A / B := by
  simp [acc, taken, Nat.mod_one]

/-- Another iteration takes one more bit. -/
theorem taken_succ (hk : k < n) : taken n A (k + 1) = 2 * taken n A k + A / 2 ^ (n - (k + 1)) % 2 := by
  have he : n - k = n - (k + 1) + 1 := by omega
  rw [taken, taken, he, pow_succ, ← Nat.div_div_eq_div_mul]
  omega

theorem taken_lt (hA : A < 2 ^ n) (hk : k ≤ n) : taken n A k < 2 ^ k := by
  have he : 2 ^ n = 2 ^ k * 2 ^ (n - k) := by rw [← pow_add]; congr 1; omega
  exact Nat.div_lt_of_lt_mul (by rw [mul_comm, ← he]; exact hA)

/-- The bits still to come lose their top bit. -/
theorem rest_succ (hk : k < n) :
    A % 2 ^ (n - k) = A / 2 ^ (n - (k + 1)) % 2 * 2 ^ (n - (k + 1)) + A % 2 ^ (n - (k + 1)) := by
  have he : n - k = n - (k + 1) + 1 := by omega
  rw [he, pow_succ, Nat.mod_mul]
  ring

/-- The lower half of the doubled register. -/
def low (n A B k : Nat) : Nat := A % 2 ^ (n - (k + 1)) * 2 ^ (k + 1) + 2 * (taken n A k / B)

/-- The upper half of the doubled register: the next partial remainder, before the subtraction. -/
def high (n A B k : Nat) : Nat := 2 * (taken n A k % B) + A / 2 ^ (n - (k + 1)) % 2

theorem double_acc (hk : k < n) : 2 * acc n A B k = high n A B k * 2 ^ n + low n A B k := by
  have h2 : 2 ^ n = 2 ^ (n - (k + 1)) * 2 ^ (k + 1) := by rw [← pow_add]; congr 1; omega
  rw [acc, rest_succ hk, high, low, h2, pow_succ 2 k]
  ring

theorem low_lt (hA : A < 2 ^ n) (hk : k < n) : low n A B k < 2 ^ n := by
  have h2 : 2 ^ n = 2 ^ (n - (k + 1)) * 2 ^ (k + 1) := by rw [← pow_add]; congr 1; omega
  have hq : 2 * (taken n A k / B) < 2 ^ (k + 1) := by
    have := Nat.div_le_self (taken n A k) B
    have := taken_lt hA hk.le
    rw [pow_succ]
    omega
  have hr : A % 2 ^ (n - (k + 1)) + 1 ≤ 2 ^ (n - (k + 1)) := Nat.mod_lt _ (by positivity)
  calc low n A B k < (A % 2 ^ (n - (k + 1)) + 1) * 2 ^ (k + 1) := by rw [low, add_mul]; omega
    _ ≤ 2 ^ n := by rw [h2]; exact Nat.mul_le_mul_right _ hr

theorem high_lt (hA : A < 2 ^ n) (hk : k < n) : high n A B k < 2 ^ n := by
  have h1 := Nat.mod_le (taken n A k) B
  have h2 := taken_lt hA hk.le
  have h3 : 2 ^ (k + 1) ≤ 2 ^ n := Nat.pow_le_pow_right (by decide) hk
  rw [pow_succ] at h3
  rw [high]
  omega

theorem low_even : low n A B k % 2 = 0 := by
  rw [low, pow_succ, ← mul_assoc]
  omega

/-- Another bit behind a dividend whose quotient and remainder are known. -/
theorem div_mod_bit {T c : Nat} (hB : 0 < B) (hc : c < 2) :
    (2 * T + c) / B = 2 * (T / B) + (if B ≤ 2 * (T % B) + c then 1 else 0) ∧
      (2 * T + c) % B = if B ≤ 2 * (T % B) + c then 2 * (T % B) + c - B else 2 * (T % B) + c := by
  have hR := Nat.div_add_mod T B
  have hlt := Nat.mod_lt T hB
  have hnext : 2 * T + c = 2 * (T % B) + c + B * (2 * (T / B)) := by
    linarith
  by_cases hle : B ≤ 2 * (T % B) + c
  · have hsub : 2 * T + c = 2 * (T % B) + c - B + B * (2 * (T / B) + 1) := by
      rw [hnext, mul_add]
      omega
    rw [if_pos hle, if_pos hle, hsub]
    constructor
    · rw [Nat.add_mul_div_left _ _ hB, Nat.div_eq_of_lt (by omega), Nat.zero_add]
    · rw [Nat.add_mul_mod_self_left, Nat.mod_eq_of_lt (by omega)]
  · rw [if_neg hle, if_neg hle, hnext]
    constructor
    · rw [Nat.add_mul_div_left _ _ hB, Nat.div_eq_of_lt (by omega), Nat.zero_add, Nat.add_zero]
    · rw [Nat.add_mul_mod_self_left, Nat.mod_eq_of_lt (by omega)]

/-- One iteration. -/
theorem acc_succ (hB : 0 < B) (hk : k < n) :
    acc n A B (k + 1) =
      if B ≤ high n A B k then (high n A B k - B) * 2 ^ n + (low n A B k + 1)
      else high n A B k * 2 ^ n + low n A B k := by
  have hbit : A / 2 ^ (n - (k + 1)) % 2 < 2 := Nat.mod_lt _ (by decide)
  obtain ⟨hdiv, hmod⟩ := div_mod_bit (T := taken n A k) hB hbit
  rw [← taken_succ hk] at hdiv hmod
  rw [acc, hmod, hdiv]
  unfold high low
  split
  · omega
  · omega

end Division
