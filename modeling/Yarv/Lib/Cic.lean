import Mathlib.Algebra.BigOperators.Ring.Finset
import Mathlib.Algebra.Order.BigOperators.Ring.Finset
import Mathlib.Tactic

/-!
# Decimation by integrators and combs

Two integrators at the input rate, then two combs at the output rate: their output is the input under a triangular
window. The state is only added and subtracted, so this holds in every commutative ring, in particular in one in which
the integrators wrap.  Behind it stands a DC blocker with a rounded leak, whose state stays bounded.
-/

namespace Cic

open Finset

/-! ### Windows on the past -/

section Window

variable {A : Type} [CommRing A]

/-- The `j`-th last of the first `n` samples, zero before the start. -/
def past (x : ℕ → A) (n j : ℕ) : A := if j < n then x (n - 1 - j) else 0

/-- The first sum. -/
def total (x : ℕ → A) (n : ℕ) : A := ∑ j ∈ range n, past x n j

/-- The sum of the sums: the samples weighted by their age. -/
def ramp (x : ℕ → A) (n : ℕ) : A := ∑ j ∈ range n, ((j + 1 : ℕ) : A) * past x n j

/-- The weights `1, …, R, …, 1`. -/
def tri (R j : ℕ) : ℕ := min (j + 1) (2 * R - 1 - j)

/-- The last `2 * R - 1` samples under the triangular window. -/
def triangle (R : ℕ) (x : ℕ → A) (n : ℕ) : A := ∑ j ∈ range (2 * R - 1), (tri R j : A) * past x n j

variable {x : ℕ → A} {R n m j : ℕ}

theorem past_of_le (h : n ≤ j) : past x n j = 0 := if_neg (Nat.not_lt.mpr h)

theorem past_succ_zero : past x (n + 1) 0 = x n := by
  rw [past, if_pos (Nat.succ_pos n)]
  rfl

theorem past_succ_succ : past x (n + 1) (j + 1) = past x n j := by
  unfold past
  by_cases h : j < n
  · rw [if_pos h, if_pos (Nat.succ_lt_succ h)]
    congr 1
    omega
  · rw [if_neg h, if_neg (by omega)]

theorem past_sub (h : m ≤ n) : past x (n - m) j = past x n (m + j) := by
  unfold past
  by_cases hj : j < n - m
  · rw [if_pos hj, if_pos (by omega)]
    congr 1
    omega
  · rw [if_neg hj, if_neg (by omega)]

theorem total_succ : total x (n + 1) = total x n + x n := by
  rw [total, sum_range_succ', past_succ_zero]
  congr 1
  exact sum_congr rfl fun j _ => past_succ_succ

theorem ramp_succ : ramp x (n + 1) = ramp x n + total x (n + 1) := by
  rw [ramp, total, sum_range_succ', sum_range_succ' (fun j => past x (n + 1) j), ramp, ← add_assoc, ← sum_add_distrib]
  congr 1
  · apply sum_congr rfl
    intro j _
    rw [past_succ_succ]
    push_cast
    ring
  · rw [Nat.zero_add, Nat.cast_one, one_mul]

@[simp] theorem total_zero : total x 0 = 0 := rfl

@[simp] theorem ramp_zero : ramp x 0 = 0 := rfl

/-- A sum over the past may run on into the time before the start. -/
theorem sum_past (w : ℕ → A) {N : ℕ} (h : n ≤ N) :
    ∑ j ∈ range n, w j * past x n j = ∑ j ∈ range N, w j * past x n j := by
  apply sum_subset (range_subset_range.mpr h)
  intro j _ hj
  rw [past_of_le (by simpa using hj), mul_zero]

/-- An earlier ramp in terms of the present past. -/
theorem ramp_sub : ramp x (n - m) = ∑ j ∈ range n, ((j + 1 - m : ℕ) : A) * past x n j := by
  by_cases h : m ≤ n
  · obtain ⟨k, rfl⟩ := Nat.exists_eq_add_of_le h
    have hzero : ∑ j ∈ range m, ((j + 1 - m : ℕ) : A) * past x (m + k) j = 0 := by
      apply sum_eq_zero
      intro j hj
      rw [mem_range] at hj
      rw [Nat.sub_eq_zero_of_le hj, Nat.cast_zero, zero_mul]
    rw [sum_range_add, hzero, zero_add, Nat.add_sub_cancel_left, ramp]
    apply sum_congr rfl
    intro j _
    have hage : m + j + 1 - m = j + 1 := by omega
    have hpast := past_sub (x := x) (j := j) h
    rw [Nat.add_sub_cancel_left] at hpast
    rw [hage, hpast]
  · have hn : n - m = 0 := by omega
    rw [hn, ramp_zero]
    symm
    apply sum_eq_zero
    intro j hj
    rw [mem_range] at hj
    rw [Nat.sub_eq_zero_of_le (by omega), Nat.cast_zero, zero_mul]

/-- The second difference of the ramp is the triangle. -/
theorem ramp_difference (R n : ℕ) (x : ℕ → A) :
    ramp x n - ramp x (n - R) - (ramp x (n - R) - ramp x (n - 2 * R)) = triangle R x n := by
  have htri : triangle R x n = ∑ j ∈ range n, (tri R j : A) * past x n j := by
    rw [triangle, sum_past (fun j => (tri R j : A)) (Nat.le_add_left n (2 * R - 1))]
    apply sum_subset (range_subset_range.mpr (Nat.le_add_right _ _))
    intro j _ hj
    have hzero : tri R j = 0 := by
      rw [mem_range] at hj
      unfold tri
      omega
    rw [hzero, Nat.cast_zero, zero_mul]
  rw [ramp_sub, ramp_sub, ramp, htri, ← sum_sub_distrib, ← sum_sub_distrib, ← sum_sub_distrib]
  apply sum_congr rfl
  intro j _
  have hw : j + 1 + (j + 1 - 2 * R) = tri R j + 2 * (j + 1 - R) := by
    unfold tri
    omega
  have hcast : ((j + 1 : ℕ) : A) + ((j + 1 - 2 * R : ℕ) : A) = (tri R j : A) + 2 * ((j + 1 - R : ℕ) : A) := by
    exact_mod_cast congrArg (Nat.cast (R := A)) hw
  calc ((j + 1 : ℕ) : A) * past x n j - ((j + 1 - R : ℕ) : A) * past x n j -
        (((j + 1 - R : ℕ) : A) * past x n j - ((j + 1 - 2 * R : ℕ) : A) * past x n j)
      = (((j + 1 : ℕ) : A) + ((j + 1 - 2 * R : ℕ) : A) - 2 * ((j + 1 - R : ℕ) : A)) * past x n j := by ring
    _ = (tri R j : A) * past x n j := by
      rw [hcast]
      ring

/-- The window commutes with the reduction of the integers into the ring. -/
theorem triangle_cast (R n : ℕ) (z : ℕ → ℤ) : triangle R (fun i => (z i : A)) n = ((triangle R z n : ℤ) : A) := by
  unfold triangle
  push_cast
  apply sum_congr rfl
  intro j _
  unfold past
  by_cases h : j < n
  · rw [if_pos h, if_pos h]
  · rw [if_neg h, if_neg h, Int.cast_zero]

end Window

/-! ### The size of the output -/

section Bounds

theorem total_one (n : ℕ) : total (fun _ => (1 : ℤ)) n = n := by
  induction n with
  | zero => rfl
  | succ n ih => rw [total_succ, ih, Nat.cast_succ]

theorem ramp_one (n : ℕ) : 2 * ramp (fun _ => (1 : ℤ)) n = n * (n + 1) := by
  induction n with
  | zero => rfl
  | succ n ih =>
    rw [ramp_succ, mul_add, ih, total_one]
    push_cast
    ring

/-- The gain of the filter. -/
theorem sum_tri (R : ℕ) : ∑ j ∈ range (2 * R - 1), (tri R j : ℤ) = R ^ 2 := by
  have hone : triangle R (fun _ => (1 : ℤ)) (2 * R) = ∑ j ∈ range (2 * R - 1), (tri R j : ℤ) := by
    apply sum_congr rfl
    intro j hj
    rw [mem_range] at hj
    rw [past, if_pos (by omega), mul_one]
  have hfar := ramp_one (2 * R)
  have hmid := ramp_one R
  have htwo : 2 * R - R = R := by omega
  rw [← hone, ← ramp_difference, Nat.sub_self, ramp_zero, htwo]
  push_cast at hfar
  linarith

variable {z : ℕ → ℤ} {lo hi : ℤ}

theorem past_bounds (hz : ∀ i, lo ≤ z i ∧ z i ≤ hi) (hlo : lo ≤ 0) (hhi : 0 ≤ hi) (n j : ℕ) :
    lo ≤ past z n j ∧ past z n j ≤ hi := by
  unfold past
  by_cases h : j < n
  · rw [if_pos h]
    exact hz _
  · rw [if_neg h]
    exact ⟨hlo, hhi⟩

/-- The output is at most the gain times the input. -/
theorem triangle_bounds (hz : ∀ i, lo ≤ z i ∧ z i ≤ hi) (hlo : lo ≤ 0) (hhi : 0 ≤ hi) (R n : ℕ) :
    (R : ℤ) ^ 2 * lo ≤ triangle R z n ∧ triangle R z n ≤ (R : ℤ) ^ 2 * hi := by
  rw [← sum_tri, sum_mul, sum_mul]
  constructor
  · apply sum_le_sum
    intro j _
    exact mul_le_mul_of_nonneg_left (past_bounds hz hlo hhi n j).1 (Int.natCast_nonneg _)
  · apply sum_le_sum
    intro j _
    exact mul_le_mul_of_nonneg_left (past_bounds hz hlo hhi n j).2 (Int.natCast_nonneg _)

end Bounds

/-! ### The filter -/

/-- Two integrators and two combs. -/
structure Filter (A : Type) where
  i1 : A
  i2 : A
  d1 : A
  d2 : A

namespace Filter

variable {A : Type} [CommRing A]

/-- A sample into the integrators. -/
def push (c : Filter A) (x : A) : Filter A := { c with i1 := c.i1 + x, i2 := c.i2 + (c.i1 + x) }

/-- The output of the combs. -/
def out (c : Filter A) : A := c.i2 - c.d1 - c.d2

/-- The combs take the integral over. -/
def dump (c : Filter A) : Filter A := { c with d1 := c.i2, d2 := c.i2 - c.d1 }

/-- The state behind `n` samples, of which the combs have seen `m`. -/
structure Holds (R : ℕ) (x : ℕ → A) (n m : ℕ) (c : Filter A) : Prop where
  i1 : c.i1 = total x n
  i2 : c.i2 = ramp x n
  d1 : c.d1 = ramp x m
  d2 : c.d2 = ramp x m - ramp x (m - R)

variable {R n m : ℕ} {x : ℕ → A} {c : Filter A}

theorem Holds.start : Holds R x 0 0 (⟨0, 0, 0, 0⟩ : Filter A) := by
  constructor
  · rfl
  · rfl
  · rfl
  · rw [Nat.zero_sub, sub_self]

theorem Holds.push (h : Holds R x n m c) : Holds R x (n + 1) m (c.push (x n)) where
  i1 := by rw [total_succ, ← h.i1, Filter.push]
  i2 := by rw [ramp_succ, total_succ, ← h.i1, ← h.i2, Filter.push]
  d1 := h.d1
  d2 := h.d2

/-- The output behind `R` more samples. -/
theorem Holds.out (h : Holds R x (m + R) m c) : c.out = triangle R x (m + R) := by
  have hone : m + R - R = m := by omega
  have htwo : m + R - 2 * R = m - R := by omega
  rw [← ramp_difference, hone, htwo, Filter.out, h.i2, h.d1, h.d2]

theorem Holds.dump (h : Holds R x (m + R) m c) : Holds R x (m + R) (m + R) c.dump where
  i1 := h.i1
  i2 := h.i2
  d1 := h.i2
  d2 := by rw [Nat.add_sub_cancel, ← h.i2, ← h.d1, Filter.dump]

end Filter

/-! ### The DC blocker -/

/-- The state of `y += (s - x1) - y / 2 ^ k` behind `n` samples. -/
def blocked (k : ℕ) (s : ℕ → ℤ) : ℕ → ℤ
  | 0 => 0
  | n + 1 => blocked k s n + (s (n + 1) - s n) - blocked k s n / 2 ^ k

/-- A rounded leak of something stays on its side of zero. -/
theorem leak_bounds {d : ℤ} (hd : 0 < d) (z : ℤ) :
    (0 ≤ z → 0 ≤ z / d ∧ z / d ≤ z) ∧ (z < 0 → z ≤ z / d ∧ z / d < 0) := by
  refine ⟨fun hz => ⟨Int.ediv_nonneg hz hd.le, Int.ediv_le_self d hz⟩,
    fun hz => ⟨?_, Int.ediv_neg_of_neg_of_pos hz hd⟩⟩
  rw [Int.le_ediv_iff_mul_le hd]
  nlinarith

variable {k : ℕ} {s : ℕ → ℤ} {B : ℤ}

/-- The state stays within the size of the samples around the last one. -/
theorem blocked_near (h0 : s 0 = 0) (hs : ∀ n, -B ≤ s n ∧ s n ≤ B) (n : ℕ) :
    -B ≤ blocked k s n - s n ∧ blocked k s n - s n ≤ B := by
  induction n with
  | zero =>
    have hB := hs 0
    rw [h0] at hB ⊢
    exact ⟨by rw [blocked]; linarith, by rw [blocked]; linarith⟩
  | succ n ih =>
    have hd : (0 : ℤ) < 2 ^ k := by positivity
    have hstep : blocked k s (n + 1) - s (n + 1) = blocked k s n - s n - blocked k s n / 2 ^ k := by
      rw [blocked]
      ring
    obtain ⟨hpos, hneg⟩ := leak_bounds hd (blocked k s n)
    have hsn := hs n
    rw [hstep]
    rcases lt_or_ge (blocked k s n) 0 with hz | hz
    · obtain ⟨h1, h2⟩ := hneg hz
      exact ⟨by linarith, by linarith⟩
    · obtain ⟨h1, h2⟩ := hpos hz
      exact ⟨by linarith, by linarith⟩

theorem blocked_bounds (h0 : s 0 = 0) (hs : ∀ n, -B ≤ s n ∧ s n ≤ B) (n : ℕ) :
    -(2 * B) ≤ blocked k s n ∧ blocked k s n ≤ 2 * B := by
  have hnear := blocked_near (k := k) h0 hs n
  have hsn := hs n
  exact ⟨by linarith, by linarith⟩

end Cic
