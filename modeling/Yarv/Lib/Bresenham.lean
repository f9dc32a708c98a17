import Mathlib.Tactic

/-!
# Bresenham lines

The points of a line in the quadrant of its direction: one for each step along the longer side, with the other
coordinate rounded to the nearest integer, a half downwards.  The error term that decides the next step is linear in
the point reached.
-/

namespace Bresenham

/-- `i * m / n` to the nearest integer, a half downwards. -/
def nearest (n m i : ℤ) : ℤ := (2 * (i * m) + n - 1) / (2 * n)

/-- The point of step `k`. -/
def place (dx dy k : ℤ) : ℤ × ℤ := if dy ≤ dx then (k, nearest dx dy k) else (nearest dy dx k, k)

/-- The error term at the point `(a, b)`. -/
def errAt (dx dy a b : ℤ) : ℤ := (b + 1) * dx - (a + 1) * dy

variable {n m i j dx dy k : ℤ}

theorem nearest_eq_iff (hn : 0 < n) : nearest n m i = j ↔
    2 * (i * m) - n ≤ 2 * (j * n) ∧ 2 * (j * n) < 2 * (i * m) + n := by
  have hcomm : j * (2 * n) = 2 * (j * n) := by ring
  have hsucc : (j + 1) * (2 * n) = 2 * (j * n) + 2 * n := by ring
  unfold nearest
  rw [Int.ediv_eq_iff_of_pos (by omega), hcomm]
  constructor
  · rintro ⟨h1, h2⟩
    exact ⟨by linarith, by linarith⟩
  · rintro ⟨h1, h2⟩
    exact ⟨by linarith, by linarith⟩

theorem nearest_spec (hn : 0 < n) (m i : ℤ) :
    2 * (i * m) - n ≤ 2 * (nearest n m i * n) ∧ 2 * (nearest n m i * n) < 2 * (i * m) + n :=
  (nearest_eq_iff hn).mp rfl

theorem nearest_zero (n m : ℤ) (hn : 0 ≤ n) : nearest n m 0 = 0 := by
  rcases hn.lt_or_eq with hpos | rfl
  · rw [nearest_eq_iff hpos]
    omega
  · exact Int.ediv_zero _

theorem nearest_end (hn : 0 < n) : nearest n m n = m := by
  rw [nearest_eq_iff hn, mul_comm m n]
  omega

/-- One step along the longer side. -/
theorem nearest_succ (hn : 0 < n) (hm : 0 ≤ m) (hmn : m ≤ n) (i : ℤ) :
    nearest n m (i + 1) =
      if (2 * nearest n m i + 1) * n < 2 * ((i + 1) * m) then nearest n m i + 1 else nearest n m i := by
  obtain ⟨h1, h2⟩ := nearest_spec hn m i
  rw [nearest_eq_iff hn]
  have hi : (i + 1) * m = i * m + m := by ring
  have hj : (2 * nearest n m i + 1) * n = 2 * (nearest n m i * n) + n := by ring
  have hj' : (nearest n m i + 1) * n = nearest n m i * n + n := by ring
  by_cases h : (2 * nearest n m i + 1) * n < 2 * ((i + 1) * m)
  · rw [if_pos h, hj', hi]
    rw [hi, hj] at h
    omega
  · rw [if_neg h, hi]
    rw [hi, hj] at h
    omega

/-- The shorter side stays within its length. -/
theorem nearest_bounds (hn : 0 < n) (hm : 0 ≤ m) (hi : 0 ≤ i) (hin : i ≤ n) :
    0 ≤ nearest n m i ∧ nearest n m i ≤ m := by
  obtain ⟨h1, h2⟩ := nearest_spec hn m i
  have hlo : 0 ≤ i * m := mul_nonneg hi hm
  have hhi : i * m ≤ n * m := mul_le_mul_of_nonneg_right hin hm
  constructor
  · by_contra hneg
    have hle : nearest n m i * n ≤ -1 * n := mul_le_mul_of_nonneg_right (by omega) hn.le
    omega
  · by_contra hbig
    have hge : (m + 1) * n ≤ nearest n m i * n := mul_le_mul_of_nonneg_right (by omega) hn.le
    have hsucc : (m + 1) * n = n * m + n := by ring
    omega

theorem place_zero (hx : 0 ≤ dx) (hy : 0 ≤ dy) : place dx dy 0 = (0, 0) := by
  unfold place
  rw [nearest_zero dx dy hx, nearest_zero dy dx hy, ite_self]

/-- The last point is the end of the line. -/
theorem place_end (hx : 0 ≤ dx) (hy : 0 ≤ dy) : place dx dy (max dx dy) = (dx, dy) := by
  unfold place
  by_cases h : dy ≤ dx
  · rw [if_pos h, max_eq_left h]
    rcases hx.lt_or_eq with hpos | hzero
    · rw [nearest_end hpos]
    · obtain rfl : dy = dx := by omega
      rw [← hzero, nearest_zero 0 0 le_rfl]
  · rw [if_neg h, max_eq_right (by omega), nearest_end (by omega)]

/-- The points before the last one are others. -/
theorem place_ne_end (h : k < max dx dy) : place dx dy k ≠ (dx, dy) := by
  unfold place
  by_cases hle : dy ≤ dx
  · rw [max_eq_left hle] at h
    rw [if_pos hle]
    intro he
    exact h.ne (Prod.mk.inj he).1
  · rw [max_eq_right (by omega)] at h
    rw [if_neg hle]
    intro he
    exact h.ne (Prod.mk.inj he).2

theorem place_bounds (hx : 0 ≤ dx) (hy : 0 ≤ dy) (hk : 0 ≤ k) (h : k ≤ max dx dy) :
    (0 ≤ (place dx dy k).1 ∧ (place dx dy k).1 ≤ dx) ∧ 0 ≤ (place dx dy k).2 ∧ (place dx dy k).2 ≤ dy := by
  rcases hk.lt_or_eq with hpos | rfl
  · unfold place
    by_cases hle : dy ≤ dx
    · rw [max_eq_left hle] at h
      rw [if_pos hle]
      exact ⟨⟨hk, h⟩, nearest_bounds (by omega) hy hk h⟩
    · rw [max_eq_right (by omega)] at h
      rw [if_neg hle]
      exact ⟨nearest_bounds (by omega) hx hk h, hk, h⟩
  · rw [place_zero hx hy]
    exact ⟨⟨le_rfl, hx⟩, le_rfl, hy⟩

/-- The step that the error term decides on. -/
theorem place_succ (hx : 0 ≤ dx) (hy : 0 ≤ dy) (hk : 0 ≤ k) (h : k < max dx dy) {a b : ℤ}
    (hab : place dx dy k = (a, b)) :
    place dx dy (k + 1) =
      (if -dy < 2 * errAt dx dy a b then a + 1 else a, if 2 * errAt dx dy a b < dx then b + 1 else b) := by
  have hea : (a + 1) * dy = a * dy + dy := by ring
  have heb : (b + 1) * dx = b * dx + dx := by ring
  unfold place at hab ⊢
  by_cases hle : dy ≤ dx
  · rw [max_eq_left hle] at h
    rw [if_pos hle] at hab ⊢
    obtain ⟨rfl, hb⟩ := Prod.mk.inj hab
    have hpos : 0 < dx := by omega
    obtain ⟨h1, h2⟩ := (nearest_eq_iff hpos).mp hb
    have hall : -dy < 2 * errAt dx dy k b := by
      unfold errAt
      rw [hea, heb]
      by_contra hge
      -- an equality here is a tie on a diagonal, which there is not
      have hdiag : dx = dy := by omega
      subst hdiag
      have hb' : nearest dx dx k = k := by
        rw [nearest_eq_iff hpos]
        omega
      rw [hb'] at hb
      subst hb
      omega
    have hcond : 2 * errAt dx dy k b < dx ↔ (2 * b + 1) * dx < 2 * ((k + 1) * dy) := by
      have hodd : (2 * b + 1) * dx = 2 * (b * dx) + dx := by ring
      unfold errAt
      rw [hea, heb, hodd]
      omega
    rw [if_pos hall, nearest_succ hpos hy hle, hb]
    simp only [hcond]
  · rw [max_eq_right (by omega)] at h
    rw [if_neg hle] at hab ⊢
    obtain ⟨ha, rfl⟩ := Prod.mk.inj hab
    have hpos : 0 < dy := by omega
    obtain ⟨h1, h2⟩ := (nearest_eq_iff hpos).mp ha
    have hall : 2 * errAt dx dy a k < dx := by
      unfold errAt
      rw [hea, heb]
      omega
    have hcond : -dy < 2 * errAt dx dy a k ↔ (2 * a + 1) * dy < 2 * ((k + 1) * dx) := by
      have hodd : (2 * a + 1) * dy = 2 * (a * dy) + dy := by ring
      unfold errAt
      rw [hea, heb, hodd]
      omega
    rw [if_pos hall, nearest_succ hpos hx (by omega), ha]
    simp only [hcond]

/-- The error term stays of the size of the sides. -/
theorem errAt_bounds (hx : 0 ≤ dx) (hy : 0 ≤ dy) (hk : 0 ≤ k) (h : k ≤ max dx dy) {a b : ℤ}
    (hab : place dx dy k = (a, b)) :
    -(2 * max dx dy) ≤ errAt dx dy a b ∧ errAt dx dy a b ≤ 2 * max dx dy := by
  have hea : (a + 1) * dy = a * dy + dy := by ring
  have heb : (b + 1) * dx = b * dx + dx := by ring
  unfold errAt
  rw [hea, heb]
  rcases hk.lt_or_eq with hpos | rfl
  · unfold place at hab
    by_cases hle : dy ≤ dx
    · rw [max_eq_left hle] at h ⊢
      rw [if_pos hle] at hab
      obtain ⟨rfl, hb⟩ := Prod.mk.inj hab
      obtain ⟨h1, h2⟩ := (nearest_eq_iff (by omega)).mp hb
      omega
    · rw [max_eq_right (by omega)] at h ⊢
      rw [if_neg hle] at hab
      obtain ⟨ha, rfl⟩ := Prod.mk.inj hab
      obtain ⟨h1, h2⟩ := (nearest_eq_iff (by omega)).mp ha
      omega
  · rw [place_zero hx hy] at hab
    obtain ⟨rfl, rfl⟩ := Prod.mk.inj hab
    rw [zero_mul, zero_mul]
    omega

/-- The error term goes along with the point. -/
theorem errAt_step (dx dy a b : ℤ) (p q : Prop) [Decidable p] [Decidable q] :
    (if q then (if p then errAt dx dy a b - dy else errAt dx dy a b) + dx
      else if p then errAt dx dy a b - dy else errAt dx dy a b) =
      errAt dx dy (if p then a + 1 else a) (if q then b + 1 else b) := by
  unfold errAt
  by_cases hp : p
  · by_cases hq : q
    · rw [if_pos hp, if_pos hp, if_pos hq, if_pos hq]
      ring
    · rw [if_pos hp, if_pos hp, if_neg hq, if_neg hq]
      ring
  · by_cases hq : q
    · rw [if_neg hp, if_neg hp, if_pos hq, if_pos hq]
      ring
    · rw [if_neg hp, if_neg hp, if_neg hq, if_neg hq]

end Bresenham
