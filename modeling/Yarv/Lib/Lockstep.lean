import Mathlib.Data.List.Basic

/-!
# Two runs in lockstep

Runs are lists of what is observed at each step.  `FirstDiff` is the step at which two of them part, and `first` a
loop that stops at the first index with a property.
-/

namespace Yarv.Lockstep

/-- The first index of `lo .. hi - 1` with `p`. -/
def first (lo hi : Nat) (p : Nat → Bool) : Option Nat := (List.range' lo (hi - lo)).find? p

theorem first_eq_some {lo hi i : Nat} {p : Nat → Bool} :
    first lo hi p = some i ↔ (lo ≤ i ∧ i < hi) ∧ p i = true ∧ ∀ j, lo ≤ j → j < i → p j = false := by
  unfold first
  rw [List.find?_range'_eq_some, List.mem_range'_1]
  constructor
  · rintro ⟨hp, ⟨hlo, hhi⟩, hbefore⟩
    refine ⟨⟨hlo, by omega⟩, hp, fun j hj hji => ?_⟩
    exact (Bool.not_eq_true' _).mp (hbefore j hj hji)
  · rintro ⟨⟨hlo, hhi⟩, hp, hbefore⟩
    refine ⟨hp, ⟨hlo, by omega⟩, fun j hj hji => ?_⟩
    exact (Bool.not_eq_true' _).mpr (hbefore j hj hji)

theorem first_eq_none {lo hi : Nat} {p : Nat → Bool} : first lo hi p = none ↔ ∀ j, lo ≤ j → j < hi → p j = false := by
  unfold first
  rw [List.find?_range'_eq_none]
  constructor
  · intro h j hlo hhi
    exact (Bool.not_eq_true' _).mp (h j hlo (by omega))
  · intro h j hlo hhi
    exact (Bool.not_eq_true' _).mpr (h j hlo (by omega))

variable {α : Type*} {a b : List α} {i j m n : Nat}

/-- The runs agree before step `i` and differ at it. -/
structure FirstDiff (a b : List α) (i : Nat) : Prop where
  left : i < a.length
  right : i < b.length
  agree : ∀ j < i, a[j]? = b[j]?
  differ : a[i]? ≠ b[i]?

namespace FirstDiff

theorem unique (hi : FirstDiff a b i) (hj : FirstDiff a b j) : i = j := by
  rcases Nat.lt_trichotomy i j with h | h | h
  · exact absurd (hj.agree i h) hi.differ
  · exact h
  · exact absurd (hi.agree j h) hj.differ

/-- Equal runs do not part. -/
theorem irrefl : ¬FirstDiff a a i := fun h => h.differ rfl

/-- Where two runs part, so do any that begin as they do. -/
theorem of_take (h : FirstDiff (a.take m) (b.take n) i) : FirstDiff a b i := by
  have hleft := h.left
  have hright := h.right
  rw [List.length_take, Nat.lt_min] at hleft hright
  have hagree := h.agree
  have hdiffer := h.differ
  refine ⟨hleft.2, hright.2, fun j hj => ?_, ?_⟩
  · have heq := hagree j hj
    rwa [List.getElem?_take_of_lt (by omega), List.getElem?_take_of_lt (by omega)] at heq
  · rwa [List.getElem?_take_of_lt hleft.1, List.getElem?_take_of_lt hright.1] at hdiffer

end FirstDiff

/-- Runs agree on their first `n` steps if they do on each of them. -/
theorem take_eq_take (h : ∀ j < n, a[j]? = b[j]?) : a.take n = b.take n := by
  apply List.ext_getElem?
  intro j
  by_cases hj : j < n
  · rw [List.getElem?_take_of_lt hj, List.getElem?_take_of_lt hj, h j hj]
  · rw [List.getElem?_take_eq_none (by omega), List.getElem?_take_eq_none (by omega)]

/-- Runs of one length that agree throughout are equal. -/
theorem eq_of_agree (hlen : a.length = b.length) (h : ∀ j < a.length, a[j]? = b[j]?) : a = b := by
  have htake := take_eq_take h
  rwa [List.take_length, hlen, List.take_length] at htake

end Yarv.Lockstep
