import Mathlib.Tactic

/-!
# Waveforms

A wire is a function of the cycle.  `Lasts x a n` says that the level that begins in cycle `a` lasts `n` cycles;
`count` counts the cycles of a window in which something happens, in particular the edges of a wire.
-/

namespace Wave

/-! ### Counting -/

/-- The number of cycles among `a, …, a + n - 1` in which `p` happens. -/
def count (p : Nat → Bool) (a : Nat) : Nat → Nat
  | 0 => 0
  | n + 1 => count p a n + (p (a + n)).toNat

variable {p : Nat → Bool} {x : Nat → Bool} {a m n h : Nat}

@[simp] theorem count_zero : count p a 0 = 0 := rfl

theorem count_succ : count p a (n + 1) = count p a n + (p (a + n)).toNat := rfl

theorem count_add (m n : Nat) : count p a (m + n) = count p a m + count p (a + m) n := by
  induction n with
  | zero => rfl
  | succ n ih => rw [← Nat.add_assoc, count_succ, ih, count_succ, Nat.add_assoc, Nat.add_assoc a m n]

/-- Nothing happens in a window without a happening. -/
theorem count_eq_zero (hp : ∀ k < n, p (a + k) = false) : count p a n = 0 := by
  induction n with
  | zero => rfl
  | succ n ih => rw [count_succ, ih fun k hk => hp k (by omega), hp n (by omega), Bool.toNat_false]

/-! ### Edges and levels -/

/-- The wire changes behind cycle `u`. -/
def edge (x : Nat → Bool) (u : Nat) : Bool := x u != x (u + 1)

/-- The wire falls behind cycle `u`. -/
def fall (x : Nat → Bool) (u : Nat) : Bool := x u && !x (u + 1)

/-- The level of cycle `a` goes on for `n` cycles and ends there. -/
structure Lasts (x : Nat → Bool) (a n : Nat) : Prop where
  holds : ∀ k < n, x (a + k) = x a
  ends : x (a + n) ≠ x a

theorem edge_eq_false {u : Nat} : edge x u = false ↔ x (u + 1) = x u := by
  unfold edge
  rw [bne_eq_false_iff_eq]
  exact eq_comm

theorem edge_eq_true {u : Nat} : edge x u = true ↔ x (u + 1) ≠ x u := by
  unfold edge
  rw [bne_iff_ne]
  exact ne_comm

/-- Within a level the only edge is the one that ends it. -/
theorem Lasts.edge_iff (hl : Lasts x a n) {k : Nat} (hk : k < n) : edge x (a + k) = true ↔ k + 1 = n := by
  rw [edge_eq_true, hl.holds k hk]
  constructor
  · intro he
    by_contra hne
    exact he (hl.holds (k + 1) (by omega))
  · intro he
    subst he
    exact hl.ends

/-- A level has one edge. -/
theorem Lasts.count_edge (hl : Lasts x a n) (hn : 0 < n) : count (edge x) a n = 1 := by
  obtain ⟨k, rfl⟩ : ∃ k, n = k + 1 := ⟨n - 1, by omega⟩
  have hin : count (edge x) a k = 0 := by
    apply count_eq_zero
    intro j hj
    rw [Bool.eq_false_iff]
    intro he
    have := (hl.edge_iff (by omega)).mp he
    omega
  rw [count_succ, hin, (hl.edge_iff (Nat.lt_succ_self k)).mpr rfl]
  rfl

/-! ### A row of levels of one length -/

/-- `m` levels of `h` cycles each, the first from cycle `a` on. -/
def Row (x : Nat → Bool) (a h m : Nat) : Prop := ∀ j < m, Lasts x (a + j * h) h

theorem Row.mono (hr : Row x a h n) (hmn : m ≤ n) : Row x a h m := fun j hj => hr j (by omega)

/-- A row has as many edges as levels. -/
theorem Row.count_edge (hr : Row x a h m) (hh : 0 < h) : count (edge x) a (m * h) = m := by
  induction m with
  | zero =>
    rw [Nat.zero_mul]
    rfl
  | succ m ih =>
    rw [Nat.succ_mul, count_add, ih (hr.mono (Nat.le_succ m)), (hr m (Nat.lt_succ_self m)).count_edge hh]

/-- The edges of a row stand at the ends of its levels. -/
theorem Row.edge_iff (hr : Row x a h m) {k : Nat} (hk : k < m * h) : edge x (a + k) = true ↔ (k + 1) % h = 0 := by
  have hh : 0 < h := by
    rcases Nat.eq_zero_or_pos h with rfl | hpos
    · rw [Nat.mul_zero] at hk
      exact absurd hk (Nat.not_lt_zero k)
    · exact hpos
  have hj : k / h < m := Nat.div_lt_of_lt_mul (by rwa [Nat.mul_comm])
  have hk' : a + k = a + k / h * h + k % h := by
    have := Nat.div_add_mod' k h
    omega
  rw [hk', (hr _ hj).edge_iff (Nat.mod_lt k hh)]
  have hmod : (k + 1) % h = (k % h + 1) % h := by rw [Nat.mod_add_mod]
  rw [hmod]
  have hlt := Nat.mod_lt k hh
  constructor
  · intro he
    rw [he, Nat.mod_self]
  · intro he
    by_contra hne
    rw [Nat.mod_eq_of_lt (by omega)] at he
    omega

/-- Two edges of a row are at least one level apart. -/
theorem Row.spacing (hr : Row x a h m) {u v : Nat} (hu : u < v) (hv : v < m * h) (heu : edge x (a + u) = true)
    (hev : edge x (a + v) = true) : u + h ≤ v := by
  have h1 := (hr.edge_iff (by omega)).mp heu
  have h2 := (hr.edge_iff hv).mp hev
  obtain ⟨i, hi⟩ := Nat.dvd_of_mod_eq_zero h1
  obtain ⟨j, hj⟩ := Nat.dvd_of_mod_eq_zero h2
  have hij : i < j := by
    by_contra hge
    have := Nat.mul_le_mul_left h (not_lt.mp hge)
    omega
  have := Nat.mul_le_mul_left h (Nat.succ_le_of_lt hij)
  rw [Nat.mul_succ] at this
  omega

end Wave
