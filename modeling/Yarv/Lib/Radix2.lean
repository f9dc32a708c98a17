import Mathlib.Data.Nat.Bitwise
import Mathlib.Data.Set.Function
import Mathlib.Tactic

/-!
# Radix-2 passes

A pass over `2 ^ n` elements takes them in `2 ^ (n - 1)` pairs at distance `p`; pair `t` is `lo p t` and `hi p t`.
`pass` is its value at every index, `sweep` writes the pairs one after another into a memory, and `sweep_pass` says
that the two agree, also when the pass writes to permuted addresses.  `brev` reverses the low bits of an index.
-/

namespace Radix2

/-! ### Pairs -/

/-- The lower index of pair `t`: `t` with a zero inserted at the bit of weight `p`. -/
def lo (p t : Nat) : Nat := t / p * (2 * p) + t % p

def hi (p t : Nat) : Nat := lo p t + p

/-- The pair of an index. -/
def pairOf (p i : Nat) : Nat := i / (2 * p) * p + i % p

/-- The index is the lower one of its pair. -/
def isLo (p i : Nat) : Prop := i / p % 2 = 0

instance (p i : Nat) : Decidable (isLo p i) := inferInstanceAs (Decidable (_ = _))

variable {p t i : Nat}

theorem lo_div (hp : 0 < p) : lo p t / p = t / p * 2 := by
  have h : lo p t = t % p + p * (t / p * 2) := by
    rw [lo]
    ring
  rw [h, Nat.add_mul_div_left _ _ hp, Nat.div_eq_of_lt (Nat.mod_lt _ hp), Nat.zero_add]

theorem lo_mod : lo p t % p = t % p := by
  have h : lo p t = t % p + p * (t / p * 2) := by
    rw [lo]
    ring
  rw [h, Nat.add_mul_mod_self_left, Nat.mod_mod]

theorem hi_div (hp : 0 < p) : hi p t / p = t / p * 2 + 1 := by
  rw [hi, Nat.add_div_right _ hp, lo_div hp]

theorem hi_mod : hi p t % p = t % p := by rw [hi, Nat.add_mod_right, lo_mod]

theorem isLo_lo (hp : 0 < p) : isLo p (lo p t) := by
  rw [isLo, lo_div hp, Nat.mul_mod_left]

theorem not_isLo_hi (hp : 0 < p) : ¬isLo p (hi p t) := by
  rw [isLo, hi_div hp]
  omega

theorem lo_ne_hi (hp : 0 < p) {u : Nat} : lo p t ≠ hi p u := by
  intro h
  have := isLo_lo (t := t) hp
  rw [h] at this
  exact not_isLo_hi hp this

theorem div_two_mul (i p : Nat) : i / (2 * p) = i / p / 2 := by rw [Nat.mul_comm, Nat.div_div_eq_div_mul]

theorem pairOf_lo (hp : 0 < p) : pairOf p (lo p t) = t := by
  rw [pairOf, div_two_mul, lo_div hp, lo_mod, Nat.mul_div_cancel _ Nat.two_pos, Nat.mul_comm]
  exact Nat.div_add_mod t p

theorem pairOf_hi (hp : 0 < p) : pairOf p (hi p t) = t := by
  have h : (t / p * 2 + 1) / 2 = t / p := by omega
  rw [pairOf, div_two_mul, hi_div hp, hi_mod, h, Nat.mul_comm]
  exact Nat.div_add_mod t p

theorem pairOf_div (hp : 0 < p) : pairOf p i / p = i / p / 2 := by
  have h : pairOf p i = i % p + p * (i / p / 2) := by
    rw [pairOf, div_two_mul]
    ring
  rw [h, Nat.add_mul_div_left _ _ hp, Nat.div_eq_of_lt (Nat.mod_lt _ hp), Nat.zero_add]

theorem pairOf_mod : pairOf p i % p = i % p := by
  have h : pairOf p i = i % p + p * (i / p / 2) := by
    rw [pairOf, div_two_mul]
    ring
  rw [h, Nat.add_mul_mod_self_left, Nat.mod_mod]

theorem lo_pairOf (hp : 0 < p) (h : isLo p i) : lo p (pairOf p i) = i := by
  have hd : i / p = i / p / 2 * 2 := by
    rw [isLo] at h
    omega
  calc lo p (pairOf p i) = i / p / 2 * 2 * p + i % p := by
        rw [lo, pairOf_div hp, pairOf_mod]
        ring
    _ = i := by rw [← hd, Nat.div_add_mod']

theorem hi_pairOf (hp : 0 < p) (h : ¬isLo p i) : hi p (pairOf p i) = i := by
  have hd : i / p = i / p / 2 * 2 + 1 := by
    rw [isLo] at h
    omega
  calc hi p (pairOf p i) = (i / p / 2 * 2 + 1) * p + i % p := by
        rw [hi, lo, pairOf_div hp, pairOf_mod]
        ring
    _ = i := by rw [← hd, Nat.div_add_mod']

/-- The pairs of a pass stay inside it. -/
theorem hi_lt {k n : Nat} (hk : k < n) (ht : t < 2 ^ (n - 1)) : hi (2 ^ k) t < 2 ^ n := by
  have hp : 0 < 2 ^ k := Nat.two_pow_pos k
  have hn : 2 ^ n = 2 ^ (n - k) * 2 ^ k := by rw [← pow_add]; congr 1; omega
  have hn1 : 2 ^ (n - 1) = 2 ^ (n - 1 - k) * 2 ^ k := by rw [← pow_add]; congr 1; omega
  have h2 : 2 ^ (n - k) = 2 ^ (n - 1 - k) * 2 := by rw [← pow_succ]; congr 1; omega
  have htk : t / 2 ^ k < 2 ^ (n - 1 - k) := by
    rw [Nat.div_lt_iff_lt_mul hp, ← hn1]
    exact ht
  rw [hn, ← Nat.div_lt_iff_lt_mul hp, hi_div hp, h2]
  omega

theorem lo_lt {k n : Nat} (hk : k < n) (ht : t < 2 ^ (n - 1)) : lo (2 ^ k) t < 2 ^ n :=
  lt_of_le_of_lt (Nat.le_add_right _ _) (hi_lt hk ht)

theorem pairOf_lt {k n : Nat} (hk : k < n) (hi : i < 2 ^ n) : pairOf (2 ^ k) i < 2 ^ (n - 1) := by
  have hp : 0 < 2 ^ k := Nat.two_pow_pos k
  have hn : 2 ^ n = 2 ^ (n - k) * 2 ^ k := by rw [← pow_add]; congr 1; omega
  have hn1 : 2 ^ (n - 1) = 2 ^ (n - 1 - k) * 2 ^ k := by rw [← pow_add]; congr 1; omega
  have h2 : 2 ^ (n - k) = 2 ^ (n - 1 - k) * 2 := by rw [← pow_succ]; congr 1; omega
  have hik : i / 2 ^ k < 2 ^ (n - k) := by
    rw [Nat.div_lt_iff_lt_mul hp, ← hn]
    exact hi
  rw [hn1, ← Nat.div_lt_iff_lt_mul hp, pairOf_div hp]
  omega

/-- One side of pair `t`. -/
def elem (p t : Nat) (up : Bool) : Nat := if up then hi p t else lo p t

theorem elem_lt {k n : Nat} (hk : k < n) (ht : t < 2 ^ (n - 1)) (up : Bool) : elem (2 ^ k) t up < 2 ^ n := by
  cases up with
  | true => exact hi_lt hk ht
  | false => exact lo_lt hk ht

theorem pairOf_elem (hp : 0 < p) (up : Bool) : pairOf p (elem p t up) = t := by
  cases up with
  | true => exact pairOf_hi hp
  | false => exact pairOf_lo hp

/-- The pairs of a pass enumerate its indices. -/
theorem elem_bijOn {k n : Nat} (hk : k < n) :
    Set.BijOn (fun x : Nat × Bool => elem (2 ^ k) x.1 x.2) {x | x.1 < 2 ^ (n - 1)} (Set.Iio (2 ^ n)) := by
  have hp : 0 < 2 ^ k := Nat.two_pow_pos k
  refine ⟨fun x hx => elem_lt hk hx x.2, ?_, ?_⟩
  · rintro ⟨t, up⟩ - ⟨u, up'⟩ - he
    have ht : t = u := by
      rw [← pairOf_elem (t := t) hp up, ← pairOf_elem (t := u) hp up']
      exact congrArg (pairOf (2 ^ k)) he
    subst ht
    cases up with
    | true =>
      cases up' with
      | true => rfl
      | false => exact absurd he.symm (lo_ne_hi hp)
    | false =>
      cases up' with
      | true => exact absurd he (lo_ne_hi hp)
      | false => rfl
  · intro i hi
    by_cases h : isLo (2 ^ k) i
    · exact ⟨(pairOf (2 ^ k) i, false), pairOf_lt hk hi, lo_pairOf hp h⟩
    · exact ⟨(pairOf (2 ^ k) i, true), pairOf_lt hk hi, hi_pairOf hp h⟩

theorem ldiff_two_pow_sub_one (k t : Nat) : t.ldiff (2 ^ k - 1) = (t / 2 ^ k) <<< k := by
  apply Nat.eq_of_testBit_eq
  intro j
  rw [Nat.testBit_ldiff, Nat.testBit_two_pow_sub_one, Nat.testBit_shiftLeft, Nat.testBit_div_two_pow]
  by_cases hj : j < k
  · simp [hj, Nat.not_le.mpr hj]
  · rw [Nat.sub_add_cancel (Nat.le_of_not_lt hj)]
    simp [hj, Nat.le_of_not_lt hj]

theorem lo_eq_shiftLeft (k t : Nat) : lo (2 ^ k) t = (t / 2 ^ k) <<< (k + 1) ||| t % 2 ^ k := by
  have hlt : t % 2 ^ k < 2 ^ (k + 1) :=
    lt_trans (Nat.mod_lt _ (Nat.two_pow_pos k)) (Nat.pow_lt_pow_right Nat.one_lt_two (Nat.lt_succ_self k))
  rw [← Nat.shiftLeft_add_eq_or_of_lt hlt, Nat.shiftLeft_eq, lo, pow_succ, Nat.mul_comm (2 ^ k) 2]

/-- The lower index, as bit operations on `t`. -/
theorem lo_eq_or (k t : Nat) : (t.ldiff (2 ^ k - 1)) <<< 1 ||| (t &&& (2 ^ k - 1)) = lo (2 ^ k) t := by
  rw [ldiff_two_pow_sub_one, Nat.and_two_pow_sub_one_eq_mod, ← Nat.shiftLeft_add, lo_eq_shiftLeft]

/-- The upper index, as a bit of the lower one. -/
theorem hi_eq_or (k t : Nat) : lo (2 ^ k) t ||| 2 ^ k = hi (2 ^ k) t := by
  have hm := Nat.mod_lt t (Nat.two_pow_pos k)
  have hlt : t % 2 ^ k + 2 ^ k < 2 ^ (k + 1) := by
    rw [pow_succ]
    omega
  rw [lo_eq_shiftLeft, Nat.or_assoc, Nat.or_two_pow_eq_add_of_lt hm, ← Nat.shiftLeft_add_eq_or_of_lt hlt, hi, lo,
    Nat.shiftLeft_eq, pow_succ, Nat.mul_comm (2 ^ k) 2, Nat.add_assoc]

/-! ### Passes -/

section Pass

variable {α β : Type*} (p : Nat) (f : Nat → α → α → α × α)

/-- A pass over all pairs at once: pair `t` holds `f t` of what it held. -/
def pass (x : Nat → α) (i : Nat) : α :=
  if isLo p i then (f (pairOf p i) (x i) (x (i + p))).1 else (f (pairOf p i) (x (i - p)) (x i)).2

variable {p f}

/-- Passes over two kinds of elements, when one kind is an image of the other. -/
theorem pass_map {g : Nat → β → β → β × β} (r : α → β)
    (h : ∀ t a b, g t (r a) (r b) = (r (f t a b).1, r (f t a b).2)) (x : Nat → α) (i : Nat) :
    pass p g (fun i => r (x i)) i = r (pass p f x i) := by
  rw [pass, pass, h, h]
  split <;> rfl

/-- A pass of pairs it leaves alone. -/
theorem pass_id (x : Nat → α) (i : Nat) : pass p (fun _ a b => (a, b)) x i = x i := by
  rw [pass]
  split <;> rfl

/-- A pass looks at the `2 ^ n` elements only. -/
theorem pass_congr {k n : Nat} (hk : k < n) {x y : Nat → α} (h : ∀ j < 2 ^ n, x j = y j) {i : Nat} (hi : i < 2 ^ n) :
    pass (2 ^ k) f x i = pass (2 ^ k) f y i := by
  have hp : 0 < 2 ^ k := Nat.two_pow_pos k
  have ht := pairOf_lt hk hi
  rw [pass, pass, h i hi]
  split
  · rename_i hlo
    have hh : i + 2 ^ k < 2 ^ n := by
      have := hi_lt hk ht
      rwa [Radix2.hi, lo_pairOf hp hlo] at this
    rw [h _ hh]
  · rw [h (i - 2 ^ k) (lt_of_le_of_lt (Nat.sub_le _ _) hi)]

/-- What every pair of a pass makes of its two elements. -/
theorem pass_forall {P Q : α → Prop} {k n : Nat} (hk : k < n) {x : Nat → α} (hx : ∀ j < 2 ^ n, P (x j))
    (hf : ∀ t a b, P a → P b → Q (f t a b).1 ∧ Q (f t a b).2) {i : Nat} (hi : i < 2 ^ n) :
    Q (pass (2 ^ k) f x i) := by
  have hp : 0 < 2 ^ k := Nat.two_pow_pos k
  have ht := pairOf_lt hk hi
  unfold pass
  by_cases hlo : isLo (2 ^ k) i
  · have hh : i + 2 ^ k < 2 ^ n := by
      have := hi_lt hk ht
      rwa [Radix2.hi, lo_pairOf hp hlo] at this
    rw [if_pos hlo]
    exact (hf _ _ _ (hx i hi) (hx _ hh)).1
  · rw [if_neg hlo]
    exact (hf _ _ _ (hx _ (lt_of_le_of_lt (Nat.sub_le _ _) hi)) (hx i hi)).2

end Pass

/-! ### Writing a pass to memory -/

section Sweep

variable {ι α : Type*} [DecidableEq ι] (a b : Nat → ι) (va vb : Nat → α) (m : ι → α)

/-- The memory after the writes of the pairs below `t`. -/
def sweep : Nat → ι → α
  | 0 => m
  | t + 1 => Function.update (Function.update (sweep t) (a t) (va t)) (b t) (vb t)

variable {a b va vb m}

theorem sweep_succ (t : Nat) :
    sweep a b va vb m (t + 1) =
      Function.update (Function.update (sweep a b va vb m t) (a t) (va t)) (b t) (vb t) := rfl

theorem sweep_congr {a' b' : Nat → ι} {va' vb' : Nat → α} {t : Nat}
    (h : ∀ u < t, a u = a' u ∧ b u = b' u ∧ va u = va' u ∧ vb u = vb' u) :
    sweep a b va vb m t = sweep a' b' va' vb' m t := by
  induction t with
  | zero => rfl
  | succ t ih =>
    obtain ⟨ha, hb, hva, hvb⟩ := h t (Nat.lt_succ_self t)
    rw [sweep_succ, sweep_succ, ih fun u hu => h u (by omega), ha, hb, hva, hvb]

variable (a b va vb m) in
theorem sweep_fst {t u : Nat} (hu : u < t) (ha : ∀ v < t, a v = a u → v = u) (hb : ∀ v < t, b v ≠ a u) :
    sweep a b va vb m t (a u) = va u := by
  induction t with
  | zero => omega
  | succ t ih =>
    rw [sweep_succ, Function.update_of_ne (hb t (by omega)).symm]
    by_cases h : u = t
    · subst h
      rw [Function.update_self]
    · have hne : a u ≠ a t := fun he => h (ha t (by omega) he.symm).symm
      rw [Function.update_of_ne hne]
      exact ih (by omega) (fun v hv => ha v (by omega)) fun v hv => hb v (by omega)

variable (a b va vb m) in
theorem sweep_snd {t u : Nat} (hu : u < t) (hb : ∀ v < t, b v = b u → v = u) (ha : ∀ v < t, a v ≠ b u) :
    sweep a b va vb m t (b u) = vb u := by
  induction t with
  | zero => omega
  | succ t ih =>
    rw [sweep_succ]
    by_cases h : u = t
    · subst h
      rw [Function.update_self]
    · have hne : b u ≠ b t := fun he => h (hb t (by omega) he.symm).symm
      rw [Function.update_of_ne hne, Function.update_of_ne (ha t (by omega)).symm]
      exact ih (by omega) (fun v hv => hb v (by omega)) fun v hv => ha v (by omega)

/-- All pairs of a pass, written through an injective address map. -/
theorem sweep_pass {k n : Nat} (hk : k < n) {g : Nat → ι} (hg : Set.InjOn g (Set.Iio (2 ^ n)))
    {f : Nat → α → α → α × α} {x : Nat → α} {i : Nat} (hi : i < 2 ^ n) :
    sweep (fun t => g (lo (2 ^ k) t)) (fun t => g (Radix2.hi (2 ^ k) t))
      (fun t => (f t (x (lo (2 ^ k) t)) (x (Radix2.hi (2 ^ k) t))).1)
      (fun t => (f t (x (lo (2 ^ k) t)) (x (Radix2.hi (2 ^ k) t))).2) m (2 ^ (n - 1)) (g i) =
      pass (2 ^ k) f x i := by
  have hp : 0 < 2 ^ k := Nat.two_pow_pos k
  have ht := pairOf_lt hk hi
  rw [pass]
  by_cases hlo : isLo (2 ^ k) i
  · have hl := lo_pairOf hp hlo
    have hinj : ∀ v < 2 ^ (n - 1), g (lo (2 ^ k) v) = g (lo (2 ^ k) (pairOf (2 ^ k) i)) → v = pairOf (2 ^ k) i := by
      intro v hv he
      have := congrArg (pairOf (2 ^ k)) (hg (lo_lt hk hv) (lo_lt hk ht) he)
      rwa [pairOf_lo hp, pairOf_lo hp] at this
    have hdis : ∀ v < 2 ^ (n - 1), g (Radix2.hi (2 ^ k) v) ≠ g (lo (2 ^ k) (pairOf (2 ^ k) i)) :=
      fun v hv he => lo_ne_hi hp (hg (lo_lt hk ht) (hi_lt hk hv) he.symm)
    have ha := sweep_fst (fun t => g (lo (2 ^ k) t)) (fun t => g (Radix2.hi (2 ^ k) t))
      (fun t => (f t (x (lo (2 ^ k) t)) (x (Radix2.hi (2 ^ k) t))).1)
      (fun t => (f t (x (lo (2 ^ k) t)) (x (Radix2.hi (2 ^ k) t))).2) m ht hinj hdis
    simp only [hl] at ha
    rw [ha, Radix2.hi, hl, if_pos hlo]
  · have hh := hi_pairOf hp hlo
    have hl : lo (2 ^ k) (pairOf (2 ^ k) i) = i - 2 ^ k := by
      rw [Radix2.hi] at hh
      omega
    have hinj : ∀ v < 2 ^ (n - 1),
        g (Radix2.hi (2 ^ k) v) = g (Radix2.hi (2 ^ k) (pairOf (2 ^ k) i)) → v = pairOf (2 ^ k) i := by
      intro v hv he
      have := congrArg (pairOf (2 ^ k)) (hg (hi_lt hk hv) (hi_lt hk ht) he)
      rwa [pairOf_hi hp, pairOf_hi hp] at this
    have hdis : ∀ v < 2 ^ (n - 1), g (lo (2 ^ k) v) ≠ g (Radix2.hi (2 ^ k) (pairOf (2 ^ k) i)) :=
      fun v hv he => lo_ne_hi hp (hg (lo_lt hk hv) (hi_lt hk ht) he)
    have hb := sweep_snd (fun t => g (lo (2 ^ k) t)) (fun t => g (Radix2.hi (2 ^ k) t))
      (fun t => (f t (x (lo (2 ^ k) t)) (x (Radix2.hi (2 ^ k) t))).1)
      (fun t => (f t (x (lo (2 ^ k) t)) (x (Radix2.hi (2 ^ k) t))).2) m ht hinj hdis
    simp only [hh] at hb
    rw [hb, hl, if_neg hlo]

end Sweep

/-! ### Bit reversal -/

/-- The low `n` bits in reverse. -/
def brev (x n : Nat) : Nat := (List.range n).foldl (fun r i => if x.testBit i then r ||| 1 <<< (n - 1 - i) else r) 0

theorem testBit_brev (x n j : Nat) : (brev x n).testBit j = (decide (j < n) && x.testBit (n - 1 - j)) := by
  have hpart : ∀ c, c ≤ n →
      ((List.range c).foldl (fun r i => if x.testBit i then r ||| 1 <<< (n - 1 - i) else r) 0).testBit j =
        (decide (j < n ∧ n - 1 - j < c) && x.testBit (n - 1 - j)) := by
    intro c hc
    induction c with
    | zero => simp
    | succ c ih =>
      rw [List.range_succ, List.foldl_append, List.foldl_cons, List.foldl_nil]
      by_cases hx : x.testBit c = true
      · rw [if_pos hx, Nat.testBit_or, ih (by omega), Nat.one_shiftLeft, Nat.testBit_two_pow]
        by_cases hj : n - 1 - c = j
        · have h1 : n - 1 - j = c := by omega
          have h2 : j < n := by omega
          simp [hj, h1, h2, hx]
        · have hc' : (j < n ∧ n - 1 - j < c + 1) ↔ (j < n ∧ n - 1 - j < c) := by omega
          rw [decide_eq_decide.mpr hc', decide_eq_false hj, Bool.or_false]
      · rw [if_neg hx, ih (by omega)]
        by_cases hj : n - 1 - j = c
        · rw [hj, Bool.eq_false_iff.mpr hx, Bool.and_false, Bool.and_false]
        · have hc' : (j < n ∧ n - 1 - j < c + 1) ↔ (j < n ∧ n - 1 - j < c) := by omega
          rw [decide_eq_decide.mpr hc']
  rw [brev, hpart n le_rfl]
  by_cases hj : j < n
  · have : n - 1 - j < n := by omega
    simp [hj, this]
  · simp [hj]

theorem brev_lt (x n : Nat) : brev x n < 2 ^ n := by
  apply Nat.lt_pow_two_of_testBit
  intro j hj
  rw [testBit_brev]
  simp [Nat.not_lt.mpr hj]

/-- Reversing twice restores the index. -/
theorem brev_brev {x n : Nat} (hx : x < 2 ^ n) : brev (brev x n) n = x := by
  apply Nat.eq_of_testBit_eq
  intro j
  rw [testBit_brev, testBit_brev]
  by_cases hj : j < n
  · have h1 : n - 1 - j < n := by omega
    have h2 : n - 1 - (n - 1 - j) = j := by omega
    simp [hj, h1, h2]
  · have : x.testBit j = false :=
      Nat.testBit_lt_two_pow (lt_of_lt_of_le hx (Nat.pow_le_pow_right Nat.two_pos (Nat.le_of_not_lt hj)))
    simp [hj, this]

theorem brev_injOn (n : Nat) : Set.InjOn (fun x => brev x n) (Set.Iio (2 ^ n)) := by
  intro x hx y hy h
  have := congrArg (fun z => brev z n) h
  simp only at this
  rwa [brev_brev hx, brev_brev hy] at this

theorem brev_bijOn (n : Nat) : Set.BijOn (fun x => brev x n) (Set.Iio (2 ^ n)) (Set.Iio (2 ^ n)) :=
  ⟨fun x _ => brev_lt x n, brev_injOn n, fun x hx => ⟨brev x n, brev_lt x n, brev_brev hx⟩⟩

end Radix2
