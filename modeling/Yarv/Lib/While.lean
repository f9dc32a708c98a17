import Mathlib.Tactic

/-!
# Loops with fuel

A computation is a function of its fuel, without a value where the fuel does not suffice.  It returns if it has one
value for all fuel from some point on, and it never returns if it has none for any.
-/

namespace While

variable {σ τ υ : Type}

/-- What a round of a loop comes to: the next round or the end. -/
inductive Round (σ τ : Type)
  | next (s : σ)
  | done (t : τ)
  deriving Repr

/-- A loop of at most `n` rounds. -/
def run (round : σ → Option (Round σ τ)) : ℕ → σ → Option τ
  | 0, _ => none
  | n + 1, s =>
    match round s with
    | none => none
    | some (.next s') => run round n s'
    | some (.done t) => some t

/-- A loop whose rounds have loops of their own. -/
def loop (round : ℕ → σ → Option (Round σ τ)) (s : σ) (fuel : ℕ) : Option τ := run (round fuel) fuel s

/-- Enough fuel gives `t`. -/
def Returns (f : ℕ → Option τ) (t : τ) : Prop := ∃ n, ∀ m, n ≤ m → f m = some t

/-- No fuel gives anything. -/
def Never (f : ℕ → Option τ) : Prop := ∀ n, f n = none

theorem Returns.not_never {f : ℕ → Option τ} {t : τ} (h : Returns f t) : ¬Never f := by
  obtain ⟨n, hn⟩ := h
  intro hnever
  have hsome := hn n le_rfl
  rw [hnever n] at hsome
  cases hsome

/-- One computation after another. -/
theorem Returns.bind {f : ℕ → Option τ} {g : τ → ℕ → Option υ} {t : τ} {u : υ} (hf : Returns f t)
    (hg : Returns (g t) u) :
    Returns (fun n => (f n).bind fun t => g t n) u := by
  obtain ⟨m, hm⟩ := hf
  obtain ⟨k, hk⟩ := hg
  refine ⟨max m k, fun n hn => ?_⟩
  change (f n).bind _ = _
  rw [hm n (le_of_max_le_left hn), Option.bind_some, hk n (le_of_max_le_right hn)]

theorem Returns.map {f : ℕ → Option τ} {t : τ} (g : τ → υ) (hf : Returns f t) :
    Returns (fun n => (f n).map g) (g t) := by
  obtain ⟨n, hn⟩ := hf
  refine ⟨n, fun m hm => ?_⟩
  change (f m).map g = _
  rw [hn m hm, Option.map_some]

variable {round : ℕ → σ → Option (Round σ τ)} {I : ℕ → σ → Prop} {Q : τ → Prop} {s : σ}

/-- A loop that counts: `N` rounds keep the invariant, and the next one ends it. -/
theorem returns_loop (N : ℕ) (h0 : I 0 s)
    (hstep : ∀ k < N, ∀ s, I k s → ∃ s', Returns (fun n => round n s) (.next s') ∧ I (k + 1) s')
    (hend : ∀ s, I N s → ∃ t, Returns (fun n => round n s) (.done t) ∧ Q t) :
    ∃ t, Returns (loop round s) t ∧ Q t := by
  -- the fuel of the rounds and of the loop are one; apart, the loop needs a round for each `k`
  have hrun : ∀ j ≤ N, ∀ s, I (N - j) s → ∃ t, Q t ∧ ∃ m, ∀ fuel, m ≤ fuel → ∀ n, j < n →
      run (round fuel) n s = some t := by
    intro j hj
    induction j with
    | zero =>
      intro s hs
      obtain ⟨t, ⟨m, hm⟩, hq⟩ := hend s hs
      refine ⟨t, hq, m, fun fuel hfuel n hn => ?_⟩
      obtain ⟨n', rfl⟩ := Nat.exists_eq_add_one.mpr hn
      have hround : round fuel s = some (.done t) := hm fuel hfuel
      rw [run, hround]
    | succ j ih =>
      intro s hs
      obtain ⟨s', ⟨m, hm⟩, hI⟩ := hstep (N - (j + 1)) (by omega) s hs
      have hnext : N - (j + 1) + 1 = N - j := by omega
      rw [hnext] at hI
      obtain ⟨t, hq, m', hm'⟩ := ih (by omega) s' hI
      refine ⟨t, hq, max m m', fun fuel hfuel n hn => ?_⟩
      obtain ⟨n', rfl⟩ := Nat.exists_eq_add_one.mpr (Nat.zero_lt_of_lt hn)
      have hround : round fuel s = some (.next s') := hm fuel (le_of_max_le_left hfuel)
      rw [run, hround]
      exact hm' fuel (le_of_max_le_right hfuel) n' (by omega)
  obtain ⟨t, hq, m, hm⟩ := hrun N le_rfl s (by rw [Nat.sub_self]; exact h0)
  refine ⟨t, ⟨max m (N + 1), fun n hn => ?_⟩, hq⟩
  exact hm n (le_of_max_le_left hn) n (le_of_max_le_right hn)

/-- A loop whose rounds always come to another round, or do not return themselves. -/
theorem never_loop {J : σ → Prop} (h0 : J s)
    (hstep : ∀ m s, J s → ∀ r, round m s = some r → ∃ s', r = .next s' ∧ J s') : Never (loop round s) := by
  have hrun : ∀ m n s, J s → run (round m) n s = none := by
    intro m n
    induction n with
    | zero =>
      intro s _
      rfl
    | succ n ih =>
      intro s hs
      rw [run]
      cases hr : round m s with
      | none => rfl
      | some r =>
        obtain ⟨s', rfl, hs'⟩ := hstep m s hs r hr
        exact ih s' hs'
  exact fun n => hrun n n s h0

end While
