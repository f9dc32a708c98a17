import Yarv.Lib.Clocked

/-!
# Progress of clocked machines

A machine whose environment may block it: a rank falls in every cycle that is neither blocked nor has an event, and
does not grow in a blocked one.  Then a window has few cycles that are not blocked for each of its events
(`Ranked.countP_lt`), and a machine that is not blocked for ever has an event again and again (`Ranked.exists_event`).
-/

namespace Clocked

variable {σ ι ε : Type*} {next : σ → ι → σ} {s : σ} {inp : Nat → ι} {ev : σ → ι → Option ε} {blocked : σ → ι → Bool}

/-- A rank for the cycles between two events of a run. -/
structure Ranked (ev : σ → ι → Option ε) (blocked : σ → ι → Bool) (next : σ → ι → σ) (s : σ) (inp : Nat → ι)
    (rank : σ → Nat) (R : Nat) : Prop where
  le : ∀ t, rank (trace next s inp t) ≤ R
  falls : ∀ t, ev (trace next s inp t) (inp t) = none → blocked (trace next s inp t) (inp t) = false →
    rank (trace next s inp (t + 1)) < rank (trace next s inp t)
  stays : ∀ t, ev (trace next s inp t) (inp t) = none → blocked (trace next s inp t) (inp t) = true →
    rank (trace next s inp (t + 1)) ≤ rank (trace next s inp t)

variable {rank : σ → Nat} {R : Nat}

/-- The cycles of a window that are not blocked are paid for by its events, but for what the rank still owes. -/
theorem Ranked.countP_add_le (h : Ranked ev blocked next s inp rank R) (a n : Nat) :
    (List.range n).countP (fun k => !blocked (trace next s inp (a + k)) (inp (a + k))) +
      rank (trace next s inp (a + n)) ≤
      rank (trace next s inp a) + (R + 1) * (logFrom ev next s inp a n).length := by
  induction n with
  | zero => simp
  | succ n ih =>
    rw [List.range_succ, List.countP_append, List.countP_singleton, logFrom_succ, List.length_append, Nat.mul_add]
    rw [← Nat.add_assoc a n 1]
    cases he : ev (trace next s inp (a + n)) (inp (a + n)) with
    | some e =>
      -- the event pays for its own cycle and for a full rank
      have hle := h.le (a + n + 1)
      have hone : (if !blocked (trace next s inp (a + n)) (inp (a + n)) then 1 else 0) ≤ 1 := by split <;> omega
      rw [Option.toList_some, List.length_singleton, Nat.mul_one]
      omega
    | none =>
      rw [Option.toList_none, List.length_nil, Nat.mul_zero]
      cases hb : blocked (trace next s inp (a + n)) (inp (a + n)) with
      | true =>
        have hstep := h.stays (a + n) he hb
        simp only [Bool.not_true, Bool.false_eq_true, if_false]
        omega
      | false =>
        have hstep := h.falls (a + n) he hb
        simp only [Bool.not_false, if_true]
        omega

/-- Each event of a window pays for `R + 1` of its cycles that are not blocked. -/
theorem Ranked.countP_lt (h : Ranked ev blocked next s inp rank R) (a n : Nat) :
    (List.range n).countP (fun k => !blocked (trace next s inp (a + k)) (inp (a + k))) <
      (R + 1) * ((logFrom ev next s inp a n).length + 1) := by
  have hsum := h.countP_add_le a n
  have hle := h.le a
  rw [Nat.mul_add]
  omega

/-- A machine that is not blocked for ever comes to an event. -/
theorem Ranked.exists_event (h : Ranked ev blocked next s inp rank R)
    (hfair : ∀ t, ∃ u, t ≤ u ∧ blocked (trace next s inp u) (inp u) = false) (t : Nat) :
    ∃ u, t ≤ u ∧ (ev (trace next s inp u) (inp u)).isSome := by
  induction hn : rank (trace next s inp t) using Nat.strong_induction_on generalizing t with
  | _ n ih =>
    subst hn
    by_contra hno
    push Not at hno
    have hnone : ∀ u, t ≤ u → ev (trace next s inp u) (inp u) = none := by
      intro u hu
      simpa using hno u hu
    have hfall : ∀ u, t ≤ u → rank (trace next s inp u) ≤ rank (trace next s inp t) := by
      intro u hu
      induction u, hu using Nat.le_induction with
      | base => exact le_rfl
      | succ u hu ihu =>
        cases hb : blocked (trace next s inp u) (inp u) with
        | true => exact (h.stays u (hnone u hu) hb).trans ihu
        | false => exact (h.falls u (hnone u hu) hb).le.trans ihu
    obtain ⟨u, hu, hb⟩ := hfair t
    have hlt := h.falls u (hnone u hu) hb
    have hle := hfall u hu
    obtain ⟨v, hv, he⟩ := ih _ (by omega) (u + 1) rfl
    rw [hnone v (by omega)] at he
    cases he

/-- A run in which no event is left is blocked from some cycle on. -/
theorem Ranked.blocked_of_quiet (h : Ranked ev blocked next s inp rank R) {t : Nat}
    (hquiet : ∀ u, t ≤ u → ev (trace next s inp u) (inp u) = none) :
    ∃ w, t ≤ w ∧ ∀ u, w ≤ u → blocked (trace next s inp u) (inp u) = true := by
  by_contra hno
  push Not at hno
  have hfair : ∀ v, ∃ u, v ≤ u ∧ blocked (trace next s inp u) (inp u) = false := by
    intro v
    obtain ⟨u, hu, hb⟩ := hno (max t v) (by omega)
    exact ⟨u, by omega, eq_false_of_ne_true hb⟩
  obtain ⟨u, hu, he⟩ := h.exists_event hfair t
  rw [hquiet u hu] at he
  cases he

/-! ### Logs cycle by cycle -/

section Log

/-- A log passes through each of its prefixes. -/
theorem exists_logFrom_eq {a t : Nat} {l : List ε} (h : l <+: logFrom ev next s inp a t) :
    ∃ u, u ≤ t ∧ logFrom ev next s inp a u = l := by
  induction t with
  | zero => exact ⟨0, le_rfl, (List.prefix_nil.mp h).symm⟩
  | succ t ih =>
    by_cases hl : l <+: logFrom ev next s inp a t
    · obtain ⟨u, hu, he⟩ := ih hl
      exact ⟨u, by omega, he⟩
    · -- one event is one step of the log, so nothing lies between
      refine ⟨t + 1, le_rfl, ?_⟩
      rw [logFrom_succ] at h ⊢
      cases he : ev (trace next s inp (a + t)) (inp (a + t)) with
      | none =>
        rw [he, Option.toList_none, List.append_nil] at h
        exact absurd h hl
      | some e =>
        rw [he, Option.toList_some] at h
        rcases List.prefix_concat_iff.mp h with heq | hpre
        · exact heq.symm
        · exact absurd hpre hl

/-- With events again and again, the log grows past every length. -/
theorem exists_le_length (h : ∀ t, ∃ u, t ≤ u ∧ (ev (trace next s inp u) (inp u)).isSome = true) (n : Nat) :
    ∃ t, n ≤ (logFrom ev next s inp 0 t).length := by
  induction n with
  | zero => exact ⟨0, Nat.zero_le _⟩
  | succ n ih =>
    obtain ⟨t, ht⟩ := ih
    obtain ⟨u, hu, ho⟩ := h t
    have hgrows : logFrom ev next s inp 0 t <+: logFrom ev next s inp 0 u := logFrom_prefix 0 hu
    obtain ⟨e, he⟩ := Option.isSome_iff_exists.mp ho
    refine ⟨u + 1, ?_⟩
    rw [logFrom_succ, Nat.zero_add, he, List.length_append, Option.toList_some, List.length_singleton]
    exact Nat.succ_le_succ (ht.trans hgrows.length_le)

/-- Events that come with an event of another kind are not more than those. -/
theorem logFrom_length_le {φ : Type*} {ev' : σ → ι → Option φ}
    (h : ∀ s i, (ev s i).isSome = true → (ev' s i).isSome = true) (a : Nat) {m n : Nat} (hmn : m ≤ n) :
    (logFrom ev next s inp a n).length + (logFrom ev' next s inp a m).length ≤
      (logFrom ev next s inp a m).length + (logFrom ev' next s inp a n).length := by
  induction n, hmn using Nat.le_induction with
  | base => exact le_rfl
  | succ n _ ih =>
    have hone : (ev (trace next s inp (a + n)) (inp (a + n))).toList.length ≤
        (ev' (trace next s inp (a + n)) (inp (a + n))).toList.length := by
      have hs := h (trace next s inp (a + n)) (inp (a + n))
      cases he : ev (trace next s inp (a + n)) (inp (a + n)) with
      | none => exact Nat.zero_le _
      | some e =>
        rw [he] at hs
        obtain ⟨e', he'⟩ := Option.isSome_iff_exists.mp (hs rfl)
        rw [he']
        exact le_rfl
    rw [logFrom_succ, logFrom_succ, List.length_append, List.length_append]
    omega

end Log

end Clocked
