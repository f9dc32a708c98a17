import Mathlib.Tactic

/-!
# Sticky flags

A flag, the events that set it and the requests that clear it, as streams of cycles: `flag t` is the flag before cycle
`t`, `event t` and `clear t` happen in cycle `t`.  `Records` says that the flag misses no event, keeps it until it is
cleared and shows none twice; `records_iff` reduces this to the equation of one clock edge.
-/

namespace Sticky

/-- The cycles in which a level has just gone up; before the first cycle it is down. -/
def rises (level : Nat → Bool) : Nat → Bool
  | 0 => level 0
  | t + 1 => level (t + 1) && !level t

/-- The cycles after which a level is down. -/
def falls (level : Nat → Bool) (t : Nat) : Bool := level t && !level (t + 1)

/-- An event that never lasts for two cycles. -/
def Pulse (event : Nat → Bool) : Prop := ∀ t, event t = true → event (t + 1) = false

/-- In the cycles of `on` the flag is a record of the events. -/
structure Records (on : Nat → Prop) (flag event clear : Nat → Bool) : Prop where
  /-- An event is seen, whether or not the flag is cleared in its cycle. -/
  caught : ∀ t, on t → event t = true → flag (t + 1) = true
  kept : ∀ t, on t → flag t = true → clear t = false → flag (t + 1) = true
  /-- A flag that is cleared, or was down, is down until the next event. -/
  quiet : ∀ t u, t < u → clear t = true ∨ flag t = false → (∀ v, t ≤ v → v < u → on v ∧ event v = false) →
    flag u = false

/-- Every event shows in the flag exactly once. -/
structure Once (flag event clear : Nat → Bool) : Prop where
  records : Records (fun _ => True) flag event clear
  pulse : Pulse event

/-- The cycles that put the flag up: it was down, or is taken back in the same cycle. -/
def raises (flag clear : Nat → Bool) (t : Nat) : Bool := flag (t + 1) && (!flag t || clear t)

variable {on : Nat → Prop} {flag event clear level : Nat → Bool}

theorem level_of_rises {t : Nat} (h : rises level t = true) : level t = true := by
  cases t with
  | zero => exact h
  | succ t => exact (Bool.and_eq_true _ _ ▸ h).1

theorem pulse_rises : Pulse (rises level) := by
  intro t h
  rw [rises, level_of_rises h, Bool.not_true, Bool.and_false]

theorem pulse_falls : Pulse (falls level) := by
  intro t h
  rw [falls, Bool.and_eq_true, Bool.not_eq_true'] at h
  rw [falls, h.2, Bool.false_and]

/-- The record is the equation of one clock edge, in every cycle. -/
theorem records_iff :
    Records on flag event clear ↔ ∀ t, on t → flag (t + 1) = (event t || (flag t && !clear t)) := by
  constructor
  · intro h t ht
    cases he : event t with
    | true => exact h.caught t ht he
    | false =>
      have hq := h.quiet t (t + 1) (by omega)
      have hnone : ∀ v, t ≤ v → v < t + 1 → on v ∧ event v = false := by
        intro v h1 h2
        obtain rfl : v = t := by omega
        exact ⟨ht, he⟩
      cases hf : flag t with
      | false => exact hq (.inr hf) hnone
      | true =>
        cases hc : clear t with
        | true => exact hq (.inl hc) hnone
        | false => exact h.kept t ht hf hc
  · intro h
    refine ⟨fun t ht he => by rw [h t ht, he, Bool.true_or], fun t ht hf hc => by rw [h t ht, hf, hc]; simp, ?_⟩
    intro t u htu hor hnone
    induction u, htu using Nat.le_induction with
    | base =>
      obtain ⟨ht, he⟩ := hnone t le_rfl (by omega)
      rw [h t ht, he]
      rcases hor with hc | hf
      · rw [hc]
        simp
      · rw [hf]
        simp
    | succ u hu ih =>
      obtain ⟨ho, he⟩ := hnone u (by omega) (by omega)
      rw [h u ho, he, ih fun v h1 h2 => hnone v h1 (by omega)]
      rfl

/-- A flag is put up by an event, and by every event that does not find it up already. -/
theorem Records.raises_iff (h : Records (fun _ => True) flag event clear) (t : Nat) :
    raises flag clear t = true ↔ event t = true ∧ (flag t = false ∨ clear t = true) := by
  rw [raises, records_iff.mp h t trivial]
  cases event t <;> cases flag t <;> cases clear t <;> decide

/-- A flag that is down, or taken back, whenever an event comes is put up once by each. -/
theorem Records.count_raises (h : Records (fun _ => True) flag event clear) {t : Nat}
    (hdown : ∀ u < t, event u = true → flag u = false ∨ clear u = true) :
    (List.range t).countP (raises flag clear) = (List.range t).countP event := by
  refine List.countP_congr fun u hu => ?_
  rw [h.raises_iff]
  exact ⟨fun hx => hx.1, fun he => ⟨he, hdown u (List.mem_range.mp hu) he⟩⟩

/-- A flag set by a level goes wrong exactly when it is cleared while the level stays up. -/
theorem records_level_iff (h : ∀ t, flag (t + 1) = (level t || (flag t && !clear t))) :
    Records (fun _ => True) flag (rises level) clear ↔
      ∀ t, ¬(level t = true ∧ level (t + 1) = true ∧ clear (t + 1) = true) := by
  rw [records_iff]
  constructor
  · rintro hr t ⟨h1, h2, h3⟩
    have := hr (t + 1) trivial
    rw [h (t + 1), rises, h1, h2, h3] at this
    simp at this
  · intro hlate t _
    rw [h t]
    cases t with
    | zero => rfl
    | succ t =>
      rw [rises]
      cases h1 : level t with
      | false => simp
      | true =>
        cases h2 : level (t + 1) with
        | false => rfl
        | true =>
          -- the flag is up, since the level was up in the cycle before, and nobody clears it
          have hf : flag (t + 1) = true := by rw [h t, h1, Bool.true_or]
          have hc : clear (t + 1) = false := by
            rw [← Bool.not_eq_true]
            exact fun hc => hlate t ⟨h1, h2, hc⟩
          simp [hf, hc]

end Sticky
