import Mathlib.Tactic

/-!
# Clocked machines

A synchronous circuit is a next-state function under a stream of inputs.  `trace` is its run, `logFrom` collects the
events of a window of cycles; the rules here turn a fact about one clock edge into a fact about the whole run.
-/

namespace Clocked

variable {σ ι ε : Type*} (next : σ → ι → σ)

/-- The state before cycle `t` of the machine started in `s` under the inputs `inp`. -/
def trace (s : σ) (inp : Nat → ι) : Nat → σ
  | 0 => s
  | t + 1 => next (trace s inp t) (inp t)

variable {next} {s : σ} {inp : Nat → ι}

@[simp] theorem trace_zero : trace next s inp 0 = s := rfl

theorem trace_succ (t : Nat) : trace next s inp (t + 1) = next (trace next s inp t) (inp t) := rfl

/-- The run from cycle `a` on is the run started in the state before cycle `a`. -/
theorem trace_add (a b : Nat) :
    trace next s inp (a + b) = trace next (trace next s inp a) (fun k => inp (a + k)) b := by
  induction b with
  | zero => rfl
  | succ b ih => rw [← Nat.add_assoc, trace_succ, trace_succ, ih]

/-- What one clock edge preserves holds along the whole run. -/
theorem trace_invariant {P : σ → Prop} (h0 : P s) (hstep : ∀ s i, P s → P (next s i)) (t : Nat) :
    P (trace next s inp t) := by
  induction t with
  | zero => exact h0
  | succ t ih => exact hstep _ _ ih

/-- The same rule when an edge preserves the invariant only in the cycles that meet a condition. -/
theorem trace_invariant_of {P : σ → Prop} {Q : σ → ι → Prop} (h0 : P s)
    (hstep : ∀ s i, P s → Q s i → P (next s i)) (t : Nat)
    (hok : ∀ u, u < t → Q (trace next s inp u) (inp u)) : P (trace next s inp t) := by
  induction t with
  | zero => exact h0
  | succ t ih => exact hstep _ _ (ih fun u hu => hok u (by omega)) (hok t (by omega))

/-! ### Runs with a companion -/

section Companion

variable {γ : Type*} (upd : γ → σ → ι → γ)

/-- A companion of the run: a value recomputed from the state and the input of each cycle. -/
def companion (next : σ → ι → σ) (g : γ) (s : σ) (inp : Nat → ι) : Nat → γ
  | 0 => g
  | t + 1 => upd (companion next g s inp t) (trace next s inp t) (inp t)

variable {upd} {g : γ}

@[simp] theorem companion_zero : companion upd next g s inp 0 = g := rfl

theorem companion_succ (t : Nat) :
    companion upd next g s inp (t + 1) = upd (companion upd next g s inp t) (trace next s inp t) (inp t) := rfl

/-- The invariant rule for a run and its companion. -/
theorem companion_invariant {P : γ → σ → Prop} {Q : γ → σ → ι → Prop} (h0 : P g s)
    (hstep : ∀ g s i, P g s → Q g s i → P (upd g s i) (next s i)) (t : Nat)
    (hok : ∀ u, u < t → Q (companion upd next g s inp u) (trace next s inp u) (inp u)) :
    P (companion upd next g s inp t) (trace next s inp t) := by
  induction t with
  | zero => exact h0
  | succ t ih => exact hstep _ _ _ (ih fun u hu => hok u (by omega)) (hok t (by omega))

/-- A companion whose update leaves it alone in a window keeps its value there. -/
theorem companion_const {a b : Nat} (hab : a ≤ b)
    (h : ∀ u, a ≤ u → u < b →
      upd (companion upd next g s inp u) (trace next s inp u) (inp u) = companion upd next g s inp u) :
    companion upd next g s inp b = companion upd next g s inp a := by
  induction b, hab using Nat.le_induction with
  | base => rfl
  | succ b hab ih => rw [companion_succ, h b hab (by omega), ih fun u h1 h2 => h u h1 (by omega)]

end Companion

/-! ### Event logs -/

section Log

variable (ev : σ → ι → Option ε)

/-- The events of the cycles `a, …, a + n - 1`, oldest first. -/
def logFrom (next : σ → ι → σ) (s : σ) (inp : Nat → ι) (a : Nat) : Nat → List ε
  | 0 => []
  | n + 1 => logFrom next s inp a n ++ (ev (trace next s inp (a + n)) (inp (a + n))).toList

variable {ev}

@[simp] theorem logFrom_zero (a : Nat) : logFrom ev next s inp a 0 = [] := rfl

theorem logFrom_succ (a n : Nat) :
    logFrom ev next s inp a (n + 1) =
      logFrom ev next s inp a n ++ (ev (trace next s inp (a + n)) (inp (a + n))).toList := rfl

/-- A log only grows. -/
theorem logFrom_prefix (a : Nat) {m n : Nat} (h : m ≤ n) :
    logFrom ev next s inp a m <+: logFrom ev next s inp a n := by
  induction n, h using Nat.le_induction with
  | base => exact List.prefix_refl _
  | succ n _ ih => exact ih.trans (List.prefix_append _ _)

/-- Every entry of a log is the event of one of its cycles. -/
theorem mem_logFrom {a n : Nat} {e : ε} (h : e ∈ logFrom ev next s inp a n) :
    ∃ k < n, ev (trace next s inp (a + k)) (inp (a + k)) = some e := by
  induction n with
  | zero => simp at h
  | succ n ih =>
    rw [logFrom_succ, List.mem_append, Option.mem_toList] at h
    rcases h with h | h
    · obtain ⟨k, hk, he⟩ := ih h
      exact ⟨k, by omega, he⟩
    · exact ⟨n, by omega, h⟩

/-- A window in which no cycle has an event has an empty log. -/
theorem logFrom_eq_nil {a n : Nat} :
    logFrom ev next s inp a n = [] ↔ ∀ k < n, ev (trace next s inp (a + k)) (inp (a + k)) = none := by
  induction n with
  | zero => simp
  | succ n ih =>
    rw [logFrom_succ, List.append_eq_nil_iff, ih, Option.toList_eq_nil_iff]
    constructor
    · rintro ⟨h1, h2⟩ k hk
      rcases Nat.lt_succ_iff_lt_or_eq.mp hk with h | rfl
      · exact h1 k h
      · exact h2
    · intro h
      exact ⟨fun k hk => h k (by omega), h n (by omega)⟩

/-- If a rank falls in every cycle without an event, an event comes before the rank runs out. -/
theorem logFrom_ne_nil (rank : σ → Nat) {a n : Nat} (hrank : rank (trace next s inp a) < n)
    (hstep : ∀ k < n, ev (trace next s inp (a + k)) (inp (a + k)) = none →
      rank (trace next s inp (a + k + 1)) < rank (trace next s inp (a + k))) :
    logFrom ev next s inp a n ≠ [] := by
  intro hnil
  rw [logFrom_eq_nil] at hnil
  have hfall : ∀ k ≤ n, rank (trace next s inp (a + k)) + k ≤ rank (trace next s inp a) := by
    intro k hk
    induction k with
    | zero => simp
    | succ k ih =>
      have h1 := ih (by omega)
      have h2 := hstep k (by omega) (hnil k (by omega))
      rw [Nat.add_assoc] at h2
      omega
  have := hfall n le_rfl
  omega

/-- A log under a map of its entries. -/
theorem logFrom_map {φ : Type*} (f : ε → φ) (a n : Nat) :
    logFrom (fun s i => (ev s i).map f) next s inp a n = (logFrom ev next s inp a n).map f := by
  induction n with
  | zero => rfl
  | succ n ih =>
    rw [logFrom_succ, logFrom_succ, List.map_append, ih]
    congr 1
    cases ev (trace next s inp (a + n)) (inp (a + n)) <;> rfl

/-- Two kinds of events that agree in every cycle of a window have the same log there. -/
theorem logFrom_congr {ev' : σ → ι → Option ε} {a n : Nat}
    (h : ∀ k < n, ev (trace next s inp (a + k)) (inp (a + k)) = ev' (trace next s inp (a + k)) (inp (a + k))) :
    logFrom ev next s inp a n = logFrom ev' next s inp a n := by
  induction n with
  | zero => rfl
  | succ n ih => rw [logFrom_succ, logFrom_succ, h n (by omega), ih fun k hk => h k (by omega)]

/-- A log under a partial map of its entries. -/
theorem logFrom_bind {φ : Type*} (f : ε → Option φ) (a n : Nat) :
    logFrom (fun s i => (ev s i).bind f) next s inp a n = (logFrom ev next s inp a n).filterMap f := by
  induction n with
  | zero => rfl
  | succ n ih =>
    rw [logFrom_succ, logFrom_succ, List.filterMap_append, ih]
    congr 1
    cases ev (trace next s inp (a + n)) (inp (a + n)) with
    | none => rfl
    | some e => cases hf : f e <;> simp [hf]

/-- What comes in goes out in the same order, but for what the machine holds back.  The balance of one clock edge
gives the balance of a window. -/
theorem logFrom_balance_from {out : σ → ι → Option ε} {pend : σ → List ε} (a n : Nat)
    (hstep : ∀ k < n, pend (trace next s inp (a + k)) ++ (ev (trace next s inp (a + k)) (inp (a + k))).toList =
      (out (trace next s inp (a + k)) (inp (a + k))).toList ++ pend (trace next s inp (a + k + 1))) :
    pend (trace next s inp a) ++ logFrom ev next s inp a n =
      logFrom out next s inp a n ++ pend (trace next s inp (a + n)) := by
  induction n with
  | zero => simp
  | succ n ih =>
    rw [logFrom_succ, logFrom_succ, ← List.append_assoc, ih fun k hk => hstep k (by omega), List.append_assoc,
      hstep n (by omega), List.append_assoc]
    rfl

/-- The same over a run that starts with nothing held back. -/
theorem logFrom_balance {out : σ → ι → Option ε} {pend : σ → List ε} (h0 : pend s = []) (n : Nat)
    (hstep : ∀ k < n, pend (trace next s inp k) ++ (ev (trace next s inp k) (inp k)).toList =
      (out (trace next s inp k) (inp k)).toList ++ pend (trace next s inp (k + 1))) :
    logFrom ev next s inp 0 n = logFrom out next s inp 0 n ++ pend (trace next s inp n) := by
  have hrun : pend (trace next s inp 0) ++ logFrom ev next s inp 0 n =
      logFrom out next s inp 0 n ++ pend (trace next s inp (0 + n)) := by
    refine logFrom_balance_from 0 n fun k hk => ?_
    rw [Nat.zero_add]
    exact hstep k hk
  rw [trace_zero, h0, List.nil_append, Nat.zero_add] at hrun
  exact hrun

/-- The same rule for the numbers of two kinds of events. -/
theorem logFrom_length_balance {φ : Type*} {out : σ → ι → Option φ} {pend : σ → Nat} (h0 : pend s = 0) (n : Nat)
    (hstep : ∀ k < n, pend (trace next s inp k) + (ev (trace next s inp k) (inp k)).toList.length =
      (out (trace next s inp k) (inp k)).toList.length + pend (trace next s inp (k + 1))) :
    (logFrom ev next s inp 0 n).length = (logFrom out next s inp 0 n).length + pend (trace next s inp n) := by
  induction n with
  | zero => simp [h0]
  | succ n ih =>
    have h1 := ih fun k hk => hstep k (by omega)
    have h2 := hstep n (by omega)
    rw [logFrom_succ, logFrom_succ, Nat.zero_add, List.length_append, List.length_append]
    omega

end Log

/-! ### Parts of a machine -/

section View

variable {σ' ι' : Type*} {next' : σ' → ι' → σ'} (view : σ → σ') (wires : σ → ι → ι')

/-- A part of a machine is a machine under the inputs its surroundings give it. -/
theorem trace_view (h : ∀ s i, view (next s i) = next' (view s) (wires s i)) (t : Nat) :
    view (trace next s inp t) = trace next' (view s) (fun u => wires (trace next s inp u) (inp u)) t := by
  induction t with
  | zero => rfl
  | succ t ih => rw [trace_succ, trace_succ, h, ih]

/-- What it shows it shows in the whole. -/
theorem logFrom_view (h : ∀ s i, view (next s i) = next' (view s) (wires s i))
    {ev' : σ' → ι' → Option ε} (a t : Nat) :
    logFrom (fun s i => ev' (view s) (wires s i)) next s inp a t =
      logFrom ev' next' (view s) (fun u => wires (trace next s inp u) (inp u)) a t := by
  induction t with
  | zero => rfl
  | succ t ih => rw [logFrom_succ, logFrom_succ, ih, trace_view view wires h]

end View

/-! ### Stuttering refinement -/

section Refine

variable {α : Type*} {anext : α → Unit → α} {aev : α → Unit → Option ε} {a : α} {ev : σ → ι → Option ε}

/-- A machine refines another one if each of its cycles is a step of the other, with the same event, or is nothing to
the other: its log is then the log of a run of the other, which is not longer. -/
theorem exists_refined {R : α → σ → Prop} (h0 : R a s) (t : Nat)
    (hstep : ∀ u < t, ∀ k ≤ u, R (trace anext a (fun _ => ()) k) (trace next s inp u) →
      ev (trace next s inp u) (inp u) = none ∧ R (trace anext a (fun _ => ()) k) (trace next s inp (u + 1)) ∨
      ev (trace next s inp u) (inp u) = aev (trace anext a (fun _ => ()) k) () ∧
        R (trace anext a (fun _ => ()) (k + 1)) (trace next s inp (u + 1))) :
    ∃ k ≤ t, R (trace anext a (fun _ => ()) k) (trace next s inp t) ∧
      logFrom ev next s inp 0 t = logFrom aev anext a (fun _ => ()) 0 k := by
  induction t with
  | zero => exact ⟨0, le_rfl, h0, rfl⟩
  | succ t ih =>
    obtain ⟨k, hk, hr, hlog⟩ := ih fun u hu => hstep u (by omega)
    rw [logFrom_succ, Nat.zero_add, hlog]
    rcases hstep t (by omega) k hk hr with ⟨he, hr'⟩ | ⟨he, hr'⟩
    · exact ⟨k, by omega, hr', by rw [he, Option.toList_none, List.append_nil]⟩
    · exact ⟨k + 1, by omega, hr', by rw [he, logFrom_succ, Nat.zero_add]⟩

end Refine

/-! ### Refinement under choices -/

section Choices

variable {α κ : Type*} {anext : α → κ → α} {shows : α → κ → ε} {a : α} {ev : σ → ι → Option ε}
  {choice : σ → ι → Option κ}

/-- What the steps under a list of choices show, one after the other. -/
def shownOn (shows : α → κ → ε) (anext : α → κ → α) : α → List κ → List ε
  | _, [] => []
  | a, k :: l => shows a k :: shownOn shows anext (anext a k) l

theorem shownOn_append (l l' : List κ) :
    shownOn shows anext a (l ++ l') = shownOn shows anext a l ++ shownOn shows anext (l.foldl anext a) l' := by
  induction l generalizing a with
  | nil => rfl
  | cons k l ih => rw [List.cons_append, shownOn, ih, shownOn, List.foldl_cons, List.cons_append]

/-- A machine that shows in each cycle what the other one shows under the choice of the cycle, and nothing in a cycle
without a choice, follows it along the choices of the run. -/
theorem refined_on {R : α → σ → Prop} (h0 : R a s) (t : Nat)
    (hstep : ∀ u < t, ∀ b, b = (logFrom choice next s inp 0 u).foldl anext a → R b (trace next s inp u) →
      choice (trace next s inp u) (inp u) = none ∧ ev (trace next s inp u) (inp u) = none ∧
        R b (trace next s inp (u + 1)) ∨
      ∃ k, choice (trace next s inp u) (inp u) = some k ∧ ev (trace next s inp u) (inp u) = some (shows b k) ∧
        R (anext b k) (trace next s inp (u + 1))) :
    R ((logFrom choice next s inp 0 t).foldl anext a) (trace next s inp t) ∧
      logFrom ev next s inp 0 t = shownOn shows anext a (logFrom choice next s inp 0 t) := by
  induction t with
  | zero => exact ⟨h0, rfl⟩
  | succ t ih =>
    obtain ⟨hr, hlog⟩ := ih fun u hu => hstep u (by omega)
    rw [logFrom_succ, logFrom_succ, Nat.zero_add, hlog]
    rcases hstep t (by omega) _ rfl hr with ⟨hc, he, hr'⟩ | ⟨k, hc, he, hr'⟩
    · rw [hc, he]
      simp only [Option.toList_none, List.append_nil]
      exact ⟨hr', trivial⟩
    · rw [hc, he]
      simp only [Option.toList_some, List.foldl_append, shownOn_append]
      exact ⟨hr', rfl⟩

end Choices

/-! ### Weak fairness -/

/-- What persists until an exit is left through it, if the exit is not put off for ever. -/
theorem exists_exit {P E : Nat → Prop} {t : Nat} (h0 : P t) (hstep : ∀ u, P u → ¬E u → P (u + 1))
    (hfair : (∀ u, t ≤ u → P u) → ∃ u, t ≤ u ∧ E u) : ∃ u, t ≤ u ∧ P u ∧ E u := by
  by_contra hno
  push Not at hno
  have hall : ∀ u, t ≤ u → P u := by
    intro u hu
    induction u, hu using Nat.le_induction with
    | base => exact h0
    | succ u hu ih => exact hstep u ih (hno u hu ih)
  obtain ⟨u, hu, he⟩ := hfair hall
  exact hno u hu (hall u hu) he

/-- A run moves through positions: in every cycle it stays where it is, stalled, or goes to a position of lower rank.
If no position but a final one stalls it for ever, it comes to a final one. -/
theorem exists_final {π : Type*} {At : Nat → π → Prop} (rank : π → Nat) {stalled : Nat → π → Prop} {final : π → Prop}
    (hstep : ∀ t p, At t p → ∃ p', At (t + 1) p' ∧ (p' = p ∧ stalled t p ∨ rank p' < rank p))
    (hlive : ∀ t p, At t p → ¬final p → (∀ u, t ≤ u → At u p) → ∃ u, t ≤ u ∧ ¬stalled u p) {t : Nat} {p : π}
    (h : At t p) : ∃ u p', t ≤ u ∧ At u p' ∧ final p' := by
  induction hn : rank p using Nat.strong_induction_on generalizing t p with
  | _ n ih =>
    subst hn
    by_cases hf : final p
    · exact ⟨t, p, le_rfl, h, hf⟩
    · obtain ⟨u, htu, -, q, hq, hlt⟩ : ∃ u, t ≤ u ∧ At u p ∧ ∃ q, At (u + 1) q ∧ rank q < rank p := by
        refine exists_exit h (fun u hu hno => ?_) fun hall => ?_
        · obtain ⟨q, hq, ⟨rfl, -⟩ | hlt⟩ := hstep u p hu
          · exact hq
          · exact absurd ⟨q, hq, hlt⟩ hno
        · obtain ⟨u, hu, hgo⟩ := hlive t p h hf hall
          obtain ⟨q, hq, ⟨-, hst⟩ | hlt⟩ := hstep u p (hall u hu)
          · exact absurd hst hgo
          · exact ⟨u, hu, q, hq, hlt⟩
      obtain ⟨v, p', hv, hat, hfin⟩ := ih (rank q) hlt hq rfl
      exact ⟨v, p', by omega, hat, hfin⟩

/-- What holds now was entered, and has held since with a counter that only grows. -/
theorem exists_entry {S E : Nat → Prop} {ph : Nat → Nat} (h0 : ¬S 0)
    (hstep : ∀ t, S (t + 1) → E t ∨ S t ∧ ph t ≤ ph (t + 1)) {t : Nat} (ht : S t) :
    ∃ u < t, E u ∧ ∀ v, u < v → v ≤ t → S v ∧ ph v ≤ ph t := by
  induction t with
  | zero => exact absurd ht h0
  | succ t ih =>
    rcases hstep t ht with he | ⟨hs, hle⟩
    · refine ⟨t, by omega, he, fun v h1 h2 => ?_⟩
      obtain rfl : v = t + 1 := by omega
      exact ⟨ht, le_rfl⟩
    · obtain ⟨u, hu, he, hall⟩ := ih hs
      refine ⟨u, by omega, he, fun v h1 h2 => ?_⟩
      rcases Nat.le_succ_iff.mp h2 with h | rfl
      · exact ⟨(hall v h1 h).1, (hall v h1 h).2.trans hle⟩
      · exact ⟨ht, le_rfl⟩

end Clocked
