import Yarv.Lib.Clocked

/-!
# Polling drivers

A driver is a program of register loads, register stores and busy-waits.  It runs against a device that moves in every
cycle, on a processor that may leave any number of cycles between two accesses: the input `go` of a cycle says whether
the next access is tried there.  A busy-wait repeats its load until the answer is the one it waits for.
-/

namespace Driver

open Clocked

/-- What a driver asks of its device. -/
inductive Access (ρ ω : Type)
  | load (r : ρ)
  | store (r : ρ) (v : ω)
  deriving DecidableEq, Repr

/-- The store an access is. -/
def Access.stored {ρ ω : Type} : Access ρ ω → Option (ρ × ω)
  | .load _ => none
  | .store r v => some (r, v)

/-- A driver, up to its next access. -/
inductive Prog (ρ ω α : Type)
  | ret (a : α)
  | load (r : ρ) (k : ω → Prog ρ ω α)
  | store (r : ρ) (v : ω) (k : Prog ρ ω α)
  | poll (r : ρ) (done : ω → Bool) (k : Prog ρ ω α)

/-- A device as its driver sees it. -/
structure Target (ρ ω σ ι : Type) where
  /-- The port takes this access in this cycle. -/
  ready : σ → Access ρ ω → Bool
  read : σ → ι → ρ → ω
  next : σ → ι → Option (Access ρ ω) → σ

variable {ρ ω α β σ ι : Type}

namespace Prog

/-- One driver after another. -/
def bind : Prog ρ ω α → (α → Prog ρ ω β) → Prog ρ ω β
  | ret a, f => f a
  | load r k, f => load r fun v => (k v).bind f
  | store r v k, f => store r v (k.bind f)
  | poll r done k, f => poll r done (k.bind f)

@[simp] theorem ret_bind (a : α) (f : α → Prog ρ ω β) : (ret a).bind f = f a := rfl

@[simp] theorem load_bind (r : ρ) (k : ω → Prog ρ ω α) (f : α → Prog ρ ω β) :
    (load r k).bind f = load r fun v => (k v).bind f := rfl

@[simp] theorem store_bind (r : ρ) (v : ω) (k : Prog ρ ω α) (f : α → Prog ρ ω β) :
    (store r v k).bind f = store r v (k.bind f) := rfl

@[simp] theorem poll_bind (r : ρ) (done : ω → Bool) (k : Prog ρ ω α) (f : α → Prog ρ ω β) :
    (poll r done k).bind f = poll r done (k.bind f) := rfl

theorem bind_ret (p : Prog ρ ω α) : p.bind ret = p := by
  induction p with
  | ret a => rfl
  | load r k ih => rw [load_bind, funext ih]
  | store r v k ih => rw [store_bind, ih]
  | poll r done k ih => rw [poll_bind, ih]

theorem bind_assoc {γ : Type} (p : Prog ρ ω α) (f : α → Prog ρ ω β) (g : β → Prog ρ ω γ) :
    (p.bind f).bind g = p.bind fun a => (f a).bind g := by
  induction p with
  | ret a => rfl
  | load r k ih => rw [load_bind, load_bind, load_bind, funext ih]
  | store r v k ih => rw [store_bind, store_bind, store_bind, ih]
  | poll r done k ih => rw [poll_bind, poll_bind, poll_bind, ih]

/-- The next access. -/
def access : Prog ρ ω α → Option (Access ρ ω)
  | ret _ => none
  | load r _ => some (.load r)
  | store r v _ => some (.store r v)
  | poll r _ _ => some (.load r)

/-- What a driver has returned. -/
def result : Prog ρ ω α → Option α
  | ret a => some a
  | _ => none

theorem result_eq_some {p : Prog ρ ω α} {a : α} : p.result = some a ↔ p = ret a := by
  cases p with
  | ret b => simp [result]
  | load r k | store r v k | poll r done k => simp [result]

/-- The driver behind its next access, which reads `rd`. -/
def advance (rd : ρ → ω) : Prog ρ ω α → Prog ρ ω α
  | ret a => ret a
  | load r k => k (rd r)
  | store _ _ k => k
  | poll r done k => if done (rd r) then k else poll r done k

instance : Monad (Prog ρ ω) where
  pure := ret
  bind := bind

@[simp] theorem pure_eq (a : α) : (pure a : Prog ρ ω α) = ret a := rfl

@[simp] theorem bind_eq (p : Prog ρ ω α) (f : α → Prog ρ ω β) : p >>= f = p.bind f := rfl

/-- The first part of a composition advances on its own. -/
theorem advance_bind {p : Prog ρ ω α} (hp : ∀ a, p ≠ ret a) (rd : ρ → ω) (f : α → Prog ρ ω β) :
    (p.bind f).advance rd = (p.advance rd).bind f := by
  cases p with
  | ret a => exact absurd rfl (hp a)
  | load r k => rfl
  | store r v k => rfl
  | poll r done k =>
    rw [poll_bind, advance, advance]
    split
    · rfl
    · rfl

/-- What the driver stores to `r` before its next plain load. -/
def stores [DecidableEq ρ] (r : ρ) : Prog ρ ω α → List ω
  | ret _ => []
  | load _ _ => []
  | store r' v k => if r' = r then v :: k.stores r else k.stores r
  | poll _ _ k => k.stores r

/-- Every store of the driver is one of these. -/
def All (P : ρ → ω → Prop) : Prog ρ ω α → Prop
  | ret _ => True
  | load _ k => ∀ v, (k v).All P
  | store r v k => P r v ∧ k.All P
  | poll _ _ k => k.All P

/-- The driver stores nothing behind a plain load. -/
def Straight : Prog ρ ω α → Prop
  | ret _ => True
  | load _ k => ∀ v, ∃ a, k v = ret a
  | store _ _ k => k.Straight
  | poll _ _ k => k.Straight

/-- The next access is a store to `r`. -/
def AtStore (r : ρ) : Prog ρ ω α → Prop
  | store r' _ _ => r' = r
  | _ => False

/-- Every store to `r` comes directly behind the busy-wait on `rp` for `done`. -/
def Guarded (r rp : ρ) (done : ω → Bool) : Prog ρ ω α → Prop
  | ret _ => True
  | load _ k => ∀ v, ¬(k v).AtStore r ∧ (k v).Guarded r rp done
  | store _ _ k => ¬k.AtStore r ∧ k.Guarded r rp done
  | poll rp' done' k => (k.AtStore r → rp' = rp ∧ done' = done) ∧ k.Guarded r rp done

end Prog

/-- A driver at work. -/
structure Host (ρ ω α σ : Type) where
  prog : Prog ρ ω α
  dev : σ

/-- A cycle: whether the processor comes to the next access, and the wires of the device. -/
structure HostIn (ι : Type) where
  go : Bool
  ext : ι
  deriving Repr

namespace Host

variable (T : Target ρ ω σ ι) (h : Host ρ ω α σ) (i : HostIn ι)

/-- The access performed in this cycle. -/
def issue : Option (Access ρ ω) := h.prog.access.filter fun a => i.go && T.ready h.dev a

/-- One clock edge of driver and device. -/
def next : Host ρ ω α σ where
  prog := if (h.issue T i).isSome then h.prog.advance (T.read h.dev i.ext) else h.prog
  dev := T.next h.dev i.ext (h.issue T i)

variable {T h i}

theorem next_prog_of_none (hi : h.issue T i = none) : (h.next T i).prog = h.prog := by
  rw [next, hi]
  rfl

theorem next_prog_of_some {a : Access ρ ω} (hi : h.issue T i = some a) :
    (h.next T i).prog = h.prog.advance (T.read h.dev i.ext) := by
  rw [next, hi]
  rfl

/-- An access is the next one of the program, and the port takes it. -/
theorem issue_eq_some {a : Access ρ ω} :
    h.issue T i = some a ↔ h.prog.access = some a ∧ i.go = true ∧ T.ready h.dev a = true := by
  rw [issue, Option.filter_eq_some_iff, Bool.and_eq_true]

/-- A driver that has returned performs nothing. -/
theorem issue_ret {a : α} (hp : h.prog = .ret a) : h.issue T i = none := by
  rw [issue, hp]
  rfl

end Host

/-! ### Runs -/

section Run

variable (T : Target ρ ω σ ι) (h : Host ρ ω α σ) (inp : Nat → HostIn ι)

/-- The driver and its device before cycle `t`. -/
abbrev hostAt (t : Nat) : Host ρ ω α σ := trace (Host.next T) h inp t

/-- The driver before cycle `t`. -/
abbrev progAt (t : Nat) : Prog ρ ω α := (hostAt T h inp t).prog

/-- The device before cycle `t`. -/
abbrev devAt (t : Nat) : σ := (hostAt T h inp t).dev

/-- The access of cycle `t`. -/
def issued (t : Nat) : Option (Access ρ ω) := (hostAt T h inp t).issue T (inp t)

/-- What a load of `r` answers in cycle `t`. -/
def answer (t : Nat) (r : ρ) : ω := T.read (devAt T h inp t) (inp t).ext r

/-- The stores performed before cycle `t`. -/
def storeLog (t : Nat) : List (ρ × ω) := logFrom (fun h i => (h.issue T i).bind Access.stored) (Host.next T) h inp 0 t

variable {T h inp} {t : Nat}

theorem storeLog_succ (t : Nat) :
    storeLog T h inp (t + 1) = storeLog T h inp t ++ ((issued T h inp t).bind Access.stored).toList := by
  rw [storeLog, logFrom_succ, Nat.zero_add]
  rfl

theorem devAt_succ (t : Nat) :
    devAt T h inp (t + 1) = T.next (devAt T h inp t) (inp t).ext (issued T h inp t) := rfl

theorem progAt_of_none (hi : issued T h inp t = none) : progAt T h inp (t + 1) = progAt T h inp t :=
  Host.next_prog_of_none hi

theorem progAt_of_some {a : Access ρ ω} (hi : issued T h inp t = some a) :
    progAt T h inp (t + 1) = (progAt T h inp t).advance (answer T h inp t) :=
  Host.next_prog_of_some hi

theorem access_of_issued {a : Access ρ ω} (hi : issued T h inp t = some a) : (progAt T h inp t).access = some a :=
  (Host.issue_eq_some.mp hi).1

/-- The access performed at a plain load. -/
theorem of_issued_load {a : Access ρ ω} {r : ρ} {k : ω → Prog ρ ω α} (hi : issued T h inp t = some a)
    (hp : progAt T h inp t = .load r k) :
    a = .load r ∧ progAt T h inp (t + 1) = k (answer T h inp t r) := by
  have hacc := access_of_issued hi
  rw [progAt_of_some hi, hp]
  rw [hp] at hacc
  exact ⟨(Option.some.inj hacc).symm, rfl⟩

/-- The access performed at a store. -/
theorem of_issued_store {a : Access ρ ω} {r : ρ} {v : ω} {k : Prog ρ ω α} (hi : issued T h inp t = some a)
    (hp : progAt T h inp t = .store r v k) : a = .store r v ∧ progAt T h inp (t + 1) = k := by
  have hacc := access_of_issued hi
  rw [progAt_of_some hi, hp]
  rw [hp] at hacc
  exact ⟨(Option.some.inj hacc).symm, rfl⟩

/-- The access performed at a busy-wait. -/
theorem of_issued_poll {a : Access ρ ω} {r : ρ} {done : ω → Bool} {k : Prog ρ ω α}
    (hi : issued T h inp t = some a) (hp : progAt T h inp t = .poll r done k) :
    a = .load r ∧ progAt T h inp (t + 1) = if done (answer T h inp t r) then k else .poll r done k := by
  have hacc := access_of_issued hi
  rw [progAt_of_some hi, hp]
  rw [hp] at hacc
  exact ⟨(Option.some.inj hacc).symm, rfl⟩

theorem ready_of_issued {a : Access ρ ω} (hi : issued T h inp t = some a) : T.ready (devAt T h inp t) a = true :=
  (Host.issue_eq_some.mp hi).2.2

/-- A driver that has returned stays so. -/
theorem ret_stays {a : α} (hp : progAt T h inp t = .ret a) {u : Nat} (hu : t ≤ u) : progAt T h inp u = .ret a := by
  induction u, hu using Nat.le_induction with
  | base => exact hp
  | succ u _ ih => rw [progAt_of_none (Host.issue_ret ih), ih]

/-- What a program and everything it goes on to have in common holds along its run. -/
theorem prog_invariant {P : Prog ρ ω α → Prop} (h0 : P h.prog)
    (hstep : ∀ (p : Prog ρ ω α) (rd : ρ → ω), P p → P (p.advance rd)) (t : Nat) : P (progAt T h inp t) := by
  induction t with
  | zero => exact h0
  | succ t ih =>
    cases hi : issued T h inp t with
    | none =>
      rw [progAt_of_none hi]
      exact ih
    | some a =>
      rw [progAt_of_some hi]
      exact hstep _ _ ih

/-- The stores of a driver whose stores are all of one kind. -/
theorem all_run {P : ρ → ω → Prop} (h0 : h.prog.All P) (t : Nat) : (progAt T h inp t).All P := by
  refine prog_invariant h0 (fun p rd hp => ?_) t
  cases p with
  | ret a => exact hp
  | load r k => exact hp _
  | store r v k => exact hp.2
  | poll r done k =>
    rw [Prog.advance]
    split
    · exact hp
    · exact hp

theorem stored_of_all {P : ρ → ω → Prop} (h0 : h.prog.All P) {r : ρ} {v : ω}
    (hi : issued T h inp t = some (.store r v)) : P r v := by
  have hall : (progAt T h inp t).All P := all_run h0 t
  have hacc := access_of_issued hi
  cases hp : progAt T h inp t with
  | ret a => rw [hp] at hacc; cases hacc
  | load r' k => rw [hp] at hacc; cases hacc
  | poll r' done k => rw [hp] at hacc; cases hacc
  | store r' v' k =>
    rw [hp] at hacc hall
    cases hacc
    exact hall.1

theorem straight_run (h0 : h.prog.Straight) (t : Nat) : (progAt T h inp t).Straight := by
  refine prog_invariant h0 (fun p rd hp => ?_) t
  cases p with
  | ret a => trivial
  | load r k =>
    obtain ⟨a, ha⟩ := hp (rd r)
    rw [Prog.advance, ha]
    trivial
  | store r v k => exact hp
  | poll r done k =>
    rw [Prog.advance]
    split
    · exact hp
    · exact hp

/-- The values of a log that went to `r`. -/
def storesTo [DecidableEq ρ] (r : ρ) (l : List (ρ × ω)) : List ω :=
  l.filterMap fun x => if x.1 = r then some x.2 else none

/-- The store to `r` an access is. -/
def storeOf [DecidableEq ρ] (r : ρ) : Option (Access ρ ω) → Option ω
  | some (.store r' v) => if r' = r then some v else none
  | _ => none

theorem storeOf_eq_some [DecidableEq ρ] {r : ρ} {a : Option (Access ρ ω)} {v : ω} :
    storeOf r a = some v ↔ a = some (.store r v) := by
  cases a with
  | none => simp [storeOf]
  | some a =>
    cases a with
    | load r' => simp [storeOf]
    | store r' v' =>
      rw [storeOf]
      split
      · rename_i hr
        simp [hr]
      · rename_i hr
        simp [hr]

theorem storesTo_stored [DecidableEq ρ] (r : ρ) (a : Option (Access ρ ω)) :
    storesTo r (a.bind Access.stored).toList = (storeOf r a).toList := by
  cases a with
  | none => rfl
  | some a =>
    cases a with
    | load r' => rfl
    | store r' v =>
      rw [storeOf]
      by_cases hr : r' = r
      · simp [storesTo, Access.stored, hr]
      · simp [storesTo, Access.stored, hr]

theorem storesTo_succ [DecidableEq ρ] (r : ρ) (t : Nat) :
    storesTo r (storeLog T h inp (t + 1)) = storesTo r (storeLog T h inp t) ++
      (storeOf r (issued T h inp t)).toList := by
  rw [storeLog_succ, storesTo, List.filterMap_append, ← storesTo, ← storesTo_stored]
  rfl

/-- What a straight driver has stored to `r` and what it has still to store there is the same all along. -/
theorem stores_balance [DecidableEq ρ] (h0 : h.prog.Straight) (r : ρ) (t : Nat) :
    storesTo r (storeLog T h inp t) ++ (progAt T h inp t).stores r = h.prog.stores r := by
  induction t with
  | zero => rfl
  | succ t ih =>
    rw [storesTo_succ, List.append_assoc, ← ih]
    congr 1
    have hs : (progAt T h inp t).Straight := straight_run h0 t
    cases hi : issued T h inp t with
    | none =>
      rw [progAt_of_none hi]
      rfl
    | some a =>
      cases hp : progAt T h inp t with
      | ret b => exact absurd hi (by rw [issued, Host.issue_ret hp]; simp)
      | load r' k =>
        obtain ⟨rfl, hp'⟩ := of_issued_load hi hp
        rw [hp] at hs
        obtain ⟨b, hb⟩ := hs (answer T h inp t r')
        rw [hp', hb]
        rfl
      | store r' v k =>
        obtain ⟨rfl, hp'⟩ := of_issued_store hi hp
        rw [hp', Prog.stores]
        by_cases hr : r' = r
        · simp [storeOf, hr]
        · simp [storeOf, hr]
      | poll r' done k =>
        obtain ⟨rfl, hp'⟩ := of_issued_poll hi hp
        rw [hp', Prog.stores]
        split
        · rfl
        · rfl

/-- A guarded store finds what its busy-wait has waited for, if that lasts while nothing is stored. -/
theorem guarded_run {r rp : ρ} {done : ω → Bool} {A : Nat → Prop} (h0 : h.prog.Guarded r rp done)
    (hstart : ¬h.prog.AtStore r)
    (hpoll : ∀ t, issued T h inp t = some (.load rp) → done (answer T h inp t rp) = true → A (t + 1))
    (hstay : ∀ t, A t → issued T h inp t = none → A (t + 1)) (t : Nat) :
    (progAt T h inp t).Guarded r rp done ∧ ((progAt T h inp t).AtStore r → A t) := by
  induction t with
  | zero => exact ⟨h0, fun hs => absurd hs hstart⟩
  | succ t ih =>
    obtain ⟨hg, hA⟩ := ih
    cases hi : issued T h inp t with
    | none =>
      rw [progAt_of_none hi]
      exact ⟨hg, fun hs => hstay t (hA hs) hi⟩
    | some a =>
      cases hp : progAt T h inp t with
      | ret b => exact absurd hi (by rw [issued, Host.issue_ret hp]; simp)
      | load r' k =>
        obtain ⟨rfl, hp'⟩ := of_issued_load hi hp
        rw [hp] at hg
        rw [hp']
        exact ⟨(hg _).2, fun hs => absurd hs (hg _).1⟩
      | store r' v k =>
        obtain ⟨rfl, hp'⟩ := of_issued_store hi hp
        rw [hp] at hg
        rw [hp']
        exact ⟨hg.2, fun hs => absurd hs hg.1⟩
      | poll r' done' k =>
        obtain ⟨rfl, hp'⟩ := of_issued_poll hi hp
        rw [hp] at hg
        rw [hp']
        split
        · rename_i hd
          refine ⟨hg.2, fun hs => ?_⟩
          obtain ⟨rfl, rfl⟩ := hg.1 hs
          exact hpoll t hi hd
        · exact ⟨hg, fun hs => hs.elim⟩

/-- The next access, and what the idle cycles before it keep. -/
theorem exists_access {A : Nat → Prop} {p : Prog ρ ω α} (hp : progAt T h inp t = p) (hA : A t) {u : Nat} (htu : t ≤ u)
    (hu : issued T h inp u ≠ none)
    (hstay : ∀ x, t ≤ x → progAt T h inp x = p → A x → issued T h inp x = none → A (x + 1)) :
    ∃ c a, t ≤ c ∧ c ≤ u ∧ A c ∧ progAt T h inp c = p ∧ issued T h inp c = some a := by
  obtain ⟨n, rfl⟩ := Nat.exists_eq_add_of_le htu
  induction n generalizing t with
  | zero =>
    obtain ⟨a, ha⟩ := Option.ne_none_iff_exists'.mp hu
    exact ⟨t, a, le_rfl, le_rfl, hA, hp, ha⟩
  | succ n ih =>
    cases hi : issued T h inp t with
    | some a => exact ⟨t, a, le_rfl, by omega, hA, hp, hi⟩
    | none =>
      have hu' : issued T h inp (t + 1 + n) ≠ none := by
        rw [show t + 1 + n = t + (n + 1) by omega]
        exact hu
      obtain ⟨c, a, h1, h2, h3⟩ := ih ((progAt_of_none hi).trans hp) (hstay t le_rfl hp hA hi)
        (fun x hx => hstay x (by omega)) (by omega) hu'
      exact ⟨c, a, by omega, by omega, h3⟩

/-! ### Progress -/

variable (T h inp) in
/-- A driver that has not returned performs its next access some time. -/
def Fair : Prop := ∀ t, (∀ a, progAt T h inp t ≠ .ret a) → ∃ u, t ≤ u ∧ issued T h inp u ≠ none

/-- A fair driver comes to its next access, and what the idle cycles keep holds there. -/
theorem Fair.access (hf : Fair T h inp) {A : Nat → Prop} {p : Prog ρ ω α} (hp : progAt T h inp t = p)
    (hne : ∀ a, p ≠ .ret a) (hA : A t)
    (hstay : ∀ x, t ≤ x → progAt T h inp x = p → A x → issued T h inp x = none → A (x + 1)) :
    ∃ c a, t ≤ c ∧ A c ∧ progAt T h inp c = p ∧ issued T h inp c = some a := by
  obtain ⟨u, htu, hu⟩ := hf t (by rw [hp]; exact hne)
  obtain ⟨c, a, h1, -, h2⟩ := exists_access hp hA htu hu hstay
  exact ⟨c, a, h1, h2⟩

/-- A fair driver leaves a busy-wait whose answer comes in the end and stays. -/
theorem Fair.poll (hf : Fair T h inp) {A : Nat → Prop} {r : ρ} {done : ω → Bool} {k : Prog ρ ω α}
    (hp : progAt T h inp t = .poll r done k) (hA : A t)
    (hidle : ∀ x, t ≤ x → progAt T h inp x = .poll r done k → A x → issued T h inp x = none → A (x + 1))
    (hload : ∀ x, t ≤ x → progAt T h inp x = .poll r done k → A x → issued T h inp x = some (.load r) → A (x + 1))
    (hlive : (∀ x, t ≤ x → progAt T h inp x = .poll r done k ∧ A x) →
      ∃ y, t ≤ y ∧ ∀ x, y ≤ x → done (answer T h inp x r) = true) :
    ∃ w, t ≤ w ∧ A w ∧ issued T h inp w = some (.load r) ∧ progAt T h inp w = .poll r done k ∧
      done (answer T h inp w r) = true ∧ progAt T h inp (w + 1) = k := by
  by_contra hno
  push Not at hno
  have hall : ∀ x, t ≤ x → progAt T h inp x = .poll r done k ∧ A x := by
    intro x hx
    induction x, hx using Nat.le_induction with
    | base => exact ⟨hp, hA⟩
    | succ x hx ih =>
      obtain ⟨hpx, hAx⟩ := ih
      cases hi : issued T h inp x with
      | none => exact ⟨(progAt_of_none hi).trans hpx, hidle x hx hpx hAx hi⟩
      | some a =>
        obtain ⟨rfl, hp'⟩ := of_issued_poll hi hpx
        cases hd : done (answer T h inp x r) with
        | true =>
          rw [hd, if_pos rfl] at hp'
          exact absurd hp' (hno x hx hAx hi hpx hd)
        | false =>
          rw [hd, if_neg Bool.false_ne_true] at hp'
          exact ⟨hp', hload x hx hpx hAx hi⟩
  obtain ⟨y, hty, hy⟩ := hlive hall
  obtain ⟨c, a, hyc, -, hpc, hi⟩ := hf.access (A := fun _ => True) (hall y hty).1 (fun a => by simp) trivial
    fun _ _ _ _ _ => trivial
  obtain ⟨rfl, hp'⟩ := of_issued_poll hi hpc
  rw [hy c hyc, if_pos rfl] at hp'
  exact hno c (by omega) (hall c (by omega)).2 hi hpc (hy c hyc) hp'

/-! ### Runs that end -/

/-- A program that ends has ended its first part before. -/
theorem bind_split {γ : Type} {p : Prog ρ ω γ} {f : γ → Prog ρ ω α} {u : Nat} {b : α}
    (hp : progAt T h inp t = p.bind f) (htu : t ≤ u) (hu : progAt T h inp u = .ret b) :
    ∃ c a, t ≤ c ∧ c ≤ u ∧ progAt T h inp c = f a := by
  obtain ⟨n, rfl⟩ := Nat.exists_eq_add_of_le htu
  induction n generalizing t p with
  | zero =>
    cases p with
    | ret a => exact ⟨t, a, le_rfl, le_rfl, hp⟩
    | load r k | store r v k | poll r done k => cases hp.symm.trans hu
  | succ n ih =>
    by_cases hend : ∃ a, p = .ret a
    · obtain ⟨a, rfl⟩ := hend
      exact ⟨t, a, le_rfl, by omega, hp⟩
    · push Not at hend
      have hu' : progAt T h inp (t + 1 + n) = .ret b := by rw [← hu]; congr 1; omega
      cases hi : issued T h inp t with
      | none =>
        obtain ⟨c, a, h1, h2, h3⟩ := ih ((progAt_of_none hi).trans hp) (by omega) hu'
        exact ⟨c, a, by omega, by omega, h3⟩
      | some x =>
        have hnext := progAt_of_some hi
        rw [hp, Prog.advance_bind hend] at hnext
        obtain ⟨c, a, h1, h2, h3⟩ := ih hnext (by omega) hu'
        exact ⟨c, a, by omega, by omega, h3⟩

/-- A busy-wait of a program that ends reads what it waits for. -/
theorem exists_poll {r : ρ} {done : ω → Bool} {k : Prog ρ ω α} {u : Nat} {b : α}
    (hp : progAt T h inp t = .poll r done k) (htu : t ≤ u) (hu : progAt T h inp u = .ret b) :
    ∃ w, t ≤ w ∧ w < u ∧ issued T h inp w = some (.load r) ∧ done (answer T h inp w r) = true ∧
      progAt T h inp (w + 1) = k := by
  obtain ⟨n, rfl⟩ := Nat.exists_eq_add_of_le htu
  induction n generalizing t with
  | zero => cases hp.symm.trans hu
  | succ n ih =>
    have hu' : progAt T h inp (t + 1 + n) = .ret b := by rw [← hu]; congr 1; omega
    cases hi : issued T h inp t with
    | none =>
      obtain ⟨w, h1, h2, h3⟩ := ih ((progAt_of_none hi).trans hp) (by omega) hu'
      exact ⟨w, by omega, by omega, h3⟩
    | some x =>
      obtain ⟨rfl, hp'⟩ := of_issued_poll hi hp
      cases hd : done (answer T h inp t r) with
      | true =>
        rw [hd, if_pos rfl] at hp'
        exact ⟨t, le_rfl, by omega, hi, hd, hp'⟩
      | false =>
        rw [hd, if_neg Bool.false_ne_true] at hp'
        obtain ⟨w, h1, h2, h3⟩ := ih hp' (by omega) hu'
        exact ⟨w, by omega, by omega, h3⟩

end Run

end Driver
