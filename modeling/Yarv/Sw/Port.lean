import Yarv.Bus.RegSlave
import Yarv.Lib.Driver

/-!
# A driver at a register slave

What the C drivers see of a peripheral: 32-bit loads and stores of its registers, one at a time.  The bus answers an
access in the cycle after it, so no two accesses are performed in consecutive cycles.
-/

namespace Yarv

open Driver Clocked

/-- A device with its port: `busyQ` is the cycle in which the bus answers. -/
structure PortDev (σ : Type) where
  core : σ
  busyQ : Bool

variable {α σ ι τ : Type} (d : RegDevice α σ ι)

/-- The access as the device sees it; a 32-bit store strobes all four bytes. -/
def regAccess (e : ι) : Option (Access α Word) → RegAccess α ι
  | some (.load r) => ⟨none, some r, e⟩
  | some (.store r v) => ⟨some ⟨r, v, 0xF⟩, none, e⟩
  | none => ⟨none, none, e⟩

@[simp] theorem regAccess_ext (e : ι) (a : Option (Access α Word)) : (regAccess e a).ext = e := by
  cases a with
  | none => rfl
  | some a => cases a <;> rfl

/-- A 32-bit store as the register it goes to sees it. -/
theorem wrAt_store (e : ι) (r : BitVec 3) (v : Word) :
    (regAccess e (some (.store r v))).wrAt r =
      some ({ addr := r, data := v, strb := 0xF } : RegWrite (BitVec 3)) := by
  simp [regAccess, RegAccess.wrAt]

/-- A register slave as its driver sees it. -/
def portTarget : Target α Word (PortDev σ) ι where
  ready s a :=
    !s.busyQ && match a with
      | .load _ => true
      | .store r _ => !d.hold s.core r
  read s e r := d.read s.core e r
  next s e a := ⟨d.next s.core (regAccess e a), a.isSome⟩

variable {d}

/-- What the device sees in cycle `t` of a run. -/
def accessAt (d : RegDevice α σ ι) (h : Host α Word τ (PortDev σ)) (inp : Nat → HostIn ι) (t : Nat) : RegAccess α ι :=
  regAccess (inp t).ext (issued (portTarget d) h inp t)

/-- The device before cycle `t`. -/
def coreAt (d : RegDevice α σ ι) (h : Host α Word τ (PortDev σ)) (inp : Nat → HostIn ι) (t : Nat) : σ :=
  (devAt (portTarget d) h inp t).core

variable {h : Host α Word τ (PortDev σ)} {inp : Nat → HostIn ι}

@[simp] theorem coreAt_zero : coreAt d h inp 0 = h.dev.core := rfl

theorem coreAt_succ (t : Nat) : coreAt d h inp (t + 1) = d.next (coreAt d h inp t) (accessAt d h inp t) := rfl

/-- The device runs as it does alone under the accesses of its driver. -/
theorem coreAt_eq_trace (t : Nat) : coreAt d h inp t = trace d.next h.dev.core (accessAt d h inp) t := by
  induction t with
  | zero => rfl
  | succ t ih => rw [coreAt_succ, trace_succ, ih]

/-- A port that takes an access is not at an answer. -/
theorem not_busy_of_ready {s : PortDev σ} {a : Access α Word} (h : (portTarget d).ready s a = true) :
    s.busyQ = false := by
  rw [portTarget, Bool.and_eq_true, Bool.not_eq_true'] at h
  exact h.1

/-- A processor that comes to its next access again and again makes a fair driver, at a device that holds no store. -/
theorem fair_of_go (hh : ∀ (q : σ) (r : α), d.hold q r = false) (hgo : ∀ t, ∃ u, t ≤ u ∧ (inp u).go = true) :
    Fair (portTarget d) h inp := by
  intro t hne
  by_contra hno
  push Not at hno
  have hprog : ∀ x, t ≤ x → progAt (portTarget d) h inp x = progAt (portTarget d) h inp t := by
    intro x hx
    induction x, hx using Nat.le_induction with
    | base => rfl
    | succ x hx ih => rw [progAt_of_none (hno x hx), ih]
  obtain ⟨u, hu, hg⟩ := hgo (t + 1)
  have hfree : (devAt (portTarget d) h inp u).busyQ = false := by
    obtain ⟨v, rfl⟩ : ∃ v, u = v + 1 := ⟨u - 1, by omega⟩
    rw [devAt_succ, hno v (by omega)]
    rfl
  cases hacc : (progAt (portTarget d) h inp u).access with
  | none =>
    cases hp : progAt (portTarget d) h inp u with
    | ret a => exact hne a ((hprog u (by omega)).symm.trans hp)
    | load r k => rw [hp] at hacc; cases hacc
    | store r v k => rw [hp] at hacc; cases hacc
    | poll r done k => rw [hp] at hacc; cases hacc
  | some a =>
    have hi : issued (portTarget d) h inp u = some a := by
      refine Host.issue_eq_some.mpr ⟨hacc, hg, ?_⟩
      rw [portTarget, Bool.and_eq_true, Bool.not_eq_true']
      refine ⟨hfree, ?_⟩
      cases a with
      | load r => rfl
      | store r v => simp [hh]
    exact absurd (hi.symm.trans (hno u (by omega))) (by simp)

end Yarv
