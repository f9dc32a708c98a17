import Yarv.Periph.UartFacts

/-!
# BAUDDIV

A write to BAUDDIV is latched in `div_pending_q` and applied once both engines are idle.  The divisor never moves
under an engine that is not idle.  A write that commits in the very cycle the pending value is applied is latched, but
its valid flag is cleared by the same edge; it is the one write that is lost.
-/

namespace Yarv.Uart

open Clocked

variable {wt wr : Nat}

/-- The value of a BAUDDIV write that commits. -/
def baudWrite (i : RegAccess (BitVec 3) Bool) : Option (BitVec 16) :=
  (i.wrAt REG_BAUDDIV).map fun x => x.data.setWidth 16

/-- The value written last, a companion of the run. -/
def lastBaud (last : BitVec 16) (i : RegAccess (BitVec 3) Bool) : BitVec 16 := (baudWrite i).getD last

/-- A new value commits in the cycle the pending one is applied. -/
def Collides (q : Uart wt wr) (i : RegAccess (BitVec 3) Bool) : Prop :=
  q.divApply = true ∧ ∃ v, baudWrite i = some v ∧ v ≠ q.divPendingQ

/-- The value written last is the pending one, or the divisor in force. -/
def KeepsBaud (last : BitVec 16) (q : Uart wt wr) : Prop :=
  last = if q.divPendingValidQ then q.divPendingQ else q.divQ

variable {q : Uart wt wr} {i : RegAccess (BitVec 3) Bool} {last : BitVec 16}

theorem divApply_pending (h : q.divApply = true) : q.divPendingValidQ = true := by
  unfold divApply at h
  rw [Bool.and_eq_true, Bool.and_eq_true] at h
  exact h.1.1

/-- A cycle without a BAUDDIV write loses nothing. -/
private theorem KeepsBaud.next_quiet (h : KeepsBaud last q) (hw : baudWrite i = none) :
    KeepsBaud (lastBaud last i) (q.next i) := by
  have hwr : i.wrAt REG_BAUDDIV = none := by
    unfold baudWrite at hw
    exact Option.map_eq_none_iff.mp hw
  unfold KeepsBaud at h ⊢
  unfold lastBaud
  rw [hw]
  change last = if (!q.divApply && (q.divPendingValidQ || (i.wrAt REG_BAUDDIV).isSome)) then
    (baudWrite i).getD q.divPendingQ else q.divD
  rw [hw, hwr]
  by_cases hap : q.divApply = true
  · rw [divApply_pending hap, if_pos rfl] at h
    rw [hap]
    unfold divD
    rw [if_pos hap]
    exact h
  · have hd : q.divD = q.divQ := if_neg hap
    rw [hd, Bool.eq_false_iff.mpr hap]
    simpa using h

/-- A write is kept unless it collides; a colliding one is lost. -/
private theorem keepsBaud_next_write {v : BitVec 16} (hw : baudWrite i = some v) :
    KeepsBaud (lastBaud last i) (q.next i) ↔ ¬Collides q i := by
  have hwr : (i.wrAt REG_BAUDDIV).isSome = true := by
    unfold baudWrite at hw
    cases hi : i.wrAt REG_BAUDDIV with
    | none => simp [hi] at hw
    | some x => rfl
  unfold KeepsBaud lastBaud Collides
  change (baudWrite i).getD last = (if (!q.divApply && (q.divPendingValidQ || (i.wrAt REG_BAUDDIV).isSome)) then
    (baudWrite i).getD q.divPendingQ else q.divD) ↔ _
  rw [hw, hwr, Bool.or_true, Bool.and_true, Option.getD_some, Option.getD_some]
  by_cases hap : q.divApply = true
  · have hd : q.divD = q.divPendingQ := if_pos hap
    rw [hap, hd]
    simp
  · rw [Bool.eq_false_iff.mpr hap]
    simp

/-- One clock edge keeps the value written last exactly when no write collides. -/
private theorem keepsBaud_next (h : KeepsBaud last q) : KeepsBaud (lastBaud last i) (q.next i) ↔ ¬Collides q i := by
  cases hw : baudWrite i with
  | none =>
    refine ⟨?_, fun _ => h.next_quiet hw⟩
    rintro - ⟨-, v, hv, -⟩
    rw [hw] at hv
    cases hv
  | some v => exact keepsBaud_next_write hw

/-- Behind a collision nothing is pending, and the divisor is not the value written last. -/
private theorem Collides.lost (h : Collides q i) :
    (q.next i).divPendingValidQ = false ∧ (q.next i).divQ ≠ lastBaud last i := by
  obtain ⟨hap, v, hv, hne⟩ := h
  constructor
  · change (!q.divApply && (q.divPendingValidQ || (i.wrAt REG_BAUDDIV).isSome)) = false
    rw [hap]
    rfl
  · have hd : q.divD = q.divPendingQ := if_pos hap
    change q.divD ≠ lastBaud last i
    unfold lastBaud
    rw [hd, hv]
    exact hne.symm

/-! ### Runs behind the bus -/

variable (s : RegSlave (BitVec 3) (Uart wt wr)) (inp : Nat → SlaveIn Bool)

/-- The UART before cycle `t` of a run of the slave. -/
def uartAt (t : Nat) : Uart wt wr := (trace (RegSlave.next device) s inp t).core

/-- The value of the last BAUDDIV write before cycle `t`, or the one out of reset. -/
def baudAt (t : Nat) : BitVec 16 :=
  companion (fun last (_ : Uart wt wr) i => lastBaud last i) Uart.next s.core.divQ s.core (s.accesses device inp) t

variable {s inp}

private theorem uartAt_succ (t : Nat) : uartAt s inp (t + 1) = (uartAt s inp t).next (s.accesses device inp t) := by
  unfold uartAt
  rw [RegSlave.core_trace, RegSlave.core_trace]
  rfl

private theorem keepsBaud_run (h0 : s.core.divPendingValidQ = false) (t : Nat)
    (hok : ∀ u, u < t → ¬Collides (uartAt s inp u) (s.accesses device inp u)) :
    KeepsBaud (baudAt s inp t) (uartAt s inp t) := by
  unfold uartAt
  rw [RegSlave.core_trace]
  have hstep : ∀ (last : BitVec 16) (q : Uart wt wr) i, KeepsBaud last q → ¬Collides q i →
      KeepsBaud (lastBaud last i) (q.next i) := fun last q i hk hc => (keepsBaud_next hk).mpr hc
  refine companion_invariant (P := KeepsBaud) (Q := fun _ q i => ¬Collides q i) ?_ hstep t ?_
  · unfold KeepsBaud
    rw [h0]
    rfl
  · intro u hu
    have h := hok u hu
    unfold uartAt at h
    rw [RegSlave.core_trace] at h
    exact h

/-- As long as no write collides, the divisor in force is the value written last whenever none is pending; a write
that collides is lost, with nothing pending behind it; and in every run the divisor stands still while an engine is
not idle. -/
theorem bauddiv_kept (h0 : s.core.divPendingValidQ = false) (t : Nat) :
    ((∀ u < t, ¬Collides (uartAt s inp u) (s.accesses device inp u)) → (uartAt s inp t).divPendingValidQ = false →
      (uartAt s inp t).txIdle = true → (uartAt s inp t).rxIdle = true → (uartAt s inp t).divQ = baudAt s inp t) ∧
    (Collides (uartAt s inp t) (s.accesses device inp t) →
      (uartAt s inp (t + 1)).divPendingValidQ = false ∧ (uartAt s inp (t + 1)).divQ ≠ baudAt s inp (t + 1)) ∧
    ((uartAt s inp t).txIdle = false ∨ (uartAt s inp t).rxIdle = false →
      (uartAt s inp (t + 1)).divQ = (uartAt s inp t).divQ) := by
  refine ⟨fun hok hp _ _ => ?_, fun hc => ?_, fun hbusy => ?_⟩
  · have hk := keepsBaud_run h0 t hok
    unfold KeepsBaud at hk
    rw [hp] at hk
    exact hk.symm
  · have hlast : baudAt s inp (t + 1) = lastBaud (baudAt s inp t) (s.accesses device inp t) := rfl
    rw [uartAt_succ, hlast]
    exact hc.lost
  · change (uartAt s inp t).divD = (uartAt s inp t).divQ
    apply divD_eq
    rcases hbusy with h | h
    · left
      intro hi
      rw [txIdle, hi] at h
      cases h
    · right
      intro hi
      rw [rxIdle, hi] at h
      cases h

/-! ### A frame that ends in the cycle of a write

The divisor resets to 1 and a byte is on the line from cycle 2 on; BAUDDIV is written in cycle 4 and once more
later. -/

def baudStart : RegSlave (BitVec 3) (Uart 1 1) where
  port := ⟨false, false, 0, 0, 0, false, false, 0⟩
  core := reset 1 (fun _ => 0) (fun _ => 0)

/-- TXDATA in cycle 0, 3 into BAUDDIV in cycle 4 and 7 in cycle `again`. -/
def baudIn (again t : Nat) : SlaveIn Bool where
  m :=
    { awaddr := if t = 0 then 0x00 else 0x10, awvalid := t == 0 || t == 4 || t == again,
      wdata := if t = 0 then 0xA5 else if t = 4 then 3 else 7, wstrb := 0xF, wvalid := t == 0 || t == 4 || t == again,
      bready := true, araddr := 0, arvalid := false, rready := true }
  ext := true

/-- A single write cannot collide. -/
private theorem not_collides_once (u : Nat) :
    ¬Collides (uartAt baudStart (baudIn 4) u) (baudStart.accesses device (baudIn 4) u) := by
  rintro ⟨hap, v, hv, -⟩
  by_cases hu : u < 5
  · have hnone : ∀ u, u < 5 → (uartAt baudStart (baudIn 4) u).divApply = false := by decide +kernel
    rw [hnone u hu] at hap
    cases hap
  · have hm : ∀ u, 5 ≤ u → (baudIn 4 u).m.awvalid = false ∧ (baudIn 4 u).m.arvalid = false := by
      intro u hu
      refine ⟨?_, rfl⟩
      simp [baudIn]
      omega
    rw [RegSlave.accesses_quiet device baudStart (by decide +kernel) hm (not_lt.mp hu)] at hv
    cases hv

/-- BAUDDIV is written once, under the frame. -/
theorem bauddiv_kept_once :
    (uartAt baudStart (baudIn 4) 23).divQ = baudAt baudStart (baudIn 4) 23 ∧
      (uartAt baudStart (baudIn 4) 11).divQ = (uartAt baudStart (baudIn 4) 10).divQ :=
  ⟨(bauddiv_kept rfl 23).1 (fun u _ => not_collides_once u) (by decide +kernel) (by decide +kernel)
    (by decide +kernel), (bauddiv_kept rfl 10).2.2 (by decide +kernel)⟩

/-- The frame is over in cycle 22, where the second write commits: 3 stays in force, and nothing is pending. -/
theorem bauddiv_lost :
    (uartAt baudStart (baudIn 22) 23).divPendingValidQ = false ∧ (uartAt baudStart (baudIn 22) 23).txIdle = true ∧
      (uartAt baudStart (baudIn 22) 23).rxIdle = true ∧ (uartAt baudStart (baudIn 22) 23).divQ = 3 ∧
      baudAt baudStart (baudIn 22) 23 = 7 := by
  decide +kernel

end Yarv.Uart
