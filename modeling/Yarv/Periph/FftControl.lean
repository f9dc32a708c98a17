import Yarv.Periph.Fft

/-!
# The direction of a transform

`inv_run_q` selects the twiddle of every butterfly of a transform.  It is loaded in the cycle of an accepted START and
at no other time, from the `inverse_q` that the same write is about to replace.
-/

namespace Yarv.Fft

open Clocked

variable {m : Nat} (rom : BitVec m → Word) (s : Fft m) (is : Nat → RegAccess (BitVec 11) Unit)

/-- The engine before cycle `t`. -/
def run (t : Nat) : Fft m := trace (Fft.next rom) s is t

/-- `w` is the CTRL write of cycle `t`, and it launches a transform. -/
def Launches (t : Nat) (w : RegWrite (BitVec 11)) : Prop :=
  wrTo0 (is t) REG_CTRL = some w ∧ (run rom s is t).startPulse (is t) = true

/-- The INVERSE bit of a CTRL write. -/
def inverseBit (w : RegWrite (BitVec 11)) : Bool := w.data.getLsbD 2

/-- The transform launched in cycle `t` has not ended before cycle `u`. -/
def UnderWay (t u : Nat) : Prop := t < u ∧ ∀ v, t < v → v ≤ u → (run rom s is v).busy = true

/-- The transform launched in cycle `t` runs in one direction: the direction flop holds it in each of its cycles, and
each butterfly that is combined turns its twiddle that way. -/
def RunsIn (t : Nat) (inv : Bool) : Prop :=
  ∀ u, UnderWay rom s is t u →
    (run rom s is u).seq.invRunQ = inv ∧
      ((run rom s is u).seq.vldQ.getLsbD 0 = true →
        (run rom s is (u + 1)).s2 = slot2D (run rom s is u).p1.copy inv (run rom s is u).srcARdata
          (run rom s is u).srcBRdata (run rom s is u).twRdata)

/-! ### One clock edge -/

variable {rom s is} {q : Fft m} {i : RegAccess (BitVec 11) Unit}

theorem startPulse_idle (h : q.startPulse i = true) : q.seq.stateQ = .idle := by
  unfold startPulse at h
  rw [Bool.and_eq_true] at h
  have hb := h.2
  unfold busy at hb
  cases hs : q.seq.stateQ with
  | idle => rfl
  | run => simp [hs] at hb
  | drain => simp [hs] at hb

/-- An accepted START makes the engine busy and loads the direction that is in force before the edge. -/
private theorem seqNext_start (h : q.startPulse i = true) :
    (q.seqNext i).stateQ = .run ∧ (q.seqNext i).invRunQ = q.regs.inverseQ := by
  unfold seqNext
  simp only [startPulse_idle h, h, if_true]
  exact ⟨trivial, trivial⟩

/-- No write moves the direction of a transform under way. -/
private theorem seqNext_invRunQ (h : q.busy = true) : (q.seqNext i).invRunQ = q.seq.invRunQ := by
  unfold seqNext
  cases hs : q.seq.stateQ with
  | idle =>
    unfold busy at h
    simp [hs] at h
  | run => simp only [hs]
  | drain =>
    by_cases hv : q.seq.vldQ = 0
    · by_cases hf : q.isFinalStage = true
      · simp only [hs, hv, hf, if_true]
      · simp only [hs, hv, hf, if_true, if_false, Bool.false_eq_true]
    · simp only [hs, hv, if_false]

/-- A butterfly is combined with the twiddle the direction flop selects. -/
theorem next_s2 (h : q.seq.vldQ.getLsbD 0 = true) :
    (q.next rom i).s2 = slot2D q.p1.copy q.seq.invRunQ q.srcARdata q.srcBRdata q.twRdata := by
  unfold Fft.next
  rw [h]
  rfl

/-! ### The run of a transform -/

/-- While the transform is under way the direction flop holds what it was loaded with. -/
private theorem invRunQ_eq {t : Nat} (hstart : (run rom s is t).startPulse (is t) = true) {u : Nat}
    (hu : UnderWay rom s is t u) : (run rom s is u).seq.invRunQ = (run rom s is t).regs.inverseQ := by
  obtain ⟨hlt, hbusy⟩ := hu
  induction u, hlt using Nat.le_induction with
  | base => exact (seqNext_start hstart).2
  | succ u hlt ih =>
    have hb : (run rom s is u).busy = true := hbusy u hlt (Nat.le_succ u)
    have hkeep : (run rom s is (u + 1)).seq.invRunQ = (run rom s is u).seq.invRunQ := seqNext_invRunQ hb
    rw [hkeep]
    exact ih fun v h1 h2 => hbusy v h1 (by omega)

/-- The cycle behind the launch belongs to the transform. -/
private theorem underWay_succ {t : Nat} (hstart : (run rom s is t).startPulse (is t) = true) :
    UnderWay rom s is t (t + 1) := by
  refine ⟨Nat.lt_succ_self t, ?_⟩
  intro v h1 h2
  have hv : v = t + 1 := by omega
  have hrun : (run rom s is (t + 1)).seq.stateQ = .run := (seqNext_start hstart).1
  rw [hv]
  unfold busy
  rw [hrun]
  rfl

/-- A transform runs in the direction its launching CTRL write asks for exactly when that direction was in force
before. -/
theorem direction_iff {t : Nat} {w : RegWrite (BitVec 11)} (h : Launches rom s is t w) :
    RunsIn rom s is t (inverseBit w) ↔ (run rom s is t).regs.inverseQ = inverseBit w := by
  obtain ⟨_, hstart⟩ := h
  constructor
  · intro hrun
    rw [← invRunQ_eq hstart (underWay_succ hstart)]
    exact (hrun (t + 1) (underWay_succ hstart)).1
  · intro heq u hu
    have hinv : (run rom s is u).seq.invRunQ = inverseBit w := (invRunQ_eq hstart hu).trans heq
    refine ⟨hinv, ?_⟩
    intro hv
    rw [← hinv]
    exact next_s2 hv

/-! ### One write that turns the direction and starts -/

/-- The engine out of reset, over cleared memories. -/
def outOfReset (m : Nat) : Fft m where
  regs := ⟨false, false, log2nmax m, BitVec.allOnes (m + 1)⟩
  seq := ⟨.idle, 0, 0, 0, 0, 0, 0, 0, 0, false, 0, 0, false, false⟩
  p1 := ⟨0, 0, false, false, false⟩
  s2Tag := ⟨0, 0, false, false, false⟩
  s2 := ⟨0, 0, 0, 0, 0, 0⟩
  s3Tag := ⟨0, 0, false, false, false⟩
  s3 := ⟨0, 0, 0, 0, 0, 0, 0, 0⟩
  s4 := ⟨0, 0, 0, 0⟩
  twRdata := 0
  buf0 := ⟨⟨fun _ => 0, 0, 0⟩, ⟨fun _ => 0, 0, 0⟩⟩
  buf1 := ⟨⟨fun _ => 0, 0, 0⟩, ⟨fun _ => 0, 0, 0⟩⟩
  scratch := ⟨⟨fun _ => 0, 0, 0⟩, ⟨fun _ => 0, 0, 0⟩⟩

/-- A store of `data` to CTRL. -/
def ctrlStore (data : Word) : RegWrite (BitVec 11) := ⟨REG_CTRL.setWidth 11, data, 0xF⟩

/-- CTRL is stored once, in cycle 0. -/
def oneStore (data : Word) (t : Nat) : RegAccess (BitVec 11) Unit :=
  ⟨if t = 0 then some (ctrlStore data) else none, none, ()⟩

theorem launches_oneStore {data : Word} (h : data.getLsbD 0 = true) :
    Launches rom (outOfReset m) (oneStore data) 0 (ctrlStore data) := by
  have hw : wrTo0 (oneStore data 0) REG_CTRL = some (ctrlStore data) := by
    simp [wrTo0, wrTo, csrWr, oneStore, ctrlStore, REG_CTRL]
  refine ⟨hw, ?_⟩
  unfold startPulse
  rw [hw]
  change (data.getLsbD 0 && true) = true
  rw [h]
  rfl

/-- START with a forward direction out of reset. -/
theorem direction_iff_forward :
    RunsIn (fun _ => 0) (outOfReset 9) (oneStore 1) 0 (inverseBit (ctrlStore 1)) ↔
      (outOfReset 9).regs.inverseQ = inverseBit (ctrlStore 1) :=
  direction_iff (launches_oneStore rfl)

/-- One store of `START | INVERSE` out of reset runs forward. -/
theorem inverse_with_start_runs_forward :
    Launches (fun _ => 0) (outOfReset 9) (oneStore 5) 0 (ctrlStore 5) ∧
      ¬RunsIn (fun _ => 0) (outOfReset 9) (oneStore 5) 0 (inverseBit (ctrlStore 5)) := by
  have hl : Launches (fun _ => 0) (outOfReset 9) (oneStore 5) 0 (ctrlStore 5) := launches_oneStore rfl
  refine ⟨hl, ?_⟩
  intro hrun
  have hdir := (hrun 1 (underWay_succ hl.2)).1
  rw [invRunQ_eq hl.2 (underWay_succ hl.2)] at hdir
  exact absurd hdir (by decide)

end Yarv.Fft
