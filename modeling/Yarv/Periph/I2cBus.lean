import Yarv.Periph.I2cRun

/-!
# The I2C lines

`bus_discipline`: while SCL is released SDA moves in two places only, the START and the STOP of a command.
`stretching_honoured`: what a slave that holds SCL low does to the samples and to these two edges.  SHIFT and ACK wait
for the line; START and STOP do not.
-/

namespace Yarv.I2c

open Clocked

variable {wt wr : Nat}

/-- The reset values; the FIFO storage has none. -/
def reset (txMem : BitVec wt → BitVec 8) (rxMem : BitVec wr → BitVec 8) : I2c wt wr where
  enableQ := false
  ieTxQ := false
  ieRxQ := false
  ieDoneQ := false
  ieNackQ := false
  ieArbQ := false
  ieOvrQ := false
  clkdivQ := 124
  irqTxQ := false
  irqRxQ := false
  irqDoneQ := false
  irqNackQ := false
  irqArbQ := false
  irqOvrQ := false
  txEmptyDQ := false
  rxNeDQ := false
  tx := Fifo.reset txMem
  rx := Fifo.reset rxMem
  cmdQ := ⟨false, false, false, false⟩
  cmdValidQ := false
  divCntQ := 0
  eng := ⟨.idle, 0, 0, 0, false, false, false, false, false⟩

section Conditions

variable (q : I2c wt wr) (i : RegAccess (BitVec 3) I2cPins)

/-- The engine sits between phases 1 and 2 of state `s`. -/
def Turning (s : I2cState) (e e' : I2cEngine) : Prop :=
  e.stateQ = s ∧ e'.stateQ = s ∧ e.phaseQ = 1 ∧ e'.phaseQ = 2

/-- An SDA edge under a released SCL is the one of START or the one of STOP. -/
def Disciplined (e e' : I2cEngine) : Prop :=
  e.sclOe = false → e'.sclOe = false → e.sdaOe ≠ e'.sdaOe →
    (Turning .start e e' ∧ e.sdaOe = false ∧ e'.sdaOe = true) ∨
      (Turning .stop e e' ∧ e.sdaOe = true ∧ e'.sdaOe = false)

/-- A command with START is taken. -/
def StartDue : Prop := q.cmdConsumeIdle = true ∧ q.cmdQ.start = true

/-- The ways to a STOP: a START with nothing to write, a refused byte, the last byte of a command with STOP and a read
the master answers with a NACK. -/
def StopDue : Prop :=
  q.go i = true ∧ q.eng.phaseQ = 3 ∧
    ((q.eng.stateQ = .start ∧ q.eng.readQ = false ∧ q.tx.empty = true) ∨
      (q.eng.stateQ = .ack ∧ q.eng.readQ = false ∧
        (q.eng.byteNackQ = true ∨ (q.tx.empty = true ∧ q.eng.stopAfterQ = true))) ∨
      (q.eng.stateQ = .ack ∧ q.eng.readQ = true ∧ (q.eng.stopAfterQ = true ∨ q.eng.nackCmdQ = true)))

end Conditions

variable {q : I2c wt wr} {i : RegAccess (BitVec 3) I2cPins}

/-- The states without phases keep phase 0. -/
def Parked (e : I2cEngine) : Prop := e.stateQ = .idle ∨ e.stateQ = .done → e.phaseQ = 0

private theorem parked_consume (h : Parked q.eng) (hs : q.eng.stateQ = .idle) :
    q.engConsume.phaseQ = 0 ∧ (q.engConsume.stateQ = .idle ∨ q.engConsume.sclOe = true) := by
  have hp : q.eng.phaseQ = 0 := h (.inl hs)
  cases hst : q.cmdQ.start with
  | true => simp [engConsume, hst, hp, I2cEngine.sclOe]
  | false =>
    cases hd : q.cmdQ.read || !q.tx.empty with
    | true => simp [engConsume, hst, hd, hp, I2cEngine.sclOe]
    | false => simp [engConsume, hst, hd, hp, hs]

/-- The cases of one clock edge: a command is taken, a phase ends, or nothing moves. -/
private theorem engNext_cases (q : I2c wt wr) (i : RegAccess (BitVec 3) I2cPins) :
    (q.eng.stateQ = .idle ∧ q.cmdConsumeIdle = true ∧ q.engNext i = q.engConsume) ∨
      (q.eng.stateQ ≠ .idle ∧ q.go i = true) ∨ q.engNext i = q.eng := by
  cases hc : q.cmdConsumeIdle with
  | true =>
    refine .inl ⟨?_, rfl, by simp [engNext, hc]⟩
    simp only [cmdConsumeIdle, Bool.and_eq_true, beq_iff_eq] at hc
    exact hc.1.1
  | false =>
    cases hg : q.go i with
    | true => exact .inr (.inl ⟨state_of_go hg, rfl⟩)
    | false => exact .inr (.inr (by simp [engNext, hc, hg]))

theorem engNext_of_go (hg : q.go i = true) :
    q.engNext i =
      match q.eng.stateQ with
      | .start => q.engStart
      | .shift => q.engShift i
      | .ack => q.engAck i
      | .stop => q.engStop
      | .done => q.engGoto .idle
      | .idle => q.eng := by
  rw [engNext, consumeIdle_of_busy (state_of_go hg), if_neg Bool.false_ne_true]
  exact if_pos hg

private theorem parked_next (h : Parked q.eng) (i : RegAccess (BitVec 3) I2cPins) : Parked (q.engNext i) := by
  rcases engNext_cases q i with ⟨hs, -, he⟩ | ⟨-, hg⟩ | he
  · rw [he]
    intro _
    exact (parked_consume h hs).1
  · rw [engNext_of_go hg]
    cases hs : q.eng.stateQ with
    | idle => exact absurd hs (state_of_go hg)
    | start => simp only [engStart]; split_ifs <;> simp [Parked, engGoto, engLoad, engPhase, hs]
    | shift => simp only [engShift]; split_ifs <;> simp [Parked, engGoto, hs, engPhase]
    | ack => simp only [engAck]; split_ifs <;> simp [Parked, engGoto, engLoad, engPhase, hs]
    | stop => simp only [engStop]; split_ifs <;> simp [Parked, engGoto, engPhase, hs]
    | done => simp [Parked, engGoto]
  · rw [he]
    exact h

/-- The first two phases only count on. -/
private theorem engNext_low (hg : q.go i = true) (hd : q.eng.stateQ ≠ .done)
    (hp : q.eng.phaseQ = 0 ∨ q.eng.phaseQ = 1) :
    q.engNext i = q.engPhase := by
  have h2 : q.eng.phaseQ ≠ 2 := by rcases hp with h | h <;> rw [h] <;> decide
  have h3 : q.eng.phaseQ ≠ 3 := by rcases hp with h | h <;> rw [h] <;> decide
  rw [engNext_of_go hg]
  cases hs : q.eng.stateQ with
  | idle => exact absurd hs (state_of_go hg)
  | done => exact absurd hs hd
  | start => exact if_neg h3
  | shift => exact (if_neg h2).trans (if_neg h3)
  | ack => exact (if_neg h2).trans (if_neg h3)
  | stop => exact if_neg h3

/-- The sample of a data bit ends in phase 3, or arbitration is lost in a bit the master does not drive. -/
theorem engShift_sample (hs : q.eng.stateQ = .shift) (hp : q.eng.phaseQ = 2) :
    ((q.engShift i).stateQ = .done ∧ q.eng.sdaOe = false) ∨
      ((q.engShift i).stateQ = .shift ∧ (q.engShift i).phaseQ = 3) := by
  rw [engShift, if_pos hp]
  dsimp only
  by_cases ha : (!q.eng.readQ && !q.eng.sdaOe && !i.ext.sda) = true
  · rw [if_pos ha]
    simp only [Bool.and_eq_true, Bool.not_eq_true'] at ha
    exact .inl ⟨rfl, ha.1.2⟩
  · rw [if_neg ha]
    refine .inr ⟨?_, by simp [hp]⟩
    split_ifs <;> exact hs

/-- One clock edge keeps the discipline. -/
private theorem disciplined_next (h : Parked q.eng) (i : RegAccess (BitVec 3) I2cPins) :
    Disciplined q.eng (q.engNext i) := by
  intro hr hr' hne
  rcases engNext_cases q i with ⟨hs, -, he⟩ | ⟨-, hg⟩ | he
  · -- a command is taken: the engine stays idle or pulls SCL at once
    rw [he] at hr' hne
    rcases (parked_consume h hs).2 with hs' | hscl
    · exact absurd (by simp [I2cEngine.sdaOe, hs, hs']) hne
    · rw [hscl] at hr'
      exact absurd hr' (by decide)
  · cases hs : q.eng.stateQ with
    | idle => exact absurd hs (state_of_go hg)
    | done =>
      rw [engNext_of_go hg, hs] at hne
      exact absurd (by simp [I2cEngine.sdaOe, hs, engGoto]) hne
    | start =>
      rcases phase_cases q.eng.phaseQ with hp | hp | hp | hp
      · simp [I2cEngine.sclOe, hs, hp] at hr
      · have he := engNext_low hg (by rw [hs]; decide) (.inr hp)
        rw [he]
        exact .inl ⟨⟨hs, hs, hp, by simp [engPhase, hp]⟩, by simp [I2cEngine.sdaOe, hs, hp],
          by simp [I2cEngine.sdaOe, engPhase, hs, hp]⟩
      · rw [engNext_of_go hg, hs] at hr'
        simp [engStart, engPhase, I2cEngine.sclOe, hs, hp] at hr'
      · simp [I2cEngine.sclOe, hs, hp] at hr
    | shift =>
      rcases phase_cases q.eng.phaseQ with hp | hp | hp | hp
      · simp [I2cEngine.sclOe, hs, hp] at hr
      · rw [engNext_low hg (by rw [hs]; decide) (.inr hp)] at hne
        exact absurd (by simp [I2cEngine.sdaOe, engPhase, hs]) hne
      · -- phase 3 pulls SCL, and a lost arbitration leaves a released SDA alone
        rw [engNext_of_go hg, hs] at hr' hne
        dsimp only at hr' hne
        rcases engShift_sample (i := i) hs hp with ⟨hd, hsda⟩ | ⟨hst, hph⟩
        · exact absurd (by rw [hsda, I2cEngine.sdaOe, hd]) hne
        · simp [I2cEngine.sclOe, hst, hph] at hr'
      · simp [I2cEngine.sclOe, hs, hp] at hr
    | ack =>
      rcases phase_cases q.eng.phaseQ with hp | hp | hp | hp
      · simp [I2cEngine.sclOe, hs, hp] at hr
      · rw [engNext_low hg (by rw [hs]; decide) (.inr hp)] at hne
        exact absurd (by simp [I2cEngine.sdaOe, engPhase, hs, hp]) hne
      · rw [engNext_of_go hg, hs] at hr'
        simp [engAck, engPhase, I2cEngine.sclOe, hs, hp] at hr'
      · simp [I2cEngine.sclOe, hs, hp] at hr
    | stop =>
      rcases phase_cases q.eng.phaseQ with hp | hp | hp | hp
      · simp [I2cEngine.sclOe, hs, hp] at hr
      · have he := engNext_low hg (by rw [hs]; decide) (.inr hp)
        rw [he]
        exact .inr ⟨⟨hs, hs, hp, by simp [engPhase, hp]⟩, by simp [I2cEngine.sdaOe, hs, hp],
          by simp [I2cEngine.sdaOe, engPhase, hs, hp]⟩
      · rw [engNext_of_go hg, hs] at hne
        exact absurd (by simp [engStop, engPhase, I2cEngine.sdaOe, hs, hp]) hne
      · rw [engNext_of_go hg, hs] at hne
        exact absurd (by simp [engStop, engGoto, I2cEngine.sdaOe, hs, hp]) hne
  · exact absurd (by rw [he]) hne

/-- ST_START is entered by a command with START. -/
private theorem start_entry (h : (q.engNext i).stateQ = .start) :
    StartDue q ∨ (q.eng.stateQ = .start ∧ q.eng.phaseQ.toNat ≤ (q.engNext i).phaseQ.toNat) := by
  rcases engNext_cases q i with ⟨hs, hc, he⟩ | ⟨-, hg⟩ | he
  · left
    refine ⟨hc, ?_⟩
    rw [he] at h
    cases hst : q.cmdQ.start with
    | true => rfl
    | false => cases hd : q.cmdQ.read || !q.tx.empty <;> simp [engConsume, hst, hd, hs] at h
  · right
    rw [engNext_of_go hg] at h ⊢
    cases hs : q.eng.stateQ with
    | idle => exact absurd hs (state_of_go hg)
    | start =>
      simp only [hs, engStart] at h ⊢
      split_ifs at h ⊢ with hp
      · simp [engGoto] at h
      · simp [engLoad] at h
      · simp [engGoto] at h
      · refine ⟨trivial, ?_⟩
        simp only [engPhase]
        rcases phase_cases q.eng.phaseQ with h' | h' | h' | h' <;> simp_all
    | shift => simp only [hs, engShift] at h; split_ifs at h <;> simp [engGoto, engPhase, hs] at h
    | ack => simp only [hs, engAck] at h; split_ifs at h <;> simp [engGoto, engLoad, engPhase, hs] at h
    | stop => simp only [hs, engStop] at h; split_ifs at h <;> simp [engGoto, engPhase, hs] at h
    | done => simp [hs, engGoto] at h
  · right
    rw [he] at h ⊢
    exact ⟨h, le_rfl⟩

/-- ST_STOP is entered in the cycles in which a STOP is due. -/
private theorem stop_entry (h : (q.engNext i).stateQ = .stop) :
    StopDue q i ∨ (q.eng.stateQ = .stop ∧ q.eng.phaseQ.toNat ≤ (q.engNext i).phaseQ.toNat) := by
  rcases engNext_cases q i with ⟨hs, -, he⟩ | ⟨-, hg⟩ | he
  · rw [he, engConsume] at h
    dsimp only at h
    split_ifs at h
    simp [hs] at h
  · rw [engNext_of_go hg] at h ⊢
    cases hs : q.eng.stateQ with
    | idle => exact absurd hs (state_of_go hg)
    | start =>
      simp only [hs, engStart] at h
      split_ifs at h with hp hr ht
      · simp [engGoto] at h
      · simp [engLoad] at h
      · exact .inl ⟨hg, hp, .inl ⟨hs, by simpa using hr, by simpa using ht⟩⟩
      · simp [engPhase, hs] at h
    | shift => simp only [hs, engShift] at h; split_ifs at h <;> simp [engGoto, engPhase, hs] at h
    | ack =>
      by_cases h2 : q.eng.phaseQ = 2
      · simp [hs, engAck, h2, engPhase] at h
      simp only [hs, engAck, if_neg h2] at h
      split_ifs at h with hp hw hn ht hst hr
      · exact .inl ⟨hg, hp, .inr (.inl ⟨hs, by simpa using hw, .inl hn⟩)⟩
      · simp [engLoad] at h
      · exact .inl ⟨hg, hp, .inr (.inl ⟨hs, by simpa using hw, .inr ⟨by simpa using ht, hst⟩⟩)⟩
      · simp [engGoto] at h
      · exact .inl ⟨hg, hp, .inr (.inr ⟨hs, by simpa using hw, by simpa using hr⟩)⟩
      · simp [engGoto] at h
      · simp [engGoto] at h
      · simp [engPhase, hs] at h
    | stop =>
      right
      simp only [hs, engStop] at h ⊢
      split_ifs at h ⊢ with hp
      · simp [engGoto] at h
      · refine ⟨trivial, ?_⟩
        simp only [engPhase]
        rcases phase_cases q.eng.phaseQ with h' | h' | h' | h' <;> simp_all
    | done => simp [hs, engGoto] at h
  · right
    rw [he] at h ⊢
    exact ⟨h, le_rfl⟩

/-! ### The discipline of a run -/

section Bus

variable (txMem : BitVec wt → BitVec 8) (rxMem : BitVec wr → BitVec 8) (acc : Nat → RegAccess (BitVec 3) I2cPins)

/-- The engine was sent to the state `s` by an event `due`, and has not passed its phase 1 since. -/
def SentTo (s : I2cState) (due : I2c wt wr → RegAccess (BitVec 3) I2cPins → Prop) (q₀ : I2c wt wr) (t : Nat) : Prop :=
  ∃ u < t, due (engineAt q₀ acc u) (acc u) ∧
    ∀ v, u < v → v ≤ t → (engineAt q₀ acc v).eng.stateQ = s ∧ (engineAt q₀ acc v).eng.phaseQ.toNat ≤ 1

private theorem parked_run (t : Nat) : Parked (engineAt (reset txMem rxMem) acc t).eng :=
  trace_invariant (P := fun q : I2c wt wr => Parked q.eng) (fun _ => rfl) (fun _ i h => parked_next h i) t

/-- Between any two cycles with SCL released SDA falls only in the START of a command and rises only in a STOP that is
due, once for each. -/
theorem bus_discipline (t : Nat) :
    Disciplined (engineAt (reset txMem rxMem) acc t).eng (engineAt (reset txMem rxMem) acc (t + 1)).eng ∧
      (startCond (engineAt (reset txMem rxMem) acc t).eng (engineAt (reset txMem rxMem) acc (t + 1)).eng = true →
        SentTo acc .start (fun q _ => StartDue q) (reset txMem rxMem) t) ∧
      (stopCond (engineAt (reset txMem rxMem) acc t).eng (engineAt (reset txMem rxMem) acc (t + 1)).eng = true →
        SentTo acc .stop StopDue (reset txMem rxMem) t) := by
  set q₀ := reset txMem rxMem with hq₀
  have hpark : Parked (engineAt q₀ acc t).eng := parked_run txMem rxMem acc t
  have hdisc : Disciplined (engineAt q₀ acc t).eng (engineAt q₀ acc (t + 1)).eng := disciplined_next hpark (acc t)
  have hentry : ∀ (s : I2cState) (due : I2c wt wr → RegAccess (BitVec 3) I2cPins → Prop), s ≠ .idle →
      (∀ (q : I2c wt wr) i, (q.engNext i).stateQ = s →
        due q i ∨ q.eng.stateQ = s ∧ q.eng.phaseQ.toNat ≤ (q.engNext i).phaseQ.toNat) →
      Turning s (engineAt q₀ acc t).eng (engineAt q₀ acc (t + 1)).eng → SentTo acc s due q₀ t := by
    rintro s due hne hstep ⟨hs, -, hp, -⟩
    obtain ⟨u, hu, hd, hall⟩ := @exists_entry (fun t => (engineAt q₀ acc t).eng.stateQ = s)
      (fun t => due (engineAt q₀ acc t) (acc t)) (fun t => (engineAt q₀ acc t).eng.phaseQ.toNat)
      (fun h => hne h.symm) (fun t h => hstep _ (acc t) h) t hs
    refine ⟨u, hu, hd, fun v h1 h2 => ⟨(hall v h1 h2).1, ?_⟩⟩
    have := (hall v h1 h2).2
    rw [hp] at this
    exact this
  refine ⟨hdisc, fun hc => ?_, fun hc => ?_⟩
  · simp only [startCond, Bool.and_eq_true, Bool.not_eq_true'] at hc
    obtain ⟨⟨⟨h1, h2⟩, h3⟩, h4⟩ := hc
    rcases hdisc h1 h2 (by rw [h3, h4]; decide) with ⟨ht, -⟩ | ⟨-, h, -⟩
    · exact hentry .start _ (by decide) (fun q i h => start_entry h) ht
    · rw [h3] at h
      exact absurd h (by decide)
  · simp only [stopCond, Bool.and_eq_true, Bool.not_eq_true'] at hc
    obtain ⟨⟨⟨h1, h2⟩, h3⟩, h4⟩ := hc
    rcases hdisc h1 h2 (by rw [h3, h4]; decide) with ⟨-, h, -⟩ | ⟨ht, -⟩
    · rw [h3] at h
      exact absurd h (by decide)
    · exact hentry .stop _ (by decide) (fun q i h => stop_entry h) ht

end Bus

/-! ### Clock stretching -/

section Stretching

variable (d : Nat) (q₀ : I2c wt wr) (acc : Nat → RegAccess (BitVec 3) I2cPins) (hold : Nat → Bool)

/-- The SCL line: the pull-up against the master and the slave. -/
def sclLine (t : Nat) : Bool := !(engineAt q₀ acc t).eng.sclOe && !hold t

/-- The pins behind a synchronizer of `d` flops, and a slave that begins to hold SCL only while the line is low. -/
structure Wired : Prop where
  rest : hold 0 = false
  falling : ∀ t, hold (t + 1) = true →
    hold t = true ∨ (engineAt q₀ acc t).eng.sclOe = true ∨ (engineAt q₀ acc (t + 1)).eng.sclOe = true
  early : ∀ t < d, (acc t).ext.scl = true
  sync : ∀ t, (acc (t + d)).ext.scl = sclLine q₀ acc hold t

/-- SCL has been released for as long as the synchronizer takes. -/
def Released (t : Nat) : Prop := ∀ u ≤ t, t ≤ u + d → (engineAt q₀ acc u).eng.sclOe = false

/-- Phase 1 does not end too early: START and STOP find SCL high, and what is found is this pulse. -/
def Settled (t : Nat) : Prop :=
  (engineAt q₀ acc t).go (acc t) = true → (engineAt q₀ acc t).eng.phaseQ = 1 →
    ((engineAt q₀ acc t).eng.stateQ = .start ∨ (engineAt q₀ acc t).eng.stateQ = .stop → (acc t).ext.scl = true) ∧
      Released d q₀ acc t

/-- The samples and the two edges of the cycle see SCL high, at the pin and behind the synchronizer, and no slave
holds SCL in phase 2. -/
structure Honoured (t : Nat) : Prop where
  sample : (engineAt q₀ acc t).go (acc t) = true → (engineAt q₀ acc t).eng.phaseQ = 2 →
    (engineAt q₀ acc t).eng.stateQ = .shift ∨ (engineAt q₀ acc t).eng.stateQ = .ack →
      (acc t).ext.scl = true ∧ sclLine q₀ acc hold t = true
  edge : (startCond (engineAt q₀ acc t).eng (engineAt q₀ acc (t + 1)).eng = true ∨
      stopCond (engineAt q₀ acc t).eng (engineAt q₀ acc (t + 1)).eng = true) →
    ((acc t).ext.scl = true ∧ sclLine q₀ acc hold t = true) ∧
      (acc (t + 1)).ext.scl = true ∧ sclLine q₀ acc hold (t + 1) = true
  high : (engineAt q₀ acc t).eng.phaseQ = 2 → hold t = false

/-- The line has been high for as long as the synchronizer takes. -/
def LineHigh (t : Nat) : Prop := ∀ u ≤ t, t ≤ u + d → sclLine q₀ acc hold u = true

end Stretching

section Stretched

variable {d : Nat} {q₀ : I2c wt wr} {acc : Nat → RegAccess (BitVec 3) I2cPins} {hold : Nat → Bool}

private theorem sclLine_true {t : Nat} :
    sclLine q₀ acc hold t = true ↔ (engineAt q₀ acc t).eng.sclOe = false ∧ hold t = false := by
  rw [sclLine, Bool.and_eq_true, Bool.not_eq_true', Bool.not_eq_true']

private theorem LineHigh.scl {t : Nat} (h : LineHigh d q₀ acc hold t) (hw : Wired d q₀ acc hold) :
    (acc t).ext.scl = true := by
  by_cases ht : t < d
  · exact hw.early t ht
  · have hs := hw.sync (t - d)
    rw [Nat.sub_add_cancel (by omega)] at hs
    rw [hs]
    exact h (t - d) (by omega) (by omega)

private theorem LineHigh.now {t : Nat} (h : LineHigh d q₀ acc hold t) :
    sclLine q₀ acc hold t = true := h t le_rfl (by omega)

/-- Nobody begins to hold a line that the master has let go. -/
private theorem LineHigh.succ {t : Nat} (h : LineHigh d q₀ acc hold t) (hw : Wired d q₀ acc hold)
    (hr : (engineAt q₀ acc (t + 1)).eng.sclOe = false) : LineHigh d q₀ acc hold (t + 1) := by
  intro u hu hd
  rcases Nat.le_succ_iff.mp hu with h' | rfl
  · exact h u h' (by omega)
  · obtain ⟨h1, h2⟩ := sclLine_true.mp h.now
    refine sclLine_true.mpr ⟨hr, ?_⟩
    cases hh : hold (t + 1) with
    | false => rfl
    | true =>
      rcases hw.falling t hh with h' | h' | h'
      · rw [h2] at h'
        exact absurd h' (by decide)
      · rw [h1] at h'
        exact absurd h' (by decide)
      · rw [hr] at h'
        exact absurd h' (by decide)

/-- What the synchronizer shows of this pulse is still there. -/
private theorem lineHigh_of_released {t : Nat} (hw : Wired d q₀ acc hold) (hr : Released d q₀ acc t)
    (hscl : (acc t).ext.scl = true) : LineHigh d q₀ acc hold t := by
  -- the first cycle of the window is free
  have hfirst : hold (t - d) = false := by
    by_cases ht : t < d
    · rw [Nat.sub_eq_zero_of_le ht.le]
      exact hw.rest
    · have hs := hw.sync (t - d)
      rw [Nat.sub_add_cancel (by omega), hscl] at hs
      exact (sclLine_true.mp hs.symm).2
  have hfree : ∀ k, t - d + k ≤ t → hold (t - d + k) = false := by
    intro k
    induction k with
    | zero => exact fun _ => hfirst
    | succ k ih =>
      intro hk
      cases hh : hold (t - d + k + 1) with
      | false => rfl
      | true =>
        rcases hw.falling _ hh with h' | h' | h'
        · rw [ih (by omega)] at h'
          exact absurd h' (by decide)
        · rw [hr _ (by omega) (by omega)] at h'
          exact absurd h' (by decide)
        · rw [hr _ (by omega) (by omega)] at h'
          exact absurd h' (by decide)
  intro u hu hd
  refine sclLine_true.mpr ⟨hr u hu hd, ?_⟩
  have := hfree (u - (t - d)) (by omega)
  rwa [Nat.add_sub_cancel' (by omega)] at this

/-- Phase 2 is entered from phase 1. -/
private theorem phase_two (h : Parked q.eng) (hp : (q.engNext i).phaseQ = 2) :
    (q.go i = true ∧ q.eng.phaseQ = 1) ∨ q.eng.phaseQ = 2 := by
  rcases engNext_cases q i with ⟨hs, -, he⟩ | ⟨-, hg⟩ | he
  · rw [he, (parked_consume h hs).1] at hp
    exact absurd hp (by decide)
  · rcases phase_cases q.eng.phaseQ with h' | h' | h' | h'
    · by_cases hd : q.eng.stateQ = .done
      · rw [engNext_of_go hg, hd] at hp
        simp [engGoto] at hp
      · rw [engNext_low hg hd (.inl h')] at hp
        simp [engPhase, h'] at hp
    · exact .inl ⟨hg, h'⟩
    · exact .inr h'
    · rw [engNext_of_go hg] at hp
      cases hs : q.eng.stateQ with
      | idle => exact absurd hs (state_of_go hg)
      | start => simp only [hs, engStart, if_pos h'] at hp; split_ifs at hp <;> simp [engGoto, engLoad] at hp
      | shift => simp only [hs, engShift, h'] at hp; split_ifs at hp <;> simp_all [engGoto]
      | ack => simp only [hs, engAck, h'] at hp; split_ifs at hp <;> simp_all [engGoto, engLoad]
      | stop => simp [hs, engStop, h', engGoto] at hp
      | done => simp [hs, engGoto] at hp
  · rw [he] at hp
    exact .inr hp

private theorem scl_released (h : Parked q.eng) (hp : q.eng.phaseQ = 2) : q.eng.sclOe = false := by
  have hne : ¬(q.eng.stateQ = .idle ∨ q.eng.stateQ = .done) := by
    intro hs
    rw [h hs] at hp
    exact absurd hp (by decide)
  rw [not_or] at hne
  cases hs : q.eng.stateQ <;> simp_all [I2cEngine.sclOe]

/-- SHIFT and ACK leave phase 1 only when SCL is high. -/
private theorem scl_of_go (hg : q.go i = true) (hp : q.eng.phaseQ = 1)
    (hs : q.eng.stateQ = .shift ∨ q.eng.stateQ = .ack) :
    i.ext.scl = true := by
  rw [go, Bool.and_eq_true] at hg
  rcases hs with hs | hs <;> simpa [stretchHold, hp, hs] using hg.2

/-- Phase 1 ends under a line that is high. -/
private theorem Settled.lineHigh {t : Nat} (h : Settled d q₀ acc t) (hw : Wired d q₀ acc hold)
    (hpark : Parked (engineAt q₀ acc t).eng) (hg : (engineAt q₀ acc t).go (acc t) = true)
    (hp : (engineAt q₀ acc t).eng.phaseQ = 1) : LineHigh d q₀ acc hold t := by
  obtain ⟨hscl, hrel⟩ := h hg hp
  refine lineHigh_of_released hw hrel ?_
  cases hs : (engineAt q₀ acc t).eng.stateQ with
  | idle => exact absurd hs (state_of_go hg)
  | done =>
    rw [hpark (.inr hs)] at hp
    exact absurd hp (by decide)
  | start => exact hscl (.inl hs)
  | stop => exact hscl (.inr hs)
  | shift => exact scl_of_go hg hp (.inl hs)
  | ack => exact scl_of_go hg hp (.inr hs)

end Stretched

section Honoured

variable {txMem : BitVec wt → BitVec 8} {rxMem : BitVec wr → BitVec 8} {acc : Nat → RegAccess (BitVec 3) I2cPins}
  {hold : Nat → Bool} {d : Nat}

/-- In phase 2 the line is high, and has been. -/
private theorem lineHigh_two (hw : Wired d (reset txMem rxMem) acc hold)
    (hok : ∀ t, Settled d (reset txMem rxMem) acc t) (t : Nat)
    (hp : (engineAt (reset txMem rxMem) acc t).eng.phaseQ = 2) :
    LineHigh d (reset txMem rxMem) acc hold t := by
  induction t with
  | zero => exact absurd hp (by rw [engineAt, trace_zero]; simp [reset])
  | succ t ih =>
    refine LineHigh.succ ?_ hw (scl_released (parked_run txMem rxMem acc (t + 1)) hp)
    rcases phase_two (i := acc t) (parked_run txMem rxMem acc t) hp with ⟨hg, h1⟩ | h2
    · exact (hok t).lineHigh hw (parked_run txMem rxMem acc t) hg h1
    · exact ih h2

/-- The stretch wait of SHIFT and ACK is enough where SCL is low for as long as the synchronizer takes. -/
theorem settled_of_low (hw : Wired d (reset txMem rxMem) acc hold)
    (hlow : ∀ s, (engineAt (reset txMem rxMem) acc s).eng.sclOe = true →
      (engineAt (reset txMem rxMem) acc (s + 1)).eng.sclOe = false →
      ∀ u ≤ s, s < u + d → (engineAt (reset txMem rxMem) acc u).eng.sclOe = true)
    (t : Nat) (hs : (engineAt (reset txMem rxMem) acc t).eng.stateQ = .shift ∨
      (engineAt (reset txMem rxMem) acc t).eng.stateQ = .ack) : Settled d (reset txMem rxMem) acc t := by
  intro hg hp
  refine ⟨fun h => ?_, ?_⟩
  · rcases hs with hs | hs <;> rw [hs] at h <;> simp at h
  have hscl := scl_of_go hg hp hs
  have hnow : (engineAt (reset txMem rxMem) acc t).eng.sclOe = false := by
    rcases hs with hs | hs <;> simp [I2cEngine.sclOe, hs, hp]
  -- a pull inside the window would reach back to the cycle the synchronizer shows
  intro u hu hd
  by_contra hpull
  rw [Bool.not_eq_false] at hpull
  obtain ⟨s, h1, h2, h3, h4⟩ : ∃ s, u ≤ s ∧ s < t ∧ (engineAt (reset txMem rxMem) acc s).eng.sclOe = true ∧
      (engineAt (reset txMem rxMem) acc (s + 1)).eng.sclOe = false := by
    by_contra hno
    push Not at hno
    have hall : ∀ k, u + k ≤ t → (engineAt (reset txMem rxMem) acc (u + k)).eng.sclOe = true := by
      intro k
      induction k with
      | zero => exact fun _ => hpull
      | succ k ih => exact fun hk => Bool.not_eq_false _ ▸ hno (u + k) (by omega) (by omega) (ih (by omega))
    have := hall (t - u) (by omega)
    rw [Nat.add_sub_cancel' hu, hnow] at this
    exact absurd this (by decide)
  by_cases ht : t < d
  · have := hlow s h3 h4 0 (by omega) (by omega)
    rw [engineAt, trace_zero] at this
    exact absurd this (by simp [reset, I2cEngine.sclOe])
  · have hsync := hw.sync (t - d)
    rw [Nat.sub_add_cancel (by omega), hscl] at hsync
    have := (sclLine_true.mp hsync.symm).1
    rw [hlow s h3 h4 (t - d) (by omega) (by omega)] at this
    exact absurd this (by decide)

/-- If START and STOP find SCL high when their phase 1 ends, and the pulse is older than the synchronizer there,
stretching is honoured in the whole run. -/
theorem stretching_honoured (hw : Wired d (reset txMem rxMem) acc hold)
    (hok : ∀ t, Settled d (reset txMem rxMem) acc t) (t : Nat) : Honoured (reset txMem rxMem) acc hold t := by
  have hpark := parked_run txMem rxMem acc t
  have hturn : ∀ s, s = .start ∨ s = .stop →
      Turning s (engineAt (reset txMem rxMem) acc t).eng (engineAt (reset txMem rxMem) acc (t + 1)).eng →
      ((acc t).ext.scl = true ∧ sclLine (reset txMem rxMem) acc hold t = true) ∧
        (acc (t + 1)).ext.scl = true ∧ sclLine (reset txMem rxMem) acc hold (t + 1) = true := by
    rintro s - ⟨-, -, hp, hp'⟩
    have hg : (engineAt (reset txMem rxMem) acc t).go (acc t) = true := by
      rcases phase_two (i := acc t) hpark hp' with h | h
      · exact h.1
      · rw [hp] at h
        exact absurd h (by decide)
    have hl := (hok t).lineHigh hw hpark hg hp
    have hl' := lineHigh_two hw hok (t + 1) hp'
    exact ⟨⟨hl.scl hw, hl.now⟩, hl'.scl hw, hl'.now⟩
  refine ⟨fun _ hp _ => ?_, fun hc => ?_, fun hp => ?_⟩
  · have hl := lineHigh_two hw hok t hp
    exact ⟨hl.scl hw, hl.now⟩
  · have hedge : ∀ {a b c e : Bool}, (!a && !b && !c && e) = true ∨ (!a && !b && c && !e) = true →
        a = false ∧ b = false ∧ c ≠ e := by decide
    obtain ⟨h1, h2, h3⟩ := hedge hc
    rcases disciplined_next hpark (acc t) h1 h2 h3 with ⟨ht, -⟩ | ⟨ht, -⟩
    · exact hturn .start (.inl rfl) ht
    · exact hturn .stop (.inr rfl) ht
  · exact (sclLine_true.mp (lineHigh_two hw hok t hp).now).2

/-- A driver that writes one byte: the fastest clock, the byte, ENABLE, and a command with START and STOP. -/
def oneByte : Nat → Option (RegWrite (BitVec 3))
  | 0 => some ⟨REG_CLKDIV, 0, 15⟩
  | 1 => some ⟨REG_TXDATA, 0xA0, 15⟩
  | 2 => some ⟨REG_CTRL, 1, 15⟩
  | 3 => some ⟨REG_CMD, 3, 15⟩
  | _ => none

/-- The same driver on a line with the levels `scl`, with the slave's acknowledge from cycle `ack` on. -/
def onLine (scl : Nat → Bool) (ack : Nat) (t : Nat) : RegAccess (BitVec 3) I2cPins :=
  ⟨oneByte t, none, scl t, decide (t < ack)⟩

/-- The engine of the board: 16 slots in both FIFOs. -/
def board : I2c 4 4 := reset (fun _ => 0) (fun _ => 0)

private theorem quiet_stay (hs : q.eng.stateQ = .idle ∧ q.eng.busActiveQ = false ∧ q.cmdValidQ = false)
    (hw : i.wr = none) :
    (q.next i).eng.stateQ = .idle ∧ (q.next i).eng.busActiveQ = false ∧ (q.next i).cmdValidQ = false := by
  obtain ⟨h1, h2, h3⟩ := hs
  have he : (q.next i).eng = q.eng := (idle_stay h1 (by simp [cmdConsumeIdle, h3])).1
  refine ⟨by rw [he, h1], by rw [he, h2], ?_⟩
  simp [next, cmdWrite, RegAccess.wrAt, hw, h3]

private theorem quiet_tail {scl : Nat → Bool} {ack n : Nat} (hn : 4 ≤ n)
    (h0 : (engineAt board (onLine scl ack) n).eng.stateQ = .idle ∧
      (engineAt board (onLine scl ack) n).eng.busActiveQ = false ∧
        (engineAt board (onLine scl ack) n).cmdValidQ = false)
    {t : Nat} (ht : n ≤ t) :
    (engineAt board (onLine scl ack) t).eng.stateQ = .idle ∧
      (engineAt board (onLine scl ack) t).eng.sclOe = false := by
  have hall : (engineAt board (onLine scl ack) t).eng.stateQ = .idle ∧
      (engineAt board (onLine scl ack) t).eng.busActiveQ = false ∧
      (engineAt board (onLine scl ack) t).cmdValidQ = false := by
    induction t, ht using Nat.le_induction with
    | base => exact h0
    | succ t ht ih =>
      refine quiet_stay ih ?_
      obtain ⟨k, rfl⟩ : ∃ k, t = k + 4 := ⟨t - 4, by omega⟩
      rfl
  exact ⟨hall.1, by rw [I2cEngine.sclOe, hall.1, hall.2.1]⟩

/-- SCL where the slave holds it for eight cycles after the first bit. -/
def slowBit (t : Nat) : Bool :=
  decide (t < 5 ∨ (t < 12 ∧ 2 ≤ t % 4) ∨ (20 ≤ t ∧ 2 ≤ (t + 2) % 4) ∨ 52 ≤ t)

theorem stretching_honoured_board :
    Honoured board (onLine slowBit 47) (fun t => decide (12 ≤ t ∧ t < 20)) 21 := by
  have htail := fun t (ht : 56 ≤ t) => @quiet_tail slowBit 47 56 (by decide) (by decide +kernel) t ht
  have hline : ∀ t < 56, slowBit t = sclLine board (onLine slowBit 47) (fun t => decide (12 ≤ t ∧ t < 20)) t := by
    decide +kernel
  have hpulse : ∀ t < 56, (engineAt board (onLine slowBit 47) t).go (onLine slowBit 47 t) = true →
      (engineAt board (onLine slowBit 47) t).eng.phaseQ = 1 →
      slowBit t = true ∧ (engineAt board (onLine slowBit 47) t).eng.sclOe = false := by decide +kernel
  have hcond : ∀ t, (engineAt board (onLine slowBit 47) t).go (onLine slowBit 47 t) = true →
      (engineAt board (onLine slowBit 47) t).eng.phaseQ = 1 →
      slowBit t = true ∧ (engineAt board (onLine slowBit 47) t).eng.sclOe = false := by
    intro t hg hp
    rcases Nat.lt_or_ge t 56 with h | h
    · exact hpulse t h hg hp
    · exact absurd (htail t h).1 (state_of_go hg)
  refine stretching_honoured (d := 0) ⟨by decide, fun t ht => ?_, by simp, fun t => ?_⟩
    (fun t hg hp => ⟨fun _ => (hcond t hg hp).1, fun u h1 h2 => ?_⟩) 21
  · have hwin : 12 ≤ t + 1 ∧ t + 1 < 20 := of_decide_eq_true ht
    by_cases h11 : t = 11
    · rw [h11]
      exact .inr (.inr (by decide +kernel))
    · exact .inl (decide_eq_true ⟨by omega, by omega⟩)
  · rcases Nat.lt_or_ge t 56 with h | h
    · exact hline t h
    · have h1 : slowBit t = true := by simp only [slowBit, decide_eq_true_eq]; omega
      have h2 : decide (12 ≤ t ∧ t < 20) = false := by simp only [decide_eq_false_iff_not]; omega
      change slowBit t = sclLine board _ _ t
      rw [h1, sclLine, (htail t h).2, h2]
      rfl
  · obtain rfl : u = t := by omega
    exact (hcond u hg hp).2

/-- SCL where the slave holds it for ever after the acknowledge. -/
def heldAck (t : Nat) : Bool := decide (t < 5 ∨ (t < 44 ∧ 2 ≤ t % 4))

/-- A slave that stretches after the acknowledge: the STOP edge on SDA comes while SCL is low. -/
theorem stop_while_held : ¬ ∀ (acc : Nat → RegAccess (BitVec 3) I2cPins) (hold : Nat → Bool),
    Wired 0 board acc hold → ∀ t, Honoured board acc hold t := by
  intro hall
  have hline : ∀ t < 44, heldAck t = sclLine board (onLine heldAck 41) (fun t => decide (44 ≤ t)) t := by
    decide +kernel
  have hw : Wired 0 board (onLine heldAck 41) (fun t => decide (44 ≤ t)) := by
    refine ⟨by decide, fun t ht => ?_, by simp, fun t => ?_⟩
    · have hge : 44 ≤ t + 1 := of_decide_eq_true ht
      by_cases h43 : t = 43
      · rw [h43]
        exact .inr (.inr (by decide +kernel))
      · exact .inl (decide_eq_true (by omega))
    · rcases Nat.lt_or_ge t 44 with h | h
      · exact hline t h
      · have h1 : heldAck t = false := by simp only [heldAck, decide_eq_false_iff_not]; omega
        have h2 : decide (44 ≤ t) = true := decide_eq_true h
        change heldAck t = sclLine board _ _ t
        rw [h1, sclLine, h2, Bool.not_true, Bool.and_false]
  have hedge := ((hall _ _ hw 46).edge (.inr (by decide +kernel))).1.1
  exact absurd hedge (by decide)

end Honoured

end Yarv.I2c
