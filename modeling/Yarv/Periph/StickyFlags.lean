import Yarv.Periph.FftControl
import Yarv.Periph.I2cBus
import Yarv.Periph.I2s
import Yarv.Periph.Registers
import Yarv.Periph.Spi

/-!
# The sticky flags of the peripherals

Every flag a device sets on an event and software clears by a write of one.  `events_once`: each of them records every
event exactly once, but for DONE of the I2C engine, which follows the state ST_DONE for as long as it lasts.
-/

namespace Yarv

open Clocked Sticky

private theorem once_of_sticky {ι : Type} {acc : Nat → RegAccess (BitVec 3) ι} {r : BitVec 3} {k : Nat}
    {flag event : Nat → Bool} (h : ∀ t, flag (t + 1) = (acc t).sticky r k (flag t) (event t)) (hp : Pulse event) :
    Once flag event (clears acc r k) :=
  ⟨records_iff.mpr fun t _ => h t, hp⟩

/-! ### `axi4_lite_i2c` -/

namespace I2c

variable {wt wr : Nat}

section Flags

variable (q₀ : I2c wt wr) (acc : Nat → RegAccess (BitVec 3) I2cPins)

/-- The six flags of REG_IRQ. -/
structure FlagsOnce : Prop where
  tx : Once (fun t => (engineAt q₀ acc t).irqTxQ) (rises fun t => (engineAt q₀ acc t).tx.empty) (clears acc REG_IRQ 0)
  rx :
    Once (fun t => (engineAt q₀ acc t).irqRxQ) (rises fun t => !(engineAt q₀ acc t).rx.empty) (clears acc REG_IRQ 1)
  done :
    Once (fun t => (engineAt q₀ acc t).irqDoneQ) (rises fun t => (engineAt q₀ acc t).evDone) (clears acc REG_IRQ 2)
  nack :
    Once (fun t => (engineAt q₀ acc t).irqNackQ) (fun t => (engineAt q₀ acc t).evNack (acc t)) (clears acc REG_IRQ 3)
  arb :
    Once (fun t => (engineAt q₀ acc t).irqArbQ) (fun t => (engineAt q₀ acc t).evArb (acc t)) (clears acc REG_IRQ 4)
  /-- A byte that is read while the RX FIFO is full is dropped. -/
  ovr : Once (fun t => (engineAt q₀ acc t).irqOvrQ)
    (fun t => (engineAt q₀ acc t).rxByte (acc t) && (engineAt q₀ acc t).rx.full) (clears acc REG_IRQ 5)

end Flags

variable {q : I2c wt wr} {i : RegAccess (BitVec 3) I2cPins}

/-- A sample ends its phase. -/
private theorem phase_of_sample (hg : q.go i = true) (hp : q.eng.phaseQ = 2) : (q.engNext i).phaseQ ≠ 2 := by
  rw [engNext_of_go hg]
  cases hs : q.eng.stateQ with
  | idle => exact absurd hs (state_of_go hg)
  | start => simp [engStart, engPhase, hp]
  | shift =>
    rcases engShift_sample (i := i) hs hp with ⟨hd, -⟩ | ⟨-, h3⟩
    · simp only [engShift, if_pos hp] at hd ⊢
      split_ifs at hd ⊢ <;> simp_all
    · dsimp only
      rw [h3]
      decide
  | ack => simp [engAck, engPhase, hp]
  | stop => simp [engStop, engPhase, hp]
  | done => simp [engGoto]

private theorem go_of_tick (ht : q.phaseTick = true) (hp : q.eng.phaseQ = 2) : q.go i = true := by
  simp [go, stretchHold, ht, hp]

/-- What needs a tick of phase 2 is over in the next cycle. -/
private theorem pulse_of_sample (q₀ : I2c wt wr) (acc : Nat → RegAccess (BitVec 3) I2cPins) {event : Nat → Bool}
    (h : ∀ t, event t = true → (engineAt q₀ acc t).phaseTick = true ∧ (engineAt q₀ acc t).eng.phaseQ = 2) :
    Pulse event := by
  intro t he
  obtain ⟨ht, hp⟩ := h t he
  cases hn : event (t + 1) with
  | false => rfl
  | true => exact absurd (h (t + 1) hn).2 (phase_of_sample (go_of_tick ht hp) hp)

section Run

variable (txMem : BitVec wt → BitVec 8) (rxMem : BitVec wr → BitVec 8) (acc : Nat → RegAccess (BitVec 3) I2cPins)

private theorem rises_txEmpty (t : Nat) :
    ((engineAt (reset txMem rxMem) acc t).tx.empty && !(engineAt (reset txMem rxMem) acc t).txEmptyDQ) =
      rises (fun t => (engineAt (reset txMem rxMem) acc t).tx.empty) t := by
  cases t with
  | zero => exact Bool.and_true _
  | succ t => rfl

private theorem rises_rxNe (t : Nat) :
    (!(engineAt (reset txMem rxMem) acc t).rx.empty && !(engineAt (reset txMem rxMem) acc t).rxNeDQ) =
      rises (fun t => !(engineAt (reset txMem rxMem) acc t).rx.empty) t := by
  cases t with
  | zero => exact Bool.and_true _
  | succ t => rfl

/-- Five of the flags are in order in every run; DONE is in order exactly if it is never cleared late. -/
private theorem flagsOnce_iff :
    FlagsOnce (reset txMem rxMem) acc ↔ ∀ t, ¬LateClear (reset txMem rxMem) acc t := by
  have hdone : Records (fun _ => True) (fun t => (engineAt (reset txMem rxMem) acc t).irqDoneQ)
      (rises fun t => (engineAt (reset txMem rxMem) acc t).evDone) (clears acc REG_IRQ 2) ↔
        ∀ t, ¬LateClear (reset txMem rxMem) acc t := records_level_iff fun _ => rfl
  have hsample := fun event => @pulse_of_sample _ _ (reset txMem rxMem) acc event
  constructor
  · exact fun h => hdone.mp h.done.records
  · intro h
    refine ⟨once_of_sticky (fun t => ?_) pulse_rises, once_of_sticky (fun t => ?_) pulse_rises,
      ⟨hdone.mpr h, pulse_rises⟩, once_of_sticky (fun _ => rfl) (hsample _ fun t he => ?_),
      once_of_sticky (fun _ => rfl) (hsample _ fun t he => ?_),
      once_of_sticky (fun t => ?_) (hsample _ fun t he => ?_)⟩
    · rw [← rises_txEmpty]
      rfl
    · rw [← rises_rxNe]
      rfl
    · simp only [evNack, Bool.and_eq_true, beq_iff_eq] at he
      exact ⟨he.1.1.2, he.1.1.1.2⟩
    · simp only [evArb, Bool.and_eq_true, beq_iff_eq] at he
      exact ⟨he.1.1.1.2, he.1.1.1.1.2⟩
    · rw [← evOvr_eq]
      rfl
    · rw [← evOvr_eq] at he
      simp only [evOvr, Bool.and_eq_true, beq_iff_eq] at he
      exact ⟨he.1.1.2, he.1.1.1.2⟩

end Run

end I2c

/-! ### `axi4_lite_spi` -/

namespace Spi

variable {wt wr : Nat}

/-- The reset values; the FIFO storage has none. -/
def reset (txMem : BitVec wt → Byte) (rxMem : BitVec wr → Byte) : Spi wt wr where
  enableQ := false
  cpolQ := false
  cphaQ := false
  ieTxQ := false
  ieRxQ := false
  ieDoneQ := false
  ieOvrQ := false
  clkdivQ := 1
  csNQ := true
  irqTxQ := false
  irqRxQ := false
  irqDoneQ := false
  irqOvrQ := false
  txEmptyDQ := false
  rxNeDQ := false
  tx := Fifo.reset txMem
  rx := Fifo.reset rxMem
  stateQ := .idle
  shiftQ := 0
  rxQ := 0
  bitCntQ := 0
  firstEdgeQ := false
  divCntQ := 0
  sckQ := false

section Flags

variable (q₀ : Spi wt wr) (acc : Nat → RegAccess (BitVec 3) Bool)

/-- The engine before cycle `t`. -/
abbrev engineAt (t : Nat) : Spi wt wr := trace next q₀ acc t

/-- The four flags of REG_IRQ. -/
structure FlagsOnce : Prop where
  tx : Once (fun t => (engineAt q₀ acc t).irqTxQ) (rises fun t => (engineAt q₀ acc t).tx.empty) (clears acc REG_IRQ 0)
  rx :
    Once (fun t => (engineAt q₀ acc t).irqRxQ) (rises fun t => !(engineAt q₀ acc t).rx.empty) (clears acc REG_IRQ 1)
  done :
    Once (fun t => (engineAt q₀ acc t).irqDoneQ) (rises fun t => (engineAt q₀ acc t).byteDone) (clears acc REG_IRQ 2)
  ovr :
    Once (fun t => (engineAt q₀ acc t).irqOvrQ) (fun t => (engineAt q₀ acc t).byteDone && (engineAt q₀ acc t).rx.full)
    (clears acc REG_IRQ 3)

end Flags

/-- ST_DONE lasts for one cycle. -/
private theorem byteDone_next {q : Spi wt wr} (h : q.byteDone = true) (i : RegAccess (BitVec 3) Bool) :
    (q.next i).byteDone = false := by
  have hs : q.stateQ = .done := eq_of_beq h
  have hn : (q.next i).stateQ = .idle := by
    change q.stateD = .idle
    rw [stateD, hs]
  rw [byteDone, hn]
  rfl

private theorem flagsOnce (txMem : BitVec wt → Byte) (rxMem : BitVec wr → Byte)
    (acc : Nat → RegAccess (BitVec 3) Bool) :
    FlagsOnce (reset txMem rxMem) acc := by
  have hpulse : ∀ t, (engineAt (reset txMem rxMem) acc t).byteDone = true →
      (engineAt (reset txMem rxMem) acc (t + 1)).byteDone = false := fun t h => byteDone_next h (acc t)
  refine ⟨once_of_sticky (fun t => ?_) pulse_rises, once_of_sticky (fun t => ?_) pulse_rises,
    ⟨(records_level_iff fun _ => rfl).mpr ?_, pulse_rises⟩, once_of_sticky (fun _ => rfl) fun t h => ?_⟩
  · cases t with
    | zero => rfl
    | succ t => rfl
  · cases t with
    | zero => rfl
    | succ t => rfl
  · rintro t ⟨h1, h2, -⟩
    rw [hpulse t h1] at h2
    exact absurd h2 (by decide)
  · rw [Bool.and_eq_true] at h
    rw [hpulse t h.1, Bool.false_and]

end Spi

/-! ### `axi4_lite_fft` -/

namespace Fft

variable {m : Nat} (rom : BitVec m → Word)

/-- What takes DONE back: a write of one to IRQ, or a START. -/
def doneClear (q : Fft m) (i : RegAccess (BitVec 11) Unit) : Bool := w1cIrq i || q.startPulse i

/-- DONE behind an edge: a transform ends when the engine turns idle. -/
private theorem doneQ_next (q : Fft m) (i : RegAccess (BitVec 11) Unit) :
    (q.next rom i).seq.doneQ = ((q.busy && !(q.next rom i).busy) || (q.seq.doneQ && !q.doneClear i)) := by
  have hseq : (q.next rom i).seq = q.seqNext i := rfl
  rw [busy, busy, hseq]
  cases hs : q.seq.stateQ with
  | idle =>
    rw [seqNext]
    simp only [hs]
    cases hst : q.startPulse i with
    | true => simp [doneClear, hst]
    | false => simp [doneClear, hst, doneD]
  | run =>
    have hst : q.startPulse i = false := by simp [startPulse, busy, hs]
    rw [seqNext]
    simp only [hs, doneClear, hst]
    cases q.bfLast <;> simp [doneD]
  | drain =>
    have hst : q.startPulse i = false := by simp [startPulse, busy, hs]
    rw [seqNext]
    simp only [hs, doneClear, hst]
    split_ifs <;> simp [doneD]

/-- DONE is set once at the end of every transform. -/
private theorem flagOnce (s : Fft m) (inp : Nat → RegAccess (BitVec 11) Unit) :
    Once (fun t => (trace (next rom) s inp t).seq.doneQ) (falls fun t => (trace (next rom) s inp t).busy)
      (fun t => (trace (next rom) s inp t).doneClear (inp t)) :=
  ⟨records_iff.mpr fun t _ => doneQ_next rom (trace (next rom) s inp t) (inp t), pulse_falls⟩

end Fft

/-! ### `axi4_lite_i2s` -/

namespace I2s

variable {wr : Nat}

/-- A word that is complete is not collected any more. -/
private theorem rxOverrunEv_next {q : I2s wr} {i : RegAccess (BitVec 3) I2sPins} (h : q.rxOverrunEv i.ext = true)
    (p : I2sPins) :
    (q.next i).rxOverrunEv p = false := by
  have hw : q.eng.wordDone q.ctrl i.ext = true := by
    cases hw : q.eng.wordDone q.ctrl i.ext with
    | true => rfl
    | false => simp [rxOverrunEv, rxPushReq, I2sEngine.rxPushReq, hw] at h
  simp only [I2sEngine.wordDone, Bool.and_eq_true, Bool.not_eq_true'] at hw
  obtain ⟨⟨⟨⟨hrise, hen⟩, hcol⟩, hws⟩, hlast⟩ := hw
  have hn : (q.next i).eng.collectingQ = false := by
    change (q.eng.next q.ctrl i.ext).collectingQ = false
    simp [I2sEngine.next, I2sEngine.capture, hrise, hen, hcol, hws, hlast]
  simp [rxOverrunEv, rxPushReq, I2sEngine.rxPushReq, I2sEngine.wordDone, hn]

/-- OVERRUN is set once for every word that finds the FIFO full. -/
private theorem flagOnce (s : I2s wr) (acc : Nat → RegAccess (BitVec 3) I2sPins) :
    Once (fun t => (trace next s acc t).irqOvrQ) (fun t => (trace next s acc t).rxOverrunEv (acc t).ext)
      (clears acc REG_IRQ 1) :=
  once_of_sticky (fun _ => rfl) fun t h => rxOverrunEv_next h (acc (t + 1)).ext

end I2s

/-! ### `axi4_lite_gpio` -/

namespace Gpio

variable {w : Nat} (q₀ : Gpio w) (acc : Nat → RegAccess (BitVec 3) (BitVec w)) (p : Nat)

/-- The TYPE field of pin `p` names an edge in cycle `t`. -/
def EdgeTyped (t : Nat) : Prop :=
  (trace next q₀ acc t).intTypeQ.getLsbD (2 * p) = true ∨ (trace next q₀ acc t).intTypeQ.getLsbD (2 * p + 1) = true

/-- An edge of the pin of the kind its TYPE field names. -/
def pinEdge (t : Nat) : Bool :=
  ((trace next q₀ acc t).intTypeQ.getLsbD (2 * p) && rises (fun t => (acc t).ext.getLsbD p) t) ||
    ((trace next q₀ acc t).intTypeQ.getLsbD (2 * p + 1) && rises (fun t => !(acc t).ext.getLsbD p) t)

/-- While pin `p` is edge-typed its bit of INT_STATUS records its edges. -/
def PinRecords : Prop :=
  Records (EdgeTyped q₀ acc p) (fun t => (trace next q₀ acc t).pendQ.getLsbD p) (pinEdge q₀ acc p)
    (fun t => (pendClr (acc t)).getLsbD p)

private theorem getLsbD_pendSet (q : Gpio w) (pins : BitVec w) {p : Nat} (hp : p < w) :
    (q.pendSet pins).getLsbD p = q.pendSetBit pins p := by
  rw [pendSet, BitVec.getLsbD_setWidth, BitVec.getLsbD_ofBoolListLE]
  simp [hp]

private theorem pinRecords {p : Nat} (hp : p < w) : PinRecords (reset : Gpio w) acc p := by
  refine records_iff.mpr fun t ht => ?_
  set q := trace next (reset : Gpio w) acc t with hq
  have hn : (trace next (reset : Gpio w) acc (t + 1)).pendQ =
      (q.pendQ &&& ~~~pendClr (acc t)) ||| q.pendSet (acc t).ext := rfl
  have hset : q.pendSetBit (acc t).ext p = pinEdge reset acc p t := by
    cases t with
    | zero =>
      -- every pin is a level pin after reset
      rcases ht with h | h <;> simp [reset] at h
    | succ t =>
      have hprev : q.gpioPrevQ = (acc t).ext := rfl
      rw [pendSetBit, pinEdge, ← hq, hprev, rises, rises]
      rcases ht with h | h <;> rw [← hq] at h <;> rw [h]
      · cases q.intTypeQ.getLsbD (2 * p + 1) <;> cases (acc t).ext.getLsbD p <;>
          cases (acc (t + 1)).ext.getLsbD p <;> rfl
      · cases q.intTypeQ.getLsbD (2 * p) <;> cases (acc t).ext.getLsbD p <;>
          cases (acc (t + 1)).ext.getLsbD p <;> rfl
  rw [hn, BitVec.getLsbD_or, BitVec.getLsbD_and, BitVec.getLsbD_not, getLsbD_pendSet _ _ hp, hset, Bool.or_comm]
  simp [hp]

end Gpio

/-! ### All five devices -/

section Devices

variable {wt wr wt' wr' ws m w : Nat} (txMem : BitVec wt → BitVec 8) (rxMem : BitVec wr → BitVec 8)
  (txMem' : BitVec wt' → Byte) (rxMem' : BitVec wr' → Byte) (rom : BitVec m → Word) (fft : Fft m) (i2s : I2s ws)
  (i2cAcc : Nat → RegAccess (BitVec 3) I2cPins) (spiAcc : Nat → RegAccess (BitVec 3) Bool)
  (fftAcc : Nat → RegAccess (BitVec 11) Unit) (i2sAcc : Nat → RegAccess (BitVec 3) I2sPins)
  (gpioAcc : Nat → RegAccess (BitVec 3) (BitVec w))

/-- Whatever the five devices meet, their flags record every event exactly once if and only if no write clears DONE of
the I2C engine while the engine is still in ST_DONE. -/
theorem events_once :
    ((I2c.reset txMem rxMem).FlagsOnce i2cAcc ∧ (Spi.reset txMem' rxMem').FlagsOnce spiAcc ∧
      Once (fun t => (trace (Fft.next rom) fft fftAcc t).seq.doneQ)
        (falls fun t => (trace (Fft.next rom) fft fftAcc t).busy)
        (fun t => (trace (Fft.next rom) fft fftAcc t).doneClear (fftAcc t)) ∧
      Once (fun t => (trace I2s.next i2s i2sAcc t).irqOvrQ)
        (fun t => (trace I2s.next i2s i2sAcc t).rxOverrunEv (i2sAcc t).ext) (clears i2sAcc I2s.REG_IRQ 1) ∧
      ∀ p < w, (Gpio.reset : Gpio w).PinRecords gpioAcc p) ↔
    ∀ t, ¬(I2c.reset txMem rxMem).LateClear i2cAcc t := by
  rw [← I2c.flagsOnce_iff]
  constructor
  · exact fun h => h.1
  · intro h
    exact ⟨h, Spi.flagsOnce txMem' rxMem' spiAcc, Fft.flagOnce rom fft fftAcc, I2s.flagOnce i2s i2sAcc,
      fun p hp => Gpio.pinRecords gpioAcc hp⟩

end Devices

/-- A START with nothing to write, and a handler that clears DONE twelve cycles after it is raised. -/
def earlyHandler (t : Nat) : RegAccess (BitVec 3) I2cPins :=
  ⟨match t with
    | 0 => some ⟨I2c.REG_CLKDIV, 15, 15⟩
    | 1 => some ⟨I2c.REG_CTRL, 9, 15⟩
    | 2 => some ⟨I2c.REG_CMD, 3, 15⟩
    | 145 => some ⟨I2c.REG_IRQ, 4, 15⟩
    | _ => none, none, ⟨true, true⟩⟩

/-- The command is done in cycle 132; the clear of cycle 145 leaves the flag up, with no other command. -/
theorem done_raised_twice : ¬ ∀ acc, I2c.board.FlagsOnce acc := by
  intro h
  have hdown := (h earlyHandler).done.records.quiet 145 146 (by omega) (.inl (by decide))
    (fun v h1 h2 => ⟨trivial, by
      obtain rfl : v = 145 := by omega
      decide +kernel⟩)
  exact absurd hdown (by decide +kernel)

end Yarv
