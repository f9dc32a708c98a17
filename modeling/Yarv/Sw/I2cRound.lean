import Yarv.Sw.I2cWrite

/-!
# One command through `i2c.h`

What becomes of a command between its CMD store and the idle engine, whatever the slave answers and whoever else is on
the bus: `Outcome` follows the engine, `Orderly` is what a step must not do.
-/

namespace Yarv.I2cDriver

open Driver Clocked I2c

/-! ### The engine -/

section Engine

variable {wt wr : Nat}

/-- No error is flagged. -/
structure Unflagged (q : I2c wt wr) : Prop where
  nack : q.irqNackQ = false
  arb : q.irqArbQ = false

/-- A cycle that ends a burst does not do so too early for a driver with `n` bytes to push: it runs dry only if `room`
is enough for them, it is refused only if there are none, and it loses the bus only if nothing is queued either. -/
structure Orderly (q : I2c wt wr) (i : RegAccess (BitVec 3) I2cPins) (n room : Nat) : Prop where
  dry : q.drains i = true → n ≤ room
  refused : q.txFlush i = true → n = 0
  lost : q.evArb i = true → n = 0 ∧ q.tx.empty = true

/-- The engine behind a CMD store, with `l` queued and `n` bytes to push; `rd` says that the command reads, and `ans`
is the cycle in which the bus answers the store. -/
inductive Outcome (room : Nat) (rd : Bool) (q : I2c wt wr) (ans : Bool) (n : Nat) (l : List (BitVec 8)) : Prop
  | waiting (hs : q.eng.stateQ = .idle) (hv : q.cmdValidQ = true) (hans : ans = true)
    (hc : q.cmdQ.start = true ∨ q.cmdQ.read = true) (hf : Unflagged q) (hrd : q.cmdQ.read = rd)
    (hr : rd = true → n = 0 ∧ l = [])
  | live (hs : q.eng.stateQ = .start ∨ q.eng.stateQ = .shift ∨ q.eng.stateQ = .ack) (hv : q.cmdValidQ = false)
    (hn : q.eng.byteNackQ = false) (hf : Unflagged q) (hrd : q.eng.readQ = rd) (hr : rd = true → n = 0 ∧ l = [])
  | refused (hs : q.eng.stateQ = .ack) (hp : q.eng.phaseQ = 3) (hv : q.cmdValidQ = false)
    (hr : q.eng.readQ = false) (hn : q.eng.byteNackQ = true) (hw : rd = false)
  | ended (hl : Leaving q) (hp : q.eng.stateQ = .idle → q.eng.phaseQ = 0) (hf : Unflagged q)
      (hroom : l.length + n ≤ room)
  | failed (hl : Leaving q) (hp : q.eng.stateQ = .idle → q.eng.phaseQ = 0)
    (hfree : q.eng.stateQ ≠ .stop → q.eng.busActiveQ = false) (hnil : l = []) (hn : n = 0) (hw : rd = false)

variable {q : I2c wt wr} {i : RegAccess (BitVec 3) I2cPins} {rd ans : Bool} {room n n' : Nat} {l : List (BitVec 8)}

/-- A NACK and a lost bit end a phase. -/
private theorem go_of_evNack (h : q.evNack i = true) : q.go i = true := by
  simp only [evNack, Bool.and_eq_true, beq_iff_eq] at h
  simp [go, stretchHold, h.1.1.1.2, h.1.1.2]

private theorem go_of_evArb (h : q.evArb i = true) : q.go i = true := by
  simp only [evArb, Bool.and_eq_true, beq_iff_eq] at h
  simp [go, stretchHold, h.1.1.1.1.2, h.1.1.1.2]

/-- The flags behind a cycle without a write to IRQ. -/
private theorem Unflagged.next (h : Unflagged q) (hirq : i.wrAt REG_IRQ = none) (hn : q.evNack i = false)
    (ha : q.evArb i = false) : Unflagged (q.next i) := by
  refine ⟨?_, ?_⟩
  · change i.sticky REG_IRQ 3 q.irqNackQ (q.evNack i) = false
    simp [RegAccess.sticky, hirq, hn, h.nack]
  · change i.sticky REG_IRQ 4 q.irqArbQ (q.evArb i) = false
    simp [RegAccess.sticky, hirq, ha, h.arb]

/-- An engine on its way out makes no event and does not touch the FIFO. -/
private theorem Leaving.events (h : Leaving q) (i : RegAccess (BitVec 3) I2cPins) :
    q.evNack i = false ∧ q.evArb i = false ∧ q.txFlush i = false := by
  rcases h.state with hs | hs | hs
  · simp [evNack, evArb, txFlush, hs]
  · simp [evNack, evArb, txFlush, hs]
  · simp [evNack, evArb, txFlush, hs]

/-- It is idle in phase 0, and it has released the bus behind its STOP. -/
private theorem Leaving.release (h : Leaving q) (hp : q.eng.stateQ = .idle → q.eng.phaseQ = 0) :
    ((q.engNext i).stateQ = .idle → (q.engNext i).phaseQ = 0) ∧
      ((q.eng.stateQ ≠ .stop → q.eng.busActiveQ = false) →
        (q.engNext i).stateQ ≠ .stop → (q.engNext i).busActiveQ = false) := by
  have hi : q.cmdConsumeIdle = false := by simp [cmdConsumeIdle, h.noCmd]
  rcases h.state with hs | hs | hs
  · cases hg : q.go i with
    | false =>
      rw [(stay (by rw [hs]; decide) hg).1]
      exact ⟨hp, id⟩
    | true =>
      rw [show q.engNext i = q.engStop by simp [engNext, hi, hg, hs], engStop]
      split
      · exact ⟨fun _ => rfl, fun _ _ => rfl⟩
      · exact ⟨fun hx => absurd (hs.symm.trans hx) (by decide), fun _ hx => absurd hs hx⟩
  · cases hg : q.go i with
    | false =>
      rw [(stay (by rw [hs]; decide) hg).1]
      exact ⟨hp, id⟩
    | true =>
      rw [show q.engNext i = q.engGoto .idle by simp [engNext, hi, hg, hs]]
      exact ⟨fun _ => rfl, fun hfree _ => hfree (by rw [hs]; decide)⟩
  · rw [(idle_stay hs hi).1]
    exact ⟨hp, id⟩

/-- The queue behind a cycle that neither loads nor flushes. -/
theorem queue_kept (h : q.tx.Holds l) (hl : q.txLoad i = false) (hf : q.txFlush i = false) :
    (q.next i).tx.Holds (l ++ (q.txPush i).toList) := by
  have hnext := (queue_step h i).2.2
  rwa [hf, hl, if_neg Bool.false_ne_true, if_neg Bool.false_ne_true] at hnext

/-- What a cycle of a command leaves, when `n'` of the `n` bytes are still to push behind it. -/
def Onwards (room : Nat) (rd : Bool) (q : I2c wt wr) (i : RegAccess (BitVec 3) I2cPins) (n' : Nat) : Prop :=
  ∃ l', (q.next i).tx.Holds l' ∧ ∀ ans, Outcome room rd (q.next i) ans n' l'

/-- The cycle of a command whose driver writes neither CMD nor IRQ. -/
structure Beside (q : I2c wt wr) (i : RegAccess (BitVec 3) I2cPins) (n n' : Nat) : Prop where
  cmd : cmdWrite i = none
  irq : i.wrAt REG_IRQ = none
  push : (q.txPush i).toList.length + n' = n

private theorem Beside.noCmd (hb : Beside q i n n') (hv : q.cmdValidQ = false) : (q.next i).cmdValidQ = false := by
  simp [I2c.next, hb.cmd, hv]

theorem Beside.no_push (hb : Beside q i n n') (hn : n = 0) : q.txPush i = none ∧ n' = 0 := by
  have h := hb.push
  cases hp : q.txPush i with
  | none =>
    rw [hp] at h
    exact ⟨rfl, by simpa [hn] using h⟩
  | some b =>
    rw [hp] at h
    simp at h
    omega

private theorem ended_step (h : q.tx.Holds l) (hl : Leaving q) (hp : q.eng.stateQ = .idle → q.eng.phaseQ = 0)
    (hf : Unflagged q) (hroom : l.length + n ≤ room) (hb : Beside q i n n') : Onwards room rd q i n' := by
  obtain ⟨hnack, harb, hflush⟩ := hl.events i
  refine ⟨_, queue_kept h (hl.no_load i) hflush, fun ans => ?_⟩
  refine .ended (hl.next hb.cmd).1 (hl.release hp).1 (hf.next hb.irq hnack harb) ?_
  have hpush := hb.push
  rw [List.length_append]
  omega

private theorem failed_step (h : q.tx.Holds []) (hl : Leaving q) (hp : q.eng.stateQ = .idle → q.eng.phaseQ = 0)
    (hfree : q.eng.stateQ ≠ .stop → q.eng.busActiveQ = false) (hn : n = 0) (hw : rd = false) (hb : Beside q i n n') :
    Onwards room rd q i n' := by
  obtain ⟨-, -, hflush⟩ := hl.events i
  obtain ⟨hpush, hn'⟩ := hb.no_push hn
  refine ⟨_, queue_kept h (hl.no_load i) hflush, fun ans => ?_⟩
  exact .failed (hl.next hb.cmd).1 (hl.release hp).1 ((hl.release hp).2 hfree) (by rw [hpush]; rfl) hn' hw

/-- The idle engine takes the command that waits. -/
private theorem waiting_step (h : q.tx.Holds l) (hen : q.enableQ = true) (hs : q.eng.stateQ = .idle)
    (hv : q.cmdValidQ = true) (hc : q.cmdQ.start = true ∨ q.cmdQ.read = true) (hf : Unflagged q)
    (hrd : q.cmdQ.read = rd) (hr : rd = true → n = 0 ∧ l = []) (hb : Beside q i n n') : Onwards room rd q i n' := by
  have hci : q.cmdConsumeIdle = true := by simp [cmdConsumeIdle, hs, hen, hv]
  have hload : q.txLoad i = false := by
    rcases hc with hc | hc
    · simp [txLoad, hci, hc]
    · simp [txLoad, hci, hc]
  have hflush : q.txFlush i = false := by simp [txFlush, hs]
  have hv' : (q.next i).cmdValidQ = false := by simp [I2c.next, hb.cmd, cmdConsume, hci]
  have he : (q.next i).eng = q.engConsume := by
    change q.engNext i = _
    simp [engNext, hci]
  refine ⟨_, queue_kept h hload hflush, fun ans => .live ?_ hv' ?_ ?_ ?_ fun hread => ?_⟩
  · rw [he, engConsume]
    rcases hc with hc | hc
    · simp [hc]
    · cases q.cmdQ.start with
      | true => simp
      | false => simp [hc]
  · rw [he, engConsume]
    dsimp only
    split
    · rfl
    · split
      · rfl
      · rfl
  · exact hf.next hb.irq (by simp [evNack, hs]) (by simp [evArb, hs])
  · rw [he, engConsume]
    dsimp only
    split
    · exact hrd
    · split
      · exact hrd
      · exact hrd
  · obtain ⟨hn, hl⟩ := hr hread
    obtain ⟨hp, hn'⟩ := hb.no_push hn
    exact ⟨hn', by rw [hl, hp]; rfl⟩

/-- A refused byte ends in the flush. -/
private theorem refused_step (h : q.tx.Holds l) (hs : q.eng.stateQ = .ack) (hp : q.eng.phaseQ = 3)
    (hv : q.cmdValidQ = false) (hr : q.eng.readQ = false) (hn : q.eng.byteNackQ = true) (hw : rd = false)
    (ho : Orderly q i n room) (hb : Beside q i n n') : Onwards room rd q i n' := by
  have hi : q.cmdConsumeIdle = false := by simp [cmdConsumeIdle, hv]
  have hload : q.txLoad i = false := by simp [txLoad, hi, hs, hn]
  have hv' := hb.noCmd hv
  have he : (q.next i).eng = q.engNext i := rfl
  cases hg : q.go i with
  | false =>
    have hstay := (stay (i := i) (by rw [hs]; decide) hg).1
    have hflush : q.txFlush i = false := by simp [txFlush, hg]
    refine ⟨_, queue_kept h hload hflush, fun ans => ?_⟩
    refine .refused ?_ ?_ hv' ?_ ?_ hw
    · rw [he, hstay, hs]
    · rw [he, hstay, hp]
    · rw [he, hstay, hr]
    · rw [he, hstay, hn]
  | true =>
    have hflush : q.txFlush i = true := by simp [txFlush, hg, hs, hp, hr, hn]
    obtain ⟨hpush, hn'⟩ := hb.no_push (ho.refused hflush)
    have hnext := (queue_step h i).2.2
    rw [hflush, if_pos rfl, hpush] at hnext
    have hstop : q.engNext i = q.engGoto .stop := by
      rw [show q.engNext i = q.engAck i by simp [engNext, hi, hg, hs], engAck]
      simp [hp, hr, hn]
    have hst : (q.next i).eng.stateQ = .stop := by rw [he, hstop]; rfl
    refine ⟨_, hnext, fun ans => .failed ⟨.inl hst, hv'⟩ (fun hx => ?_) (fun hx => absurd hst hx) rfl hn' hw⟩
    exact absurd (hst.symm.trans hx) (by decide)

/-- Between two phases of a live command. -/
private theorem live_stay (h : q.tx.Holds l)
    (hs : q.eng.stateQ = .start ∨ q.eng.stateQ = .shift ∨ q.eng.stateQ = .ack)
    (hv : q.cmdValidQ = false) (hn : q.eng.byteNackQ = false) (hf : Unflagged q)
    (hrd : q.eng.readQ = rd) (hr : rd = true → n = 0 ∧ l = []) (hg : q.go i = false) (hb : Beside q i n n') :
    Onwards room rd q i n' := by
  have hi : q.cmdConsumeIdle = false := by simp [cmdConsumeIdle, hv]
  have hbusy : q.eng.stateQ ≠ .idle := by
    rcases hs with hs | hs | hs <;> rw [hs] <;> decide
  have hstay : (q.next i).eng = q.eng := (stay hbusy hg).1
  have hnack : q.evNack i = false := by
    rw [← Bool.not_eq_true]
    intro hx
    rw [go_of_evNack hx] at hg
    cases hg
  have harb : q.evArb i = false := by
    rw [← Bool.not_eq_true]
    intro hx
    rw [go_of_evArb hx] at hg
    cases hg
  refine ⟨_, queue_kept h (by simp [txLoad, hi, hg]) (by simp [txFlush, hg]), fun ans => ?_⟩
  refine .live (by rw [hstay]; exact hs) (hb.noCmd hv) (by rw [hstay]; exact hn) (hf.next hb.irq hnack harb)
    (by rw [hstay]; exact hrd) fun hread => ?_
  obtain ⟨hn0, hl⟩ := hr hread
  obtain ⟨hp, hn'⟩ := hb.no_push hn0
  exact ⟨hn', by rw [hl, hp]; rfl⟩

/-- A live command goes on with the bytes it has. -/
private theorem live_keep (h : q.tx.Holds l) (hv : q.cmdValidQ = false) (hf : Unflagged q)
    (hrd : q.eng.readQ = rd) (hr : rd = true → n = 0 ∧ l = []) (hb : Beside q i n n') (hload : q.txLoad i = false)
    (hnack : q.evNack i = false) (harb : q.evArb i = false) (hn : q.eng.byteNackQ = false)
    (hst : (q.engNext i).stateQ = .start ∨ (q.engNext i).stateQ = .shift ∨ (q.engNext i).stateQ = .ack)
    (hn' : (q.engNext i).byteNackQ = false) (hread : (q.engNext i).readQ = q.eng.readQ) : Onwards room rd q i n' := by
  refine ⟨_, queue_kept h hload (by simp [txFlush, hn]), fun ans => ?_⟩
  refine .live hst (hb.noCmd hv) hn' (hf.next hb.irq hnack harb) (hread.trans hrd) fun hx => ?_
  obtain ⟨hn0, hl⟩ := hr hx
  obtain ⟨hp, hn0'⟩ := hb.no_push hn0
  exact ⟨hn0', by rw [hl, hp]; rfl⟩

/-- A live write loads its next byte. -/
private theorem live_load (h : q.tx.Holds l) (hv : q.cmdValidQ = false) (hf : Unflagged q) (hrd : q.eng.readQ = rd)
    (hread : q.eng.readQ = false)
    (hb : Beside q i n n') (hload : q.txLoad i = true) (hn : q.eng.byteNackQ = false) (hnack : q.evNack i = false)
    (harb : q.evArb i = false) (he : q.engNext i = q.engLoad) : Onwards room rd q i n' := by
  have hnext := (queue_step h i).2.2
  rw [show q.txFlush i = false by simp [txFlush, hn], hload, if_neg Bool.false_ne_true, if_pos rfl] at hnext
  have he' : (q.next i).eng = q.engLoad := he
  refine ⟨_, hnext, fun ans => ?_⟩
  refine .live (by rw [he']; exact .inr (.inl rfl)) (hb.noCmd hv) (by rw [he']; rfl) (hf.next hb.irq hnack harb)
    (by rw [he']; exact hrd) fun hx => ?_
  exact absurd (hread.symm.trans (hrd.trans hx)) Bool.false_ne_true

/-- A live command has nothing more to do. -/
private theorem live_leave (h : q.tx.Holds []) (hv : q.cmdValidQ = false) (hf : Unflagged q) (hroom : n ≤ room)
    (hb : Beside q i n n') (hload : q.txLoad i = false) (hn : q.eng.byteNackQ = false) (hnack : q.evNack i = false)
    (harb : q.evArb i = false) {st : I2cState} (hst : st = .stop ∨ st = .done) (he : q.engNext i = q.engGoto st) :
    Onwards room rd q i n' := by
  have he' : (q.next i).eng = q.engGoto st := he
  refine ⟨_, queue_kept h hload (by simp [txFlush, hn]), fun ans => ?_⟩
  refine .ended ⟨?_, hb.noCmd hv⟩ (fun _ => by rw [he']; rfl) (hf.next hb.irq hnack harb) ?_
  · rw [he']
    rcases hst with rfl | rfl
    · exact .inl rfl
    · exact .inr (.inl rfl)
  · have hpush := hb.push
    rw [List.nil_append]
    omega

private theorem start_go (h : q.tx.Holds l) (hs : q.eng.stateQ = .start) (hv : q.cmdValidQ = false)
    (hn : q.eng.byteNackQ = false) (hf : Unflagged q) (hrd : q.eng.readQ = rd)
    (hr : rd = true → n = 0 ∧ l = []) (hg : q.go i = true) (ho : Orderly q i n room) (hb : Beside q i n n') :
    Onwards room rd q i n' := by
  have hi : q.cmdConsumeIdle = false := by simp [cmdConsumeIdle, hv]
  have hnack : q.evNack i = false := by simp [evNack, hs]
  have harb : q.evArb i = false := by simp [evArb, hs]
  have he : q.engNext i = q.engStart := by simp [engNext, hi, hg, hs]
  by_cases hp : q.eng.phaseQ = 3#2
  · cases hread : q.eng.readQ with
    | true =>
      have h1 : q.engStart = { q.engGoto .shift with shiftQ := 0, bitCntQ := 7, byteNackQ := false } := by
        simp [engStart, hp, hread]
      rw [h1] at he
      refine live_keep h hv hf hrd hr hb (by simp [txLoad, hi, hread]) hnack harb hn ?_ ?_ ?_
      · rw [he]; exact .inr (.inl rfl)
      · rw [he]
      · rw [he]; rfl
    | false =>
      cases hemp : q.tx.empty with
      | false =>
        have h1 : q.engStart = q.engLoad := by simp [engStart, hp, hread, hemp]
        exact live_load h hv hf hrd hread hb (by simp [txLoad, hi, hg, hp, hread, hemp, hs]) hn hnack
          harb (he.trans h1)
      | true =>
        have h1 : q.engStart = q.engGoto .stop := by simp [engStart, hp, hread, hemp]
        obtain rfl := h.empty_iff.mp hemp
        exact live_leave h hv hf (ho.dry (by simp [drains, hg, hp, hread, hemp, hs])) hb
          (by simp [txLoad, hi, hemp]) hn
          hnack harb (.inl rfl) (he.trans h1)
  · have h1 : q.engStart = q.engPhase := by simp [engStart, hp]
    rw [h1] at he
    refine live_keep h hv hf hrd hr hb (by simp [txLoad, hi, hp]) hnack harb hn ?_ ?_ ?_
    · rw [he]; exact .inl hs
    · rw [he]; exact hn
    · rw [he]; rfl

private theorem shift_go (h : q.tx.Holds l) (hs : q.eng.stateQ = .shift) (hv : q.cmdValidQ = false)
    (hn : q.eng.byteNackQ = false) (hf : Unflagged q) (hrd : q.eng.readQ = rd)
    (hr : rd = true → n = 0 ∧ l = []) (hg : q.go i = true) (ho : Orderly q i n room) (hb : Beside q i n n') :
    Onwards room rd q i n' := by
  have hi : q.cmdConsumeIdle = false := by simp [cmdConsumeIdle, hv]
  have hload : q.txLoad i = false := by simp [txLoad, hi, hs]
  have hnack : q.evNack i = false := by simp [evNack, hs]
  have he : q.engNext i = q.engShift i := by simp [engNext, hi, hg, hs]
  cases harb : q.evArb i with
  | true =>
    -- the other master has the bus: nothing may be left behind
    obtain ⟨hn0, hemp⟩ := ho.lost harb
    obtain ⟨hpush, hn'⟩ := hb.no_push hn0
    obtain rfl := h.empty_iff.mp hemp
    have hkept := queue_kept h hload (by simp [txFlush, hs])
    rw [hpush] at hkept
    simp only [evArb, Bool.and_eq_true, beq_iff_eq, Bool.not_eq_true'] at harb
    obtain ⟨⟨⟨⟨⟨-, hp⟩, -⟩, hread⟩, hsda⟩, hlow⟩ := harb
    have h1 : (q.next i).eng.stateQ = .done ∧ (q.next i).eng.busActiveQ = false := by
      change (q.engNext i).stateQ = _ ∧ (q.engNext i).busActiveQ = _
      rw [he, engShift]
      simp [hp, hread, hsda, hlow]
    exact ⟨_, hkept, fun ans => .failed ⟨.inr (.inl h1.1), hb.noCmd hv⟩
      (fun hx => absurd (h1.1.symm.trans hx) (by decide)) (fun _ => h1.2) rfl hn' (hrd.symm.trans hread)⟩
  | false =>
    have h1 : ((q.engShift i).stateQ = .shift ∨ (q.engShift i).stateQ = .ack) ∧
        (q.engShift i).byteNackQ = q.eng.byteNackQ ∧ (q.engShift i).readQ = q.eng.readQ := by
      by_cases hp : q.eng.phaseQ = 2#2
      · have htick : q.phaseTick = true := by
          rw [go, Bool.and_eq_true] at hg
          exact hg.1
        cases hread : q.eng.readQ with
        | true => simp [engShift, hp, hread, hs]
        | false =>
          have hfree : (!q.eng.sdaOe && !i.ext.sda) = false := by simpa [evArb, hs, hp, htick, hread] using harb
          simp [engShift, hp, hread, hs, hfree]
      · by_cases hp3 : q.eng.phaseQ = 3#2
        · by_cases hc : q.eng.bitCntQ = 0#3
          · simp [engShift, hp3, hc, engGoto]
          · simp [engShift, hp3, hc, hs]
        · simp [engShift, hp, hp3, engPhase, hs]
    refine live_keep h hv hf hrd hr hb hload hnack harb hn ?_ ?_ ?_
    · rw [he]; exact .inr h1.1
    · rw [he]; exact h1.2.1.trans hn
    · rw [he]; exact h1.2.2

private theorem ack_go (h : q.tx.Holds l) (hs : q.eng.stateQ = .ack) (hv : q.cmdValidQ = false)
    (hn : q.eng.byteNackQ = false) (hf : Unflagged q) (hrd : q.eng.readQ = rd)
    (hr : rd = true → n = 0 ∧ l = []) (hg : q.go i = true) (ho : Orderly q i n room) (hb : Beside q i n n') :
    Onwards room rd q i n' := by
  have hi : q.cmdConsumeIdle = false := by simp [cmdConsumeIdle, hv]
  have harb : q.evArb i = false := by simp [evArb, hs]
  have he : q.engNext i = q.engAck i := by simp [engNext, hi, hg, hs]
  by_cases hp : q.eng.phaseQ = 2#2
  · have hload : q.txLoad i = false := by simp [txLoad, hi, hp]
    have htick : q.phaseTick = true := by
      rw [go, Bool.and_eq_true] at hg
      exact hg.1
    have h1 : q.engAck i = { q.engPhase with
        byteNackQ := if !q.eng.readQ && i.ext.sda then true else q.eng.byteNackQ } := by
      exact if_pos hp
    rw [h1] at he
    cases hsda : !q.eng.readQ && i.ext.sda with
    | true =>
      rw [Bool.and_eq_true, Bool.not_eq_true'] at hsda
      have he' : (q.next i).eng = { q.engPhase with byteNackQ := true } := by
        change q.engNext i = _
        rw [he]
        simp [hsda]
      refine ⟨_, queue_kept h hload (by simp [txFlush, hn]),
        fun ans => .refused ?_ ?_ (hb.noCmd hv) ?_ ?_ (hrd.symm.trans hsda.1)⟩
      · rw [he']; exact hs
      · rw [he']; simp [engPhase, hp]
      · rw [he']; exact hsda.1
      · rw [he']
    | false =>
      rw [hsda, if_neg Bool.false_ne_true] at he
      refine live_keep h hv hf hrd hr hb hload (by simp [evNack, hs, hp, htick, hsda]) harb hn ?_ ?_ ?_
      · rw [he]; exact .inr (.inr hs)
      · rw [he]; exact hn
      · rw [he]; rfl
  · have hnack : q.evNack i = false := by simp [evNack, hp]
    by_cases hp3 : q.eng.phaseQ = 3#2
    · cases hread : q.eng.readQ with
      | true =>
        have hca : q.cmdConsumeAck i = false := by simp [cmdConsumeAck, hv]
        obtain ⟨hn0, rfl⟩ := hr (hrd.symm.trans hread)
        have h1 : q.engAck i = q.engGoto (if q.eng.stopAfterQ || q.eng.nackCmdQ then .stop else .done) := by
          cases hst : q.eng.stopAfterQ || q.eng.nackCmdQ <;> simp [engAck, hp3, hread, hst, hca]
        refine live_leave h hv hf (by omega) hb (by simp [txLoad, hi, hread]) hn hnack harb ?_ (he.trans h1)
        cases q.eng.stopAfterQ || q.eng.nackCmdQ with
        | true => exact .inl rfl
        | false => exact .inr rfl
      | false =>
        cases hemp : q.tx.empty with
        | false =>
          have h1 : q.engAck i = q.engLoad := by simp [engAck, hp3, hread, hn, hemp]
          exact live_load h hv hf hrd hread hb (by simp [txLoad, hi, hg, hp3, hread, hemp, hs, hn]) hn hnack harb
            (he.trans h1)
        | true =>
          have h1 : q.engAck i = q.engGoto (if q.eng.stopAfterQ then .stop else .done) := by
            cases hst : q.eng.stopAfterQ <;> simp [engAck, hp3, hread, hn, hemp, hst]
          obtain rfl := h.empty_iff.mp hemp
          refine live_leave h hv hf (ho.dry (by simp [drains, hg, hp3, hread, hemp, hs, hn])) hb
            (by simp [txLoad, hi, hemp]) hn hnack harb ?_ (he.trans h1)
          cases q.eng.stopAfterQ with
          | true => exact .inl rfl
          | false => exact .inr rfl
    · have h1 : q.engAck i = q.engPhase := by simp [engAck, hp, hp3]
      rw [h1] at he
      refine live_keep h hv hf hrd hr hb (by simp [txLoad, hi, hp3]) hnack harb hn ?_ ?_ ?_
      · rw [he]; exact .inr (.inr hs)
      · rw [he]; exact hn
      · rw [he]; rfl

/-- One cycle of a command. -/
private theorem Outcome.next (ho : Outcome room rd q ans n l) (h : q.tx.Holds l) (hen : q.enableQ = true)
    (hord : Orderly q i n room) (hb : Beside q i n n') : Onwards room rd q i n' := by
  cases ho with
  | waiting hs hv hans hc hf hrd hr => exact waiting_step h hen hs hv hc hf hrd hr hb
  | refused hs hp hv hr hn hw => exact refused_step h hs hp hv hr hn hw hord hb
  | ended hl hp hf hroom => exact ended_step h hl hp hf hroom hb
  | failed hl hp hfree hnil hn hw =>
    subst hnil
    exact failed_step h hl hp hfree hn hw hb
  | live hs hv hn hf hrd hr =>
    cases hg : q.go i with
    | false => exact live_stay h hs hv hn hf hrd hr hg hb
    | true =>
      rcases hs with hs | hs | hs
      · exact start_go h hs hv hn hf hrd hr hg hord hb
      · exact shift_go h hs hv hn hf hrd hr hg hord hb
      · exact ack_go h hs hv hn hf hrd hr hg hord hb

end Engine

/-! ### The stages of a transaction -/

section Stages

variable {wt wr : Nat} {τ : Type} {p : I2cProg τ} {s : PortDev (I2c wt wr)} {inp : Nat → HostIn I2cPins} {t : Nat}
  {rd : Bool}

variable (p s inp) in
/-- The bytes the driver has to push before it looks at the outcome. -/
def left (t : Nat) : Nat := ((i2cProg p s inp t).stores REG_TXDATA).length

variable (p s inp) in
/-- No burst ends too early for its driver. -/
def AllOrderly : Prop :=
  ∀ t, Orderly (i2cAt p s inp t) (i2cIn p s inp t) (left p s inp t) (2 ^ wt)

variable (p s inp) in
/-- What the driver is promised: the processor comes to its next access again and again, and no SCL pulse is stretched
for ever. -/
structure Served : Prop where
  go : ∀ t, ∃ u, t ≤ u ∧ (inp u).go = true
  patient : Patient s.core (i2cIn p s inp)

theorem Served.fair (h : Served p s inp) : Fair (portTarget device) ⟨p, s⟩ inp := fair_of_go (fun _ _ => rfl) h.go

/-- A cycle without a store. -/
theorem beside_quiet (ha : ∀ r v, i2cAccess p s inp t ≠ some (.store r v)) (n : Nat) :
    Beside (i2cAt p s inp t) (i2cIn p s inp t) n n := by
  have hnone : ∀ r, storeOf r (i2cAccess p s inp t) = none := by
    intro r
    cases hx : storeOf r (i2cAccess p s inp t) with
    | none => rfl
    | some v => exact absurd (storeOf_eq_some.mp hx) (ha r v)
  refine ⟨?_, ?_, ?_⟩
  · rw [cmdWrite_i2cIn, hnone]
    rfl
  · rw [wrAt_i2cIn, hnone]
    rfl
  · rw [txPush_i2cIn, hnone]
    simp

theorem beside_idle (ha : i2cAccess p s inp t = none) (n : Nat) : Beside (i2cAt p s inp t) (i2cIn p s inp t) n n :=
  beside_quiet (by simp [ha]) n

theorem beside_load {r : BitVec 3} (ha : i2cAccess p s inp t = some (.load r)) (n : Nat) :
    Beside (i2cAt p s inp t) (i2cIn p s inp t) n n :=
  beside_quiet (by simp [ha]) n

theorem push_room {v : Word} (ha : i2cAccess p s inp t = some (.store REG_TXDATA v))
    (hroom : (i2cAt p s inp t).tx.full = false) :
    (i2cAt p s inp t).txPush (i2cIn p s inp t) = some (v.setWidth 8) := by
  rw [txPush_i2cIn, hroom, storeOf_eq_some.mpr ha]
  rfl

theorem beside_push {v : Word} (ha : i2cAccess p s inp t = some (.store REG_TXDATA v))
    (hroom : (i2cAt p s inp t).tx.full = false) (n : Nat) :
    Beside (i2cAt p s inp t) (i2cIn p s inp t) (n + 1) n := by
  have hother : ∀ r, r ≠ REG_TXDATA → storeOf r (i2cAccess p s inp t) = none := by
    intro r hr
    rw [ha, storeOf, if_neg (Ne.symm hr)]
  refine ⟨?_, ?_, ?_⟩
  · rw [cmdWrite_i2cIn, hother REG_CMD (by decide)]
    rfl
  · rw [wrAt_i2cIn, hother REG_IRQ (by decide)]
    rfl
  · rw [push_room ha hroom]
    simp
    omega

/-! #### The idle engine -/

/-- The idle engine takes a push, and nothing else happens. -/
theorem ready_next {q : I2c wt wr} {i : RegAccess (BitVec 3) I2cPins} {l : List (BitVec 8)} (h : Ready q l)
    (hc : cmdWrite i = none) : Ready (q.next i) (l ++ (q.txPush i).toList) ∧
      (q.next i).eng.busActiveQ = q.eng.busActiveQ := by
  have hl : Leaving q := ⟨.inr (.inr h.idle), h.noCmd⟩
  have hi : q.cmdConsumeIdle = false := by simp [cmdConsumeIdle, h.noCmd]
  have he : (q.next i).eng = q.eng := (idle_stay h.idle hi).1
  refine ⟨⟨?_, ?_, ?_, ?_⟩, by rw [he]⟩
  · rw [he]; exact h.idle
  · rw [he]; exact h.phase
  · exact (hl.next hc).1.noCmd
  · exact queue_kept h.tx (hl.no_load i) (hl.events i).2.2

private theorem Unflagged.idle_next {q : I2c wt wr} {i : RegAccess (BitVec 3) I2cPins} (h : Unflagged q)
    (hs : q.eng.stateQ = .idle) (hirq : i.wrAt REG_IRQ = none) : Unflagged (q.next i) :=
  h.next hirq (by simp [evNack, hs]) (by simp [evArb, hs])

/-- The write of `i2c_clear_err` clears both error flags of an idle engine. -/
private theorem unflagged_of_clear {q : I2c wt wr} {i : RegAccess (BitVec 3) I2cPins} (hs : q.eng.stateQ = .idle)
    (hirq : i.wrAt REG_IRQ = some ⟨REG_IRQ, I2C_IRQ_NACK ||| I2C_IRQ_ARBLOST, 0xF⟩) : Unflagged (q.next i) := by
  refine ⟨?_, ?_⟩
  · change i.sticky REG_IRQ 3 q.irqNackQ (q.evNack i) = false
    simp [RegAccess.sticky, hirq, evNack, hs, I2C_IRQ_NACK, I2C_IRQ_ARBLOST]
  · change i.sticky REG_IRQ 4 q.irqArbQ (q.evArb i) = false
    simp [RegAccess.sticky, hirq, evArb, hs, I2C_IRQ_NACK, I2C_IRQ_ARBLOST]

variable (p s inp) in
/-- The engine waits with `l` queued and no error flagged. -/
structure QuietAt (l : List (BitVec 8)) (t : Nat) : Prop where
  ready : Ready (i2cAt p s inp t) l
  flags : Unflagged (i2cAt p s inp t)

private theorem QuietAt.next {l : List (BitVec 8)} (h : QuietAt p s inp l t) {n n' : Nat}
    (hb : Beside (i2cAt p s inp t) (i2cIn p s inp t) n n') :
    QuietAt p s inp (l ++ ((i2cAt p s inp t).txPush (i2cIn p s inp t)).toList) (t + 1) :=
  ⟨(ready_next h.ready hb.cmd).1, h.flags.idle_next h.ready.idle hb.irq⟩

theorem QuietAt.stay {l : List (BitVec 8)} (h : QuietAt p s inp l t)
    (ha : ∀ r v, i2cAccess p s inp t ≠ some (.store r v)) : QuietAt p s inp l (t + 1) := by
  have hb := beside_quiet ha 0
  have hq := h.next hb
  rw [(hb.no_push rfl).1, Option.toList_none, List.append_nil] at hq
  exact hq

/-- `i2c_clear_err` on an engine that waits. -/
theorem stage_clear (hsv : Served p s inp) {l : List (BitVec 8)} {k : I2cProg τ}
    (hp : i2cProg p s inp t = .store REG_IRQ (I2C_IRQ_NACK ||| I2C_IRQ_ARBLOST) k)
    (h : Ready (i2cAt p s inp t) l) : ∃ u, t ≤ u ∧ i2cProg p s inp u = k ∧ QuietAt p s inp l u := by
  obtain ⟨c, a, hc, hready, hpc, hi⟩ := hsv.fair.access (A := fun x => Ready (i2cAt p s inp x) l) hp (by simp) h
    fun x _ _ hx hnone => by
      have hb := beside_idle hnone 0
      have hn := (ready_next hx hb.cmd).1
      rw [(hb.no_push rfl).1, Option.toList_none, List.append_nil] at hn
      exact hn
  obtain ⟨rfl, hp'⟩ := of_issued_store hi hpc
  have hcmd : cmdWrite (i2cIn p s inp c) = none := by
    rw [cmdWrite_i2cIn, show storeOf REG_CMD (i2cAccess p s inp c) = none by rw [i2cAccess, hi]; rfl]
    rfl
  have hpush : (i2cAt p s inp c).txPush (i2cIn p s inp c) = none := by
    rw [txPush_i2cIn, show storeOf REG_TXDATA (i2cAccess p s inp c) = none by rw [i2cAccess, hi]; rfl]
    simp
  have hirq : (i2cIn p s inp c).wrAt REG_IRQ = some ⟨REG_IRQ, I2C_IRQ_NACK ||| I2C_IRQ_ARBLOST, 0xF⟩ := by
    rw [wrAt_i2cIn, storeOf_eq_some.mpr hi]
    rfl
  have hn := (ready_next hready hcmd).1
  rw [hpush, Option.toList_none, List.append_nil] at hn
  exact ⟨c + 1, by omega, hp', hn, unflagged_of_clear hready.idle hirq⟩

/-- The pushes in front of a command. -/
theorem stage_queue (hsv : Served p s inp) {bs : List (BitVec 8)} {k : Unit → I2cProg τ} {l : List (BitVec 8)}
    (hp : i2cProg p s inp t = (pushAll bs).bind k) (h : QuietAt p s inp l t) (hroom : l.length + bs.length ≤ 2 ^ wt) :
    ∃ u, t ≤ u ∧ i2cProg p s inp u = k () ∧ QuietAt p s inp (l ++ bs) u := by
  induction bs generalizing t l with
  | nil => exact ⟨t, le_rfl, hp, by rwa [List.append_nil]⟩
  | cons b bs ih =>
    rw [pushAll_cons] at hp
    have hfree : ∀ x, QuietAt p s inp l x → (i2cAt p s inp x).tx.full = false := by
      intro x hx
      rw [← Bool.not_eq_true, hx.ready.tx.full_iff]
      simp at hroom
      omega
    -- there is room at once
    obtain ⟨w, hw, hA, hi, -, -, hp'⟩ := hsv.fair.poll (A := QuietAt p s inp l) hp h
      (fun x _ _ hx hnone => hx.stay (by simp [i2cAccess, hnone]))
      (fun x _ _ hx hload => hx.stay (by simp [i2cAccess, hload]))
      (fun hall => ⟨t, le_rfl, fun x hx => by
        change clear I2C_STATUS_TX_FULL (i2cAt p s inp x).status = true
        rw [clear_full, hfree x (hall x hx).2]
        rfl⟩)
    have hA' : QuietAt p s inp l (w + 1) := hA.stay (by simp [i2cAccess, hi])
    obtain ⟨c, a, hc, hq, hpc, hi'⟩ := hsv.fair.access (A := QuietAt p s inp l) hp' (by simp) hA'
      fun x _ _ hx hnone => hx.stay (by simp [i2cAccess, hnone])
    obtain ⟨rfl, hp''⟩ := of_issued_store hi' hpc
    have hn := hq.next (beside_push hi' (hfree c hq) 0)
    rw [push_room hi' (hfree c hq), Option.toList_some, BitVec.setWidth_setWidth_of_le b (by omega),
      BitVec.setWidth_eq]
      at hn
    obtain ⟨u, hu, hpu, hqu⟩ := ih hp'' hn (by simp at hroom ⊢; omega)
    exact ⟨u, by omega, hpu, by simpa using hqu⟩

variable (p s inp) in
/-- The engine is in a command with `n` bytes to push. -/
def InCmd (room : Nat) (rd : Bool) (n t : Nat) : Prop :=
  ∃ l, (i2cAt p s inp t).tx.Holds l ∧
    Outcome room rd (i2cAt p s inp t) (devAt (portTarget device) ⟨p, s⟩ inp t).busyQ n l

variable (p s inp) in
/-- The same behind the first cycle of the command. -/
def Running (room : Nat) (rd : Bool) (n t : Nat) : Prop :=
  ∃ l, (i2cAt p s inp t).tx.Holds l ∧ ∀ ans, Outcome room rd (i2cAt p s inp t) ans n l

private theorem Running.inCmd {room n : Nat} (h : Running p s inp room rd n t) : InCmd p s inp room rd n t := by
  obtain ⟨l, hl, ho⟩ := h
  exact ⟨l, hl, ho _⟩

private theorem InCmd.next {room n n' : Nat} (h : InCmd p s inp room rd n t) (hen : (i2cAt p s inp t).enableQ = true)
    (ho : Orderly (i2cAt p s inp t) (i2cIn p s inp t) n room)
    (hb : Beside (i2cAt p s inp t) (i2cIn p s inp t) n n') : Running p s inp room rd n' (t + 1) := by
  obtain ⟨l, hl, hout⟩ := h
  exact hout.next hl hen ho hb

private theorem Running.noCmd {room n : Nat} (h : Running p s inp room rd n t) :
    (i2cAt p s inp t).cmdValidQ = false := by
  obtain ⟨l, -, ho⟩ := h
  cases ho false with
  | waiting _ _ hans => exact absurd hans Bool.false_ne_true
  | live _ hv => exact hv
  | refused _ _ hv => exact hv
  | ended hl => exact hl.noCmd
  | failed hl => exact hl.noCmd

/-- The CMD store. -/
theorem stage_cmd (hsv : Served p s inp) (room : Nat) {v : Word} {k : I2cProg τ} {l : List (BitVec 8)}
    (hp : i2cProg p s inp t = .store REG_CMD v k) (h : QuietAt p s inp l t)
    (hc : v.getLsbD 0 = true ∨ v.getLsbD 2 = true)
    (hr : v.getLsbD 2 = true → (k.stores REG_TXDATA).length = 0 ∧ l = []) :
    ∃ u, t ≤ u ∧ i2cProg p s inp u = k ∧ InCmd p s inp room (v.getLsbD 2) (k.stores REG_TXDATA).length u := by
  obtain ⟨c, a, hc', hq, hpc, hi⟩ := hsv.fair.access (A := QuietAt p s inp l) hp (by simp) h
    fun x _ _ hx hnone => hx.stay (by simp [i2cAccess, hnone])
  obtain ⟨rfl, hp'⟩ := of_issued_store hi hpc
  have hpush : (i2cAt p s inp c).txPush (i2cIn p s inp c) = none := by
    rw [txPush_i2cIn, show storeOf REG_TXDATA (i2cAccess p s inp c) = none by rw [i2cAccess, hi]; rfl]
    simp
  have hirq : (i2cIn p s inp c).wrAt REG_IRQ = none := by
    rw [wrAt_i2cIn, show storeOf REG_IRQ (i2cAccess p s inp c) = none by rw [i2cAccess, hi]; rfl]
    rfl
  have hcmd : cmdWrite (i2cIn p s inp c) = some ⟨v.getLsbD 0, v.getLsbD 1, v.getLsbD 2, v.getLsbD 3⟩ := by
    rw [cmdWrite_i2cIn, storeOf_eq_some.mpr hi]
    rfl
  have hl : Leaving (i2cAt p s inp c) := ⟨.inr (.inr hq.ready.idle), hq.ready.noCmd⟩
  have hci : (i2cAt p s inp c).cmdConsumeIdle = false := by simp [cmdConsumeIdle, hq.ready.noCmd]
  have hkept := queue_kept hq.ready.tx (hl.no_load (i2cIn p s inp c)) (hl.events _).2.2
  rw [hpush, Option.toList_none, List.append_nil] at hkept
  have heng : (i2cAt p s inp (c + 1)).eng = (i2cAt p s inp c).eng := (idle_stay hq.ready.idle hci).1
  have hq' : (i2cAt p s inp (c + 1)).cmdQ = ⟨v.getLsbD 0, v.getLsbD 1, v.getLsbD 2, v.getLsbD 3⟩ := by
    change (cmdWrite (i2cIn p s inp c)).getD _ = _
    rw [hcmd]
    rfl
  refine ⟨c + 1, by omega, hp', l, hkept, .waiting ?_ ?_ ?_ ?_ (hq.flags.idle_next hq.ready.idle hirq) ?_ hr⟩
  · rw [heng]; exact hq.ready.idle
  · change ((cmdWrite (i2cIn p s inp c)).isSome || _) = true
    rw [hcmd]
    rfl
  · rw [devAt_succ, hi]
    rfl
  · rw [hq']; exact hc
  · rw [hq']

/-! #### The busy engine -/

variable (p s inp) in
/-- The driver stays in a busy-wait from cycle `t` on, with `n` bytes to push. -/
structure Spins (room : Nat) (rd : Bool) (n t : Nat) : Prop where
  access : ∀ x, t ≤ x → ∀ r v, i2cAccess p s inp x ≠ some (.store r v)
  running : ∀ x, t < x → Running p s inp room rd n x

/-- A driver that spins sees its engine come to rest. -/
private theorem Spins.exists_idle {room n : Nat} (h : Spins p s inp room rd n t) (hsv : Served p s inp)
    (hen : ∀ x, (i2cAt p s inp x).enableQ = true) :
    ∃ y, t < y ∧ ∀ x, y ≤ x → (i2cAt p s inp x).eng.stateQ = .idle := by
  have hen' : ∀ x, (engineAt s.core (i2cIn p s inp) x).enableQ = true := fun x => by
    rw [← i2cAt_eq]
    exact hen x
  obtain ⟨l, hl, -⟩ := h.running (t + 1) (by omega)
  rw [i2cAt_eq] at hl
  obtain ⟨y, hy, hidle⟩ := I2c.exists_idle hen' hsv.patient _ (fun x hx => by
      rw [← i2cAt_eq]
      exact ((beside_quiet (h.access x (by omega)) 0).no_push rfl).1) (fun x hx => by
      rw [← i2cAt_eq]
      simp [cmdConsumeAck, (h.running x (by omega)).noCmd]) hl (Nat.lt_succ_self _)
  rw [← i2cAt_eq] at hidle
  refine ⟨y, by omega, fun x hx => ?_⟩
  induction x, hx using Nat.le_induction with
  | base => simpa [busy] using hidle
  | succ x hx ih =>
    have hl : Leaving (i2cAt p s inp x) := ⟨.inr (.inr ih), (h.running x (by omega)).noCmd⟩
    exact (hl.next (beside_quiet (h.access x (by omega)) 0).cmd).2 ih

private theorem spins_of_poll {room n : Nat} {r : BitVec 3} {done : Word → Bool} {k : I2cProg τ}
    (hen : ∀ x, (i2cAt p s inp x).enableQ = true)
    (ho : ∀ x, t ≤ x → Orderly (i2cAt p s inp x) (i2cIn p s inp x) n room)
    (hall : ∀ x, t ≤ x → i2cProg p s inp x = .poll r done k ∧ InCmd p s inp room rd n x) :
    Spins p s inp room rd n t := by
  have hacc : ∀ x, t ≤ x → ∀ r v, i2cAccess p s inp x ≠ some (.store r v) := by
    intro x hx r' v hi
    exact absurd (of_issued_poll hi (hall x hx).1).1 (by simp)
  refine ⟨hacc, fun x hx => ?_⟩
  obtain ⟨y, rfl⟩ : ∃ y, x = y + 1 := ⟨x - 1, by omega⟩
  exact (hall y (by omega)).2.next (hen y) (ho y (by omega)) (beside_quiet (hacc y (by omega)) n)

/-- A driver that does not push leaves room where it is. -/
private theorem room_kept (hroom : (i2cAt p s inp t).tx.full = false) (hholds : ∃ l, (i2cAt p s inp t).tx.Holds l)
    (ha : ∀ r v, i2cAccess p s inp t ≠ some (.store r v)) : (i2cAt p s inp (t + 1)).tx.full = false := by
  obtain ⟨l, hl⟩ := hholds
  exact room_stays hl hroom ((beside_quiet ha 0).no_push rfl).1

private theorem InCmd.holds {room n : Nat} (h : InCmd p s inp room rd n t) : ∃ l, (i2cAt p s inp t).tx.Holds l := by
  obtain ⟨l, hl, -⟩ := h
  exact ⟨l, hl⟩

/-- The feeding loop comes to its end. -/
theorem stage_feed (hsv : Served p s inp) (hen : ∀ x, (i2cAt p s inp x).enableQ = true) (ho : AllOrderly p s inp)
    {bs : List (BitVec 8)} {k : I2cProg τ} (hp : i2cProg p s inp t = (pushAll bs).bind fun _ => k)
    (hk : k.stores REG_TXDATA = []) (h : InCmd p s inp (2 ^ wt) rd bs.length t) :
    ∃ u, t ≤ u ∧ i2cProg p s inp u = k ∧ InCmd p s inp (2 ^ wt) rd 0 u := by
  induction bs generalizing t with
  | nil => exact ⟨t, le_rfl, hp, h⟩
  | cons b bs ih =>
    rw [pushAll_cons] at hp
    have hleft : ∀ x, i2cProg p s inp x = .poll REG_STATUS (clear I2C_STATUS_TX_FULL)
        (.store REG_TXDATA (b.setWidth 32) ((pushAll bs).bind fun _ => k)) →
        Orderly (i2cAt p s inp x) (i2cIn p s inp x) (bs.length + 1) (2 ^ wt) := by
      intro x hx
      have hox := ho x
      rw [left, hx, Prog.stores, Prog.stores, if_pos rfl, stores_pushAll, hk] at hox
      simpa using hox
    obtain ⟨w, hw, hA, hi, hpw, hd, hp'⟩ := hsv.fair.poll (A := InCmd p s inp (2 ^ wt) rd (bs.length + 1)) hp h
      (fun x _ hx hA hnone => (hA.next (hen x) (hleft x hx) (beside_idle hnone _)).inCmd)
      (fun x _ hx hA hload => (hA.next (hen x) (hleft x hx) (beside_load hload _)).inCmd) (fun hall => by
        have hspin := spins_of_poll hen (fun x hx => hleft x (hall x hx).1) hall
        obtain ⟨y, hy, hidle⟩ := hspin.exists_idle hsv hen
        -- the engine at rest has left room for the bytes that are still to come
        have hroom : ∀ x, y ≤ x → (i2cAt p s inp x).tx.full = false := by
          intro x hx
          obtain ⟨l, hl, hout⟩ := hspin.running x (by omega)
          rw [← Bool.not_eq_true, hl.full_iff]
          cases hout false with
          | waiting _ _ hans => exact absurd hans Bool.false_ne_true
          | live hs => rcases hs with hs | hs | hs <;> exact absurd (hs.symm.trans (hidle x hx)) (by decide)
          | refused hs => exact absurd (hs.symm.trans (hidle x hx)) (by decide)
          | ended _ _ _ hroom => omega
          | failed _ _ _ hnil hn => omega
        refine ⟨y, by omega, fun x hx => ?_⟩
        change clear I2C_STATUS_TX_FULL (i2cAt p s inp x).status = true
        rw [clear_full, hroom x hx]
        rfl)
    have hroom : (i2cAt p s inp w).tx.full = false := by
      have hst : clear I2C_STATUS_TX_FULL (i2cAt p s inp w).status = true := hd
      rwa [clear_full, Bool.not_eq_true'] at hst
    have hleft' : ∀ x, i2cProg p s inp x = .store REG_TXDATA (b.setWidth 32) ((pushAll bs).bind fun _ => k) →
        Orderly (i2cAt p s inp x) (i2cIn p s inp x) (bs.length + 1) (2 ^ wt) := by
      intro x hx
      have hox := ho x
      rw [left, hx, Prog.stores, if_pos rfl, stores_pushAll, hk] at hox
      simpa using hox
    obtain ⟨c, a, hc, ⟨hA', hroom'⟩, hpc, hi'⟩ := hsv.fair.access
      (A := fun x => InCmd p s inp (2 ^ wt) rd (bs.length + 1) x ∧ (i2cAt p s inp x).tx.full = false) hp' (by simp)
      ⟨(hA.next (hen w) (hleft w hpw) (beside_load hi _)).inCmd,
        room_kept hroom hA.holds (by simp [i2cAccess, hi])⟩
      fun x _ hx hAx hnone => ⟨(hAx.1.next (hen x) (hleft' x hx) (beside_idle hnone _)).inCmd,
        room_kept hAx.2 hAx.1.holds (by simp [i2cAccess, hnone])⟩
    obtain ⟨rfl, hp''⟩ := of_issued_store hi' hpc
    have hn := (hA'.next (hen c) (hleft' c hpc) (beside_push hi' hroom' bs.length)).inCmd
    obtain ⟨u, hu, hpu, hcu⟩ := ih hp'' hn
    exact ⟨u, by omega, hpu, hcu⟩

/-- What a command leaves: the engine waits, with no error flagged or with nothing queued and the bus released. -/
structure Rested (room : Nat) (rd : Bool) (q : I2c wt wr) (l : List (BitVec 8)) : Prop where
  ready : Ready q l
  room : l.length ≤ room
  clean : Unflagged q ∨ rd = false ∧ l = [] ∧ q.eng.busActiveQ = false

/-- The wait for the idle engine comes to its end. -/
theorem stage_wait (hsv : Served p s inp) (hen : ∀ x, (i2cAt p s inp x).enableQ = true) {room : Nat}
    (ho : ∀ x, (i2cProg p s inp x).stores REG_TXDATA = [] → Orderly (i2cAt p s inp x) (i2cIn p s inp x) 0 room)
    {k : I2cProg τ} (hp : i2cProg p s inp t = .poll REG_STATUS (clear I2C_STATUS_BUSY) k)
    (hk : k.stores REG_TXDATA = []) (h : InCmd p s inp room rd 0 t) :
    ∃ u l, t ≤ u ∧ i2cProg p s inp u = k ∧ Rested room rd (i2cAt p s inp u) l := by
  have hleft : ∀ x, i2cProg p s inp x = .poll REG_STATUS (clear I2C_STATUS_BUSY) k →
      Orderly (i2cAt p s inp x) (i2cIn p s inp x) 0 room := by
    intro x hx
    exact ho x (by rw [hx, Prog.stores, hk])
  obtain ⟨w, hw, hA, hi, hpw, hd, hp'⟩ := hsv.fair.poll (A := InCmd p s inp room rd 0) hp h
    (fun x _ hx hA hnone => (hA.next (hen x) (hleft x hx) (beside_idle hnone _)).inCmd)
    (fun x _ hx hA hload => (hA.next (hen x) (hleft x hx) (beside_load hload _)).inCmd) (fun hall => by
      have hspin := spins_of_poll hen (fun x hx => hleft x (hall x hx).1) hall
      obtain ⟨y, hy, hidle⟩ := hspin.exists_idle hsv hen
      refine ⟨y, by omega, fun x hx => ?_⟩
      change clear I2C_STATUS_BUSY (i2cAt p s inp x).status = true
      rw [clear_busy, busy, hidle x hx]
      rfl)
  have hidle : (i2cAt p s inp w).eng.stateQ = .idle := by
    have hst : clear I2C_STATUS_BUSY (i2cAt p s inp w).status = true := hd
    rw [clear_busy, Bool.not_eq_true'] at hst
    simpa [busy] using hst
  have hfree := not_busy_of_ready (ready_of_issued hi)
  obtain ⟨l, hl, hout⟩ := hA
  have hquiet := beside_load hi 0
  have hnext : ∀ hready : Ready (i2cAt p s inp w) l, Ready (i2cAt p s inp (w + 1)) l := by
    intro hready
    have hn := (ready_next hready hquiet.cmd).1
    rwa [(hquiet.no_push rfl).1, Option.toList_none, List.append_nil] at hn
  refine ⟨w + 1, l, by omega, hp', ?_⟩
  cases hout with
  | waiting _ _ hans => exact absurd (hfree.symm.trans hans) Bool.false_ne_true
  | live hs => rcases hs with hs | hs | hs <;> exact absurd (hs.symm.trans hidle) (by decide)
  | refused hs => exact absurd (hs.symm.trans hidle) (by decide)
  | ended hlv hph hf hroom =>
    have hready : Ready (i2cAt p s inp w) l := ⟨hidle, hph hidle, hlv.noCmd, hl⟩
    exact ⟨hnext hready, hroom, .inl (hf.idle_next hidle hquiet.irq)⟩
  | failed hlv hph hbus hnil hn hw =>
    have hready : Ready (i2cAt p s inp w) l := ⟨hidle, hph hidle, hlv.noCmd, hl⟩
    refine ⟨hnext hready, by simp [hnil], .inr ⟨hw, hnil, ?_⟩⟩
    rw [i2cAt_succ, (ready_next hready hquiet.cmd).2]
    exact hbus (by rw [hidle]; decide)

theorem Rested.stay {room : Nat} {l : List (BitVec 8)} (h : Rested room rd (i2cAt p s inp t) l)
    (ha : ∀ r v, i2cAccess p s inp t ≠ some (.store r v)) : Rested room rd (i2cAt p s inp (t + 1)) l := by
  have hb := beside_quiet ha 0
  obtain ⟨hn, hbus⟩ := ready_next h.ready hb.cmd
  rw [(hb.no_push rfl).1, Option.toList_none, List.append_nil] at hn
  refine ⟨hn, h.room, ?_⟩
  rcases h.clean with hf | ⟨hw, hnil, hfree⟩
  · exact .inl (hf.idle_next h.ready.idle hb.irq)
  · exact .inr ⟨hw, hnil, hbus.trans hfree⟩

/-- A load from the engine at rest. -/
theorem stage_load (hsv : Served p s inp) {r : BitVec 3} {k : Word → I2cProg τ} {room : Nat} {l : List (BitVec 8)}
    (hp : i2cProg p s inp t = .load r k) (h : Rested room rd (i2cAt p s inp t) l) :
    ∃ c, t ≤ c ∧ i2cProg p s inp (c + 1) = k ((i2cAt p s inp c).read r) ∧ Rested room rd (i2cAt p s inp c) l ∧
      Rested room rd (i2cAt p s inp (c + 1)) l := by
  obtain ⟨c, a, hc, hA, hpc, hi⟩ := hsv.fair.access (A := fun x => Rested room rd (i2cAt p s inp x) l) hp (by simp) h
    fun x _ _ hx hnone => hx.stay (by simp [i2cAccess, hnone])
  obtain ⟨rfl, hp'⟩ := of_issued_load hi hpc
  exact ⟨c, hc, hp', hA, hA.stay (by simp [i2cAccess, hi])⟩

end Stages

end Yarv.I2cDriver
