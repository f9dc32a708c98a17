import Yarv.Lib.Sticky
import Yarv.Periph.I2cFacts

/-!
# Runs of the I2C engine

`command_completeness`: in a run whose cycles are all `Regular` the log of the engine is a row of complete commands,
one for each CMD write, and the one at work; each of them comes to its DONE if the slave stretches no pulse for ever
and the writes to TXDATA end.  The DONE flag records one end of each command if nobody clears it late, and a byte that
is read is queued in the RX FIFO.
-/

namespace Yarv.I2c

open I2cTok ShiftReg Clocked Sticky

variable {wt wr : Nat}

section Logs

variable (q₀ : I2c wt wr) (acc : Nat → RegAccess (BitVec 3) I2cPins)

/-- The engine before cycle `t`. -/
abbrev engineAt (t : Nat) : I2c wt wr := trace next q₀ acc t

/-- The tokens of the cycles before `t`. -/
def busLog : Nat → List I2cTok := companion (fun ts q i => ts ++ q.toks i) next [] q₀ acc

/-- The commands consumed before cycle `t`. -/
def consumed (t : Nat) : List I2cCmd :=
  logFrom (fun q i => if q.cmdConsume i then some q.cmdQ else none) next q₀ acc 0 t

/-- The commands written before cycle `t`. -/
def written (t : Nat) : List I2cCmd := logFrom (fun _ i => cmdWrite i) next q₀ acc 0 t

/-- The command that waits in the latch. -/
def waiting (q : I2c wt wr) : List I2cCmd := if q.cmdValidQ then [q.cmdQ] else []

/-- No SCL pulse is stretched for ever. -/
def Patient : Prop :=
  ∀ t, (∀ u, t ≤ u → (engineAt q₀ acc u).eng.phaseQ = 1) → ∃ u, t ≤ u ∧ ∀ v, u ≤ v → (acc v).ext.scl = true

/-- The pushes into the TX FIFO come to an end. -/
def WritesEnd : Prop := ∃ t, ∀ u, t ≤ u → (engineAt q₀ acc u).txPush (acc u) = none

/-- The log of an idle engine is a row of complete commands, and the lines are free if the last one had its STOP. -/
def AllDone (t : Nat) : Prop :=
  ∃ ops : List (I2cCmd × List I2cTok), (∀ p ∈ ops, Op p.1 p.2) ∧ busLog q₀ acc t = ops.flatMap (·.2) ∧
    consumed q₀ acc t = ops.map (·.1) ∧ ∀ p ∈ ops.getLast?, p.1.stop = true →
      (engineAt q₀ acc t).eng.sclOe = false ∧ (engineAt q₀ acc t).eng.sdaOe = false

/-- The log of a busy engine is a row of complete commands and the beginning of one more. -/
def InCommand (t : Nat) : Prop :=
  ∃ (ops : List (I2cCmd × List I2cTok)) (c : I2cCmd) (rest more : List I2cTok), (∀ p ∈ ops, Op p.1 p.2) ∧
    busLog q₀ acc t = ops.flatMap (·.2) ++ rest ∧ consumed q₀ acc t = ops.map (·.1) ++ [c] ∧
    more ≠ [] ∧ Op c (rest ++ more)

/-- The queue behind the TX FIFO: a load takes its head, a refused write drops it, and a write ends without being
refused only when it is empty. -/
def QueueStep (q : I2c wt wr) (i : RegAccess (BitVec 3) I2cPins) : Prop :=
  ∃ l, q.tx.Holds l ∧ (∀ b, load b ∈ q.toks i → l.head? = some b) ∧ (drained ∈ q.toks i → l = []) ∧
    (q.next i).tx.Holds ((if q.txFlush i then [] else if q.txLoad i then l.tail else l) ++ (q.txPush i).toList)

/-- The byte of a read. -/
def recvByte : I2cTok → Option (BitVec 8)
  | recv b => some b
  | _ => none

/-- The queue behind the RX FIFO: the byte of a read comes in while there is room, and sets RX_OVERRUN otherwise; a
read of RXDATA returns and takes the oldest byte. -/
def RxStep (q : I2c wt wr) (i : RegAccess (BitVec 3) I2cPins) : Prop :=
  ∃ l, q.rx.Holds l ∧ (∀ b ∈ l.head?, q.read REG_RXDATA = b.setWidth 32) ∧
    (q.next i).rx.Holds ((if i.rd = some REG_RXDATA then l.tail else l) ++
      if l.length < 2 ^ wr then (q.toks i).filterMap recvByte else []) ∧
    (l.length = 2 ^ wr → (q.toks i).filterMap recvByte ≠ [] → (q.next i).irqOvrQ = true)

/-- The DONE flag before each cycle. -/
abbrev doneFlag (t : Nat) : Bool := (engineAt q₀ acc t).irqDoneQ

/-- The cycles in which the engine comes to ST_DONE. -/
abbrev doneEvent : Nat → Bool := rises fun t => (engineAt q₀ acc t).evDone

/-- A clear of DONE while the engine is still in ST_DONE. -/
def LateClear (t : Nat) : Prop :=
  (engineAt q₀ acc t).evDone = true ∧ (engineAt q₀ acc (t + 1)).evDone = true ∧ clears acc REG_IRQ 2 (t + 1) = true

/-- What the commands of a run come to. -/
structure Complete : Prop where
  /-- Every CMD write is consumed once, in order, or waits. -/
  accepted : ∀ t, written q₀ acc t = consumed q₀ acc t ++ waiting (engineAt q₀ acc t)
  idle : ∀ t, (engineAt q₀ acc t).busy = false → AllDone q₀ acc t
  busy : ∀ t, (engineAt q₀ acc t).busy = true → InCommand q₀ acc t
  queue : ∀ t, QueueStep (engineAt q₀ acc t) (acc t)
  received : ∀ t, RxStep (engineAt q₀ acc t) (acc t)
  /-- Each command comes to ST_DONE once, the one at work perhaps not yet, -/
  ended : ∀ t, (List.range t).countP (doneEvent q₀ acc) ≤ (consumed q₀ acc t).length ∧
    (consumed q₀ acc t).length ≤ (List.range t).countP (doneEvent q₀ acc) + 1 ∧
    ((engineAt q₀ acc t).busy = false → (List.range t).countP (doneEvent q₀ acc) = (consumed q₀ acc t).length)
  /-- the DONE flag records this once, -/
  done : Once (doneFlag q₀ acc) (doneEvent q₀ acc) (clears acc REG_IRQ 2)
  /-- and is put up once for each command if it is down, or taken back, when the command comes to its end. -/
  raised : ∀ t, (engineAt q₀ acc t).busy = false →
    (∀ u < t, doneEvent q₀ acc u = true → doneFlag q₀ acc u = false ∨ clears acc REG_IRQ 2 u = true) →
    (List.range t).countP (raises (doneFlag q₀ acc) (clears acc REG_IRQ 2)) = (consumed q₀ acc t).length
  /-- Every command written comes to its DONE, and DONE is reported. -/
  completes : Patient q₀ acc → WritesEnd q₀ acc → ∀ t, ∃ u, t ≤ u ∧ (engineAt q₀ acc u).busy = false ∧
    written q₀ acc t <+: consumed q₀ acc u
  reported : ∀ t, I2cTok.done ∈ (engineAt q₀ acc t).toks (acc t) → (engineAt q₀ acc (t + 1)).irqDoneQ = true

end Logs

/-- The engine waits for its first command. -/
structure Ready (q : I2c wt wr) (l : List (BitVec 8)) : Prop where
  idle : q.eng.stateQ = .idle
  phase : q.eng.phaseQ = 0
  noCmd : q.cmdValidQ = false
  tx : q.tx.Holds l

variable {q : I2c wt wr} {i : RegAccess (BitVec 3) I2cPins} {c : I2cCmd} {ts : List I2cTok}

/-! ### The idle engine -/

theorem idle_stay (hs : q.eng.stateQ = .idle) (hc : q.cmdConsumeIdle = false) :
    q.engNext i = q.eng ∧ q.toks i = [] ∧ q.cmdConsume i = false := by
  have hg : q.go i = false := by simp [go, phaseTick, hs]
  have ha : q.cmdConsumeAck i = false := by simp [cmdConsumeAck, hs]
  have he : q.engNext i = q.eng := by simp [engNext, hc, hg]
  refine ⟨he, ?_, by simp [cmdConsume, hc, ha]⟩
  simp [toks, he, startCond, stopCond, pulse, drains, txLoad, cmdConsume, hc, ha, hg]

/-- The idle engine takes a command. -/
private theorem idle_consume (hs : q.eng.stateQ = .idle) (hp : q.eng.phaseQ = 0) (hc : q.cmdConsumeIdle = true)
    (hr : Regular q i) : (q.engNext i).stateQ ≠ .idle ∧ Doing q.cmdQ (q.engNext i) (q.toks i) := by
  have hg : q.go i = false := by simp [go, phaseTick, hs]
  have he : q.engNext i = q.engConsume := by simp [engNext, hc]
  have ht : (q.engConsume).sclOe = true → q.toks i = cmd q.cmdQ :: if q.txLoad i then [load q.tx.head] else [] := by
    intro hscl
    simp [toks, he, hscl, startCond, stopCond, pulse, drains, cmdConsume, hc, hg]
  rw [he]
  cases hst : q.cmdQ.start with
  | true =>
    have h1 : q.engConsume =
        { q.eng with
          readQ := q.cmdQ.read, nackCmdQ := q.cmdQ.nack, stopAfterQ := q.cmdQ.stop, byteNackQ := false,
          stateQ := .start, busActiveQ := true } := by simp [engConsume, hst]
    rw [ht (by simp [h1, I2cEngine.sclOe, hp]), h1]
    refine ⟨by simp, ?_⟩
    have := Doing.start (c := q.cmdQ) (e := { q.eng with
          readQ := q.cmdQ.read, nackCmdQ := q.cmdQ.nack, stopAfterQ := q.cmdQ.stop, byteNackQ := false,
          stateQ := .start, busActiveQ := true }) rfl ⟨rfl, rfl, rfl⟩ hst
    simpa [txLoad, hc, hst, hp] using this
  | false =>
    cases hread : q.cmdQ.read with
    | true =>
      have h1 : q.engConsume =
          { q.eng with
            readQ := q.cmdQ.read, nackCmdQ := q.cmdQ.nack, stopAfterQ := q.cmdQ.stop, byteNackQ := false, shiftQ := 0,
            bitCntQ := 7, stateQ := .shift } := by simp [engConsume, hst, hread]
      rw [ht (by simp [h1, I2cEngine.sclOe, hp]), h1]
      refine ⟨by simp, ?_⟩
      have := Doing.reading (c := q.cmdQ) (e := { q.eng with
            readQ := q.cmdQ.read, nackCmdQ := q.cmdQ.nack, stopAfterQ := q.cmdQ.stop, byteNackQ := false, shiftQ := 0,
            bitCntQ := 7, stateQ := .shift }) [] 0 rfl ⟨rfl, rfl, rfl⟩ hread (by decide) rfl
            (by simp [pulses, hp]) ⟨0, rfl⟩
      simpa [txLoad, hc, hst, hread, opening] using this
    | false =>
      have hemp : q.tx.empty = false := by
        have := hr.idle hc
        rw [hst, hread] at this
        simpa using this
      have h1 : q.engConsume =
          { q.eng with
            readQ := q.cmdQ.read, nackCmdQ := q.cmdQ.nack, stopAfterQ := q.cmdQ.stop, byteNackQ := false,
            shiftQ := q.tx.head, bitCntQ := 7, stateQ := .shift } := by simp [engConsume, hst, hread, hemp]
      rw [ht (by simp [h1, I2cEngine.sclOe, hp]), h1]
      refine ⟨by simp, ?_⟩
      have := Doing.writing (c := q.cmdQ) (e := { q.eng with
            readQ := q.cmdQ.read, nackCmdQ := q.cmdQ.nack, stopAfterQ := q.cmdQ.stop, byteNackQ := false,
            shiftQ := q.tx.head, bitCntQ := 7, stateQ := .shift }) [] q.tx.head 0 rfl ⟨rfl, rfl, rfl⟩
            hread (by decide)
            rfl rfl rfl
      simpa [txLoad, hc, hst, hread, hemp, opening, burst, pulses, hp] using this

/-! ### The log -/

/-- What the engine has done by some cycle. -/
inductive Legal (q : I2c wt wr) : List I2cTok → List I2cCmd → Prop
  | idle (ops : List (I2cCmd × List I2cTok)) (hops : ∀ p ∈ ops, Op p.1 p.2) (hs : q.eng.stateQ = .idle)
    (hp : q.eng.phaseQ = 0) (hfree : ∀ p ∈ ops.getLast?, p.1.stop = true → q.eng.busActiveQ = false) :
    Legal q (ops.flatMap (·.2)) (ops.map (·.1))
  | busy (ops : List (I2cCmd × List I2cTok)) (hops : ∀ p ∈ ops, Op p.1 p.2) (c : I2cCmd) (rest : List I2cTok)
    (hs : q.eng.stateQ ≠ .idle) (hd : Doing c q.eng rest) : Legal q (ops.flatMap (·.2) ++ rest) (ops.map (·.1) ++ [c])

private theorem Doing.busy {e : I2cEngine} (hd : Doing c e ts) : e.stateQ ≠ .idle := by
  cases hd with
  | start hs | writing _ _ _ hs | writeAck _ _ hs | reading _ _ hs | readAck _ hs | stop _ _ hs | done _ _ hs =>
    rw [hs]
    decide

/-- One clock edge of the engine and its log. -/
private theorem Legal.next {cs : List I2cCmd} (h : Legal q ts cs) (hr : Regular q i) :
    Legal (q.next i) (ts ++ q.toks i) (cs ++ (if q.cmdConsume i then some q.cmdQ else none).toList) := by
  have heng : (q.next i).eng = q.engNext i := rfl
  cases h with
  | idle ops hops hs hp hfree =>
    cases hc : q.cmdConsumeIdle with
    | false =>
      obtain ⟨he, ht, hcc⟩ := idle_stay (i := i) hs hc
      rw [ht, hcc, List.append_nil]
      simpa using Legal.idle (q := q.next i) ops hops (by rw [heng, he]; exact hs) (by rw [heng, he]; exact hp)
        (by rw [heng, he]; exact hfree)
    | true =>
      obtain ⟨h1, h2⟩ := idle_consume hs hp hc hr
      have hcc : q.cmdConsume i = true := by simp [cmdConsume, hc]
      rw [hcc]
      exact Legal.busy ops hops q.cmdQ _ h1 h2
  | busy ops hops c rest hs hd =>
    have hcc : q.cmdConsume i = false := by simp [cmdConsume, consumeIdle_of_busy hs, hr.ack]
    rw [hcc]
    rcases hd.next hs hr with h | ⟨h1, h2, h3, h4⟩
    · rw [List.append_assoc]
      simpa using Legal.busy (q := q.next i) ops hops c _ h.busy h
    · have := Legal.idle (q := q.next i) (ops ++ [(c, rest ++ q.toks i)]) (by
        intro p hp
        rcases List.mem_append.mp hp with hp | hp
        · exact hops p hp
        · rw [List.mem_singleton.mp hp]
          exact h3) h1 h2 (by
        intro p hp hst
        rw [List.getLast?_append] at hp
        simp at hp
        rw [← hp] at hst
        exact h4 hst)
      simpa using this

theorem legal_run {l : List (BitVec 8)} {acc : Nat → RegAccess (BitVec 3) I2cPins} (h0 : Ready q l)
    (hr : ∀ t, Regular (engineAt q acc t) (acc t)) (t : Nat) :
    Legal (engineAt q acc t) (busLog q acc t) (consumed q acc t) := by
  induction t with
  | zero => exact .idle [] (by simp) h0.idle h0.phase (by simp)
  | succ t ih =>
    have := ih.next (hr t)
    rw [consumed, logFrom_succ, Nat.zero_add]
    exact this

/-! ### Every beginning has an end -/

private theorem op_of_body {nack : Bool} {body : List I2cTok} (hb : Body c nack body) :
    Op c (opening c ++ body ++ closing c nack ++ [.done]) :=
  ⟨nack, body, hb, rfl⟩

private theorem exists_body (c : I2cCmd) : ∃ nack body, Body c nack body := by
  cases hr : c.read with
  | true => exact ⟨_, _, .read (List.replicate 8 false) rfl hr⟩
  | false => exact ⟨_, _, .drained [] hr⟩

private theorem Doing.completes {e : I2cEngine} (hd : Doing c e ts) : ∃ more, more ≠ [] ∧ Op c (ts ++ more) := by
  have hrest : ∀ {pre nack body}, Body c nack body → (∃ m, pre ++ m = opening c ++ body) →
      ∃ more, more ≠ [] ∧ Op c (pre ++ more) := by
    rintro pre nack body hb ⟨m, hm⟩
    refine ⟨m ++ closing c nack ++ [.done], by simp, ?_⟩
    have := op_of_body hb
    rwa [← hm, List.append_assoc, List.append_assoc, ← List.append_assoc m] at this
  cases hd with
  | start hs hl hc =>
    obtain ⟨nack, body, hb⟩ := exists_body c
    refine hrest hb ?_
    rw [opening, hc, if_pos rfl]
    split
    · exact ⟨body, by simp⟩
    · exact ⟨.start :: body, by simp⟩
  | writing bs b n hs hl hw hn hcnt hsh hnk =>
    refine hrest (.nacked bs b hw) ⟨((msbBits b).drop (pulses n e)).map out ++ [inp true], ?_⟩
    have hbits : ((msbBits b).take (pulses n e)).map out ++ ((msbBits b).drop (pulses n e)).map out =
        (msbBits b).map out := by rw [← List.map_append, List.take_append_drop]
    rw [byteToks, ← hbits]
    simp only [List.append_assoc, List.cons_append]
  | writeAck bs b hs hl hw hnk =>
    by_cases hp : e.phaseQ = 3
    · cases hb : e.byteNackQ with
      | true => exact hrest (.nacked bs b hw) ⟨[], by simp [hp, byteToks]⟩
      | false => exact hrest (.drained (bs ++ [b]) hw) ⟨[drained], by simp [hp, byteToks, burst]⟩
    · exact hrest (.nacked bs b hw) ⟨[inp true], by rw [if_neg hp]; simp [byteToks]⟩
  | reading rs n hs hl hr hn hcnt hlen hsh =>
    have hlen8 : rs.length ≤ 8 := by
      rw [hlen, pulses]
      split <;> omega
    refine hrest (.read (rs ++ List.replicate (8 - rs.length) false) (by simp; omega) hr)
      ⟨(List.replicate (8 - rs.length) false).map inp ++
        [recv (run 0 (rs ++ List.replicate (8 - rs.length) false)), out c.nack], ?_⟩
    simp
  | readAck rs hs hl hr h8 hsh =>
    refine hrest (.read rs h8 hr) ?_
    split
    · exact ⟨[], by simp⟩
    · exact ⟨[recv (run 0 rs), out c.nack], by simp⟩
  | stop nack body hs hb hc =>
    have hop := op_of_body hb
    rw [closing, hc, if_pos rfl] at hop
    split
    · exact ⟨[.done], by simp, hop⟩
    · exact ⟨[.stop, .done], by simp, by simpa using hop⟩
  | done nack body hs hb hc => exact ⟨[.done], by simp, op_of_body hb⟩

/-! ### The queue and the commands -/

theorem pulse_cases (q : I2c wt wr) (i : RegAccess (BitVec 3) I2cPins) {x : I2cTok} (hx : x ∈ q.pulse i) :
    (∃ v, x = inp v) ∨ (∃ v, x = out v) ∨ ∃ b, x = recv b := by
  rw [pulse] at hx
  split at hx
  · split at hx <;> try split at hx
    all_goals simp at hx
    · exact .inl ⟨_, hx⟩
    · exact .inr (.inl ⟨_, hx⟩)
    · rcases hx with hx | hx
      · exact .inr (.inr ⟨_, hx⟩)
      · exact .inr (.inl ⟨_, hx⟩)
    · exact .inl ⟨_, hx⟩
  · simp at hx

private theorem load_mem {b : BitVec 8} (h : load b ∈ q.toks i) : q.txLoad i = true ∧ q.tx.head = b := by
  have hp : load b ∉ q.pulse i := fun hx => by simpa using pulse_cases q i hx
  have h' : q.txLoad i = true ∧ b = q.tx.head := by simpa [toks, hp] using h
  exact ⟨h'.1, h'.2.symm⟩

theorem drained_mem (h : drained ∈ q.toks i) : q.drains i = true := by
  have hp : drained ∉ q.pulse i := fun hx => by simpa using pulse_cases q i hx
  simpa [toks, hp] using h

private theorem done_mem (h : I2cTok.done ∈ q.toks i) : q.eng.stateQ = .done := by
  simp only [toks, List.mem_append] at h
  rcases h with (((((h | h) | h) | h) | h) | h) | h
  · split at h <;> simp at h
  · split at h <;> simp at h
  · split at h <;> simp at h
  · simpa using pulse_cases q i h
  · split at h <;> simp at h
  · split at h <;> simp at h
  · split at h
    · rename_i hg
      rw [Bool.and_eq_true, beq_iff_eq] at hg
      exact hg.2
    · simp at h

theorem queue_step {l : List (BitVec 8)} (h : q.tx.Holds l) (i : RegAccess (BitVec 3) I2cPins) :
    (∀ b, load b ∈ q.toks i → l.head? = some b) ∧ (drained ∈ q.toks i → l = []) ∧
      (q.next i).tx.Holds
        ((if q.txFlush i then [] else if q.txLoad i then l.tail else l) ++ (q.txPush i).toList) := by
  have hload : q.txLoad i = true → 0 < l.length ∧ q.txFlush i = false := by
    intro hl
    have he : q.tx.empty = false ∧ q.txFlush i = false := by
      cases hc : q.cmdConsumeIdle with
      | true =>
        have hs : q.eng.stateQ = .idle := by
          simp only [cmdConsumeIdle, Bool.and_eq_true, beq_iff_eq] at hc
          exact hc.1.1
        simp only [txLoad, hc, if_true, Bool.and_eq_true, Bool.not_eq_true'] at hl
        exact ⟨hl.2, by simp [txFlush, hs]⟩
      | false =>
        simp [txLoad, hc] at hl
        refine ⟨hl.1.2, ?_⟩
        rcases hl.2 with h | h <;> simp [txFlush, h]
    refine ⟨?_, he.2⟩
    rw [← Bool.not_eq_true, h.empty_iff] at he
    exact List.length_pos_of_ne_nil he.1
  refine ⟨fun b hb => ?_, fun hd => ?_, ?_⟩
  · obtain ⟨h1, h2⟩ := load_mem hb
    rw [← h2, h.head (hload h1).1, List.head?_eq_getElem?]
    simp
  · have := drained_mem hd
    simp only [drains, Bool.and_eq_true] at this
    exact h.empty_iff.mp this.1.2
  · have hpush : ∀ f : Fifo wt (BitVec 8), ∀ l', f.Holds l' → (l' = l ∨ l' = []) →
        (q.txPush i).isSome = true → l'.length < 2 ^ wt ∨ q.txLoad i = true := by
      rintro f l' - hl' hp
      left
      have hf : q.tx.full = false := by
        cases hf : q.tx.full with
        | false => rfl
        | true => simp [txPush, hf] at hp
      rw [← Bool.not_eq_true, h.full_iff] at hf
      have := h.length_le
      rcases hl' with rfl | rfl
      · omega
      · exact Nat.two_pow_pos wt
    cases hfl : q.txFlush i with
    | true =>
      have hnl : q.txLoad i = false := by
        cases hl : q.txLoad i with
        | false => rfl
        | true => rw [(hload hl).2] at hfl; exact absurd hfl Bool.false_ne_true
      have hpop : q.txLoad i = true → 0 < ([] : List (BitVec 8)).length := by simp [hnl]
      have := (Fifo.holds_clear q.tx).step hpop (hpush _ _ (Fifo.holds_clear q.tx) (.inr rfl))
      simpa [next, hfl, hnl] using this
    | false =>
      have := h.step (fun hl => (hload hl).1) (hpush _ _ h (.inl rfl))
      simpa [next, hfl] using this

/-- The balance of the command latch. -/
private theorem waiting_step (hr : Regular q i) :
    waiting q ++ (cmdWrite i).toList =
      (if q.cmdConsume i then some q.cmdQ else none).toList ++ waiting (q.next i) := by
  have hcons : q.cmdConsume i = true → q.cmdValidQ = true := by
    intro hc
    simp only [cmdConsume, cmdConsumeIdle, cmdConsumeAck, Bool.or_eq_true, Bool.and_eq_true] at hc
    rcases hc with hc | hc
    · exact hc.2
    · exact hc.2
  have hw := hr.write
  cases hwr : cmdWrite i with
  | none => cases hc : q.cmdConsume i <;> cases hv : q.cmdValidQ <;> simp_all [waiting, next]
  | some c =>
    rw [hwr] at hw
    cases hc : q.cmdConsume i <;> cases hv : q.cmdValidQ <;> simp_all [waiting, next]

theorem accepted_run {l : List (BitVec 8)} {acc : Nat → RegAccess (BitVec 3) I2cPins} (h0 : Ready q l)
    (hr : ∀ t, Regular (engineAt q acc t) (acc t)) (t : Nat) :
    written q acc t = consumed q acc t ++ waiting (engineAt q acc t) :=
  logFrom_balance (by simp [waiting, h0.noCmd]) t fun k _ => waiting_step (hr k)

theorem tx_run {l : List (BitVec 8)} (h0 : Ready q l) (acc : Nat → RegAccess (BitVec 3) I2cPins) (t : Nat) :
    ∃ l', (engineAt q acc t).tx.Holds l' := by
  induction t with
  | zero => exact ⟨l, h0.tx⟩
  | succ t ih =>
    obtain ⟨l', hl⟩ := ih
    exact ⟨_, (queue_step hl (acc t)).2.2⟩

/-! ### The bytes that are read -/

private theorem pulse_recv (q : I2c wt wr) (i : RegAccess (BitVec 3) I2cPins) :
    (q.pulse i).filterMap recvByte = if q.rxByte i then [q.eng.shiftQ] else [] := by
  rw [pulse, rxByte]
  cases q.go i with
  | false => rfl
  | true =>
    cases q.eng.phaseQ == 2 with
    | false => simp
    | true => cases q.eng.stateQ <;> cases q.eng.readQ <;> rfl

/-- The only byte of a cycle is the one the engine has just read. -/
private theorem toks_recv (q : I2c wt wr) (i : RegAccess (BitVec 3) I2cPins) :
    (q.toks i).filterMap recvByte = if q.rxByte i then [q.eng.shiftQ] else [] := by
  have hnone : ∀ (p : Bool) {x : I2cTok}, recvByte x = none → (if p then [x] else []).filterMap recvByte = [] := by
    intro p x hx
    cases p with
    | false => rfl
    | true => simp [hx]
  simp only [toks, List.filterMap_append, pulse_recv, hnone _ (x := cmd _) rfl, hnone _ (x := .start) rfl,
    hnone _ (x := .stop) rfl, hnone _ (x := load _) rfl, hnone _ (x := drained) rfl, hnone _ (x := .done) rfl,
    List.nil_append, List.append_nil]

/-- A byte that finds no room. -/
theorem evOvr_eq (q : I2c wt wr) (i : RegAccess (BitVec 3) I2cPins) : q.evOvr = (q.rxByte i && q.rx.full) := by
  rw [evOvr, rxByte]
  cases hp : q.eng.phaseQ == 2 with
  | false => simp
  | true =>
    have hg : q.go i = q.phaseTick := by simp [go, stretchHold, eq_of_beq hp]
    rw [hg]
    cases q.phaseTick <;> simp

private theorem rx_step {l : List (BitVec 8)} (h : q.rx.Holds l) (i : RegAccess (BitVec 3) I2cPins) : RxStep q i := by
  have hroom : q.rx.full = false ↔ l.length < 2 ^ wr := by
    rw [← Bool.not_eq_true, h.full_iff]
    have := h.length_le
    omega
  have hpop : (if q.rxPop i then l.tail else l) = if i.rd = some REG_RXDATA then l.tail else l := by
    cases l with
    | nil => simp
    | cons b l =>
      have hne : q.rx.empty = false := by
        rw [← Bool.not_eq_true, h.empty_iff]
        exact List.cons_ne_nil _ _
      simp [rxPop, hne]
  have hpush : (q.rxPush i).toList = if l.length < 2 ^ wr then (q.toks i).filterMap recvByte else [] := by
    rw [toks_recv, rxPush]
    by_cases hl : l.length < 2 ^ wr
    · rw [if_pos hl, hroom.mpr hl, Bool.not_false, Bool.and_true]
      cases q.rxByte i <;> rfl
    · have hfull : q.rx.full = true := by
        rw [← Bool.not_eq_false, hroom]
        exact hl
      rw [if_neg hl, hfull, Bool.not_true, Bool.and_false]
      rfl
  refine ⟨l, h, fun b hb => ?_, ?_, fun hl hne => ?_⟩
  · cases l with
    | nil => exact absurd hb (by simp)
    | cons c l =>
      obtain rfl : c = b := by simpa using hb
      have hne : q.rx.empty = false := by
        rw [← Bool.not_eq_true, h.empty_iff]
        exact List.cons_ne_nil _ _
      have hhead : q.rx.head = c := h.head (Nat.succ_pos _)
      simp [read, REG_RXDATA, REG_STATUS, REG_CTRL, REG_CLKDIV, hne, hhead]
  · rw [← hpop, ← hpush]
    refine h.step (fun hp => ?_) fun hp => .inl ?_
    · rw [rxPop, Bool.and_eq_true, Bool.not_eq_true'] at hp
      refine List.length_pos_of_ne_nil fun hnil => ?_
      rw [h.empty_iff.mpr hnil] at hp
      exact absurd hp.2 (by decide)
    · rw [← hroom]
      cases hf : q.rx.full with
      | false => rfl
      | true => simp [rxPush, hf] at hp
  · have hbyte : q.rxByte i = true := by
      rw [toks_recv] at hne
      by_contra hx
      exact hne (if_neg hx)
    have hov : q.evOvr = true := by rw [evOvr_eq q i, hbyte, h.full_iff.mpr hl, Bool.and_self]
    change i.sticky REG_IRQ 5 q.irqOvrQ q.evOvr = true
    rw [RegAccess.sticky, hov, Bool.true_or]

private theorem rx_run {r : List (BitVec 8)} (h0 : q.rx.Holds r)
    (acc : Nat → RegAccess (BitVec 3) I2cPins) (t : Nat) :
    ∃ r', (engineAt q acc t).rx.Holds r' := by
  induction t with
  | zero => exact ⟨r, h0⟩
  | succ t ih =>
    obtain ⟨r', hr⟩ := ih
    obtain ⟨_, -, -, hnext, -⟩ := rx_step hr (acc t)
    exact ⟨_, hnext⟩

/-! ### One DONE for each command -/

/-- A command is at work and has not come to ST_DONE. -/
def working (q : I2c wt wr) : Bool := q.busy && !q.evDone

private theorem working_iff : working q = true ↔ q.eng.stateQ ≠ .idle ∧ q.eng.stateQ ≠ .done := by
  simp [working, busy, evDone]

/-- A command at work stays at work or comes to ST_DONE. -/
private theorem working_next (h : working q = true) (i : RegAccess (BitVec 3) I2cPins) :
    (q.engNext i).stateQ ≠ .idle := by
  obtain ⟨hb, hd⟩ := working_iff.mp h
  cases hg : q.go i with
  | false =>
    rw [(stay hb hg).1]
    exact hb
  | true =>
    have hi := consumeIdle_of_busy hb
    cases hs : q.eng.stateQ with
    | idle => exact absurd hs hb
    | done => exact absurd hs hd
    | start =>
      have he : q.engNext i = q.engStart := by simp [engNext, hi, hg, hs]
      rw [he, engStart]
      split_ifs <;> simp [engGoto, engLoad, engPhase, hs]
    | shift =>
      have he : q.engNext i = q.engShift i := by simp [engNext, hi, hg, hs]
      rw [he, engShift]
      split_ifs <;> simp [engGoto, engPhase, hs]
    | ack =>
      have he : q.engNext i = q.engAck i := by simp [engNext, hi, hg, hs]
      rw [he, engAck]
      split_ifs <;> simp [engGoto, engLoad, engPhase, hs]
    | stop =>
      have he : q.engNext i = q.engStop := by simp [engNext, hi, hg, hs]
      rw [he, engStop]
      split_ifs <;> simp [engGoto, engPhase, hs]

/-- A command that is taken sets the engine to work. -/
private theorem working_of_consume (hc : q.cmdConsumeIdle = true) (hr : Regular q i) : working (q.next i) = true := by
  have he : (q.next i).eng = q.engConsume := by
    change q.engNext i = _
    simp [engNext, hc]
  have hbit := hr.idle hc
  rw [working_iff, he, engConsume]
  cases hst : q.cmdQ.start with
  | true => simp
  | false =>
    have hgo : (q.cmdQ.read || !q.tx.empty) = true := by simpa [hst] using hbit
    simp [hgo]

/-- A command that is taken sets the engine to work, and its work ends in ST_DONE. -/
private theorem working_step (hr : Regular q i) :
    (if q.cmdConsume i then some q.cmdQ else none).toList.length + (working q).toNat =
      (working (q.next i)).toNat + ((q.next i).evDone && !q.evDone).toNat := by
  have heng : (q.next i).eng = q.engNext i := rfl
  cases hw : working q with
  | true =>
    obtain ⟨hb, hd⟩ := working_iff.mp hw
    have hcc : q.cmdConsume i = false := by simp [cmdConsume, consumeIdle_of_busy hb, hr.ack]
    have hdone : q.evDone = false := by simp [evDone, hd]
    have hbusy : (q.next i).busy = true := by simp [busy, heng, working_next hw i]
    rw [hcc, hdone, working, hbusy]
    cases (q.next i).evDone <;> rfl
  | false =>
    cases hs : q.eng.stateQ with
    | idle =>
      cases hc : q.cmdConsumeIdle with
      | false =>
        obtain ⟨he, -, hcc⟩ := idle_stay (i := i) hs hc
        simp [working, busy, evDone, heng, he, hs, hcc]
      | true =>
        have hcc : q.cmdConsume i = true := by simp [cmdConsume, hc]
        have hw' := working_of_consume hc hr
        have hdone : (q.next i).evDone = false := by simp [evDone, (working_iff.mp hw').2]
        rw [hcc, hw', hdone]
        rfl
    | done =>
      have hb : q.eng.stateQ ≠ .idle := by rw [hs]; decide
      have hi := consumeIdle_of_busy hb
      have hcc : q.cmdConsume i = false := by simp [cmdConsume, hi, hr.ack]
      have hdone : q.evDone = true := by simp [evDone, hs]
      cases hg : q.go i with
      | false => simp [working, busy, evDone, heng, (stay hb hg).1, hs, hcc]
      | true => simp [working, busy, evDone, heng, engNext, hi, hg, hs, engGoto, hcc]
    | start | shift | ack | stop =>
      have : working q = true := working_iff.mpr (by simp [hs])
      rw [hw] at this
      exact absurd this Bool.false_ne_true

/-- The commands taken are those that have come to ST_DONE and the one at work. -/
private theorem ended_run {l : List (BitVec 8)} {acc : Nat → RegAccess (BitVec 3) I2cPins} (h0 : Ready q l)
    (hr : ∀ t, Regular (engineAt q acc t) (acc t)) (t : Nat) :
    (consumed q acc t).length =
      (List.range (t + 1)).countP (doneEvent q acc) + (working (engineAt q acc t)).toNat := by
  induction t with
  | zero => simp [consumed, rises, working, busy, evDone, h0.idle]
  | succ t ih =>
    have hstep := working_step (hr t)
    have hrise : doneEvent q acc (t + 1) = (((engineAt q acc t).next (acc t)).evDone && !(engineAt q acc t).evDone) :=
      rfl
    have hlog : (consumed q acc (t + 1)).length = (consumed q acc t).length +
        (if (engineAt q acc t).cmdConsume (acc t) then some (engineAt q acc t).cmdQ else none).toList.length := by
      rw [consumed, logFrom_succ, Nat.zero_add, List.length_append]
      rfl
    have hcount : (if doneEvent q acc (t + 1) then 1 else 0) = (doneEvent q acc (t + 1)).toNat := by
      cases doneEvent q acc (t + 1) <;> rfl
    rw [hlog, List.range_succ, List.countP_append, List.countP_singleton, hcount, hrise, ih]
    change _ = _ + (working ((engineAt q acc t).next (acc t))).toNat
    omega

/-! ### The engine comes back to idle -/

/-- The phases left in a state, and the states left in a byte. -/
def stateRank (e : I2cEngine) : Nat :=
  match e.stateQ with
  | .idle => 0
  | .done => 1
  | .stop => 5 - e.phaseQ.toNat
  | .ack => 9 - e.phaseQ.toNat
  | .shift => 13 + 4 * e.bitCntQ.toNat - e.phaseQ.toNat
  | .start => 45 - e.phaseQ.toNat

/-- The end of a phase brings the engine forward, if only by a byte. -/
private theorem stateRank_lt (ha : q.cmdConsumeAck i = false) (hg : q.go i = true) :
    stateRank (q.engNext i) < (if q.txLoad i then 64 else 0) + stateRank q.eng := by
  have hb := state_of_go hg
  have hi := consumeIdle_of_busy hb
  have hcnt := q.eng.bitCntQ.isLt
  by_cases hd : q.eng.stateQ = .done
  · have he : q.engNext i = q.engGoto .idle := by simp [engNext, hi, hg, hd]
    simp [stateRank, he, hd, engGoto]
  have hlow : q.eng.phaseQ = 0 ∨ q.eng.phaseQ = 1 →
      stateRank (q.engNext i) < (if q.txLoad i then 64 else 0) + stateRank q.eng := by
    intro hp
    rw [(phase_low hg ha hd hp).1, stateRank, stateRank]
    cases hs : q.eng.stateQ with
    | idle => exact absurd hs hb
    | done => exact absurd hs hd
    | start | ack | stop | shift => rcases hp with hp | hp <;> simp [hp] <;> omega
  rcases phase_cases q.eng.phaseQ with hp | hp | hp | hp
  · exact hlow (.inl hp)
  · exact hlow (.inr hp)
  · cases hs : q.eng.stateQ with
    | idle => exact absurd hs hb
    | done => exact absurd hs hd
    | start => simp [stateRank, engNext, hi, hg, hs, engStart, engPhase, hp]
    | stop => simp [stateRank, engNext, hi, hg, hs, engStop, engPhase, hp]
    | ack => simp [stateRank, engNext, hi, hg, hs, engAck, engPhase, hp]
    | shift =>
      cases hread : q.eng.readQ with
      | false =>
        -- a lost bit ends the command, any other goes on
        cases hlost : !q.eng.sdaOe && !i.ext.sda with
        | true =>
          simp [stateRank, engNext, hi, hg, hs, engShift, hp, hread, hlost]
          omega
        | false =>
          simp [stateRank, engNext, hi, hg, hs, engShift, hp, hread, hlost]
          omega
      | true =>
        simp [stateRank, engNext, hi, hg, hs, engShift, hp, hread]
        omega
  · cases hs : q.eng.stateQ with
    | idle => exact absurd hs hb
    | done => exact absurd hs hd
    | start =>
      cases hread : q.eng.readQ <;> cases hemp : q.tx.empty <;>
        simp [stateRank, engNext, hi, hg, hs, engStart, engLoad, engGoto, hp, hread, hemp, txLoad]
    | stop => simp [stateRank, engNext, hi, hg, hs, engStop, engGoto, hp]
    | shift =>
      by_cases h0 : q.eng.bitCntQ = 0#3
      · simp [stateRank, engNext, hi, hg, hs, engShift, engGoto, hp, h0]
      · have hne : q.eng.bitCntQ.toNat ≠ 0 := fun h => h0 (BitVec.eq_of_toNat_eq h)
        have h1 : (q.eng.bitCntQ - 1#3).toNat = q.eng.bitCntQ.toNat - 1 := by
          rw [BitVec.toNat_sub]
          simp only [BitVec.toNat_ofNat]
          omega
        simp [stateRank, engNext, hi, hg, hs, engShift, hp, h0, h1]
        omega
    | ack =>
      cases hread : q.eng.readQ with
      | true =>
        cases hst : q.eng.stopAfterQ || q.eng.nackCmdQ <;>
          simp [stateRank, engNext, hi, hg, hs, engAck, engGoto, hp, hread, hst, ha]
      | false =>
        cases hn : q.eng.byteNackQ <;> cases hemp : q.tx.empty <;> cases hst : q.eng.stopAfterQ <;>
          simp [stateRank, engNext, hi, hg, hs, engAck, engLoad, engGoto, hp, hread, hn, hemp, hst, txLoad]

/-- The rank of the engine and its queue. -/
private theorem rank_lt {l : List (BitVec 8)} (h : q.tx.Holds l) (ha : q.cmdConsumeAck i = false) (hg : q.go i = true)
    (hpush : q.txPush i = none) :
    ∃ l', (q.next i).tx.Holds l' ∧ 64 * l'.length + stateRank (q.engNext i) < 64 * l.length + stateRank q.eng := by
  have hstep := (queue_step h i).2.2
  rw [hpush, Option.toList_none, List.append_nil] at hstep
  refine ⟨_, hstep, ?_⟩
  have hrank := stateRank_lt ha hg
  have hload : q.txLoad i = true → 0 < l.length := by
    intro hl
    have he : q.tx.empty = false := by
      simp [txLoad, consumeIdle_of_busy (state_of_go hg)] at hl
      exact hl.1.2
    rw [← Bool.not_eq_true, h.empty_iff] at he
    exact List.length_pos_of_ne_nil he
  cases hl : q.txLoad i with
  | false =>
    rw [hl] at hrank
    cases q.txFlush i <;> simp at hrank ⊢ <;> omega
  | true =>
    have := hload hl
    rw [hl] at hrank
    cases q.txFlush i <;> simp at hrank ⊢ <;> omega

section Progress

variable {acc : Nat → RegAccess (BitVec 3) I2cPins} {l : List (BitVec 8)}

/-- The divider of a busy engine runs out. -/
private theorem exists_tick (hen : ∀ t, (engineAt q acc t).enableQ = true) (n : Nat) :
    ∀ t, (∀ u, t ≤ u → (engineAt q acc u).eng.stateQ ≠ .idle) → (engineAt q acc t).divCntQ.toNat = n →
      ∃ u, t ≤ u ∧ (engineAt q acc u).phaseTick = true := by
  induction n with
  | zero =>
    intro t hb hn
    have h0 : (engineAt q acc t).divCntQ = 0#16 := BitVec.eq_of_toNat_eq hn
    exact ⟨t, le_rfl, by simp [phaseTick, hen t, hb t le_rfl, h0]⟩
  | succ n ih =>
    intro t hb hn
    cases ht : (engineAt q acc t).phaseTick with
    | true => exact ⟨t, le_rfl, ht⟩
    | false =>
      have h1 : (engineAt q acc (t + 1)).divCntQ = (engineAt q acc t).divCntQ - 1 := by
        rw [engineAt, trace_succ]
        simp [next, hen t, hb t le_rfl, ht]
      have h2 : (engineAt q acc (t + 1)).divCntQ.toNat = n := by
        have hone : (1 : BitVec 16).toNat = 1 := rfl
        have hwide := (engineAt q acc t).divCntQ.isLt
        rw [h1, BitVec.toNat_sub, hone]
        omega
      obtain ⟨u, hu, htick⟩ := ih (t + 1) (fun u hu => hb u (by omega)) h2
      exact ⟨u, by omega, htick⟩

/-- A busy engine comes to the end of its phase, with the same bytes queued. -/
private theorem exists_go (hen : ∀ t, (engineAt q acc t).enableQ = true) (hpat : Patient q acc) {t : Nat}
    (hquiet : ∀ u, t ≤ u → (engineAt q acc u).txPush (acc u) = none)
    (hb : (engineAt q acc t).eng.stateQ ≠ .idle) (hl : (engineAt q acc t).tx.Holds l) :
    ∃ u, t ≤ u ∧ (engineAt q acc u).eng = (engineAt q acc t).eng ∧ (engineAt q acc u).tx.Holds l ∧
      (engineAt q acc u).go (acc u) = true := by
  have hexit := exists_exit (t := t)
    (P := fun u => t ≤ u ∧ (engineAt q acc u).eng = (engineAt q acc t).eng ∧ (engineAt q acc u).tx.Holds l)
    (E := fun u => (engineAt q acc u).go (acc u) = true) ⟨le_rfl, rfl, hl⟩ (by
      rintro u ⟨hu, he, hl⟩ hg
      rw [Bool.not_eq_true] at hg
      have hbu : (engineAt q acc u).eng.stateQ ≠ .idle := by rw [he]; exact hb
      have h1 := (queue_step hl (acc u)).2.2
      have hi := consumeIdle_of_busy hbu
      rw [hquiet u hu] at h1
      simp only [txFlush, txLoad, hi, hg] at h1
      refine ⟨by omega, ?_, ?_⟩
      · rw [engineAt, trace_succ]
        exact (stay hbu hg).1.trans he
      · rw [engineAt, trace_succ]
        simpa using h1) (by
      intro hall
      have hbusy : ∀ u, t ≤ u → (engineAt q acc u).eng.stateQ ≠ .idle := fun u hu => by
        rw [(hall u hu).2.1]
        exact hb
      -- only a stretched pulse holds a tick back, and it is not stretched for ever
      have hfree : ∃ u, t ≤ u ∧ ∀ v, u ≤ v → (engineAt q acc v).stretchHold (acc v) = false := by
        by_cases hp : (engineAt q acc t).eng.phaseQ = 1
        · obtain ⟨u, hu, hscl⟩ := hpat t fun u hu => by rw [(hall u hu).2.1, hp]
          exact ⟨u, hu, fun v hv => by simp [stretchHold, hscl v hv]⟩
        · refine ⟨t, le_rfl, fun v hv => ?_⟩
          have hp' : (engineAt q acc v).eng.phaseQ ≠ 1#2 := by rw [(hall v hv).2.1]; exact hp
          simp [stretchHold, hp']
      obtain ⟨u, hu, hfree⟩ := hfree
      obtain ⟨v, hv, htick⟩ := exists_tick hen _ u (fun w hw => hbusy w (by omega)) rfl
      exact ⟨v, by omega, by simp [go, htick, hfree v hv]⟩)
  obtain ⟨u, -, ⟨hu, he, hl⟩, hg⟩ := hexit
  exact ⟨u, hu, he, hl, hg⟩

theorem exists_idle (hen : ∀ t, (engineAt q acc t).enableQ = true) (hpat : Patient q acc) (n : Nat) :
    ∀ {t : Nat} {l : List (BitVec 8)}, (∀ u, t ≤ u → (engineAt q acc u).txPush (acc u) = none) →
      (∀ u, t ≤ u → (engineAt q acc u).cmdConsumeAck (acc u) = false) → (engineAt q acc t).tx.Holds l →
        64 * l.length + stateRank (engineAt q acc t).eng < n →
      ∃ u, t ≤ u ∧ (engineAt q acc u).busy = false := by
  induction n with
  | zero => intro t l _ _ _ hn; omega
  | succ n ih =>
    intro t l hquiet hack hl hn
    by_cases hb : (engineAt q acc t).eng.stateQ = .idle
    · exact ⟨t, le_rfl, by simp [busy, hb]⟩
    · obtain ⟨u, hu, he, hlu, hg⟩ := exists_go hen hpat hquiet hb hl
      obtain ⟨l', hl', hlt⟩ := rank_lt hlu (hack u hu) hg (hquiet u hu)
      have hnext : (engineAt q acc (u + 1)) = (engineAt q acc u).next (acc u) := trace_succ u
      rw [he] at hlt
      obtain ⟨v, hv, hidle⟩ := ih (t := u + 1) (l := l') (fun w hw => hquiet w (by omega))
        (fun w hw => hack w (by omega)) (by rw [hnext]; exact hl')
        (by rw [hnext]; change _ + stateRank ((engineAt q acc u).engNext (acc u)) < n; omega)
      exact ⟨v, by omega, hidle⟩

private theorem consumed_mono {t u : Nat} (h : t ≤ u) : consumed q acc t <+: consumed q acc u := logFrom_prefix 0 h

end Progress

/-- In a run that keeps the rules every CMD write becomes one complete command. -/
private theorem complete_of_regular {l r : List (BitVec 8)} {acc : Nat → RegAccess (BitVec 3) I2cPins}
    (h0 : Ready q l) (hrx : q.rx.Holds r) (hr : ∀ t, Regular (engineAt q acc t) (acc t))
    (hlate : ∀ t, ¬LateClear q acc t) : Complete q acc := by
  have hended : ∀ t, (engineAt q acc t).busy = false →
      (List.range t).countP (doneEvent q acc) = (consumed q acc t).length := by
    intro t hb
    have hrun := ended_run h0 hr t
    have hs : (engineAt q acc t).eng.stateQ = .idle := by simpa [busy] using hb
    have hrise : doneEvent q acc t = false := by
      rw [← Bool.not_eq_true]
      intro h
      have := level_of_rises h
      rw [evDone, hs] at this
      exact absurd this (by decide)
    rw [List.range_succ, List.countP_append, List.countP_singleton, hrise] at hrun
    simpa [working, hb] using hrun.symm
  have hdone : Records (fun _ => True) (doneFlag q acc) (doneEvent q acc) (clears acc REG_IRQ 2) :=
    (records_level_iff fun _ => rfl).mpr hlate
  refine ⟨accepted_run h0 hr, fun t hb => ?_, fun t hb => ?_, fun t => ?_, fun t => ?_, fun t => ⟨?_, ?_, hended t⟩,
    ⟨hdone, pulse_rises⟩, fun t hb hdown => (hdone.count_raises hdown).trans (hended t hb), fun hpat hend t => ?_,
    fun t hd => ?_⟩
  · have hlegal := legal_run h0 hr t
    have hs : (engineAt q acc t).eng.stateQ = .idle := by simpa [busy] using hb
    generalize hlog : busLog q acc t = log, hcs : consumed q acc t = cs at hlegal
    cases hlegal with
    | idle ops hops hs hp hfree =>
      refine ⟨ops, hops, hlog, hcs, fun p hp hst => ?_⟩
      simp [I2cEngine.sclOe, I2cEngine.sdaOe, hs, hfree p hp hst]
    | busy _ _ _ _ hs' => exact absurd hs hs'
  · have hlegal := legal_run h0 hr t
    have hs : (engineAt q acc t).eng.stateQ ≠ .idle := by simpa [busy] using hb
    generalize hlog : busLog q acc t = log, hcs : consumed q acc t = cs at hlegal
    cases hlegal with
    | idle _ _ hs' => exact absurd hs' hs
    | busy ops hops c rest hs' hd =>
      obtain ⟨more, hne, hop⟩ := hd.completes
      exact ⟨ops, c, rest, more, hops, hlog, hcs, hne, hop⟩
  · obtain ⟨l', hl⟩ := tx_run h0 acc t
    exact ⟨l', hl, queue_step hl (acc t)⟩
  · obtain ⟨r', hr'⟩ := rx_run hrx acc t
    exact rx_step hr' (acc t)
  · have hrun := ended_run h0 hr t
    rw [List.range_succ, List.countP_append] at hrun
    omega
  · have hrun := ended_run h0 hr t
    rw [List.range_succ, List.countP_append, List.countP_singleton] at hrun
    -- a command that has just come to ST_DONE is not at work
    have hone : (if doneEvent q acc t then 1 else 0) + (working (engineAt q acc t)).toNat ≤ 1 := by
      cases hd : doneEvent q acc t with
      | false => cases working (engineAt q acc t) <;> decide
      | true => simp [working, level_of_rises hd]
    omega
  · obtain ⟨T, hT⟩ := hend
    have hidle : ∀ t, T ≤ t → ∃ u, t ≤ u ∧ (engineAt q acc u).busy = false := by
      intro t ht
      obtain ⟨l', hl⟩ := tx_run h0 acc t
      exact exists_idle (fun u => (hr u).enabled) hpat _ (fun u hu => hT u (by omega)) (fun u _ => (hr u).ack) hl
        (Nat.lt_succ_self _)
    obtain ⟨u, hu, hui⟩ := hidle (max t T) (by omega)
    have hmono : written q acc t <+: written q acc u := logFrom_prefix 0 (by omega)
    have hacc := accepted_run h0 hr u
    cases hv : (engineAt q acc u).cmdValidQ with
    | false =>
      rw [waiting, hv] at hacc
      simp only [Bool.false_eq_true, if_false, List.append_nil] at hacc
      exact ⟨u, by omega, hui, hacc ▸ hmono⟩
    | true =>
      -- the idle engine takes the waiting command in this cycle
      have hs : (engineAt q acc u).eng.stateQ = .idle := by simpa [busy] using hui
      have hcc : (engineAt q acc u).cmdConsume (acc u) = true := by
        simp [cmdConsume, cmdConsumeIdle, hs, (hr u).enabled, hv]
      have hnext : consumed q acc (u + 1) = written q acc u := by
        rw [hacc, waiting, hv, consumed, logFrom_succ, Nat.zero_add]
        simp only [hcc]
        rfl
      obtain ⟨v, hvu, hvi⟩ := hidle (u + 1) (by omega)
      exact ⟨v, by omega, hvi, hmono.trans (hnext ▸ consumed_mono hvu)⟩
  · rw [engineAt, trace_succ]
    simp [next, RegAccess.sticky, evDone, done_mem hd]

/-- The same for the slave on its bus. -/
theorem command_completeness (s : RegSlave (BitVec 3) (I2c wt wr)) (inp : Nat → SlaveIn I2cPins)
    (l r : List (BitVec 8)) (h0 : Ready s.core l) (hrx : s.core.rx.Holds r)
    (hr : ∀ t, Regular (trace (RegSlave.next device) s inp t).core (s.accesses device inp t))
    (hlate : ∀ t, ¬LateClear s.core (s.accesses device inp) t) : Complete s.core (s.accesses device inp) := by
  refine complete_of_regular h0 hrx (fun t => ?_) hlate
  have := hr t
  rwa [RegSlave.core_trace] at this

/-! ### Two runs of a small engine

The engine is enabled at `CLKDIV = 0` and nothing is queued. -/

def smallStart : RegSlave (BitVec 3) (I2c 1 1) where
  port := ⟨false, false, 0, 0, 0, false, false, 0⟩
  core :=
    { enableQ := true, ieTxQ := false, ieRxQ := false, ieDoneQ := false, ieNackQ := false, ieArbQ := false,
      ieOvrQ := false, clkdivQ := 0, irqTxQ := false, irqRxQ := false, irqDoneQ := false, irqNackQ := false,
      irqArbQ := false, irqOvrQ := false, txEmptyDQ := true, rxNeDQ := false, tx := Fifo.reset fun _ => 0,
      rx := Fifo.reset fun _ => 0, cmdQ := ⟨false, false, false, false⟩, cmdValidQ := false, divCntQ := 0,
      eng := ⟨.idle, 0, 0, 0, false, false, false, false, false⟩ }

/-- A master that makes these writes, address and data, and a slave that puts these levels on SDA. -/
def scriptIn (writes : Nat → Option (Word × Word)) (sda : Nat → Bool) (t : Nat) : SlaveIn I2cPins where
  m :=
    { awaddr := ((writes t).map Prod.fst).getD 0, awvalid := (writes t).isSome
      wdata := ((writes t).map Prod.snd).getD 0, wstrb := 1, wvalid := (writes t).isSome, bready := true, araddr := 0
      arvalid := false, rready := true }
  ext := ⟨true, sda t⟩

private theorem small_ready : Ready smallStart.core [] := ⟨rfl, rfl, rfl, Fifo.holds_reset _⟩

/-- Behind its last write the master leaves the engine alone. -/
private theorem script_quiet {writes : Nat → Option (Word × Word)} (sda : Nat → Bool) {n : Nat}
    (hw : ∀ u, n ≤ u → writes u = none)
    (hn : (trace (RegSlave.next device) smallStart (scriptIn writes sda) n).port.awSeenQ = false) {t : Nat}
    (ht : n ≤ t) :
    smallStart.accesses device (scriptIn writes sda) t = ⟨none, none, ⟨true, sda t⟩⟩ := by
  have hm : ∀ u, n ≤ u → (scriptIn writes sda u).m.awvalid = false := fun u hu => by simp [scriptIn, hw u hu]
  have hq : (trace (RegSlave.next device) smallStart (scriptIn writes sda) t).port.awSeenQ = false := by
    induction t, ht using Nat.le_induction with
    | base => exact hn
    | succ t ht ih =>
      rw [trace_succ]
      exact (RegSlave.access_quiet _ _ _ _ (hm t ht) rfl ih).2
  exact (RegSlave.access_quiet _ _ _ _ (hm t ht) rfl hq).1

/-- CMD = STOP in the first cycle. -/
def stopWrites (t : Nat) : Option (Word × Word) := if t = 0 then some (0x0C, 0x2) else none

/-- CMD = STOP on an empty queue is consumed and nothing comes of it. -/
theorem stop_swallowed :
    Ready smallStart.core [] ∧
      ¬Complete smallStart.core (smallStart.accesses device (scriptIn stopWrites fun _ => true)) := by
  refine ⟨small_ready, fun hx => ?_⟩
  set acc := smallStart.accesses device (scriptIn stopWrites fun _ => true) with hacc
  obtain ⟨ops, hops, hlog, hcs, -⟩ := hx.idle 2 (by decide +kernel)
  have h1 : busLog smallStart.core acc 2 = [cmd ⟨false, true, false, false⟩] := by decide +kernel
  have h2 : consumed smallStart.core acc 2 = [⟨false, true, false, false⟩] := by decide +kernel
  rw [h2] at hcs
  obtain ⟨p, rfl⟩ : ∃ p, ops = [p] := List.length_eq_one_iff.mp (by simpa using (congrArg List.length hcs).symm)
  obtain ⟨nack, body, -, hop⟩ := hops p (by simp)
  have hlast : I2cTok.done ∈ ([cmd ⟨false, true, false, false⟩] : List I2cTok) := by
    rw [← h1, hlog]
    simp [hop]
  simp at hlast

/-- An idle engine without a command stays so. -/
structure Rests (q : I2c wt wr) : Prop where
  enabled : q.enableQ = true
  idle : q.eng.stateQ = .idle
  noCmd : q.cmdValidQ = false

theorem Rests.next (h : Rests q) (pins : I2cPins) : Rests (q.next ⟨none, none, pins⟩) := by
  have hc : q.cmdConsumeIdle = false := by simp [cmdConsumeIdle, h.noCmd]
  have he : (q.next ⟨none, none, pins⟩).eng = q.eng := (idle_stay h.idle hc).1
  exact ⟨h.enabled, by rw [he]; exact h.idle, by simp [I2c.next, cmdWrite, RegAccess.wrAt, h.noCmd]⟩

private theorem Rests.regular (h : Rests q) (i : RegAccess (BitVec 3) I2cPins) : Regular q i := by
  have hc : q.cmdConsumeIdle = false := by simp [cmdConsumeIdle, h.noCmd]
  exact ⟨h.enabled, fun _ => .inl h.noCmd, by
    simp [evArb, h.idle], fun hx => absurd (hc.symm.trans hx) Bool.false_ne_true,
    by simp [cmdConsumeAck, h.idle], fun _ hs => absurd (h.idle.symm.trans hs) (by decide)⟩

instance (q : I2c wt wr) (i : RegAccess (BitVec 3) I2cPins) : Decidable (Regular q i) :=
  decidable_of_iff
    (q.enableQ = true ∧ ((cmdWrite i).isSome = true → q.cmdValidQ = false ∨ q.cmdConsume i = true) ∧
      q.evArb i = false ∧ (q.cmdConsumeIdle = true → q.cmdQ.start = true ∨ q.cmdQ.read = true ∨ q.tx.empty = false) ∧
      q.cmdConsumeAck i = false ∧ (q.drains i = true → q.eng.stateQ = .start → q.eng.stopAfterQ = true))
    ⟨fun ⟨h1, h2, h3, h4, h5, h6⟩ => ⟨h1, h2, h3, h4, h5, h6⟩,
      fun ⟨h1, h2, h3, h4, h5, h6⟩ => ⟨h1, h2, h3, h4, h5, h6⟩⟩

/-- TXDATA = 0xA1, CMD = START, and when that is done CMD = READ | NACK | STOP. -/
def readWrites (t : Nat) : Option (Word × Word) :=
  if t = 0 then some (0x10, 0xA1) else if t = 4 then some (0x0C, 0x1) else if t = 60 then some (0x0C, 0xE) else none

/-- The slave acknowledges its address and answers 0x5A. -/
def readSda (t : Nat) : Bool :=
  if t < 42 then true else if t < 46 then false else (0x5A#8).getMsbD ((t - 62) / 4)

/-- A byte is read from the slave at 0x50. -/
theorem command_completeness_read :
    Complete smallStart.core (smallStart.accesses device (scriptIn readWrites readSda)) ∧
      (engineAt smallStart.core (smallStart.accesses device (scriptIn readWrites readSda)) 104).rx.Holds [0x5A] := by
  have hquiet : ∀ {t}, 64 ≤ t → smallStart.accesses device (scriptIn readWrites readSda) t =
      ⟨none, none, ⟨true, readSda t⟩⟩ := by
    intro t ht
    refine script_quiet readSda (n := 64) (fun u hu => ?_) (by decide +kernel) ht
    rw [readWrites, if_neg (by omega), if_neg (by omega), if_neg (by omega)]
  have hreg : ∀ t, Regular (trace (RegSlave.next device) smallStart (scriptIn readWrites readSda) t).core
      (smallStart.accesses device (scriptIn readWrites readSda) t) := by
    intro t
    rcases Nat.lt_or_ge t 104 with ht | ht
    · revert t
      decide +kernel
    · have hrest : Rests (trace (RegSlave.next device) smallStart (scriptIn readWrites readSda) t).core := by
        induction t, ht using Nat.le_induction with
        | base => exact ⟨by decide +kernel, by decide +kernel, by decide +kernel⟩
        | succ t ht ih =>
          rw [trace_succ]
          have hacc := hquiet (t := t) (by omega)
          rw [RegSlave.accesses] at hacc
          change Rests (I2c.next _ _)
          rw [hacc]
          exact ih.next _
      exact hrest.regular _
  have hlate : ∀ t, ¬LateClear smallStart.core (smallStart.accesses device (scriptIn readWrites readSda)) t := by
    rintro t ⟨-, -, hc⟩
    rcases Nat.lt_or_ge (t + 1) 64 with ht | ht
    · have : ∀ u < 64, clears (smallStart.accesses device (scriptIn readWrites readSda)) REG_IRQ 2 u = false := by
        decide +kernel
      rw [this _ ht] at hc
      exact absurd hc Bool.false_ne_true
    · rw [clears, hquiet ht] at hc
      exact absurd hc Bool.false_ne_true
  refine ⟨command_completeness smallStart (scriptIn readWrites readSda) [] [] small_ready
    (Fifo.holds_reset _) hreg hlate, ?_⟩
  exact ⟨⟨by decide +kernel, by decide +kernel⟩, by decide +kernel⟩

end Yarv.I2c
