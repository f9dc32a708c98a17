import Yarv.Periph.I2c

/-!
# What an I2C command does

A run of the engine is read as a list of tokens: START and STOP conditions as they appear on the two pull-downs, SCL
pulses with the level the master drives or samples, and the engine's dealings with the FIFOs.  `Op c` is the token
list of a complete command `c`; `Doing c` follows the engine through it.
-/

namespace Yarv

inductive I2cTok
  | cmd (c : I2cCmd)
  | start
  | load (b : BitVec 8)
  | out (v : Bool)
  | inp (v : Bool)
  | recv (b : BitVec 8)
  | drained
  | stop
  | done
  deriving DecidableEq, Repr

namespace I2c

open I2cTok ShiftReg Clocked

variable {wt wr : Nat}

section Tokens

variable (q : I2c wt wr) (i : RegAccess (BitVec 3) I2cPins)

/-- SDA falls while SCL is released. -/
def startCond (e e' : I2cEngine) : Bool := !e.sclOe && !e'.sclOe && !e.sdaOe && e'.sdaOe

/-- SDA rises while SCL is released. -/
def stopCond (e e' : I2cEngine) : Bool := !e.sclOe && !e'.sclOe && e.sdaOe && !e'.sdaOe

/-- A data or acknowledge pulse: who drives SDA and which level is there. -/
def pulse : List I2cTok :=
  if q.go i && q.eng.phaseQ == 2 then
    match q.eng.stateQ with
    | .shift => if q.eng.readQ then [inp i.ext.sda] else [out !q.eng.sdaOe]
    | .ack => if q.eng.readQ then [recv q.eng.shiftQ, out !q.eng.sdaOe] else [inp i.ext.sda]
    | _ => []
  else []

/-- A write finds the TX FIFO empty where it would load the next byte. -/
def drains : Bool :=
  q.go i && q.eng.phaseQ == 3 && !q.eng.readQ && q.tx.empty &&
    (q.eng.stateQ == .start || (q.eng.stateQ == .ack && !q.eng.byteNackQ))

/-- The tokens of a cycle. -/
def toks : List I2cTok :=
  (if q.cmdConsume i then [cmd q.cmdQ] else []) ++ (if startCond q.eng (q.engNext i) then [start] else []) ++
    (if stopCond q.eng (q.engNext i) then [stop] else []) ++ q.pulse i ++
    (if q.txLoad i then [load q.tx.head] else []) ++ (if q.drains i then [drained] else []) ++
    (if q.go i && q.eng.stateQ == .done then [done] else [])

end Tokens

/-! ### The tokens of a command -/

/-- The command and the START it may begin with. -/
def opening (c : I2cCmd) : List I2cTok := cmd c :: if c.start then [start] else []

/-- A byte written, most significant bit first, and the slave's answer. -/
def byteToks (b : BitVec 8) (nack : Bool) : List I2cTok := load b :: (msbBits b).map out ++ [inp nack]

/-- A row of acknowledged bytes. -/
def burst (bs : List (BitVec 8)) : List I2cTok := bs.flatMap fun b => byteToks b false

/-- What a command does between its opening and its end, and whether that ends in a NACK: it reads one byte and
answers as told, or it writes what is queued until nothing is left or the slave refuses. -/
inductive Body (c : I2cCmd) : Bool → List I2cTok → Prop
  | read (rs : List Bool) (h8 : rs.length = 8) (hr : c.read = true) :
    Body c c.nack (rs.map inp ++ [recv (run 0 rs), out c.nack])
  | drained (bs : List (BitVec 8)) (hw : c.read = false) : Body c false (burst bs ++ [drained])
  | nacked (bs : List (BitVec 8)) (b : BitVec 8) (hw : c.read = false) : Body c true (burst bs ++ byteToks b true)

/-- The STOP a command ends with if it asks for it or was refused. -/
def closing (c : I2cCmd) (nack : Bool) : List I2cTok := if c.stop || nack then [stop] else []

/-- A complete command. -/
def Op (c : I2cCmd) (ts : List I2cTok) : Prop :=
  ∃ nack body, Body c nack body ∧ ts = opening c ++ body ++ closing c nack ++ [done]

/-! ### Following the engine -/

/-- The command in the engine's own flops. -/
structure Latched (c : I2cCmd) (e : I2cEngine) : Prop where
  read : e.readQ = c.read
  nack : e.nackCmdQ = c.nack
  stop : e.stopAfterQ = c.stop

/-- The pulses of the current byte that are over. -/
def pulses (n : Nat) (e : I2cEngine) : Nat := if e.phaseQ = 3 then n + 1 else n

/-- The busy engine in the middle of command `c`, which has left the tokens `ts` so far. -/
inductive Doing (c : I2cCmd) (e : I2cEngine) : List I2cTok → Prop
  | start (hs : e.stateQ = .start) (hl : Latched c e) (hc : c.start = true) :
    Doing c e (cmd c :: if e.phaseQ = 2 ∨ e.phaseQ = 3 then [.start] else [])
  | writing (bs : List (BitVec 8)) (b : BitVec 8) (n : Nat) (hs : e.stateQ = .shift) (hl : Latched c e)
    (hw : c.read = false) (hn : n ≤ 7) (hcnt : e.bitCntQ = BitVec.ofNat 3 (7 - n))
    (hsh : e.shiftQ = run b (List.replicate n false)) (hnk : e.byteNackQ = false) :
    Doing c e (opening c ++ burst bs ++ load b :: ((msbBits b).take (pulses n e)).map out)
  | writeAck (bs : List (BitVec 8)) (b : BitVec 8) (hs : e.stateQ = .ack) (hl : Latched c e) (hw : c.read = false)
    (hnk : e.phaseQ ≠ 3 → e.byteNackQ = false) :
    Doing c e
      (opening c ++ burst bs ++ load b :: (msbBits b).map out ++ if e.phaseQ = 3 then [inp e.byteNackQ] else [])
  | reading (rs : List Bool) (n : Nat) (hs : e.stateQ = .shift) (hl : Latched c e) (hr : c.read = true) (hn : n ≤ 7)
    (hcnt : e.bitCntQ = BitVec.ofNat 3 (7 - n)) (hlen : rs.length = pulses n e) (hsh : ∃ r, e.shiftQ = run r rs) :
    Doing c e (opening c ++ rs.map inp)
  | readAck (rs : List Bool) (hs : e.stateQ = .ack) (hl : Latched c e) (hr : c.read = true) (h8 : rs.length = 8)
    (hsh : e.shiftQ = run 0 rs) :
    Doing c e (opening c ++ rs.map inp ++ if e.phaseQ = 3 then [recv (run 0 rs), out c.nack] else [])
  | stop (nack : Bool) (body : List I2cTok) (hs : e.stateQ = .stop) (hb : Body c nack body)
    (hc : (c.stop || nack) = true) :
    Doing c e (opening c ++ body ++ if e.phaseQ = 2 ∨ e.phaseQ = 3 then [.stop] else [])
  | done (nack : Bool) (body : List I2cTok) (hs : e.stateQ = .done) (hb : Body c nack body)
    (hc : (c.stop || nack) = true → e.busActiveQ = false) : Doing c e (opening c ++ body ++ closing c nack)

/-- The cycles a driver that follows the rules leaves to the engine: what the code handles as the header says. -/
structure Regular (q : I2c wt wr) (i : RegAccess (BitVec 3) I2cPins) : Prop where
  enabled : q.enableQ = true
  /-- A CMD write waits for the one before. -/
  write : (cmdWrite i).isSome = true → q.cmdValidQ = false ∨ q.cmdConsume i = true
  /-- Nobody but the master pulls SDA low in a write bit. -/
  arb : q.evArb i = false
  /-- A command without START and READ finds a byte to write. -/
  idle : q.cmdConsumeIdle = true → q.cmdQ.start = true ∨ q.cmdQ.read = true ∨ q.tx.empty = false
  /-- No command waits when a read goes on without STOP. -/
  ack : q.cmdConsumeAck i = false
  /-- A START without READ finds a byte to write, or has its STOP. -/
  start : q.drains i = true → q.eng.stateQ = .start → q.eng.stopAfterQ = true

/-! ### One clock edge -/

variable {q : I2c wt wr} {i : RegAccess (BitVec 3) I2cPins} {c : I2cCmd} {ts : List I2cTok}

theorem phase_cases (p : BitVec 2) : p = 0 ∨ p = 1 ∨ p = 2 ∨ p = 3 := by
  revert p
  decide

theorem state_of_go (hg : q.go i = true) : q.eng.stateQ ≠ .idle := by
  intro h
  simp [go, phaseTick, h] at hg

theorem consumeIdle_of_busy (hb : q.eng.stateQ ≠ .idle) : q.cmdConsumeIdle = false := by
  simp [cmdConsumeIdle, hb]

/-- Between two phases nothing moves. -/
theorem stay (hb : q.eng.stateQ ≠ .idle) (hg : q.go i = false) : q.engNext i = q.eng ∧ q.toks i = [] := by
  have hi := consumeIdle_of_busy hb
  have ha : q.cmdConsumeAck i = false := by
    rw [go] at hg
    simp [cmdConsumeAck, hg]
  have he : q.engNext i = q.eng := by simp [engNext, hi, hg]
  refine ⟨he, ?_⟩
  simp [toks, he, startCond, stopCond, pulse, drains, txLoad, cmdConsume, hi, ha, hg]

/-- A cycle that ends a phase, without a command. -/
private theorem toks_of_go (hg : q.go i = true) (ha : q.cmdConsumeAck i = false) :
    q.toks i =
      (if startCond q.eng (q.engNext i) then [.start] else []) ++
        (if stopCond q.eng (q.engNext i) then [.stop] else []) ++
      q.pulse i ++ (if q.txLoad i then [load q.tx.head] else []) ++ (if q.drains i then [drained] else []) ++
      (if q.eng.stateQ == .done then [done] else []) := by
  simp [toks, cmdConsume, consumeIdle_of_busy (state_of_go hg), ha, hg]

/-- Phases 0 and 1 only count on, and the SDA edges of START and STOP lie between phases 1 and 2. -/
theorem phase_low (hg : q.go i = true) (ha : q.cmdConsumeAck i = false) (hd : q.eng.stateQ ≠ .done)
    (hp : q.eng.phaseQ = 0 ∨ q.eng.phaseQ = 1) :
    q.engNext i = { q.eng with phaseQ := q.eng.phaseQ + 1 } ∧
      q.toks i =
        if q.eng.phaseQ = 1 then
          match q.eng.stateQ with
          | .start => [.start]
          | .stop => [.stop]
          | _ => []
        else [] := by
  have hb := state_of_go hg
  have hi := consumeIdle_of_busy hb
  have h2 : q.eng.phaseQ ≠ 2#2 := by rcases hp with h | h <;> rw [h] <;> decide
  have h3 : q.eng.phaseQ ≠ 3#2 := by rcases hp with h | h <;> rw [h] <;> decide
  have he : q.engNext i = { q.eng with phaseQ := q.eng.phaseQ + 1 } := by
    cases hs : q.eng.stateQ with
    | idle => exact absurd hs hb
    | done => exact absurd hs hd
    | start => simp [engNext, hi, hg, hs, engStart, engPhase, h3]
    | shift => simp [engNext, hi, hg, hs, engShift, engPhase, h2, h3]
    | ack => simp [engNext, hi, hg, hs, engAck, engPhase, h2, h3]
    | stop => simp [engNext, hi, hg, hs, engStop, engPhase, h3]
  refine ⟨he, ?_⟩
  rw [toks_of_go hg ha, he]
  cases hs : q.eng.stateQ with
  | idle => exact absurd hs hb
  | done => exact absurd hs hd
  | start =>
    rcases hp with hp | hp <;>
      simp [startCond, stopCond, pulse, txLoad, drains, I2cEngine.sclOe, I2cEngine.sdaOe, hs, hp, hi]
  | shift =>
    rcases hp with hp | hp <;> cases hr : q.eng.readQ <;>
      simp [startCond, stopCond, pulse, txLoad, drains, I2cEngine.sclOe, I2cEngine.sdaOe, hs, hp, hi, hr]
  | ack =>
    rcases hp with hp | hp <;> cases hr : q.eng.readQ <;>
      simp [startCond, stopCond, pulse, txLoad, drains, I2cEngine.sclOe, I2cEngine.sdaOe, hs, hp, hi, hr]
  | stop =>
    rcases hp with hp | hp <;>
      simp [startCond, stopCond, pulse, txLoad, drains, I2cEngine.sclOe, I2cEngine.sdaOe, hs, hp, hi]

private theorem Latched.of_eq {e e' : I2cEngine} (hl : Latched c e) (h1 : e'.readQ = e.readQ)
    (h2 : e'.nackCmdQ = e.nackCmdQ) (h3 : e'.stopAfterQ = e.stopAfterQ) : Latched c e' :=
  ⟨h1.trans hl.read, h2.trans hl.nack, h3.trans hl.stop⟩

/-- The phases 0 and 1 of a command. -/
private theorem Doing.low (hd : Doing c q.eng ts) (hg : q.go i = true) (ha : q.cmdConsumeAck i = false)
    (hnd : q.eng.stateQ ≠ .done) (hp : q.eng.phaseQ = 0 ∨ q.eng.phaseQ = 1) :
    Doing c (q.engNext i) (ts ++ q.toks i) := by
  obtain ⟨he, ht⟩ := phase_low hg ha hnd hp
  have h3 : q.eng.phaseQ ≠ 3 := by rcases hp with h | h <;> rw [h] <;> decide
  have h3' : (q.engNext i).phaseQ ≠ 3 := by rw [he]; rcases hp with h | h <;> simp [h]
  have hpulse : ∀ n, pulses n (q.engNext i) = pulses n q.eng := by intro n; simp only [pulses, if_neg h3, if_neg h3']
  have hlat : Latched c q.eng → Latched c (q.engNext i) := fun hl => by rw [he]; exact hl.of_eq rfl rfl rfl
  have hst : (q.engNext i).stateQ = q.eng.stateQ := by rw [he]
  generalize hgen : q.eng = e at *
  cases hd with
  | start hs hl hc =>
    have := Doing.start (hst.trans hs) (hlat hl) hc
    rw [ht, hs]
    rcases hp with hp | hp <;> simpa [he, hp] using this
  | writing bs b n hs hl hw hn hcnt hsh hnk =>
    have := Doing.writing (e := q.engNext i) bs b n (hst.trans hs) (hlat hl) hw hn (by rw [he]; exact hcnt)
      (by rw [he]; exact hsh) (by rw [he]; exact hnk)
    rw [hpulse] at this
    rw [ht, hs]
    simpa using this
  | writeAck bs b hs hl hw hnk =>
    have := Doing.writeAck (e := q.engNext i) bs b (hst.trans hs) (hlat hl) hw (fun _ => by rw [he]; exact hnk h3)
    rw [if_neg h3'] at this
    rw [ht, hs, if_neg h3]
    simpa using this
  | reading rs n hs hl hr hn hcnt hlen hsh =>
    have := Doing.reading (e := q.engNext i) rs n (hst.trans hs) (hlat hl) hr hn (by rw [he]; exact hcnt)
      (by rw [hpulse]; exact hlen) (by rw [he]; exact hsh)
    rw [ht, hs]
    simpa using this
  | readAck rs hs hl hr h8 hsh =>
    have := Doing.readAck (e := q.engNext i) rs (hst.trans hs) (hlat hl) hr h8 (by rw [he]; exact hsh)
    rw [if_neg h3'] at this
    rw [ht, hs, if_neg h3]
    simpa using this
  | stop nack body hs hb hc =>
    have := Doing.stop (e := q.engNext i) nack body (hst.trans hs) hb hc
    rw [ht, hs]
    rcases hp with hp | hp <;> simpa [he, hp] using this
  | done nack body hs hb hc => exact absurd hs hnd

/-! ### Phases 2 and 3 of the states -/

/-- What a busy engine does next: it goes on with the command, or the command is over and the lines are as it
asked. -/
def Onward (c : I2cCmd) (q : I2c wt wr) (i : RegAccess (BitVec 3) I2cPins) (ts : List I2cTok) : Prop :=
  Doing c (q.engNext i) (ts ++ q.toks i) ∨
    ((q.engNext i).stateQ = .idle ∧ (q.engNext i).phaseQ = 0 ∧ Op c (ts ++ q.toks i) ∧
      (c.stop = true → (q.engNext i).busActiveQ = false))

private theorem start_high (hs : q.eng.stateQ = .start) (hl : Latched c q.eng) (hc : c.start = true)
    (hr : Regular q i) (hg : q.go i = true) (hp : q.eng.phaseQ = 2 ∨ q.eng.phaseQ = 3) :
    Onward c q i (cmd c :: if q.eng.phaseQ = 2 ∨ q.eng.phaseQ = 3 then [.start] else []) := by
  left
  have hi := consumeIdle_of_busy (state_of_go hg)
  have he : q.engNext i = q.engStart := by simp [engNext, hi, hg, hs]
  have hopen : (cmd c :: if q.eng.phaseQ = 2 ∨ q.eng.phaseQ = 3 then [.start] else []) = opening c := by
    rw [if_pos hp, opening, hc, if_pos rfl]
  rw [hopen, toks_of_go hg hr.ack, he]
  rcases hp with hp | hp
  · have h1 : q.engStart = { q.eng with phaseQ := 3 } := by simp [engStart, engPhase, hp]
    rw [h1]
    have := Doing.start (c := c) (e := { q.eng with phaseQ := 3 }) hs (hl.of_eq rfl rfl rfl) hc
    simpa [startCond, stopCond, pulse, txLoad, drains, I2cEngine.sclOe, I2cEngine.sdaOe, hs, hp, hi, opening, hc]
      using this
  · cases hread : q.eng.readQ with
    | true =>
      have h1 : q.engStart = { q.engGoto .shift with shiftQ := 0, bitCntQ := 7, byteNackQ := false } := by
        simp [engStart, hp, hread]
      rw [h1]
      have :=
        Doing.reading (c := c) (e := { q.engGoto .shift with shiftQ := 0, bitCntQ := 7, byteNackQ := false }) [] 0
        rfl (hl.of_eq rfl rfl rfl) (hl.read.symm.trans hread) (by decide) rfl rfl ⟨0, rfl⟩
      simpa [startCond, stopCond, pulse, txLoad, drains, I2cEngine.sclOe, I2cEngine.sdaOe, hs, hp, hi, hread]
        using this
    | false =>
      cases hemp : q.tx.empty with
      | false =>
        have h1 : q.engStart = q.engLoad := by simp [engStart, hp, hread, hemp]
        rw [h1]
        have := Doing.writing (c := c) (e := q.engLoad) [] q.tx.head 0 rfl (hl.of_eq rfl rfl rfl)
          (hl.read.symm.trans hread) (by decide) rfl rfl rfl
        simpa [startCond, stopCond, pulse, txLoad, drains, I2cEngine.sclOe, I2cEngine.sdaOe, hs, hp, hi, hread, hemp,
          burst, pulses, engLoad, hg] using this
      | true =>
        have h1 : q.engStart = q.engGoto .stop := by simp [engStart, hp, hread, hemp]
        have hstop : c.stop = true := by
          rw [← hl.stop]
          exact hr.start (by simp [drains, hg, hp, hread, hemp, hs]) hs
        rw [h1]
        have := Doing.stop (c := c) (e := q.engGoto .stop) false [drained] rfl
          (Body.drained [] (hl.read.symm.trans hread)) (by rw [hstop]; rfl)
        simpa [startCond, stopCond, pulse, txLoad, drains, I2cEngine.sclOe, I2cEngine.sdaOe, hs, hp, hi, hread, hemp,
          engGoto, hg] using this

private theorem mosi_bit (b : BitVec 8) {n : Nat} (hn : n < 8) :
    (run b (List.replicate n false)).getLsbD 7 = b.getMsbD n := by
  rw [getLsbD_run_old _ _ (by simp; omega) (by omega), List.length_replicate, BitVec.getMsbD]
  simp [hn]

private theorem bitCnt_zero {n : Nat} (hn : n ≤ 7) : BitVec.ofNat 3 (7 - n) = 0 ↔ n = 7 := by
  revert n
  decide

private theorem bitCnt_pred {n : Nat} (hn : n < 7) : BitVec.ofNat 3 (7 - n) - 1 = BitVec.ofNat 3 (7 - (n + 1)) := by
  revert n
  decide

/-- A write bit that is not lost to another master. -/
private theorem engShift_write (hs : q.eng.stateQ = .shift) (hread : q.eng.readQ = false) (hp : q.eng.phaseQ = 2)
    (hg : q.go i = true) (harb : q.evArb i = false) : q.engShift i = { q.eng with phaseQ := 3 } := by
  have htick : q.phaseTick = true := by
    rw [go, Bool.and_eq_true] at hg
    exact hg.1
  have hfree : (!q.eng.sdaOe && !i.ext.sda) = false := by simpa [evArb, hs, hp, htick, hread] using harb
  rw [engShift, if_pos hp, hread, Bool.not_false, Bool.true_and, if_neg (by simp [hfree]), hp]
  rfl

private theorem writing_high (bs : List (BitVec 8)) (b : BitVec 8) (n : Nat) (hs : q.eng.stateQ = .shift)
    (hl : Latched c q.eng) (hw : c.read = false) (hn : n ≤ 7) (hcnt : q.eng.bitCntQ = BitVec.ofNat 3 (7 - n))
    (hsh : q.eng.shiftQ = run b (List.replicate n false)) (hnk : q.eng.byteNackQ = false) (hr : Regular q i)
    (hg : q.go i = true) (hp : q.eng.phaseQ = 2 ∨ q.eng.phaseQ = 3) :
    Onward c q i (opening c ++ burst bs ++ load b :: ((msbBits b).take (pulses n q.eng)).map out) := by
  left
  have hi := consumeIdle_of_busy (state_of_go hg)
  have hread : q.eng.readQ = false := hl.read.trans hw
  have he : q.engNext i = q.engShift i := by simp [engNext, hi, hg, hs]
  have hbit : q.eng.shiftQ.getLsbD 7 = b.getMsbD n := by rw [hsh, mosi_bit b (by omega)]
  rw [toks_of_go hg hr.ack, he]
  rcases hp with hp | hp
  · have h1 := engShift_write hs hread hp hg hr.arb
    have hsda : (!q.eng.sdaOe) = b.getMsbD n := by simp [I2cEngine.sdaOe, hs, hread, ← hbit]
    have hpulse : q.pulse i = [out (b.getMsbD n)] := by simp [pulse, hg, hp, hs, hread, hsda]
    have htake : (msbBits b).take (n + 1) = (msbBits b).take n ++ [b.getMsbD n] := by
      rw [List.take_add_one, msbBits_get b (by omega)]
      rfl
    have :=
      Doing.writing (c := c) (e := { q.eng with phaseQ := 3 }) bs b n hs (hl.of_eq rfl rfl rfl) hw hn hcnt hsh hnk
    rw [pulses, if_pos rfl, htake] at this
    rw [h1, hpulse, pulses, if_neg (by rw [hp]; decide)]
    simpa [startCond, stopCond, txLoad, drains, I2cEngine.sclOe, hs, hp, hi] using this
  · rcases Nat.lt_or_eq_of_le hn with hlt | rfl
    · have hne : q.eng.bitCntQ ≠ 0#3 := by
        rw [hcnt]
        intro h0
        have := (bitCnt_zero hn).mp h0
        omega
      have h1 : q.engShift i =
          { q.eng with shiftQ := shiftIn q.eng.shiftQ false, bitCntQ := q.eng.bitCntQ - 1, phaseQ := 0 } := by
        simp [engShift, hp, hread, hne]
      have := Doing.writing (c := c)
        (e := { q.eng with shiftQ := shiftIn q.eng.shiftQ false, bitCntQ := q.eng.bitCntQ - 1, phaseQ := 0 }) bs b
        (n + 1) hs (hl.of_eq rfl rfl rfl) hw hlt (by rw [hcnt]; exact bitCnt_pred hlt)
        (by rw [List.replicate_succ', run_concat, ← hsh]) hnk
      rw [h1]
      simpa [startCond, stopCond, pulse, txLoad, drains, I2cEngine.sclOe, I2cEngine.sdaOe, hs, hp, hi, hread, pulses]
        using this
    · have h1 : q.engShift i = q.engGoto .ack := by simp [engShift, hp, hcnt]
      have h8 : ((msbBits b).map out).take 8 = (msbBits b).map out := List.take_of_length_le (by simp)
      have := Doing.writeAck (c := c) (e := q.engGoto .ack) bs b rfl (hl.of_eq rfl rfl rfl) hw fun _ => hnk
      rw [h1]
      simpa [startCond, stopCond, pulse, txLoad, drains, I2cEngine.sclOe, I2cEngine.sdaOe, hs, hp, hi, hread, pulses,
        engGoto, h8] using this

private theorem reading_high (rs : List Bool) (n : Nat) (hs : q.eng.stateQ = .shift) (hl : Latched c q.eng)
    (hread : c.read = true) (hn : n ≤ 7) (hcnt : q.eng.bitCntQ = BitVec.ofNat 3 (7 - n))
    (hlen : rs.length = pulses n q.eng) (hsh : ∃ r, q.eng.shiftQ = run r rs) (hr : Regular q i) (hg : q.go i = true)
    (hp : q.eng.phaseQ = 2 ∨ q.eng.phaseQ = 3) : Onward c q i (opening c ++ rs.map inp) := by
  left
  have hi := consumeIdle_of_busy (state_of_go hg)
  have hrq : q.eng.readQ = true := hl.read.trans hread
  have he : q.engNext i = q.engShift i := by simp [engNext, hi, hg, hs]
  obtain ⟨r, hsh⟩ := hsh
  rw [toks_of_go hg hr.ack, he]
  rcases hp with hp | hp
  · rw [pulses, if_neg (by rw [hp]; decide)] at hlen
    have h1 : q.engShift i = { q.eng with shiftQ := shiftIn q.eng.shiftQ i.ext.sda, phaseQ := 3 } := by
      simp [engShift, hp, hrq]
    have := Doing.reading (c := c) (e := { q.eng with shiftQ := shiftIn q.eng.shiftQ i.ext.sda, phaseQ := 3 })
      (rs ++ [i.ext.sda]) n hs (hl.of_eq rfl rfl rfl) hread hn hcnt (by simp [hlen, pulses])
      ⟨r, by rw [run_concat, ← hsh]⟩
    rw [h1]
    simpa [startCond, stopCond, pulse, txLoad, drains, I2cEngine.sclOe, I2cEngine.sdaOe, hs, hp, hi, hrq,
      hg] using this
  · rw [pulses, if_pos hp] at hlen
    rcases Nat.lt_or_eq_of_le hn with hlt | rfl
    · have hne : q.eng.bitCntQ ≠ 0#3 := by
        rw [hcnt]
        intro h0
        have := (bitCnt_zero hn).mp h0
        omega
      have h1 : q.engShift i = { q.eng with bitCntQ := q.eng.bitCntQ - 1, phaseQ := 0 } := by
        simp [engShift, hp, hrq, hne]
      have := Doing.reading (c := c) (e := { q.eng with bitCntQ := q.eng.bitCntQ - 1, phaseQ := 0 }) rs (n + 1) hs
        (hl.of_eq rfl rfl rfl) hread hlt (by rw [hcnt]; exact bitCnt_pred hlt) (by simp [hlen, pulses]) ⟨r, hsh⟩
      rw [h1]
      simpa [startCond, stopCond, pulse, txLoad, drains, I2cEngine.sclOe, I2cEngine.sdaOe, hs, hp, hi, hrq] using this
    · have h1 : q.engShift i = q.engGoto .ack := by simp [engShift, hp, hcnt]
      have := Doing.readAck (c := c) (e := q.engGoto .ack) rs rfl (hl.of_eq rfl rfl rfl) hread hlen
        (hsh.trans (run_congr r 0 hlen))
      rw [h1]
      simpa [startCond, stopCond, pulse, txLoad, drains, I2cEngine.sclOe, I2cEngine.sdaOe, hs, hp, hi, hrq, engGoto]
        using this

/-- The end of a body: STOP where the command asks for it or was refused, else done. -/
private theorem Doing.finish {nack : Bool} {body : List I2cTok} (hb : Body c nack body) :
    Doing c (q.engGoto (if c.stop || nack then .stop else .done)) (opening c ++ body) := by
  cases h : c.stop || nack with
  | true => simpa [engGoto] using Doing.stop (c := c) (e := q.engGoto .stop) nack body rfl hb h
  | false => simpa [closing, h] using Doing.done (c := c) (e := q.engGoto .done) nack body rfl hb (by simp [h])

private theorem writeAck_high (bs : List (BitVec 8)) (b : BitVec 8) (hs : q.eng.stateQ = .ack) (hl : Latched c q.eng)
    (hw : c.read = false) (hnk : q.eng.phaseQ ≠ 3 → q.eng.byteNackQ = false) (hr : Regular q i) (hg : q.go i = true)
    (hp : q.eng.phaseQ = 2 ∨ q.eng.phaseQ = 3) :
    Onward c q i (opening c ++ burst bs ++ load b :: (msbBits b).map out ++
      if q.eng.phaseQ = 3 then [inp q.eng.byteNackQ] else []) := by
  left
  have hi := consumeIdle_of_busy (state_of_go hg)
  have hread : q.eng.readQ = false := hl.read.trans hw
  have he : q.engNext i = q.engAck i := by simp [engNext, hi, hg, hs]
  rw [toks_of_go hg hr.ack, he]
  rcases hp with hp | hp
  · have hn := hnk (by rw [hp]; decide)
    have h1 : q.engAck i = { q.eng with phaseQ := 3, byteNackQ := i.ext.sda } := by
      cases hsda : i.ext.sda <;> simp [engAck, engPhase, hp, hread, hsda, hn]
    have := Doing.writeAck (c := c) (e := { q.eng with phaseQ := 3, byteNackQ := i.ext.sda }) bs b hs
      (hl.of_eq rfl rfl rfl) hw (by simp)
    rw [h1]
    simpa [startCond, stopCond, pulse, txLoad, drains, I2cEngine.sclOe, I2cEngine.sdaOe, hs, hp, hi, hread,
      hg] using this
  · rw [if_pos hp]
    have hquiet : ∀ e', startCond q.eng e' = false ∧ stopCond q.eng e' = false := by
      intro e'
      simp [startCond, stopCond, I2cEngine.sclOe, hs, hp]
    have hpulse : q.pulse i = [] := by simp [pulse, hp]
    rw [(hquiet _).1, (hquiet _).2, hpulse]
    cases hnack : q.eng.byteNackQ with
    | true =>
      have h1 : q.engAck i = q.engGoto .stop := by simp [engAck, hp, hread, hnack]
      have := Doing.finish (q := q) (Body.nacked (c := c) bs b hw)
      rw [Bool.or_true, if_pos rfl] at this
      rw [h1]
      simpa [txLoad, drains, hs, hp, hi, hread, hnack, byteToks] using this
    | false =>
      cases hemp : q.tx.empty with
      | false =>
        have h1 : q.engAck i = q.engLoad := by simp [engAck, hp, hread, hnack, hemp]
        have :=
          Doing.writing (c := c) (e := q.engLoad) (bs ++ [b]) q.tx.head 0 rfl (hl.of_eq rfl rfl rfl) hw (by decide)
          rfl rfl rfl
        rw [h1]
        simpa [txLoad, drains, hs, hp, hi, hread, hnack, hemp, hg, byteToks, burst, pulses, engLoad] using this
      | true =>
        have h1 : q.engAck i = q.engGoto (if c.stop || false then .stop else .done) := by
          rw [← hl.stop]
          cases hst : q.eng.stopAfterQ <;> simp [engAck, hp, hread, hnack, hemp, hst]
        have := Doing.finish (q := q) (Body.drained (c := c) (bs ++ [b]) hw)
        rw [h1]
        simpa [txLoad, drains, hs, hp, hi, hread, hnack, hemp, hg, byteToks, burst] using this

private theorem readAck_high (rs : List Bool) (hs : q.eng.stateQ = .ack) (hl : Latched c q.eng)
    (hread : c.read = true) (h8 : rs.length = 8) (hsh : q.eng.shiftQ = run 0 rs) (hr : Regular q i)
    (hg : q.go i = true) (hp : q.eng.phaseQ = 2 ∨ q.eng.phaseQ = 3) :
    Onward c q i (opening c ++ rs.map inp ++ if q.eng.phaseQ = 3 then [recv (run 0 rs), out c.nack] else []) := by
  left
  have hi := consumeIdle_of_busy (state_of_go hg)
  have hrq : q.eng.readQ = true := hl.read.trans hread
  have he : q.engNext i = q.engAck i := by simp [engNext, hi, hg, hs]
  rw [toks_of_go hg hr.ack, he]
  rcases hp with hp | hp
  · have h1 : q.engAck i = { q.eng with phaseQ := 3 } := by simp [engAck, engPhase, hp, hrq]
    have := Doing.readAck (c := c) (e := { q.eng with phaseQ := 3 }) rs hs (hl.of_eq rfl rfl rfl) hread h8 hsh
    rw [h1]
    simpa [startCond, stopCond, pulse, txLoad, drains, I2cEngine.sclOe, I2cEngine.sdaOe, hs, hp, hi, hrq, hg, hl.nack,
      hsh] using this
  · rw [if_pos hp]
    have h1 : q.engAck i = q.engGoto (if c.stop || c.nack then .stop else .done) := by
      rw [← hl.stop, ← hl.nack]
      cases hst : q.eng.stopAfterQ || q.eng.nackCmdQ <;> simp [engAck, hp, hrq, hst, hr.ack]
    have := Doing.finish (q := q) (Body.read (c := c) rs h8 hread)
    rw [h1]
    simpa [startCond, stopCond, pulse, txLoad, drains, I2cEngine.sclOe, hs, hp, hi, hrq] using this

private theorem stop_high (nack : Bool) (body : List I2cTok) (hs : q.eng.stateQ = .stop) (hb : Body c nack body)
    (hc : (c.stop || nack) = true) (hr : Regular q i) (hg : q.go i = true)
    (hp : q.eng.phaseQ = 2 ∨ q.eng.phaseQ = 3) :
    Onward c q i (opening c ++ body ++ if q.eng.phaseQ = 2 ∨ q.eng.phaseQ = 3 then [.stop] else []) := by
  left
  have hi := consumeIdle_of_busy (state_of_go hg)
  have he : q.engNext i = q.engStop := by simp [engNext, hi, hg, hs]
  rw [toks_of_go hg hr.ack, he, if_pos hp]
  rcases hp with hp | hp
  · have h1 : q.engStop = { q.eng with phaseQ := 3 } := by simp [engStop, engPhase, hp]
    have := Doing.stop (c := c) (e := { q.eng with phaseQ := 3 }) nack body hs hb hc
    rw [h1]
    simpa [startCond, stopCond, pulse, txLoad, drains, I2cEngine.sclOe, I2cEngine.sdaOe, hs, hp, hi] using this
  · have h1 : q.engStop = { q.engGoto .done with busActiveQ := false } := by simp [engStop, hp]
    have := Doing.done (c := c) (e := { q.engGoto .done with busActiveQ := false }) nack body rfl hb fun _ => rfl
    rw [closing, hc, if_pos rfl] at this
    rw [h1]
    simpa [startCond, stopCond, pulse, txLoad, drains, I2cEngine.sclOe, I2cEngine.sdaOe, hs, hp, hi,
      engGoto] using this

private theorem done_step (nack : Bool) (body : List I2cTok) (hs : q.eng.stateQ = .done) (hb : Body c nack body)
    (hc : (c.stop || nack) = true → q.eng.busActiveQ = false) (hr : Regular q i) (hg : q.go i = true) :
    Onward c q i (opening c ++ body ++ closing c nack) := by
  right
  have hi := consumeIdle_of_busy (state_of_go hg)
  have he : q.engNext i = q.engGoto .idle := by simp [engNext, hi, hg, hs]
  rw [toks_of_go hg hr.ack, he]
  refine ⟨rfl, rfl, ⟨nack, body, hb, ?_⟩, fun h => hc (by rw [h]; rfl)⟩
  simp [startCond, stopCond, pulse, txLoad, drains, I2cEngine.sdaOe, hs, hi, engGoto]

/-- One clock edge of a busy engine. -/
theorem Doing.next (hd : Doing c q.eng ts) (hb : q.eng.stateQ ≠ .idle) (hr : Regular q i) : Onward c q i ts := by
  cases hg : q.go i with
  | false =>
    obtain ⟨he, ht⟩ := stay hb hg
    left
    rwa [he, ht, List.append_nil]
  | true =>
    by_cases hnd : q.eng.stateQ = .done
    · cases hd with
      | done nack body hs hb hc => exact done_step nack body hs hb hc hr hg
      | start hs | writing _ _ _ hs | writeAck _ _ hs | reading _ _ hs | readAck _ hs | stop _ _ hs =>
        exact absurd (hs.symm.trans hnd) (by decide)
    · rcases phase_cases q.eng.phaseQ with hp | hp | hp | hp
      · exact .inl (hd.low hg hr.ack hnd (.inl hp))
      · exact .inl (hd.low hg hr.ack hnd (.inr hp))
      all_goals
        have hp' : q.eng.phaseQ = 2 ∨ q.eng.phaseQ = 3 := by first | exact .inl hp | exact .inr hp
        cases hd with
        | start hs hl hc => exact start_high hs hl hc hr hg hp'
        | writing bs b n hs hl hw hn hcnt hsh hnk => exact writing_high bs b n hs hl hw hn hcnt hsh hnk hr hg hp'
        | writeAck bs b hs hl hw hnk => exact writeAck_high bs b hs hl hw hnk hr hg hp'
        | reading rs n hs hl hread hn hcnt hlen hsh => exact reading_high rs n hs hl hread hn hcnt hlen hsh hr hg hp'
        | readAck rs hs hl hread h8 hsh => exact readAck_high rs hs hl hread h8 hsh hr hg hp'
        | stop nack body hs hb hc => exact stop_high nack body hs hb hc hr hg hp'
        | done _ _ hs => exact absurd hs hnd

end I2c

end Yarv
