import Yarv.Sw.I2c

/-!
# Writes through `i2c.h`
-/

namespace Yarv.I2cDriver

open Driver Clocked I2c I2cTok ShiftReg

/-! ### The shape of a write -/

/-- The transaction of `i2c_write` and `i2c_write_regs`: `pre` is queued before the command, `buf` fed behind it. -/
def transmit (pre buf : List (BitVec 8)) : I2cProg Int := do
  i2c_clear_err
  pushAll pre
  i2c_cmd (I2C_CMD_START ||| I2C_CMD_STOP)
  pushAll buf
  i2c_wait_idle
  i2c_check_err

theorem i2c_write_eq (addr7 : BitVec 8) (buf : List (BitVec 8)) :
    i2c_write addr7 buf = transmit [addr7 <<< 1] buf := rfl

theorem i2c_write_regs_eq (addr7 reg : BitVec 8) (buf : List (BitVec 8)) :
    i2c_write_regs addr7 reg buf = transmit [addr7 <<< 1, reg] buf := rfl

/-- The command word of a write. -/
def writeCmd : I2cCmd := ⟨true, true, false, false⟩

/-- The stores of a write. -/
def WriteStore (r : BitVec 3) (v : Word) : Prop :=
  r = REG_IRQ ∨ r = REG_TXDATA ∨ r = REG_CMD ∧ v = I2C_CMD_START ||| I2C_CMD_STOP

section Shape

variable {τ : Type} {k : Unit → I2cProg τ}

theorem pushAll_cons (b : BitVec 8) (bs : List (BitVec 8)) :
    (pushAll (b :: bs)).bind k =
      .poll REG_STATUS (clear I2C_STATUS_TX_FULL) (.store REG_TXDATA (b.setWidth 32) ((pushAll bs).bind k)) := rfl

theorem pushAll_nil : (pushAll []).bind k = k () := rfl

theorem stores_pushAll (bs : List (BitVec 8)) (r : BitVec 3) :
    ((pushAll bs).bind k).stores r =
      (if r = REG_TXDATA then bs.map (·.setWidth 32) else []) ++ (k ()).stores r := by
  induction bs with
  | nil => simp [pushAll_nil]
  | cons b bs ih =>
    rw [pushAll_cons, Prog.stores, Prog.stores, ih]
    by_cases hr : r = REG_TXDATA
    · simp [hr]
    · simp [hr, Ne.symm hr]

theorem all_pushAll {P : BitVec 3 → Word → Prop} (hP : ∀ v, P REG_TXDATA v) (hk : (k ()).All P)
    (bs : List (BitVec 8)) :
    ((pushAll bs).bind k).All P := by
  induction bs with
  | nil => exact hk
  | cons b bs ih => exact ⟨hP _, ih⟩

private theorem straight_pushAll (hk : (k ()).Straight) (bs : List (BitVec 8)) : ((pushAll bs).bind k).Straight := by
  induction bs with
  | nil => exact hk
  | cons b bs ih => exact ih

/-- Every push waits for room. -/
private theorem guarded_pushAll (hk : ¬(k ()).AtStore REG_TXDATA)
    (hg : (k ()).Guarded REG_TXDATA REG_STATUS (clear I2C_STATUS_TX_FULL)) (bs : List (BitVec 8)) :
    ¬((pushAll bs).bind k).AtStore REG_TXDATA ∧
      ((pushAll bs).bind k).Guarded REG_TXDATA REG_STATUS (clear I2C_STATUS_TX_FULL) := by
  induction bs with
  | nil => exact ⟨hk, hg⟩
  | cons b bs ih =>
    rw [pushAll_cons]
    exact ⟨id, fun _ => ⟨rfl, rfl⟩, ih.1, ih.2⟩

end Shape

/-- A write behind its command and its pushes. -/
def finishWrite : I2cProg Int := i2c_wait_idle.bind fun _ => i2c_check_err

theorem transmit_eq (pre buf : List (BitVec 8)) :
    transmit pre buf = .store REG_IRQ (I2C_IRQ_NACK ||| I2C_IRQ_ARBLOST) ((pushAll pre).bind fun _ =>
      .store REG_CMD (I2C_CMD_START ||| I2C_CMD_STOP) ((pushAll buf).bind fun _ => finishWrite)) := rfl

private theorem stores_transmit_tx (pre buf : List (BitVec 8)) :
    (transmit pre buf).stores REG_TXDATA = (pre ++ buf).map (·.setWidth 32) := by
  have hfinish : finishWrite.stores REG_TXDATA = [] := rfl
  rw [transmit_eq, Prog.stores, if_neg (by decide), stores_pushAll, if_pos rfl, Prog.stores, if_neg (by decide),
    stores_pushAll, if_pos rfl, List.map_append, hfinish, List.append_nil]

private theorem stores_transmit_cmd (pre buf : List (BitVec 8)) :
    (transmit pre buf).stores REG_CMD = [I2C_CMD_START ||| I2C_CMD_STOP] := by
  rw [transmit_eq, Prog.stores, if_neg (by decide), stores_pushAll, if_neg (by decide), Prog.stores, if_pos rfl,
    stores_pushAll, if_neg (by decide)]
  rfl

private theorem all_transmit (pre buf : List (BitVec 8)) : (transmit pre buf).All WriteStore := by
  have hpush : ∀ v, WriteStore REG_TXDATA v := fun _ => .inr (.inl rfl)
  have hbuf := all_pushAll (k := fun _ => finishWrite) hpush (fun _ => trivial) buf
  exact ⟨.inl rfl, all_pushAll (k := fun _ => .store REG_CMD _ _) hpush ⟨.inr (.inr ⟨rfl, rfl⟩), hbuf⟩ pre⟩

private theorem straight_transmit (pre buf : List (BitVec 8)) : (transmit pre buf).Straight := by
  have hbuf := straight_pushAll (k := fun _ => finishWrite) (fun st => ⟨errCode st, rfl⟩) buf
  exact straight_pushAll (k := fun _ => .store REG_CMD _ _) hbuf pre

private theorem guarded_transmit (pre buf : List (BitVec 8)) :
    (transmit pre buf).Guarded REG_TXDATA REG_STATUS (clear I2C_STATUS_TX_FULL) := by
  have hbuf := guarded_pushAll (k := fun _ => finishWrite) id ⟨fun h => h.elim, fun st => ⟨id, trivial⟩⟩ buf
  exact guarded_pushAll (k := fun _ => .store REG_CMD _ _) (by rw [Prog.AtStore]; decide) hbuf pre

/-! ### The engine under a write -/

section Engine

variable {wt wr : Nat} {q : I2c wt wr} {i : RegAccess (BitVec 3) I2cPins}

/-- The engine goes on writing under the same command, with no byte refused that was not. -/
structure Keeps (e e' : I2cEngine) : Prop where
  read : e'.readQ = e.readQ
  stop : e'.stopAfterQ = e.stopAfterQ
  nack : e.byteNackQ = false → e'.byteNackQ = false

private theorem keeps_load (q : I2c wt wr) : Keeps q.eng q.engLoad := ⟨rfl, rfl, fun _ => rfl⟩

private theorem keeps_goto (q : I2c wt wr) (st : I2cState) : Keeps q.eng (q.engGoto st) := ⟨rfl, rfl, id⟩

private theorem keeps_phase (q : I2c wt wr) : Keeps q.eng q.engPhase := ⟨rfl, rfl, id⟩

/-- A busy engine that writes keeps its command, and without a NACK no byte is refused. -/
private theorem engNext_keeps (hb : q.eng.stateQ ≠ .idle) (hread : q.eng.readQ = false) (hev : q.evNack i = false) :
    Keeps q.eng (q.engNext i) := by
  have hi := consumeIdle_of_busy hb
  cases hg : q.go i with
  | false =>
    rw [(stay hb hg).1]
    exact ⟨rfl, rfl, id⟩
  | true =>
    have htick : q.phaseTick = true := by
      rw [go, Bool.and_eq_true] at hg
      exact hg.1
    cases hs : q.eng.stateQ with
    | idle => exact absurd hs hb
    | start =>
      rw [show q.engNext i = q.engStart by simp [engNext, hi, hg, hs], engStart, hread]
      split
      · rw [if_neg Bool.false_ne_true]
        split
        · exact keeps_load q
        · exact keeps_goto q _
      · exact keeps_phase q
    | shift =>
      rw [show q.engNext i = q.engShift i by simp [engNext, hi, hg, hs], engShift, hread]
      split
      · dsimp only
        rw [if_neg Bool.false_ne_true]
        split
        · exact ⟨rfl, rfl, id⟩
        · exact ⟨rfl, rfl, id⟩
      · split
        · split
          · exact keeps_goto q _
          · exact ⟨rfl, rfl, id⟩
        · exact keeps_phase q
    | ack =>
      rw [show q.engNext i = q.engAck i by simp [engNext, hi, hg, hs], engAck, hread]
      split
      · rename_i hp
        have hsda : i.ext.sda = false := by simpa [evNack, hs, hp, htick, hread] using hev
        refine ⟨rfl, rfl, fun hn => ?_⟩
        simp [hsda, hn]
      · split
        · rw [if_pos (by rfl)]
          split
          · exact keeps_goto q _
          · split
            · exact keeps_load q
            · split
              · exact keeps_goto q _
              · exact keeps_goto q _
        · exact keeps_phase q
    | stop =>
      rw [show q.engNext i = q.engStop by simp [engNext, hi, hg, hs], engStop]
      split
      · exact ⟨rfl, rfl, id⟩
      · exact keeps_phase q
    | done =>
      rw [show q.engNext i = q.engGoto .idle by simp [engNext, hi, hg, hs]]
      exact keeps_goto q _

/-- The bytes an engine has loaded. -/
def loads (ts : List I2cTok) : List (BitVec 8) :=
  ts.filterMap fun
    | .load b => some b
    | _ => none

theorem loads_append (a b : List I2cTok) : loads (a ++ b) = loads a ++ loads b := List.filterMap_append

private theorem loads_pulse (q : I2c wt wr) (i : RegAccess (BitVec 3) I2cPins) : loads (q.pulse i) = [] := by
  rw [loads, List.filterMap_eq_nil_iff]
  intro x hx
  rcases pulse_cases q i hx with ⟨v, rfl⟩ | ⟨v, rfl⟩ | ⟨b, rfl⟩
  · rfl
  · rfl
  · rfl

theorem loads_toks (q : I2c wt wr) (i : RegAccess (BitVec 3) I2cPins) :
    loads (q.toks i) = if q.txLoad i then [q.tx.head] else [] := by
  have hite : ∀ (b : Bool) (x : I2cTok), (∀ y, x ≠ .load y) → loads (if b then [x] else []) = [] := by
    intro b x hx
    cases b with
    | false => rfl
    | true =>
      cases x with
      | load y => exact absurd rfl (hx y)
      | cmd c | start | out v | inp v | recv v | drained | stop | done => rfl
  rw [toks]
  simp only [loads_append, loads_pulse, hite _ (.cmd q.cmdQ) (by simp), hite _ .start (by simp),
    hite _ .stop (by simp), hite _ .drained (by simp), hite _ .done (by simp)]
  cases q.txLoad i with
  | false => rfl
  | true => rfl

/-- The queue of an engine that flushes nothing: what was loaded and what is left is what was pushed. -/
private theorem loads_step {l : List (BitVec 8)} (h : q.tx.Holds l) (hf : q.txFlush i = false) :
    ∃ l', (q.next i).tx.Holds l' ∧ loads (q.toks i) ++ l' = l ++ (q.txPush i).toList := by
  obtain ⟨hload, -, hnext⟩ := queue_step h i
  rw [hf, if_neg Bool.false_ne_true] at hnext
  refine ⟨_, hnext, ?_⟩
  rw [loads_toks]
  cases hl : q.txLoad i with
  | false => simp
  | true =>
    have hmem : load q.tx.head ∈ q.toks i := by simp [toks, hl]
    have hhead := hload _ hmem
    cases l with
    | nil => simp at hhead
    | cons b l =>
      simp at hhead
      simp [hhead]

end Engine

/-! ### A write and its engine -/

section Run

variable {wt wr : Nat} {τ : Type} (p : I2cProg τ) (s : PortDev (I2c wt wr)) (inp : Nat → HostIn I2cPins)

/-- The slave acknowledges every byte and nobody else pulls SDA low. -/
structure Acks : Prop where
  ack : ∀ t, (i2cAt p s inp t).evNack (i2cIn p s inp t) = false
  arb : ∀ t, (i2cAt p s inp t).evArb (i2cIn p s inp t) = false

/-- What a write and its engine have in common before cycle `t`. -/
structure WriteInv (t : Nat) : Prop where
  fresh : i2cStores p s inp REG_CMD t = [] → (i2cAt p s inp t).eng.stateQ = .idle ∧
    (i2cAt p s inp t).cmdValidQ = false
  waiting : (i2cAt p s inp t).cmdValidQ = true → (i2cAt p s inp t).eng.stateQ = .idle ∧
    (devAt (portTarget device) ⟨p, s⟩ inp t).busyQ = true ∧ (i2cAt p s inp t).cmdQ = writeCmd
  running : (i2cAt p s inp t).eng.stateQ ≠ .idle → (i2cAt p s inp t).eng.readQ = false ∧
    (i2cAt p s inp t).eng.stopAfterQ = true ∧ (i2cAt p s inp t).eng.byteNackQ = false

variable {s inp} {pre buf : List (BitVec 8)} {t : Nat}

variable (s inp pre buf) in
private theorem cmd_balance (t : Nat) :
    i2cStores (transmit pre buf) s inp REG_CMD t ++ (i2cProg (transmit pre buf) s inp t).stores REG_CMD =
      [I2C_CMD_START ||| I2C_CMD_STOP] := by
  rw [← stores_transmit_cmd pre buf]
  exact stores_balance (straight_transmit pre buf) REG_CMD t

variable (s inp pre buf) in
private theorem tx_balance (t : Nat) :
    i2cStores (transmit pre buf) s inp REG_TXDATA t ++ (i2cProg (transmit pre buf) s inp t).stores REG_TXDATA =
      (pre ++ buf).map (·.setWidth 32) := by
  rw [← stores_transmit_tx pre buf]
  exact stores_balance (straight_transmit pre buf) REG_TXDATA t

/-- The one CMD store of a write finds none before it. -/
private theorem cmd_once {v : Word} (hi : i2cAccess (transmit pre buf) s inp t = some (.store REG_CMD v)) :
    i2cStores (transmit pre buf) s inp REG_CMD t = [] ∧ v = I2C_CMD_START ||| I2C_CMD_STOP := by
  have hbal := cmd_balance s inp pre buf (t + 1)
  rw [i2cStores_succ, storeOf_eq_some.mpr hi, Option.toList_some] at hbal
  cases hl : i2cStores (transmit pre buf) s inp REG_CMD t with
  | nil =>
    rw [hl] at hbal
    simp at hbal
    exact ⟨rfl, hbal.1⟩
  | cons a l =>
    rw [hl] at hbal
    simp at hbal

private theorem WriteInv.next (h : WriteInv (transmit pre buf) s inp t) (hack : Acks (transmit pre buf) s inp)
    (hen : (i2cAt (transmit pre buf) s inp t).enableQ = true) : WriteInv (transmit pre buf) s inp (t + 1) := by
  have hcw : cmdWrite (i2cIn (transmit pre buf) s inp t) = _ := cmdWrite_i2cIn t
  have hstay : (i2cAt (transmit pre buf) s inp t).cmdValidQ = false →
      (i2cAt (transmit pre buf) s inp t).cmdConsumeIdle = false := fun hv => by simp [cmdConsumeIdle, hv]
  refine ⟨fun h0 => ?_, fun hv => ?_, fun hb => ?_⟩
  · rw [i2cStores_succ, List.append_eq_nil_iff, Option.toList_eq_nil_iff] at h0
    obtain ⟨hs, hv⟩ := h.fresh h0.1
    have he := (idle_stay (i := i2cIn (transmit pre buf) s inp t) hs (hstay hv)).1
    rw [i2cAt_succ]
    refine ⟨(congrArg I2cEngine.stateQ he).trans hs, ?_⟩
    rw [h0.2] at hcw
    simp [I2c.next, hcw, hv]
  · rw [i2cAt_succ] at hv ⊢
    cases ha : storeOf REG_CMD (i2cAccess (transmit pre buf) s inp t) with
    | none =>
      -- a command that waits is taken in its first cycle
      rw [ha] at hcw
      have hv' : (i2cAt (transmit pre buf) s inp t).cmdValidQ = true ∧
          (i2cAt (transmit pre buf) s inp t).cmdConsume (i2cIn (transmit pre buf) s inp t) = false := by
        simpa [I2c.next, hcw] using hv
      have hidle := (h.waiting hv'.1).1
      have hc := hv'.2
      simp [cmdConsume, cmdConsumeIdle, hidle, hen, hv'.1] at hc
    | some v =>
      have hi := storeOf_eq_some.mp ha
      obtain ⟨h0, rfl⟩ := cmd_once hi
      obtain ⟨hs, hvl⟩ := h.fresh h0
      have he := (idle_stay (i := i2cIn (transmit pre buf) s inp t) hs (hstay hvl)).1
      rw [ha] at hcw
      refine ⟨(congrArg I2cEngine.stateQ he).trans hs, ?_, ?_⟩
      · rw [devAt_succ]
        change (i2cAccess (transmit pre buf) s inp t).isSome = true
        rw [hi]
        rfl
      · change (cmdWrite _).getD _ = _
        rw [hcw]
        rfl
  · rw [i2cAt_succ] at hb ⊢
    change ((i2cAt (transmit pre buf) s inp t).engNext (i2cIn (transmit pre buf) s inp t)).stateQ ≠ .idle at hb
    change ((i2cAt (transmit pre buf) s inp t).engNext (i2cIn (transmit pre buf) s inp t)).readQ = false ∧ _
    by_cases hs : (i2cAt (transmit pre buf) s inp t).eng.stateQ = .idle
    · cases hc : (i2cAt (transmit pre buf) s inp t).cmdConsumeIdle with
      | false => exact absurd ((congrArg I2cEngine.stateQ (idle_stay hs hc).1).trans hs) hb
      | true =>
        have hv : (i2cAt (transmit pre buf) s inp t).cmdValidQ = true := by
          rw [cmdConsumeIdle, Bool.and_eq_true] at hc
          exact hc.2
        have hcmd := (h.waiting hv).2.2
        have he : (i2cAt (transmit pre buf) s inp t).engNext (i2cIn (transmit pre buf) s inp t) =
            (i2cAt (transmit pre buf) s inp t).engConsume := by simp [engNext, hc]
        change _ ∧ ((i2cAt (transmit pre buf) s inp t).engNext _).stopAfterQ = _ ∧
          ((i2cAt (transmit pre buf) s inp t).engNext _).byteNackQ = _
        rw [he]
        simp [engConsume, hcmd, writeCmd]
    · obtain ⟨hr, hst, hn⟩ := h.running hs
      have hk := engNext_keeps (i := i2cIn (transmit pre buf) s inp t) hs hr (hack.ack t)
      exact ⟨hk.read.trans hr, hk.stop.trans hst, hk.nack hn⟩

/-- A write starts on an idle, enabled engine with nothing queued. -/
structure Starts (s : PortDev (I2c wt wr)) : Prop where
  ready : Ready s.core []
  enabled : s.core.enableQ = true

private theorem write_enabled (h0 : Starts s) (t : Nat) : (i2cAt (transmit pre buf) s inp t).enableQ = true := by
  refine enableQ_run h0.enabled (fun u v hi => ?_) t
  have hw : WriteStore REG_CTRL v := stored_of_all (h := ⟨transmit pre buf, s⟩) (all_transmit pre buf) hi
  rcases hw with h | h | ⟨h, -⟩
  · exact absurd h (by decide)
  · exact absurd h (by decide)
  · exact absurd h (by decide)

private theorem write_inv (h0 : Starts s) (hack : Acks (transmit pre buf) s inp) (t : Nat) :
    WriteInv (transmit pre buf) s inp t := by
  induction t with
  | zero =>
    refine ⟨fun _ => ⟨h0.ready.idle, h0.ready.noCmd⟩, fun hv => ?_, fun hb => absurd h0.ready.idle hb⟩
    exact absurd (h0.ready.noCmd.symm.trans hv) Bool.false_ne_true
  | succ t ih => exact ih.next hack (write_enabled h0 t)

/-- A write keeps the rules of the engine. -/
private theorem write_regular (h0 : Starts s) (hack : Acks (transmit pre buf) s inp) (t : Nat) :
    Regular (i2cAt (transmit pre buf) s inp t) (i2cIn (transmit pre buf) s inp t) := by
  have h := write_inv h0 hack t
  refine ⟨write_enabled h0 t, fun hw => ?_, hack.arb t, fun hc => ?_, ?_, fun hd hs => ?_⟩
  · left
    rw [cmdWrite_i2cIn, Option.isSome_map] at hw
    obtain ⟨v, hv⟩ := Option.isSome_iff_exists.mp hw
    exact (h.fresh (cmd_once (storeOf_eq_some.mp hv)).1).2
  · left
    have hv : (i2cAt (transmit pre buf) s inp t).cmdValidQ = true := by
      rw [cmdConsumeIdle, Bool.and_eq_true] at hc
      exact hc.2
    rw [(h.waiting hv).2.2]
    rfl
  · by_cases hs : (i2cAt (transmit pre buf) s inp t).eng.stateQ = .idle
    · simp [cmdConsumeAck, hs]
    · simp [cmdConsumeAck, (h.running hs).1]
  · exact (h.running (by rw [hs]; decide)).2.1

/-- A FIFO with room keeps it while nothing is pushed. -/
theorem room_stays {q : I2c wt wr} {i : RegAccess (BitVec 3) I2cPins} {l : List (BitVec 8)} (h : q.tx.Holds l)
    (hroom : q.tx.full = false) (hp : q.txPush i = none) : (q.next i).tx.full = false := by
  have hnext := (queue_step h i).2.2
  rw [← Bool.not_eq_true, h.full_iff] at hroom
  rw [← Bool.not_eq_true, hnext.full_iff, hp]
  have hle := h.length_le
  have hpos := Nat.two_pow_pos wt
  have htail : l.tail.length ≤ l.length := by simp
  cases q.txFlush i with
  | true =>
    simp only [if_true, Option.toList_none, List.append_nil, List.length_nil]
    omega
  | false =>
    cases q.txLoad i with
    | true =>
      simp only [Bool.false_eq_true, if_true, if_false, Option.toList_none, List.append_nil]
      omega
    | false =>
      simp only [Bool.false_eq_true, if_false, Option.toList_none, List.append_nil]
      omega

/-- A push finds room. -/
private theorem write_room (h0 : Starts s) (t : Nat)
    (hp : (i2cProg (transmit pre buf) s inp t).AtStore REG_TXDATA) :
    (i2cAt (transmit pre buf) s inp t).tx.full = false := by
  have hholds : ∀ t, ∃ l, (i2cAt (transmit pre buf) s inp t).tx.Holds l := fun t => by
    rw [i2cAt_eq]
    exact tx_run h0.ready _ t
  have hnone : ∀ t, (∀ v, i2cAccess (transmit pre buf) s inp t ≠ some (.store REG_TXDATA v)) →
      (i2cAt (transmit pre buf) s inp t).txPush (i2cIn (transmit pre buf) s inp t) = none := by
    intro t hst
    rw [txPush_i2cIn]
    cases hx : storeOf REG_TXDATA (i2cAccess (transmit pre buf) s inp t) with
    | none => simp
    | some v => exact absurd (storeOf_eq_some.mp hx) (hst v)
  refine (guarded_run (T := portTarget device) (h := ⟨transmit pre buf, s⟩)
    (A := fun t => (i2cAt (transmit pre buf) s inp t).tx.full = false) (guarded_transmit pre buf)
    (show ¬REG_IRQ = REG_TXDATA by decide) ?_ ?_ t).2 hp
  · intro u hi hd
    obtain ⟨l, hl⟩ := hholds u
    have hfull : (i2cAt (transmit pre buf) s inp u).tx.full = false := by
      have hst : clear I2C_STATUS_TX_FULL (i2cAt (transmit pre buf) s inp u).status = true := hd
      rw [clear_full, Bool.not_eq_true'] at hst
      exact hst
    exact room_stays hl hfull (hnone u fun v hv => by rw [i2cAccess, hi] at hv; simp at hv)
  · intro u hA hi
    obtain ⟨l, hl⟩ := hholds u
    exact room_stays hl hA (hnone u fun v hv => by rw [i2cAccess, hi] at hv; simp at hv)

private theorem atStore_of_issued {r : BitVec 3} {v : Word} (hi : i2cAccess p s inp t = some (.store r v)) :
    (i2cProg p s inp t).AtStore r := by
  have hacc := access_of_issued hi
  change (i2cProg p s inp t).access = _ at hacc
  cases hp : i2cProg p s inp t with
  | ret a => rw [hp] at hacc; cases hacc
  | load r' k => rw [hp] at hacc; cases hacc
  | poll r' done k => rw [hp] at hacc; cases hacc
  | store r' v' k =>
    rw [hp] at hacc
    cases hacc
    rfl

/-- What the engine has loaded and what is queued is what the driver has stored. -/
private theorem write_queue (h0 : Starts s) (hack : Acks (transmit pre buf) s inp) (t : Nat) :
    ∃ l, (i2cAt (transmit pre buf) s inp t).tx.Holds l ∧
      loads (i2cLog (transmit pre buf) s inp t) ++ l =
        (i2cStores (transmit pre buf) s inp REG_TXDATA t).map (·.setWidth 8) := by
  induction t with
  | zero => exact ⟨[], h0.ready.tx, rfl⟩
  | succ t ih =>
    obtain ⟨l, hl, hbal⟩ := ih
    have hflush : (i2cAt (transmit pre buf) s inp t).txFlush (i2cIn (transmit pre buf) s inp t) = false := by
      by_cases hs : (i2cAt (transmit pre buf) s inp t).eng.stateQ = .idle
      · simp [txFlush, hs]
      · simp [txFlush, ((write_inv h0 hack t).running hs).2.2]
    have hpush : (i2cAt (transmit pre buf) s inp t).txPush (i2cIn (transmit pre buf) s inp t) =
        (storeOf REG_TXDATA (i2cAccess (transmit pre buf) s inp t)).map (·.setWidth 8) := by
      rw [txPush_i2cIn]
      cases hx : storeOf REG_TXDATA (i2cAccess (transmit pre buf) s inp t) with
      | none => simp
      | some v =>
        have hroom : (i2cAt (transmit pre buf) s inp t).tx.full = false :=
          write_room h0 t (atStore_of_issued _ (storeOf_eq_some.mp hx))
        rw [hroom]
        rfl
    obtain ⟨l', hl', hstep⟩ := loads_step hl hflush
    refine ⟨l', hl', ?_⟩
    rw [i2cLog_succ, loads_append, List.append_assoc, hstep, ← List.append_assoc, hbal, i2cStores_succ,
      List.map_append, hpush]
    cases storeOf REG_TXDATA (i2cAccess (transmit pre buf) s inp t) with
    | none => rfl
    | some v => rfl

/-! ### Behind the wait -/

variable (s inp) in
private theorem i2cStores_mono (p : I2cProg τ) (r : BitVec 3) {u : Nat} (h : t ≤ u) :
    i2cStores p s inp r t <+: i2cStores p s inp r u := by
  induction u, h using Nat.le_induction with
  | base => exact List.prefix_refl _
  | succ u _ ih =>
    rw [i2cStores_succ]
    exact ih.trans (List.prefix_append _ _)

private theorem mem_i2cLog {p : I2cProg τ} {x : I2cTok} (h : x ∈ i2cLog p s inp t) :
    ∃ d < t, x ∈ (i2cAt p s inp d).toks (i2cIn p s inp d) := by
  induction t with
  | zero => exact absurd h (by simp [i2cLog, busLog])
  | succ t ih =>
    rw [i2cLog_succ, List.mem_append] at h
    rcases h with h | h
    · obtain ⟨d, hd, hx⟩ := ih h
      exact ⟨d, by omega, hx⟩
    · exact ⟨t, by omega, h⟩

/-- Once its command is stored, a write stores no other. -/
private theorem no_second_cmd (hne : i2cStores (transmit pre buf) s inp REG_CMD t ≠ []) {u : Nat}
    (hu : t ≤ u) (v : Word) :
    i2cAccess (transmit pre buf) s inp u ≠ some (.store REG_CMD v) := by
  intro hi
  have h0 := (cmd_once hi).1
  have hpre := i2cStores_mono s inp (transmit pre buf) REG_CMD hu
  rw [h0, List.prefix_nil] at hpre
  exact hne hpre

/-- The engine on its way out of a write, with no command to come. -/
structure Leaving (q : I2c wt wr) : Prop where
  state : q.eng.stateQ = .stop ∨ q.eng.stateQ = .done ∨ q.eng.stateQ = .idle
  noCmd : q.cmdValidQ = false

theorem Leaving.no_load {q : I2c wt wr} (h : Leaving q) (i : RegAccess (BitVec 3) I2cPins) : q.txLoad i = false := by
  have hi : q.cmdConsumeIdle = false := by simp [cmdConsumeIdle, h.noCmd]
  rcases h.state with hs | hs | hs
  · simp [txLoad, hi, hs]
  · simp [txLoad, hi, hs]
  · simp [txLoad, hi, hs]

theorem Leaving.next {q : I2c wt wr} {i : RegAccess (BitVec 3) I2cPins} (h : Leaving q) (hw : cmdWrite i = none) :
    Leaving (q.next i) ∧ (q.eng.stateQ = .idle → (q.next i).eng.stateQ = .idle) := by
  have hi : q.cmdConsumeIdle = false := by simp [cmdConsumeIdle, h.noCmd]
  have hv : (q.next i).cmdValidQ = false := by simp [I2c.next, hw, h.noCmd]
  have he : (q.next i).eng = q.engNext i := rfl
  rw [he]
  rcases h.state with hs | hs | hs
  · refine ⟨⟨?_, hv⟩, fun hx => absurd (hs.symm.trans hx) (by decide)⟩
    rw [he]
    cases hg : q.go i with
    | false =>
      rw [(stay (by rw [hs]; decide) hg).1]
      exact .inl hs
    | true =>
      rw [show q.engNext i = q.engStop by simp [engNext, hi, hg, hs], engStop]
      split
      · exact .inr (.inl rfl)
      · exact .inl hs
  · refine ⟨⟨?_, hv⟩, fun hx => absurd (hs.symm.trans hx) (by decide)⟩
    rw [he]
    cases hg : q.go i with
    | false =>
      rw [(stay (by rw [hs]; decide) hg).1]
      exact .inr (.inl hs)
    | true =>
      rw [show q.engNext i = q.engGoto .idle by simp [engNext, hi, hg, hs]]
      exact .inr (.inr rfl)
  · rw [(idle_stay hs hi).1]
    exact ⟨⟨.inr (.inr (by rw [he, (idle_stay hs hi).1]; exact hs)), hv⟩, fun _ => hs⟩

private theorem leaving_run (hl : Leaving (i2cAt (transmit pre buf) s inp t))
    (hne : i2cStores (transmit pre buf) s inp REG_CMD t ≠ []) {u : Nat} (hu : t ≤ u) :
    Leaving (i2cAt (transmit pre buf) s inp u) ∧
      loads (i2cLog (transmit pre buf) s inp u) = loads (i2cLog (transmit pre buf) s inp t) ∧
      ((i2cAt (transmit pre buf) s inp t).eng.stateQ = .idle →
        (i2cAt (transmit pre buf) s inp u).eng.stateQ = .idle) := by
  induction u, hu using Nat.le_induction with
  | base => exact ⟨hl, rfl, id⟩
  | succ u hu ih =>
    obtain ⟨ih1, ih2, ih3⟩ := ih
    have hw : cmdWrite (i2cIn (transmit pre buf) s inp u) = none := by
      rw [cmdWrite_i2cIn]
      cases hx : storeOf REG_CMD (i2cAccess (transmit pre buf) s inp u) with
      | none => rfl
      | some v => exact absurd (storeOf_eq_some.mp hx) (no_second_cmd hne hu v)
    obtain ⟨h1, h2⟩ := ih1.next hw
    refine ⟨h1, ?_, fun h => h2 (ih3 h)⟩
    rw [i2cLog_succ, loads_append, loads_toks, ih1.no_load, if_neg Bool.false_ne_true, List.append_nil, ih2]

/-- A write that has returned has seen the engine idle behind its command, and its code is that of the error flags. -/
private theorem write_returned (h0 : Starts s) (hack : Acks (transmit pre buf) s inp) {rc : Int}
    (hret : i2cProg (transmit pre buf) s inp t = .ret rc) :
    ∃ w < t, (i2cAt (transmit pre buf) s inp w).eng.stateQ = .idle ∧ Leaving (i2cAt (transmit pre buf) s inp w) ∧
      i2cStores (transmit pre buf) s inp REG_CMD w ≠ [] := by
  obtain ⟨c, -, hc0, hct, hc⟩ := bind_split (t := 0) (T := portTarget device) (h := ⟨transmit pre buf, s⟩)
    (p := .store REG_IRQ (I2C_IRQ_NACK ||| I2C_IRQ_ARBLOST) ((pushAll pre).bind fun _ =>
      .store REG_CMD (I2C_CMD_START ||| I2C_CMD_STOP) (pushAll buf))) (f := fun _ => finishWrite)
    (by rw [Prog.store_bind, Prog.bind_assoc]; rfl) (Nat.zero_le t) hret
  obtain ⟨w, hcw, hwt, hi, hd, hp⟩ := exists_poll hc hct hret
  have hidle : (i2cAt (transmit pre buf) s inp w).eng.stateQ = .idle := by
    have hst : clear I2C_STATUS_BUSY (i2cAt (transmit pre buf) s inp w).status = true := hd
    rw [clear_busy, Bool.not_eq_true'] at hst
    simpa [busy] using hst
  have hfree := not_busy_of_ready (ready_of_issued hi)
  have hnv : (i2cAt (transmit pre buf) s inp w).cmdValidQ = false := by
    cases hv : (i2cAt (transmit pre buf) s inp w).cmdValidQ with
    | false => rfl
    | true => exact absurd (((write_inv h0 hack w).waiting hv).2.1.symm.trans hfree) (by simp)
  refine ⟨w, hwt, hidle, ⟨.inr (.inr hidle), hnv⟩, fun hnil => ?_⟩
  have hbal := cmd_balance s inp pre buf (w + 1)
  have hp' : i2cProg (transmit pre buf) s inp (w + 1) = i2c_check_err := hp
  have hno : storeOf REG_CMD (i2cAccess (transmit pre buf) s inp w) = none := by
    change storeOf REG_CMD (issued _ _ _ w) = none
    rw [hi]
    rfl
  rw [i2cStores_succ, hnil, hno, hp'] at hbal
  simp [i2c_check_err, Prog.stores] at hbal

/-! ### What the wire has carried -/

end Run

/-- The tokens that show on the two lines. -/
def isWire : I2cTok → Bool
  | .start | .stop | .out _ | .inp _ => true
  | _ => false

def wire (ts : List I2cTok) : List I2cTok := ts.filter isWire

/-- An acknowledged byte on the wire. -/
def byteWire (b : BitVec 8) : List I2cTok := (msbBits b).map out ++ [inp false]

private theorem wire_burst (bs : List (BitVec 8)) : wire (burst bs) = bs.flatMap byteWire := by
  induction bs with
  | nil => rfl
  | cons b bs ih =>
    have hbits : ((msbBits b).map out).filter isWire = (msbBits b).map out := by
      rw [List.filter_eq_self]
      intro x hx
      obtain ⟨v, -, rfl⟩ := List.mem_map.mp hx
      rfl
    rw [burst, List.flatMap_cons, wire, List.filter_append, ← wire, ← burst, ← wire, ih, List.flatMap_cons]
    have hbyte : wire (byteToks b false) = byteWire b := by
      rw [byteToks, wire, List.cons_append,
        List.filter_cons_of_neg (show ¬isWire (load b) = true from Bool.false_ne_true), List.filter_append, hbits]
      rfl
    rw [hbyte]

private theorem loads_burst (bs : List (BitVec 8)) : loads (burst bs) = bs := by
  induction bs with
  | nil => rfl
  | cons b bs ih =>
    have hbits : loads ((msbBits b).map out) = [] := by
      rw [loads, List.filterMap_eq_nil_iff]
      intro x hx
      obtain ⟨v, -, rfl⟩ := List.mem_map.mp hx
      rfl
    rw [burst, List.flatMap_cons, loads_append, ← burst, ih, byteToks, List.cons_append]
    change (b :: loads ((msbBits b).map out ++ [inp false])) ++ bs = _
    rw [loads_append, hbits]
    rfl

section Exact

variable {wt wr : Nat} {τ : Type}

/-- The transaction of `bytes` is on the wire, and nothing is left in the FIFO. -/
structure Written (p : I2cProg τ) (s : PortDev (I2c wt wr)) (inp : Nat → HostIn I2cPins) (bytes : List (BitVec 8))
    (t : Nat) : Prop where
  wire : wire (i2cLog p s inp t) = .start :: bytes.flatMap byteWire ++ [.stop]
  empty : (i2cAt p s inp t).tx.empty = true

/-- Up to cycle `t` the engine has not found its FIFO empty while the driver had bytes to push. -/
def Fed (p : I2cProg τ) (s : PortDev (I2c wt wr)) (inp : Nat → HostIn I2cPins) (t : Nat) : Prop :=
  ∀ d < t, (i2cAt p s inp d).drains (i2cIn p s inp d) = true → (i2cProg p s inp d).stores REG_TXDATA = []

variable {s : PortDev (I2c wt wr)} {inp : Nat → HostIn I2cPins} {pre buf : List (BitVec 8)} {t : Nat}

variable (s inp pre buf) in
private theorem stored_bytes (t : Nat) :
    (i2cStores (transmit pre buf) s inp REG_TXDATA t).map (·.setWidth 8) ++
      ((i2cProg (transmit pre buf) s inp t).stores REG_TXDATA).map (·.setWidth 8) = pre ++ buf := by
  rw [← List.map_append, tx_balance, List.map_map]
  conv => rhs; rw [← List.map_id (pre ++ buf)]
  congr 1
  funext b
  apply BitVec.eq_of_toNat_eq
  simp

/-- What the engine has loaded when it finds its FIFO empty is all that was stored. -/
private theorem loads_of_drains (h0 : Starts s) (hack : Acks (transmit pre buf) s inp)
    (hd : (i2cAt (transmit pre buf) s inp t).drains (i2cIn (transmit pre buf) s inp t) = true) :
    loads (i2cLog (transmit pre buf) s inp t) =
      (i2cStores (transmit pre buf) s inp REG_TXDATA t).map (·.setWidth 8) := by
  obtain ⟨l, hl, hbal⟩ := write_queue h0 hack t
  have hemp : (i2cAt (transmit pre buf) s inp t).tx.empty = true := by
    simp only [drains, Bool.and_eq_true] at hd
    exact hd.1.2
  rw [hl.empty_iff.mp hemp, List.append_nil] at hbal
  exact hbal

/-- The engine that finds its FIFO empty goes to STOP. -/
private theorem stop_of_drains {q : I2c wt wr} {i : RegAccess (BitVec 3) I2cPins} (hd : q.drains i = true)
    (hst : q.eng.stopAfterQ = true) : (q.engNext i).stateQ = .stop ∧ q.txLoad i = false := by
  simp only [drains, Bool.and_eq_true, Bool.or_eq_true, beq_iff_eq, Bool.not_eq_true'] at hd
  obtain ⟨⟨⟨⟨hg, hp⟩, hr⟩, hemp⟩, hs⟩ := hd
  have hi := consumeIdle_of_busy (state_of_go hg)
  refine ⟨?_, by simp [txLoad, hi, hemp]⟩
  rcases hs with hs | ⟨hs, hn⟩
  · rw [show q.engNext i = q.engStart by simp [engNext, hi, hg, hs], engStart, if_pos hp, hr, hemp]
    rfl
  · rw [show q.engNext i = q.engAck i by simp [engNext, hi, hg, hs], engAck, hp, hr, hn, hemp, hst]
    rfl

/-- Behind an empty FIFO a write loads nothing more. -/
private theorem loads_behind_drains (h0 : Starts s) (hack : Acks (transmit pre buf) s inp)
    (hd : (i2cAt (transmit pre buf) s inp t).drains (i2cIn (transmit pre buf) s inp t) = true) {u : Nat}
    (hu : t < u) :
    loads (i2cLog (transmit pre buf) s inp u) = loads (i2cLog (transmit pre buf) s inp t) := by
  have hb : (i2cAt (transmit pre buf) s inp t).eng.stateQ ≠ .idle := by
    simp only [drains, Bool.and_eq_true] at hd
    exact state_of_go hd.1.1.1.1
  obtain ⟨-, hst, -⟩ := (write_inv h0 hack t).running hb
  obtain ⟨hstop, hnl⟩ := stop_of_drains hd hst
  have hne : i2cStores (transmit pre buf) s inp REG_CMD (t + 1) ≠ [] := by
    intro hnil
    rw [i2cStores_succ, List.append_eq_nil_iff] at hnil
    exact hb ((write_inv h0 hack t).fresh hnil.1).1
  have hstate : (i2cAt (transmit pre buf) s inp (t + 1)).eng.stateQ = .stop := hstop
  have hleave : Leaving (i2cAt (transmit pre buf) s inp (t + 1)) := by
    refine ⟨.inl hstate, ?_⟩
    cases hv : (i2cAt (transmit pre buf) s inp (t + 1)).cmdValidQ with
    | false => rfl
    | true => exact absurd (hstate.symm.trans ((write_inv h0 hack (t + 1)).waiting hv).1) (by decide)
  rw [(leaving_run hleave hne (u := u) (by omega)).2.1, i2cLog_succ, loads_append, loads_toks, hnl,
    if_neg Bool.false_ne_true, List.append_nil]

/-- An acknowledged write has no refused byte in its log. -/
private theorem no_refusal (h0 : Starts s) (hack : Acks (transmit pre buf) s inp) :
    I2cTok.inp true ∉ i2cLog (transmit pre buf) s inp t := by
  intro hmem
  obtain ⟨d, -, hd⟩ := mem_i2cLog hmem
  have hp : I2cTok.inp true ∈ (i2cAt (transmit pre buf) s inp d).pulse (i2cIn (transmit pre buf) s inp d) := by
    simpa [toks] using hd
  have hev := hack.ack d
  rw [pulse] at hp
  split at hp
  · rename_i hg
    rw [Bool.and_eq_true, beq_iff_eq] at hg
    obtain ⟨hg, hph⟩ := hg
    have htick : (i2cAt (transmit pre buf) s inp d).phaseTick = true := by
      rw [go, Bool.and_eq_true] at hg
      exact hg.1
    have hread := ((write_inv h0 hack d).running (state_of_go hg)).1
    split at hp
    · simp [hread] at hp
    · rename_i hs
      have hsda : (i2cIn (transmit pre buf) s inp d).ext.sda = true := by simpa [hread] using hp
      simp [evNack, hs, hph, htick, hread, hsda] at hev
    · simp at hp
  · simp at hp

private theorem written_eq {p : I2cProg τ} (t : Nat) :
    written s.core (i2cIn p s inp) t =
      (i2cStores p s inp REG_CMD t).map fun v => ⟨v.getLsbD 0, v.getLsbD 1, v.getLsbD 2, v.getLsbD 3⟩ := by
  induction t with
  | zero => rfl
  | succ t ih =>
    rw [written, logFrom_succ, ← written, ih, Nat.zero_add, cmdWrite_i2cIn, i2cStores_succ, List.map_append]
    cases storeOf REG_CMD (i2cAccess p s inp t) with
    | none => rfl
    | some v => rfl

/-- The log of a write that has returned is one command. -/
private theorem write_op (h0 : Starts s) (hack : Acks (transmit pre buf) s inp) {rc : Int}
    (hret : i2cProg (transmit pre buf) s inp t = .ret rc) :
    ∃ bs, i2cLog (transmit pre buf) s inp t =
      opening writeCmd ++ (burst bs ++ [drained]) ++ closing writeCmd false ++ [.done] := by
  obtain ⟨w, hwt, hidle, hleave, hne⟩ := write_returned h0 hack hret
  obtain ⟨hl, -, hi⟩ := leaving_run hleave hne (le_of_lt hwt)
  have hregular :
      ∀ u, Regular (engineAt s.core (i2cIn (transmit pre buf) s inp) u) (i2cIn (transmit pre buf) s inp u) := by
    intro u
    rw [← i2cAt_eq]
    exact write_regular h0 hack u
  have hlegal := legal_run h0.ready hregular t
  have hacc := accepted_run h0.ready hregular t
  rw [← i2cAt_eq] at hlegal hacc
  have hwritten : written s.core (i2cIn (transmit pre buf) s inp) t = [writeCmd] := by
    have hbal := cmd_balance s inp pre buf t
    have hmono := i2cStores_mono s inp (transmit pre buf) REG_CMD (le_of_lt hwt)
    rw [written_eq]
    cases hst : i2cStores (transmit pre buf) s inp REG_CMD t with
    | nil =>
      rw [hst, List.prefix_nil] at hmono
      exact absurd hmono hne
    | cons v l =>
      rw [hst] at hbal
      simp at hbal
      rw [hbal.1, hbal.2.1]
      rfl
  rw [hwritten, I2c.waiting, hl.noCmd, if_neg Bool.false_ne_true, List.append_nil] at hacc
  generalize hlog : busLog s.core (i2cIn (transmit pre buf) s inp) t = log,
    hcs : consumed s.core (i2cIn (transmit pre buf) s inp) t = cs at hlegal
  have hmem : I2cTok.inp true ∉ log := by
    rw [← hlog]
    exact no_refusal h0 hack
  cases hlegal with
  | busy _ _ _ _ hs => exact absurd (hi hidle) hs
  | idle ops hops hs hp hfree =>
    rw [hcs] at hacc
    obtain ⟨x, rfl⟩ : ∃ x, ops = [x] := List.length_eq_one_iff.mp (by
      have := congrArg List.length hacc
      simpa using this.symm)
    have hc : x.1 = writeCmd := by simpa using hacc.symm
    obtain ⟨nack, body, hbody, hop⟩ := hops x (by simp)
    have hlog' : i2cLog (transmit pre buf) s inp t = x.2 := by
      rw [i2cLog, hlog]
      simp
    rw [hlog', hop, hc]
    rw [hc] at hbody
    cases hbody with
    | read rs h8 hr => exact absurd hr (by decide)
    | drained bs hw => exact ⟨bs, rfl⟩
    | nacked bs b hw =>
      refine absurd ?_ hmem
      simp [hop, byteToks]

/-- A returned write has carried its bytes exactly if the driver kept up with the engine. -/
private theorem written_iff_fed (h0 : Starts s) (hack : Acks (transmit pre buf) s inp) {rc : Int}
    (hret : i2cProg (transmit pre buf) s inp t = .ret rc) :
    Written (transmit pre buf) s inp (pre ++ buf) t ↔ Fed (transmit pre buf) s inp t := by
  obtain ⟨l, hl, hbal⟩ := write_queue h0 hack t
  constructor
  · intro hw d hdt hd
    -- nothing is loaded behind `d`, and in the end everything is
    have h1 := loads_behind_drains h0 hack hd hdt
    have h2 := loads_of_drains h0 hack hd
    have h3 := stored_bytes s inp pre buf d
    have h4 := stored_bytes s inp pre buf t
    rw [hl.empty_iff.mp hw.empty, List.append_nil, h1, h2] at hbal
    have hdone : (i2cProg (transmit pre buf) s inp t).stores REG_TXDATA = [] := by
      rw [hret]
      rfl
    rw [hdone, List.map_nil, List.append_nil, ← hbal] at h4
    rw [h4] at h3
    simpa using h3
  · intro hfed
    obtain ⟨bs, hlog⟩ := write_op h0 hack hret
    have hmem : drained ∈ i2cLog (transmit pre buf) s inp t := by
      rw [hlog]
      simp
    obtain ⟨d, hdt, hd⟩ := mem_i2cLog hmem
    have hdr := drained_mem hd
    have h2 := loads_of_drains h0 hack hdr
    have h3 := stored_bytes s inp pre buf d
    rw [hfed d hdt hdr, List.map_nil, List.append_nil, ← h2] at h3
    have h1 := loads_behind_drains h0 hack hdr hdt
    have h4 := stored_bytes s inp pre buf t
    have hdone : (i2cProg (transmit pre buf) s inp t).stores REG_TXDATA = [] := by
      rw [hret]
      rfl
    rw [hdone, List.map_nil, List.append_nil, ← hbal, h1, h3] at h4
    have hnil : l = [] := by simpa using h4
    have hbs : bs = pre ++ buf := by
      rw [← h3, ← h1, hlog]
      simp only [loads_append, loads_burst]
      simp [loads, opening, closing, writeCmd]
    refine ⟨?_, hl.empty_iff.mpr hnil⟩
    rw [hlog, hbs]
    simp only [wire, List.filter_append]
    rw [← wire, ← wire, ← wire, wire_burst]
    generalize (pre ++ buf).flatMap byteWire = ws
    change [I2cTok.start] ++ (ws ++ []) ++ [I2cTok.stop] ++ [] = .start :: ws ++ [.stop]
    simp

/-- A write returns with its transaction on the wire and an empty FIFO exactly if the engine never found the FIFO
empty while there were bytes to push. -/
theorem write_integrity (s : PortDev (I2c wt wr)) (inp : Nat → HostIn I2cPins) (addr7 reg : BitVec 8)
    (buf : List (BitVec 8)) (h0 : Starts s) :
    (Acks (i2c_write addr7 buf) s inp → ∀ t, i2cProg (i2c_write addr7 buf) s inp t = .ret I2C_OK →
      (Written (i2c_write addr7 buf) s inp (addr7 <<< 1 :: buf) t ↔ Fed (i2c_write addr7 buf) s inp t)) ∧
    (Acks (i2c_write_regs addr7 reg buf) s inp → ∀ t, i2cProg (i2c_write_regs addr7 reg buf) s inp t = .ret I2C_OK →
      (Written (i2c_write_regs addr7 reg buf) s inp (addr7 <<< 1 :: reg :: buf) t ↔
        Fed (i2c_write_regs addr7 reg buf) s inp t)) := by
  refine ⟨fun hack t hret => ?_, fun hack t hret => ?_⟩
  · rw [i2c_write_eq] at hack hret ⊢
    exact written_iff_fed h0 hack hret
  · rw [i2c_write_regs_eq] at hack hret ⊢
    exact written_iff_fed h0 hack hret

end Exact

/-! ### A pause behind the command -/

/-- An enabled engine at `CLKDIV = 0` with nothing to do. -/
def calm : PortDev (I2c 4 4) where
  core :=
    { enableQ := true, ieTxQ := false, ieRxQ := false, ieDoneQ := false, ieNackQ := false, ieArbQ := false,
      ieOvrQ := false, clkdivQ := 0, irqTxQ := false, irqRxQ := false, irqDoneQ := false, irqNackQ := false,
      irqArbQ := false, irqOvrQ := false, txEmptyDQ := true, rxNeDQ := false, tx := Fifo.reset fun _ => 0,
      rx := Fifo.reset fun _ => 0, cmdQ := ⟨false, false, false, false⟩, cmdValidQ := false, divCntQ := 0,
      eng := ⟨.idle, 0, 0, 0, false, false, false, false, false⟩ }
  busyQ := false

theorem calm_starts : Starts calm := ⟨⟨rfl, rfl, rfl, Fifo.holds_reset _⟩, rfl⟩

/-- The processor pauses in the cycles from 7 to 59, and SDA is low from 44 to 47. -/
def pausedIn (t : Nat) : HostIn I2cPins := ⟨t < 7 || 60 ≤ t, ⟨true, !(44 ≤ t && t < 48)⟩⟩

/-- A driver that has returned to an engine at rest leaves it so. -/
theorem rests_of_returned {τ : Type} {p : I2cProg τ} {wt wr : Nat} {s : PortDev (I2c wt wr)}
    {inp : Nat → HostIn I2cPins} {a : τ} {n : Nat} (hret : i2cProg p s inp n = .ret a)
    (hrest : Rests (i2cAt p s inp n)) {t : Nat} (ht : n ≤ t) :
    Rests (i2cAt p s inp t) := by
  induction t, ht using Nat.le_induction with
  | base => exact hrest
  | succ t ht ih =>
    have hnone : issued (portTarget device) ⟨p, s⟩ inp t = none := Host.issue_ret (ret_stays hret ht)
    have hin : i2cIn p s inp t = ⟨none, none, (inp t).ext⟩ := by
      rw [i2cIn, accessAt, hnone]
      rfl
    rw [i2cAt_succ, hin]
    exact ih.next _

/-- It hears no NACK and loses no arbitration any more. -/
private theorem acks_of_rests {τ : Type} {p : I2cProg τ} {wt wr : Nat} {s : PortDev (I2c wt wr)}
    {inp : Nat → HostIn I2cPins} {a : τ} (n : Nat) (hret : i2cProg p s inp n = .ret a)
    (hrest : Rests (i2cAt p s inp n)) (hbefore : ∀ t < n, (i2cAt p s inp t).evNack (i2cIn p s inp t) = false ∧
      (i2cAt p s inp t).evArb (i2cIn p s inp t) = false) : Acks p s inp := by
  refine ⟨fun t => ?_, fun t => ?_⟩
  · rcases Nat.lt_or_ge t n with ht | ht
    · exact (hbefore t ht).1
    · simp [evNack, (rests_of_returned hret hrest ht).idle]
  · rcases Nat.lt_or_ge t n with ht | ht
    · exact (hbefore t ht).2
    · simp [evArb, (rests_of_returned hret hrest ht).idle]

private theorem calm_acks : Acks (i2c_write 0x50 [0xAB]) calm pausedIn :=
  acks_of_rests 70 (a := I2C_OK) (Prog.result_eq_some.mp (by decide +kernel))
    ⟨by decide +kernel, by decide +kernel, by decide +kernel⟩ (by decide +kernel)

/-- The engine has ended the transfer behind the address byte, the data byte stays in the FIFO, and the code is
`I2C_OK`. -/
theorem write_integrity_paused :
    ¬∀ (s : PortDev (I2c 4 4)) (inp : Nat → HostIn I2cPins) (addr7 : BitVec 8) (buf : List (BitVec 8)), Starts s →
      Acks (i2c_write addr7 buf) s inp → ∀ t, i2cProg (i2c_write addr7 buf) s inp t = .ret I2C_OK →
        Written (i2c_write addr7 buf) s inp (addr7 <<< 1 :: buf) t := by
  intro h
  have hw := h calm pausedIn 0x50 [0xAB] calm_starts calm_acks 70 (Prog.result_eq_some.mp (by decide +kernel))
  have hemp : (i2cAt (i2c_write 0x50 [0xAB]) calm pausedIn 70).tx.empty = false := by decide +kernel
  exact absurd (hemp.symm.trans hw.empty) Bool.false_ne_true

/-- The processor never pauses, and SDA is low behind either byte. -/
def ackedIn (t : Nat) : HostIn I2cPins := ⟨true, ⟨true, !(44 ≤ t && t < 48) && !(80 ≤ t && t < 84)⟩⟩

/-- A byte that is fed in time is on the wire behind its address when the call returns. -/
theorem write_integrity_byte : Written (i2c_write 0x50 [0xAB]) calm ackedIn [0xA0, 0xAB] 93 := by
  have hret : i2cProg (i2c_write 0x50 [0xAB]) calm ackedIn 93 = .ret I2C_OK :=
    Prog.result_eq_some.mp (by decide +kernel)
  have hack : Acks (i2c_write 0x50 [0xAB]) calm ackedIn :=
    acks_of_rests 93 hret ⟨by decide +kernel, by decide +kernel, by decide +kernel⟩ (by decide +kernel)
  refine ((write_integrity calm ackedIn 0x50 0 [0xAB] calm_starts).1 hack 93 hret).mpr ?_
  unfold Fed
  decide +kernel

end Yarv.I2cDriver
