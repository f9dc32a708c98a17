import Yarv.Sw.I2cRound

/-!
# What a failed call leaves

The four transactions of `i2c.h`, each a sequence of the stages of its commands.  A code other than `I2C_OK` comes
from flags that are up, and behind such a command nothing is queued and both lines are released.
-/

namespace Yarv.I2cDriver

open Driver Clocked I2c

section Stages

variable {wt wr : Nat} {τ : Type} {p : I2cProg τ} {s : PortDev (I2c wt wr)} {inp : Nat → HostIn I2cPins} {t : Nat}
  {rd : Bool} {room : Nat} {l : List (BitVec 8)}

/-- The engine waits with nothing queued and does not hold the bus. -/
structure Clean (q : I2c wt wr) : Prop where
  ready : Ready q []
  free : q.eng.busActiveQ = false

private theorem Clean.released {q : I2c wt wr} (h : Clean q) : q.eng.sclOe = false ∧ q.eng.sdaOe = false := by
  refine ⟨?_, ?_⟩
  · rw [I2cEngine.sclOe, h.ready.idle]
    exact h.free
  · rw [I2cEngine.sdaOe, h.ready.idle]

/-- A cycle without a store leaves it so. -/
private theorem Clean.stay (h : Clean (i2cAt p s inp t)) (ha : ∀ r v, i2cAccess p s inp t ≠ some (.store r v)) :
    Clean (i2cAt p s inp (t + 1)) := by
  have hb := beside_quiet ha 0
  obtain ⟨hn, hbus⟩ := ready_next h.ready hb.cmd
  rw [(hb.no_push rfl).1, Option.toList_none, List.append_nil] at hn
  exact ⟨hn, hbus.trans h.free⟩

/-- Behind the return of its driver it stays so. -/
private theorem Clean.stays {a : τ} (h : Clean (i2cAt p s inp t)) (hp : i2cProg p s inp t = .ret a) {u : Nat}
    (hu : t ≤ u) :
    Clean (i2cAt p s inp u) := by
  induction u, hu using Nat.le_induction with
  | base => exact h
  | succ u hu ih =>
    have hnone : i2cAccess p s inp u = none := Host.issue_ret (ret_stays hp hu)
    exact ih.stay (by simp [hnone])

/-- The error check behind a command: no flag is up, or the failed command has left nothing. -/
private theorem stage_check (hsv : Served p s inp) {k : Int → I2cProg τ}
    (hp : i2cProg p s inp t = i2c_check_err.bind k) (h : Rested room rd (i2cAt p s inp t) l) :
    ∃ c rc, t ≤ c ∧ i2cProg p s inp c = i2c_check_err.bind k ∧ i2cProg p s inp (c + 1) = k rc ∧
      (rc = I2C_OK ∧ QuietAt p s inp l (c + 1) ∨ rc ≠ I2C_OK ∧ Clean (i2cAt p s inp (c + 1))) := by
  obtain ⟨c, a, hc, hA, hpc, hi⟩ := hsv.fair.access (A := fun x => Rested room rd (i2cAt p s inp x) l) hp
    (by simp [i2c_check_err]) h fun x _ _ hx hnone => hx.stay (by simp [i2cAccess, hnone])
  obtain ⟨rfl, hp'⟩ := of_issued_load hi hpc
  have hst : ∀ r v, i2cAccess p s inp c ≠ some (.store r v) := by simp [i2cAccess, hi]
  have hb := beside_quiet hst 0
  refine ⟨c, _, hc, hpc, hp', ?_⟩
  rw [show Driver.answer (portTarget device) ⟨p, s⟩ inp c REG_STATUS = (i2cAt p s inp c).status from rfl,
    errCode_status]
  by_cases hf : Unflagged (i2cAt p s inp c)
  · refine .inl ⟨by simp [hf.nack, hf.arb], ?_⟩
    have hq : QuietAt p s inp l c := ⟨hA.ready, hf⟩
    exact hq.stay hst
  · obtain ⟨-, hnil, hfree⟩ := hA.clean.resolve_left hf
    refine .inr ⟨?_, ?_⟩
    · cases ha : (i2cAt p s inp c).irqArbQ with
      | true => simp [I2C_ERR_ARB, I2C_OK]
      | false =>
        cases hn : (i2cAt p s inp c).irqNackQ with
        | true => simp [I2C_ERR_NACK, I2C_OK]
        | false => exact absurd ⟨hn, ha⟩ hf
    · have hcl : Clean (i2cAt p s inp c) := ⟨hnil ▸ hA.ready, hfree⟩
      exact hcl.stay hst

/-- A command that is not fed has the whole of its burst queued before it. -/
private theorem orderly_unfed (ho : AllOrderly p s inp) (x : Nat) (hx : (i2cProg p s inp x).stores REG_TXDATA = []) :
    Orderly (i2cAt p s inp x) (i2cIn p s inp x) 0 room := by
  have h := ho x
  rw [left, hx] at h
  exact ⟨fun _ => Nat.zero_le _, h.refused, h.lost⟩

/-- A command that is not fed, and the wait behind it. -/
private theorem stage_unfed (hsv : Served p s inp) (hen : ∀ x, (i2cAt p s inp x).enableQ = true)
    (ho : AllOrderly p s inp) {v : Word} {k : I2cProg τ}
    (hp : i2cProg p s inp t = .store REG_CMD v (.poll REG_STATUS (clear I2C_STATUS_BUSY) k))
    (hk : k.stores REG_TXDATA = []) (hc : v.getLsbD 0 = true ∨ v.getLsbD 2 = true) (hr : v.getLsbD 2 = true → l = [])
    (h : QuietAt p s inp l t) :
    ∃ u, t ≤ u ∧ i2cProg p s inp u = k ∧ Rested 0 (v.getLsbD 2) (i2cAt p s inp u) [] := by
  have hk' : (Prog.poll REG_STATUS (clear I2C_STATUS_BUSY) k).stores REG_TXDATA = [] := hk
  obtain ⟨c, hc', hpc, hcmd⟩ := stage_cmd hsv 0 hp h hc fun hread => ⟨by rw [hk']; rfl, hr hread⟩
  rw [hk'] at hcmd
  obtain ⟨u, l', hu, hpu, hrest⟩ := stage_wait hsv hen (orderly_unfed ho) hpc hk hcmd
  obtain rfl : l' = [] := List.length_eq_zero_iff.mp (Nat.le_zero.mp hrest.room)
  exact ⟨u, by omega, hpu, hrest⟩

/-- The START of an address phase, and the check behind it. -/
private theorem stage_address (hsv : Served p s inp) (hen : ∀ x, (i2cAt p s inp x).enableQ = true)
    (ho : AllOrderly p s inp) {bs : List (BitVec 8)} {k : Int → I2cProg τ} (hroom : l.length + bs.length ≤ 2 ^ wt)
    (hp : i2cProg p s inp t = (pushAll bs).bind fun _ => .store REG_CMD I2C_CMD_START <|
      .poll REG_STATUS (clear I2C_STATUS_BUSY) <| i2c_check_err.bind k) (h : QuietAt p s inp l t) :
    ∃ c rc, t ≤ c ∧ i2cProg p s inp c = i2c_check_err.bind k ∧ i2cProg p s inp (c + 1) = k rc ∧
      (rc = I2C_OK ∧ QuietAt p s inp [] (c + 1) ∨ rc ≠ I2C_OK ∧ Clean (i2cAt p s inp (c + 1))) := by
  obtain ⟨a, ha, hpa, hqa⟩ := stage_queue hsv hp h hroom
  obtain ⟨b, hb, hpb, hrest⟩ := stage_unfed hsv hen ho hpa rfl (.inl (by decide))
    (fun hread => absurd hread (by decide)) hqa
  obtain ⟨c, rc, hc, hpc, hpu, hout⟩ := stage_check hsv hpb hrest
  exact ⟨c, rc, by omega, hpc, hpu, hout⟩

/-- The bytes of a read. -/
private theorem stage_readAll (hsv : Served p s inp) (hen : ∀ x, (i2cAt p s inp x).enableQ = true)
    (ho : AllOrderly p s inp) {n : Nat} {k : List (BitVec 8) → I2cProg τ}
    (hp : i2cProg p s inp t = (readAll n).bind k) (h : QuietAt p s inp [] t) :
    ∃ u bs, t ≤ u ∧ i2cProg p s inp u = k bs ∧ QuietAt p s inp [] u := by
  induction n generalizing t k with
  | zero => exact ⟨t, [], le_rfl, hp, h⟩
  | succ n ih =>
    have hread : (I2C_CMD_READ ||| if n = 0 then I2C_CMD_NACK ||| I2C_CMD_STOP else 0).getLsbD 2 = true := by
      split
      · decide
      · decide
    obtain ⟨a, ha, hpa, hrest⟩ := stage_unfed hsv hen ho hp rfl (.inr hread) (fun _ => rfl) h
    rw [hread] at hrest
    -- no READ raises a flag
    obtain ⟨c, hc, hpc, -, hrc⟩ := stage_load hsv hpa hrest
    have hq : QuietAt p s inp [] (c + 1) := ⟨hrc.ready, hrc.clean.resolve_right (by simp)⟩
    have hpc' : i2cProg p s inp (c + 1) = ((readAll n).bind fun bs =>
        .ret (((i2cAt p s inp c).read REG_RXDATA &&& 0xFF).setWidth 8 :: bs)).bind k := hpc
    rw [Prog.bind_assoc] at hpc'
    obtain ⟨u, bs, hu, hpu, hqu⟩ := ih hpc' hq
    exact ⟨u, _, by omega, hpu, hqu⟩

private theorem readData_zero :
    readData 0 = .store REG_CMD (I2C_CMD_START ||| I2C_CMD_STOP) (.poll REG_STATUS (clear I2C_STATUS_BUSY)
      (i2c_check_err.bind fun rc => .ret (rc, []))) := rfl

private theorem readData_succ (n : Nat) :
    readData (n + 1) = (readAll (n + 1)).bind fun buf => i2c_check_err.bind fun rc => .ret (rc, buf) := rfl

variable (p s inp) in
/-- A call returns, and where it has returned an error code, nothing of it is left. -/
structure CleanEnd (code : τ → Int) : Prop where
  returns : ∃ t a, i2cProg p s inp t = .ret a
  clean : ∀ t a, i2cProg p s inp t = .ret a → code a ≠ I2C_OK → Clean (i2cAt p s inp t)

/-- The check that ends a call. -/
private theorem cleanEnd_of_check {code : τ → Int} {k : Int → I2cProg τ} {a : τ} {rc : Int}
    (hc : i2cProg p s inp t = i2c_check_err.bind k) (hp : i2cProg p s inp (t + 1) = .ret a) (hcode : code a = rc)
    (h : rc = I2C_OK ∧ QuietAt p s inp l (t + 1) ∨ rc ≠ I2C_OK ∧ Clean (i2cAt p s inp (t + 1))) :
    CleanEnd p s inp code := by
  refine ⟨⟨t + 1, a, hp⟩, fun u b hu hne => ?_⟩
  -- the check had still to be made in cycle `t`
  have htu : t + 1 ≤ u := by
    by_contra hlt
    have hret := ret_stays hu (show u ≤ t by omega)
    cases hc.symm.trans hret
  have hab : (.ret b : I2cProg τ) = .ret a := hu.symm.trans (ret_stays hp htu)
  rw [Prog.ret.injEq] at hab
  subst hab
  rcases h with ⟨hok, -⟩ | ⟨-, hclean⟩
  · exact absurd (hcode.trans hok) hne
  · exact hclean.stays hp htu

end Stages

/-! ### The four calls -/

section Shape

variable {τ : Type}

/-- The address phase of a read. -/
def addressed (bs : List (BitVec 8)) (k : Int → I2cProg τ) : I2cProg τ :=
  (pushAll bs).bind fun _ => .store REG_CMD I2C_CMD_START <| .poll REG_STATUS (clear I2C_STATUS_BUSY) <|
    i2c_check_err.bind k

/-- What follows an address phase. -/
def unlessErr (k : I2cProg (Int × List (BitVec 8))) (rc : Int) : I2cProg (Int × List (BitVec 8)) :=
  if rc ≠ I2C_OK then .ret (rc, []) else k

private theorem i2c_read_eq (addr7 : BitVec 8) (len : Nat) :
    i2c_read addr7 len = .store REG_IRQ (I2C_IRQ_NACK ||| I2C_IRQ_ARBLOST)
      (addressed [addr7 <<< 1 ||| 1] (unlessErr (readData len))) := rfl

private theorem i2c_read_regs_eq (addr7 reg : BitVec 8) (len : Nat) :
    i2c_read_regs addr7 reg len = .store REG_IRQ (I2C_IRQ_NACK ||| I2C_IRQ_ARBLOST)
      (addressed [addr7 <<< 1, reg] (unlessErr (addressed [addr7 <<< 1 ||| 1] (unlessErr (readData len))))) := rfl

/-- A store of a transaction. -/
def CallStore (r : BitVec 3) (_ : Word) : Prop := r ≠ REG_CTRL

private theorem callStore (v : Word) : CallStore REG_IRQ v ∧ CallStore REG_TXDATA v ∧ CallStore REG_CMD v := by
  unfold CallStore
  decide

private theorem all_check {k : Int → I2cProg τ} (hk : ∀ rc, (k rc).All CallStore) :
    (i2c_check_err.bind k).All CallStore := fun _ => hk _

private theorem all_addressed {k : Int → I2cProg τ} (hk : ∀ rc, (k rc).All CallStore) (bs : List (BitVec 8)) :
    (addressed bs k).All CallStore := by
  refine all_pushAll (fun v => (callStore v).2.1) ?_ bs
  exact ⟨(callStore _).2.2, all_check hk⟩

private theorem all_unlessErr {k : I2cProg (Int × List (BitVec 8))} (hk : k.All CallStore) (rc : Int) :
    (unlessErr k rc).All CallStore := by
  rw [unlessErr]
  split
  · trivial
  · exact hk

private theorem all_readAll {k : List (BitVec 8) → I2cProg τ} (hk : ∀ bs, (k bs).All CallStore) (n : Nat) :
    ((readAll n).bind k).All CallStore := by
  induction n generalizing k with
  | zero => exact hk []
  | succ n ih =>
    refine ⟨(callStore _).2.2, fun v => ?_⟩
    change (((readAll n).bind fun bs => .ret ((v &&& 0xFF).setWidth 8 :: bs)).bind k).All CallStore
    rw [Prog.bind_assoc]
    exact ih fun bs => hk _

private theorem all_readData (len : Nat) : (readData len).All CallStore := by
  cases len with
  | zero => exact ⟨(callStore _).2.2, all_check (k := fun rc => .ret (rc, [])) fun _ => trivial⟩
  | succ n =>
    rw [readData_succ]
    exact all_readAll (fun bs => all_check (k := fun rc => .ret (rc, bs)) fun _ => trivial) (n + 1)

private theorem all_read (addr7 : BitVec 8) (len : Nat) : (i2c_read addr7 len).All CallStore := by
  rw [i2c_read_eq]
  exact ⟨(callStore _).1, all_addressed (all_unlessErr (all_readData len)) _⟩

private theorem all_read_regs (addr7 reg : BitVec 8) (len : Nat) : (i2c_read_regs addr7 reg len).All CallStore := by
  rw [i2c_read_regs_eq]
  exact ⟨(callStore _).1, all_addressed (all_unlessErr (all_addressed (all_unlessErr (all_readData len)) _)) _⟩

end Shape

section Calls

variable {wt wr : Nat} {s : PortDev (I2c wt wr)} {inp : Nat → HostIn I2cPins} {t : Nat}

variable (inp) in
private theorem call_enabled {τ : Type} {p : I2cProg τ} (hall : p.All CallStore)
    (hen : s.core.enableQ = true) (x : Nat) :
    (i2cAt p s inp x).enableQ = true :=
  enableQ_run hen (fun _ _ hi => stored_of_all (h := ⟨p, s⟩) hall hi rfl) x

private theorem cleanEnd_readData {p : I2cProg (Int × List (BitVec 8))} (hsv : Served p s inp)
    (hen : ∀ x, (i2cAt p s inp x).enableQ = true) (ho : AllOrderly p s inp) {len : Nat}
    (hp : i2cProg p s inp t = readData len) (h : QuietAt p s inp [] t) : CleanEnd p s inp Prod.fst := by
  cases len with
  | zero =>
    rw [readData_zero] at hp
    obtain ⟨a, -, hpa, hrest⟩ := stage_unfed hsv hen ho hp rfl (.inl (by decide)) (fun _ => rfl) h
    obtain ⟨c, rc, -, hpc, hpu, hout⟩ := stage_check hsv hpa hrest
    exact cleanEnd_of_check hpc hpu rfl hout
  | succ n =>
    rw [readData_succ] at hp
    obtain ⟨a, bs, -, hpa, hq⟩ := stage_readAll hsv hen ho hp h
    have hrest : Rested 0 false (i2cAt p s inp a) [] := ⟨hq.ready, le_rfl, .inl hq.flags⟩
    obtain ⟨c, rc, -, hpc, hpu, hout⟩ := stage_check hsv hpa hrest
    exact cleanEnd_of_check hpc hpu rfl hout

/-- An address phase ends the call, or the read goes on behind it. -/
private theorem cleanEnd_addressed {p : I2cProg (Int × List (BitVec 8))} (hsv : Served p s inp)
    (hen : ∀ x, (i2cAt p s inp x).enableQ = true) (ho : AllOrderly p s inp) {bs l : List (BitVec 8)}
    {k : I2cProg (Int × List (BitVec 8))} (hroom : l.length + bs.length ≤ 2 ^ wt)
    (hp : i2cProg p s inp t = addressed bs (unlessErr k)) (h : QuietAt p s inp l t)
    (hk : ∀ u, i2cProg p s inp u = k → QuietAt p s inp [] u → CleanEnd p s inp Prod.fst) :
    CleanEnd p s inp Prod.fst := by
  obtain ⟨c, rc, -, hpc, hpu, hout⟩ := stage_address hsv hen ho hroom hp h
  rw [unlessErr] at hpu
  by_cases hrc : rc = I2C_OK
  · rw [if_neg (not_not.mpr hrc)] at hpu
    rcases hout with ⟨-, hq⟩ | ⟨hne, -⟩
    · exact hk _ hpu hq
    · exact absurd hrc hne
  · rw [if_pos hrc] at hpu
    exact cleanEnd_of_check hpc hpu rfl hout

variable {l : List (BitVec 8)}

private theorem cleanEnd_read (addr7 : BitVec 8) (len : Nat) (h0 : Ready s.core l) (hen : s.core.enableQ = true)
    (hroom : l.length + 1 ≤ 2 ^ wt) (hsv : Served (i2c_read addr7 len) s inp)
    (ho : AllOrderly (i2c_read addr7 len) s inp) : CleanEnd (i2c_read addr7 len) s inp Prod.fst := by
  have hen' := call_enabled inp (all_read addr7 len) hen
  obtain ⟨a, -, hpa, hq⟩ := stage_clear hsv (t := 0) (i2c_read_eq addr7 len) h0
  exact cleanEnd_addressed hsv hen' ho hroom hpa hq fun _ hpu hqu => cleanEnd_readData hsv hen' ho hpu hqu

private theorem cleanEnd_read_regs (addr7 reg : BitVec 8) (len : Nat) (h0 : Ready s.core l)
    (hen : s.core.enableQ = true) (hroom : l.length + 2 ≤ 2 ^ wt) (hsv : Served (i2c_read_regs addr7 reg len) s inp)
    (ho : AllOrderly (i2c_read_regs addr7 reg len) s inp) :
    CleanEnd (i2c_read_regs addr7 reg len) s inp Prod.fst := by
  have hen' := call_enabled inp (all_read_regs addr7 reg len) hen
  obtain ⟨a, -, hpa, hq⟩ := stage_clear hsv (t := 0) (i2c_read_regs_eq addr7 reg len) h0
  exact cleanEnd_addressed hsv hen' ho hroom hpa hq fun _ hpb hqb =>
    cleanEnd_addressed hsv hen' ho Nat.one_le_two_pow hpb hqb fun _ hpu hqu => cleanEnd_readData hsv hen' ho hpu hqu

private theorem all_callStore_transmit (pre buf : List (BitVec 8)) : (transmit pre buf).All CallStore := by
  have hpush : ∀ v, CallStore REG_TXDATA v := fun v => (callStore v).2.1
  have hbuf := all_pushAll (k := fun _ => finishWrite) hpush (fun _ => trivial) buf
  exact ⟨(callStore _).1, all_pushAll (k := fun _ => .store REG_CMD _ _) hpush ⟨(callStore _).2.2, hbuf⟩ pre⟩

private theorem cleanEnd_transmit {pre buf : List (BitVec 8)} (h0 : Ready s.core l) (hen : s.core.enableQ = true)
    (hroom : l.length + pre.length ≤ 2 ^ wt) (hsv : Served (transmit pre buf) s inp)
    (ho : AllOrderly (transmit pre buf) s inp) : CleanEnd (transmit pre buf) s inp id := by
  have hen' := call_enabled inp (all_callStore_transmit pre buf) hen
  obtain ⟨a, -, hpa, hq⟩ := stage_clear hsv (t := 0) (transmit_eq pre buf) h0
  obtain ⟨b, -, hpb, hqb⟩ := stage_queue hsv hpa hq hroom
  have hstores : ((pushAll buf).bind fun _ => finishWrite).stores REG_TXDATA = buf.map (·.setWidth 32) := by
    rw [stores_pushAll, if_pos rfl]
    exact List.append_nil _
  obtain ⟨c, -, hpc, hcmd⟩ := stage_cmd hsv (2 ^ wt) hpb hqb (.inl (by decide))
    fun hread => absurd hread (by decide)
  rw [hstores, List.length_map] at hcmd
  obtain ⟨d, -, hpd, hdone⟩ := stage_feed hsv hen' ho hpc rfl hcmd
  obtain ⟨e, l', -, hpe, hrest⟩ := stage_wait hsv hen' (orderly_unfed ho) hpd rfl hdone
  obtain ⟨f, rc, -, hpf, hpu, hout⟩ := stage_check (k := .ret) hsv (hpe.trans (Prog.bind_ret _).symm) hrest
  exact cleanEnd_of_check hpf hpu rfl hout

end Calls

/-! ### The next call -/

section Next

variable {wt wr : Nat} {q : I2c wt wr} {i : RegAccess (BitVec 3) I2cPins}

/-- A command keeps its direction. -/
private theorem readQ_kept (hi : q.cmdConsumeIdle = false) : (q.engNext i).readQ = q.eng.readQ := by
  rw [engNext, hi, if_neg Bool.false_ne_true]
  split
  · split
    · rw [engStart]
      split_ifs <;> rfl
    · rw [engShift]
      split_ifs <;> rfl
    · rw [engAck]
      split_ifs <;> rfl
    · rw [engStop]
      split_ifs <;> rfl
    · rfl
    · rfl
  · rfl

/-- The engine is not in a burst. -/
def NoBurst (q : I2c wt wr) : Prop := q.eng.stateQ = .shift ∨ q.eng.stateQ = .ack → q.eng.readQ = true

/-- A queue that is not empty starts its burst with a load. -/
private theorem NoBurst.next (h : NoBurst q) (hne : q.tx.empty = false) (hload : q.txLoad i = false) :
    NoBurst (q.next i) := by
  intro hs
  change (q.engNext i).stateQ = _ ∨ (q.engNext i).stateQ = _ at hs
  change (q.engNext i).readQ = true
  cases hi : q.cmdConsumeIdle with
  | true =>
    have he : q.engNext i = q.engConsume := by simp [engNext, hi]
    rw [he, engConsume] at hs ⊢
    cases hst : q.cmdQ.start with
    | true => simp [hst] at hs
    | false =>
      cases hr : q.cmdQ.read with
      | true => simp
      | false => simp [txLoad, hi, hst, hr, hne] at hload
  | false =>
    rw [readQ_kept hi]
    by_cases hb : q.eng.stateQ = .shift ∨ q.eng.stateQ = .ack
    · exact h hb
    · cases hg : q.go i with
      | false => 
        rw [engNext, hi, hg] at hs
        exact absurd hs hb
      | true =>
        rw [engNext, hi, hg, if_neg Bool.false_ne_true, if_pos rfl] at hs
        cases hst : q.eng.stateQ with
        | shift => exact absurd (.inl hst) hb
        | ack => exact absurd (.inr hst) hb
        | idle => simp [hst] at hs
        | done => simp [hst, engGoto] at hs
        | stop =>
          simp only [hst, engStop] at hs
          split at hs
          · simp [engGoto] at hs
          · simp [engPhase, hst] at hs
        | start =>
          -- the load of a START that writes has been ruled out
          by_contra hr
          rw [Bool.not_eq_true] at hr
          have hp : q.eng.phaseQ ≠ 3#2 := fun hp => by simp [txLoad, hi, hg, hp, hr, hne, hst] at hload
          simp [hst, engStart, hp, engPhase] at hs

end Next

section FirstByte

variable {wt wr : Nat} {τ : Type} {p : I2cProg τ} {s : PortDev (I2c wt wr)} {inp : Nat → HostIn I2cPins} {t : Nat}
  {b : BitVec 8} {k : I2cProg τ}

/-- A call that opens with `b` and has not pushed it yet. -/
inductive Unpushed (b : BitVec 8) (k : I2cProg τ) : I2cProg τ → Prop
  | clear : Unpushed b k (i2c_clear_err.bind fun _ => (i2c_push b).bind fun _ => k)
  | wait : Unpushed b k ((i2c_push b).bind fun _ => k)
  | push : Unpushed b k (.store REG_TXDATA (b.setWidth 32) k)

variable (p s inp) in
/-- The bytes a call has loaded, if it opens with `b`: none while `b` is not pushed or at the head of the queue, and
then `b` first. -/
inductive OpensWith (b : BitVec 8) (k : I2cProg τ) (t : Nat) : Prop
  | unpushed (hp : Unpushed b k (i2cProg p s inp t)) (hq : Ready (i2cAt p s inp t) [])
    (hl : loads (i2cLog p s inp t) = [])
  | queued (hq : NoBurst (i2cAt p s inp t)) (ht : ∃ l, (i2cAt p s inp t).tx.Holds (b :: l))
    (hl : loads (i2cLog p s inp t) = [])
  | loaded (hl : (loads (i2cLog p s inp t)).head? = some b)

/-- Before the push no store reaches the engine but that of `i2c_clear_err`. -/
private theorem Unpushed.next (hp : Unpushed b k (i2cProg p s inp t)) (hq : Ready (i2cAt p s inp t) [])
    (hl : loads (i2cLog p s inp (t + 1)) = []) : OpensWith p s inp b k (t + 1) := by
  have hroom : (i2cAt p s inp t).tx.full = false := by
    rw [← Bool.not_eq_true, hq.tx.full_iff]
    exact (Nat.two_pow_pos wt).ne
  cases hi : i2cAccess p s inp t with
  | none =>
    have hb := beside_idle hi 0
    have hn := (ready_next hq hb.cmd).1
    rw [(hb.no_push rfl).1] at hn
    have hp' : i2cProg p s inp (t + 1) = i2cProg p s inp t := progAt_of_none hi
    exact .unpushed (by rwa [hp']) hn hl
  | some a =>
    generalize hx : i2cProg p s inp t = x at hp
    cases hp with
    | clear =>
      obtain ⟨rfl, hp'⟩ := of_issued_store hi hx
      have hcmd : cmdWrite (i2cIn p s inp t) = none := by
        rw [cmdWrite_i2cIn, hi]
        rfl
      have hpush : (i2cAt p s inp t).txPush (i2cIn p s inp t) = none := by
        rw [txPush_i2cIn, hi]
        simp [storeOf, show REG_IRQ ≠ REG_TXDATA by decide]
      have hn := (ready_next hq hcmd).1
      rw [hpush] at hn
      refine .unpushed ?_ hn hl
      change Unpushed b k (progAt _ _ _ _)
      rw [hp']
      exact .wait
    | wait =>
      obtain ⟨rfl, hp'⟩ := of_issued_poll hi hx
      have hb := beside_load hi 0
      have hn := (ready_next hq hb.cmd).1
      rw [(hb.no_push rfl).1] at hn
      refine .unpushed ?_ hn hl
      change Unpushed b k (progAt _ _ _ _)
      rw [hp']
      split
      · exact .push
      · exact .wait
    | push =>
      obtain ⟨rfl, -⟩ := of_issued_store hi hx
      have hn := (ready_next hq (beside_push hi hroom 0).cmd).1
      rw [push_room hi hroom, Option.toList_some, BitVec.setWidth_setWidth_of_le b (by omega), BitVec.setWidth_eq]
        at hn
      refine .queued (fun hs => ?_) ⟨[], hn.tx⟩ hl
      rcases hs with hs | hs
      · exact absurd (hn.idle.symm.trans hs) (by decide)
      · exact absurd (hn.idle.symm.trans hs) (by decide)

private theorem OpensWith.next (h : OpensWith p s inp b k t) : OpensWith p s inp b k (t + 1) := by
  have hlog : loads (i2cLog p s inp (t + 1)) = loads (i2cLog p s inp t) ++
      if (i2cAt p s inp t).txLoad (i2cIn p s inp t) then [(i2cAt p s inp t).tx.head] else [] := by
    rw [i2cLog_succ, loads_append, loads_toks]
  cases h with
  | unpushed hp hq hl =>
    have hlv : Leaving (i2cAt p s inp t) := ⟨.inr (.inr hq.idle), hq.noCmd⟩
    refine hp.next hq ?_
    rw [hlog, hl, hlv.no_load]
    rfl
  | queued hq ht hl =>
    obtain ⟨l, hl'⟩ := ht
    have hhead : (i2cAt p s inp t).tx.head = b := hl'.head (Nat.succ_pos _)
    have hne : (i2cAt p s inp t).tx.empty = false := by
      rw [← Bool.not_eq_true, hl'.empty_iff]
      simp
    cases hload : (i2cAt p s inp t).txLoad (i2cIn p s inp t) with
    | true =>
      refine .loaded ?_
      rw [hlog, hl, hload, hhead]
      rfl
    | false =>
      have hflush : (i2cAt p s inp t).txFlush (i2cIn p s inp t) = false := by
        by_cases hs : (i2cAt p s inp t).eng.stateQ = .ack
        · simp [txFlush, hq (.inr hs)]
        · simp [txFlush, hs]
      refine .queued (hq.next hne hload) ⟨_, queue_kept hl' hload hflush⟩ ?_
      rw [hlog, hl, hload]
      rfl
  | loaded hl =>
    refine .loaded ?_
    rw [hlog, List.head?_append, hl]
    rfl

/-- The first byte that a call loads is its own first byte, if it finds nothing queued. -/
private theorem first_byte (h0 : Ready s.core [])
    (hp : p = i2c_clear_err.bind fun _ => (i2c_push b).bind fun _ => k) (t : Nat) :
    ∀ x ∈ (loads (i2cLog p s inp t)).head?, x = b := by
  have hrun : OpensWith p s inp b k t := by
    induction t with
    | zero => exact .unpushed (by rw [show i2cProg p s inp 0 = p from rfl, hp]; exact .clear) h0 rfl
    | succ t ih => exact ih.next
  intro x hx
  cases hrun with
  | unpushed hp hq hl => simp [hl] at hx
  | queued hq ht hl => simp [hl] at hx
  | loaded hl =>
    rw [hl] at hx
    exact (Option.some.inj hx).symm

end FirstByte

/-! ### What an error code promises -/

/-- The call clears the error flags and pushes `b` before anything else. -/
def Opens {τ : Type} (b : BitVec 8) (c : I2cProg τ) : Prop :=
  ∃ k, c = i2c_clear_err.bind fun _ => (i2c_push b).bind fun _ => k

/-- Every transaction opens with its address byte. -/
private theorem opens_calls (addr7 reg : BitVec 8) (buf : List (BitVec 8)) (len : Nat) :
    Opens (addr7 <<< 1) (i2c_write addr7 buf) ∧ Opens (addr7 <<< 1) (i2c_write_regs addr7 reg buf) ∧
      Opens (addr7 <<< 1 ||| 1) (i2c_read addr7 len) ∧ Opens (addr7 <<< 1) (i2c_read_regs addr7 reg len) :=
  ⟨⟨_, rfl⟩, ⟨_, rfl⟩, ⟨_, rfl⟩, ⟨_, rfl⟩⟩

section Failure

variable {wt wr : Nat} {τ : Type}

/-- The first byte that a call begun in cycle `t` loads is `b`. -/
def LoadsFirst {υ : Type} (p : I2cProg τ) (s : PortDev (I2c wt wr)) (inp : Nat → HostIn I2cPins) (t : Nat)
    (b : BitVec 8) (c : I2cProg υ) : Prop := ∀ (inp' : Nat → HostIn I2cPins) (u : Nat),
    ∀ x ∈ (loads (i2cLog c (devAt (portTarget device) ⟨p, s⟩ inp t) inp' u)).head?, x = b

/-- Nothing of the call is left in cycle `t`: the engine is idle, both lines are released, the TX FIFO is empty, and
the first byte that the next call loads, whenever it comes, is the one it opens with. -/
structure NothingLeft (p : I2cProg τ) (s : PortDev (I2c wt wr)) (inp : Nat → HostIn I2cPins) (t : Nat) : Prop where
  idle : (i2cAt p s inp t).busy = false
  released : (i2cAt p s inp t).eng.sclOe = false ∧ (i2cAt p s inp t).eng.sdaOe = false
  empty : (i2cAt p s inp t).tx.empty = true
  next : ∀ (υ : Type) (c : I2cProg υ) (b : BitVec 8), Opens b c → LoadsFirst p s inp t b c
  /-- The calls of the driver open with the address. -/
  calls : ∀ (addr7 reg : BitVec 8) (buf : List (BitVec 8)) (len : Nat),
    LoadsFirst p s inp t (addr7 <<< 1) (i2c_write addr7 buf) ∧
      LoadsFirst p s inp t (addr7 <<< 1) (i2c_write_regs addr7 reg buf) ∧
      LoadsFirst p s inp t (addr7 <<< 1 ||| 1) (i2c_read addr7 len) ∧
      LoadsFirst p s inp t (addr7 <<< 1) (i2c_read_regs addr7 reg len)

/-- The call returns, and an error code says that nothing of it is left. -/
structure LeavesNothing (code : τ → Int) (p : I2cProg τ) (s : PortDev (I2c wt wr)) (inp : Nat → HostIn I2cPins) :
    Prop where
  returns : ∃ t a, i2cProg p s inp t = .ret a
  clean : ∀ t a, i2cProg p s inp t = .ret a → code a ≠ I2C_OK → NothingLeft p s inp t

variable {p : I2cProg τ} {s : PortDev (I2c wt wr)} {inp : Nat → HostIn I2cPins} {t : Nat}

private theorem Clean.nothingLeft (h : Clean (i2cAt p s inp t)) : NothingLeft p s inp t := by
  have hnext : ∀ {υ : Type} {c : I2cProg υ} {b : BitVec 8}, Opens b c → LoadsFirst p s inp t b c :=
    fun ⟨_, hc⟩ _ u => first_byte h.ready hc u
  refine ⟨?_, h.released, h.ready.tx.empty_iff.mpr rfl, fun _ _ _ => hnext, fun addr7 reg buf len => ?_⟩
  · rw [busy, h.ready.idle]
    rfl
  · obtain ⟨hwrite, hregs, hread, hreadRegs⟩ := opens_calls addr7 reg buf len
    exact ⟨hnext hwrite, hnext hregs, hnext hread, hnext hreadRegs⟩

private theorem CleanEnd.leavesNothing {code : τ → Int} (h : CleanEnd p s inp code) : LeavesNothing code p s inp :=
  ⟨h.returns, fun t a hp hne => (h.clean t a hp hne).nothingLeft⟩

/-- A call on an idle engine with room for its address bytes returns, and an error code says that nothing of it is
left, if no burst of it ends too early for what the driver has still to push. -/
theorem failure_leaves_nothing (s : PortDev (I2c wt wr)) (inp : Nat → HostIn I2cPins) (addr7 reg : BitVec 8)
    (buf : List (BitVec 8)) (len : Nat) (l : List (BitVec 8)) (h0 : Ready s.core l) (hen : s.core.enableQ = true)
    (hroom : l.length + 2 ≤ 2 ^ wt) :
    (Served (i2c_write addr7 buf) s inp → AllOrderly (i2c_write addr7 buf) s inp →
      LeavesNothing id (i2c_write addr7 buf) s inp) ∧
    (Served (i2c_write_regs addr7 reg buf) s inp → AllOrderly (i2c_write_regs addr7 reg buf) s inp →
      LeavesNothing id (i2c_write_regs addr7 reg buf) s inp) ∧
    (Served (i2c_read addr7 len) s inp → AllOrderly (i2c_read addr7 len) s inp →
      LeavesNothing Prod.fst (i2c_read addr7 len) s inp) ∧
    (Served (i2c_read_regs addr7 reg len) s inp → AllOrderly (i2c_read_regs addr7 reg len) s inp →
      LeavesNothing Prod.fst (i2c_read_regs addr7 reg len) s inp) := by
  refine ⟨fun hsv ho => ?_, fun hsv ho => ?_, fun hsv ho => ?_, fun hsv ho => ?_⟩
  · rw [i2c_write_eq] at hsv ho ⊢
    exact (cleanEnd_transmit h0 hen (by simp; omega) hsv ho).leavesNothing
  · rw [i2c_write_regs_eq] at hsv ho ⊢
    exact (cleanEnd_transmit h0 hen (by simpa using hroom) hsv ho).leavesNothing
  · exact (cleanEnd_read addr7 len h0 hen (by omega) hsv ho).leavesNothing
  · exact (cleanEnd_read_regs addr7 reg len h0 hen hroom hsv ho).leavesNothing

end Failure

/-! ### Nobody answers -/

/-- No slave is on the bus, and the processor never pauses. -/
def deafIn (_ : Nat) : HostIn I2cPins := ⟨true, ⟨true, true⟩⟩

private theorem deaf_served {τ : Type} (p : I2cProg τ) : Served p calm deafIn := by
  have hscl : ∀ t, (i2cIn p calm deafIn t).ext.scl = true := by
    intro t
    rw [i2cIn, accessAt]
    cases issued (portTarget device) ⟨p, calm⟩ deafIn t with
    | none => rfl
    | some a =>
      cases a with
      | load r => rfl
      | store r v => rfl
  exact ⟨fun t => ⟨t, le_rfl, rfl⟩, fun t _ => ⟨t, le_rfl, fun v _ => hscl v⟩⟩

/-- An orderly call, once it has returned, stays one. -/
private theorem orderly_of_rests {τ : Type} {p : I2cProg τ} {wt wr : Nat} {s : PortDev (I2c wt wr)}
    {inp : Nat → HostIn I2cPins} {a : τ} (n : Nat) (hret : i2cProg p s inp n = .ret a)
    (hrest : Rests (i2cAt p s inp n))
    (hbefore : ∀ t < n, Orderly (i2cAt p s inp t) (i2cIn p s inp t) (left p s inp t) (2 ^ wt)) :
    AllOrderly p s inp := by
  intro t
  rcases Nat.lt_or_ge t n with ht | ht
  · exact hbefore t ht
  · have hidle := (rests_of_returned hret hrest ht).idle
    exact ⟨fun hx => by simp [drains, hidle] at hx, fun hx => by simp [txFlush, hidle] at hx,
      fun hx => by simp [evArb, hidle] at hx⟩

/-- Of twenty bytes sixteen are flushed behind the refused address; the rest is pushed behind the flush, and the code
is `I2C_ERR_NACK`. -/
theorem failure_leaves_nothing_deaf :
    ¬∀ (s : PortDev (I2c 4 4)) (inp : Nat → HostIn I2cPins) (addr7 : BitVec 8) (buf : List (BitVec 8)), Starts s →
      Served (i2c_write addr7 buf) s inp → LeavesNothing id (i2c_write addr7 buf) s inp := by
  intro h
  have hrun := h calm deafIn 0x50 (List.replicate 20 0xAB) calm_starts (deaf_served _)
  have hleft := hrun.clean 91 I2C_ERR_NACK (Prog.result_eq_some.mp (by decide +kernel)) (by decide)
  have hemp : (i2cAt (i2c_write 0x50 (List.replicate 20 0xAB)) calm deafIn 91).tx.empty = false := by decide +kernel
  exact absurd (hemp.symm.trans hleft.empty) Bool.false_ne_true

/-- One byte is flushed behind the refused address. -/
theorem failure_leaves_nothing_byte :
    LeavesNothing id (i2c_write 0x50 [0xAB]) calm deafIn ∧
      i2cProg (i2c_write 0x50 [0xAB]) calm deafIn 57 = .ret I2C_ERR_NACK ∧
      NothingLeft (i2c_write 0x50 [0xAB]) calm deafIn 57 := by
  have hret : i2cProg (i2c_write 0x50 [0xAB]) calm deafIn 57 = .ret I2C_ERR_NACK :=
    Prog.result_eq_some.mp (by decide +kernel)
  have hall : ∀ t < 57,
      ((i2cAt (i2c_write 0x50 [0xAB]) calm deafIn t).drains (i2cIn (i2c_write 0x50 [0xAB]) calm deafIn t) = true →
        left (i2c_write 0x50 [0xAB]) calm deafIn t ≤ 2 ^ 4) ∧
      ((i2cAt (i2c_write 0x50 [0xAB]) calm deafIn t).txFlush (i2cIn (i2c_write 0x50 [0xAB]) calm deafIn t) = true →
        left (i2c_write 0x50 [0xAB]) calm deafIn t = 0) ∧
      (i2cAt (i2c_write 0x50 [0xAB]) calm deafIn t).evArb (i2cIn (i2c_write 0x50 [0xAB]) calm deafIn t) = false := by
    decide +kernel
  have horderly : AllOrderly (i2c_write 0x50 [0xAB]) calm deafIn := by
    refine orderly_of_rests 57 hret ⟨by decide +kernel, by decide +kernel, by decide +kernel⟩ fun t ht => ?_
    obtain ⟨h1, h2, h3⟩ := hall t ht
    exact ⟨h1, h2, fun hx => absurd (h3.symm.trans hx) Bool.false_ne_true⟩
  have hleaves : LeavesNothing id (i2c_write 0x50 [0xAB]) calm deafIn :=
    (failure_leaves_nothing calm deafIn 0x50 0 [0xAB] 0 [] calm_starts.ready rfl (by decide)).1
      (deaf_served _) horderly
  exact ⟨hleaves, hret, hleaves.clean 57 _ hret (by decide)⟩

end Yarv.I2cDriver
