import Yarv.Periph.I2cRun
import Yarv.Sw.Port

/-!
# `i2c.h`

The polling driver of the I2C master: the primitives and the four whole transactions.  A buffer is the list of its
bytes; the reads return the bytes they pop next to their code.
-/

namespace Yarv.I2cDriver

open Driver Clocked I2c

abbrev I2cProg (τ : Type) := Prog (BitVec 3) Word τ

def I2C_STATUS_BUSY : Word := 0x01
def I2C_STATUS_TX_FULL : Word := 0x02
def I2C_STATUS_NACK : Word := 0x20
def I2C_STATUS_ARBLOST : Word := 0x40

def I2C_CMD_START : Word := 0x01
def I2C_CMD_STOP : Word := 0x02
def I2C_CMD_READ : Word := 0x04
def I2C_CMD_NACK : Word := 0x08

def I2C_IRQ_NACK : Word := 0x08
def I2C_IRQ_ARBLOST : Word := 0x10

def I2C_OK : Int := 0
def I2C_ERR_NACK : Int := -1
def I2C_ERR_ARB : Int := -2

/-! ### Primitives -/

/-- `STATUS & mask` is zero. -/
def clear (mask st : Word) : Bool := st &&& mask == 0

def i2c_wait_idle : I2cProg Unit := .poll REG_STATUS (clear I2C_STATUS_BUSY) (.ret ())

def i2c_push (b : BitVec 8) : I2cProg Unit :=
  .poll REG_STATUS (clear I2C_STATUS_TX_FULL) <|
  .store REG_TXDATA (b.setWidth 32) <|
  .ret ()

def i2c_cmd (cmd : Word) : I2cProg Unit := .store REG_CMD cmd (.ret ())

def i2c_pop : I2cProg (BitVec 8) := .load REG_RXDATA fun v => .ret ((v &&& 0xFF).setWidth 8)

/-- The code of the sticky error bits. -/
def errCode (st : Word) : Int :=
  if !clear I2C_STATUS_ARBLOST st then I2C_ERR_ARB
  else if !clear I2C_STATUS_NACK st then I2C_ERR_NACK
  else I2C_OK

def i2c_check_err : I2cProg Int := .load REG_STATUS fun st => .ret (errCode st)

def i2c_clear_err : I2cProg Unit := .store REG_IRQ (I2C_IRQ_NACK ||| I2C_IRQ_ARBLOST) (.ret ())

def i2c_stop : I2cProg Unit := do
  i2c_cmd (I2C_CMD_START ||| I2C_CMD_STOP)
  i2c_wait_idle

/-! ### Whole transactions -/

/-- The loop that feeds a buffer. -/
def pushAll : List (BitVec 8) → I2cProg Unit
  | [] => pure ()
  | b :: bs => do
    i2c_push b
    pushAll bs

def i2c_write (addr7 : BitVec 8) (buf : List (BitVec 8)) : I2cProg Int := do
  i2c_clear_err
  i2c_push (addr7 <<< 1)
  i2c_cmd (I2C_CMD_START ||| I2C_CMD_STOP)
  pushAll buf
  i2c_wait_idle
  i2c_check_err

/-- The loop that reads `n` bytes; the last one is not acknowledged and has the STOP. -/
def readAll : Nat → I2cProg (List (BitVec 8))
  | 0 => pure []
  | n + 1 => do
    i2c_cmd (I2C_CMD_READ ||| if n = 0 then I2C_CMD_NACK ||| I2C_CMD_STOP else 0)
    i2c_wait_idle
    let b ← i2c_pop
    let bs ← readAll n
    pure (b :: bs)

/-- The data phase of a read: the bytes, or the STOP where there are none. -/
def readData (len : Nat) : I2cProg (Int × List (BitVec 8)) := do
  let buf ← readAll len
  if len = 0 then i2c_stop
  let rc ← i2c_check_err
  pure (rc, buf)

def i2c_read (addr7 : BitVec 8) (len : Nat) : I2cProg (Int × List (BitVec 8)) := do
  i2c_clear_err
  i2c_push (addr7 <<< 1 ||| 1)
  i2c_cmd I2C_CMD_START
  i2c_wait_idle
  let rc ← i2c_check_err
  if rc ≠ I2C_OK then pure (rc, []) else readData len

def i2c_write_regs (addr7 reg : BitVec 8) (buf : List (BitVec 8)) : I2cProg Int := do
  i2c_clear_err
  i2c_push (addr7 <<< 1)
  i2c_push reg
  i2c_cmd (I2C_CMD_START ||| I2C_CMD_STOP)
  pushAll buf
  i2c_wait_idle
  i2c_check_err

def i2c_read_regs (addr7 reg : BitVec 8) (len : Nat) : I2cProg (Int × List (BitVec 8)) := do
  i2c_clear_err
  i2c_push (addr7 <<< 1)
  i2c_push reg
  i2c_cmd I2C_CMD_START
  i2c_wait_idle
  let rc ← i2c_check_err
  if rc ≠ I2C_OK then pure (rc, [])
  else
    i2c_push (addr7 <<< 1 ||| 1)
    i2c_cmd I2C_CMD_START
    i2c_wait_idle
    let rc ← i2c_check_err
    if rc ≠ I2C_OK then pure (rc, []) else readData len

/-! ### The STATUS bits -/

section Status

variable {wt wr : Nat} (q : I2c wt wr)

/-- What a mask selects of the eight flags. -/
private theorem clear_flags (a b c d e f g h : Bool) :
    let st := 0#24 ++ BitVec.ofBool a ++ BitVec.ofBool b ++ BitVec.ofBool c ++ BitVec.ofBool d ++ BitVec.ofBool e ++
      BitVec.ofBool f ++ BitVec.ofBool g ++ BitVec.ofBool h
    clear I2C_STATUS_BUSY st = !h ∧ clear I2C_STATUS_TX_FULL st = !g ∧ clear I2C_STATUS_NACK st = !c ∧
      clear I2C_STATUS_ARBLOST st = !b := by
  revert a b c d e f g h
  decide

theorem clear_busy : clear I2C_STATUS_BUSY q.status = !q.busy := (clear_flags _ _ _ _ _ _ _ _).1

theorem clear_full : clear I2C_STATUS_TX_FULL q.status = !q.tx.full := (clear_flags _ _ _ _ _ _ _ _).2.1

private theorem clear_nack : clear I2C_STATUS_NACK q.status = !q.irqNackQ := (clear_flags _ _ _ _ _ _ _ _).2.2.1

private theorem clear_arblost : clear I2C_STATUS_ARBLOST q.status = !q.irqArbQ := (clear_flags _ _ _ _ _ _ _ _).2.2.2

theorem errCode_status :
    errCode q.status = if q.irqArbQ then I2C_ERR_ARB else if q.irqNackQ then I2C_ERR_NACK else I2C_OK := by
  rw [errCode, clear_arblost, clear_nack, Bool.not_not, Bool.not_not]

end Status

/-! ### The accesses of a run -/

section Run

variable {wt wr : Nat} {τ : Type} (p : I2cProg τ) (s : PortDev (I2c wt wr)) (inp : Nat → HostIn I2cPins)

/-- The access of cycle `t`. -/
abbrev i2cAccess (t : Nat) : Option (Access (BitVec 3) Word) := issued (portTarget device) ⟨p, s⟩ inp t

/-- The rest of the driver before cycle `t`. -/
abbrev i2cProg (t : Nat) : I2cProg τ := progAt (portTarget device) ⟨p, s⟩ inp t

/-- The engine before cycle `t`. -/
abbrev i2cAt (t : Nat) : I2c wt wr := coreAt device ⟨p, s⟩ inp t

/-- What the engine sees in cycle `t`. -/
abbrev i2cIn (t : Nat) : RegAccess (BitVec 3) I2cPins := accessAt device ⟨p, s⟩ inp t

/-- The tokens of the cycles before `t`. -/
def i2cLog (t : Nat) : List I2cTok := busLog s.core (i2cIn p s inp) t

/-- The stores to `r` before cycle `t`. -/
def i2cStores (r : BitVec 3) (t : Nat) : List Word := storesTo r (storeLog (portTarget device) ⟨p, s⟩ inp t)

private theorem wrAt_regAccess (e : I2cPins) (a : Option (Access (BitVec 3) Word)) (r : BitVec 3) :
    (regAccess e a).wrAt r = (storeOf r a).map fun v => ⟨r, v, 0xF⟩ := by
  cases a with
  | none => rfl
  | some a =>
    cases a with
    | load r' => rfl
    | store r' v =>
      by_cases hr : r' = r
      · subst hr
        simp [regAccess, RegAccess.wrAt, storeOf]
      · simp [regAccess, RegAccess.wrAt, storeOf, hr]

variable {p s inp} {t : Nat}

theorem i2cAt_succ (t : Nat) : i2cAt p s inp (t + 1) = (i2cAt p s inp t).next (i2cIn p s inp t) := rfl

theorem i2cAt_eq (t : Nat) : i2cAt p s inp t = engineAt s.core (i2cIn p s inp) t := coreAt_eq_trace t

theorem i2cLog_succ (t : Nat) :
    i2cLog p s inp (t + 1) = i2cLog p s inp t ++ (i2cAt p s inp t).toks (i2cIn p s inp t) := by
  rw [i2cAt_eq]
  rfl

theorem i2cStores_succ (r : BitVec 3) (t : Nat) :
    i2cStores p s inp r (t + 1) = i2cStores p s inp r t ++ (storeOf r (i2cAccess p s inp t)).toList :=
  storesTo_succ r t

theorem wrAt_i2cIn (r : BitVec 3) (t : Nat) :
    (i2cIn p s inp t).wrAt r = (storeOf r (i2cAccess p s inp t)).map fun v => ⟨r, v, 0xF⟩ :=
  wrAt_regAccess _ _ r

theorem cmdWrite_i2cIn (t : Nat) :
    cmdWrite (i2cIn p s inp t) = (storeOf REG_CMD (i2cAccess p s inp t)).map fun v =>
      ⟨v.getLsbD 0, v.getLsbD 1, v.getLsbD 2, v.getLsbD 3⟩ := by
  rw [cmdWrite, wrAt_i2cIn, Option.map_map]
  rfl

theorem txPush_i2cIn (q : I2c wt wr) (t : Nat) :
    q.txPush (i2cIn p s inp t) =
      if q.tx.full then none else (storeOf REG_TXDATA (i2cAccess p s inp t)).map fun v => v.setWidth 8 := by
  rw [txPush, wrAt_i2cIn, Option.map_map]
  rfl

/-- The enable bit of a driver that leaves CTRL alone. -/
theorem enableQ_run (hen : s.core.enableQ = true) (hctrl : ∀ t v, i2cAccess p s inp t ≠ some (.store REG_CTRL v))
    (t : Nat) : (i2cAt p s inp t).enableQ = true := by
  induction t with
  | zero => exact hen
  | succ t ih =>
    have hnone : storeOf REG_CTRL (i2cAccess p s inp t) = none := by
      cases h : storeOf REG_CTRL (i2cAccess p s inp t) with
      | none => rfl
      | some v => exact absurd (storeOf_eq_some.mp h) (hctrl t v)
    rw [i2cAt_succ]
    change RegAccess.ctrlBit _ _ _ _ = _
    rw [RegAccess.ctrlBit, wrAt_i2cIn, hnone]
    exact ih

end Run

end Yarv.I2cDriver
