import Yarv.Bus.RegSlave
import Yarv.Lib.Fifo
import Yarv.Lib.ShiftReg

/-!
# `axi4_lite_i2c`

The device behind the register port: the control registers, the command latch, the two FIFOs and the byte engine with
its four phases per SCL bit.  The pins are open drain: an `oe` output pulls its line low.
-/

namespace Yarv

/-- `state_e`; the two unused encodings return to idle and are never reached. -/
inductive I2cState
  | idle | start | shift | ack | stop | done
  deriving DecidableEq, Repr, Inhabited

/-- `cmd_start_q`, `cmd_stop_q`, `cmd_read_q`, `cmd_nack_q`: the fields of a CMD write. -/
structure I2cCmd where
  start : Bool
  stop : Bool
  read : Bool
  nack : Bool
  deriving DecidableEq, Repr

/-- The flops the engine block drives. -/
structure I2cEngine where
  stateQ : I2cState
  phaseQ : BitVec 2
  shiftQ : BitVec 8
  bitCntQ : BitVec 3
  readQ : Bool
  nackCmdQ : Bool
  stopAfterQ : Bool
  busActiveQ : Bool
  byteNackQ : Bool
  deriving DecidableEq, Repr

namespace I2cEngine

variable (e : I2cEngine)

/-- The pull-down of SCL. -/
def sclOe : Bool :=
  match e.stateQ with
  | .idle => e.busActiveQ
  | .start => e.phaseQ == 0 || e.phaseQ == 3
  | .shift => e.phaseQ == 0 || e.phaseQ == 3
  | .ack => e.phaseQ == 0 || e.phaseQ == 3
  | .stop => e.phaseQ == 0
  | .done => e.busActiveQ

/-- The pull-down of SDA. -/
def sdaOe : Bool :=
  match e.stateQ with
  | .idle => false
  | .start => e.phaseQ == 2 || e.phaseQ == 3
  | .shift => if e.readQ then false else !e.shiftQ.getLsbD 7
  | .ack => if e.phaseQ == 3 then false else e.readQ && !e.nackCmdQ
  | .stop => e.phaseQ == 0 || e.phaseQ == 1
  | .done => false

end I2cEngine

/-- The flops of `axi4_lite_i2c` behind the bus flops. -/
structure I2c (wt wr : Nat) where
  enableQ : Bool
  ieTxQ : Bool
  ieRxQ : Bool
  ieDoneQ : Bool
  ieNackQ : Bool
  ieArbQ : Bool
  ieOvrQ : Bool
  clkdivQ : BitVec 16
  irqTxQ : Bool
  irqRxQ : Bool
  irqDoneQ : Bool
  irqNackQ : Bool
  irqArbQ : Bool
  irqOvrQ : Bool
  txEmptyDQ : Bool
  rxNeDQ : Bool
  tx : Fifo wt (BitVec 8)
  rx : Fifo wr (BitVec 8)
  cmdQ : I2cCmd
  cmdValidQ : Bool
  divCntQ : BitVec 16
  eng : I2cEngine

/-- The synchronized pins. -/
structure I2cPins where
  scl : Bool
  sda : Bool
  deriving DecidableEq, Repr

namespace I2c

/-! ### Register offsets -/

def REG_STATUS : BitVec 3 := 0
def REG_CTRL : BitVec 3 := 1
def REG_CLKDIV : BitVec 3 := 2
def REG_CMD : BitVec 3 := 3
def REG_TXDATA : BitVec 3 := 4
def REG_RXDATA : BitVec 3 := 5
def REG_IRQ : BitVec 3 := 6

variable {wt wr : Nat} (q : I2c wt wr) (i : RegAccess (BitVec 3) I2cPins)

/-! ### Wires -/

def busy : Bool := q.eng.stateQ != .idle

def phaseTick : Bool := q.enableQ && q.eng.stateQ != .idle && q.divCntQ == 0

def evDone : Bool := q.eng.stateQ == .done

def evNack : Bool := q.eng.stateQ == .ack && q.eng.phaseQ == 2 && q.phaseTick && !q.eng.readQ && i.ext.sda

def evArb : Bool :=
  q.eng.stateQ == .shift && q.eng.phaseQ == 2 && q.phaseTick && !q.eng.readQ && !q.eng.sdaOe && !i.ext.sda

def evOvr : Bool := q.eng.stateQ == .ack && q.eng.phaseQ == 2 && q.phaseTick && q.eng.readQ && q.rx.full

def stretchHold : Bool := q.eng.phaseQ == 1 && !i.ext.scl && (q.eng.stateQ == .shift || q.eng.stateQ == .ack)

def cmdConsumeIdle : Bool := q.eng.stateQ == .idle && q.enableQ && q.cmdValidQ

def cmdConsumeAck : Bool :=
  q.phaseTick && !q.stretchHold i && q.eng.stateQ == .ack && q.eng.phaseQ == 3 && q.eng.readQ &&
    !(q.eng.stopAfterQ || q.eng.nackCmdQ) && q.cmdValidQ

def cmdConsume : Bool := q.cmdConsumeIdle || q.cmdConsumeAck i

/-- A phase ends in this cycle. -/
def go : Bool := q.phaseTick && !q.stretchHold i

def irq : Bool :=
  (q.tx.empty && q.ieTxQ) || (!q.rx.empty && q.ieRxQ) || (q.irqDoneQ && q.ieDoneQ) || (q.irqNackQ && q.ieNackQ) ||
    (q.irqArbQ && q.ieArbQ) || (q.irqOvrQ && q.ieOvrQ)

/-! ### FIFO strobes -/

/-- The engine loads the head of the TX FIFO. -/
def txLoad : Bool :=
  if q.cmdConsumeIdle then !q.cmdQ.start && !q.cmdQ.read && !q.tx.empty
  else
    q.go i && q.eng.phaseQ == 3 && !q.eng.readQ && !q.tx.empty &&
      (q.eng.stateQ == .start || (q.eng.stateQ == .ack && !q.eng.byteNackQ))

/-- A write byte was NACKed: the rest of the TX FIFO is dropped. -/
def txFlush : Bool := q.go i && q.eng.stateQ == .ack && q.eng.phaseQ == 3 && !q.eng.readQ && q.eng.byteNackQ

/-- The byte a TXDATA write pushes; a full FIFO ignores it. -/
def txPush : Option (BitVec 8) := if q.tx.full then none else (i.wrAt REG_TXDATA).map fun x => x.data.setWidth 8

/-- The read byte has its eight bits. -/
def rxByte : Bool := q.go i && q.eng.stateQ == .ack && q.eng.phaseQ == 2 && q.eng.readQ

def rxPush : Option (BitVec 8) := if q.rxByte i && !q.rx.full then some q.eng.shiftQ else none

def rxPop : Bool := i.rd == some REG_RXDATA && !q.rx.empty

/-! ### The read mux -/

def status : Word :=
  0#24 ++ BitVec.ofBool q.irqOvrQ ++ BitVec.ofBool q.irqArbQ ++ BitVec.ofBool q.irqNackQ ++ BitVec.ofBool q.rx.full ++
    BitVec.ofBool q.tx.empty ++ BitVec.ofBool q.rx.empty ++ BitVec.ofBool q.tx.full ++ BitVec.ofBool q.busy

def ctrl : Word :=
  0#25 ++ BitVec.ofBool q.ieOvrQ ++ BitVec.ofBool q.ieArbQ ++ BitVec.ofBool q.ieNackQ ++ BitVec.ofBool q.ieDoneQ ++
    BitVec.ofBool q.ieRxQ ++ BitVec.ofBool q.ieTxQ ++ BitVec.ofBool q.enableQ

def irqWord : Word :=
  0#26 ++ BitVec.ofBool q.irqOvrQ ++ BitVec.ofBool q.irqArbQ ++ BitVec.ofBool q.irqNackQ ++
    BitVec.ofBool q.irqDoneQ ++ BitVec.ofBool q.irqRxQ ++ BitVec.ofBool q.irqTxQ

def read (a : BitVec 3) : Word :=
  if a = REG_STATUS then q.status
  else if a = REG_CTRL then q.ctrl
  else if a = REG_CLKDIV then q.clkdivQ.setWidth 32
  else if a = REG_RXDATA then if q.rx.empty then 0 else q.rx.head.setWidth 32
  else if a = REG_IRQ then q.irqWord
  else 0

/-! ### The engine -/

/-- The branch `cmd_consume_idle`; a command with neither bit and nothing queued leaves the state alone. -/
def engConsume : I2cEngine :=
  let e : I2cEngine :=
    { q.eng with
      readQ := q.cmdQ.read, nackCmdQ := q.cmdQ.nack, stopAfterQ := q.cmdQ.stop, byteNackQ := false }
  if q.cmdQ.start then { e with stateQ := .start, busActiveQ := true }
  else if q.cmdQ.read || !q.tx.empty then
    { e with shiftQ := if !q.cmdQ.read && !q.tx.empty then q.tx.head else 0, bitCntQ := 7, stateQ := .shift }
  else e

/-- The next byte of a write burst. -/
def engLoad : I2cEngine :=
  { q.eng with shiftQ := q.tx.head, bitCntQ := 7, byteNackQ := false, phaseQ := 0, stateQ := .shift }

/-- The next phase of the same state. -/
def engPhase : I2cEngine := { q.eng with phaseQ := q.eng.phaseQ + 1 }

/-- Phase 0 of another state. -/
def engGoto (s : I2cState) : I2cEngine := { q.eng with phaseQ := 0, stateQ := s }

def engStart : I2cEngine :=
  if q.eng.phaseQ = 3 then
    if q.eng.readQ then { q.engGoto .shift with shiftQ := 0, bitCntQ := 7, byteNackQ := false }
    else if !q.tx.empty then q.engLoad
    else q.engGoto .stop
  else q.engPhase

def engShift : I2cEngine :=
  if q.eng.phaseQ = 2 then
    let e : I2cEngine :=
      if q.eng.readQ then { q.eng with shiftQ := ShiftReg.shiftIn q.eng.shiftQ i.ext.sda } else q.eng
    if !q.eng.readQ && !q.eng.sdaOe && !i.ext.sda then { e with busActiveQ := false, phaseQ := 0, stateQ := .done }
    else { e with phaseQ := q.eng.phaseQ + 1 }
  else if q.eng.phaseQ = 3 then
    if q.eng.bitCntQ = 0 then q.engGoto .ack
    else
      { q.eng with
        shiftQ := if q.eng.readQ then q.eng.shiftQ else ShiftReg.shiftIn q.eng.shiftQ false
        bitCntQ := q.eng.bitCntQ - 1
        phaseQ := 0 }
  else q.engPhase

def engAck : I2cEngine :=
  if q.eng.phaseQ = 2 then
    { q.engPhase with byteNackQ := if !q.eng.readQ && i.ext.sda then true else q.eng.byteNackQ }
  else if q.eng.phaseQ = 3 then
    if !q.eng.readQ then
      if q.eng.byteNackQ then q.engGoto .stop
      else if !q.tx.empty then q.engLoad
      else if q.eng.stopAfterQ then q.engGoto .stop
      else q.engGoto .done
    else if q.eng.stopAfterQ || q.eng.nackCmdQ then q.engGoto .stop
    else if q.cmdConsumeAck i then
      { q.engGoto .shift with nackCmdQ := q.cmdQ.nack, stopAfterQ := q.cmdQ.stop, bitCntQ := 7 }
    else q.engGoto .done
  else q.engPhase

def engStop : I2cEngine :=
  if q.eng.phaseQ = 3 then { q.engGoto .done with busActiveQ := false } else q.engPhase

def engNext : I2cEngine :=
  if q.cmdConsumeIdle then q.engConsume
  else if q.go i then
    match q.eng.stateQ with
    | .start => q.engStart
    | .shift => q.engShift i
    | .ack => q.engAck i
    | .stop => q.engStop
    | .done => q.engGoto .idle
    | .idle => q.eng
  else q.eng

/-! ### The clock edge -/

/-- The command of a CMD write. -/
def cmdWrite : Option I2cCmd :=
  (i.wrAt REG_CMD).map fun x => ⟨x.data.getLsbD 0, x.data.getLsbD 1, x.data.getLsbD 2, x.data.getLsbD 3⟩

def next : I2c wt wr where
  enableQ := i.ctrlBit REG_CTRL 0 q.enableQ
  ieTxQ := i.ctrlBit REG_CTRL 1 q.ieTxQ
  ieRxQ := i.ctrlBit REG_CTRL 2 q.ieRxQ
  ieDoneQ := i.ctrlBit REG_CTRL 3 q.ieDoneQ
  ieNackQ := i.ctrlBit REG_CTRL 4 q.ieNackQ
  ieArbQ := i.ctrlBit REG_CTRL 5 q.ieArbQ
  ieOvrQ := i.ctrlBit REG_CTRL 6 q.ieOvrQ
  clkdivQ := ((i.wrAt REG_CLKDIV).map fun x => x.data.setWidth 16).getD q.clkdivQ
  irqTxQ := i.sticky REG_IRQ 0 q.irqTxQ (q.tx.empty && !q.txEmptyDQ)
  irqRxQ := i.sticky REG_IRQ 1 q.irqRxQ (!q.rx.empty && !q.rxNeDQ)
  irqDoneQ := i.sticky REG_IRQ 2 q.irqDoneQ q.evDone
  irqNackQ := i.sticky REG_IRQ 3 q.irqNackQ (q.evNack i)
  irqArbQ := i.sticky REG_IRQ 4 q.irqArbQ (q.evArb i)
  irqOvrQ := i.sticky REG_IRQ 5 q.irqOvrQ q.evOvr
  txEmptyDQ := q.tx.empty
  rxNeDQ := !q.rx.empty
  tx := (if q.txFlush i then q.tx.clear else q.tx).step (q.txPush i) (q.txLoad i)
  rx := q.rx.step (q.rxPush i) (q.rxPop i)
  cmdQ := (cmdWrite i).getD q.cmdQ
  cmdValidQ := (cmdWrite i).isSome || (q.cmdValidQ && !q.cmdConsume i)
  divCntQ := if !q.enableQ || q.eng.stateQ == .idle || q.phaseTick then q.clkdivQ else q.divCntQ - 1
  eng := q.engNext i

/-- The device behind the port; no write is held. -/
def device : RegDevice (BitVec 3) (I2c wt wr) I2cPins where
  sel a := a.extractLsb' 2 3
  hold _ _ := false
  read q _ a := q.read a
  next := next

end I2c

end Yarv
