import Yarv.Bus.RegSlave
import Yarv.Lib.Fifo
import Yarv.Periph.Spi

/-!
# `axi4_lite_uart`

The device behind the register port: the divisor with its pending value, the two FIFOs and the two engines.  The FIFO
depths `2 ^ wt` and `2 ^ wr` are parameters, as in the source.  A TXDATA write is held while the TX FIFO is full.
-/

namespace Yarv

/-- `tx_state_e` and `rx_state_e`. -/
inductive UartState
  | idle | start | data | stop
  deriving DecidableEq, Repr, Inhabited

/-- The flops of the TX engine. -/
structure UartTx where
  stateQ : UartState
  shiftQ : Byte
  bitCntQ : BitVec 3
  txdQ : Bool
  baudCntQ : BitVec 16
  deriving DecidableEq, Repr

/-- The flops of the RX engine. -/
structure UartRx where
  stateQ : UartState
  shiftQ : Byte
  bitCntQ : BitVec 3
  cntQ : BitVec 16
  deriving DecidableEq, Repr

/-- The flops of `axi4_lite_uart` behind the bus flops. -/
structure Uart (wt wr : Nat) where
  divQ : BitVec 16
  divPendingQ : BitVec 16
  divPendingValidQ : Bool
  txIeQ : Bool
  rxIeQ : Bool
  rxOverrunQ : Bool
  tx : Fifo wt Byte
  rx : Fifo wr Byte
  txEng : UartTx
  rxEng : UartRx

namespace UartTx

variable (g : UartTx) (div : BitVec 16)

def baudTick : Bool := g.baudCntQ == div

/-- One clock edge under the divisor in force and the byte the FIFO hands over. -/
def next (pop : Option Byte) : UartTx :=
  match g.stateQ with
  | .idle =>
    match pop with
    | some b => { g with baudCntQ := 0, shiftQ := b, stateQ := .start, txdQ := false }
    | none => { g with baudCntQ := 0 }
  | .start =>
    if g.baudTick div then { g with baudCntQ := 0, stateQ := .data, bitCntQ := 0, txdQ := g.shiftQ.getLsbD 0 }
    else { g with baudCntQ := g.baudCntQ + 1 }
  | .data =>
    if g.baudTick div then
      if g.bitCntQ = 7 then { g with baudCntQ := 0, stateQ := .stop, txdQ := true }
      else
        { g with baudCntQ := 0, bitCntQ := g.bitCntQ + 1, shiftQ := g.shiftQ >>> 1, txdQ := g.shiftQ.getLsbD 1 }
    else { g with baudCntQ := g.baudCntQ + 1 }
  | .stop =>
    if g.baudTick div then { g with baudCntQ := 0, stateQ := .idle }
    else { g with baudCntQ := g.baudCntQ + 1 }

end UartTx

namespace UartRx

variable (g : UartRx) (div : BitVec 16)

/-- `rx_half_div`. -/
def halfDiv (div : BitVec 16) : BitVec 16 := div >>> 1

def frameDone : Bool := g.stateQ == .stop && g.cntQ == div

/-- `{rxd_i, rx_shift_q[7:1]}`. -/
def shiftNew (rxd : Bool) : Byte := BitVec.ofBool rxd ++ g.shiftQ.extractLsb' 1 7

/-- One clock edge under the divisor in force and the line. -/
def next (rxd : Bool) : UartRx :=
  match g.stateQ with
  | .idle => if rxd then { g with cntQ := 0 } else { g with cntQ := 0, stateQ := .start }
  | .start =>
    if g.cntQ = halfDiv div then
      if rxd then { g with cntQ := 0, stateQ := .idle }
      else { g with cntQ := 0, stateQ := .data, bitCntQ := 0 }
    else { g with cntQ := g.cntQ + 1 }
  | .data =>
    if g.cntQ = div then
      if g.bitCntQ = 7 then { g with cntQ := 0, shiftQ := g.shiftNew rxd, stateQ := .stop }
      else { g with cntQ := 0, shiftQ := g.shiftNew rxd, bitCntQ := g.bitCntQ + 1 }
    else { g with cntQ := g.cntQ + 1 }
  | .stop =>
    if g.cntQ = div then { g with cntQ := 0, stateQ := .idle }
    else { g with cntQ := g.cntQ + 1 }

end UartRx

namespace Uart

/-! ### Register offsets -/

def REG_TXDATA : BitVec 3 := 0
def REG_RXDATA : BitVec 3 := 1
def REG_STATUS : BitVec 3 := 2
def REG_CTRL : BitVec 3 := 3
def REG_BAUDDIV : BitVec 3 := 4

variable {wt wr : Nat} (q : Uart wt wr) (i : RegAccess (BitVec 3) Bool)

/-- The reset state over some FIFO storage. -/
def reset (baudDivReset : BitVec 16) (txMem : BitVec wt → Byte) (rxMem : BitVec wr → Byte) : Uart wt wr where
  divQ := baudDivReset
  divPendingQ := 0
  divPendingValidQ := false
  txIeQ := false
  rxIeQ := false
  rxOverrunQ := false
  tx := Fifo.reset txMem
  rx := Fifo.reset rxMem
  txEng := ⟨.idle, 0, 0, true, 0⟩
  rxEng := ⟨.idle, 0, 0, 0⟩

/-! ### Wires -/

def txd : Bool := q.txEng.txdQ

def txIdle : Bool := q.txEng.stateQ == .idle

def rxIdle : Bool := q.rxEng.stateQ == .idle

def txReady : Bool := !q.tx.full

def rxReady : Bool := !q.rx.empty

def txFifoPop : Bool := q.txIdle && !q.tx.empty

/-- The byte the TX engine takes over. -/
def txHead : Option Byte := if q.txFifoPop then some q.tx.head else none

/-- A pending divisor is applied once both engines are idle. -/
def divApply : Bool := q.divPendingValidQ && q.txIdle && q.rxIdle

/-- The divisor behind the edge. -/
def divD : BitVec 16 := if q.divApply then q.divPendingQ else q.divQ

def txPush : Option Byte := (i.wrAt REG_TXDATA).map fun x => x.data.setWidth 8

def rxRead : Bool := i.rd == some REG_RXDATA

def rxFifoPop : Bool := rxRead i && q.rxReady

def rxFrameDone : Bool := q.rxEng.frameDone q.divQ

def rxFifoPush : Option Byte :=
  if q.rxFrameDone && (!q.rx.full || q.rxFifoPop i) then some q.rxEng.shiftQ else none

def rxOverrunEv : Bool := q.rxFrameDone && q.rx.full && !q.rxFifoPop i

def irq : Bool := (q.txReady && q.txIeQ) || (q.rxReady && q.rxIeQ)

/-! ### The read mux -/

def status : Word := 0#29 ++ BitVec.ofBool q.rxOverrunQ ++ BitVec.ofBool q.rxReady ++ BitVec.ofBool q.txReady

def read (a : BitVec 3) : Word :=
  if a = REG_RXDATA then q.rx.head.setWidth 32
  else if a = REG_STATUS then q.status
  else if a = REG_CTRL then 0#30 ++ BitVec.ofBool q.rxIeQ ++ BitVec.ofBool q.txIeQ
  else if a = REG_BAUDDIV then q.divQ.setWidth 32
  else 0

/-! ### The clock edge -/

def next : Uart wt wr where
  divQ := q.divD
  divPendingQ := ((i.wrAt REG_BAUDDIV).map fun x => x.data.setWidth 16).getD q.divPendingQ
  divPendingValidQ := !q.divApply && (q.divPendingValidQ || (i.wrAt REG_BAUDDIV).isSome)
  txIeQ := i.ctrlBit REG_CTRL 0 q.txIeQ
  rxIeQ := i.ctrlBit REG_CTRL 1 q.rxIeQ
  rxOverrunQ := q.rxOverrunEv i || (q.rxOverrunQ && !rxRead i)
  tx := q.tx.step (txPush i) q.txFifoPop
  rx := q.rx.step (q.rxFifoPush i) (q.rxFifoPop i)
  txEng := q.txEng.next q.divQ q.txHead
  rxEng := q.rxEng.next q.divQ i.ext

/-- The device behind the port. -/
def device : RegDevice (BitVec 3) (Uart wt wr) Bool where
  sel a := a.extractLsb' 2 3
  hold q a := a == REG_TXDATA && q.tx.full
  read q _ a := q.read a
  next := next

end Uart

end Yarv
