import Yarv.Bus.RegSlave
import Yarv.Lib.Fifo
import Yarv.Lib.ShiftReg

/-!
# `axi4_lite_spi`

The device behind the register port: the control registers, the two FIFOs, the SCK generator and the shift engine.
The FIFO depths `2 ^ wt` and `2 ^ wr` are parameters, as in the source.
-/

namespace Yarv

abbrev Byte := BitVec 8

/-- `state_e`. -/
inductive SpiState
  | idle | shift | done
  deriving DecidableEq, Repr, Inhabited

/-- The flops of `axi4_lite_spi` behind the bus flops. -/
structure Spi (wt wr : Nat) where
  enableQ : Bool
  cpolQ : Bool
  cphaQ : Bool
  ieTxQ : Bool
  ieRxQ : Bool
  ieDoneQ : Bool
  ieOvrQ : Bool
  clkdivQ : BitVec 16
  csNQ : Bool
  irqTxQ : Bool
  irqRxQ : Bool
  irqDoneQ : Bool
  irqOvrQ : Bool
  txEmptyDQ : Bool
  rxNeDQ : Bool
  tx : Fifo wt Byte
  rx : Fifo wr Byte
  stateQ : SpiState
  shiftQ : Byte
  rxQ : Byte
  bitCntQ : BitVec 3
  firstEdgeQ : Bool
  divCntQ : BitVec 16
  sckQ : Bool

namespace Spi

/-! ### Register offsets -/

def REG_STATUS : BitVec 3 := 0
def REG_CTRL : BitVec 3 := 1
def REG_CLKDIV : BitVec 3 := 2
def REG_CS : BitVec 3 := 3
def REG_TXDATA : BitVec 3 := 4
def REG_RXDATA : BitVec 3 := 5
def REG_IRQ : BitVec 3 := 6

variable {wt wr : Nat} {ι : Type} (q : Spi wt wr) (i : RegAccess (BitVec 3) ι)

/-! ### Wires -/

def busy : Bool := q.stateQ != .idle

def byteDone : Bool := q.stateQ == .done

def rxOverrun : Bool := q.stateQ == .done && q.rx.full

def divTick : Bool := q.divCntQ == 0

/-- The idle engine takes the next byte. -/
def launch : Bool := q.stateQ == .idle && q.enableQ && !q.tx.empty

def changeEdge : Bool := q.divTick && if q.cphaQ then q.sckQ != q.cpolQ else q.sckQ == q.cpolQ

def sampleEdge : Bool := q.divTick && if q.cphaQ then q.sckQ == q.cpolQ else q.sckQ != q.cpolQ

/-- The change branch, behind the guards on the bit counter and the phantom edge. -/
def shifts : Bool := q.changeEdge && q.bitCntQ != 0 && !(q.firstEdgeQ && !q.cphaQ)

def mosi : Bool := q.shiftQ.getLsbD 7

def irq : Bool :=
  (q.tx.empty && q.ieTxQ) || (!q.rx.empty && q.ieRxQ) || (q.irqDoneQ && q.ieDoneQ) || (q.irqOvrQ && q.ieOvrQ)

/-- The byte a TXDATA write pushes; a full FIFO ignores it. -/
def txPush : Option Byte := if q.tx.full then none else (i.wrAt REG_TXDATA).map fun x => x.data.setWidth 8

/-- The byte the engine pushes at the end of a byte. -/
def rxPush : Option Byte := if q.byteDone && !q.rx.full then some q.rxQ else none

def rxPop : Bool := i.rd == some REG_RXDATA && !q.rx.empty

/-! ### The read mux -/

def status : Word :=
  0#26 ++ BitVec.ofBool q.irqOvrQ ++ BitVec.ofBool q.rx.full ++ BitVec.ofBool q.tx.empty ++
    BitVec.ofBool q.rx.empty ++ BitVec.ofBool q.tx.full ++ BitVec.ofBool q.busy

def ctrl : Word :=
  0#25 ++ BitVec.ofBool q.ieOvrQ ++ BitVec.ofBool q.ieDoneQ ++ BitVec.ofBool q.ieRxQ ++ BitVec.ofBool q.ieTxQ ++
    BitVec.ofBool q.cphaQ ++ BitVec.ofBool q.cpolQ ++ BitVec.ofBool q.enableQ

def irqWord : Word :=
  0#28 ++ BitVec.ofBool q.irqOvrQ ++ BitVec.ofBool q.irqDoneQ ++ BitVec.ofBool q.irqRxQ ++ BitVec.ofBool q.irqTxQ

def read (a : BitVec 3) : Word :=
  if a = REG_STATUS then q.status
  else if a = REG_CTRL then q.ctrl
  else if a = REG_CLKDIV then q.clkdivQ.setWidth 32
  else if a = REG_CS then (BitVec.ofBool q.csNQ).setWidth 32
  else if a = REG_RXDATA then if q.rx.empty then 0 else q.rx.head.setWidth 32
  else if a = REG_IRQ then q.irqWord
  else 0

/-! ### The clock edge -/

def stateD : SpiState :=
  match q.stateQ with
  | .idle => if q.launch then .shift else .idle
  | .shift => if q.sampleEdge && q.bitCntQ == 0 then .done else .shift
  | .done => .idle

def next (i : RegAccess (BitVec 3) Bool) : Spi wt wr where
  enableQ := i.ctrlBit REG_CTRL 0 q.enableQ
  cpolQ := i.ctrlBit REG_CTRL 1 q.cpolQ
  cphaQ := i.ctrlBit REG_CTRL 2 q.cphaQ
  ieTxQ := i.ctrlBit REG_CTRL 3 q.ieTxQ
  ieRxQ := i.ctrlBit REG_CTRL 4 q.ieRxQ
  ieDoneQ := i.ctrlBit REG_CTRL 5 q.ieDoneQ
  ieOvrQ := i.ctrlBit REG_CTRL 6 q.ieOvrQ
  clkdivQ := ((i.wrAt REG_CLKDIV).map fun x => x.data.setWidth 16).getD q.clkdivQ
  csNQ := ((i.wrAt REG_CS).map fun x => x.data.getLsbD 0).getD q.csNQ
  irqTxQ := i.sticky REG_IRQ 0 q.irqTxQ (q.tx.empty && !q.txEmptyDQ)
  irqRxQ := i.sticky REG_IRQ 1 q.irqRxQ (!q.rx.empty && !q.rxNeDQ)
  irqDoneQ := i.sticky REG_IRQ 2 q.irqDoneQ q.byteDone
  irqOvrQ := i.sticky REG_IRQ 3 q.irqOvrQ q.rxOverrun
  txEmptyDQ := q.tx.empty
  rxNeDQ := !q.rx.empty
  tx := q.tx.step (q.txPush i) q.launch
  rx := q.rx.step q.rxPush (q.rxPop i)
  stateQ := q.stateD
  shiftQ :=
    match q.stateQ with
    | .idle => if q.launch then q.tx.head else q.shiftQ
    | .shift => if q.shifts then ShiftReg.shiftIn q.shiftQ false else q.shiftQ
    | .done => q.shiftQ
  rxQ := if q.stateQ == .shift && q.sampleEdge then ShiftReg.shiftIn q.rxQ i.ext else q.rxQ
  bitCntQ :=
    match q.stateQ with
    | .idle => if q.launch then 7 else q.bitCntQ
    | .shift => if q.shifts then q.bitCntQ - 1 else q.bitCntQ
    | .done => q.bitCntQ
  firstEdgeQ :=
    match q.stateQ with
    | .idle => if q.launch then true else q.firstEdgeQ
    | .shift => if q.divTick then false else q.firstEdgeQ
    | .done => q.firstEdgeQ
  divCntQ := if !q.enableQ || q.stateQ == .idle || q.divTick then q.clkdivQ else q.divCntQ - 1
  sckQ := if !q.enableQ || q.stateQ == .idle then q.cpolQ else if q.divTick then !q.sckQ else q.sckQ

/-- The device behind the port; no write is held. -/
def device : RegDevice (BitVec 3) (Spi wt wr) Bool where
  sel a := a.extractLsb' 2 3
  hold _ _ := false
  read q _ a := q.read a
  next := next

end Spi

end Yarv
