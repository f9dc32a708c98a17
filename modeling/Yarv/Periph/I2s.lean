import Yarv.Bus.RegSlave
import Yarv.Lib.Fifo
import Yarv.Lib.ShiftReg

/-!
# `axi4_lite_i2s`

The receiver behind the register port: the control registers, the master-mode clock generator, the oversampling
receive engine and its FIFO.  The FIFO depth `2 ^ wr` is a parameter, as in the source.
-/

namespace Yarv

/-- The three synchronized audio lines. -/
structure I2sPins where
  bclk : Bool
  lrck : Bool
  sd : Bool
  deriving DecidableEq, Repr

/-- The flops of the receive engine. -/
structure I2sEngine where
  bclkQ : Bool
  wsPrevQ : Bool
  shiftQ : Word
  bitCntQ : BitVec 6
  collectingQ : Bool
  curChQ : Bool
  deriving DecidableEq, Repr

/-- The flops of the master-mode clock generator. -/
structure I2sGen where
  divQ : BitVec 16
  bclkQ : Bool
  slotQ : BitVec 8
  wsQ : Bool
  deriving DecidableEq, Repr

/-- What CTRL says about the reception. -/
structure I2sCtrl where
  enableQ : Bool
  chanQ : BitVec 2
  formatLjQ : Bool
  wlenSelQ : BitVec 2
  deriving DecidableEq, Repr

/-- The flops of `axi4_lite_i2s` behind the bus flops. -/
structure I2s (wr : Nat) where
  ctrl : I2sCtrl
  ieRxQ : Bool
  ieOvrQ : Bool
  masterQ : Bool
  clkdivQ : BitVec 16
  slotQ : BitVec 8
  waterQ : BitVec (wr + 1)
  irqOvrQ : Bool
  rx : Fifo wr (Word × Bool)
  gen : I2sGen
  eng : I2sEngine

namespace I2sCtrl

/-! ### What the engine reads of CTRL -/

def CHAN_STEREO : BitVec 2 := 0
def CHAN_LEFT : BitVec 2 := 1
def CHAN_RIGHT : BitVec 2 := 2

variable (c : I2sCtrl)

def wlen : BitVec 6 :=
  if c.wlenSelQ = 0 then 16 else if c.wlenSelQ = 1 then 24 else if c.wlenSelQ = 2 then 32 else 8

/-- `sample_ext`: the low `wlen` bits, sign-extended. -/
def sampleExt (x : Word) : Word :=
  if c.wlenSelQ = 0 then (x.setWidth 16).signExtend 32
  else if c.wlenSelQ = 1 then (x.setWidth 24).signExtend 32
  else if c.wlenSelQ = 2 then x
  else (x.setWidth 8).signExtend 32

/-- `ch_accept` for a word of channel `ch`. -/
def chAccept (ch : Bool) : Bool :=
  if c.chanQ = CHAN_LEFT then !ch else if c.chanQ = CHAN_RIGHT then ch else true

end I2sCtrl

namespace I2sEngine

variable (g : I2sEngine) (c : I2sCtrl) (p : I2sPins)

/-! ### The receive engine -/

def bclkRise : Bool := !g.bclkQ && p.bclk

def wsChange : Bool := g.bclkRise p && p.lrck != g.wsPrevQ

/-- `shift_new`. -/
def shiftNew : Word := ShiftReg.shiftIn g.shiftQ p.sd

/-- The captured bit is the last one of its word. -/
def lastBit : Bool := g.bitCntQ == c.wlen - 1

def wordDone : Bool := g.bclkRise p && c.enableQ && g.collectingQ && !g.wsChange p && g.lastBit c

/-- The word a rising edge completes, with its channel, when the filter lets it through. -/
def rxPushReq : Option (Word × Bool) :=
  if g.wordDone c p && c.chAccept g.curChQ then some (c.sampleExt (g.shiftNew p), g.curChQ) else none

/-- A rising edge on which WS has changed. -/
def start : I2sEngine where
  bclkQ := p.bclk
  wsPrevQ := p.lrck
  shiftQ := if c.formatLjQ then g.shiftNew p else 0
  bitCntQ := if c.formatLjQ then 1 else 0
  collectingQ := true
  curChQ := p.lrck

/-- A rising edge that captures a bit. -/
def capture : I2sEngine :=
  { g with
    bclkQ := p.bclk
    wsPrevQ := p.lrck
    shiftQ := g.shiftNew p
    bitCntQ := if g.lastBit c then 0 else g.bitCntQ + 1
    collectingQ := !g.lastBit c }

def next : I2sEngine :=
  if !c.enableQ then { g with bclkQ := p.bclk, wsPrevQ := p.lrck, collectingQ := false, bitCntQ := 0 }
  else if g.bclkRise p then
    if g.wsChange p then g.start c p
    else if g.collectingQ then g.capture c p
    else { g with bclkQ := p.bclk, wsPrevQ := p.lrck }
  else { g with bclkQ := p.bclk }

end I2sEngine

namespace I2s

/-! ### Register offsets -/

def REG_STATUS : BitVec 3 := 0
def REG_CTRL : BitVec 3 := 1
def REG_WATER : BitVec 3 := 2
def REG_RXDATA : BitVec 3 := 3
def REG_IRQ : BitVec 3 := 4
def REG_CLKDIV : BitVec 3 := 5

variable {wr : Nat} (q : I2s wr) (p : I2sPins) (i : RegAccess (BitVec 3) I2sPins)

/-- The reset state over some FIFO storage. -/
def reset (mem : BitVec wr → Word × Bool) : I2s wr where
  ctrl := ⟨false, I2sCtrl.CHAN_STEREO, false, 0⟩
  ieRxQ := false
  ieOvrQ := false
  masterQ := false
  clkdivQ := 24
  slotQ := 32
  waterQ := 1
  irqOvrQ := false
  rx := Fifo.reset mem
  gen := ⟨24, false, 0, false⟩
  eng := ⟨false, false, 0, 0, false, false⟩

/-! ### Wires -/

def waterEff : BitVec (wr + 1) := if q.waterQ = 0 then 1 else q.waterQ

def rxWaterHit : Bool := q.waterEff.ule q.rx.level

def slotEff : BitVec 8 := if q.slotQ = 0 then 32 else q.slotQ

def rxPushReq : Option (Word × Bool) := q.eng.rxPushReq q.ctrl p

def rxPush : Option (Word × Bool) := if q.rx.full then none else q.rxPushReq p

def rxOverrunEv : Bool := (q.rxPushReq p).isSome && q.rx.full

def rxPop : Bool := i.rd == some REG_RXDATA && !q.rx.empty

def irq : Bool := (q.rxWaterHit && q.ieRxQ) || (q.irqOvrQ && q.ieOvrQ)

/-! ### The read mux -/

def status : Word :=
  (q.rx.level.setWidth 32 <<< 8) |||
    (0#26 ++ BitVec.ofBool p.bclk ++ BitVec.ofBool p.lrck ++ BitVec.ofBool (!q.rx.empty && q.rx.head.2) ++
      BitVec.ofBool q.irqOvrQ ++ BitVec.ofBool q.rx.full ++ BitVec.ofBool q.rx.empty)

def ctrlWord : Word :=
  0#22 ++ q.ctrl.wlenSelQ ++ 0#1 ++ BitVec.ofBool q.masterQ ++ BitVec.ofBool q.ieOvrQ ++ BitVec.ofBool q.ieRxQ ++
    BitVec.ofBool q.ctrl.formatLjQ ++ q.ctrl.chanQ ++ BitVec.ofBool q.ctrl.enableQ

def irqWord : Word := 0#30 ++ BitVec.ofBool q.irqOvrQ ++ BitVec.ofBool q.rxWaterHit

def read (a : BitVec 3) : Word :=
  if a = REG_STATUS then q.status p
  else if a = REG_CTRL then q.ctrlWord
  else if a = REG_WATER then q.waterQ.setWidth 32
  else if a = REG_RXDATA then if q.rx.empty then 0 else q.rx.head.1
  else if a = REG_IRQ then q.irqWord
  else if a = REG_CLKDIV then 0#8 ++ q.slotQ ++ q.clkdivQ
  else 0

/-! ### The clock edge -/

/-- The clock generator; it is parked while the block only listens. -/
def genNext : I2sGen :=
  let g := q.gen
  if !q.masterQ then ⟨q.clkdivQ, false, 0, false⟩
  else if g.divQ = 0 then
    if g.bclkQ then
      if g.slotQ = q.slotEff - 1 then ⟨q.clkdivQ, false, 0, !g.wsQ⟩
      else ⟨q.clkdivQ, false, g.slotQ + 1, g.wsQ⟩
    else ⟨q.clkdivQ, true, g.slotQ, g.wsQ⟩
  else { g with divQ := g.divQ - 1 }

def ctrlNext : I2sCtrl where
  enableQ := i.ctrlBit REG_CTRL 0 q.ctrl.enableQ
  chanQ := ((i.wrAt REG_CTRL).map fun x => x.data.extractLsb' 1 2).getD q.ctrl.chanQ
  formatLjQ := i.ctrlBit REG_CTRL 3 q.ctrl.formatLjQ
  wlenSelQ := ((i.wrLane REG_CTRL 1).map fun x => x.data.extractLsb' 8 2).getD q.ctrl.wlenSelQ

def next : I2s wr where
  ctrl := q.ctrlNext i
  ieRxQ := i.ctrlBit REG_CTRL 4 q.ieRxQ
  ieOvrQ := i.ctrlBit REG_CTRL 5 q.ieOvrQ
  masterQ := i.ctrlBit REG_CTRL 6 q.masterQ
  clkdivQ := ((i.wrAt REG_CLKDIV).map fun x => x.data.setWidth 16).getD q.clkdivQ
  slotQ := ((i.wrLane REG_CLKDIV 2).map fun x => x.data.extractLsb' 16 8).getD q.slotQ
  waterQ := ((i.wrAt REG_WATER).map fun x => x.data.setWidth (wr + 1)).getD q.waterQ
  irqOvrQ := i.sticky REG_IRQ 1 q.irqOvrQ (q.rxOverrunEv i.ext)
  rx := q.rx.step (q.rxPush i.ext) (q.rxPop i)
  gen := q.genNext
  eng := q.eng.next q.ctrl i.ext

/-- The device behind the port; no write is held. -/
def device : RegDevice (BitVec 3) (I2s wr) I2sPins where
  sel a := a.extractLsb' 2 3
  hold _ _ := false
  read := read
  next := next

end I2s

end Yarv
