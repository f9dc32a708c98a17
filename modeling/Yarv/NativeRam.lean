import Yarv.Pkg

/-!
# `native_ram`

The on-die memory behind the fetch port (64 bits, read only, two responses outstanding) and behind the LSU port
(32 bits, byte strobes, one outstanding).  A read accepted in one cycle lands in the next one; a response the
master does not take waits in a shift FIFO.  A write commits in its accept cycle.

`mem` is indexed by the word address, `count_q` is a number kept below `2 ^ CNT_W` as the source keeps it.
-/

namespace Yarv

/-- The parameters of one `native_ram` instance. -/
structure RamParams where
  addrW : Nat
  dataWidth : Nat
  readOnly : Bool
  outstanding : Nat

/-- The flops and the storage of `native_ram`. -/
structure NativeRam (dataWidth : Nat) where
  mem : Nat → BitVec dataWidth
  rifQ : Bool
  rdDQ : BitVec dataWidth
  countQ : Nat
  skidQ : Nat → BitVec dataWidth

/-- The request ports. -/
structure RamReq (dataWidth : Nat) where
  valid : Bool
  we : Bool
  addr : Word
  wdata : BitVec dataWidth
  wstrb : BitVec (dataWidth / 8)
  rready : Bool

namespace NativeRam

variable (c : RamParams) (q : NativeRam c.dataWidth) (i : RamReq c.dataWidth)

/-- `word_addr`: the byte address without the byte-select bits, modulo the implemented depth. -/
def wordAddr : Nat := i.addr.toNat % 2 ^ c.addrW / (c.dataWidth / 8)

/-- `CNT_W = $clog2(OUTSTANDING + 1)`. -/
def cntW : Nat := c.outstanding.log2 + 1

def skidPop : Bool := q.countQ != 0 && i.rready

def landConsumed : Bool := q.rifQ && q.countQ == 0 && i.rready

def landStored : Bool := q.rifQ && !landConsumed c q i

/-- `new_count`, in `CNT_W` bits. -/
def newCount : Nat :=
  (q.countQ + 2 ^ cntW c - (skidPop c q i).toNat + (landStored c q i).toNat) % 2 ^ cntW c

def rspWready : Bool := decide (newCount c q i < c.outstanding)

def rspRvalid : Bool := q.countQ != 0 || q.rifQ

def rspRdata : BitVec c.dataWidth := if q.countQ != 0 then q.skidQ 0 else q.rdDQ

/-- `rsp_bvalid_o`: a native RAM has no write response. -/
def rspBvalid : Bool := false

def launchHs : Bool := i.valid && rspWready c q i

def launchRead : Bool := launchHs c q i && !i.we

def launchWrite : Bool := launchHs c q i && i.we

/-- `write_idx`: the slot the landing word goes to, after this cycle's pop. -/
def writeIdx : Nat := (q.countQ + 2 ^ cntW c - (skidPop c q i).toNat) % 2 ^ cntW c

/-- One lane of the byte-strobed write: bits `8 * k .. 8 * k + 7` of `new` replace those of `old`. -/
def setLane {w : Nat} (old new : BitVec w) (k : Nat) : BitVec w :=
  let mask : BitVec w := (255#w) <<< (8 * k)
  (old &&& ~~~mask) ||| (new &&& mask)

/-- The write loop over the first `n` byte strobes. -/
def mergeLanes {w s : Nat} (old new : BitVec w) (strb : BitVec s) : Nat → BitVec w
  | 0 => old
  | k + 1 =>
    let r := mergeLanes old new strb k
    if strb.getLsbD k then setLane r new k else r

/-- The storage after the clock edge. -/
def memNext : Nat → BitVec c.dataWidth :=
  if !c.readOnly && launchWrite c q i then
    Function.update q.mem (wordAddr c i)
      (mergeLanes (q.mem (wordAddr c i)) i.wdata i.wstrb (c.dataWidth / 8))
  else q.mem

/-- The shift FIFO after the clock edge: the pop shifts first, the landing word then takes its slot. -/
def skidNext : Nat → BitVec c.dataWidth :=
  let shifted : Nat → BitVec c.dataWidth :=
    if skidPop c q i then fun k => if k + 1 < c.outstanding then q.skidQ (k + 1) else 0 else q.skidQ
  if landStored c q i then Function.update shifted (writeIdx c q i) q.rdDQ else shifted

/-- One clock edge. -/
def next : NativeRam c.dataWidth where
  mem := memNext c q i
  rifQ := launchRead c q i
  rdDQ := if launchRead c q i then q.mem (wordAddr c i) else q.rdDQ
  countQ := newCount c q i
  skidQ := skidNext c q i

/-- The flops at their reset values; storage and skid data are not reset. -/
structure IsReset {d : Nat} (q : NativeRam d) : Prop where
  rif : q.rifQ = false
  rdD : q.rdDQ = 0
  count : q.countQ = 0

end NativeRam

end Yarv
