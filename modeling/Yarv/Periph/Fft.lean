import Yarv.Bus.RegSlave
import Yarv.Periph.FftDpram

/-!
# `axi4_lite_fft`

The device behind the bus flops: the registers, the sequencer, the four pipeline slots, the three memories and the
output register of the twiddle ROM.  `m` is `BF_W`, so `LOG2NMAX` is `m + 1`; the ROM is an argument of the clock
edge. Address bit 12 is bit 10 of the decoded address.
-/

namespace Yarv

/-- `state_q`; the fourth encoding is not reached. -/
inductive FftState
  | idle | run | drain
  deriving DecidableEq, Repr, Inhabited

/-- The registers software writes. -/
structure FftRegs (m : Nat) where
  irqEnQ : Bool
  inverseQ : Bool
  log2nQ : BitVec 4
  scaleQ : BitVec (m + 1)
  deriving DecidableEq, Repr

/-- The flops of the sequencer. -/
structure FftSeq (m : Nat) where
  stateQ : FftState
  stQ : BitVec 4
  bfQ : BitVec m
  bfLastQ : BitVec m
  halfQ : BitVec (m + 1)
  twStepQ : BitVec (m + 1)
  twIdxQ : BitVec (m + 1)
  vldQ : BitVec 4
  shamtQ : BitVec 4
  invRunQ : Bool
  cycQ : Word
  cyclesQ : Word
  doneQ : Bool
  cpuBufQ : Bool
  deriving DecidableEq, Repr

/-- What rides along with a butterfly: its addresses and its flags. -/
structure FftTag (m : Nat) where
  a : BitVec (m + 1)
  b : BitVec (m + 1)
  copy : Bool
  scale : Bool
  final : Bool
  deriving DecidableEq, Repr

/-- Slot 2: sums, differences and the selected twiddle. -/
structure FftSlot2 where
  sumR : BitVec 17
  sumI : BitVec 17
  difR : BitVec 17
  difI : BitVec 17
  wr : BitVec 16
  wi : BitVec 16
  deriving DecidableEq, Repr

/-- Slot 3: the four products, sums and differences passing through. -/
structure FftSlot3 where
  prr : BitVec 33
  pii : BitVec 33
  pri : BitVec 33
  pir : BitVec 33
  sumR : BitVec 17
  sumI : BitVec 17
  difR : BitVec 17
  difI : BitVec 17
  deriving DecidableEq, Repr

/-- Slot 4: results and write addresses. -/
structure FftSlot4 (m : Nat) where
  da : Word
  db : Word
  wa : BitVec (m + 1)
  wb : BitVec (m + 1)
  deriving DecidableEq, Repr

/-- The flops of `axi4_lite_fft` behind the bus flops. -/
structure Fft (m : Nat) where
  regs : FftRegs m
  seq : FftSeq m
  p1 : FftTag m
  s2Tag : FftTag m
  s2 : FftSlot2
  s3Tag : FftTag m
  s3 : FftSlot3
  s4 : FftSlot4 m
  twRdata : Word
  buf0 : FftDpram (m + 1)
  buf1 : FftDpram (m + 1)
  scratch : FftDpram (m + 1)

namespace Fft

def REG_CTRL : BitVec 3 := 0
def REG_STATUS : BitVec 3 := 1
def REG_IRQ : BitVec 3 := 2
def REG_CONF : BitVec 3 := 3
def REG_SCALE : BitVec 3 := 4
def REG_CYCLES : BitVec 3 := 5

variable {m : Nat}

/-! ### Datapath -/

/-- `scale_rnd`. -/
def scaleRnd (v : BitVec 21) (en : Bool) : BitVec 21 := if en then (v + 1).sshiftRight 1 else v

/-- `sat16`. -/
def sat16 (v : BitVec 21) : BitVec 16 :=
  if (32767#21).slt v then 0x7FFF#16 else if v.slt (-32768#21) then 0x8000#16 else v.setWidth 16

/-- The real half of a packed sample. -/
def re (w : Word) : BitVec 16 := w.extractLsb' 0 16

/-- The imaginary half. -/
def im (w : Word) : BitVec 16 := w.extractLsb' 16 16

/-- `tw_im`: the inverse transform negates the imaginary half; `-1.0` has no negative. -/
def twIm (inv : Bool) (w : Word) : BitVec 16 :=
  if !inv then im w else if im w = 0x8000#16 then 0x7FFF#16 else -im w

/-- The load of slot 2. -/
def slot2D (copy inv : Bool) (ra rb tw : Word) : FftSlot2 where
  sumR := if copy then (re ra).signExtend 17 else (re ra).signExtend 17 + (re rb).signExtend 17
  sumI := if copy then (im ra).signExtend 17 else (im ra).signExtend 17 + (im rb).signExtend 17
  difR := if copy then (re rb).signExtend 17 else (re ra).signExtend 17 - (re rb).signExtend 17
  difI := if copy then (im rb).signExtend 17 else (im ra).signExtend 17 - (im rb).signExtend 17
  wr := re tw
  wi := twIm inv tw

/-- The load of slot 3. -/
def slot3D (s : FftSlot2) : FftSlot3 where
  prr := s.difR.signExtend 33 * s.wr.signExtend 33
  pii := s.difI.signExtend 33 * s.wi.signExtend 33
  pri := s.difR.signExtend 33 * s.wi.signExtend 33
  pir := s.difI.signExtend 33 * s.wr.signExtend 33
  sumR := s.sumR
  sumI := s.sumI
  difR := s.difR
  difI := s.difI

def mulR (s : FftSlot3) : BitVec 34 := s.prr.signExtend 34 - s.pii.signExtend 34

def mulI (s : FftSlot3) : BitVec 34 := s.pri.signExtend 34 + s.pir.signExtend 34

/-- `norm_r` and `norm_i`: back to Q15, rounded half up. -/
def norm (v : BitVec 34) : BitVec 21 := ((v + 16384).extractLsb' 15 19).signExtend 21

/-- `{out_a_im, out_a_re}`. -/
def outA (scale : Bool) (s : FftSlot3) : Word :=
  sat16 (scaleRnd (s.sumI.signExtend 21) scale) ++ sat16 (scaleRnd (s.sumR.signExtend 21) scale)

/-- `{out_b_im, out_b_re}`; the copy pass carries B in the differences. -/
def outB (copy scale : Bool) (s : FftSlot3) : Word :=
  (if copy then sat16 (s.difI.signExtend 21) else sat16 (scaleRnd (norm (mulI s)) scale)) ++
    (if copy then sat16 (s.difR.signExtend 21) else sat16 (scaleRnd (norm (mulR s)) scale))

/-- `rev_a` and `rev_b`. -/
def rev (a : BitVec (m + 1)) (shamt : BitVec 4) : BitVec (m + 1) := a.reverse >>> shamt

/-- The load of slot 4. -/
def slot4D (t : FftTag m) (s : FftSlot3) (shamt : BitVec 4) : FftSlot4 m where
  da := outA t.scale s
  db := outB t.copy t.scale s
  wa := if t.final then rev t.a shamt else t.a
  wb := if t.final then rev t.b shamt else t.b

variable (rom : BitVec m → Word) (q : Fft m) (i : RegAccess (BitVec 11) Unit)

/-! ### Sequencer wires -/

def busy : Bool := q.seq.stateQ != .idle

def totalStages : BitVec 5 := q.regs.log2nQ.setWidth 5 + (BitVec.ofBool (q.regs.log2nQ.getLsbD 0)).setWidth 5

def isCopy : Bool := q.regs.log2nQ.ule q.seq.stQ

def isFinalStage : Bool := q.seq.stQ.setWidth 5 == q.totalStages - 1

def scaleEff : Bool := !q.isCopy && q.regs.scaleQ.getLsbD q.seq.stQ.toNat

def lowMask : BitVec m := q.seq.halfQ.setWidth m - 1

def bfJ : BitVec m := q.seq.bfQ &&& q.lowMask

def bfHi : BitVec m := q.seq.bfQ &&& ~~~q.lowMask

def issA : BitVec (m + 1) := (q.bfHi ++ 0#1) ||| q.bfJ.setWidth (m + 1)

def issB : BitVec (m + 1) := q.issA ||| q.seq.halfQ

def jLast : Bool := q.bfJ == q.lowMask

def bfLast : Bool := q.seq.bfQ == q.seq.bfLastQ

def issue : Bool := q.seq.stateQ == .run

/-- The tag of the butterfly that is issued. -/
def tag : FftTag m := ⟨q.issA, q.issB, q.isCopy, q.scaleEff, q.isFinalStage⟩

/-! ### Port steering -/

def srcIsScr : Bool := q.seq.stQ.getLsbD 0

def wrFire : Bool := q.seq.vldQ.getLsbD 3

/-- A port of the memory that is read (`src`) or written in this stage. -/
def port (src : Bool) (rdAddr wrAddr : BitVec (m + 1)) (wrData : Word) : DpPort (m + 1) :=
  if q.wrFire && !src then .write wrAddr wrData else if q.issue && src then .read rdAddr else .off

def ebufA : DpPort (m + 1) := q.port (!q.srcIsScr) q.issA q.s4.wa q.s4.da

def ebufB : DpPort (m + 1) := q.port (!q.srcIsScr) q.issB q.s4.wb q.s4.db

def scrA : DpPort (m + 1) := q.port q.srcIsScr q.issA q.s4.wa q.s4.da

def scrB : DpPort (m + 1) := q.port q.srcIsScr q.issB q.s4.wb q.s4.db

/-- `buf0_is_eng`: the CPU owns buffer 1. -/
def buf0IsEng : Bool := q.seq.cpuBufQ

/-- The buffer the engine owns. -/
def engBuf : FftDpram (m + 1) := if q.buf0IsEng then q.buf0 else q.buf1

/-- The buffer the CPU owns. -/
def cpuBuf : FftDpram (m + 1) := if q.buf0IsEng then q.buf1 else q.buf0

def srcARdata : Word := if q.srcIsScr then q.scratch.aRdata else q.engBuf.aRdata

def srcBRdata : Word := if q.srcIsScr then q.scratch.bRdata else q.engBuf.bRdata

/-! ### Register writes -/

/-- The committed write, when it is to the CSR page. -/
def csrWr : Option (RegWrite (BitVec 11)) := i.wr.filter fun w => !w.addr.getLsbD 10

/-- A write to register `r` of the CSR page. -/
def wrTo (r : BitVec 3) : Option (RegWrite (BitVec 11)) := (csrWr i).filter fun w => w.addr.setWidth 3 == r

/-- The same, when it strobes the low byte. -/
def wrTo0 (r : BitVec 3) : Option (RegWrite (BitVec 11)) := (wrTo i r).filter fun w => w.strb.getLsbD 0

def startPulse : Bool := (wrTo0 i REG_CTRL).any (fun w => w.data.getLsbD 0) && !q.busy

def swapPulse : Bool := (wrTo0 i REG_CTRL).any (fun w => w.data.getLsbD 3 && !w.data.getLsbD 0) && !q.busy

def w1cIrq : Bool := (wrTo0 i REG_IRQ).any fun w => w.data.getLsbD 0

def log2nmax (m : Nat) : BitVec 4 := BitVec.ofNat 4 (m + 1)

/-- The clamp of CONF. -/
def clamp (m : Nat) (v : BitVec 4) : BitVec 4 := if v.ult 2 then 2 else if (log2nmax m).ult v then log2nmax m else v

def regsNext : FftRegs m where
  irqEnQ := ((wrTo0 i REG_CTRL).map fun w => w.data.getLsbD 1).getD q.regs.irqEnQ
  inverseQ := ((wrTo0 i REG_CTRL).map fun w => w.data.getLsbD 2).getD q.regs.inverseQ
  log2nQ :=
    if q.busy then q.regs.log2nQ else ((wrTo0 i REG_CONF).map fun w => clamp m (w.data.setWidth 4)).getD q.regs.log2nQ
  scaleQ :=
    if q.busy then q.regs.scaleQ
    else ((wrTo i REG_SCALE).map fun w => mergeWr q.regs.scaleQ w.data w.strb).getD q.regs.scaleQ

/-! ### Sequencer -/

def startLog2n : BitVec 4 := clamp m q.regs.log2nQ

/-- `vld_q` behind the edge. -/
def vldD : BitVec 4 := q.seq.vldQ.setWidth 3 ++ BitVec.ofBool q.issue

/-- `done_q` behind the edge of a cycle in which no transform starts or ends. -/
def doneD : Bool := q.seq.doneQ && !w1cIrq i

/-- The last pass has drained. -/
def finish : Bool := q.seq.stateQ == .drain && q.seq.vldQ == 0 && q.isFinalStage

def seqNext : FftSeq m :=
  let s := q.seq
  match s.stateQ with
  | .idle =>
    if q.startPulse i then
      { s with
        stateQ := .run
        stQ := 0
        bfQ := 0
        twIdxQ := 0
        bfLastQ := (1#m <<< (q.startLog2n - 1)) - 1
        halfQ := 1#(m + 1) <<< (q.startLog2n - 1)
        twStepQ := 1#(m + 1) <<< (log2nmax m - q.startLog2n)
        shamtQ := log2nmax m - q.startLog2n
        invRunQ := q.regs.inverseQ
        vldQ := q.vldD
        cycQ := 0
        doneQ := false
        cpuBufQ := !s.cpuBufQ }
    else { s with vldQ := q.vldD, doneQ := q.doneD i, cpuBufQ := s.cpuBufQ ^^ q.swapPulse i }
  | .run =>
    { s with
      stateQ := if q.bfLast then .drain else .run
      bfQ := s.bfQ + 1
      twIdxQ := if q.jLast then 0 else s.twIdxQ + s.twStepQ
      vldQ := q.vldD
      cycQ := s.cycQ + 1
      doneQ := q.doneD i }
  | .drain =>
    if s.vldQ = 0 then
      if q.isFinalStage then
        { s with stateQ := .idle, vldQ := q.vldD, cycQ := s.cycQ + 1, cyclesQ := s.cycQ, doneQ := true }
      else
        { s with
          stateQ := .run
          stQ := s.stQ + 1
          bfQ := 0
          twIdxQ := 0
          halfQ := if s.stQ.setWidth 5 + 1 = q.regs.log2nQ.setWidth 5 then s.halfQ else s.halfQ >>> 1
          twStepQ := s.twStepQ <<< 1
          vldQ := q.vldD
          cycQ := s.cycQ + 1
          doneQ := q.doneD i }
    else { s with vldQ := q.vldD, cycQ := s.cycQ + 1, doneQ := q.doneD i }

/-! ### The CPU port -/

/-- A write to the DATA page. -/
def dataWr : Option (RegWrite (BitVec 11)) := i.wr.filter fun w => w.addr.getLsbD 10

/-- A read of the DATA page. -/
def dataRd : Option (BitVec 11) := i.rd.filter fun a => a.getLsbD 10

/-- `cpu_a_*`: a write goes first. -/
def cpuA : DpPort (m + 1) :=
  match dataWr i with
  | some w => ⟨true, true, w.addr.setWidth (m + 1), w.data, w.strb⟩
  | none =>
    match dataRd i with
    | some a => .read (a.setWidth (m + 1))
    | none => .off

/-! ### The clock edge -/

def next : Fft m where
  regs := q.regsNext i
  seq := q.seqNext i
  p1 := if q.issue then q.tag else q.p1
  s2Tag := if q.seq.vldQ.getLsbD 0 then q.p1 else q.s2Tag
  s2 := if q.seq.vldQ.getLsbD 0 then slot2D q.p1.copy q.seq.invRunQ q.srcARdata q.srcBRdata q.twRdata else q.s2
  s3Tag := if q.seq.vldQ.getLsbD 1 then q.s2Tag else q.s3Tag
  s3 := if q.seq.vldQ.getLsbD 1 then slot3D q.s2 else q.s3
  s4 := if q.seq.vldQ.getLsbD 2 then slot4D q.s3Tag q.s3 q.seq.shamtQ else q.s4
  twRdata := if q.issue then rom (q.seq.twIdxQ.setWidth m) else q.twRdata
  buf0 := if q.buf0IsEng then q.buf0.next q.ebufA q.ebufB else q.buf0.next (cpuA i) .off
  buf1 := if q.buf0IsEng then q.buf1.next (cpuA i) .off else q.buf1.next q.ebufA q.ebufB
  scratch := q.scratch.next q.scrA q.scrB

/-- `fft_irq_o`. -/
def irq : Bool := q.seq.doneQ && q.regs.irqEnQ

/-- `rdata_mux`. -/
def regRead (r : BitVec 3) : Word :=
  if r = REG_CTRL then 0#29 ++ BitVec.ofBool q.regs.inverseQ ++ BitVec.ofBool q.regs.irqEnQ ++ 0#1
  else if r = REG_STATUS then
    0#28 ++ BitVec.ofBool q.irq ++ BitVec.ofBool q.seq.cpuBufQ ++ BitVec.ofBool q.seq.doneQ ++ BitVec.ofBool q.busy
  else if r = REG_IRQ then (BitVec.ofBool q.seq.doneQ).setWidth 32
  else if r = REG_CONF then q.regs.log2nQ.setWidth 32
  else if r = REG_SCALE then q.regs.scaleQ.setWidth 32
  else if r = REG_CYCLES then q.seq.cyclesQ
  else 0

/-- The flops at their reset values; memories and payload registers are not reset. -/
structure IsReset : Prop where
  regs : q.regs = ⟨false, false, log2nmax m, BitVec.allOnes (m + 1)⟩
  seq : q.seq = ⟨.idle, 0, 0, 0, 0, 0, 0, 0, 0, false, 0, 0, false, false⟩

end Fft

end Yarv
