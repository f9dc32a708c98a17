import Yarv.OpcodeTree
import Yarv.FetchStage

/-!
# `decode_stage`

Source selection (fresh word, stashed half, spanning stitch, odd-half target), the prediction fast path, the hold
stash and the D/E register.  Decode is a consumer of fetch's head and head + 1 entries; the register file answers its
two reads in the same cycle, execute's retiring write is forwarded over them.
-/

namespace Yarv

/-- The flops of `decode_stage`. -/
structure DecodeStage where
  holdQ : Bool
  holdWordQ : Word
  holdPcQ : Word
  holdPredQ : Bool
  holdGhrQ : BitVec 9
  deQ : De

/-- The inputs of `decode_stage`; `rfRead` is the asynchronous read port of the register file. -/
structure DecodeIn where
  fe : BufEntry
  feValid : Bool
  feNext : BufEntry
  feNextValid : Bool
  rfRead : BitVec 5 → Word
  stall : Bool
  flush : Bool
  exWbEn : Bool
  exWbAddr : BitVec 5
  exWbData : Word
  bpLookup : BpLookupRsp

namespace DecodeStage

variable (p : Params) (q : DecodeStage) (i : DecodeIn)

/-! ### Spanning-stitch predicates -/

def feIsCompressed : Bool := i.fe.instr.extractLsb' 0 2 != 0b11#2

def holdIsSpan : Bool := q.holdWordQ.extractLsb' 0 2 == 0b11#2

def holdPlainPending : Bool := q.holdQ && !q.holdIsSpan

def spanPending : Bool := q.holdQ && q.holdIsSpan

def fetchFault : Bool := i.feValid && i.fe.fault

def takeFault : Bool := fetchFault i && !q.holdPlainPending

def isHoldPlain : Bool := q.holdPlainPending

def spanComplete : Bool := !takeFault q i && q.spanPending && i.feValid

def spanWait : Bool := !takeFault q i && q.spanPending && !i.feValid

def targetUpper : Bool := !takeFault q i && !q.holdQ && i.feValid && i.fe.pc.getLsbD 1

def targetSpan : Bool := targetUpper q i && i.fe.instr.extractLsb' 16 2 == 0b11#2

def targetSpanComplete : Bool := targetSpan q i && i.feNextValid && !i.feNext.fault

def targetSpanWait : Bool := targetSpan q i && !targetSpanComplete q i

/-! ### Source selection -/

/-- The source the priority chain picks: a 32-bit word or a compressed halfword, and its PC. -/
structure Src where
  word32 : Word
  half16 : BitVec 16
  pc : Word
  isCompressed : Bool
  deriving DecidableEq, Repr

def src : Src :=
  if takeFault q i then ⟨0, 0, i.fe.pc, false⟩
  else if spanComplete q i then
    ⟨i.fe.instr.extractLsb' 0 16 ++ q.holdWordQ.extractLsb' 0 16, 0, q.holdPcQ, false⟩
  else if spanWait q i then ⟨0, 0, q.holdPcQ, false⟩
  else if q.isHoldPlain then ⟨0, q.holdWordQ.extractLsb' 0 16, q.holdPcQ, true⟩
  else if targetSpanComplete q i then
    ⟨i.feNext.instr.extractLsb' 0 16 ++ i.fe.instr.extractLsb' 16 16, 0, i.fe.pc, false⟩
  else if targetSpanWait q i then ⟨0, 0, i.fe.pc, false⟩
  else if targetUpper q i then ⟨0, i.fe.instr.extractLsb' 16 16, i.fe.pc, true⟩
  else if feIsCompressed i then ⟨0, i.fe.instr.extractLsb' 0 16, i.fe.pc, true⟩
  else ⟨i.fe.instr, 0, i.fe.pc, false⟩

/-- `src_instr32`: the word the uniform decoder consumes. -/
def Src.instr32 (s : Src) : Word := if s.isCompressed then cExpand s.half16 else s.word32

def srcInstr32 : Word := (src q i).instr32

def bufferUpper : Bool := !q.holdQ && !targetUpper q i && i.feValid && feIsCompressed i

def decodedValid : Bool :=
  takeFault q i || spanComplete q i || q.isHoldPlain ||
    (i.feValid && !q.holdQ && !takeFault q i && !targetSpanWait q i)

/-! ### Operands -/

def rs1Addr : BitVec 5 := rs1AddrDec (srcInstr32 q i)

def rs2Addr : BitVec 5 := rs2AddrDec (srcInstr32 q i)

/-- `rs1_fwd` and `rs2_fwd`: the register file, unless execute retires a write to that register this cycle. -/
def fwd (a : BitVec 5) : Word :=
  if i.exWbEn && i.exWbAddr != 0 && a == i.exWbAddr then i.exWbData else i.rfRead a

/-! ### Exception request -/

/-- `exc_req`, `exc_cause` and `exc_tval`: an access fault overrides an illegal word, which overrides the tree. -/
def excReq : Bool :=
  takeFault q i || ((opcodeTree (srcInstr32 q i)).illegal && decodedValid q i) || (opcodeTree (srcInstr32 q i)).excReq

def excCause : Word :=
  if takeFault q i then mcauseInstrAcc
  else if (opcodeTree (srcInstr32 q i)).illegal && decodedValid q i then mcauseIllegal
  else (opcodeTree (srcInstr32 q i)).excCause

def excTval : Word :=
  if takeFault q i then i.fe.pc
  else if (opcodeTree (srcInstr32 q i)).illegal && decodedValid q i then srcInstr32 q i
  else (opcodeTree (srcInstr32 q i)).excTval

/-! ### Branch prediction -/

namespace Src

variable (s : Src)

def cfCJal : Bool :=
  s.half16.extractLsb' 0 2 == 0b01#2 && (s.half16.extractLsb' 13 3 == 0b001#3 || s.half16.extractLsb' 13 3 == 0b101#3)

def cfCCond : Bool := s.half16.extractLsb' 0 2 == 0b01#2 && s.half16.extractLsb' 14 2 == 0b11#2

def cfCJalr : Bool :=
  s.half16.extractLsb' 0 2 == 0b10#2 && s.half16.extractLsb' 13 3 == 0b100#3 && s.half16.extractLsb' 2 5 == 0#5 &&
    s.half16.extractLsb' 7 5 != 0#5

def cfCRet : Bool :=
  s.cfCJalr && !s.half16.getLsbD 12 && (s.half16.extractLsb' 7 5 == 1#5 || s.half16.extractLsb' 7 5 == 5#5)

def cfNJal : Bool := s.word32.extractLsb' 0 7 == opcJal

def cfNJalr : Bool := s.word32.extractLsb' 0 7 == opcJalr && s.word32.extractLsb' 12 3 == 0b000#3

def cfNCond : Bool := s.word32.extractLsb' 0 7 == opcBranch && s.word32.extractLsb' 13 2 != 0b01#2

def cfNRet : Bool :=
  s.cfNJalr && s.word32.extractLsb' 7 5 == 0#5 &&
    (s.word32.extractLsb' 15 5 == 1#5 || s.word32.extractLsb' 15 5 == 5#5)

def cfJal : Bool := if s.isCompressed then s.cfCJal else s.cfNJal

def cfCond : Bool := if s.isCompressed then s.cfCCond else s.cfNCond

def cfJalr : Bool := if s.isCompressed then s.cfCJalr else s.cfNJalr

def cfRet : Bool := if s.isCompressed then s.cfCRet else s.cfNRet

/-- `pred_cj_imm`. -/
def predCjImm : Word :=
  (s.half16.extractLsb' 12 1 ++ s.half16.extractLsb' 8 1 ++ s.half16.extractLsb' 10 1 ++ s.half16.extractLsb' 9 1 ++
    s.half16.extractLsb' 6 1 ++ s.half16.extractLsb' 7 1 ++ s.half16.extractLsb' 2 1 ++ s.half16.extractLsb' 11 1 ++
    s.half16.extractLsb' 5 1 ++ s.half16.extractLsb' 4 1 ++ s.half16.extractLsb' 3 1 ++ 0b0#1).signExtend 32

/-- `pred_cb_imm`. -/
def predCbImm : Word :=
  (s.half16.extractLsb' 12 1 ++ s.half16.extractLsb' 5 2 ++ s.half16.extractLsb' 2 1 ++ s.half16.extractLsb' 10 2 ++
    s.half16.extractLsb' 3 2 ++ 0b0#1).signExtend 32

def predImm : Word :=
  if s.isCompressed then (if s.half16.getLsbD 14 then s.predCbImm else s.predCjImm)
  else if s.word32.extractLsb' 0 7 = opcJal then immJ s.word32 else immB s.word32

def predDirTarget : Word := s.pc + s.predImm

end Src

def isCf : Bool := decodedValid q i && ((src q i).cfJal || (src q i).cfJalr || (src q i).cfCond)

/-- `pht_taken_src`: the direction bit of the halfword being decoded, from the entry or from the live lookup. -/
def phtTakenSrc : Bool :=
  if p.bpPushLookup then
    if spanComplete q i || q.isHoldPlain then q.holdPredQ
    else if i.fe.pc.getLsbD 1 then i.fe.predHi else i.fe.predLo
  else i.bpLookup.phtTaken

def phtIndexSrc : BitVec 9 :=
  if p.bpPushLookup then
    (src q i).pc.extractLsb' 1 9 ^^^ (if spanComplete q i || q.isHoldPlain then q.holdGhrQ else i.fe.ghr)
  else i.bpLookup.phtIndex

def cfTaken : Bool :=
  (src q i).cfJal || ((src q i).cfCond && phtTakenSrc p q i) || ((src q i).cfRet && i.bpLookup.rasValid)

def cfTarget : Word := if (src q i).cfRet then i.bpLookup.rasTop else (src q i).predDirTarget

def predTaken : Bool := isCf q i && cfTaken p q i

def predTarget : Word :=
  if isCf q i then
    if (src q i).cfRet then i.bpLookup.rasTop
    else if (src q i).cfCond then (src q i).predDirTarget
    else if (src q i).cfJal then (src q i).predDirTarget
    else 0
  else 0

def predPhtIndex : BitVec 9 :=
  if isCf q i && !(src q i).cfRet && (src q i).cfCond then phtIndexSrc p q i else 0

/-- `pred_redirect_fire`. -/
def predRedirectFire : Bool := p.bpEn && isCf q i && cfTaken p q i && !i.stall && !i.flush

/-! ### The D/E word of this cycle -/

/-- `de_d`. -/
def deD : De :=
  let w := srcInstr32 q i
  let d := opcodeTree w
  { valid := decodedValid q i
    pc := (src q i).pc
    instr := w
    isCompressed := (src q i).isCompressed
    rs1Addr := rs1Addr q i
    rs1Data := fwd i (rs1Addr q i)
    rs2Data := fwd i (rs2Addr q i)
    imm := d.imm
    rd := rdField w
    regWrite := !d.illegal && d.regWrite
    csrWren := !d.illegal && d.csrWren
    csrOp := d.csrOp
    csrAddr := csrAddrDec w
    aluOp := d.aluOp
    aluSrcA := d.aluSrcA
    aluSrcB := d.aluSrcB
    memRead := !d.illegal && d.memRead
    memWrite := !d.illegal && d.memWrite
    memSize := d.memSize
    memUnsigned := d.memUnsigned
    memShamt := d.memShamt
    wbSrc := d.wbSrc
    branchType := if d.illegal then .none else d.branchType
    sysOp := d.sysOp
    exception := excReq q i
    exceptionCause := excCause q i
    exceptionTval := excTval q i
    illegal := d.illegal && decodedValid q i
    predValid := p.bpEn && isCf q i
    predTaken := p.bpEn && predTaken p q i
    predTarget := if p.bpEn then predTarget q i else 0
    predPhtIndex := if p.bpEn then predPhtIndex p q i else 0 }

/-! ### Next state -/

/-- The stash of an upper half. -/
def stashUpper (e : BufEntry) (pc : Word) : DecodeStage :=
  { q with holdQ := true, holdWordQ := (e.instr.extractLsb' 16 16).setWidth 32, holdPcQ := pc,
           holdPredQ := e.predHi, holdGhrQ := e.ghr }

/-- The hold stash after the clock edge; the D/E register is left alone. -/
def holdD : DecodeStage :=
  if i.flush then { q with holdQ := false }
  else if predRedirectFire p q i then { q with holdQ := false }
  else if takeFault q i then { q with holdQ := false }
  else if i.stall then q
  else if spanWait q i then q
  else if spanComplete q i then stashUpper q i.fe (i.fe.pc + 2)
  else if q.isHoldPlain then { q with holdQ := false }
  else if targetSpanComplete q i then stashUpper q i.feNext (i.feNext.pc + 2)
  else if targetSpanWait q i then stashUpper q i.fe i.fe.pc
  else if bufferUpper q i then stashUpper q i.fe (i.fe.pc + 2)
  else { q with holdQ := false }

/-- `de_next`. -/
def deNext : De := if i.flush then De.zero else if i.stall then q.deQ else deD p q i

/-- One clock edge. -/
def next : DecodeStage := { holdD p q i with deQ := deNext p q i }

/-- The flops at their reset values. -/
structure IsReset (q : DecodeStage) : Prop where
  hold : q.holdQ = false
  holdWord : q.holdWordQ = 0
  holdPc : q.holdPcQ = 0
  holdPred : q.holdPredQ = false
  holdGhr : q.holdGhrQ = 0
  de : q.deQ = De.zero

/-! ### Outputs -/

def resourceStall : Bool := q.holdPlainPending && i.feValid

/-- `stall_o`. -/
def stallO : Bool := resourceStall q i || i.stall

/-- `fe_pop2_o`. -/
def pop2 : Bool := targetSpanComplete q i

end DecodeStage

end Yarv
