import Yarv.Pkg

/-!
# `fetch_stage`

The owner of the PC: it drives the 64-bit fetch port, splits each response into one or two 32-bit buffer entries and
exports the two oldest entries to decode.

The three small counters are numbers kept below the width of their flop; the buffer is a function of the 3-bit slot
index, with the head, tail and count pointers of the source.
-/

namespace Yarv

/-- One slot of the depth-8 instruction buffer (`buf_*_q`). -/
structure BufEntry where
  instr : Word
  pc : Word
  fault : Bool
  predLo : Bool
  predHi : Bool
  ghr : BitVec 9
  deriving DecidableEq, Repr

/-- The flops of `fetch_stage`. -/
structure FetchStage where
  pcQ : Word
  reqPcQ : Word
  inflightQ : Nat
  staleQ : Nat
  redirLaunchedQ : Bool
  bufQ : BitVec 3 → BufEntry
  headQ : BitVec 3
  tailQ : BitVec 3
  countQ : Nat

/-- The inputs of `fetch_stage`; the boot address is read by the reset alone. -/
structure FetchIn where
  stall : Bool
  branchValid : Bool
  branchAddr : Word
  predValid : Bool
  predAddr : Word
  imemRsp : IfetchRsp
  bpPush : BpPushRsp
  pop2 : Bool

namespace FetchStage

variable (p : Params) (q : FetchStage) (i : FetchIn)

/-- `|a[31:IMEM_ADDR_W]`: the address lies outside the implemented I-mem. -/
def outOfImem (a : Word) : Bool := a >>> p.imemAddrW != 0

/-! ### Issue -/

def pcFault : Bool := outOfImem p q.pcQ

/-- `imem_req_o.rready`. -/
def rready : Bool := q.staleQ != 0 || decide (q.countQ ≤ 6)

def rspCap : Bool := i.imemRsp.rvalid && q.rready

def predRedirect : Bool := i.predValid && !i.branchValid

def redirect : Bool := i.branchValid || predRedirect i

def redirectAddr : Word := if i.branchValid then i.branchAddr else i.predAddr

def twiceInflight : Nat := 2 * q.inflightQ

def reserved : Nat := q.countQ + q.twiceInflight

/-- `8 - reserved`, in five bits. -/
def available : Nat := (8 + 32 - q.reserved) % 32

def pcNextBlock : Word := (q.pcQ &&& ~~~7#32) + 8

def pcNextBlock2 : Word := (q.pcQ &&& ~~~7#32) + 16

def incycleLaunch : Bool := if p.execRedirIncycle then redirect i else predRedirect i

def incycleAddr : Word := if p.execRedirIncycle then redirectAddr i else i.predAddr

def issueAddr : Word :=
  if incycleLaunch p i then incycleAddr p i else if q.redirLaunchedQ then q.pcNextBlock else q.pcQ

def availableIssue : Nat := if redirect i then (8 + 32 - q.twiceInflight) % 32 else q.available

def execRedirHold : Bool := !p.execRedirIncycle && i.branchValid

def busIssue : Bool :=
  decide (q.inflightQ < 2) && decide (2 ≤ availableIssue q i) &&
    (incycleLaunch p i || !pcFault p q) && !execRedirHold p i

def faultPush : Bool :=
  pcFault p q && decide (1 ≤ q.available) && !rspCap q i && q.inflightQ == 0

def launch : Bool := busIssue p q i && i.imemRsp.ready

/-- `imem_req_o`. -/
def imemReq : IfetchReq where
  valid := busIssue p q i
  addr := issueAddr p q i
  rready := q.rready

/-! ### Response split -/

def doRsp : Bool := rspCap q i && q.staleQ == 0

def rspFault : Bool := outOfImem p q.reqPcQ

def doRspData : Bool := doRsp q i && !rspFault p q

def doRspFault : Bool := doRsp q i && rspFault p q

def rspTwo : Bool := !q.reqPcQ.getLsbD 2

def rspHighPc : Word := (q.reqPcQ &&& ~~~7#32) + 4

def rspLowWord : Word := i.imemRsp.rdata.extractLsb' 0 32

def rspHighWord : Word := i.imemRsp.rdata.extractLsb' 32 32

def push0Pc : Word := if doRsp q i then q.reqPcQ else q.pcQ

def push0Word : Word :=
  if doRspData p q i then (if rspTwo q then rspLowWord i else rspHighWord i) else 0

def push0 : BufEntry where
  instr := push0Word p q i
  pc := push0Pc q i
  fault := !doRspData p q i
  predLo := i.bpPush.pred0Lo
  predHi := i.bpPush.pred0Hi
  ghr := i.bpPush.ghr

def push1 : BufEntry where
  instr := rspHighWord i
  pc := rspHighPc q
  fault := false
  predLo := i.bpPush.pred1Lo
  predHi := i.bpPush.pred1Hi
  ghr := i.bpPush.ghr

def pushCnt : Nat :=
  if doRspData p q i then (if rspTwo q then 2 else 1)
  else if doRspFault p q i || faultPush p q i then 1 else 0

/-- `bp_push_o`. -/
def bpPushReq : BpPushReq where
  pc0 := push0Pc q i
  pc1 := rspHighPc q

def bufPopCnt : Nat := if q.countQ != 0 && !i.stall then (if i.pop2 then 2 else 1) else 0

/-! ### Next state -/

def pcD : Word :=
  if redirect i then redirectAddr i
  else if faultPush p q i then q.pcNextBlock
  else if q.redirLaunchedQ then (if launch p q i then q.pcNextBlock2 else q.pcNextBlock)
  else if launch p q i then q.pcNextBlock
  else q.pcQ

def inflightD : Nat := (q.inflightQ + (launch p q i).toNat + 4 - (rspCap q i).toNat) % 4

def staleD : Nat :=
  if redirect i then (q.inflightQ + 4 - (rspCap q i).toNat) % 4
  else if rspCap q i && q.staleQ != 0 then q.staleQ - 1
  else q.staleQ

/-- The buffer after the clock edge: `push0` at the tail, `push1` behind it. -/
def bufD : BitVec 3 → BufEntry :=
  let b := if 1 ≤ pushCnt p q i then Function.update q.bufQ q.tailQ (push0 p q i) else q.bufQ
  if 2 ≤ pushCnt p q i then Function.update b (q.tailQ + 1) (push1 q i) else b

/-- One clock edge. -/
def next : FetchStage where
  pcQ := pcD p q i
  reqPcQ := if launch p q i then issueAddr p q i else q.reqPcQ
  inflightQ := inflightD p q i
  staleQ := staleD q i
  redirLaunchedQ := incycleLaunch p i && launch p q i
  bufQ := bufD p q i
  headQ := if redirect i then 0 else q.headQ + BitVec.ofNat 3 (bufPopCnt q i)
  tailQ := if redirect i then 0 else q.tailQ + BitVec.ofNat 3 (pushCnt p q i)
  countQ := if redirect i then 0 else (q.countQ + pushCnt p q i + 16 - bufPopCnt q i) % 16

/-- The flops at their reset values; the buffer storage is not reset. -/
structure IsReset (boot : Word) (q : FetchStage) : Prop where
  pc : q.pcQ = boot
  reqPc : q.reqPcQ = 0
  inflight : q.inflightQ = 0
  stale : q.staleQ = 0
  redirLaunched : q.redirLaunchedQ = false
  head : q.headQ = 0
  tail : q.tailQ = 0
  count : q.countQ = 0

/-! ### Outputs -/

/-- The buffer head (`fe_*_o`). -/
def fe : BufEntry := q.bufQ q.headQ

def feValid : Bool := q.countQ != 0

/-- The entry behind the head (`fe_next_*_o`). -/
def feNext : BufEntry := q.bufQ (q.headQ + 1)

def feNextValid : Bool := decide (2 ≤ q.countQ)

end FetchStage

end Yarv
