import Yarv.Alu

/-!
# `execute_stage`

Operand selection, the execute FSM with the load/store unit, the trap and WFI logic, writeback, the CSR
read-modify-write, branch resolution and predictor training.

The trap unit is a peer at the CPU top: its interrupt summary is an input here, its redirect address is an argument of
`branchAddr`, the one output that reads it.
-/

namespace Yarv

/-- `ex_state_e`. -/
inductive ExState
  | idle | memLaunch | memTrap | divBusy | memWait | csrWait
  deriving DecidableEq, Repr, Inhabited

/-- The flops of `execute_stage`, its ALU included. -/
structure ExecuteStage where
  exStateQ : ExState
  memAddrQ : Word
  memWdataQ : Word
  memWstrbQ : BitVec 4
  memIsPeriQ : Bool
  wfiHaltQ : Bool
  wfiNextPcQ : Word
  exPcQ : Word
  exInstrQ : Word
  exValidQ : Bool
  alu : Alu
  deriving DecidableEq

/-- The inputs of `execute_stage`. -/
structure ExecuteIn where
  de : De
  csrRdata : Word
  intPending : Bool
  intCause : Word
  stall : Bool
  memRsp : MemRsp
  periRsp : MemRsp

namespace ExecuteStage

variable (p : Params) (q : ExecuteStage) (i : ExecuteIn)

/-! ### Operands -/

/-- `pc_link`. -/
def pcLink : Word := i.de.pc + (if i.de.isCompressed then 2 else 4)

def operandA : Word :=
  match i.de.aluSrcA with
  | .rs1 => i.de.rs1Data
  | .pc => i.de.pc
  | .rs2 => i.de.rs2Data

def operandB : Word :=
  match i.de.aluSrcB with
  | .rs1 => i.de.rs1Data
  | .imm => i.de.imm
  | .rs2 => i.de.rs2Data

/-- The ports of the ALU instance, for a given start pulse. -/
def aluIn (start : Bool) : AluIn where
  a := operandA i
  b := operandB i
  op := i.de.aluOp
  shamt := i.de.memShamt
  start := start

/-- `lsu_ea`. -/
def lsuEa : Word := Alu.ea (aluIn i false)

def aluResult : Word := Alu.result p q.alu (aluIn i false)

def aluResultValid : Bool := Alu.resultValid q.alu (aluIn i false)

/-! ### Kinds of operation -/

def isDivOp : Bool := i.de.aluOp == .div || i.de.aluOp == .divu || i.de.aluOp == .rem || i.de.aluOp == .remu

def isMemOp : Bool := i.de.memRead || i.de.memWrite

def isCsrOp : Bool := i.de.csrWren

def isWfiOp : Bool := i.de.sysOp == .wfi

def isMretOp : Bool := i.de.sysOp == .mret

def exIdle : Bool := q.exStateQ == .idle

/-! ### Freeze -/

def wfiStall : Bool := q.wfiHaltQ && !i.intPending

def freeze : Bool := i.stall || wfiStall q i

/-! ### Memory request -/

def memReqPending : Bool :=
  i.de.valid && isMemOp i && exIdle q && !freeze q i && !i.de.exception && !q.wfiHaltQ

def isPeriLive : Bool := (lsuEa i).getLsbD periAddrBit

/-- `lsu_rsp_wait`. -/
def lsuRspWait : MemRsp := if q.memIsPeriQ then i.periRsp else i.memRsp

/-- `misaligned_of`. -/
def misalignedOf (s : MemSize) (a : Word) : Bool :=
  match s with
  | .b => false
  | .h => a.getLsbD 0
  | .w => a.extractLsb' 0 2 != 0

def memMisalignedLive : Bool := misalignedOf i.de.memSize (lsuEa i)

def memMisalignedQ : Bool := misalignedOf i.de.memSize q.memAddrQ

def memMisalignedLaunch : Bool := p.lsuLiveLoad && memReqPending q i && memMisalignedLive i

def misalignedTrap : Bool :=
  i.de.valid &&
    (if p.lsuLiveLoad then q.exStateQ == .memTrap else q.exStateQ == .memLaunch && memMisalignedQ q i)

def dmemLoadDrive : Bool :=
  p.lsuLiveLoad && memReqPending q i && !memMisalignedLive i && !isPeriLive i && i.de.memRead

def memCapture : Bool := memReqPending q i && !dmemLoadDrive p q i && !memMisalignedLaunch p q i

def memLaunchState : Bool := q.exStateQ == .memLaunch

def capturedDrive : Bool := q.memLaunchState && i.de.valid && !misalignedTrap p q i

def dmemCapturedDrive : Bool := capturedDrive p q i && !q.memIsPeriQ

def dmemStoreWe : Bool := dmemCapturedDrive p q i && i.de.memWrite

def dmemLoadHs : Bool := dmemLoadDrive p q i && i.memRsp.wready

def capturedHs : Bool := capturedDrive p q i && (lsuRspWait q i).wready

def memDone : Bool := q.exStateQ == .memWait && (lsuRspWait q i).rvalid

def storeDone : Bool := capturedHs p q i && i.de.memWrite

def memOpDone : Bool := if i.de.memRead then memDone q i else storeDone p q i

def divRunning : Bool := q.exStateQ == .divBusy && !aluResultValid q i

def memRunning : Bool := q.exStateQ == .memWait && !memDone q i

/-! ### Trap, interrupt, mret -/

def syncTrapReq : Bool :=
  (i.de.valid && !freeze q i && exIdle q && i.de.exception) || misalignedTrap p q i

def mretReq : Bool := i.de.valid && !freeze q i && exIdle q && isMretOp i

def normalIntEligible : Bool :=
  i.de.valid && !isWfiOp i && !i.de.exception && !isMemOp i && exIdle q && !freeze q i

def takeInterrupt : Bool :=
  i.intPending && !syncTrapReq p q i && !mretReq q i && (normalIntEligible q i || q.wfiHaltQ)

def trapRedirectReq : Bool := syncTrapReq p q i || mretReq q i || takeInterrupt p q i

def syncCause : Word :=
  if misalignedTrap p q i then (if i.de.memWrite then mcauseSadMis else mcauseLadMis) else i.de.exceptionCause

def syncTval : Word := if misalignedTrap p q i then q.memAddrQ else i.de.exceptionTval

def trapCause : Word := if takeInterrupt p q i then i.intCause else syncCause p q i

def trapTval : Word := if takeInterrupt p q i then 0 else syncTval p q i

def trapMepc : Word := if q.wfiHaltQ then q.wfiNextPcQ else i.de.pc

def wfiRetire : Bool := i.de.valid && exIdle q && isWfiOp i && !trapRedirectReq p q i && !i.stall

/-! ### Launches of the multi-cycle operations -/

def aluStart : Bool := i.de.valid && isDivOp i && exIdle q && !freeze q i && !trapRedirectReq p q i

def csrStart : Bool := i.de.valid && isCsrOp i && exIdle q && !freeze q i && !trapRedirectReq p q i

def csrReady : Bool := q.exStateQ == .csrWait

/-- `stall_o`. -/
def stallO : Bool :=
  aluStart p q i || divRunning q i || ((memReqPending q i || q.memLaunchState) && !storeDone p q i) ||
    q.exStateQ == .memTrap || memRunning q i || csrStart p q i || i.stall || wfiStall q i

/-- `ex_state_d`. -/
def exStateD : ExState :=
  match q.exStateQ with
  | .idle =>
    if aluStart p q i then .divBusy
    else if memMisalignedLaunch p q i then .memTrap
    else if memCapture p q i then .memLaunch
    else if dmemLoadHs p q i then .memWait
    else if csrStart p q i then .csrWait
    else .idle
  | .csrWait => .idle
  | .memLaunch =>
    if misalignedTrap p q i then .idle
    else if capturedHs p q i then (if i.de.memRead then .memWait else .idle)
    else .memLaunch
  | .memTrap => .idle
  | .divBusy => if aluResultValid q i then .idle else .divBusy
  | .memWait => if memDone q i then .idle else .memWait

/-! ### Writeback -/

/-- `load_shifted`. -/
def loadShifted : Word := (lsuRspWait q i).rdata >>> (q.memAddrQ.extractLsb' 0 2 ++ 0#3)

def loadData : Word :=
  match i.de.memSize with
  | .b =>
    if i.de.memUnsigned then ((loadShifted q i).extractLsb' 0 8).setWidth 32
    else ((loadShifted q i).extractLsb' 0 8).signExtend 32
  | .h =>
    if i.de.memUnsigned then ((loadShifted q i).extractLsb' 0 16).setWidth 32
    else ((loadShifted q i).extractLsb' 0 16).signExtend 32
  | .w => (lsuRspWait q i).rdata

/-- `wb_data_o`. -/
def wbData : Word :=
  match i.de.wbSrc with
  | .alu => aluResult p q i
  | .pc4 => pcLink i
  | .mem => loadData q i
  | .csr => i.csrRdata

/-- `wb_addr_o`. -/
def wbAddr : BitVec 5 := i.de.rd

def resultReady : Bool :=
  if isMemOp i then memOpDone p q i else if isCsrOp i then q.csrReady else aluResultValid q i

/-- `wb_en_o`. -/
def wbEn : Bool :=
  i.de.valid && i.de.regWrite && !freeze q i && resultReady p q i && !trapRedirectReq p q i

/-! ### CSR read-modify-write -/

def csrSrc : Word := if i.de.csrOp = .rwi ∨ i.de.csrOp = .rsi ∨ i.de.csrOp = .rci then i.de.imm else i.de.rs1Data

def csrOpValid : Bool :=
  i.de.valid && i.de.csrWren && !freeze q i && resultReady p q i && !trapRedirectReq p q i

/-- `csr_wdata_o`. -/
def csrWdata : Word :=
  match i.de.csrOp with
  | .rw | .rwi => csrSrc i
  | .rs | .rsi => i.csrRdata ||| csrSrc i
  | .rc | .rci => i.csrRdata &&& ~~~csrSrc i
  | .none => 0

/-- `csr_wren_o`. -/
def csrWren : Bool :=
  match i.de.csrOp with
  | .rw | .rwi => csrOpValid p q i
  | .rs | .rsi | .rc | .rci => csrOpValid p q i && csrSrc i != 0
  | .none => false

/-! ### Memory ports -/

def storeWstrb : BitVec 4 :=
  match i.de.memSize with
  | .b => 0b0001#4 <<< (lsuEa i).extractLsb' 0 2
  | .h => 0b0011#4 <<< ((lsuEa i).extractLsb' 1 1 ++ 0#1)
  | .w => 0b1111#4

def storeWdata : Word := i.de.rs2Data <<< ((lsuEa i).extractLsb' 0 2 ++ 0#3)

/-- An idle port. -/
def idleReq : MemReq := ⟨false, false, 0, 0, 0, false⟩

/-- The read-data phase of the port the registered target bit selects. -/
def readPhase : Bool := q.exStateQ == .memWait && i.de.memRead

/-- `mem_req_o`. -/
def memReq : MemReq :=
  let r : MemReq :=
    if p.lsuLiveLoad && dmemLoadDrive p q i then { idleReq with wvalid := true, addr := lsuEa i }
    else if q.memIsPeriQ then idleReq
    else
      { wvalid := dmemCapturedDrive p q i, we := dmemStoreWe p q i, addr := q.memAddrQ, wdata := q.memWdataQ,
        wstrb := q.memWstrbQ, rready := false }
  { r with rready := readPhase q i && !q.memIsPeriQ }

/-- `peri_req_o`. -/
def periReq : MemReq :=
  let r : MemReq :=
    if p.lsuLiveLoad && dmemLoadDrive p q i then idleReq
    else if q.memIsPeriQ then
      { wvalid := capturedDrive p q i, we := capturedDrive p q i && i.de.memWrite, addr := q.memAddrQ,
        wdata := q.memWdataQ, wstrb := q.memWstrbQ, rready := false }
    else idleReq
  { r with rready := readPhase q i && q.memIsPeriQ }

/-! ### Branch resolution -/

def branchTaken : Bool :=
  match i.de.branchType with
  | .beq => i.de.rs1Data == i.de.rs2Data
  | .bne => i.de.rs1Data != i.de.rs2Data
  | .blt => i.de.rs1Data.slt i.de.rs2Data
  | .bge => !i.de.rs1Data.slt i.de.rs2Data
  | .bltu => i.de.rs1Data.ult i.de.rs2Data
  | .bgeu => !i.de.rs1Data.ult i.de.rs2Data
  | .jal => true
  | .jalr => true
  | .none => false

def branchTarget : Word :=
  if i.de.branchType = .jalr then (i.de.rs1Data + i.de.imm) &&& 0xFFFFFFFE#32 else i.de.pc + i.de.imm

def cfResolving : Bool :=
  i.de.valid && !i.de.illegal && i.de.branchType != .none && !freeze q i && !trapRedirectReq p q i

def predT : Bool := i.de.predValid && i.de.predTaken

def dirMispredict : Bool := predT i ^^ branchTaken i

def tgtMispredict : Bool := predT i && branchTaken i && branchTarget i != i.de.predTarget

def mispredict : Bool := cfResolving p q i && (dirMispredict i || tgtMispredict i)

/-- `branch_valid_o`, which is also `flush_o`. -/
def branchValid : Bool := mispredict p q i || trapRedirectReq p q i

/-- `branch_addr_o`. -/
def branchAddr (trapRedirectAddr : Word) : Word :=
  if trapRedirectReq p q i then trapRedirectAddr else if branchTaken i then branchTarget i else pcLink i

/-! ### Predictor training -/

def exIsCond : Bool :=
  match i.de.branchType with
  | .beq | .bne | .blt | .bge | .bltu | .bgeu => true
  | _ => false

def exIsJalr : Bool := i.de.branchType == .jalr

def exIsCall : Bool := (i.de.branchType == .jal || exIsJalr i) && (i.de.rd == 1 || i.de.rd == 5)

def exIsReturn : Bool := exIsJalr i && (i.de.rs1Addr == 1 || i.de.rs1Addr == 5) && i.de.rd == 0

/-- `bp_train_o`. -/
def bpTrain : BpTrain where
  valid := cfResolving p q i
  cond := cfResolving p q i && exIsCond i
  call := cfResolving p q i && exIsCall i
  ret := cfResolving p q i && exIsReturn i
  taken := branchTaken i
  phtIndex := i.de.predPhtIndex
  pushPc := pcLink i

/-! ### Commit and next state -/

/-- `op_commits`. -/
def opCommits : Bool :=
  mretReq q i || (i.de.valid && !freeze q i && resultReady p q i && !trapRedirectReq p q i)

/-- One clock edge. -/
def next : ExecuteStage where
  exStateQ := exStateD p q i
  memAddrQ := if memReqPending q i then lsuEa i else q.memAddrQ
  memWdataQ := if memReqPending q i then storeWdata i else q.memWdataQ
  memWstrbQ := if memReqPending q i then storeWstrb i else q.memWstrbQ
  memIsPeriQ := if memReqPending q i then isPeriLive i else q.memIsPeriQ
  wfiHaltQ := wfiRetire p q i || (q.wfiHaltQ && !i.intPending)
  wfiNextPcQ := if wfiRetire p q i then pcLink i else q.wfiNextPcQ
  exPcQ := if opCommits p q i then i.de.pc else q.exPcQ
  exInstrQ := if opCommits p q i then i.de.instr else q.exInstrQ
  exValidQ := opCommits p q i
  alu := Alu.next q.alu (aluIn i (aluStart p q i))

/-- The flops at their reset values. -/
def reset : ExecuteStage where
  exStateQ := .idle
  memAddrQ := 0
  memWdataQ := 0
  memWstrbQ := 0
  memIsPeriQ := false
  wfiHaltQ := false
  wfiNextPcQ := 0
  exPcQ := 0
  exInstrQ := 0
  exValidQ := false
  alu := Alu.reset

end ExecuteStage

end Yarv
