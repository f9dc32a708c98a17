import Yarv.NativeRam
import Yarv.DecodeStage
import Yarv.ExecuteStage
import Yarv.Csr
import Yarv.BranchPredictor

/-!
# The CPU top

The wiring of `rv32imac_zicsr_zifencei`, in three layers.  The front end is fetch, the I-mem and decode; what execute,
the register file and the predictor drive into it is an input.  The core adds execute, the register file and the CSR
file with the trap unit; the predictor's answers, the two data ports and the interrupt lines are inputs.  The system
closes the core with the predictor and the D-mem.
-/

namespace Yarv

/-! ### Front end -/

/-- The flops of the front end. -/
structure FrontEnd where
  fetch : FetchStage
  imem : NativeRam 64
  decode : DecodeStage

/-- The inputs of the front end; `branch_valid_o` of execute is decode's flush too. -/
structure FrontEndIn where
  stall : Bool
  branchValid : Bool
  branchAddr : Word
  rfRead : BitVec 5 → Word
  exWbEn : Bool
  exWbAddr : BitVec 5
  exWbData : Word
  bpLookup : BpLookupRsp
  bpPush : BpPushRsp

/-- The parameters of the I-mem instance. -/
abbrev imemParams (p : Params) : RamParams := ⟨p.imemAddrW, 64, true, 2⟩

namespace FrontEnd

variable (p : Params) (s : FrontEnd) (i : FrontEndIn)

def decodeIn : DecodeIn where
  fe := s.fetch.fe
  feValid := s.fetch.feValid
  feNext := s.fetch.feNext
  feNextValid := s.fetch.feNextValid
  rfRead := i.rfRead
  stall := i.stall
  flush := i.branchValid
  exWbEn := i.exWbEn
  exWbAddr := i.exWbAddr
  exWbData := i.exWbData
  bpLookup := i.bpLookup

/-- The fetch inputs, for a given I-mem response. -/
def fetchInWith (rsp : IfetchRsp) : FetchIn where
  stall := DecodeStage.stallO s.decode (s.decodeIn i)
  branchValid := i.branchValid
  branchAddr := i.branchAddr
  predValid := DecodeStage.predRedirectFire p s.decode (s.decodeIn i)
  predAddr := DecodeStage.cfTarget s.decode (s.decodeIn i)
  imemRsp := rsp
  bpPush := i.bpPush
  pop2 := DecodeStage.pop2 s.decode (s.decodeIn i)

/-- The request fetch presents; it does not depend on the response. -/
def imemIn : RamReq (imemParams p).dataWidth :=
  let r := FetchStage.imemReq p s.fetch (s.fetchInWith p i ⟨false, false, 0⟩)
  { valid := r.valid, we := false, addr := r.addr, wdata := 0, wstrb := 0, rready := r.rready }

def imemRsp : IfetchRsp where
  ready := NativeRam.rspWready (imemParams p) s.imem (s.imemIn p i)
  rvalid := NativeRam.rspRvalid (imemParams p) s.imem
  rdata := NativeRam.rspRdata (imemParams p) s.imem

def fetchIn : FetchIn := s.fetchInWith p i (s.imemRsp p i)

/-- One clock edge. -/
def next : FrontEnd where
  fetch := s.fetch.next p (s.fetchIn p i)
  imem := NativeRam.next (imemParams p) s.imem (s.imemIn p i)
  decode := s.decode.next p (s.decodeIn i)

/-- The flops at their reset values, with the I-mem holding `img`. -/
structure IsReset (boot : Word) (img : Nat → BitVec 64) (s : FrontEnd) : Prop where
  fetch : s.fetch.IsReset boot
  imem : NativeRam.IsReset s.imem
  decode : s.decode.IsReset
  img : s.imem.mem = img

/-- The reset state whose other flops are zero. -/
def reset (boot : Word) (img : Nat → BitVec 64) : FrontEnd where
  fetch :=
    { pcQ := boot, reqPcQ := 0, inflightQ := 0, staleQ := 0, redirLaunchedQ := false,
      bufQ := fun _ => ⟨0, 0, false, false, false, 0⟩, headQ := 0, tailQ := 0, countQ := 0 }
  imem := { mem := img, rifQ := false, rdDQ := 0, countQ := 0, skidQ := fun _ => 0 }
  decode := { holdQ := false, holdWordQ := 0, holdPcQ := 0, holdPredQ := false, holdGhrQ := 0, deQ := De.zero }

theorem reset_isReset (boot : Word) (img : Nat → BitVec 64) : (reset boot img).IsReset boot img :=
  ⟨⟨rfl, rfl, rfl, rfl, rfl, rfl, rfl, rfl⟩, ⟨rfl, rfl, rfl⟩, ⟨rfl, rfl, rfl, rfl, rfl, rfl⟩, rfl⟩

end FrontEnd

/-! ### Core -/

/-- The flops of the core. -/
structure Core where
  fe : FrontEnd
  ex : ExecuteStage
  rf : RegFile
  csr : CsrRegfile

/-- The inputs of the core. -/
structure CoreIn where
  bpLookup : BpLookupRsp
  bpPush : BpPushRsp
  memRsp : MemRsp
  periRsp : MemRsp
  msip : Bool
  mtip : Bool
  meip : Bool

/-- No prediction, both data ports ready and silent, no interrupt. -/
def CoreIn.quiet : CoreIn where
  bpLookup := ⟨false, false, 0, 0⟩
  bpPush := ⟨0, false, false, false, false⟩
  memRsp := ⟨true, false, 0, false⟩
  periRsp := ⟨true, false, 0, false⟩
  msip := false
  mtip := false
  meip := false

namespace Core

variable (p : Params) (s : Core) (i : CoreIn)

/-- The D/E register, decode's output and execute's input. -/
def de : De := s.fe.decode.deQ

def exIn : ExecuteIn where
  de := s.de
  csrRdata := s.csr.csrRdataQ
  intPending := TrapUnit.intPending s.csr.regs.taps
  intCause := TrapUnit.intCause s.csr.regs.taps
  stall := false
  memRsp := i.memRsp
  periRsp := i.periRsp

def trapIn : TrapIn where
  takeTrap := s.ex.syncTrapReq p (s.exIn i)
  takeInterrupt := s.ex.takeInterrupt p (s.exIn i)
  mret := s.ex.mretReq (s.exIn i)
  cause := s.ex.trapCause p (s.exIn i)
  tval := s.ex.trapTval p (s.exIn i)
  pc := s.ex.trapMepc (s.exIn i)

def trapRedirectAddr : Word := TrapUnit.redirectAddr s.csr.regs.taps (s.trapIn p i)

def feIn : FrontEndIn where
  stall := s.ex.stallO p (s.exIn i)
  branchValid := s.ex.branchValid p (s.exIn i)
  branchAddr := s.ex.branchAddr p (s.exIn i) (s.trapRedirectAddr p i)
  rfRead := s.rf.read
  exWbEn := s.ex.wbEn p (s.exIn i)
  exWbAddr := ExecuteStage.wbAddr (s.exIn i)
  exWbData := s.ex.wbData p (s.exIn i)
  bpLookup := i.bpLookup
  bpPush := i.bpPush

def csrIn : CsrIn where
  csrAddr := s.de.csrAddr
  csrWren := s.ex.csrWren p (s.exIn i)
  csrData := ExecuteStage.csrWdata (s.exIn i)
  trap := TrapUnit.bundle s.csr.regs.taps (s.trapIn p i)
  msip := i.msip
  mtip := i.mtip
  meip := i.meip
  instrRetire := s.ex.exValidQ

/-- One clock edge. -/
def next : Core where
  fe := s.fe.next p (s.feIn p i)
  ex := s.ex.next p (s.exIn i)
  rf := s.rf.next (s.ex.wbEn p (s.exIn i)) (ExecuteStage.wbAddr (s.exIn i)) (s.ex.wbData p (s.exIn i))
  csr := s.csr.next (s.csrIn p i)

/-- `dmem_req_o`. -/
def dmemReq : MemReq := s.ex.memReq p (s.exIn i)

/-- The request to the peripheral bridge. -/
def periReq : MemReq := s.ex.periReq p (s.exIn i)

/-- The state behind a reset, with the I-mem holding `img` and the register file `rf`. -/
structure IsReset (boot : Word) (img : Nat → BitVec 64) (rf : RegFile) (s : Core) : Prop where
  fe : s.fe.IsReset boot img
  ex : s.ex = ExecuteStage.reset
  rf : s.rf = rf
  csr : s.csr = CsrRegfile.reset

/-- The reset state whose other flops are zero. -/
def reset (boot : Word) (img : Nat → BitVec 64) (rf : RegFile) : Core where
  fe := FrontEnd.reset boot img
  ex := ExecuteStage.reset
  rf := rf
  csr := CsrRegfile.reset

theorem reset_isReset (boot : Word) (img : Nat → BitVec 64) (rf : RegFile) :
    (reset boot img rf).IsReset boot img rf :=
  ⟨FrontEnd.reset_isReset boot img, rfl, rfl, rfl⟩

end Core

end Yarv
