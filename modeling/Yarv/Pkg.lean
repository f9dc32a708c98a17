import Mathlib.Tactic

/-!
# Package types

The types `rv32_pkg` shares between the modules: the build knobs, the two native memory interfaces, the three
branch-predictor bundles, the enums of the decoder and the D/E pipeline word `de_t`.

A `logic` wire is a `Bool`, a packed vector a `BitVec`, a flop keeps the suffix `Q`.  `de_t.pred_source` is left
out: no module reads it.
-/

namespace Yarv

/-- A machine word (`XLEN = 32`). -/
abbrev Word := BitVec 32

/-- The build knobs of the CPU top.  A knob that the source only ever tests with `!= 0` is a `Bool`; the two
memory sizes carry the bounds under which the address decode of the I-mem and of the D-mem is defined. -/
structure Params where
  bpEn : Bool
  bpPushLookup : Bool
  mulSharedDsp : Bool
  execRedirIncycle : Bool
  lsuLiveLoad : Bool
  imemAddrW : Nat
  dmemAddrW : Nat
  imemAddrW_ge : 4 ≤ imemAddrW
  imemAddrW_lt : imemAddrW < 32
  dmemAddrW_ge : 3 ≤ dmemAddrW
  dmemAddrW_le : dmemAddrW ≤ 28

/-- The knobs of `rv32_pkg` and the memory sizes of `top_module`. -/
def Params.pkg : Params where
  bpEn := true
  bpPushLookup := true
  mulSharedDsp := true
  execRedirIncycle := true
  lsuLiveLoad := true
  imemAddrW := 14
  dmemAddrW := 14
  imemAddrW_ge := by decide
  imemAddrW_lt := by decide
  dmemAddrW_ge := by decide
  dmemAddrW_le := by decide

/-! ### Memory interfaces -/

/-- `mem_req_t`: native request, master to slave. -/
structure MemReq where
  wvalid : Bool
  we : Bool
  addr : Word
  wdata : Word
  wstrb : BitVec 4
  rready : Bool
  deriving DecidableEq, Repr

/-- `mem_rsp_t`: native response, slave to master. -/
structure MemRsp where
  wready : Bool
  rvalid : Bool
  rdata : Word
  bvalid : Bool
  deriving DecidableEq, Repr

/-- `ifetch_req_t`: read-only 64-bit fetch request. -/
structure IfetchReq where
  valid : Bool
  addr : Word
  rready : Bool
  deriving DecidableEq, Repr

/-- `ifetch_rsp_t`. -/
structure IfetchRsp where
  ready : Bool
  rvalid : Bool
  rdata : BitVec 64
  deriving DecidableEq, Repr

/-- `PERI_ADDR_BIT`: the address bit that steers an access to the peripheral port. -/
def periAddrBit : Nat := 28

/-! ### Branch-predictor bundles -/

/-- `bp_push_req_t`: PC stamps of the words fetch is about to push. -/
structure BpPushReq where
  pc0 : Word
  pc1 : Word

/-- `bp_push_rsp_t`: two direction bits for each pushed word and the history they were read with. -/
structure BpPushRsp where
  ghr : BitVec 9
  pred0Lo : Bool
  pred0Hi : Bool
  pred1Lo : Bool
  pred1Hi : Bool
  deriving DecidableEq, Repr

/-- `bp_lookup_rsp_t`. -/
structure BpLookupRsp where
  phtTaken : Bool
  rasValid : Bool
  rasTop : Word
  phtIndex : BitVec 9
  deriving DecidableEq, Repr

/-- `bp_train_t`: one resolved control-flow instruction. -/
structure BpTrain where
  valid : Bool
  cond : Bool
  call : Bool
  ret : Bool
  taken : Bool
  phtIndex : BitVec 9
  pushPc : Word
  deriving DecidableEq, Repr

/-! ### Decoder enums -/

/-- `alu_op_t`. -/
inductive AluOp
  | add | sub | sll | slt | sltu | xor | srl | sra | or | and
  | mul | mulh | mulhsu | mulhu | div | divu | rem | remu
  | lx
  deriving DecidableEq, Repr, Inhabited

/-- `branch_t`. -/
inductive BranchT
  | none | beq | bne | blt | bge | bltu | bgeu | jal | jalr
  deriving DecidableEq, Repr, Inhabited

/-- `alu_src_a_t`. -/
inductive AluSrcA
  | rs1 | pc | rs2
  deriving DecidableEq, Repr, Inhabited

/-- `alu_src_b_t`. -/
inductive AluSrcB
  | rs1 | imm | rs2
  deriving DecidableEq, Repr, Inhabited

/-- `wb_src_t`. -/
inductive WbSrc
  | alu | mem | pc4 | csr
  deriving DecidableEq, Repr, Inhabited

/-- `mem_size_t`. -/
inductive MemSize
  | b | h | w
  deriving DecidableEq, Repr, Inhabited

/-- `csr_op_t`. -/
inductive CsrOp
  | none | rw | rs | rc | rwi | rsi | rci
  deriving DecidableEq, Repr, Inhabited

/-- `sys_op_t`. -/
inductive SysOp
  | none | ecall | ebreak | mret | wfi | fence | fenceI
  deriving DecidableEq, Repr, Inhabited

/-! ### Cause codes -/

def mcauseInstrAcc : Word := 0x00000001
def mcauseIllegal : Word := 0x00000002
def mcauseBreakpoint : Word := 0x00000003
def mcauseLadMis : Word := 0x00000004
def mcauseSadMis : Word := 0x00000006
def mcauseEcallM : Word := 0x0000000B
def mcauseMsi : Word := 0x80000003
def mcauseMti : Word := 0x80000007
def mcauseMei : Word := 0x8000000B

/-! ### The D/E word -/

/-- `de_t`: everything decode hands to execute. -/
structure De where
  valid : Bool
  pc : Word
  instr : Word
  isCompressed : Bool
  rs1Addr : BitVec 5
  rs1Data : Word
  rs2Data : Word
  imm : Word
  rd : BitVec 5
  regWrite : Bool
  csrWren : Bool
  csrOp : CsrOp
  csrAddr : BitVec 12
  aluOp : AluOp
  aluSrcA : AluSrcA
  aluSrcB : AluSrcB
  memRead : Bool
  memWrite : Bool
  memSize : MemSize
  memUnsigned : Bool
  memShamt : BitVec 2
  wbSrc : WbSrc
  branchType : BranchT
  sysOp : SysOp
  exception : Bool
  exceptionCause : Word
  exceptionTval : Word
  illegal : Bool
  predValid : Bool
  predTaken : Bool
  predTarget : Word
  predPhtIndex : BitVec 9
  deriving DecidableEq, Repr

/-- The all-zero word a flush and a reset leave in the D/E register. -/
def De.zero : De where
  valid := false
  pc := 0
  instr := 0
  isCompressed := false
  rs1Addr := 0
  rs1Data := 0
  rs2Data := 0
  imm := 0
  rd := 0
  regWrite := false
  csrWren := false
  csrOp := .none
  csrAddr := 0
  aluOp := .add
  aluSrcA := .rs1
  aluSrcB := .rs1
  memRead := false
  memWrite := false
  memSize := .b
  memUnsigned := false
  memShamt := 0
  wbSrc := .alu
  branchType := .none
  sysOp := .none
  exception := false
  exceptionCause := 0
  exceptionTval := 0
  illegal := false
  predValid := false
  predTaken := false
  predTarget := 0
  predPhtIndex := 0

end Yarv
