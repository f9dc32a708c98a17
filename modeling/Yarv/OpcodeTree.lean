import Yarv.CExpand

/-!
# The opcode tree

The uniform 32-bit decoder of `decode_stage`: from the word to the decoded control signals.  Every signal has the
default the source gives it; the branch of the matching opcode overrides some of them.
-/

namespace Yarv

/-- The decoded control signals. -/
structure Dec where
  imm : Word
  usesRs1 : Bool
  usesRs2 : Bool
  regWrite : Bool
  csrWren : Bool
  csrOp : CsrOp
  aluOp : AluOp
  aluSrcA : AluSrcA
  aluSrcB : AluSrcB
  memRead : Bool
  memWrite : Bool
  memSize : MemSize
  memUnsigned : Bool
  memShamt : BitVec 2
  wbSrc : WbSrc
  branchType : BranchT
  illegal : Bool
  sysOp : SysOp
  excReq : Bool
  excCause : Word
  excTval : Word
  deriving DecidableEq, Repr

/-- The defaults: whatever no opcode claims is illegal. -/
def Dec.default : Dec where
  imm := 0
  usesRs1 := false
  usesRs2 := false
  regWrite := false
  csrWren := false
  csrOp := .none
  aluOp := .add
  aluSrcA := .rs1
  aluSrcB := .imm
  memRead := false
  memWrite := false
  memSize := .w
  memUnsigned := false
  memShamt := 0
  wbSrc := .alu
  branchType := .none
  illegal := true
  sysOp := .none
  excReq := false
  excCause := 0
  excTval := 0

/-! ### Fields and immediates -/

section Fields

variable (w : Word)

def opcode : BitVec 7 := w.extractLsb' 0 7
def funct3 : BitVec 3 := w.extractLsb' 12 3
def funct7 : BitVec 7 := w.extractLsb' 25 7
def funct7b5 : Bool := w.getLsbD 30
def funct5 : BitVec 5 := w.extractLsb' 27 5
def funct12 : BitVec 12 := w.extractLsb' 20 12
def aq : Bool := w.getLsbD 26
def rl : Bool := w.getLsbD 25
def rdField : BitVec 5 := w.extractLsb' 7 5
def rs1Field : BitVec 5 := w.extractLsb' 15 5
def rs2Field : BitVec 5 := w.extractLsb' 20 5

def isCsr : Bool := opcode w == opcSystem && funct3 w != 0b000#3

def isMExt : Bool := opcode w == opcOp && funct7 w == 0b0000001#7

def immI : Word := (w.extractLsb' 20 12).signExtend 32

def immS : Word := (w.extractLsb' 25 7 ++ w.extractLsb' 7 5).signExtend 32

def immB : Word :=
  (w.extractLsb' 31 1 ++ w.extractLsb' 7 1 ++ w.extractLsb' 25 6 ++ w.extractLsb' 8 4 ++ 0b0#1).signExtend 32

def immU : Word := w.extractLsb' 12 20 ++ 0#12

def immJ : Word :=
  (w.extractLsb' 31 1 ++ w.extractLsb' 12 8 ++ w.extractLsb' 20 1 ++ w.extractLsb' 21 10 ++ 0b0#1).signExtend 32

/-! ### One definition for each opcode -/

def decLui : Dec :=
  { Dec.default with regWrite := true, imm := immU w, illegal := false }

def decAuipc : Dec :=
  { Dec.default with regWrite := true, aluSrcA := .pc, imm := immU w, illegal := false }

def decJal : Dec :=
  { Dec.default with
    regWrite := true, aluSrcA := .pc, wbSrc := .pc4, branchType := .jal, imm := immJ w, illegal := false }

def decJalr : Dec :=
  if funct3 w = 0b000#3 then
    { Dec.default with
      regWrite := true, wbSrc := .pc4, branchType := .jalr, usesRs1 := true, imm := immI w, illegal := false }
  else Dec.default

def decBranch : Dec :=
  let d : Dec := { Dec.default with aluOp := .sub, aluSrcB := .rs2, usesRs1 := true, usesRs2 := true, imm := immB w }
  if funct3 w = 0b000#3 then { d with branchType := .beq, illegal := false }
  else if funct3 w = 0b001#3 then { d with branchType := .bne, illegal := false }
  else if funct3 w = 0b100#3 then { d with branchType := .blt, illegal := false }
  else if funct3 w = 0b101#3 then { d with branchType := .bge, illegal := false }
  else if funct3 w = 0b110#3 then { d with branchType := .bltu, illegal := false }
  else if funct3 w = 0b111#3 then { d with branchType := .bgeu, illegal := false }
  else d

def decLoad : Dec :=
  let d : Dec := { Dec.default with regWrite := true, wbSrc := .mem, memRead := true, usesRs1 := true, imm := immI w }
  if funct3 w = 0b000#3 then { d with memSize := .b, memUnsigned := false, illegal := false }
  else if funct3 w = 0b001#3 then { d with memSize := .h, memUnsigned := false, illegal := false }
  else if funct3 w = 0b010#3 then { d with memSize := .w, memUnsigned := false, illegal := false }
  else if funct3 w = 0b100#3 then { d with memSize := .b, memUnsigned := true, illegal := false }
  else if funct3 w = 0b101#3 then { d with memSize := .h, memUnsigned := true, illegal := false }
  else d

def decStore : Dec :=
  let d : Dec := { Dec.default with memWrite := true, usesRs1 := true, usesRs2 := true, imm := immS w }
  if funct3 w = 0b000#3 then { d with memSize := .b, illegal := false }
  else if funct3 w = 0b001#3 then { d with memSize := .h, illegal := false }
  else if funct3 w = 0b010#3 then { d with memSize := .w, illegal := false }
  else d

def decOpImm : Dec :=
  let d : Dec := { Dec.default with regWrite := true, usesRs1 := true, imm := immI w, illegal := false }
  if funct3 w = 0b000#3 then { d with aluOp := .add }
  else if funct3 w = 0b010#3 then { d with aluOp := .slt }
  else if funct3 w = 0b011#3 then { d with aluOp := .sltu }
  else if funct3 w = 0b100#3 then { d with aluOp := .xor }
  else if funct3 w = 0b110#3 then { d with aluOp := .or }
  else if funct3 w = 0b111#3 then { d with aluOp := .and }
  else if funct3 w = 0b001#3 then { d with aluOp := .sll, illegal := funct7 w != 0b0000000#7 }
  else
    { d with
      aluOp := if funct7b5 w then .sra else .srl
      illegal := funct7 w != 0b0000000#7 && funct7 w != 0b0100000#7 }

/-- The M-extension operation of a `funct3`. -/
def mExtOp (f3 : BitVec 3) : AluOp :=
  if f3 = 0b000#3 then .mul
  else if f3 = 0b001#3 then .mulh
  else if f3 = 0b010#3 then .mulhsu
  else if f3 = 0b011#3 then .mulhu
  else if f3 = 0b100#3 then .div
  else if f3 = 0b101#3 then .divu
  else if f3 = 0b110#3 then .rem
  else .remu

/-- The base R-type operation of a `funct3`. -/
def baseOp (f3 : BitVec 3) (f7b5 : Bool) : AluOp :=
  if f3 = 0b000#3 then (if f7b5 then .sub else .add)
  else if f3 = 0b001#3 then .sll
  else if f3 = 0b010#3 then .slt
  else if f3 = 0b011#3 then .sltu
  else if f3 = 0b100#3 then .xor
  else if f3 = 0b101#3 then (if f7b5 then .sra else .srl)
  else if f3 = 0b110#3 then .or
  else .and

def decOp : Dec :=
  let d : Dec :=
    { Dec.default with regWrite := true, aluSrcB := .rs2, usesRs1 := true, usesRs2 := true, illegal := false }
  if isMExt w then { d with aluOp := mExtOp (funct3 w) }
  else
    { d with
      aluOp := baseOp (funct3 w) (funct7b5 w)
      illegal := funct7 w != 0b0000000#7 && funct7 w != 0b0100000#7 }

/-- The access size of an indexed load. -/
def zilxSize : MemSize :=
  if funct3 w = 0b000#3 then .b
  else if funct3 w = 0b001#3 then .h
  else if funct3 w = 0b010#3 then .w
  else if funct3 w = 0b100#3 then .b
  else if funct3 w = 0b101#3 then .h
  else .w

def zilxUnsigned : Bool := funct3 w == 0b100#3 || funct3 w == 0b101#3

/-- `size_ok_rv32`. -/
def sizeOkRv32 : Bool :=
  funct3 w == 0b000#3 || funct3 w == 0b001#3 || funct3 w == 0b010#3 || funct3 w == 0b100#3 || funct3 w == 0b101#3

def isUnscaled : Bool := funct5 w == 0b10010#5

def isScaled : Bool := funct5 w == 0b11010#5

/-- `zilx_ok`: a documented RV32 indexed load. -/
def zilxOk : Bool :=
  if aq w || rl w then false
  else if isUnscaled w then sizeOkRv32 w && w.extractLsb' 12 2 != 0b00#2
  else if isScaled w then sizeOkRv32 w
  else false

/-- `mem_shamt`: the index scale. -/
def zilxShamt : BitVec 2 :=
  if zilxOk w && isScaled w then (match zilxSize w with | .b => 0 | .h => 1 | .w => 2) else 0

def decAmo : Dec :=
  let d : Dec :=
    { Dec.default with memSize := zilxSize w, memUnsigned := zilxUnsigned w, memShamt := zilxShamt w }
  if zilxOk w then
    { d with
      illegal := false, regWrite := true, memRead := true, aluOp := .lx, aluSrcA := .rs2, aluSrcB := .rs1,
      usesRs1 := true, usesRs2 := true, imm := 0, wbSrc := .mem }
  else d

/-- `zimm`, the zero-extended `rs1` field. -/
def zimm : Word := (rs1Field w).setWidth 32

def decCsr : Dec :=
  let d : Dec := { Dec.default with regWrite := true, wbSrc := .csr, csrWren := true, illegal := false }
  if funct3 w = 0b001#3 then { d with csrOp := .rw, usesRs1 := true }
  else if funct3 w = 0b010#3 then { d with csrOp := .rs, usesRs1 := true }
  else if funct3 w = 0b011#3 then { d with csrOp := .rc, usesRs1 := true }
  else if funct3 w = 0b101#3 then { d with csrOp := .rwi, imm := zimm w }
  else if funct3 w = 0b110#3 then { d with csrOp := .rsi, imm := zimm w }
  else if funct3 w = 0b111#3 then { d with csrOp := .rci, imm := zimm w }
  else { d with illegal := true }

def decPriv : Dec :=
  if funct12 w = 0x000#12 then
    { Dec.default with sysOp := .ecall, illegal := false, excReq := true, excCause := mcauseEcallM, excTval := 0 }
  else if funct12 w = 0x001#12 then
    { Dec.default with
      sysOp := .ebreak, illegal := false, excReq := true, excCause := mcauseBreakpoint, excTval := 0 }
  else if funct7 w = 0b0001000#7 ∧ rs2Field w = 0b00101#5 ∧ rs1Field w = 0b00000#5 then
    { Dec.default with sysOp := .wfi, illegal := false }
  else if funct7 w = 0b0011000#7 ∧ rs2Field w = 0b00010#5 ∧ rs1Field w = 0b00000#5 then
    { Dec.default with sysOp := .mret, illegal := false }
  else Dec.default

def decSystem : Dec := if isCsr w then decCsr w else decPriv w

def decMiscMem : Dec :=
  if funct3 w = 0b000#3 then { Dec.default with sysOp := .fence, illegal := false }
  else if funct3 w = 0b001#3 then { Dec.default with sysOp := .fenceI, illegal := false }
  else Dec.default

/-- The `unique case (opcode)` of the source. -/
def opcodeTree : Dec :=
  if opcode w = opcLui then decLui w
  else if opcode w = opcAuipc then decAuipc w
  else if opcode w = opcJal then decJal w
  else if opcode w = opcJalr then decJalr w
  else if opcode w = opcBranch then decBranch w
  else if opcode w = opcLoad then decLoad w
  else if opcode w = opcStore then decStore w
  else if opcode w = opcOpImm then decOpImm w
  else if opcode w = opcOp then decOp w
  else if opcode w = opcAmo then decAmo w
  else if opcode w = opcSystem then decSystem w
  else if opcode w = opcMiscMem then decMiscMem w
  else Dec.default

/-- `rs1_addr_dec`: `x0` for an instruction that does not read `rs1`. -/
def rs1AddrDec : BitVec 5 := if (opcodeTree w).usesRs1 then rs1Field w else 0

def rs2AddrDec : BitVec 5 := if (opcodeTree w).usesRs2 then rs2Field w else 0

def csrAddrDec : BitVec 12 := if isCsr w then funct12 w else 0

end Fields

end Yarv
