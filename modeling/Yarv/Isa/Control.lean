import Yarv.Isa.Exec
import Yarv.Encoding

/-!
# The decoder and the instruction set

`Instr.control` is the control word of an instruction.  `Means w i` says that the opcode tree makes of the word `w`
the control word, the registers and the CSR of `i`.  The tree means the instruction of every word that encodes one
(`means_encode`), and accepts two families of words more (`looseOp`, `loosePriv`): it looks at `funct7` of an OP word
only where it tells two operations apart, and at `rd` of no SYSTEM word.  It accepts nothing else (`accepted`).
-/

namespace Yarv.Isa

/-! ### Control words -/

def Cond.branchType : Cond → BranchT
  | .eq => .beq
  | .ne => .bne
  | .lt => .blt
  | .ge => .bge
  | .ltu => .bltu
  | .geu => .bgeu

def ImmOp.aluOp : ImmOp → AluOp
  | .addi => .add
  | .slti => .slt
  | .sltiu => .sltu
  | .xori => .xor
  | .ori => .or
  | .andi => .and

def ShiftOp.aluOp : ShiftOp → AluOp
  | .slli => .sll
  | .srli => .srl
  | .srai => .sra

def RegOp.aluOp : RegOp → AluOp
  | .add => .add
  | .sub => .sub
  | .sll => .sll
  | .slt => .slt
  | .sltu => .sltu
  | .xor => .xor
  | .srl => .srl
  | .sra => .sra
  | .or => .or
  | .and => .and
  | .mul => .mul
  | .mulh => .mulh
  | .mulhsu => .mulhsu
  | .mulhu => .mulhu
  | .div => .div
  | .divu => .divu
  | .rem => .rem
  | .remu => .remu

def CsrFn.op (immediate : Bool) : CsrFn → CsrOp
  | .rw => if immediate then .rwi else .rw
  | .rs => if immediate then .rsi else .rs
  | .rc => if immediate then .rci else .rc

def Priv.control : Priv → Dec
  | .ecall =>
    { Dec.default with sysOp := .ecall, illegal := false, excReq := true, excCause := mcauseEcallM, excTval := 0 }
  | .ebreak =>
    { Dec.default with
      sysOp := .ebreak, illegal := false, excReq := true, excCause := mcauseBreakpoint, excTval := 0 }
  | .wfi => { Dec.default with sysOp := .wfi, illegal := false }
  | .mret => { Dec.default with sysOp := .mret, illegal := false }

namespace Instr

/-- The control word. -/
def control : Instr → Dec
  | lui _ imm => { Dec.default with regWrite := true, imm := imm ++ 0#12, illegal := false }
  | auipc _ imm => { Dec.default with regWrite := true, aluSrcA := .pc, imm := imm ++ 0#12, illegal := false }
  | jal _ off =>
    { Dec.default with
      regWrite := true, aluSrcA := .pc, wbSrc := .pc4, branchType := .jal, imm := byteOff off, illegal := false }
  | jalr _ _ imm =>
    { Dec.default with
      regWrite := true, wbSrc := .pc4, branchType := .jalr, usesRs1 := true, imm := imm.signExtend 32,
      illegal := false }
  | branch c _ _ off =>
    { Dec.default with
      aluOp := .sub, aluSrcB := .rs2, usesRs1 := true, usesRs2 := true, imm := byteOff off,
      branchType := c.branchType, illegal := false }
  | load k _ _ imm =>
    { Dec.default with
      regWrite := true, wbSrc := .mem, memRead := true, usesRs1 := true, imm := imm.signExtend 32, memSize := k.size,
      memUnsigned := k.unsigned, illegal := false }
  | store k _ _ imm =>
    { Dec.default with
      memWrite := true, usesRs1 := true, usesRs2 := true, imm := imm.signExtend 32, memSize := k.size,
      illegal := false }
  | opImm o _ _ imm =>
    { Dec.default with
      regWrite := true, usesRs1 := true, imm := imm.signExtend 32, aluOp := o.aluOp, illegal := false }
  | shiftImm o _ _ sh =>
    { Dec.default with
      regWrite := true, usesRs1 := true, imm := (o.code.1 ++ sh).signExtend 32, aluOp := o.aluOp, illegal := false }
  | op o _ _ _ =>
    { Dec.default with
      regWrite := true, aluSrcB := .rs2, usesRs1 := true, usesRs2 := true, aluOp := o.aluOp, illegal := false }
  | index k _ _ _ =>
    { Dec.default with
      memSize := k.load.size, memUnsigned := k.load.unsigned, memShamt := BitVec.ofNat 2 k.shamt, illegal := false,
      regWrite := true, memRead := true, aluOp := .lx, aluSrcA := .rs2, aluSrcB := .rs1, usesRs1 := true,
      usesRs2 := true, imm := 0, wbSrc := .mem }
  | csr f immediate _ src _ =>
    { Dec.default with
      regWrite := true, wbSrc := .csr, csrWren := true, illegal := false, csrOp := f.op immediate,
      usesRs1 := !immediate, imm := if immediate then src.setWidth 32 else 0 }
  | fence i _ _ _ => { Dec.default with sysOp := if i then .fenceI else .fence, illegal := false }
  | priv o => o.control

/-- The register it writes. -/
def rd : Instr → Reg
  | lui rd _ | auipc rd _ | jal rd _ | jalr rd _ _ | load _ rd _ _ | opImm _ rd _ _ | shiftImm _ rd _ _ | op _ rd _ _
  | index _ rd _ _ | csr _ _ rd _ _ => rd
  | _ => 0

/-- The registers it reads, `x0` where it reads none. -/
def rs1 : Instr → Reg
  | jalr _ rs1 _ | branch _ rs1 _ _ | load _ _ rs1 _ | store _ rs1 _ _ | opImm _ _ rs1 _ | shiftImm _ _ rs1 _
  | op _ _ rs1 _ | index _ _ rs1 _ => rs1
  | csr _ immediate _ src _ => if immediate then 0 else src
  | _ => 0

def rs2 : Instr → Reg
  | branch _ _ rs2 _ | store _ _ rs2 _ | op _ _ _ rs2 | index _ _ _ rs2 => rs2
  | _ => 0

def csrAddr : Instr → BitVec 12
  | csr _ _ _ _ addr => addr
  | _ => 0

theorem control_legal (i : Instr) : i.control.illegal = false := by
  cases i with
  | priv o => cases o <;> rfl
  | _ => rfl

end Instr

/-- The opcode tree makes the instruction `i` of the word `w`. -/
structure Means (w : Word) (i : Instr) : Prop where
  tree : opcodeTree w = i.control
  rd : i.control.regWrite = true → rdField w = i.rd
  rs1 : rs1AddrDec w = i.rs1
  rs2 : rs2AddrDec w = i.rs2
  csr : i.control.csrWren = true → csrAddrDec w = i.csrAddr

/-! ### Branches of the tree -/

section Tree

variable {w : Word}

private theorem opcodeTree_load (h : opcode w = opcLoad) : opcodeTree w = decLoad w := by
  rw [opcodeTree, h]
  iterate 5 rw [if_neg (by decide)]
  rw [if_pos rfl]

private theorem opcodeTree_store (h : opcode w = opcStore) : opcodeTree w = decStore w := by
  rw [opcodeTree, h]
  iterate 6 rw [if_neg (by decide)]
  rw [if_pos rfl]

private theorem opcodeTree_opImm (h : opcode w = opcOpImm) : opcodeTree w = decOpImm w := by
  rw [opcodeTree, h]
  iterate 7 rw [if_neg (by decide)]
  rw [if_pos rfl]

private theorem opcodeTree_op (h : opcode w = opcOp) : opcodeTree w = decOp w := by
  rw [opcodeTree, h]
  iterate 8 rw [if_neg (by decide)]
  rw [if_pos rfl]

private theorem opcodeTree_amo (h : opcode w = opcAmo) : opcodeTree w = decAmo w := by
  rw [opcodeTree, h]
  iterate 9 rw [if_neg (by decide)]
  rw [if_pos rfl]

private theorem opcodeTree_system (h : opcode w = opcSystem) : opcodeTree w = decSystem w := by
  rw [opcodeTree, h]
  iterate 10 rw [if_neg (by decide)]
  rw [if_pos rfl]

private theorem opcodeTree_miscMem (h : opcode w = opcMiscMem) : opcodeTree w = decMiscMem w := by
  rw [opcodeTree, h]
  iterate 11 rw [if_neg (by decide)]
  rw [if_pos rfl]

end Tree

/-! ### What the tree means by an encoding -/

section Means

variable {w : Word}

/-- The registers and the CSR, once the control word is known. -/
private theorem Means.of_tree {i : Instr} (ht : opcodeTree w = i.control)
    (hrd : i.control.regWrite = true → rdField w = i.rd)
    (hrs1 : (if i.control.usesRs1 then rs1Field w else 0) = i.rs1)
    (hrs2 : (if i.control.usesRs2 then rs2Field w else 0) = i.rs2)
    (hcsr : i.control.csrWren = true → csrAddrDec w = i.csrAddr) : Means w i := by
  refine ⟨ht, hrd, ?_, ?_, hcsr⟩
  · rw [rs1AddrDec, ht]
    exact hrs1
  · rw [rs2AddrDec, ht]
    exact hrs2

private theorem means_load {k : LoadKind} (ho : opcode w = opcLoad) (h3 : funct3 w = k.f3) :
    Means w (.load k (fRd w) (fRs1 w) (fImmI w)) := by
  refine .of_tree ?_ (fun _ => rfl) rfl rfl fun hx => nomatch hx
  rw [opcodeTree_load ho, decLoad, h3]
  cases k <;> rfl

private theorem means_store {k : StoreKind} (ho : opcode w = opcStore) (h3 : funct3 w = k.f3) :
    Means w (.store k (fRs1 w) (fRs2 w) (fImmS w)) := by
  refine .of_tree ?_ (fun hx => nomatch hx) rfl rfl fun hx => nomatch hx
  rw [opcodeTree_store ho, decStore, h3]
  cases k <;> rfl

private theorem means_branch {c : Cond} (ho : opcode w = opcBranch) (h3 : funct3 w = c.f3) :
    Means w (.branch c (fRs1 w) (fRs2 w) (fOffB w)) := by
  refine .of_tree ?_ (fun hx => nomatch hx) rfl rfl fun hx => nomatch hx
  rw [opcodeTree_branch ho, decBranch, h3]
  cases c <;> rfl

private theorem means_opImm {o : ImmOp} (ho : opcode w = opcOpImm) (h3 : funct3 w = o.f3) :
    Means w (.opImm o (fRd w) (fRs1 w) (fImmI w)) := by
  refine .of_tree ?_ (fun _ => rfl) rfl rfl fun hx => nomatch hx
  rw [opcodeTree_opImm ho, decOpImm, h3]
  cases o <;> rfl

private theorem fImmI_eq (w : Word) : fImmI w = fF7 w ++ fRs2 w := by
  unfold fImmI fF7 fRs2
  refine BitVec.eq_of_getLsbD_eq fun i hi => ?_
  simp only [BitVec.getLsbD_extractLsb', BitVec.getLsbD_append]
  interval_cases i <;> simp

private theorem funct7b5_eq (w : Word) : funct7b5 w = (funct7 w).getLsbD 5 := by
  simp [funct7b5, funct7]

private theorem means_shiftImm {o : ShiftOp} (ho : opcode w = opcOpImm) (h : (funct7 w, funct3 w) = o.code) :
    Means w (.shiftImm o (fRd w) (fRs1 w) (fRs2 w)) := by
  obtain ⟨h7, h3⟩ := Prod.ext_iff.mp h
  have himm : immI w = (o.code.1 ++ fRs2 w).signExtend 32 := by
    rw [← h7]
    change (fImmI w).signExtend 32 = _
    rw [fImmI_eq]
    rfl
  refine .of_tree ?_ (fun _ => rfl) rfl rfl fun hx => nomatch hx
  change funct7 w = o.code.1 at h7
  change funct3 w = o.code.2 at h3
  rw [opcodeTree_opImm ho, decOpImm, h3, himm, funct7b5_eq, h7]
  cases o <;> rfl

private theorem means_op {o : RegOp} (ho : opcode w = opcOp) (h : (funct7 w, funct3 w) = o.code) :
    Means w (.op o (fRd w) (fRs1 w) (fRs2 w)) := by
  obtain ⟨h7, h3⟩ := Prod.ext_iff.mp h
  change funct7 w = o.code.1 at h7
  change funct3 w = o.code.2 at h3
  refine .of_tree ?_ (fun _ => rfl) rfl rfl fun hx => nomatch hx
  rw [opcodeTree_op ho, decOp, isMExt, ho, funct7b5_eq, h7, h3]
  cases o <;> rfl

/-- The tree looks at `funct7` only where it tells two operations apart. -/
private theorem means_looseOp {o : RegOp} (ho : opcode w = opcOp) (h7 : funct7 w = 0b0100000#7)
    (h : (0#7, funct3 w) = o.code) (h0 : funct3 w ≠ 0b000#3) (h5 : funct3 w ≠ 0b101#3) :
    Means w (.op o (fRd w) (fRs1 w) (fRs2 w)) := by
  obtain ⟨hz, h3⟩ := Prod.ext_iff.mp h
  change 0#7 = o.code.1 at hz
  change funct3 w = o.code.2 at h3
  rw [h3] at h0 h5
  refine .of_tree ?_ (fun _ => rfl) rfl rfl fun hx => nomatch hx
  rw [opcodeTree_op ho, decOp, isMExt, ho, funct7b5_eq, h7, h3]
  cases o <;> first | rfl | exact absurd rfl h0 | exact absurd rfl h5 | exact absurd hz (by decide)

private theorem means_index {k : IndexKind} (ho : opcode w = opcAmo) (h : (funct7 w, funct3 w) = k.code) :
    Means w (.index k (fRd w) (fRs1 w) (fRs2 w)) := by
  obtain ⟨h7, h3⟩ := Prod.ext_iff.mp h
  change funct7 w = k.code.1 at h7
  change funct3 w = k.code.2 at h3
  have h5 : funct5 w = (funct7 w).extractLsb' 2 5 := by
    unfold funct5 funct7
    refine BitVec.eq_of_getLsbD_eq fun i hi => ?_
    simp only [BitVec.getLsbD_extractLsb']
    interval_cases i <;> simp
  have haq : aq w = (funct7 w).getLsbD 1 := by simp [aq, funct7]
  have hrl : rl w = (funct7 w).getLsbD 0 := by simp [rl, funct7]
  have hlow : w.extractLsb' 12 2 = (funct3 w).extractLsb' 0 2 := by
    unfold funct3
    refine BitVec.eq_of_getLsbD_eq fun i hi => ?_
    simp only [BitVec.getLsbD_extractLsb']
    interval_cases i <;> simp
  refine .of_tree ?_ (fun _ => rfl) rfl rfl fun hx => nomatch hx
  rw [opcodeTree_amo ho, decAmo, zilxShamt, zilxOk, isUnscaled, isScaled, sizeOkRv32, zilxSize,
    zilxUnsigned, h5, haq, hrl, hlow, h7, h3]
  cases k <;> rfl

private theorem means_csr {f : CsrFn} (ho : opcode w = opcSystem) (hf : f.code = (fF3 w).extractLsb' 0 2) :
    Means w (.csr f ((fF3 w).getLsbD 2) (fRd w) (fRs1 w) (fImmI w)) := by
  have h3 : funct3 w = BitVec.ofBool ((fF3 w).getLsbD 2) ++ f.code := by
    rw [hf]
    change fF3 w = _
    generalize fF3 w = x
    revert x
    decide
  have hne : BitVec.ofBool ((fF3 w).getLsbD 2) ++ f.code ≠ 0b000#3 := by
    cases (fF3 w).getLsbD 2 <;> cases f <;> decide
  have hcsr : isCsr w = true := by
    rw [isCsr, ho, h3, Bool.and_eq_true]
    exact ⟨rfl, bne_iff_ne.mpr hne⟩
  refine .of_tree ?_ (fun _ => rfl) ?_ rfl fun _ => ?_
  · rw [opcodeTree_system ho, decSystem, hcsr, if_pos rfl, decCsr, h3]
    cases (fF3 w).getLsbD 2 <;> cases f <;> rfl
  · rw [Instr.control, Instr.rs1]
    cases (fF3 w).getLsbD 2 <;> rfl
  · rw [csrAddrDec, hcsr, if_pos rfl]
    rfl

private theorem means_fence (i : Bool) (ho : opcode w = opcMiscMem) (h3 : funct3 w = 0#2 ++ BitVec.ofBool i) :
    Means w (.fence i (fRd w) (fRs1 w) (fImmI w)) := by
  refine .of_tree ?_ (fun hx => nomatch hx) rfl rfl fun hx => nomatch hx
  rw [opcodeTree_miscMem ho, decMiscMem, h3]
  cases i <;> rfl

/-- The tree does not look at `rd` of an `ecall`, an `ebreak`, a `wfi` or an `mret`, nor at `rs1` of the first two. -/
private theorem means_priv (o : Priv) (ho : opcode w = opcSystem) (h3 : funct3 w = 0b000#3)
    (hi : fImmI w = o.word.extractLsb' 20 12) (h1 : o = .wfi ∨ o = .mret → rs1Field w = 0#5) : Means w (.priv o) := by
  have hsys : opcodeTree w = decPriv w := by
    rw [opcodeTree_system ho, decSystem, isCsr, h3, ho]
    rfl
  have h12 : funct12 w = o.word.extractLsb' 20 12 := hi
  have h7 : funct7 w = (funct12 w).extractLsb' 5 7 := by
    unfold funct7 funct12
    refine BitVec.eq_of_getLsbD_eq fun i hi => ?_
    simp only [BitVec.getLsbD_extractLsb']
    interval_cases i <;> simp
  have h2 : rs2Field w = (funct12 w).extractLsb' 0 5 := by
    unfold rs2Field funct12
    refine BitVec.eq_of_getLsbD_eq fun i hi => ?_
    simp only [BitVec.getLsbD_extractLsb']
    interval_cases i <;> simp
  refine .of_tree ?_ ?_ ?_ ?_ ?_
  · rw [hsys, decPriv, h7, h2, h12]
    cases o with
    | ecall => rfl
    | ebreak => rfl
    | wfi =>
      rw [h1 (.inl rfl)]
      rfl
    | mret =>
      rw [h1 (.inr rfl)]
      rfl
  · cases o <;> exact fun hx => nomatch hx
  · cases o <;> rfl
  · cases o <;> rfl
  · cases o <;> exact fun hx => nomatch hx

/-- The opcode tree means what a word encodes. -/
theorem means_decode {i : Instr} (h : decode w = some i) : Means w i := by
  unfold decode at h
  rcases ite_some h with ⟨ho, h⟩ | ⟨-, h⟩
  · obtain rfl := Option.some.inj h
    exact .of_tree (opcodeTree_lui ho) (fun _ => rfl) rfl rfl fun hx => nomatch hx
  rcases ite_some h with ⟨ho, h⟩ | ⟨-, h⟩
  · obtain rfl := Option.some.inj h
    exact .of_tree (opcodeTree_auipc ho) (fun _ => rfl) rfl rfl fun hx => nomatch hx
  rcases ite_some h with ⟨ho, h⟩ | ⟨-, h⟩
  · obtain rfl := Option.some.inj h
    exact .of_tree (opcodeTree_jal ho) (fun _ => rfl) rfl rfl fun hx => nomatch hx
  rcases ite_some h with ⟨ho, h⟩ | ⟨-, h⟩
  · rcases ite_some h with ⟨h3, h⟩ | ⟨-, h⟩
    · obtain rfl := Option.some.inj h
      refine .of_tree ?_ (fun _ => rfl) rfl rfl fun hx => nomatch hx
      exact (opcodeTree_jalr ho).trans (if_pos h3)
    · cases h
  rcases ite_some h with ⟨ho, h⟩ | ⟨-, h⟩
  · obtain ⟨c, hc, rfl⟩ := (map_lookup Cond.mem_all Cond.f3_injective).mp h
    exact means_branch ho hc.symm
  rcases ite_some h with ⟨ho, h⟩ | ⟨-, h⟩
  · obtain ⟨k, hk, rfl⟩ := (map_lookup LoadKind.mem_all LoadKind.f3_injective).mp h
    exact means_load ho hk.symm
  rcases ite_some h with ⟨ho, h⟩ | ⟨-, h⟩
  · obtain ⟨k, hk, rfl⟩ := (map_lookup StoreKind.mem_all StoreKind.f3_injective).mp h
    exact means_store ho hk.symm
  rcases ite_some h with ⟨ho, h⟩ | ⟨-, h⟩
  · rcases ite_some h with ⟨-, h⟩ | ⟨-, h⟩
    · obtain ⟨o, hc, rfl⟩ := (map_lookup ShiftOp.mem_all ShiftOp.code_injective).mp h
      exact means_shiftImm ho hc.symm
    · obtain ⟨o, hc, rfl⟩ := (map_lookup ImmOp.mem_all ImmOp.f3_injective).mp h
      exact means_opImm ho hc.symm
  rcases ite_some h with ⟨ho, h⟩ | ⟨-, h⟩
  · obtain ⟨o, hc, rfl⟩ := (map_lookup RegOp.mem_all RegOp.code_injective).mp h
    exact means_op ho hc.symm
  rcases ite_some h with ⟨ho, h⟩ | ⟨-, h⟩
  · obtain ⟨k, hc, rfl⟩ := (map_lookup IndexKind.mem_all IndexKind.code_injective).mp h
    exact means_index ho hc.symm
  rcases ite_some h with ⟨ho, h⟩ | ⟨-, h⟩
  · rcases ite_some h with ⟨h3, h⟩ | ⟨-, h⟩
    · obtain ⟨o, hc, rfl⟩ := (map_lookup Priv.mem_all Priv.word_injective).mp h
      refine means_priv o ho h3 (by rw [hc]; rfl) fun _ => ?_
      rw [← hc]
      cases o <;> decide
    · obtain ⟨f, hc, rfl⟩ := (map_lookup CsrFn.mem_all CsrFn.code_injective).mp h
      exact means_csr ho hc
  rcases ite_some h with ⟨ho, h⟩ | ⟨-, h⟩
  · rcases ite_some h with ⟨h3, h⟩ | ⟨-, h⟩
    · obtain rfl := Option.some.inj h
      exact means_fence false ho h3
    rcases ite_some h with ⟨h3, h⟩ | ⟨-, h⟩
    · obtain rfl := Option.some.inj h
      exact means_fence true ho h3
    · cases h
  · cases h

end Means

/-! ### What else the tree accepts -/

section Loose

variable (w : Word)

/-- An OP word with `funct7 = 0100000` and an operation that has no second form. -/
def looseOp : Option Instr :=
  if fOp w = 0b0110011#7 ∧ fF7 w = 0b0100000#7 ∧ fF3 w ≠ 0b000#3 ∧ fF3 w ≠ 0b101#3 then
    (lookup RegOp.all RegOp.code (0#7, fF3 w)).map fun o => .op o (fRd w) (fRs1 w) (fRs2 w)
  else none

/-- A word of the four machine instructions, whatever its `rd` and, for the first two, its `rs1`. -/
def loosePriv : Option Instr :=
  if fOp w = 0b1110011#7 ∧ fF3 w = 0b000#3 then
    if fImmI w = 0x000#12 then some (.priv .ecall)
    else if fImmI w = 0x001#12 then some (.priv .ebreak)
    else if fRs1 w = 0#5 ∧ fImmI w = 0x105#12 then some (.priv .wfi)
    else if fRs1 w = 0#5 ∧ fImmI w = 0x302#12 then some (.priv .mret)
    else none
  else none

/-- The instruction the hart finds in a word. -/
def hartDecode : Option Instr := (decode w).or ((looseOp w).or (loosePriv w))

variable {w}

theorem means_loose {i : Instr} (h : hartDecode w = some i) : Means w i := by
  unfold hartDecode at h
  rcases Option.or_eq_some_iff.mp h with h | ⟨-, h⟩
  · exact means_decode h
  rcases Option.or_eq_some_iff.mp h with h | ⟨-, h⟩
  · unfold looseOp at h
    rcases ite_some h with ⟨⟨ho, h7, h0, h5⟩, h⟩ | ⟨-, h⟩
    · obtain ⟨o, hc, rfl⟩ := (map_lookup RegOp.mem_all RegOp.code_injective).mp h
      exact means_looseOp ho h7 hc.symm h0 h5
    · cases h
  · unfold loosePriv at h
    rcases ite_some h with ⟨⟨ho, h3⟩, h⟩ | ⟨-, h⟩
    · rcases ite_some h with ⟨hi, h⟩ | ⟨-, h⟩
      · obtain rfl := Option.some.inj h
        exact means_priv .ecall ho h3 hi fun hx => by rcases hx with hx | hx <;> cases hx
      rcases ite_some h with ⟨hi, h⟩ | ⟨-, h⟩
      · obtain rfl := Option.some.inj h
        exact means_priv .ebreak ho h3 hi fun hx => by rcases hx with hx | hx <;> cases hx
      rcases ite_some h with ⟨⟨h1, hi⟩, h⟩ | ⟨-, h⟩
      · obtain rfl := Option.some.inj h
        exact means_priv .wfi ho h3 hi fun _ => h1
      rcases ite_some h with ⟨⟨h1, hi⟩, h⟩ | ⟨-, h⟩
      · obtain rfl := Option.some.inj h
        exact means_priv .mret ho h3 hi fun _ => h1
      · cases h
    · cases h

/-! ### Nothing else is accepted -/

private theorem hartDecode_of_encode {i : Instr} (h : i.encode = w) : ∃ i, hartDecode w = some i := by
  rw [hartDecode, decode_iff.mpr h]
  exact ⟨i, rfl⟩

private theorem accepted_jalr (ho : opcode w = opcJalr) (hl : (decJalr w).illegal = false) :
    ∃ i, hartDecode w = some i := by
  by_cases h3 : fF3 w = 0b000#3
  · refine hartDecode_of_encode (i := .jalr (fRd w) (fRs1 w) (fImmI w)) ?_
    have ho' : fOp w = 0b1100111#7 := ho
    rw [Instr.encode, ← ho', ← h3, iType_self]
  · rw [decJalr, if_neg (show ¬funct3 w = 0b000#3 from h3)] at hl
    cases hl

private theorem accepted_branch (ho : opcode w = opcBranch) (hl : (decBranch w).illegal = false) :
    ∃ i, hartDecode w = some i := by
  have hc : ∃ c : Cond, c.f3 = fF3 w := by
    rcases three_bits (funct3 w) with h | h | h | h | h | h | h | h
    · exact ⟨.eq, h.symm⟩
    · exact ⟨.ne, h.symm⟩
    · simp [decBranch, h, Dec.default] at hl
    · simp [decBranch, h, Dec.default] at hl
    · exact ⟨.lt, h.symm⟩
    · exact ⟨.ge, h.symm⟩
    · exact ⟨.ltu, h.symm⟩
    · exact ⟨.geu, h.symm⟩
  obtain ⟨c, hc⟩ := hc
  refine hartDecode_of_encode (i := .branch c (fRs1 w) (fRs2 w) (fOffB w)) ?_
  have ho' : fOp w = 0b1100011#7 := ho
  rw [Instr.encode, ← ho', hc, bType_self]

private theorem accepted_load (ho : opcode w = opcLoad) (hl : (decLoad w).illegal = false) :
    ∃ i, hartDecode w = some i := by
  have hk : ∃ k : LoadKind, k.f3 = fF3 w := by
    rcases three_bits (funct3 w) with h | h | h | h | h | h | h | h
    · exact ⟨.lb, h.symm⟩
    · exact ⟨.lh, h.symm⟩
    · exact ⟨.lw, h.symm⟩
    · simp [decLoad, h, Dec.default] at hl
    · exact ⟨.lbu, h.symm⟩
    · exact ⟨.lhu, h.symm⟩
    · simp [decLoad, h, Dec.default] at hl
    · simp [decLoad, h, Dec.default] at hl
  obtain ⟨k, hk⟩ := hk
  refine hartDecode_of_encode (i := .load k (fRd w) (fRs1 w) (fImmI w)) ?_
  have ho' : fOp w = 0b0000011#7 := ho
  rw [Instr.encode, ← ho', hk, iType_self]

private theorem accepted_store (ho : opcode w = opcStore) (hl : (decStore w).illegal = false) :
    ∃ i, hartDecode w = some i := by
  have hk : ∃ k : StoreKind, k.f3 = fF3 w := by
    rcases three_bits (funct3 w) with h | h | h | h | h | h | h | h
    · exact ⟨.sb, h.symm⟩
    · exact ⟨.sh, h.symm⟩
    · exact ⟨.sw, h.symm⟩
    all_goals simp [decStore, h, Dec.default] at hl
  obtain ⟨k, hk⟩ := hk
  refine hartDecode_of_encode (i := .store k (fRs1 w) (fRs2 w) (fImmS w)) ?_
  have ho' : fOp w = 0b0100011#7 := ho
  rw [Instr.encode, ← ho', hk, sType_self]

private theorem accepted_opImm (ho : opcode w = opcOpImm) (hl : (decOpImm w).illegal = false) :
    ∃ i, hartDecode w = some i := by
  have hk : (∃ o : ImmOp, o.f3 = fF3 w) ∨ ∃ o : ShiftOp, o.code = (fF7 w, fF3 w) := by
    rcases three_bits (funct3 w) with h | h | h | h | h | h | h | h
    · exact .inl ⟨.addi, h.symm⟩
    · have h7 : funct7 w = 0#7 := by simpa [decOpImm, h] using hl
      exact .inr ⟨.slli, Prod.ext h7.symm h.symm⟩
    · exact .inl ⟨.slti, h.symm⟩
    · exact .inl ⟨.sltiu, h.symm⟩
    · exact .inl ⟨.xori, h.symm⟩
    · have h7 : funct7 w = 0#7 ∨ funct7 w = 0b0100000#7 := by
        simp only [decOpImm, h] at hl
        simp only [BitVec.reduceEq, if_false, Bool.and_eq_false_iff, bne_eq_false_iff_eq] at hl
        exact hl
      rcases h7 with h7 | h7
      · exact .inr ⟨.srli, Prod.ext h7.symm h.symm⟩
      · exact .inr ⟨.srai, Prod.ext h7.symm h.symm⟩
    · exact .inl ⟨.ori, h.symm⟩
    · exact .inl ⟨.andi, h.symm⟩
  have ho' : fOp w = 0b0010011#7 := ho
  rcases hk with ⟨o, hc⟩ | ⟨o, hc⟩
  · refine hartDecode_of_encode (i := .opImm o (fRd w) (fRs1 w) (fImmI w)) ?_
    rw [Instr.encode, ← ho', hc, iType_self]
  · refine hartDecode_of_encode (i := .shiftImm o (fRd w) (fRs1 w) (fRs2 w)) ?_
    rw [Instr.encode, ← ho', hc, rType_self]

/-- Every `funct3` names an operation of the base and one of the multiplier. -/
private theorem base_of_f3 (x : BitVec 3) : ∃ o : RegOp, o.code = (0#7, x) := by
  rcases three_bits x with rfl | rfl | rfl | rfl | rfl | rfl | rfl | rfl
  · exact ⟨.add, rfl⟩
  · exact ⟨.sll, rfl⟩
  · exact ⟨.slt, rfl⟩
  · exact ⟨.sltu, rfl⟩
  · exact ⟨.xor, rfl⟩
  · exact ⟨.srl, rfl⟩
  · exact ⟨.or, rfl⟩
  · exact ⟨.and, rfl⟩

private theorem mul_of_f3 (x : BitVec 3) : ∃ o : RegOp, o.code = (1#7, x) := by
  rcases three_bits x with rfl | rfl | rfl | rfl | rfl | rfl | rfl | rfl
  · exact ⟨.mul, rfl⟩
  · exact ⟨.mulh, rfl⟩
  · exact ⟨.mulhsu, rfl⟩
  · exact ⟨.mulhu, rfl⟩
  · exact ⟨.div, rfl⟩
  · exact ⟨.divu, rfl⟩
  · exact ⟨.rem, rfl⟩
  · exact ⟨.remu, rfl⟩

private theorem accepted_op (ho : opcode w = opcOp) (hl : (decOp w).illegal = false) :
    ∃ i, hartDecode w = some i := by
  have ho' : fOp w = 0b0110011#7 := ho
  have hcode : ∀ o : RegOp, o.code = (fF7 w, fF3 w) → ∃ i, hartDecode w = some i := by
    intro o hc
    refine hartDecode_of_encode (i := .op o (fRd w) (fRs1 w) (fRs2 w)) ?_
    rw [Instr.encode, ← ho', hc, rType_self]
  have h7 : funct7 w = 1#7 ∨ funct7 w = 0#7 ∨ funct7 w = 0b0100000#7 := by
    by_cases h1 : funct7 w = 1#7
    · exact .inl h1
    · have hm : isMExt w = false := by simp [isMExt, h1]
      rw [decOp, hm, if_neg Bool.false_ne_true] at hl
      simp only [Bool.and_eq_false_iff, bne_eq_false_iff_eq] at hl
      exact .inr hl
  rcases h7 with h7 | h7 | h7
  · obtain ⟨o, hc⟩ := mul_of_f3 (fF3 w)
    exact hcode o (hc.trans (Prod.ext h7.symm rfl))
  · obtain ⟨o, hc⟩ := base_of_f3 (fF3 w)
    exact hcode o (hc.trans (Prod.ext h7.symm rfl))
  · by_cases h0 : fF3 w = 0b000#3
    · exact hcode .sub (Prod.ext h7.symm h0.symm)
    by_cases h5 : fF3 w = 0b101#3
    · exact hcode .sra (Prod.ext h7.symm h5.symm)
    obtain ⟨o, hc⟩ := base_of_f3 (fF3 w)
    have hloose : looseOp w = some (.op o (fRd w) (fRs1 w) (fRs2 w)) := by
      rw [looseOp, if_pos ⟨ho', h7, h0, h5⟩, (lookup_iff RegOp.mem_all RegOp.code_injective).mpr hc]
      rfl
    rw [hartDecode, hloose]
    cases decode w with
    | some i => exact ⟨i, rfl⟩
    | none => exact ⟨_, rfl⟩

private theorem accepted_amo (ho : opcode w = opcAmo) (hl : (decAmo w).illegal = false) :
    ∃ i, hartDecode w = some i := by
  have ho' : fOp w = 0b0101111#7 := ho
  have hok : zilxOk w = true := by
    cases hz : zilxOk w with
    | true => rfl
    | false =>
      rw [decAmo, hz, if_neg Bool.false_ne_true] at hl
      cases hl
  have h7 : ∀ f5 : BitVec 5, aq w = false → rl w = false → funct5 w = f5 → fF7 w = f5 ++ 0#2 := by
    rintro f5 haq hrl rfl
    unfold fF7 funct5
    refine BitVec.eq_of_getLsbD_eq fun i hi => ?_
    have haq' : w[26] = false := by simpa [aq] using haq
    have hrl' : w[25] = false := by simpa [rl] using hrl
    simp only [BitVec.getLsbD_extractLsb', BitVec.getLsbD_append]
    interval_cases i <;> simp [haq', hrl']
  have hcode : ∀ k : IndexKind, k.code = (fF7 w, fF3 w) → ∃ i, hartDecode w = some i := by
    intro k hc
    refine hartDecode_of_encode (i := .index k (fRd w) (fRs1 w) (fRs2 w)) ?_
    rw [Instr.encode, ← ho', hc, rType_self]
  have hlow : w.extractLsb' 12 2 = (funct3 w).extractLsb' 0 2 := by
    unfold funct3
    refine BitVec.eq_of_getLsbD_eq fun i hi => ?_
    simp only [BitVec.getLsbD_extractLsb']
    interval_cases i <;> simp
  unfold zilxOk at hok
  split_ifs at hok with hord hun hsc
  · rw [Bool.not_eq_true, Bool.or_eq_false_iff] at hord
    rw [isUnscaled, beq_iff_eq] at hun
    have hf7 := h7 _ hord.1 hord.2 hun
    rw [hlow, sizeOkRv32] at hok
    rcases three_bits (funct3 w) with h | h | h | h | h | h | h | h
    · simp [h] at hok
    · exact hcode .lxh (Prod.ext hf7.symm h.symm)
    · exact hcode .lxw (Prod.ext hf7.symm h.symm)
    · simp [h] at hok
    · simp [h] at hok
    · exact hcode .lxhu (Prod.ext hf7.symm h.symm)
    · simp [h] at hok
    · simp [h] at hok
  · rw [Bool.not_eq_true, Bool.or_eq_false_iff] at hord
    rw [isScaled, beq_iff_eq] at hsc
    have hf7 := h7 _ hord.1 hord.2 hsc
    rw [sizeOkRv32] at hok
    rcases three_bits (funct3 w) with h | h | h | h | h | h | h | h
    · exact hcode .lxsb (Prod.ext hf7.symm h.symm)
    · exact hcode .lxsh (Prod.ext hf7.symm h.symm)
    · exact hcode .lxsw (Prod.ext hf7.symm h.symm)
    · simp [h] at hok
    · exact hcode .lxsbu (Prod.ext hf7.symm h.symm)
    · exact hcode .lxshu (Prod.ext hf7.symm h.symm)
    · simp [h] at hok
    · simp [h] at hok

private theorem accepted_csr (ho : opcode w = opcSystem) (h0 : fF3 w ≠ 0b000#3) (hl : (decCsr w).illegal = false) :
    ∃ i, hartDecode w = some i := by
  have hf : ∃ f : CsrFn, f.code = (fF3 w).extractLsb' 0 2 := by
    rcases three_bits (funct3 w) with h | h | h | h | h | h | h | h
    · exact absurd h h0
    all_goals
      have h' : fF3 w = funct3 w := rfl
      rw [h', h]
    · exact ⟨.rw, rfl⟩
    · exact ⟨.rs, rfl⟩
    · exact ⟨.rc, rfl⟩
    · simp [decCsr, h] at hl
    · exact ⟨.rw, rfl⟩
    · exact ⟨.rs, rfl⟩
    · exact ⟨.rc, rfl⟩
  obtain ⟨f, hf⟩ := hf
  have h3 : BitVec.ofBool ((fF3 w).getLsbD 2) ++ f.code = fF3 w := by
    rw [hf]
    generalize fF3 w = x
    revert x
    decide
  refine hartDecode_of_encode (i := .csr f ((fF3 w).getLsbD 2) (fRd w) (fRs1 w) (fImmI w)) ?_
  have ho' : fOp w = 0b1110011#7 := ho
  rw [Instr.encode, h3, ← ho', iType_self]

private theorem accepted_priv (ho : opcode w = opcSystem) (h0 : fF3 w = 0b000#3) (hl : (decPriv w).illegal = false) :
    ∃ i, hartDecode w = some i := by
  have h12 : ∀ x : BitVec 12, funct7 w = x.extractLsb' 5 7 → rs2Field w = x.extractLsb' 0 5 → fImmI w = x := by
    intro x h7 h2
    have hx : x = x.extractLsb' 5 7 ++ x.extractLsb' 0 5 := by
      refine BitVec.eq_of_getLsbD_eq fun i hi => ?_
      simp only [BitVec.getLsbD_extractLsb', BitVec.getLsbD_append]
      interval_cases i <;> simp
    rw [fImmI_eq, hx, ← h7, ← h2]
    rfl
  have hloose : ∃ i, loosePriv w = some i := by
    rw [loosePriv, if_pos ⟨ho, h0⟩]
    unfold decPriv at hl
    split_ifs at hl with he hb hw hm
    · exact ⟨_, if_pos he⟩
    · exact ⟨_, (if_neg he).trans (if_pos hb)⟩
    · have hi := h12 0x105#12 hw.1 hw.2.1
      exact ⟨_, (if_neg he).trans ((if_neg hb).trans (if_pos ⟨hw.2.2, hi⟩))⟩
    · have hi := h12 0x302#12 hm.1 hm.2.1
      refine ⟨_, (if_neg he).trans ((if_neg hb).trans ((if_neg ?_).trans (if_pos ⟨hm.2.2, hi⟩)))⟩
      rw [hi]
      exact fun h => absurd h.2 (by decide)
    · cases hl
  obtain ⟨i, hi⟩ := hloose
  rw [hartDecode, hi]
  cases decode w with
  | some i => exact ⟨i, rfl⟩
  | none =>
    cases looseOp w with
    | some i => exact ⟨i, rfl⟩
    | none => exact ⟨i, rfl⟩

private theorem accepted_miscMem (ho : opcode w = opcMiscMem) (hl : (decMiscMem w).illegal = false) :
    ∃ i, hartDecode w = some i := by
  have ho' : fOp w = 0b0001111#7 := ho
  by_cases h0 : fF3 w = 0b000#3
  · refine hartDecode_of_encode (i := .fence false (fRd w) (fRs1 w) (fImmI w)) ?_
    rw [Instr.encode, ← ho']
    change iType (fImmI w) (fRs1 w) 0b000#3 (fRd w) (fOp w) = w
    rw [← h0, iType_self]
  by_cases h1 : fF3 w = 0b001#3
  · refine hartDecode_of_encode (i := .fence true (fRd w) (fRs1 w) (fImmI w)) ?_
    rw [Instr.encode, ← ho']
    change iType (fImmI w) (fRs1 w) 0b001#3 (fRd w) (fOp w) = w
    rw [← h1, iType_self]
  rw [decMiscMem, if_neg (show ¬funct3 w = 0b000#3 from h0), if_neg (show ¬funct3 w = 0b001#3 from h1)] at hl
  cases hl

/-- The tree accepts no word the hart finds no instruction in. -/
theorem accepted (hl : (opcodeTree w).illegal = false) : ∃ i, hartDecode w = some i := by
  by_cases h1 : opcode w = opcLui
  · refine hartDecode_of_encode (i := .lui (fRd w) (fImmU w)) ?_
    have ho : fOp w = 0b0110111#7 := h1
    rw [Instr.encode, ← ho, uType_self]
  by_cases h2 : opcode w = opcAuipc
  · refine hartDecode_of_encode (i := .auipc (fRd w) (fImmU w)) ?_
    have ho : fOp w = 0b0010111#7 := h2
    rw [Instr.encode, ← ho, uType_self]
  by_cases h3 : opcode w = opcJal
  · refine hartDecode_of_encode (i := .jal (fRd w) (fOffJ w)) ?_
    have ho : fOp w = 0b1101111#7 := h3
    rw [Instr.encode, ← ho, jType_self]
  by_cases h4 : opcode w = opcJalr
  · exact accepted_jalr h4 (opcodeTree_jalr h4 ▸ hl)
  by_cases h5 : opcode w = opcBranch
  · exact accepted_branch h5 (opcodeTree_branch h5 ▸ hl)
  by_cases h6 : opcode w = opcLoad
  · exact accepted_load h6 (opcodeTree_load h6 ▸ hl)
  by_cases h7 : opcode w = opcStore
  · exact accepted_store h7 (opcodeTree_store h7 ▸ hl)
  by_cases h8 : opcode w = opcOpImm
  · exact accepted_opImm h8 (opcodeTree_opImm h8 ▸ hl)
  by_cases h9 : opcode w = opcOp
  · exact accepted_op h9 (opcodeTree_op h9 ▸ hl)
  by_cases h10 : opcode w = opcAmo
  · exact accepted_amo h10 (opcodeTree_amo h10 ▸ hl)
  by_cases h11 : opcode w = opcSystem
  · rw [opcodeTree_system h11, decSystem] at hl
    by_cases h0 : funct3 w = 0b000#3
    · have hcsr : isCsr w = false := by simp [isCsr, h0]
      rw [hcsr, if_neg Bool.false_ne_true] at hl
      exact accepted_priv h11 h0 hl
    · have hcsr : isCsr w = true := by simp [isCsr, h11, h0]
      rw [hcsr, if_pos rfl] at hl
      exact accepted_csr h11 h0 hl
  by_cases h12 : opcode w = opcMiscMem
  · exact accepted_miscMem h12 (opcodeTree_miscMem h12 ▸ hl)
  · rw [opcodeTree, if_neg h1, if_neg h2, if_neg h3, if_neg h4, if_neg h5, if_neg h6, if_neg h7, if_neg h8, if_neg h9,
      if_neg h10, if_neg h11, if_neg h12] at hl
    cases hl

/-! ### The loose words -/

/-- The words the hart finds an instruction in and the instruction set does not: an OP word with `funct7 = 0100000`
whose operation has no second form, and one of the four machine instructions with an `rd` or, for `ecall` and
`ebreak`, an `rs1`. -/
def LooseWord (w : Word) : Prop :=
  fOp w = 0b0110011#7 ∧ fF7 w = 0b0100000#7 ∧ fF3 w ≠ 0b000#3 ∧ fF3 w ≠ 0b101#3 ∨
    fOp w = 0b1110011#7 ∧ fF3 w = 0b000#3 ∧
      ((fImmI w = 0x000#12 ∨ fImmI w = 0x001#12) ∧ (fRd w ≠ 0#5 ∨ fRs1 w ≠ 0#5) ∨
        (fImmI w = 0x105#12 ∨ fImmI w = 0x302#12) ∧ fRs1 w = 0#5 ∧ fRd w ≠ 0#5)

instance : DecidablePred LooseWord := fun _ => inferInstanceAs (Decidable (_ ∨ _))

private theorem decode_op (ho : fOp w = 0b0110011#7) :
    decode w = (lookup RegOp.all RegOp.code (fF7 w, fF3 w)).map fun o => .op o (fRd w) (fRs1 w) (fRs2 w) := by
  rw [decode, ho]
  iterate 8 rw [if_neg (by decide)]
  rw [if_pos rfl]

private theorem decode_priv (ho : fOp w = 0b1110011#7) (h3 : fF3 w = 0b000#3) :
    decode w = (lookup Priv.all Priv.word w).map .priv := by
  rw [decode, ho]
  iterate 10 rw [if_neg (by decide)]
  rw [if_pos rfl, if_pos h3]

/-- The word of a machine instruction has no `rd` and no `rs1`. -/
private theorem priv_of_fields (o : Priv) (ho : fOp w = 0b1110011#7) (h3 : fF3 w = 0b000#3) (hrd : fRd w = 0#5)
    (hrs1 : fRs1 w = 0#5) (hi : fImmI w = o.word.extractLsb' 20 12) : decode w = some (.priv o) := by
  have hw : o.word = w := by
    rw [← iType_self w, ho, h3, hrd, hrs1, hi]
    cases o <;> decide
  rw [decode_priv ho h3, map_lookup Priv.mem_all Priv.word_injective]
  exact ⟨o, hw, rfl⟩

/-- The instruction set finds no instruction in a loose word. -/
private theorem decode_of_loose (h : LooseWord w) : decode w = none := by
  cases hd : decode w with
  | none => rfl
  | some i =>
    rcases h with ⟨ho, h7, h0, h5⟩ | ⟨ho, h3, h⟩
    · rw [decode_op ho] at hd
      obtain ⟨o, hc, -⟩ := (map_lookup RegOp.mem_all RegOp.code_injective).mp hd
      obtain ⟨hc7, hc3⟩ := Prod.ext_iff.mp hc
      change o.code.1 = fF7 w at hc7
      change o.code.2 = fF3 w at hc3
      rw [h7] at hc7
      rw [← hc3] at h0 h5
      cases o <;> first | exact absurd hc7 (by decide) | exact absurd rfl h0 | exact absurd rfl h5
    · rw [decode_priv ho h3] at hd
      obtain ⟨o, rfl, -⟩ := (map_lookup Priv.mem_all Priv.word_injective).mp hd
      have hrd : fRd o.word = 0#5 := by cases o <;> decide
      have hrs1 : fRs1 o.word = 0#5 := by cases o <;> decide
      rcases h with ⟨-, hne⟩ | ⟨-, -, hne⟩
      · rcases hne with hne | hne
        · exact absurd hrd hne
        · exact absurd hrs1 hne
      · exact absurd hrd hne

/-- The hart does. -/
private theorem hartDecode_of_loose (h : LooseWord w) : ∃ i, hartDecode w = some i := by
  rw [hartDecode, decode_of_loose h, Option.none_or]
  rcases h with ⟨ho, h7, h0, h5⟩ | ⟨ho, h3, h⟩
  · obtain ⟨o, hc⟩ := base_of_f3 (fF3 w)
    refine ⟨.op o (fRd w) (fRs1 w) (fRs2 w), ?_⟩
    rw [looseOp, if_pos ⟨ho, h7, h0, h5⟩, (lookup_iff RegOp.mem_all RegOp.code_injective).mpr hc]
    rfl
  · have hop : looseOp w = none := by
      rw [looseOp, if_neg]
      rintro ⟨hop, -⟩
      rw [ho] at hop
      exact absurd hop (by decide)
    rw [hop, Option.none_or, loosePriv, if_pos ⟨ho, h3⟩]
    rcases h with ⟨hi | hi, -⟩ | ⟨hi | hi, hrs1, -⟩
    · exact ⟨_, if_pos hi⟩
    · rw [hi]
      exact ⟨_, rfl⟩
    · rw [hi, hrs1]
      exact ⟨_, rfl⟩
    · rw [hi, hrs1]
      exact ⟨_, rfl⟩

/-- The hart finds in a word what the instruction set finds in it, unless it is loose. -/
theorem hartDecode_eq_iff : hartDecode w = decode w ↔ ¬LooseWord w := by
  constructor
  · intro h hl
    obtain ⟨i, hi⟩ := hartDecode_of_loose hl
    rw [h, decode_of_loose hl] at hi
    cases hi
  · intro hl
    cases hd : decode w with
    | some i => rw [hartDecode, hd, Option.some_or]
    | none =>
      have hop : looseOp w = none := by
        rw [looseOp, if_neg fun h => hl (.inl h)]
      have hpriv : loosePriv w = none := by
        rw [loosePriv]
        split_ifs with h h0 h1 h5 h2
        · by_cases hz : fRd w = 0#5 ∧ fRs1 w = 0#5
          · rw [priv_of_fields .ecall h.1 h.2 hz.1 hz.2 h0] at hd
            cases hd
          · exact absurd (.inr ⟨h.1, h.2, .inl ⟨.inl h0, not_and_or.mp hz⟩⟩) hl
        · by_cases hz : fRd w = 0#5 ∧ fRs1 w = 0#5
          · rw [priv_of_fields .ebreak h.1 h.2 hz.1 hz.2 h1] at hd
            cases hd
          · exact absurd (.inr ⟨h.1, h.2, .inl ⟨.inr h1, not_and_or.mp hz⟩⟩) hl
        · by_cases hz : fRd w = 0#5
          · rw [priv_of_fields .wfi h.1 h.2 hz h5.1 h5.2] at hd
            cases hd
          · exact absurd (.inr ⟨h.1, h.2, .inr ⟨.inl h5.2, h5.1, hz⟩⟩) hl
        · by_cases hz : fRd w = 0#5
          · rw [priv_of_fields .mret h.1 h.2 hz h2.1 h2.2] at hd
            cases hd
          · exact absurd (.inr ⟨h.1, h.2, .inr ⟨.inr h2.2, h2.1, hz⟩⟩) hl
        · rfl
        · rfl
      rw [hartDecode, hd, hop, hpriv]
      rfl

end Loose

end Yarv.Isa
