import Yarv.Isa.Expander
import Yarv.WorldRun

/-!
# The hart as a machine of the instruction set

`hart` is the decoder of the hart: that of the instruction set with the words and halfwords it accepts besides.  The
interpreter is the machine of `hart` (`stepOn_eq`, `eventOn_eq`), and so is the pipeline in its surroundings.  A CSR
that does not exist reads 0 and ignores writes, with no trap, in both: `csr_regfile` documents it so.
-/

namespace Yarv.Isa

open Clocked ExecuteStage ByteMem DecodeStage FetchStage

/-! ### Arithmetic -/

section Arithmetic

variable (x y : Word)

/-- The upper half of a product of 64 bits. -/
private theorem high_ofInt (z : Int) : (BitVec.ofInt 64 z).extractLsb' 32 32 = BitVec.ofInt 32 (z / 2 ^ 32) := by
  refine BitVec.eq_of_toNat_eq ?_
  simp only [BitVec.extractLsb'_toNat, BitVec.toNat_ofInt, Nat.shiftRight_eq_div_pow]
  omega

private theorem mul_eq : BitVec.ofInt 32 (x.toInt * y.toInt) = x * y := by
  refine BitVec.eq_of_toInt_eq ?_
  rw [BitVec.toInt_ofInt, BitVec.toInt_mul]

private theorem mulh_eq : BitVec.ofInt 32 (x.toInt * y.toInt / 2 ^ 32) =
    (x.signExtend 64 * y.signExtend 64).extractLsb' 32 32 := by
  rw [← high_ofInt]
  congr 1
  refine BitVec.eq_of_toInt_eq ?_
  rw [BitVec.toInt_ofInt, BitVec.toInt_mul, BitVec.toInt_signExtend_of_le (by omega),
    BitVec.toInt_signExtend_of_le (by omega)]

private theorem mulhsu_eq : BitVec.ofInt 32 (x.toInt * y.toNat / 2 ^ 32) =
    (x.signExtend 64 * y.setWidth 64).extractLsb' 32 32 := by
  rw [← high_ofInt]
  congr 1
  refine BitVec.eq_of_toInt_eq ?_
  have hy : (y.setWidth 64).toInt = y.toNat := by
    rw [BitVec.toInt_eq_toNat_of_lt, BitVec.toNat_setWidth]
    · have := y.isLt
      omega
    · rw [BitVec.toNat_setWidth]
      have := y.isLt
      omega
  rw [BitVec.toInt_ofInt, BitVec.toInt_mul, BitVec.toInt_signExtend_of_le (by omega), hy]

private theorem mulhu_eq : BitVec.ofNat 32 (x.toNat * y.toNat / 2 ^ 32) =
    (x.setWidth 64 * y.setWidth 64).extractLsb' 32 32 := by
  refine BitVec.eq_of_toNat_eq ?_
  have hx := x.isLt
  have hy := y.isLt
  have hlt : x.toNat * y.toNat < 2 ^ 64 := by
    calc x.toNat * y.toNat < 2 ^ 32 * 2 ^ 32 := Nat.mul_lt_mul'' hx hy
      _ = 2 ^ 64 := by norm_num
  have hprod : (x.setWidth 64 * y.setWidth 64).toNat = x.toNat * y.toNat := by
    rw [BitVec.toNat_mul, BitVec.toNat_setWidth_of_le (by omega), BitVec.toNat_setWidth_of_le (by omega),
      Nat.mod_eq_of_lt hlt]
  rw [BitVec.extractLsb'_toNat, hprod, BitVec.toNat_ofNat, Nat.shiftRight_eq_div_pow]

private theorem div_eq : BitVec.ofInt 32 (x.toInt.tdiv y.toInt) = x.sdiv y := by
  refine BitVec.eq_of_toInt_eq ?_
  rw [BitVec.toInt_ofInt, BitVec.toInt_sdiv]

private theorem rem_eq : BitVec.ofInt 32 (x.toInt.tmod y.toInt) = x.srem y := by
  refine BitVec.eq_of_toInt_eq ?_
  rw [BitVec.toInt_ofInt, BitVec.toInt_srem]
  have h := BitVec.toInt_srem x y
  rw [← h]
  exact BitVec.toInt_bmod_cancel _

/-- The ALU computes the operation. -/
private theorem RegOp.eval_eq (o : RegOp) (z : BitVec 2) : o.eval x y = o.aluOp.eval z x y := by
  have hones : (-1 : Word) = BitVec.allOnes 32 := by decide
  cases o with
  | slt => simp [RegOp.eval, RegOp.aluOp, AluOp.eval, BitVec.slt]
  | sltu => simp [RegOp.eval, RegOp.aluOp, AluOp.eval, BitVec.ult]
  | mul => exact mul_eq x y
  | mulh => exact mulh_eq x y
  | mulhsu => exact mulhsu_eq x y
  | mulhu => exact mulhu_eq x y
  | div =>
    change (if y = 0 then -1 else _) = if y = 0 then _ else _
    rw [hones, div_eq]
  | divu =>
    change (if y = 0 then -1 else _) = if y = 0 then _ else _
    rw [hones]
    congr 1
    refine BitVec.eq_of_toNat_eq ?_
    rw [BitVec.toNat_ofNat, BitVec.toNat_udiv, Nat.mod_eq_of_lt]
    exact lt_of_le_of_lt (Nat.div_le_self _ _) x.isLt
  | rem =>
    change (if y = 0 then x else _) = if y = 0 then x else _
    rw [rem_eq]
  | remu =>
    change (if y = 0 then x else _) = if y = 0 then x else _
    congr 1
    refine BitVec.eq_of_toNat_eq ?_
    rw [BitVec.toNat_ofNat, BitVec.toNat_umod, Nat.mod_eq_of_lt]
    exact lt_of_le_of_lt (Nat.mod_le _ _) x.isLt
  | _ => rfl

private theorem ImmOp.eval_eq (o : ImmOp) (z : BitVec 2) : o.eval x y = o.aluOp.eval z x y := by
  cases o with
  | slti => simp [ImmOp.eval, ImmOp.aluOp, AluOp.eval, BitVec.slt]
  | sltiu => simp [ImmOp.eval, ImmOp.aluOp, AluOp.eval, BitVec.ult]
  | _ => rfl

/-- The shift amount is the low five bits of the immediate. -/
private theorem ShiftOp.eval_eq (o : ShiftOp) (z : BitVec 2) (sh : BitVec 5) :
    o.eval x sh.toNat = o.aluOp.eval z x ((o.code.1 ++ sh).signExtend 32) := by
  have hsh : ((o.code.1 ++ sh).signExtend 32).toNat % 32 = sh.toNat := by
    have h5 : ((o.code.1 ++ sh).signExtend 32).extractLsb' 0 5 = sh := by
      refine BitVec.eq_of_getLsbD_eq fun i hi => ?_
      simp only [BitVec.getLsbD_extractLsb', BitVec.getLsbD_signExtend, BitVec.getLsbD_append]
      interval_cases i <;> simp
    have h := congrArg BitVec.toNat h5
    rw [BitVec.extractLsb'_toNat] at h
    simpa using h
  cases o with
  | slli => exact congrArg (x <<< ·) hsh.symm
  | srli => exact congrArg (x >>> ·) hsh.symm
  | srai => exact congrArg x.sshiftRight hsh.symm

private theorem Cond.holds_eq (c : Cond) {d : De} (hb : d.branchType = c.branchType) :
    branchTaken (ofDe d) = c.holds d.rs1Data d.rs2Data := by
  have hsel : (ofDe d).de.branchType = c.branchType := hb
  rw [branchTaken, hsel]
  cases c with
  | ge =>
    change (!decide (d.rs1Data.toInt < d.rs2Data.toInt)) = decide (d.rs2Data.toInt ≤ d.rs1Data.toInt)
    rw [← decide_not, decide_eq_decide]
    omega
  | geu =>
    change (!decide (d.rs1Data.toNat < d.rs2Data.toNat)) = decide (d.rs2Data.toNat ≤ d.rs1Data.toNat)
    rw [← decide_not, decide_eq_decide]
    omega
  | _ => rfl

end Arithmetic

/-! ### One instruction -/

section Exec

variable (p : Params) (a : Arch) (o : Outside)

/-- The D/E word of an instruction. -/
def Instr.de (i : Instr) (pc w : Word) (short : Bool) (rs1 rs2 : Word) (rd : Reg) (addr : BitVec 12) : De where
  valid := true
  pc := pc
  instr := w
  isCompressed := short
  rs1Addr := i.rs1
  rs1Data := rs1
  rs2Data := rs2
  imm := i.control.imm
  rd := rd
  regWrite := i.control.regWrite
  csrWren := i.control.csrWren
  csrOp := i.control.csrOp
  csrAddr := addr
  aluOp := i.control.aluOp
  aluSrcA := i.control.aluSrcA
  aluSrcB := i.control.aluSrcB
  memRead := i.control.memRead
  memWrite := i.control.memWrite
  memSize := i.control.memSize
  memUnsigned := i.control.memUnsigned
  memShamt := i.control.memShamt
  wbSrc := i.control.wbSrc
  branchType := i.control.branchType
  sysOp := i.control.sysOp
  exception := i.control.excReq
  exceptionCause := i.control.excCause
  exceptionTval := i.control.excTval
  illegal := false
  predValid := false
  predTaken := false
  predTarget := 0
  predPhtIndex := 0

/-- A D/E word traps, or does to the state and shows what the instruction set says. -/
def Agrees (d : De) : Except Report Effect → Prop
  | .error r => d.traps = true ∧ Core.syncReport d = r
  | .ok e =>
    d.traps = false ∧ a.retireOn p o d = e.apply a ∧
      (if d.regWrite then some (d.rd, a.resultOn p o d) else none) = e.reg ∧ d.access = e.access

variable {p a o} {pc w : Word} {short : Bool} {rd : Reg} {addr : BitVec 12}

private theorem access_none {d : De} (h : (d.memRead || d.memWrite) = false) : d.access = none := by
  rw [De.access, h]
  rfl

private theorem traps_false {d : De} (hx : d.exception = false) (h : (d.memRead || d.memWrite) = false) :
    d.traps = false := by
  rw [De.traps, De.misaligned, hx, h]
  rfl

/-- An instruction that writes a register and moves on, or jumps. -/
private theorem agrees_write {d : De} {e : Effect} {v : Word} (hx : d.exception = false)
    (hm : (d.memRead || d.memWrite) = false) (hw : d.regWrite = true) (hpc : nextPc d (a.csr csrAddrMepc) = e.pc)
    (hreg : e.reg = some (d.rd, v)) (hv : a.resultOn p o d = v) (hcsr : a.csrOn d = e.csr) (hmem : e.mem = a.mem)
    (hacc : e.access = none) :
    Agrees p a o d (.ok e) := by
  refine ⟨traps_false hx hm, ?_, ?_, (access_none hm).trans hacc.symm⟩
  · rw [Bool.or_eq_false_iff] at hm
    have hmemOn : a.memOn p d = a.mem := by
      rw [Arch.memOn, De.storeTo, hm.2, if_neg Bool.false_ne_true, ite_self]
    rw [Arch.retireOn, Effect.apply, hpc, hw, hv, hcsr, hmemOn, hmem, hreg]
  · rw [hw, if_pos rfl, hv, hreg]

/-- An instruction that writes no register and moves. -/
private theorem agrees_goto {d : De} {e : Effect} (hx : d.exception = false) (hm : (d.memRead || d.memWrite) = false)
    (hw : d.regWrite = false) (hpc : nextPc d (a.csr csrAddrMepc) = e.pc) (hreg : e.reg = none)
    (hcsr : a.csrOn d = e.csr) (hmem : e.mem = a.mem) (hacc : e.access = none) : Agrees p a o d (.ok e) := by
  refine ⟨traps_false hx hm, ?_, ?_, (access_none hm).trans hacc.symm⟩
  · rw [Bool.or_eq_false_iff] at hm
    have hmemOn : a.memOn p d = a.mem := by
      rw [Arch.memOn, De.storeTo, hm.2, if_neg Bool.false_ne_true, ite_self]
    rw [Arch.retireOn, Effect.apply, hpc, hw, hcsr, hmemOn, hmem, hreg]
    rfl
  · rw [hw, hreg]
    rfl

/-- A load of the interpreter is one of the instruction set. -/
private theorem agrees_load {d : De} {k : LoadKind} {link : Word} (hx : d.exception = false) (hr : d.memRead = true)
    (hmw : d.memWrite = false) (hw : d.regWrite = true) (hsrc : d.wbSrc = .mem) (hz : d.memSize = k.size)
    (hu : d.memUnsigned = k.unsigned) (hpc : nextPc d (a.csr csrAddrMepc) = link) (hcsr : a.csrOn d = a.csr) :
    Agrees p a o d (load p a o link k d.rd (effAddr d)) := by
  have hmis : d.traps = !decide (k.size.Aligned (effAddr d)) := by
    rw [De.traps, De.misaligned, hx, hr, hz]
    rfl
  unfold load
  by_cases hal : k.size.Aligned (effAddr d)
  · have hval : a.resultOn p o d =
        if (effAddr d).getLsbD periAddrBit then portValue o.peri (effAddr d) k.size k.unsigned
        else loadValue a.mem (p.dmemByte (effAddr d)) k.size k.unsigned := by
      rw [Arch.resultOn, hsrc, ← hz, ← hu]
      rfl
    have hmemOn : a.memOn p d = a.mem := by
      rw [Arch.memOn, De.storeTo, hmw, if_neg Bool.false_ne_true, ite_self]
    rw [if_pos hal]
    refine ⟨?_, ?_, ?_, ?_⟩
    · rw [hmis, decide_eq_true hal]
      rfl
    · rw [Arch.retireOn, Effect.apply, hpc, hw, hcsr, hmemOn, hval]
      rfl
    · rw [hw, if_pos rfl, hval]
      rfl
    · rw [De.access, hr, De.request, hmw]
      rfl
  · rw [if_neg hal]
    refine ⟨?_, ?_⟩
    · rw [hmis, decide_eq_false hal]
      rfl
    · rw [Core.syncReport, hx, hmw]
      rfl

/-- A store likewise. -/
private theorem agrees_store {d : De} {k : StoreKind} {link : Word} (hx : d.exception = false)
    (hr : d.memRead = false) (hmw : d.memWrite = true) (hw : d.regWrite = false) (hz : d.memSize = k.size)
    (hpc : nextPc d (a.csr csrAddrMepc) = link) (hcsr : a.csrOn d = a.csr) :
    Agrees p a o d (store p a link k (effAddr d) d.rs2Data) := by
  have hmis : d.traps = !decide (k.size.Aligned (effAddr d)) := by
    rw [De.traps, De.misaligned, hx, hr, hmw, hz]
    rfl
  unfold store
  by_cases hal : k.size.Aligned (effAddr d)
  · have hmemOn : a.memOn p d =
        if (effAddr d).getLsbD periAddrBit then a.mem
        else put a.mem (p.dmemByte (effAddr d)) k.size.bytes d.rs2Data := by
      rw [Arch.memOn, De.storeTo, hmw, if_pos rfl, hz]
      rfl
    rw [if_pos hal]
    refine ⟨?_, ?_, ?_, ?_⟩
    · rw [hmis, decide_eq_true hal]
      rfl
    · rw [Arch.retireOn, Effect.apply, hpc, hw, hcsr, hmemOn]
      rfl
    · rw [hw]
      rfl
    · rw [De.access, hr, De.request, hmw, hz]
      rfl
  · rw [if_neg hal]
    refine ⟨?_, ?_⟩
    · rw [hmis, decide_eq_false hal]
      rfl
    · rw [Core.syncReport, hx, hmw]
      rfl

/-- A write of a CSR with a mask. -/
private theorem csrWrite_merge (b : BitVec 12) (v : Word) : csrWrite a b v =
    if Stable b then Function.update a.csr b (mergeCsr (csrMask b) (some v) (a.csr b)) else a.csr := rfl

private theorem csrWrite_same (b : BitVec 12) : csrWrite a b (a.csr b) = a.csr := by
  unfold csrWrite
  split_ifs
  · have hsame : (a.csr b &&& csrMask b) ||| (a.csr b &&& ~~~csrMask b) = a.csr b := by
      refine BitVec.eq_of_getLsbD_eq fun i hi => ?_
      simp only [BitVec.getLsbD_or, BitVec.getLsbD_and, BitVec.getLsbD_not, hi, decide_true, Bool.true_and]
      cases (a.csr b).getLsbD i <;> cases (csrMask b).getLsbD i <;> rfl
    rw [hsame, Function.update_eq_self]
  · rfl

/-- Setting or clearing nothing. -/
private theorem CsrFn.written_zero {f : CsrFn} (hf : f ≠ .rw) (old : Word) : f.written old 0 = old := by
  cases f with
  | rw => exact absurd rfl hf
  | rs => exact BitVec.or_zero
  | rc =>
    have hones : ~~~(0 : Word) = BitVec.allOnes 32 := by decide
    change old &&& ~~~0 = old
    rw [hones, BitVec.and_allOnes]

/-- The interpreter does not write then. -/
private theorem CsrFn.op_written (f : CsrFn) (immediate : Bool) (old v : Word) : (f.op immediate).written old v =
    if f = .rw ∨ v ≠ 0 then some (f.written old v) else none := by
  by_cases hv : v = 0
  · subst hv
    cases f <;> cases immediate <;> rfl
  · rw [if_pos (.inr hv)]
    cases f with
    | rw => cases immediate <;> rfl
    | rs => cases immediate <;> exact if_neg hv
    | rc => cases immediate <;> exact if_neg hv

/-- What a CSR instruction makes of the CSRs: the interpreter asks for a source that is not zero, the instruction set
for a source that is not `x0`. -/
private theorem csrOn_eq {d : De} {f : CsrFn} {immediate : Bool} {src : Reg} (hsys : d.sysOp = .none)
    (hwren : d.csrWren = true) (hop : d.csrOp = f.op immediate)
    (hv : csrSrc (ofDe d) = if immediate then src.setWidth 32 else a.regs.read src) :
    a.csrOn d =
      if f = .rw ∨ src ≠ 0 then
        csrWrite a d.csrAddr (f.written (a.csr d.csrAddr) (if immediate then src.setWidth 32 else a.regs.read src))
      else a.csr := by
  have hne : d.sysOp ≠ .mret := by
    rw [hsys]
    exact SysOp.noConfusion
  have hzero : src = 0 → (if immediate then src.setWidth 32 else a.regs.read src) = 0 := by
    rintro rfl
    cases immediate <;> rfl
  have hwrite : ∀ v, a.csr = csrWrite a d.csrAddr (f.written (a.csr d.csrAddr) v) ∨ f = .rw ∨ v ≠ 0 := by
    intro v
    by_cases hf : f = .rw
    · exact .inr (.inl hf)
    by_cases hz : v = 0
    · rw [hz, CsrFn.written_zero hf, csrWrite_same]
      exact .inl rfl
    · exact .inr (.inr hz)
  rw [Arch.csrOn, if_neg hne, hop, hv, CsrFn.op_written]
  generalize hval : (if immediate then src.setWidth 32 else a.regs.read src) = v at hzero ⊢
  -- A write that one side leaves out writes back what is there.
  have hleft : (if d.csrWren = true ∧ Stable d.csrAddr then
      Function.update a.csr d.csrAddr (mergeCsr (csrMask d.csrAddr)
        (if f = .rw ∨ v ≠ 0 then some (f.written (a.csr d.csrAddr) v) else none) (a.csr d.csrAddr))
      else a.csr) = csrWrite a d.csrAddr (f.written (a.csr d.csrAddr) v) := by
    by_cases hmem : Stable d.csrAddr
    · rw [if_pos ⟨hwren, hmem⟩]
      by_cases hcond : f = .rw ∨ v ≠ 0
      · rw [if_pos hcond, csrWrite_merge, if_pos hmem]
      · rw [if_neg hcond, ← (hwrite v).resolve_right hcond]
        exact Function.update_eq_self _ _
    · rw [if_neg fun h => hmem h.2, csrWrite_merge, if_neg hmem]
  rw [hleft]
  by_cases hcond : f = .rw ∨ src ≠ 0
  · rw [if_pos hcond]
  · rw [if_neg hcond]
    rw [not_or, not_not] at hcond
    rw [hzero hcond.2, CsrFn.written_zero hcond.1, csrWrite_same]

/-- The D/E word of an instruction does what the instruction set says. -/
theorem agrees_exec (i : Instr) (hrd : i.control.regWrite = true → rd = i.rd)
    (haddr : i.control.csrWren = true → addr = i.csrAddr) :
    Agrees p a o (i.de a.pc w short (a.regs.read i.rs1) (a.regs.read i.rs2) rd addr)
      (exec p a o (a.pc + if short then 2 else 4) i) := by
  cases i with
  | lui rd' imm =>
    obtain rfl := hrd rfl
    exact agrees_write rfl rfl rfl rfl rfl (BitVec.zero_add _) rfl rfl rfl
  | auipc rd' imm =>
    obtain rfl := hrd rfl
    exact agrees_write rfl rfl rfl rfl rfl rfl rfl rfl rfl
  | jal rd' off =>
    obtain rfl := hrd rfl
    exact agrees_write rfl rfl rfl rfl rfl rfl rfl rfl rfl
  | jalr rd' rs1 imm =>
    obtain rfl := hrd rfl
    exact agrees_write rfl rfl rfl rfl rfl rfl rfl rfl rfl
  | branch c rs1 rs2 off =>
    refine agrees_goto rfl rfl rfl ?_ rfl rfl rfl rfl
    have hsys : (SysOp.none : SysOp) ≠ .mret := SysOp.noConfusion
    have hnot : c.branchType ≠ .jalr := by cases c <;> exact BranchT.noConfusion
    rw [nextPc, Cond.holds_eq c rfl]
    change (if SysOp.none = .mret then _ else if c.holds (a.regs.read rs1) (a.regs.read rs2) = true then
      (if c.branchType = .jalr then _ else a.pc + byteOff off) else _) = _
    rw [if_neg hsys, if_neg hnot]
    rfl
  | load k rd' rs1 imm =>
    obtain rfl := hrd rfl
    exact agrees_load rfl rfl rfl rfl rfl rfl rfl rfl rfl
  | store k rs1 rs2 imm => exact agrees_store rfl rfl rfl rfl rfl rfl rfl
  | opImm op rd' rs1 imm =>
    obtain rfl := hrd rfl
    exact agrees_write rfl rfl rfl rfl rfl (ImmOp.eval_eq _ _ op 0).symm rfl rfl rfl
  | shiftImm op rd' rs1 sh =>
    obtain rfl := hrd rfl
    exact agrees_write rfl rfl rfl rfl rfl (ShiftOp.eval_eq _ op 0 sh).symm rfl rfl rfl
  | op op rd' rs1 rs2 =>
    obtain rfl := hrd rfl
    exact agrees_write rfl rfl rfl rfl rfl (RegOp.eval_eq _ _ op 0).symm rfl rfl rfl
  | index k rd' rs1 rs2 =>
    obtain rfl := hrd rfl
    have hsh : (BitVec.ofNat 2 k.shamt).toNat = k.shamt := by cases k <;> rfl
    have hea : effAddr ((Instr.index k rd rs1 rs2).de a.pc w short (a.regs.read rs1) (a.regs.read rs2) rd addr) =
        a.regs.read rs2 + a.regs.read rs1 <<< k.shamt := by
      change a.regs.read rs2 + a.regs.read rs1 <<< (BitVec.ofNat 2 k.shamt).toNat = _
      rw [hsh]
    have h : ∀ d, d = (Instr.index k rd rs1 rs2).de a.pc w short (a.regs.read rs1) (a.regs.read rs2) rd addr →
        Agrees p a o d (load p a o (a.pc + if short then 2 else 4) k.load rd (effAddr d)) := by
      rintro d rfl
      exact agrees_load rfl rfl rfl rfl rfl rfl rfl rfl rfl
    have hindex := h _ rfl
    rw [hea] at hindex
    exact hindex
  | csr f immediate rd' src addr' =>
    obtain rfl := hrd rfl
    obtain rfl := haddr rfl
    refine agrees_write rfl rfl rfl rfl rfl rfl ?_ rfl rfl
    refine csrOn_eq rfl rfl rfl ?_
    cases immediate <;> cases f <;> rfl
  | fence i rd' rs1 fields =>
    cases i with
    | true => exact agrees_goto rfl rfl rfl rfl rfl rfl rfl rfl
    | false => exact agrees_goto rfl rfl rfl rfl rfl rfl rfl rfl
  | priv op =>
    cases op with
    | ecall => exact ⟨rfl, rfl⟩
    | ebreak => exact ⟨rfl, rfl⟩
    | wfi => exact agrees_goto rfl rfl rfl rfl rfl rfl rfl rfl
    | mret => exact agrees_goto rfl rfl rfl rfl rfl rfl rfl rfl

end Exec

/-! ### Fetch -/

section Fetch

variable {p : Params} {img : Nat → BitVec 64} {pc : Word}

/-- The item decode takes. -/
def Fetched.item (pc : Word) : Fetched → Item
  | .fault addr => Item.faultAt addr
  | .half c => ⟨false, ⟨0, c, pc, true⟩⟩
  | .word w => ⟨false, ⟨w, 0, pc, false⟩⟩

private theorem isRvc_eq (c : BitVec 16) : isRvc c = decide (c.extractLsb' 0 2 ≠ 0b11#2) := by
  rw [isRvc, bne, decide_not]
  rfl

/-- At an even address fetch finds the item of the instruction stream. -/
private theorem itemAt_fetch (he : pc.getLsbD 0 = false) : itemAt p img pc = (fetch p img pc).item pc := by
  rw [even_iff] at he
  have hhalf : halfAt img pc = imgHalf img pc.toNat := by
    rw [halfAt]
    congr 1
    omega
  rw [itemAt, fetch, hhalf, isRvc_eq]
  by_cases hout : 2 ^ p.imemAddrW ≤ pc.toNat
  · rw [if_pos ((outOfImem_iff p pc).mpr hout), if_pos hout]
    rfl
  have hin : FetchStage.outOfImem p pc = false := by
    rw [outOfImem_eq_false_iff]
    omega
  rw [hin, if_neg Bool.false_ne_true, if_neg hout]
  by_cases hc : (imgHalf img pc.toNat).extractLsb' 0 2 ≠ 0b11#2
  · rw [if_pos (decide_eq_true hc), if_pos hc]
    rfl
  rw [if_neg (by simpa using hc), if_neg hc]
  have h4 : 2 ^ 2 ∣ 2 ^ p.imemAddrW := Nat.pow_dvd_pow 2 (by have := p.imemAddrW_ge; omega)
  have h32 : 2 ^ p.imemAddrW < 2 ^ 32 := Nat.pow_lt_pow_right (by omega) p.imemAddrW_lt
  by_cases hup : pc.getLsbD 1 = false
  · have hmod : pc.toNat / 4 * 4 = pc.toNat := by
      rw [getLsbD_one_eq, decide_eq_false_iff_not] at hup
      omega
    have hnext : ¬2 ^ p.imemAddrW ≤ (pc + 2).toNat := by
      rw [toNat_add_two hup]
      omega
    rw [if_pos hup, if_neg hnext, hmod]
    rfl
  have hmod : pc.toNat % 4 = 2 := by
    rw [Bool.not_eq_false, getLsbD_one_eq, decide_eq_true_iff] at hup
    omega
  have hspan : spanPc pc = pc + 2 := by
    refine BitVec.eq_of_toNat_eq ?_
    have h2 : (2 : Word).toNat = 2 := rfl
    rw [toNat_spanPc, BitVec.toNat_add, h2]
    omega
  rw [if_neg hup, hspan]
  by_cases hnext : 2 ^ p.imemAddrW ≤ (pc + 2).toNat
  · rw [if_pos ((outOfImem_iff p _).mpr hnext), if_pos hnext]
    rfl
  have hin2 : FetchStage.outOfImem p (pc + 2) = false := by
    rw [outOfImem_eq_false_iff]
    omega
  have hnat : (pc + 2).toNat / 2 * 2 = pc.toNat + 2 := by
    have h2 : (2 : Word).toNat = 2 := rfl
    rw [BitVec.toNat_add, h2]
    omega
  rw [hin2, if_neg Bool.false_ne_true, if_neg hnext, halfAt, hnat]
  rfl

end Fetch

/-! ### The interpreter -/

/-- The decoder of the hart. -/
def hart : Decoder where
  word := hartDecode
  half := fun c => (decodeRvc (settle c)).map Rvc.expand

section Interpreter

variable {p : Params} {img : Nat → BitVec 64} {a : Arch} {o : Outside}

/-- A word the hart finds no instruction in is illegal. -/
private theorem illegal_of_none {w : Word} (h : hartDecode w = none) : (opcodeTree w).illegal = true := by
  by_contra hl
  rw [Bool.not_eq_true] at hl
  obtain ⟨i, hi⟩ := accepted hl
  rw [h] at hi
  cases hi

/-- The D/E word of an item without a fault that means an instruction. -/
theorem de_of_means {x : Item} {i : Instr} {x1 x2 : Word} (hf : x.fault = false)
    (hm : Means x.src.instr32 i) :
    x.de x1 x2 ⟨false, false, 0, 0⟩ =
      i.de x.src.pc x.src.instr32 x.src.isCompressed x1 x2 (rdField x.src.instr32) (csrAddrDec x.src.instr32) := by
  have hl := i.control_legal
  have hbr : (if false = true then BranchT.none else i.control.branchType) = i.control.branchType := rfl
  rw [Item.de, Instr.de, hf, hm.tree, hl, hm.rs1]
  rfl

/-- The word at the PC when there is an instruction. -/
private theorem agrees_word {x : Item} {i : Instr} (hx : itemAt p img a.pc = x) (hf : x.fault = false)
    (hpc : x.src.pc = a.pc) (hm : Means x.src.instr32 i) :
    (a.word p img).pc = a.pc ∧ (a.word p img).instr = x.src.instr32 ∧
      Agrees p a o (a.word p img) (exec p a o (a.pc + if x.src.isCompressed then 2 else 4) i) := by
  have hw : a.word p img =
      i.de a.pc x.src.instr32 x.src.isCompressed (a.regs.read i.rs1) (a.regs.read i.rs2) (rdField x.src.instr32)
        (csrAddrDec x.src.instr32) := by
    rw [Arch.word, hx, de_of_means hf hm, hpc, hm.rs1, hm.rs2]
  rw [hw]
  exact ⟨rfl, rfl, agrees_exec i hm.rd hm.csr⟩

/-- The word at the PC when there is none. -/
private theorem traps_word {x : Item} (hx : itemAt p img a.pc = x)
    (h : x.fault = true ∨ (opcodeTree x.src.instr32).illegal = true) :
    (a.word p img).traps = true ∧ Core.syncReport (a.word p img) =
      if x.fault then (mcauseInstrAcc, x.src.pc) else (mcauseIllegal, x.src.instr32) := by
  have hex : (a.word p img).exception = true := by
    rw [Arch.word, hx]
    change (x.fault || (opcodeTree x.src.instr32).illegal || (opcodeTree x.src.instr32).excReq) = true
    rcases h with h | h
    · rw [h, Bool.true_or, Bool.true_or]
    · rw [h, Bool.or_true, Bool.true_or]
  refine ⟨by rw [De.traps, hex, Bool.true_or], ?_⟩
  rw [Core.syncReport, hex, if_pos rfl, Arch.word, hx]
  change ((if x.fault then mcauseInstrAcc else if (opcodeTree x.src.instr32).illegal then mcauseIllegal else _),
    (if x.fault then x.src.pc else if (opcodeTree x.src.instr32).illegal then x.src.instr32 else _)) = _
  cases hfault : x.fault with
  | true => rfl
  | false =>
    have hl := h.resolve_left (by rw [hfault]; exact Bool.false_ne_true)
    rw [hl]
    rfl

/-- What the interpreter finds at the PC is what the machine finds. -/
def Matches (p : Params) (img : Nat → BitVec 64) (a : Arch) (o : Outside) : Except Report (Instr × Effect) → Prop
  | .error r => (a.word p img).traps = true ∧ Core.syncReport (a.word p img) = r
  | .ok x =>
    Agrees p a o (a.word p img) (.ok x.2) ∧ (a.word p img).pc = a.pc ∧
      (a.word p img).instr = (fetch p img a.pc).shown x.1

private theorem matches_of_agrees {i : Instr} {link : Word} (h : Agrees p a o (a.word p img) (exec p a o link i))
    (hpc : (a.word p img).pc = a.pc) (hi : (a.word p img).instr = (fetch p img a.pc).shown i) :
    Matches p img a o ((exec p a o link i).map fun e => (i, e)) := by
  revert h
  cases exec p a o link i with
  | error r => exact fun h => h
  | ok e => exact fun h => ⟨h, hpc, hi⟩

private theorem matches_outcome (he : a.pc.getLsbD 0 = false) : Matches p img a o (outcome hart p img a o) := by
  have hitem : itemAt p img a.pc = (fetch p img a.pc).item a.pc := itemAt_fetch he
  unfold outcome
  cases hf : fetch p img a.pc with
  | fault addr =>
    rw [hf] at hitem
    exact traps_word hitem (.inl rfl)
  | half c =>
    rw [hf] at hitem
    have hc := cExpand_eq c
    cases hd : decodeRvc (settle c) with
    | none =>
      rw [hd] at hc
      have hz : (opcodeTree (cExpand c)).illegal = true := by
        rw [hc]
        exact illegal_of_none (by decide)
      have hi : (Fetched.half c).instr hart = .error (mcauseIllegal, 0) := by
        simp only [Fetched.instr, hart, hd, Option.map_none]
      obtain ⟨ht, hr⟩ := traps_word hitem (.inr hz)
      rw [hi]
      refine ⟨ht, hr.trans ?_⟩
      change (mcauseIllegal, cExpand c) = (mcauseIllegal, 0)
      rw [hc]
      rfl
    | some k =>
      rw [hd] at hc
      have hi : (Fetched.half c).instr hart = .ok k.expand := by
        simp only [Fetched.instr, hart, hd, Option.map_some]
      have hm : Means (cExpand c) k.expand := by
        rw [hc]
        exact means_decode (decode_encode _)
      obtain ⟨hpc, hins, hag⟩ := agrees_word (o := o) hitem rfl rfl hm
      rw [hi]
      refine matches_of_agrees hag hpc (hins.trans ?_)
      rw [hf]
      exact hc
  | word w =>
    rw [hf] at hitem
    cases hd : hartDecode w with
    | none =>
      have hi : (Fetched.word w).instr hart = .error (mcauseIllegal, w) := by simp only [Fetched.instr, hart, hd]
      rw [hi]
      exact traps_word hitem (.inr (illegal_of_none hd))
    | some i =>
      have hi : (Fetched.word w).instr hart = .ok i := by simp only [Fetched.instr, hart, hd]
      obtain ⟨hpc, hins, hag⟩ := agrees_word (o := o) hitem rfl rfl (means_loose hd)
      rw [hi]
      refine matches_of_agrees hag hpc (hins.trans ?_)
      rw [hf]
      rfl

/-- A step of the interpreter is one of the machine. -/
theorem stepOn_eq (he : a.pc.getLsbD 0 = false) : a.stepOn p img o = step hart p img a o := by
  unfold Arch.stepOn step
  cases o.irq with
  | some b => rfl
  | none =>
    have hm : Matches p img a o (outcome hart p img a o) := matches_outcome he
    revert hm
    cases outcome hart p img a o with
    | error r =>
      rintro ⟨ht, hr⟩
      simp only [ht, if_true, Arch.enter, hr, trapped]
    | ok x =>
      rintro ⟨⟨ht, hs, -, -⟩, -⟩
      simp only [ht, hs, Bool.false_eq_true, if_false]

theorem eventOn_eq (he : a.pc.getLsbD 0 = false) : a.eventOn p img o = event hart p img a o := by
  unfold Arch.eventOn event
  cases o.irq with
  | some b => rfl
  | none =>
    have hm : Matches p img a o (outcome hart p img a o) := matches_outcome he
    revert hm
    cases outcome hart p img a o with
    | error r =>
      rintro ⟨ht, hr⟩
      simp only [ht, if_true, hr]
    | ok x =>
      rintro ⟨⟨ht, -, hreg, hacc⟩, hpc, hi⟩
      simp only [ht, Bool.false_eq_true, if_false, Arch.commitOn, hreg, hacc, hpc, hi]

end Interpreter

/-! ### The pipeline -/

namespace Fetched

/-- No word or halfword the hart accepts beside those of the instruction set. -/
def Plain : Fetched → Prop
  | fault _ => True
  | half c => settle c = c
  | word w => decode w = none → looseOp w = none ∧ loosePriv w = none

instance : DecidablePred Plain := fun f =>
  match f with
  | fault _ => inferInstanceAs (Decidable True)
  | half c => inferInstanceAs (Decidable (settle c = c))
  | word w => inferInstanceAs (Decidable (decode w = none → looseOp w = none ∧ loosePriv w = none))

private theorem Plain.instr_eq {f : Fetched} (h : f.Plain) : f.instr standard = f.instr Isa.hart := by
  cases f with
  | fault addr => rfl
  | half c =>
    have hc : settle c = c := h
    simp only [Fetched.instr, standard, Isa.hart, hc]
  | word w =>
    have hw : hartDecode w = decode w := by
      rw [hartDecode]
      cases hd : decode w with
      | some i => rfl
      | none =>
        obtain ⟨h1, h2⟩ := h hd
        rw [h1, h2]
        rfl
    simp only [Fetched.instr, standard, Isa.hart, hw]

end Fetched

/-- Two machines that find the same instruction take the same step. -/
private theorem step_congr {D D' : Decoder} {p : Params} {img : Nat → BitVec 64} {a : Arch} {o : Outside}
    (h : (fetch p img a.pc).instr D = (fetch p img a.pc).instr D') :
    step D p img a o = step D' p img a o ∧ event D p img a o = event D' p img a o := by
  have hout : outcome D p img a o = outcome D' p img a o := by rw [outcome, h, outcome]
  rw [step, step, event, event, hout]
  exact ⟨rfl, rfl⟩

section Pipeline

open CoreMem

variable {D : Decoder} {p : Params} {img : Nat → BitVec 64} {a : Arch} {s : CoreMem}
  {inp : Nat → CoreIn} {boot : Word}
  {rf : RegFile}

/-- After `t` cycles the hart has shown what the machine shows, and holds what the machine holds. -/
structure Implements (D : Decoder) (p : Params) (img : Nat → BitVec 64) (a : Arch) (s : CoreMem) (inp : Nat → CoreIn)
    (t : Nat) : Prop where
  events : logFrom (eventEv p) (CoreMem.next p) s inp 0 t = Isa.events D p img a (outsides p s inp t)
  regs : (trace (CoreMem.next p) s inp t).core.rf = (after D p img a (outsides p s inp t)).regs
  csr : ∀ b, ¬Volatile b →
    (trace (CoreMem.next p) s inp t).core.csr.regs.read b = (after D p img a (outsides p s inp t)).csr b
  mem : ofWords 4 (trace (CoreMem.next p) s inp t).dmem.mem = (after D p img a (outsides p s inp t)).mem

/-- The hart follows a machine that finds what the hart finds. -/
private theorem implements_run (h : s.IsReset boot img rf) (hb : boot.getLsbD 0 = false) (inp : Nat → CoreIn)
    (ha : a = Arch.reset boot rf (ofWords 4 s.dmem.mem)) (t : Nat)
    (hs : ∀ u < t, (after D p img a (outsides p s inp u)).Regular p img ∧
      (fetch p img (after D p img a (outsides p s inp u)).pc).instr D =
        (fetch p img (after D p img a (outsides p s inp u)).pc).instr hart) :
    Implements D p img a s inp t := by
  subst ha
  have hrun : Tracks p img (after D p img (Arch.reset boot rf (ofWords 4 s.dmem.mem)) (outsides p s inp t))
        (trace (CoreMem.next p) s inp t) ∧
      logFrom (eventEv p) (CoreMem.next p) s inp 0 t =
        Isa.events D p img (Arch.reset boot rf (ofWords 4 s.dmem.mem)) (outsides p s inp t) := by
    refine refined_on (h.tracks hb) t fun u hu b hbe htr => ?_
    obtain ⟨hreg, hsame⟩ := hs u hu
    subst hbe
    rcases htr.cycle (steady_run h u) hreg (inp u) with hnone | ⟨o, ho, he, htr'⟩
    · exact .inl hnone
    · obtain ⟨hstep, hev⟩ := step_congr (o := o) hsame
      rw [eventOn_eq htr.pos.even, ← hev] at he
      rw [stepOn_eq htr.pos.even, ← hstep] at htr'
      exact .inr ⟨o, ho, he, htr'⟩
  obtain ⟨htr, hlog⟩ := hrun
  exact ⟨hlog, htr.regs, htr.csr, htr.mem⟩

end Pipeline

/-! ### Legality -/

section Legality

variable {p : Params} {q : DecodeStage} {i : DecodeIn}

/-- The source decode has selected, seen as what fetch finds. -/
def found (s : Src) : Fetched := if s.isCompressed then .half s.half16 else .word s.word32

/-- What the hart finds in the word the uniform decoder consumes. -/
def hartWord (w : Word) : Except Report Instr :=
  match hartDecode w with
  | some i => .ok i
  | none => .error (mcauseIllegal, w)

theorem hartWord_some {w : Word} {x : Instr} : hartWord w = .ok x ↔ hartDecode w = some x := by
  unfold hartWord
  cases hartDecode w with
  | some i =>
    constructor
    · rintro ⟨⟩
      rfl
    · rintro ⟨⟩
      rfl
  | none =>
    constructor
    · rintro ⟨⟩
    · rintro ⟨⟩

private theorem hartWord_none {w : Word} (h : hartDecode w = none) : hartWord w = .error (mcauseIllegal, w) := by
  rw [hartWord, h]

/-- A halfword is to the hart the word it expands to. -/
private theorem instr_half (c : BitVec 16) : (Fetched.half c).instr hart = hartWord (cExpand c) := by
  have he := cExpand_eq c
  cases hd : decodeRvc (settle c) with
  | some k =>
    rw [hd] at he
    have hk : hartDecode (cExpand c) = some k.expand := by
      rw [he, Option.map_some, Option.getD_some, hartDecode, decode_encode]
      rfl
    simp only [Fetched.instr, hart, hd, Option.map_some, hartWord, hk]
  | none =>
    rw [hd] at he
    have hz : cExpand c = 0 := he
    have hk : hartDecode 0 = none := by decide
    simp only [Fetched.instr, hart, hd, Option.map_none, hartWord, hz, hk]

theorem instr_found (s : Src) : (found s).instr hart = hartWord s.instr32 := by
  unfold found Src.instr32
  cases s.isCompressed with
  | false => rfl
  | true => exact instr_half s.half16

/-- A D/E word presents what has been found: it is legal exactly if that is an instruction, and else it writes no
register and no CSR, accesses no memory, does not branch, and traps. -/
structure Presents (m : Except Report Instr) (d : De) : Prop where
  legal : d.illegal = false ↔ ∃ x, m = .ok x
  squash : d.illegal = true →
    d.regWrite = false ∧ d.csrWren = false ∧ d.memRead = false ∧ d.memWrite = false ∧ d.branchType = .none
  report : d.illegal = true → d.exception = true ∧ m = .error (d.exceptionCause, d.exceptionTval)

/-- Decode presents what the hart finds. -/
theorem Item.presents {x : Item} (hf : x.fault = false) (rs1 rs2 : Word) (pr : Pred) :
    Presents (hartWord x.src.instr32) (x.de rs1 rs2 pr) := by
  have hill : (x.de rs1 rs2 pr).illegal = (opcodeTree x.src.instr32).illegal := rfl
  refine ⟨?_, fun hl => ?_, fun hl => ?_⟩
  · rw [hill]
    constructor
    · intro hl
      obtain ⟨i, hi⟩ := accepted hl
      exact ⟨i, hartWord_some.mpr hi⟩
    · rintro ⟨i, hi⟩
      rw [(means_loose (hartWord_some.mp hi)).tree, i.control_legal]
  · rw [hill] at hl
    have hsq : ∀ b : Bool, (!(opcodeTree x.src.instr32).illegal && b) = false := by
      intro b
      rw [hl]
      rfl
    exact ⟨hsq _, hsq _, hsq _, hsq _, if_pos hl⟩
  · rw [hill] at hl
    have hnone : hartDecode x.src.instr32 = none := by
      cases hd : hartDecode x.src.instr32 with
      | none => rfl
      | some i =>
        rw [(means_loose hd).tree, i.control_legal] at hl
        cases hl
    rw [hartWord_none hnone]
    simp only [Item.de, hl, hf, Bool.false_or, Bool.true_or, if_true, Bool.false_eq_true, if_false, and_self]

/-- The D/E word is illegal exactly if the hart finds no instruction in its source; an illegal word writes no register
and no CSR, accesses no memory, does not branch, and traps with the word as its value. -/
structure Screens (p : Params) (q : DecodeStage) (i : DecodeIn) : Prop where
  legal : (deD p q i).illegal = false ↔ ∃ x, (found (src q i)).instr hart = .ok x
  squash : (deD p q i).illegal = true → (deD p q i).regWrite = false ∧ (deD p q i).csrWren = false ∧
    (deD p q i).memRead = false ∧ (deD p q i).memWrite = false ∧ (deD p q i).branchType = .none
  report : (deD p q i).illegal = true → (deD p q i).exception = true ∧ (deD p q i).exceptionCause = mcauseIllegal ∧
    (deD p q i).exceptionTval = srcInstr32 q i

/-- What decode presents in a cycle in which it has an instruction. -/
theorem presents_deD (hv : decodedValid q i = true) (hf : takeFault q i = false) :
    Presents ((found (src q i)).instr hart) (deD p q i) := by
  rw [deD_eq hv, instr_found]
  exact Item.presents (x := ⟨takeFault q i, src q i⟩) hf _ _ _

/-- **Legality.**  Decode accepts the words of the instruction set and the two loose families, the halfwords of the
instruction set and those that differ from them in an unread bit 12, and nothing else. -/
theorem decoder_legality (hv : decodedValid q i = true) (hf : takeFault q i = false) : Screens p q i := by
  have h : Presents ((found (src q i)).instr hart) (deD p q i) := presents_deD hv hf
  refine ⟨h.legal, h.squash, fun hl => ?_⟩
  obtain ⟨hx, hm⟩ := h.report hl
  have hnone : hartDecode (srcInstr32 q i) = none := by
    cases hd : hartDecode (srcInstr32 q i) with
    | none => rfl
    | some x =>
      rw [instr_found, show (src q i).instr32 = srcInstr32 q i from rfl, hartWord_some.mpr hd] at hm
      cases hm
  rw [instr_found, show (src q i).instr32 = srcInstr32 q i from rfl, hartWord_none hnone] at hm
  injection hm with hr
  obtain ⟨hcause, htval⟩ := Prod.ext_iff.mp hr
  exact ⟨hx, hcause.symm, htval.symm⟩

/-- An empty stage in front of one word. -/
def probe : DecodeStage := ⟨false, 0, 0, false, 0, De.zero⟩

def probeIn (w : Word) : DecodeIn where
  fe := { instr := w, pc := 0, fault := false, predLo := false, predHi := false, ghr := 0 }
  feValid := true
  feNext := { instr := 0, pc := 0, fault := false, predLo := false, predHi := false, ghr := 0 }
  feNextValid := false
  rfRead := fun _ => 0
  stall := false
  flush := false
  exWbEn := false
  exWbAddr := 0
  exWbData := 0
  bpLookup := ⟨false, false, 0, 0⟩

/-- The theorem on an atomic addition, which is illegal. -/
theorem decoder_legality_amoadd : Screens .pkg probe (probeIn 0x0020A02F) :=
  decoder_legality (q := probe) (i := probeIn 0x0020A02F) (by decide) (by decide)

end Legality

end Yarv.Isa
