import Yarv.Encoding
import Yarv.FrontStream

/-!
# Kinds of decoded instructions

Execute tells instructions apart by seven independent flags of the D/E word.  The opcode tree raises at most one of
them: every decoded word has a kind that fixes all seven (`opcodeTree_hasKind`), and the kind of an illegal word is
`trap`.  The prediction fast path of decode raises `is_cf` only for words of kind `branch` (`isCf_sound`), the half of
its agreement with the tree on which the recovery of execute rests.
-/

namespace Yarv

/-- What execute does with an instruction. -/
inductive Kind
  | plain | trap | mem | div | csr | branch | mret | wfi
  deriving DecidableEq, Repr

/-- The ALU operation runs in the divider. -/
def AluOp.isDiv (o : AluOp) : Bool := o == .div || o == .divu || o == .rem || o == .remu

/-- The flags of a D/E word are those of the kind `k`, with what goes along with them. -/
structure De.HasKind (d : De) (k : Kind) : Prop where
  exception : d.exception = decide (k = .trap)
  mem : (d.memRead || d.memWrite) = decide (k = .mem)
  one : (d.memRead && d.memWrite) = false
  div : d.aluOp.isDiv = decide (k = .div)
  csr : d.csrWren = decide (k = .csr)
  branch : (d.branchType != .none) = decide (k = .branch)
  mret : (d.sysOp == .mret) = decide (k = .mret)
  wfi : (d.sysOp == .wfi) = decide (k = .wfi)
  illegal : d.illegal = true → k = .trap
  regWrite : d.regWrite = true → k ≠ .trap ∧ k ≠ .mret ∧ k ≠ .wfi ∧ d.memWrite = false
  target : k = .branch → d.branchType = .jalr ∨ d.imm.toNat % 2 = 0
  ea : k = .mem → d.aluOp = .add ∨ d.aluOp = .lx
  sys : d.sysOp = .ecall ∨ d.sysOp = .ebreak → k = .trap

/-- The same for the control signals of the opcode tree, after the illegal squash. -/
structure Dec.HasKind (d : Dec) (k : Kind) : Prop where
  trap : (d.illegal || d.excReq) = decide (k = .trap)
  mem : (!d.illegal && (d.memRead || d.memWrite)) = decide (k = .mem)
  one : (d.memRead && d.memWrite) = false
  div : d.aluOp.isDiv = decide (k = .div)
  csr : (!d.illegal && d.csrWren) = decide (k = .csr)
  branch : (!d.illegal && d.branchType != .none) = decide (k = .branch)
  mret : (d.sysOp == .mret) = decide (k = .mret)
  wfi : (d.sysOp == .wfi) = decide (k = .wfi)
  regWrite : d.illegal = false → d.regWrite = true → k ≠ .trap ∧ k ≠ .mret ∧ k ≠ .wfi ∧ d.memWrite = false
  target : k = .branch → d.branchType = .jalr ∨ d.imm.toNat % 2 = 0
  ea : k = .mem → d.aluOp = .add ∨ d.aluOp = .lx
  sys : d.sysOp = .ecall ∨ d.sysOp = .ebreak → k = .trap
  exc : d.excReq = true → (d.sysOp = .ecall ∧ d.excCause = mcauseEcallM ∧ d.excTval = 0) ∨
    (d.sysOp = .ebreak ∧ d.excCause = mcauseBreakpoint ∧ d.excTval = 0)

/-- A D/E word has one kind. -/
theorem De.HasKind.unique {d : De} {j k : Kind} (hj : d.HasKind j) (hk : d.HasKind k) : j = k := by
  have h1 := hj.exception.symm.trans hk.exception
  have h2 := hj.mem.symm.trans hk.mem
  have h3 := hj.div.symm.trans hk.div
  have h4 := hj.csr.symm.trans hk.csr
  have h5 := hj.branch.symm.trans hk.branch
  have h6 := hj.mret.symm.trans hk.mret
  have h7 := hj.wfi.symm.trans hk.wfi
  cases j <;> cases k <;> first | rfl | simp at h1 h2 h3 h4 h5 h6 h7

section Tree

variable (w : Word)

theorem immJ_even : (immJ w).toNat % 2 = 0 := by
  apply (even_iff _).mp
  rw [immJ, BitVec.getLsbD_signExtend, BitVec.getLsbD_append]
  rfl

theorem immB_even : (immB w).toNat % 2 = 0 := by
  apply (even_iff _).mp
  rw [immB, BitVec.getLsbD_signExtend, BitVec.getLsbD_append]
  rfl

private theorem default_hasKind : Dec.default.HasKind .trap := by constructor <;> decide

private theorem decLui_hasKind : (decLui w).HasKind .plain := by
  constructor <;> simp [decLui, Dec.default, AluOp.isDiv]

private theorem decAuipc_hasKind : (decAuipc w).HasKind .plain := by
  constructor <;> simp [decAuipc, Dec.default, AluOp.isDiv]

private theorem decJal_hasKind : (decJal w).HasKind .branch := by
  constructor <;> simp [decJal, Dec.default, AluOp.isDiv, immJ_even]

private theorem decJalr_hasKind : ∃ k, (decJalr w).HasKind k := by
  unfold decJalr
  split
  · exact ⟨.branch, by constructor <;> simp [Dec.default, AluOp.isDiv]⟩
  · exact ⟨.trap, default_hasKind⟩

private theorem decBranch_hasKind : ∃ k, (decBranch w).HasKind k := by
  unfold decBranch
  split_ifs
  case neg => exact ⟨.trap, by constructor <;> simp [Dec.default, AluOp.isDiv]⟩
  all_goals exact ⟨.branch, by constructor <;> simp [Dec.default, AluOp.isDiv, immB_even]⟩

private theorem decLoad_hasKind : ∃ k, (decLoad w).HasKind k := by
  unfold decLoad
  split_ifs
  case neg => exact ⟨.trap, by constructor <;> simp [Dec.default, AluOp.isDiv]⟩
  all_goals exact ⟨.mem, by constructor <;> simp [Dec.default, AluOp.isDiv]⟩

private theorem decStore_hasKind : ∃ k, (decStore w).HasKind k := by
  unfold decStore
  split_ifs
  case neg => exact ⟨.trap, by constructor <;> simp [Dec.default, AluOp.isDiv]⟩
  all_goals exact ⟨.mem, by constructor <;> simp [Dec.default, AluOp.isDiv]⟩

/-- A register operation that is not a division is plain, or a trap when its encoding is reserved. -/
private theorem hasKind_of_alu {d : Dec} (hd : d.aluOp.isDiv = false) (hm : d.memRead = false)
    (hw : d.memWrite = false) (hc : d.csrWren = false) (hb : d.branchType = .none) (hs : d.sysOp = .none)
    (he : d.excReq = false) :
    d.HasKind (if d.illegal then .trap else .plain) := by
  cases hi : d.illegal <;> constructor <;> simp [hd, hm, hw, hc, hb, hs, he, hi]

/-- A register-immediate word differs from the defaults in the fields every such word sets, its operation and its
legality. -/
theorem decOpImm_eq : ∃ o b, o.isDiv = false ∧ decOpImm w =
    { Dec.default with regWrite := true, usesRs1 := true, imm := immI w, aluOp := o, illegal := b } := by
  unfold decOpImm
  by_cases h0 : funct3 w = 0b000#3
  · exact ⟨.add, false, rfl, by rw [if_pos h0]⟩
  by_cases h2 : funct3 w = 0b010#3
  · exact ⟨.slt, false, rfl, by rw [if_neg h0, if_pos h2]⟩
  by_cases h3 : funct3 w = 0b011#3
  · exact ⟨.sltu, false, rfl, by rw [if_neg h0, if_neg h2, if_pos h3]⟩
  by_cases h4 : funct3 w = 0b100#3
  · exact ⟨.xor, false, rfl, by rw [if_neg h0, if_neg h2, if_neg h3, if_pos h4]⟩
  by_cases h6 : funct3 w = 0b110#3
  · exact ⟨.or, false, rfl, by rw [if_neg h0, if_neg h2, if_neg h3, if_neg h4, if_pos h6]⟩
  by_cases h7 : funct3 w = 0b111#3
  · exact ⟨.and, false, rfl, by rw [if_neg h0, if_neg h2, if_neg h3, if_neg h4, if_neg h6, if_pos h7]⟩
  by_cases h1 : funct3 w = 0b001#3
  · exact ⟨.sll, _, rfl, by rw [if_neg h0, if_neg h2, if_neg h3, if_neg h4, if_neg h6, if_neg h7, if_pos h1]⟩
  · refine ⟨if funct7b5 w then .sra else .srl, _, ?_, by
      rw [if_neg h0, if_neg h2, if_neg h3, if_neg h4, if_neg h6, if_neg h7, if_neg h1]⟩
    cases funct7b5 w <;> rfl

private theorem decOpImm_hasKind : ∃ k, (decOpImm w).HasKind k := by
  obtain ⟨o, b, ho, he⟩ := decOpImm_eq w
  rw [he]
  exact ⟨_, hasKind_of_alu ho rfl rfl rfl rfl rfl rfl⟩

private theorem baseOp_not_div (f3 : BitVec 3) (b : Bool) : (baseOp f3 b).isDiv = false := by
  unfold baseOp
  split_ifs <;> rfl

private theorem decOp_hasKind : ∃ k, (decOp w).HasKind k := by
  unfold decOp
  split
  · -- An M-extension word is always legal; half of them are divisions.
    cases hd : (mExtOp (funct3 w)).isDiv with
    | true => exact ⟨.div, by constructor <;> simp [Dec.default, hd]⟩
    | false => exact ⟨.plain, by constructor <;> simp [Dec.default, hd]⟩
  · exact ⟨_, hasKind_of_alu (baseOp_not_div _ _) rfl rfl rfl rfl rfl rfl⟩

private theorem decAmo_hasKind : ∃ k, (decAmo w).HasKind k := by
  unfold decAmo
  split
  · exact ⟨.mem, by constructor <;> simp [Dec.default, AluOp.isDiv]⟩
  · exact ⟨.trap, by constructor <;> simp [Dec.default, AluOp.isDiv]⟩

private theorem decCsr_hasKind : ∃ k, (decCsr w).HasKind k := by
  unfold decCsr
  split_ifs
  case neg => exact ⟨.trap, by constructor <;> simp [Dec.default, AluOp.isDiv]⟩
  all_goals exact ⟨.csr, by constructor <;> simp [Dec.default, AluOp.isDiv]⟩

private theorem decPriv_hasKind : ∃ k, (decPriv w).HasKind k := by
  unfold decPriv
  split_ifs
  · exact ⟨.trap, by constructor <;> simp [Dec.default, AluOp.isDiv]⟩
  · exact ⟨.trap, by constructor <;> simp [Dec.default, AluOp.isDiv]⟩
  · exact ⟨.wfi, by constructor <;> simp [Dec.default, AluOp.isDiv]⟩
  · exact ⟨.mret, by constructor <;> simp [Dec.default, AluOp.isDiv]⟩
  · exact ⟨.trap, default_hasKind⟩

private theorem decSystem_hasKind : ∃ k, (decSystem w).HasKind k := by
  unfold decSystem
  split
  · exact decCsr_hasKind w
  · exact decPriv_hasKind w

private theorem decMiscMem_hasKind : ∃ k, (decMiscMem w).HasKind k := by
  unfold decMiscMem
  split_ifs
  · exact ⟨.plain, by constructor <;> simp [Dec.default, AluOp.isDiv]⟩
  · exact ⟨.plain, by constructor <;> simp [Dec.default, AluOp.isDiv]⟩
  · exact ⟨.trap, default_hasKind⟩

/-- One test of the tree. -/
private theorem hasKind_ite {c : Prop} [Decidable c] {d e : Dec} (hd : ∃ k, d.HasKind k) (he : ∃ k, e.HasKind k) :
    ∃ k, (if c then d else e).HasKind k := by
  by_cases h : c
  · rwa [if_pos h]
  · rwa [if_neg h]

/-- Every word has a kind. -/
theorem opcodeTree_hasKind : ∃ k, (opcodeTree w).HasKind k := by
  unfold opcodeTree
  refine hasKind_ite ⟨_, decLui_hasKind w⟩ ?_
  refine hasKind_ite ⟨_, decAuipc_hasKind w⟩ ?_
  refine hasKind_ite ⟨_, decJal_hasKind w⟩ ?_
  refine hasKind_ite (decJalr_hasKind w) ?_
  refine hasKind_ite (decBranch_hasKind w) ?_
  refine hasKind_ite (decLoad_hasKind w) ?_
  refine hasKind_ite (decStore_hasKind w) ?_
  refine hasKind_ite (decOpImm_hasKind w) ?_
  refine hasKind_ite (decOp_hasKind w) ?_
  refine hasKind_ite (decAmo_hasKind w) ?_
  refine hasKind_ite (decSystem_hasKind w) ?_
  exact hasKind_ite (decMiscMem_hasKind w) ⟨_, default_hasKind⟩

end Tree

/-! ### The prediction fast path -/

open DecodeStage

/-- The word is control flow for the opcode tree. -/
def IsBranch (w : Word) : Prop := (opcodeTree w).illegal = false ∧ (opcodeTree w).branchType ≠ .none

private theorem isBranch_jal {w : Word} (h : opcode w = opcJal) : IsBranch w := by
  rw [IsBranch, opcodeTree_jal h]
  exact ⟨rfl, by simp [decJal]⟩

private theorem isBranch_jalr {w : Word} (h : opcode w = opcJalr) (h3 : funct3 w = 0b000#3) : IsBranch w := by
  rw [IsBranch, opcodeTree_jalr h, decJalr, if_pos h3]
  exact ⟨rfl, by simp⟩

private theorem isBranch_branch {w : Word} (h : opcode w = opcBranch) (h3 : (funct3 w).extractLsb' 1 2 ≠ 0b01#2) :
    IsBranch w := by
  have hf : funct3 w = 0b000#3 ∨ funct3 w = 0b001#3 ∨ funct3 w = 0b100#3 ∨ funct3 w = 0b101#3 ∨ funct3 w = 0b110#3 ∨
      funct3 w = 0b111#3 := by
    generalize funct3 w = f at h3
    revert f
    decide
  rw [IsBranch, opcodeTree_branch h, decBranch]
  rcases hf with hf | hf | hf | hf | hf | hf <;> simp [hf, Dec.default]

theorem cfJal_sound {x : Src} (h : x.cfJal = true) : opcode x.instr32 = opcJal := by
  rw [Src.cfJal] at h
  rw [Src.instr32]
  split at h <;> rename_i hc
  · simp only [Src.cfCJal, Bool.and_eq_true, Bool.or_eq_true, beq_iff_eq] at h
    rw [if_pos hc, cExpand, h.1, if_neg (by decide), if_pos rfl, cExpand1, cF3]
    rcases h.2 with h2 | h2
    · rw [h2, if_neg (by decide), if_pos rfl, opcode_mkJ]
    · rw [h2, if_neg (by decide), if_neg (by decide), if_neg (by decide), if_neg (by decide), if_neg (by decide),
        if_pos rfl, opcode_mkJ]
  · rw [if_neg hc]
    exact of_decide_eq_true h

theorem cfJalr_sound {x : Src} (h : x.cfJalr = true) :
    opcode x.instr32 = opcJalr ∧ funct3 x.instr32 = 0b000#3 := by
  rw [Src.cfJalr] at h
  rw [Src.instr32]
  split at h <;> rename_i hc
  · simp only [Src.cfCJalr, Bool.and_eq_true, beq_iff_eq, bne_iff_ne, ne_eq] at h
    obtain ⟨⟨⟨h0, h3⟩, h2⟩, h5⟩ := h
    rw [if_pos hc, cExpand, h0, if_neg (by decide), if_neg (by decide), if_pos rfl, cExpand2, cF3, h3,
      if_neg (by decide), if_neg (by decide), if_pos rfl, if_neg (fun hz => h5 hz.1), if_pos (by rw [cRs2, h2])]
    exact ⟨opcode_mkI .., funct3_mkI ..⟩
  · rw [if_neg hc]
    simpa [Src.cfNJalr, opcode, funct3] using h

theorem cfCond_sound {x : Src} (h : x.cfCond = true) :
    opcode x.instr32 = opcBranch ∧ (funct3 x.instr32).extractLsb' 1 2 ≠ 0b01#2 := by
  rw [Src.cfCond] at h
  rw [Src.instr32]
  split at h <;> rename_i hc
  · simp only [Src.cfCCond, Bool.and_eq_true, beq_iff_eq] at h
    have h3 : cF3 x.half16 = 0b110#3 ∨ cF3 x.half16 = 0b111#3 := by
      have hx : x.half16.extractLsb' 14 2 = (cF3 x.half16).extractLsb' 1 2 := by
        ext i hi
        interval_cases i <;> simp [cF3]
      rw [hx] at h
      have h2 := h.2
      generalize cF3 x.half16 = f at h2
      revert f
      decide
    rw [if_pos hc, cExpand, h.1, if_neg (by decide), if_pos rfl, cExpand1]
    rcases h3 with h3 | h3
    · rw [h3, if_neg (by decide), if_neg (by decide), if_neg (by decide), if_neg (by decide), if_neg (by decide),
        if_neg (by decide), if_pos rfl, opcode_mkB, funct3_mkB]
      exact ⟨rfl, by decide⟩
    · rw [h3, if_neg (by decide), if_neg (by decide), if_neg (by decide), if_neg (by decide), if_neg (by decide),
        if_neg (by decide), if_neg (by decide), opcode_mkB, funct3_mkB]
      exact ⟨rfl, by decide⟩
  · rw [if_neg hc]
    simp only [Src.cfNCond, Bool.and_eq_true, beq_iff_eq, bne_iff_ne, ne_eq] at h
    refine ⟨h.1, ?_⟩
    have hx : (funct3 x.word32).extractLsb' 1 2 = x.word32.extractLsb' 13 2 := by
      ext i hi
      interval_cases i <;> simp [funct3]
    rw [hx]
    exact h.2

/-- The fast path calls control flow only what the tree calls control flow. -/
theorem isCf_sound {q : DecodeStage} {i : DecodeIn} (h : isCf q i = true) : IsBranch (srcInstr32 q i) := by
  simp only [isCf, Bool.and_eq_true, Bool.or_eq_true] at h
  rcases h.2 with (h | h) | h
  · exact isBranch_jal (cfJal_sound h)
  · exact isBranch_jalr (cfJalr_sound h).1 (cfJalr_sound h).2
  · exact isBranch_branch (cfCond_sound h).1 (cfCond_sound h).2

/-! ### The D/E word of an item -/

/-- The prediction metadata of a D/E word. -/
structure Pred where
  valid : Bool
  taken : Bool
  target : Word
  phtIndex : BitVec 9
  deriving DecidableEq, Repr

/-- The predicted direction. -/
def Pred.t (x : Pred) : Bool := x.valid && x.taken

/-- The word an item puts into the D/E register, with the operands and the prediction metadata it is given. -/
def Item.de (x : Item) (rs1 rs2 : Word) (pr : Pred) : De :=
  let w := x.src.instr32
  let d := opcodeTree w
  { valid := true
    pc := x.src.pc
    instr := w
    isCompressed := x.src.isCompressed
    rs1Addr := rs1AddrDec w
    rs1Data := rs1
    rs2Data := rs2
    imm := d.imm
    rd := rdField w
    regWrite := !d.illegal && d.regWrite
    csrWren := !d.illegal && d.csrWren
    csrOp := d.csrOp
    csrAddr := csrAddrDec w
    aluOp := d.aluOp
    aluSrcA := d.aluSrcA
    aluSrcB := d.aluSrcB
    memRead := !d.illegal && d.memRead
    memWrite := !d.illegal && d.memWrite
    memSize := d.memSize
    memUnsigned := d.memUnsigned
    memShamt := d.memShamt
    wbSrc := d.wbSrc
    branchType := if d.illegal then .none else d.branchType
    sysOp := d.sysOp
    exception := x.fault || d.illegal || d.excReq
    exceptionCause := if x.fault then mcauseInstrAcc else if d.illegal then mcauseIllegal else d.excCause
    exceptionTval := if x.fault then x.src.pc else if d.illegal then w else d.excTval
    illegal := d.illegal
    predValid := pr.valid
    predTaken := pr.taken
    predTarget := pr.target
    predPhtIndex := pr.phtIndex }

/-- The prediction decode records. -/
def pred (p : Params) (q : DecodeStage) (i : DecodeIn) : Pred where
  valid := p.bpEn && isCf q i
  taken := p.bpEn && predTaken p q i
  target := if p.bpEn then predTarget q i else 0
  phtIndex := if p.bpEn then predPhtIndex p q i else 0

/-- A fault carries no word and its address. -/
theorem fault_src {q : DecodeStage} {i : DecodeIn} (h : takeFault q i = true) :
    src q i = ⟨0, 0, i.fe.pc, false⟩ := by
  simp [src, h]

/-- The D/E word decode assembles is that of the item it presents. -/
theorem deD_eq {p : Params} {q : DecodeStage} {i : DecodeIn} (hv : decodedValid q i = true) :
    deD p q i =
      (Item.mk (takeFault q i) (src q i)).de (fwd i (rs1Addr q i)) (fwd i (rs2Addr q i)) (pred p q i) := by
  have htv : excTval q i = if takeFault q i then (src q i).pc
      else if (opcodeTree (srcInstr32 q i)).illegal then srcInstr32 q i
      else (opcodeTree (srcInstr32 q i)).excTval := by
    rw [excTval, hv]
    cases ht : takeFault q i with
    | true => rw [fault_src ht]; rfl
    | false => simp
  simp only [deD, Item.de, pred, De.mk.injEq, htv, excReq, excCause, hv, Bool.and_true]
  and_intros <;> trivial

/-- A word the tree calls illegal has the kind `trap`. -/
private theorem Dec.HasKind.illegal {d : Dec} {k : Kind} (h : d.HasKind k) (hi : d.illegal = true) : k = .trap := by
  have := h.trap
  rw [hi, Bool.true_or] at this
  exact of_decide_eq_true this.symm

/-- The word zero, which stands for an access fault, is illegal. -/
private theorem opcodeTree_zero : opcodeTree 0#32 = Dec.default := by decide

/-- A fault carries the word zero. -/
def Item.Sane (x : Item) : Prop := x.fault = true → x.src.instr32 = 0

/-- The D/E word of an item has a kind. -/
theorem Item.de_hasKind {x : Item} (hx : x.Sane) (rs1 rs2 : Word) (pr : Pred) :
    ∃ k, (x.de rs1 rs2 pr).HasKind k := by
  obtain ⟨k, hk⟩ := opcodeTree_hasKind x.src.instr32
  refine ⟨k, ?_⟩
  have hfault : x.fault = true → k = .trap := by
    intro hf
    refine hk.illegal ?_
    rw [hx hf]
    exact congrArg Dec.illegal opcodeTree_zero
  cases hi : (opcodeTree x.src.instr32).illegal with
  | true =>
    obtain rfl := hk.illegal hi
    have hdiv := hk.div
    have hmret := hk.mret
    have hwfi := hk.wfi
    constructor <;> simp [Item.de, hi, hdiv, hmret, hwfi]
  | false =>
    have htrap := hk.trap
    have hmem := hk.mem
    have hcsr := hk.csr
    have hbranch := hk.branch
    have hreg := hk.regWrite hi
    simp only [hi, Bool.false_or, Bool.not_false, Bool.true_and] at htrap hmem hcsr hbranch
    constructor
    · simp only [Item.de, hi, Bool.or_false, htrap]
      cases hf : x.fault with
      | true => simp [hfault hf]
      | false => simp
    · simp [Item.de, hi, hmem]
    · simp [Item.de, hi, hk.one]
    · exact hk.div
    · simp [Item.de, hi, hcsr]
    · simp [Item.de, hi, hbranch]
    · exact hk.mret
    · exact hk.wfi
    · simp [Item.de, hi]
    · simpa [Item.de, hi] using hreg
    · simpa [Item.de, hi] using hk.target
    · exact hk.ea
    · exact hk.sys

/-- The word was assembled by decode: a fault carries no instruction, and control flow only is predicted. -/
def De.Made (d : De) : Prop :=
  ∃ x : Item, (x.fault = true → x = Item.faultAt x.src.pc) ∧
    ∃ pr : Pred, (pr.valid = true → IsBranch d.instr) ∧ d = x.de d.rs1Data d.rs2Data pr

theorem De.Made.kind {d : De} (h : d.Made) : ∃ k, d.HasKind k := by
  obtain ⟨x, hx, pr, -, hde⟩ := h
  have hsane : x.Sane := by
    intro hf
    rw [hx hf]
    rfl
  rw [hde]
  exact Item.de_hasKind hsane _ _ _

theorem made_deD {p : Params} {q : DecodeStage} {i : DecodeIn} (hv : decodedValid q i = true) : (deD p q i).Made := by
  refine ⟨⟨takeFault q i, src q i⟩, fun hf => ?_, pred p q i, fun hp => ?_, deD_eq hv⟩
  · have ht : takeFault q i = true := hf
    rw [ht, fault_src ht]
    rfl
  · simp only [pred, Bool.and_eq_true] at hp
    exact isCf_sound hp.2

theorem De.Made.predicted {d : De} (h : d.Made) (hp : d.predValid = true) : d.branchType ≠ .none := by
  obtain ⟨x, -, pr, hcf, hde⟩ := h
  have hv : pr.valid = true := by
    rw [hde] at hp
    exact hp
  obtain ⟨hl, hb⟩ := hcf hv
  have hi : d.instr = x.src.instr32 := by
    rw [hde]
    rfl
  have hbr : d.branchType = if (opcodeTree x.src.instr32).illegal then .none
      else (opcodeTree x.src.instr32).branchType := by
    rw [hde]
    rfl
  rw [hi] at hl hb
  rw [hbr, hl]
  exact hb

end Yarv
