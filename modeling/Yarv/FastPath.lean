import Yarv.Kinds
import Yarv.ExecuteStage

/-!
# The prediction fast path

Decode classifies control flow on the raw halves of its source, in front of `c_expand` and the opcode tree.  Here the
two classifications are compared on every source: `cfJal_eq`, `cfJalr_eq`, `cfCond_eq` and `cfRet_eq` read the fast
one as a condition on the fields of the expanded word, `slowIsCf_eq` and its two siblings the slow one, and
`predImm_eq` finds the offset of the raw half in the immediate of the tree (`fast_path`).
-/

namespace Yarv

open DecodeStage

/-! ### The classification of the decoder -/

/-- A conditional branch. -/
def BranchT.isCond (b : BranchT) : Bool :=
  match b with
  | .beq | .bne | .blt | .bge | .bltu | .bgeu => true
  | _ => false

section Slow

variable (w : Word)

/-- `slow_is_cf`, for a valid word. -/
def slowIsCf : Bool := !(opcodeTree w).illegal && (opcodeTree w).branchType != .none

/-- `slow_is_cond_cf`. -/
def slowIsCondCf : Bool := slowIsCf w && (opcodeTree w).branchType.isCond

/-- `slow_is_return_cf`. -/
def slowIsReturnCf : Bool :=
  slowIsCf w && (opcodeTree w).branchType == .jalr && (rs1Field w == 1 || rs1Field w == 5) && rdField w == 0

/-- The opcodes of control flow. -/
def IsCfOpcode (o : BitVec 7) : Prop := o = opcJal ∨ o = opcJalr ∨ o = opcBranch

instance (o : BitVec 7) : Decidable (IsCfOpcode o) := inferInstanceAs (Decidable (_ ∨ _))

/-- The reserved branches are those whose `funct3` is `01x`. -/
def condLegal (f3 : BitVec 3) : Bool := f3.extractLsb' 1 2 != 0b01#2

/-- The conditional branch a `funct3` stands for. -/
def condType (f3 : BitVec 3) : BranchT :=
  if f3 = 0b000#3 then .beq
  else if f3 = 0b001#3 then .bne
  else if f3 = 0b100#3 then .blt
  else if f3 = 0b101#3 then .bge
  else if f3 = 0b110#3 then .bltu
  else if f3 = 0b111#3 then .bgeu
  else .none

/-- The branch an opcode and its `funct3` stand for. -/
def cfType : BranchT :=
  if opcode w = opcJal then .jal
  else if opcode w = opcJalr then (if funct3 w = 0b000#3 then .jalr else .none)
  else if opcode w = opcBranch then condType (funct3 w)
  else .none

private theorem decLoad_branchType : (decLoad w).branchType = .none := by
  unfold decLoad
  split_ifs <;> rfl

private theorem decStore_branchType : (decStore w).branchType = .none := by
  unfold decStore
  split_ifs <;> rfl

private theorem decOpImm_branchType : (decOpImm w).branchType = .none := by
  unfold decOpImm
  split_ifs <;> rfl

private theorem decOp_branchType : (decOp w).branchType = .none := by
  unfold decOp
  split_ifs <;> rfl

private theorem decAmo_branchType : (decAmo w).branchType = .none := by
  unfold decAmo
  split_ifs <;> rfl

private theorem decSystem_branchType : (decSystem w).branchType = .none := by
  unfold decSystem decCsr decPriv
  split_ifs <;> rfl

private theorem decMiscMem_branchType : (decMiscMem w).branchType = .none := by
  unfold decMiscMem
  split_ifs <;> rfl

private theorem decBranch_branchType : (decBranch w).branchType = condType (funct3 w) := by
  unfold decBranch condType
  split_ifs <;> rfl

private theorem decBranch_legal (h : condType (funct3 w) ≠ .none) : (decBranch w).illegal = false := by
  unfold condType at h
  unfold decBranch
  split_ifs at h ⊢ <;> first | rfl | exact absurd rfl h

/-- No opcode but three sets the branch type. -/
theorem branchType_eq : (opcodeTree w).branchType = cfType w := by
  by_cases hj : opcode w = opcJal
  · rw [opcodeTree_jal hj, cfType, if_pos hj]
    rfl
  by_cases hr : opcode w = opcJalr
  · rw [opcodeTree_jalr hr, cfType, if_neg hj, if_pos hr, decJalr]
    split_ifs <;> rfl
  by_cases hb : opcode w = opcBranch
  · rw [opcodeTree_branch hb, cfType, if_neg hj, if_neg hr, if_pos hb]
    exact decBranch_branchType w
  rw [cfType, if_neg hj, if_neg hr, if_neg hb, opcodeTree]
  split_ifs
  · rfl
  · rfl
  · exact decLoad_branchType w
  · exact decStore_branchType w
  · exact decOpImm_branchType w
  · exact decOp_branchType w
  · exact decAmo_branchType w
  · exact decSystem_branchType w
  · exact decMiscMem_branchType w
  · rfl

/-- A word with a branch type is legal. -/
private theorem legal_of_cfType (h : cfType w ≠ .none) : (opcodeTree w).illegal = false := by
  by_cases hj : opcode w = opcJal
  · rw [opcodeTree_jal hj]
    rfl
  by_cases hr : opcode w = opcJalr
  · rw [cfType, if_neg hj, if_pos hr] at h
    have h3 : funct3 w = 0b000#3 := by
      by_contra h3
      rw [if_neg h3] at h
      exact h rfl
    rw [opcodeTree_jalr hr, decJalr, if_pos h3]
  by_cases hb : opcode w = opcBranch
  · rw [cfType, if_neg hj, if_neg hr, if_pos hb] at h
    rw [opcodeTree_branch hb]
    exact decBranch_legal w h
  rw [cfType, if_neg hj, if_neg hr, if_neg hb] at h
  exact absurd rfl h

private theorem slowIsCf_eq_cfType : slowIsCf w = (cfType w != .none) := by
  rw [slowIsCf, branchType_eq]
  by_cases h : cfType w = .none
  · simp [h]
  · rw [legal_of_cfType w h]
    rfl

private theorem slowIsCondCf_eq :
    slowIsCondCf w = (opcode w == opcBranch && condLegal (funct3 w)) := by
  rw [slowIsCondCf, slowIsCf_eq_cfType, branchType_eq, cfType]
  by_cases hj : opcode w = opcJal
  · rw [if_pos hj, hj]
    rfl
  by_cases hr : opcode w = opcJalr
  · rw [if_neg hj, if_pos hr, hr]
    split_ifs <;> rfl
  by_cases hb : opcode w = opcBranch
  · rw [if_neg hj, if_neg hr, if_pos hb, hb]
    generalize funct3 w = f
    revert f
    decide
  · rw [if_neg hj, if_neg hr, if_neg hb, beq_eq_false_iff_ne.mpr hb]
    rfl

private theorem slowIsCf_eq :
    slowIsCf w = (opcode w == opcJal || (opcode w == opcJalr && funct3 w == 0b000#3) ||
      (opcode w == opcBranch && condLegal (funct3 w))) := by
  rw [slowIsCf_eq_cfType, cfType]
  by_cases hj : opcode w = opcJal
  · rw [if_pos hj, hj]
    rfl
  by_cases hr : opcode w = opcJalr
  · rw [if_neg hj, if_pos hr, hr]
    by_cases h3 : funct3 w = 0b000#3
    · rw [if_pos h3, h3]
      rfl
    · rw [if_neg h3, beq_eq_false_iff_ne.mpr h3]
      rfl
  by_cases hb : opcode w = opcBranch
  · rw [if_neg hj, if_neg hr, if_pos hb, hb]
    generalize funct3 w = f
    revert f
    decide
  · rw [if_neg hj, if_neg hr, if_neg hb, beq_eq_false_iff_ne.mpr hj, beq_eq_false_iff_ne.mpr hr,
      beq_eq_false_iff_ne.mpr hb]
    rfl

private theorem condType_ne_jalr (f3 : BitVec 3) : condType f3 ≠ .jalr := by
  revert f3
  decide

private theorem branchType_jalr_iff :
    (opcodeTree w).branchType = .jalr ↔ opcode w = opcJalr ∧ funct3 w = 0b000#3 := by
  rw [branchType_eq, cfType]
  by_cases hj : opcode w = opcJal
  · rw [if_pos hj, hj]
    exact ⟨fun h => absurd h (by decide), fun h => absurd h.1 (by decide)⟩
  by_cases hr : opcode w = opcJalr
  · rw [if_neg hj, if_pos hr]
    by_cases h3 : funct3 w = 0b000#3
    · simp [h3, hr]
    · simp [h3]
  · rw [if_neg hj, if_neg hr]
    refine ⟨fun h => ?_, fun h => absurd h.1 hr⟩
    by_cases hb : opcode w = opcBranch
    · rw [if_pos hb] at h
      exact absurd h (condType_ne_jalr _)
    · rw [if_neg hb] at h
      exact absurd h (by decide)

private theorem slowIsReturnCf_eq :
    slowIsReturnCf w = (opcode w == opcJalr && funct3 w == 0b000#3 && (rs1Field w == 1 || rs1Field w == 5) &&
      rdField w == 0) := by
  have h : (slowIsCf w && (opcodeTree w).branchType == .jalr) = (opcode w == opcJalr && funct3 w == 0b000#3) := by
    by_cases hb : (opcodeTree w).branchType = .jalr
    · obtain ⟨h1, h2⟩ := (branchType_jalr_iff w).mp hb
      rw [slowIsCf_eq, hb, h1, h2]
      rfl
    · rw [beq_eq_false_iff_ne.mpr hb, Bool.and_false]
      rw [branchType_jalr_iff] at hb
      symm
      rw [Bool.and_eq_false_iff, beq_eq_false_iff_ne, beq_eq_false_iff_ne]
      exact not_and_or.mp hb
  rw [slowIsReturnCf, h]

end Slow

/-! ### Opcodes behind `c_expand` -/

section Expand

variable (c : BitVec 16)

private theorem cExpand0_opcode : ¬IsCfOpcode (opcode (cExpand0 c)) := by
  unfold cExpand0
  split_ifs
  · rw [opcode_mkI]
    decide
  · decide
  · rw [opcode_mkI]
    decide
  · rw [opcode_mkS]
    decide
  · decide

private theorem cExpandAlu_opcode : ¬IsCfOpcode (opcode (cExpandAlu c)) := by
  unfold cExpandAlu
  split_ifs
  · rw [opcode_mkI]
    decide
  · rw [opcode_mkI]
    decide
  · rw [opcode_mkI]
    decide
  · rw [opcode_mkR]
    decide
  · rw [opcode_mkR]
    decide
  · rw [opcode_mkR]
    decide
  · rw [opcode_mkR]
    decide

/-- In quadrant 1 control flow has `funct3` x01 or 11x. -/
private theorem cExpand1_opcode (h : IsCfOpcode (opcode (cExpand1 c))) :
    cF3 c = 0b001#3 ∨ cF3 c = 0b101#3 ∨ cF3 c = 0b110#3 ∨ cF3 c = 0b111#3 := by
  by_contra hno
  simp only [not_or] at hno
  obtain ⟨h1, h5, h6, h7⟩ := hno
  have hf : cF3 c = 0b000#3 ∨ cF3 c = 0b010#3 ∨ cF3 c = 0b011#3 ∨ cF3 c = 0b100#3 := by
    generalize cF3 c = f at h1 h5 h6 h7
    revert f
    decide
  revert h
  unfold cExpand1
  rcases hf with hf | hf | hf | hf
  · rw [if_pos hf]
    split_ifs
    · rw [opcode_mkI]
      decide
    · rw [opcode_mkI]
      decide
    · decide
  · rw [hf, if_neg (by decide), if_neg (by decide), if_pos rfl]
    split_ifs
    · rw [opcode_mkI]
      decide
    · decide
  · rw [hf, if_neg (by decide), if_neg (by decide), if_neg (by decide), if_pos rfl]
    split_ifs
    · rw [opcode_mkI]
      decide
    · decide
    · rw [opcode_mkU]
      decide
    · decide
  · rw [hf, if_neg (by decide), if_neg (by decide), if_neg (by decide), if_neg (by decide), if_pos rfl]
    exact cExpandAlu_opcode c

/-- In quadrant 2 the one control flow is the jump to a register. -/
private theorem cExpand2_opcode (h : ¬(cF3 c = 0b100#3 ∧ cRs2 c = 0#5 ∧ cRd5 c ≠ 0#5)) :
    ¬IsCfOpcode (opcode (cExpand2 c)) := by
  unfold cExpand2
  by_cases h4 : cF3 c = 0b100#3
  · rw [h4, if_neg (by decide), if_neg (by decide), if_pos rfl]
    by_cases hs : cRs2 c = 0#5
    · have hd : cRd5 c = 0#5 := by
        by_contra hd
        exact h ⟨h4, hs, hd⟩
      rw [if_pos ⟨hd, hs⟩, opcode_mkI]
      decide
    · rw [if_neg fun he => hs he.2, if_neg hs]
      split_ifs
      · rw [opcode_mkR]
        decide
      · rw [opcode_mkR]
        decide
      · decide
  · rw [if_neg h4]
    split_ifs
    · rw [opcode_mkI]
      decide
    · decide
    · rw [opcode_mkI]
      decide
    · decide
    · rw [opcode_mkS]
      decide
    · decide

/-- Behind `c_expand` control flow comes from three groups of halfwords. -/
private theorem cExpand_opcode (h : IsCfOpcode (opcode (cExpand c))) :
    (c.extractLsb' 0 2 = 0b01#2 ∧ (cF3 c = 0b001#3 ∨ cF3 c = 0b101#3) ∧ opcode (cExpand c) = opcJal) ∨
      (c.extractLsb' 0 2 = 0b01#2 ∧ (cF3 c = 0b110#3 ∨ cF3 c = 0b111#3) ∧ opcode (cExpand c) = opcBranch) ∨
      (c.extractLsb' 0 2 = 0b10#2 ∧ cF3 c = 0b100#3 ∧ cRs2 c = 0#5 ∧ cRd5 c ≠ 0#5 ∧
        opcode (cExpand c) = opcJalr) := by
  have hq : c.extractLsb' 0 2 = 0b00#2 ∨ c.extractLsb' 0 2 = 0b01#2 ∨ c.extractLsb' 0 2 = 0b10#2 ∨
      c.extractLsb' 0 2 = 0b11#2 := by
    generalize c.extractLsb' 0 2 = f
    revert f
    decide
  rcases hq with hq | hq | hq | hq
  · rw [cExpand, if_pos hq] at h
    exact absurd h (cExpand0_opcode c)
  · have he : cExpand c = cExpand1 c := by rw [cExpand, hq, if_neg (by decide), if_pos rfl]
    rw [he] at h ⊢
    rcases cExpand1_opcode c h with hf | hf | hf | hf
    · refine .inl ⟨hq, .inl hf, ?_⟩
      rw [cExpand1, hf, if_neg (by decide), if_pos rfl, opcode_mkJ]
    · refine .inl ⟨hq, .inr hf, ?_⟩
      rw [cExpand1, hf, if_neg (by decide), if_neg (by decide), if_neg (by decide), if_neg (by decide),
        if_neg (by decide), if_pos rfl, opcode_mkJ]
    · refine .inr (.inl ⟨hq, .inl hf, ?_⟩)
      rw [cExpand1, hf, if_neg (by decide), if_neg (by decide), if_neg (by decide), if_neg (by decide),
        if_neg (by decide), if_neg (by decide), if_pos rfl, opcode_mkB]
    · refine .inr (.inl ⟨hq, .inr hf, ?_⟩)
      rw [cExpand1, hf, if_neg (by decide), if_neg (by decide), if_neg (by decide), if_neg (by decide),
        if_neg (by decide), if_neg (by decide), if_neg (by decide), opcode_mkB]
  · have he : cExpand c = cExpand2 c := by rw [cExpand, hq, if_neg (by decide), if_neg (by decide), if_pos rfl]
    rw [he] at h ⊢
    have hg : cF3 c = 0b100#3 ∧ cRs2 c = 0#5 ∧ cRd5 c ≠ 0#5 := by
      by_contra hg
      exact cExpand2_opcode c hg h
    obtain ⟨hf, hs, hd⟩ := hg
    refine .inr (.inr ⟨hq, hf, hs, hd, ?_⟩)
    rw [cExpand2, hf, if_neg (by decide), if_neg (by decide), if_pos rfl, if_neg fun hz => hd hz.1, if_pos hs,
      opcode_mkI]
  · rw [cExpand, hq, if_neg (by decide), if_neg (by decide), if_neg (by decide)] at h
    exact absurd h (by decide)

end Expand

/-! ### The classification of the raw halves -/

section Fast

variable (x : Src)

private theorem instr32_compressed (h : x.isCompressed = true) : x.instr32 = cExpand x.half16 := by
  rw [Src.instr32, if_pos h]

private theorem instr32_native (h : x.isCompressed = false) : x.instr32 = x.word32 := by
  rw [Src.instr32, h]
  rfl

theorem cfJal_eq : x.cfJal = (opcode x.instr32 == opcJal) := by
  cases hc : x.isCompressed with
  | false =>
    rw [instr32_native x hc, Src.cfJal, hc]
    rfl
  | true =>
    cases hf : x.cfJal with
    | true => rw [cfJal_sound hf]; rfl
    | false =>
      symm
      rw [beq_eq_false_iff_ne]
      intro hj
      rw [instr32_compressed x hc] at hj
      rw [Src.cfJal, hc, if_pos rfl, Src.cfCJal] at hf
      rcases cExpand_opcode x.half16 (.inl hj) with ⟨hq, h3, -⟩ | ⟨-, -, ho⟩ | ⟨-, -, -, -, ho⟩
      · rw [hq] at hf
        rcases h3 with h3 | h3 <;> rw [cF3] at h3 <;> rw [h3] at hf <;> exact absurd hf (by decide)
      · rw [hj] at ho
        exact absurd ho (by decide)
      · rw [hj] at ho
        exact absurd ho (by decide)

private theorem cfJalr_eq : x.cfJalr = (opcode x.instr32 == opcJalr && funct3 x.instr32 == 0b000#3) := by
  cases hc : x.isCompressed with
  | false =>
    rw [instr32_native x hc, Src.cfJalr, hc]
    rfl
  | true =>
    cases hf : x.cfJalr with
    | true => rw [(cfJalr_sound hf).1, (cfJalr_sound hf).2]; rfl
    | false =>
      symm
      rw [Bool.and_eq_false_iff, beq_eq_false_iff_ne]
      left
      intro hj
      rw [instr32_compressed x hc] at hj
      rw [Src.cfJalr, hc, if_pos rfl, Src.cfCJalr] at hf
      rcases cExpand_opcode x.half16 (.inr (.inl hj)) with ⟨-, -, ho⟩ | ⟨-, -, ho⟩ | ⟨hq, h3, hs, hd, -⟩
      · rw [hj] at ho
        exact absurd ho (by decide)
      · rw [hj] at ho
        exact absurd ho (by decide)
      · rw [cF3] at h3
        rw [cRs2] at hs
        rw [cRd5] at hd
        rw [hq, h3, hs, bne_iff_ne.mpr hd] at hf
        exact absurd hf (by decide)

theorem cfCond_eq : x.cfCond = (opcode x.instr32 == opcBranch && condLegal (funct3 x.instr32)) := by
  cases hc : x.isCompressed with
  | false =>
    have h3 : (funct3 x.word32).extractLsb' 1 2 = x.word32.extractLsb' 13 2 := by
      ext i hi
      interval_cases i <;> simp [funct3]
    rw [instr32_native x hc, Src.cfCond, hc, condLegal, h3]
    rfl
  | true =>
    cases hf : x.cfCond with
    | true =>
      rw [(cfCond_sound hf).1, condLegal, bne_iff_ne.mpr (cfCond_sound hf).2]
      rfl
    | false =>
      symm
      rw [Bool.and_eq_false_iff, beq_eq_false_iff_ne]
      left
      intro hj
      rw [instr32_compressed x hc] at hj
      rw [Src.cfCond, hc, if_pos rfl, Src.cfCCond] at hf
      rcases cExpand_opcode x.half16 (.inr (.inr hj)) with ⟨-, -, ho⟩ | ⟨hq, h3, -⟩ | ⟨-, -, -, -, ho⟩
      · rw [hj] at ho
        exact absurd ho (by decide)
      · have hx : x.half16.extractLsb' 14 2 = (cF3 x.half16).extractLsb' 1 2 := by
          ext i hi
          interval_cases i <;> simp [cF3]
        rw [hq, hx] at hf
        rcases h3 with h3 | h3 <;> rw [h3] at hf <;> exact absurd hf (by decide)
      · rw [hj] at ho
        exact absurd ho (by decide)

private theorem rdField_mkI (op : BitVec 7) (rd rs1 : BitVec 5) (f3 : BitVec 3) (off : Word) :
    rdField (mkI op rd rs1 f3 off) = rd := by
  ext i hi
  simp only [rdField, mkI, BitVec.getElem_extractLsb', BitVec.getLsbD_append]
  interval_cases i <;> simp

private theorem rs1Field_mkI (op : BitVec 7) (rd rs1 : BitVec 5) (f3 : BitVec 3) (off : Word) :
    rs1Field (mkI op rd rs1 f3 off) = rs1 := by
  ext i hi
  simp only [rs1Field, mkI, BitVec.getElem_extractLsb', BitVec.getLsbD_append]
  interval_cases i <;> simp

/-- The word behind a compressed jump to a register. -/
private theorem instr32_cjalr (hc : x.isCompressed = true) (h : x.cfCJalr = true) :
    x.instr32 = mkI opcJalr (if x.half16.getLsbD 12 then 1#5 else 0#5) (cRd5 x.half16) 0b000#3 0 := by
  simp only [Src.cfCJalr, Bool.and_eq_true, beq_iff_eq, bne_iff_ne, ne_eq] at h
  obtain ⟨⟨⟨h0, h3⟩, h2⟩, h5⟩ := h
  rw [instr32_compressed x hc, cExpand, h0, if_neg (by decide), if_neg (by decide), if_pos rfl, cExpand2, cF3, h3,
    if_neg (by decide), if_neg (by decide), if_pos rfl, if_neg (fun hz => h5 hz.1), if_pos (by rw [cRs2, h2])]

theorem cfRet_eq : x.cfRet =
    (opcode x.instr32 == opcJalr && funct3 x.instr32 == 0b000#3 &&
      (rs1Field x.instr32 == 1 || rs1Field x.instr32 == 5) && rdField x.instr32 == 0) := by
  rw [← cfJalr_eq]
  cases hc : x.isCompressed with
  | false =>
    rw [instr32_native x hc, Src.cfRet, Src.cfJalr, hc, Bool.and_assoc, Bool.and_comm (_ || _), ← Bool.and_assoc]
    rfl
  | true =>
    rw [Src.cfRet, Src.cfJalr, hc, if_pos rfl, if_pos rfl, Src.cfCRet]
    cases hj : x.cfCJalr with
    | false => rfl
    | true =>
      rw [instr32_cjalr x hc hj, rdField_mkI, rs1Field_mkI, Bool.true_and, Bool.true_and, Bool.and_comm, cRd5]
      cases x.half16.getLsbD 12 <;> rfl

/-! ### Immediates -/

/-- The immediate read back from a built jump. -/
private theorem immJ_mkJ (op : BitVec 7) (rd : BitVec 5) (y : BitVec 12) (h : y.getLsbD 0 = false) :
    immJ (mkJ op rd (y.signExtend 32)) = y.signExtend 32 := by
  apply BitVec.eq_of_getLsbD_eq
  intro i hi
  simp only [immJ, mkJ, BitVec.getLsbD_signExtend, BitVec.getLsbD_append, BitVec.getLsbD_extractLsb',
    BitVec.msb_eq_getLsbD_last]
  rcases Nat.eq_zero_or_pos i with rfl | hpos
  · simpa using h
  · interval_cases i <;> simp

/-- The immediate read back from a built branch. -/
private theorem immB_mkB (op : BitVec 7) (rs1 rs2 : BitVec 5) (f3 : BitVec 3) (y : BitVec 9)
    (h : y.getLsbD 0 = false) :
    immB (mkB op rs1 rs2 f3 (y.signExtend 32)) = y.signExtend 32 := by
  apply BitVec.eq_of_getLsbD_eq
  intro i hi
  simp only [immB, mkB, BitVec.getLsbD_signExtend, BitVec.getLsbD_append, BitVec.getLsbD_extractLsb',
    BitVec.msb_eq_getLsbD_last]
  rcases Nat.eq_zero_or_pos i with rfl | hpos
  · simpa using h
  · interval_cases i <;> simp

private theorem cJOff_even (c : BitVec 16) : (cJOff c).getLsbD 0 = false := by
  rw [cJOff, BitVec.getLsbD_append]
  rfl

private theorem cBOff_even (c : BitVec 16) : (cBOff c).getLsbD 0 = false := by
  rw [cBOff, BitVec.getLsbD_append]
  rfl

/-- Bit 14 of a compressed halfword tells a branch from a jump. -/
private theorem bit14_eq (c : BitVec 16) : c.getLsbD 14 = (cF3 c).getLsbD 1 := by
  simp [cF3]

/-- The offset the fast path adds is the immediate of the tree. -/
private theorem predImm_eq (h : opcode x.instr32 = opcJal ∨ opcode x.instr32 = opcBranch) :
    x.predImm = (opcodeTree x.instr32).imm := by
  have himm : (opcodeTree x.instr32).imm = if opcode x.instr32 = opcJal then immJ x.instr32 else immB x.instr32 := by
    rcases h with h | h
    · rw [opcodeTree_jal h, if_pos h]
      rfl
    · rw [opcodeTree_branch h, h, if_neg (by decide), decBranch]
      split_ifs <;> rfl
  rw [himm]
  cases hc : x.isCompressed with
  | false =>
    rw [instr32_native x hc, Src.predImm, hc]
    rfl
  | true =>
    have hcf : IsCfOpcode (opcode (cExpand x.half16)) := by
      rw [instr32_compressed x hc] at h
      exact h.imp_right .inr
    rw [instr32_compressed x hc] at h ⊢
    rw [Src.predImm, hc, if_pos rfl, bit14_eq]
    rcases cExpand_opcode x.half16 hcf with ⟨hq, h3, ho⟩ | ⟨hq, h3, ho⟩ | ⟨-, -, -, -, ho⟩
    · have he : ∃ rd, cExpand x.half16 = mkJ opcJal rd ((cJOff x.half16).signExtend 32) := by
        rw [cExpand, hq, if_neg (by decide), if_pos rfl, cExpand1]
        rcases h3 with h3 | h3
        · exact ⟨1#5, by rw [h3, if_neg (by decide), if_pos rfl]⟩
        · refine ⟨0#5, ?_⟩
          rw [h3, if_neg (by decide), if_neg (by decide), if_neg (by decide), if_neg (by decide), if_neg (by decide),
            if_pos rfl]
      obtain ⟨rd, he⟩ := he
      have hb : (cF3 x.half16).getLsbD 1 = false := by
        rcases h3 with h3 | h3 <;> rw [h3] <;> rfl
      rw [hb, if_neg (by decide), if_pos ho, he, immJ_mkJ _ _ _ (cJOff_even _)]
      rfl
    · have he : ∃ f3, cExpand x.half16 = mkB opcBranch (cCrs1 x.half16) 0#5 f3 ((cBOff x.half16).signExtend 32) := by
        rw [cExpand, hq, if_neg (by decide), if_pos rfl, cExpand1]
        rcases h3 with h3 | h3
        · refine ⟨0b000#3, ?_⟩
          rw [h3, if_neg (by decide), if_neg (by decide), if_neg (by decide), if_neg (by decide), if_neg (by decide),
            if_neg (by decide), if_pos rfl]
        · refine ⟨0b001#3, ?_⟩
          rw [h3, if_neg (by decide), if_neg (by decide), if_neg (by decide), if_neg (by decide), if_neg (by decide),
            if_neg (by decide), if_neg (by decide)]
      obtain ⟨f3, he⟩ := he
      have hb : (cF3 x.half16).getLsbD 1 = true := by
        rcases h3 with h3 | h3 <;> rw [h3] <;> rfl
      rw [hb, if_pos rfl, ho, if_neg (by decide), he, immB_mkB _ _ _ _ _ (cBOff_even _)]
      rfl
    · rcases h with h | h <;> rw [ho] at h <;> exact absurd h (by decide)

end Fast

/-! ### The two paths agree -/

/-- A word of control flow that is not a jump to a register is a jump or a branch. -/
private theorem opcode_of_slowIsCf {w : Word} (h : slowIsCf w = true) (hj : (opcodeTree w).branchType ≠ .jalr) :
    opcode w = opcJal ∨ opcode w = opcBranch := by
  rw [slowIsCf_eq] at h
  simp only [Bool.or_eq_true, Bool.and_eq_true, beq_iff_eq] at h
  rcases h with (h | h) | h
  · exact .inl h
  · exact absurd ((branchType_jalr_iff w).mpr h) hj
  · exact .inr h.1

/-- The fast path of decode against its decoder. -/
structure FastPath (p : Params) (q : DecodeStage) (i : DecodeIn) : Prop where
  cf : isCf q i = (decodedValid q i && slowIsCf (srcInstr32 q i))
  cond : (decodedValid q i && (src q i).cfCond) = (decodedValid q i && slowIsCondCf (srcInstr32 q i))
  ret : (decodedValid q i && (src q i).cfRet) = (decodedValid q i && slowIsReturnCf (srcInstr32 q i))
  /-- A jump or a branch is predicted to the target execute resolves. -/
  target : slowIsCf (srcInstr32 q i) = true → (opcodeTree (srcInstr32 q i)).branchType ≠ .jalr →
    (src q i).predDirTarget = (deD p q i).pc + (deD p q i).imm
  /-- A redirect takes an instruction with it that execute resolves, unless it is frozen or traps. -/
  fire : predRedirectFire p q i = true →
    ∀ (e : ExecuteStage) (j : ExecuteIn), j.de = deNext p q i → e.freeze j = false → e.trapRedirectReq p j = false →
      e.cfResolving p j = true

private theorem src_fastPath (x : Src) :
    (x.cfJal || x.cfJalr || x.cfCond) = slowIsCf x.instr32 ∧ x.cfCond = slowIsCondCf x.instr32 ∧
      x.cfRet = slowIsReturnCf x.instr32 := by
  rw [slowIsCf_eq, slowIsCondCf_eq, slowIsReturnCf_eq, cfJal_eq, cfJalr_eq, cfCond_eq, cfRet_eq]
  exact ⟨rfl, rfl, rfl⟩

/-- **Predictor fast path.**  On every source the classification and the target taken from the raw halves are those of
the decoder behind `c_expand`, and a redirect is fired only for what execute resolves as control flow. -/
theorem fast_path (p : Params) (q : DecodeStage) (i : DecodeIn) : FastPath p q i := by
  obtain ⟨h1, h2, h3⟩ := src_fastPath (src q i)
  have hcf : isCf q i = (decodedValid q i && slowIsCf (srcInstr32 q i)) := by
    rw [isCf, h1]
    rfl
  refine ⟨hcf, by rw [h2]; rfl, by rw [h3]; rfl, fun hs hj => ?_, fun hf e j hde hfr ht => ?_⟩
  · rw [Src.predDirTarget, predImm_eq _ (opcode_of_slowIsCf hs hj)]
    rfl
  · simp only [predRedirectFire, Bool.and_eq_true, Bool.not_eq_true'] at hf
    obtain ⟨⟨⟨⟨-, hc⟩, -⟩, hst⟩, hfl⟩ := hf
    rw [hcf, Bool.and_eq_true, slowIsCf, Bool.and_eq_true, Bool.not_eq_true'] at hc
    obtain ⟨hv, hi, hb⟩ := hc
    have hnext : j.de = deD p q i := by
      rw [hde, deNext, hfl, hst]
      rfl
    have hdv : (deD p q i).valid = true := hv
    have hdi : (deD p q i).illegal = false := by
      change ((opcodeTree (srcInstr32 q i)).illegal && decodedValid q i) = false
      rw [hi, Bool.false_and]
    have hdb : ((deD p q i).branchType != .none) = true := by
      have : (deD p q i).branchType = if (opcodeTree (srcInstr32 q i)).illegal then .none
          else (opcodeTree (srcInstr32 q i)).branchType := rfl
      rw [this, hi]
      exact hb
    rw [ExecuteStage.cfResolving, hnext, hdv, hdi, hdb, hfr, ht]
    rfl

end Yarv
