import Yarv.TrapEntry

/-!
# The CSR read-modify-write

A CSR instruction takes two cycles: in the first the CSR file registers its read, in the second the instruction
commits, writes `rd` and the CSR.  Between the two nothing else writes the CSR file but the counters and the interrupt
lines.
-/

namespace Yarv

open Clocked ExecuteStage DecodeStage

/-! ### What a CSR instruction asks for -/

/-- The value a CSR instruction writes over `old`; set and clear with a zero source write nothing. -/
def CsrOp.written (o : CsrOp) (old src : Word) : Option Word :=
  match o with
  | .rw | .rwi => .some src
  | .rs | .rsi => if src = 0 then .none else .some (old ||| src)
  | .rc | .rci => if src = 0 then .none else .some (old &&& ~~~src)
  | .none => .none

/-- The operation `funct3` names. -/
def csrOpOf (f : BitVec 3) : CsrOp :=
  if f = 0b001#3 then .rw
  else if f = 0b010#3 then .rs
  else if f = 0b011#3 then .rc
  else if f = 0b101#3 then .rwi
  else if f = 0b110#3 then .rsi
  else if f = 0b111#3 then .rci
  else .none

/-- The source operand of the word `w`: its immediate or a register. -/
def csrSource (f : RegFile) (w : Word) : Word := if (funct3 w).getLsbD 2 then zimm w else f.read (rs1Field w)

/-- The bits of a CSR that software can write. -/
def csrMask (a : BitVec 12) : Word :=
  if a = csrAddrMstatus then ~~~0x1800#32
  else if a = csrAddrMisa then 0
  else if a = csrAddrMtvec then ~~~0x2#32
  else if a = csrAddrMip then ~~~0x888#32
  else BitVec.allOnes 32

/-- A write of the bits in `m`. -/
def mergeCsr (m : Word) (v : Option Word) (old : Word) : Word :=
  match v with
  | some x => (x &&& m) ||| (old &&& ~~~m)
  | none => old

/-- The implemented CSRs but for the two counters. -/
def plainCsrs : List (BitVec 12) :=
  [csrAddrMstatus, csrAddrMisa, csrAddrMie, csrAddrMtvec, csrAddrMscratch, csrAddrMepc, csrAddrMcause, csrAddrMtval,
    csrAddrMip]

/-- What a cycle does to the CSRs without a write: the lines go to `mip`, the counters count. -/
def Csrs.tick (r : Csrs) (i : CoreIn) (retire : Bool) : Csrs :=
  { r with
    mip := r.mip.extractLsb' 12 20 ++ BitVec.ofBool i.meip ++ r.mip.extractLsb' 8 3 ++ BitVec.ofBool i.mtip ++
      r.mip.extractLsb' 4 3 ++ BitVec.ofBool i.msip ++ r.mip.extractLsb' 0 3
    mcycle := r.mcycle + 1
    minstret := if retire then r.minstret + 1 else r.minstret }

/-- Two CSR files read alike where the register named there is the same. -/
theorem Csrs.read_ext {r r' : Csrs} {b : BitVec 12} (h0 : b = csrAddrMstatus → r.mstatus = r'.mstatus)
    (h1 : b = csrAddrMisa → r.misa = r'.misa) (h2 : b = csrAddrMie → r.mie = r'.mie)
    (h3 : b = csrAddrMtvec → r.mtvec = r'.mtvec) (h4 : b = csrAddrMscratch → r.mscratch = r'.mscratch)
    (h5 : b = csrAddrMepc → r.mepc = r'.mepc) (h6 : b = csrAddrMcause → r.mcause = r'.mcause)
    (h7 : b = csrAddrMtval → r.mtval = r'.mtval) (h8 : b = csrAddrMip → r.mip = r'.mip)
    (h9 : b = csrAddrMcycle → r.mcycle = r'.mcycle) (h10 : b = csrAddrMinstret → r.minstret = r'.minstret) :
    r.read b = r'.read b := by
  unfold Csrs.read
  by_cases c0 : b = csrAddrMstatus
  · rw [if_pos c0, if_pos c0, h0 c0]
  rw [if_neg c0, if_neg c0]
  by_cases c1 : b = csrAddrMisa
  · rw [if_pos c1, if_pos c1, h1 c1]
  rw [if_neg c1, if_neg c1]
  by_cases c2 : b = csrAddrMie
  · rw [if_pos c2, if_pos c2, h2 c2]
  rw [if_neg c2, if_neg c2]
  by_cases c3 : b = csrAddrMtvec
  · rw [if_pos c3, if_pos c3, h3 c3]
  rw [if_neg c3, if_neg c3]
  by_cases c4 : b = csrAddrMscratch
  · rw [if_pos c4, if_pos c4, h4 c4]
  rw [if_neg c4, if_neg c4]
  by_cases c5 : b = csrAddrMepc
  · rw [if_pos c5, if_pos c5, h5 c5]
  rw [if_neg c5, if_neg c5]
  by_cases c6 : b = csrAddrMcause
  · rw [if_pos c6, if_pos c6, h6 c6]
  rw [if_neg c6, if_neg c6]
  by_cases c7 : b = csrAddrMtval
  · rw [if_pos c7, if_pos c7, h7 c7]
  rw [if_neg c7, if_neg c7]
  by_cases c8 : b = csrAddrMip
  · rw [if_pos c8, if_pos c8, h8 c8]
  rw [if_neg c8, if_neg c8]
  by_cases c9 : b = csrAddrMcycle
  · rw [if_pos c9, if_pos c9, h9 c9]
  rw [if_neg c9, if_neg c9]
  by_cases c10 : b = csrAddrMinstret
  · rw [if_pos c10, if_pos c10, h10 c10]
  rw [if_neg c10, if_neg c10]

/-- The fields that hold one value: MPP is 11, bit 1 of `mtvec` is clear. -/
structure Csrs.Fixed (r : Csrs) : Prop where
  mpp : ∀ b, b = 11 ∨ b = 12 → r.mstatus.getLsbD b = true
  mode : r.mtvec.getLsbD 1 = false

/-! ### Decode -/

/-- The D/E word of a CSR instruction. -/
structure CsrWord (d : De) : Prop where
  wbSrc : d.wbSrc = .csr
  regWrite : d.regWrite = true
  rd : d.rd = rdField d.instr
  addr : d.csrAddr = funct12 d.instr
  op : d.csrOp = csrOpOf (funct3 d.instr)
  isOp : d.csrOp ≠ .none
  imm : (funct3 d.instr).getLsbD 2 = true → d.imm = zimm d.instr
  reg : (funct3 d.instr).getLsbD 2 = false → rs1AddrDec d.instr = rs1Field d.instr

section Tree

variable (w : Word)

/-- A test of the tree whose branch is no CSR instruction. -/
private theorem csrWren_ite {c : Prop} [Decidable c] {d e : Dec} (hd : d.csrWren = false)
    (h : (if c then d else e).csrWren = true) : ¬c ∧ e.csrWren = true := by
  by_cases hc : c
  · rw [if_pos hc, hd] at h
    cases h
  · rw [if_neg hc] at h
    exact ⟨hc, h⟩

private theorem decJalr_csrWren : (decJalr w).csrWren = false := by
  unfold decJalr
  split <;> rfl

private theorem decBranch_csrWren : (decBranch w).csrWren = false := by
  unfold decBranch
  split_ifs <;> rfl

private theorem decLoad_csrWren : (decLoad w).csrWren = false := by
  unfold decLoad
  split_ifs <;> rfl

private theorem decStore_csrWren : (decStore w).csrWren = false := by
  unfold decStore
  split_ifs <;> rfl

private theorem decOpImm_csrWren : (decOpImm w).csrWren = false := by
  obtain ⟨o, b, -, he⟩ := decOpImm_eq w
  rw [he]
  rfl

private theorem decOp_csrWren : (decOp w).csrWren = false := by
  unfold decOp
  split <;> rfl

private theorem decAmo_csrWren : (decAmo w).csrWren = false := by
  unfold decAmo
  split <;> rfl

private theorem decPriv_csrWren : (decPriv w).csrWren = false := by
  unfold decPriv
  split_ifs <;> rfl

private theorem decMiscMem_csrWren : (decMiscMem w).csrWren = false := by
  unfold decMiscMem
  split_ifs <;> rfl

/-- Only the CSR branch of the tree raises `csr_wren`. -/
private theorem opcodeTree_csrWren (h : (opcodeTree w).csrWren = true) :
    isCsr w = true ∧ opcodeTree w = decCsr w := by
  unfold opcodeTree at h ⊢
  obtain ⟨h1, h⟩ := csrWren_ite rfl h
  obtain ⟨h2, h⟩ := csrWren_ite rfl h
  obtain ⟨h3, h⟩ := csrWren_ite rfl h
  obtain ⟨h4, h⟩ := csrWren_ite (decJalr_csrWren w) h
  obtain ⟨h5, h⟩ := csrWren_ite (decBranch_csrWren w) h
  obtain ⟨h6, h⟩ := csrWren_ite (decLoad_csrWren w) h
  obtain ⟨h7, h⟩ := csrWren_ite (decStore_csrWren w) h
  obtain ⟨h8, h⟩ := csrWren_ite (decOpImm_csrWren w) h
  obtain ⟨h9, h⟩ := csrWren_ite (decOp_csrWren w) h
  obtain ⟨h10, h⟩ := csrWren_ite (decAmo_csrWren w) h
  rw [if_neg h1, if_neg h2, if_neg h3, if_neg h4, if_neg h5, if_neg h6, if_neg h7, if_neg h8, if_neg h9, if_neg h10]
  by_cases hs : opcode w = opcSystem
  · rw [if_pos hs] at h ⊢
    unfold decSystem at h ⊢
    by_cases hc : isCsr w = true
    · rw [if_pos hc]
      exact ⟨hc, rfl⟩
    · rw [if_neg hc, decPriv_csrWren] at h
      cases h
  · rw [if_neg hs] at h
    obtain ⟨-, h⟩ := csrWren_ite (decMiscMem_csrWren w) h
    cases h

/-- The fields of a legal CSR word. -/
private theorem decCsr_fields (h : (decCsr w).illegal = false) :
    (decCsr w).wbSrc = .csr ∧ (decCsr w).regWrite = true ∧ (decCsr w).csrOp = csrOpOf (funct3 w) ∧
      (decCsr w).csrOp ≠ .none ∧ ((funct3 w).getLsbD 2 = true → (decCsr w).imm = zimm w) ∧
      ((funct3 w).getLsbD 2 = false → (decCsr w).usesRs1 = true) := by
  unfold decCsr csrOpOf at *
  split_ifs at h ⊢ with h1 h2 h3 h4 h5 h6
  · simp [h1]
  · simp [h2]
  · simp [h3]
  · simp [h4]
  · simp [h5]
  · simp [h6]

end Tree

namespace Core

variable {p : Params} {s : Core} {i : CoreIn} {img : Nat → BitVec 64} {boot : Word} {rf : RegFile}
  {inp : Nat → CoreIn}

private theorem csrWord_deD {q : DecodeStage} {d : DecodeIn} (h : (deD p q d).csrWren = true) :
    CsrWord (deD p q d) := by
  change (!(opcodeTree (srcInstr32 q d)).illegal && (opcodeTree (srcInstr32 q d)).csrWren) = true at h
  rw [Bool.and_eq_true, Bool.not_eq_true'] at h
  obtain ⟨hcsr, htree⟩ := opcodeTree_csrWren _ h.2
  have hleg := h.1
  rw [htree] at hleg
  obtain ⟨hwb, hreg, hop, hne, himm, huse⟩ := decCsr_fields _ hleg
  refine ⟨?_, ?_, rfl, ?_, ?_, ?_, ?_, ?_⟩
  · change (opcodeTree (srcInstr32 q d)).wbSrc = _
    rw [htree, hwb]
  · change (!(opcodeTree (srcInstr32 q d)).illegal && (opcodeTree (srcInstr32 q d)).regWrite) = true
    rw [htree, hleg, hreg]
    rfl
  · change csrAddrDec (srcInstr32 q d) = _
    unfold csrAddrDec
    rw [if_pos hcsr]
    rfl
  · change (opcodeTree (srcInstr32 q d)).csrOp = _
    rw [htree, hop]
    rfl
  · change (opcodeTree (srcInstr32 q d)).csrOp ≠ _
    rw [htree]
    exact hne
  · intro hf
    change (opcodeTree (srcInstr32 q d)).imm = _
    rw [htree]
    exact himm hf
  · intro hf
    change rs1AddrDec (srcInstr32 q d) = rs1Field (srcInstr32 q d)
    unfold rs1AddrDec
    rw [htree, if_pos (huse hf)]

/-- Every CSR word in the D/E register was decoded as one. -/
theorem csrWord_run (h : s.IsReset boot img rf) (t : Nat) (hw : (trace (next p) s inp t).de.csrWren = true) :
    CsrWord (trace (next p) s inp t).de := by
  have hinv : ∀ t, (trace (next p) s inp t).de.csrWren = true → CsrWord (trace (next p) s inp t).de := by
    intro t
    induction t with
    | zero =>
      intro hw
      have hde : s.de = De.zero := h.fe.decode.de
      change s.de.csrWren = true at hw
      rw [hde] at hw
      cases hw
    | succ t ih =>
      rw [trace_succ, next_de]
      split_ifs
      · intro hw
        cases hw
      · exact ih
      · exact csrWord_deD
  exact hinv t hw

/-! ### The CSR file in a cycle -/

/-- Without an entry and an `mret` the trap port writes nothing. -/
private theorem trap_writes_none (he : s.entry p i = false) (hm : s.ex.mretReq (s.exIn i) = false) :
    (s.csrIn p i).trap.weMstatus = false ∧ (s.csrIn p i).trap.weMepc = false ∧
      (s.csrIn p i).trap.weMcause = false ∧ (s.csrIn p i).trap.weMtval = false := by
  refine ⟨?_, he, he, he⟩
  have hdef : (s.csrIn p i).trap.weMstatus = (s.entry p i || s.ex.mretReq (s.exIn i)) := rfl
  rw [hdef, he, hm]
  rfl

/-- A cycle without an entry, an `mret` and a write. -/
theorem regs_tick (he : s.entry p i = false) (hm : s.ex.mretReq (s.exIn i) = false)
    (hw : s.ex.csrWren p (s.exIn i) = false) : (s.next p i).csr.regs = s.csr.regs.tick i s.ex.exValidQ := by
  have hwr : ∀ a, CsrRegfile.wr (s.csrIn p i) a = false := by
    intro a
    have hin : (s.csrIn p i).csrWren = false := hw
    unfold CsrRegfile.wr
    rw [hin, Bool.false_and]
  obtain ⟨hms, hepc, hcause, htval⟩ := trap_writes_none he hm
  change CsrRegfile.regsD s.csr (s.csrIn p i) = _
  unfold CsrRegfile.regsD CsrRegfile.mstatusD CsrRegfile.mtvecD CsrRegfile.mipD
  simp only [hwr, hepc, hcause, htval, hms, Bool.false_eq_true, if_false]
  rfl

/-- The CSRs behind a cycle without an entry and an `mret`: a CSR the port does not write is left to the tick. -/
theorem regs_other (he : s.entry p i = false) (hm : s.ex.mretReq (s.exIn i) = false) {b : BitVec 12}
    (hwr : CsrRegfile.wr (s.csrIn p i) b = false) :
    (s.next p i).csr.regs.read b = (s.csr.regs.tick i s.ex.exValidQ).read b := by
  obtain ⟨hms, hepc, hcause, htval⟩ := trap_writes_none he hm
  change (CsrRegfile.regsD s.csr (s.csrIn p i)).read b = _
  apply Csrs.read_ext
  · rintro rfl
    simp only [CsrRegfile.regsD, CsrRegfile.mstatusD, hms, hwr, Bool.false_eq_true, if_false, Csrs.tick]
  · rintro rfl
    rfl
  · rintro rfl
    simp only [CsrRegfile.regsD, hwr, Bool.false_eq_true, if_false, Csrs.tick]
  · rintro rfl
    simp only [CsrRegfile.regsD, CsrRegfile.mtvecD, hwr, Bool.false_eq_true, if_false, Csrs.tick]
  · rintro rfl
    simp only [CsrRegfile.regsD, hwr, Bool.false_eq_true, if_false, Csrs.tick]
  · rintro rfl
    simp only [CsrRegfile.regsD, hepc, hwr, Bool.false_eq_true, if_false, Csrs.tick]
  · rintro rfl
    simp only [CsrRegfile.regsD, hcause, hwr, Bool.false_eq_true, if_false, Csrs.tick]
  · rintro rfl
    simp only [CsrRegfile.regsD, htval, hwr, Bool.false_eq_true, if_false, Csrs.tick]
  · rintro rfl
    simp only [CsrRegfile.regsD, CsrRegfile.mipD, hwr, Bool.false_eq_true, if_false, Csrs.tick]
    rfl
  · rintro rfl
    simp only [CsrRegfile.regsD, hwr, Bool.false_eq_true, if_false, Csrs.tick]
  · rintro rfl
    simp only [CsrRegfile.regsD, hwr, Bool.false_eq_true, if_false, Csrs.tick]
    rfl

/-- The write of `mstatus` leaves MPP at 11. -/
private theorem merge_mstatus {v old : Word} (h : ∀ b, b = 11 ∨ b = 12 → old.getLsbD b = true) :
    v.extractLsb' 13 19 ++ 0b11#2 ++ v.extractLsb' 0 11 = (v &&& ~~~0x1800#32) ||| (old &&& ~~~(~~~0x1800#32)) := by
  have h11 := h 11 (.inl rfl)
  have h12 := h 12 (.inr rfl)
  apply BitVec.eq_of_getLsbD_eq
  intro b hb
  rw [BitVec.getLsbD_append, BitVec.getLsbD_append]
  interval_cases b <;> simp_all

private theorem merge_mtvec {v old : Word} (h : old.getLsbD 1 = false) :
    v.extractLsb' 2 30 ++ 0#1 ++ v.extractLsb' 0 1 = (v &&& ~~~0x2#32) ||| (old &&& ~~~(~~~0x2#32)) := by
  apply BitVec.eq_of_getLsbD_eq
  intro b hb
  rw [BitVec.getLsbD_append, BitVec.getLsbD_append]
  interval_cases b <;> simp_all

private theorem merge_mip {v old : Word} (x y z : Bool) :
    v.extractLsb' 12 20 ++ BitVec.ofBool x ++ v.extractLsb' 8 3 ++ BitVec.ofBool y ++ v.extractLsb' 4 3 ++
        BitVec.ofBool z ++ v.extractLsb' 0 3 =
      (v &&& ~~~0x888#32) |||
        ((old.extractLsb' 12 20 ++ BitVec.ofBool x ++ old.extractLsb' 8 3 ++ BitVec.ofBool y ++ old.extractLsb' 4 3 ++
          BitVec.ofBool z ++ old.extractLsb' 0 3) &&& ~~~(~~~0x888#32)) := by
  apply BitVec.eq_of_getLsbD_eq
  intro b hb
  rw [BitVec.getLsbD_or, BitVec.getLsbD_and, BitVec.getLsbD_and]
  rw [BitVec.getLsbD_append, BitVec.getLsbD_append, BitVec.getLsbD_append, BitVec.getLsbD_append,
    BitVec.getLsbD_append, BitVec.getLsbD_append, BitVec.getLsbD_append, BitVec.getLsbD_append, BitVec.getLsbD_append,
    BitVec.getLsbD_append, BitVec.getLsbD_append, BitVec.getLsbD_append]
  interval_cases b <;> simp

private theorem merge_all (v old : Word) : v = (v &&& BitVec.allOnes 32) ||| (old &&& ~~~BitVec.allOnes 32) := by
  rw [BitVec.and_allOnes, BitVec.not_allOnes, BitVec.and_zero, BitVec.or_zero]

private theorem merge_none (v old : Word) : old = (v &&& 0#32) ||| (old &&& ~~~0#32) := by
  rw [BitVec.and_zero, BitVec.not_zero, BitVec.and_allOnes, BitVec.zero_or]

/-- A write changes the writable bits of its CSR. -/
theorem regs_target (he : s.entry p i = false) (hm : s.ex.mretReq (s.exIn i) = false) (hf : s.csr.regs.Fixed)
    (hw : s.ex.csrWren p (s.exIn i) = true) (ha : s.de.csrAddr ∈ plainCsrs) :
    (s.next p i).csr.regs.read s.de.csrAddr =
      mergeCsr (csrMask s.de.csrAddr) (some (csrWdata (s.exIn i)))
        ((s.csr.regs.tick i s.ex.exValidQ).read s.de.csrAddr) := by
  obtain ⟨hms, hepc, hcause, htval⟩ := trap_writes_none he hm
  have hwr : ∀ a, s.de.csrAddr = a → CsrRegfile.wr (s.csrIn p i) a = true := by
    intro a hadr
    have hen : (s.csrIn p i).csrWren = true := hw
    have hsel : (s.csrIn p i).csrAddr = a := hadr
    unfold CsrRegfile.wr
    rw [hen, hsel, beq_self_eq_true]
    rfl
  have hv : (s.csrIn p i).csrData = csrWdata (s.exIn i) := rfl
  simp only [plainCsrs, List.mem_cons, List.not_mem_nil, or_false] at ha
  rcases ha with ha | ha | ha | ha | ha | ha | ha | ha | ha
  · rw [ha]
    change CsrRegfile.mstatusD s.csr (s.csrIn p i) = _
    unfold CsrRegfile.mstatusD
    rw [hms, hwr _ ha, if_neg Bool.false_ne_true, if_pos rfl, hv]
    exact merge_mstatus hf.mpp
  · rw [ha]
    exact merge_none _ _
  · rw [ha]
    change (if CsrRegfile.wr (s.csrIn p i) csrAddrMie then _ else _) = _
    rw [hwr _ ha, if_pos rfl]
    exact merge_all _ _
  · rw [ha]
    change CsrRegfile.mtvecD s.csr (s.csrIn p i) = _
    unfold CsrRegfile.mtvecD
    rw [hwr _ ha, if_pos rfl, hv]
    exact merge_mtvec hf.mode
  · rw [ha]
    change (if CsrRegfile.wr (s.csrIn p i) csrAddrMscratch then _ else _) = _
    rw [hwr _ ha, if_pos rfl]
    exact merge_all _ _
  · rw [ha]
    change (if (s.csrIn p i).trap.weMepc then _ else if CsrRegfile.wr (s.csrIn p i) csrAddrMepc then _ else _) = _
    rw [hepc, hwr _ ha, if_neg Bool.false_ne_true, if_pos rfl]
    exact merge_all _ _
  · rw [ha]
    change (if (s.csrIn p i).trap.weMcause then _ else if CsrRegfile.wr (s.csrIn p i) csrAddrMcause then _ else _) = _
    rw [hcause, hwr _ ha, if_neg Bool.false_ne_true, if_pos rfl]
    exact merge_all _ _
  · rw [ha]
    change (if (s.csrIn p i).trap.weMtval then _ else if CsrRegfile.wr (s.csrIn p i) csrAddrMtval then _ else _) = _
    rw [htval, hwr _ ha, if_neg Bool.false_ne_true, if_pos rfl]
    exact merge_all _ _
  · rw [ha]
    change CsrRegfile.mipD s.csr (s.csrIn p i) = _
    unfold CsrRegfile.mipD
    rw [hwr _ ha]
    exact merge_mip _ _ _

/-- MPP and the upper mode bit never move. -/
private theorem fixed_next (hf : s.csr.regs.Fixed) : (s.next p i).csr.regs.Fixed := by
  constructor
  · intro b hb
    have hset : ∀ (w : Word) (x y : Bool), (TrapUnit.setMstatus w x y).getLsbD b = true := by
      intro w x y
      unfold TrapUnit.setMstatus
      rw [BitVec.getLsbD_append, BitVec.getLsbD_append, BitVec.getLsbD_append, BitVec.getLsbD_append,
        BitVec.getLsbD_append, BitVec.getLsbD_append]
      rcases hb with rfl | rfl
      · rfl
      · rfl
    change (CsrRegfile.mstatusD s.csr (s.csrIn p i)).getLsbD b = true
    unfold CsrRegfile.mstatusD
    split_ifs
    · change (TrapUnit.mstatusNew s.csr.regs.taps (s.trapIn p i)).getLsbD b = true
      unfold TrapUnit.mstatusNew
      split_ifs
      · exact hset _ _ _
      · exact hset _ _ _
      · exact hf.mpp b hb
    · rw [BitVec.getLsbD_append, BitVec.getLsbD_append]
      rcases hb with rfl | rfl
      · rfl
      · rfl
    · exact hf.mpp b hb
  · change (CsrRegfile.mtvecD s.csr (s.csrIn p i)).getLsbD 1 = false
    unfold CsrRegfile.mtvecD
    split_ifs
    · rw [BitVec.getLsbD_append, BitVec.getLsbD_append]
      rfl
    · exact hf.mode

theorem fixed_run (h : s.IsReset boot img rf) (t : Nat) : (trace (next p) s inp t).csr.regs.Fixed := by
  refine trace_invariant (P := fun s : Core => s.csr.regs.Fixed) ?_ (fun _ _ hf => fixed_next hf) t
  rw [h.csr]
  constructor
  · rintro b (rfl | rfl)
    · rfl
    · rfl
  · rfl

/-! ### The two cycles of a CSR instruction -/

/-- The first cycle: the read is registered and the instruction held. -/
structure CsrStarts (p : Params) (s : Core) (i : CoreIn) : Prop where
  commit : s.ex.opCommits p (s.exIn i) = false
  state : (s.next p i).ex.exStateQ = .csrWait
  de : (s.next p i).de = s.de
  rdata : (s.next p i).csr.csrRdataQ = s.csr.regs.read s.de.csrAddr
  regs : (s.next p i).csr.regs = s.csr.regs.tick i s.ex.exValidQ

theorem csr_starts (h : s.Sane p) (hs : s.ex.csrStart p (s.exIn i) = true) : CsrStarts p s i := by
  have hstart := hs
  simp only [csrStart, exIdle, Bool.and_eq_true, Bool.not_eq_true', beq_iff_eq] at hstart
  obtain ⟨⟨⟨⟨hv, hcsr⟩, hidle⟩, hfr⟩, htr⟩ := hstart
  obtain ⟨k, hk⟩ := (h.fresh hv).kind
  obtain rfl : k = .csr := by
    rw [isCsrOp_kind (i := s.exIn i) hk] at hcsr
    exact of_decide_eq_true hcsr
  have hmem : isMemOp (s.exIn i) = false := isMemOp_kind (i := s.exIn i) hk
  have hdiv : isDivOp (s.exIn i) = false := isDivOp_kind (i := s.exIn i) hk
  have hparts := htr
  simp only [trapRedirectReq, Bool.or_eq_false_iff] at hparts
  have hready : s.ex.resultReady p (s.exIn i) = false := by
    simp [resultReady, hmem, hcsr, csrReady, hidle]
  have hcom : s.ex.opCommits p (s.exIn i) = false := by simp [opCommits, hparts.1.2, hready]
  have hbr : s.ex.branchValid p (s.exIn i) = false := by
    have hnone : s.de.branchType = .none := by
      have hb := hk.branch
      rw [decide_eq_false (by decide), bne_eq_false_iff_eq] at hb
      exact hb
    have hcf : s.ex.cfResolving p (s.exIn i) = false := by simp [cfResolving, hnone]
    simp [branchValid, mispredict, hcf, htr]
  have hstall : s.ex.stallO p (s.exIn i) = true := by simp [ExecuteStage.stallO, hs]
  refine ⟨hcom, ?_, ?_, rfl, regs_tick ?_ hparts.1.2 ?_⟩
  · change s.ex.exStateD p (s.exIn i) = _
    have h1 : s.ex.aluStart p (s.exIn i) = false := by simp [aluStart, hdiv]
    have h2 : s.ex.memReqPending (s.exIn i) = false := by simp [memReqPending, hmem]
    simp [exStateD, hidle, h1, hs, memMisalignedLaunch, memCapture, dmemLoadHs, dmemLoadDrive, h2]
  · rw [next_de, hbr, hstall, if_neg Bool.false_ne_true, if_pos rfl]
  · rw [entry, hparts.1.1, hparts.2]
    rfl
  · rw [Bool.eq_false_iff]
    intro hw
    rw [opCommits_of_csrWren hw] at hcom
    cases hcom

/-- Execute waits for a CSR read only behind such a cycle. -/
theorem csrStart_of_wait (h : (s.next p i).ex.exStateQ = .csrWait) : s.ex.csrStart p (s.exIn i) = true := by
  change s.ex.exStateD p (s.exIn i) = _ at h
  unfold exStateD at h
  cases hq : s.ex.exStateQ with
  | idle =>
    simp only [hq] at h
    by_contra hne
    split_ifs at h
  | csrWait => simp [hq] at h
  | memLaunch =>
    simp only [hq] at h
    split_ifs at h
  | memTrap => simp [hq] at h
  | divBusy =>
    simp only [hq] at h
    split_ifs at h
  | memWait =>
    simp only [hq] at h
    split_ifs at h

/-- The second cycle commits. -/
theorem csr_commits (h : s.Sane p) (hw : s.ex.exStateQ = .csrWait) :
    s.de.valid = true ∧ s.de.csrWren = true ∧ s.entry p i = false ∧ s.ex.mretReq (s.exIn i) = false ∧
      s.ex.opCommits p (s.exIn i) = true ∧ s.ex.csrOpValid p (s.exIn i) = true := by
  cases h.ex with
  | csrWait state valid kind halt alu =>
    have hc := (outcome_csrWait (p := p) (i := s.exIn i) state valid kind halt alu rfl).1
    have hm := (busy_wires (p := p) (q := s.ex) (i := s.exIn i) (by simp [hw]) rfl halt).2.2.2.2.1
    have hcsr : s.de.csrWren = true := kind.csr
    have htr : s.ex.trapRedirectReq p (s.exIn i) = false := by simp [trapRedirectReq, hc.sync, hm, hc.int]
    refine ⟨valid, hcsr, by rw [entry, hc.sync, hc.int]; rfl, hm, hc.commit, ?_⟩
    have hcom := hc.commit
    simp only [opCommits, hm, Bool.false_or, Bool.and_eq_true] at hcom
    simp [csrOpValid, valid, hcsr, hcom.1.1.2, hcom.1.2, htr]
  | idle state => simp [hw] at state
  | divBusy state => simp [hw] at state
  | memLaunch state => simp [hw] at state
  | memTrap state => simp [hw] at state
  | memWait state => simp [hw] at state

/-- A CSR instruction commits in that state and in no other. -/
theorem wait_of_commit (h : s.Sane p) (hc : s.ex.opCommits p (s.exIn i) = true) (hw : s.de.csrWren = true) :
    s.ex.exStateQ = .csrWait := by
  have hv := valid_of_commit h hc
  obtain ⟨k, hk⟩ := (h.fresh hv).kind
  obtain rfl : k = .csr := by
    have hcsr := hk.csr
    rw [hw] at hcsr
    exact of_decide_eq_true hcsr.symm
  have hm : s.ex.mretReq (s.exIn i) = false := by
    have hmret := isMretOp_kind (i := s.exIn i) hk
    simp [mretReq, hmret]
  have hmem : isMemOp (s.exIn i) = false := isMemOp_kind (i := s.exIn i) hk
  simp only [opCommits, hm, Bool.false_or, Bool.and_eq_true] at hc
  have hr := hc.1.2
  have hcsr : isCsrOp (s.exIn i) = true := hw
  simpa [resultReady, hmem, hcsr, csrReady] using hr

/-! ### The write port -/

/-- The port writes what the instruction asks for, over the value that was read. -/
theorem csrPort_eq {q : ExecuteStage} {x : ExecuteIn} (hv : q.csrOpValid p x = true) :
    x.de.csrOp.written x.csrRdata (csrSrc x) = if q.csrWren p x then some (csrWdata x) else none := by
  unfold CsrOp.written csrWren csrWdata
  cases x.de.csrOp with
  | none => rfl
  | rw => simp [hv]
  | rwi => simp [hv]
  | rs =>
    by_cases h0 : csrSrc x = 0
    · simp [h0]
    · simp [hv]
  | rsi =>
    by_cases h0 : csrSrc x = 0
    · simp [h0]
    · simp [hv]
  | rc =>
    by_cases h0 : csrSrc x = 0
    · simp [h0]
    · simp [hv]
  | rci =>
    by_cases h0 : csrSrc x = 0
    · simp [h0]
    · simp [hv]

/-- The source operand is the one the word names. -/
theorem csrSrc_eq (hd : CsrWord s.de) (hf : Fresh s.rf s.de) : csrSrc (s.exIn i) = csrSource s.rf s.de.instr := by
  have hop := hd.op
  have hne := hd.isOp
  have htab : ∀ f : BitVec 3, csrOpOf f ≠ .none →
      ((csrOpOf f = .rwi ∨ csrOpOf f = .rsi ∨ csrOpOf f = .rci) ↔ f.getLsbD 2 = true) := by decide
  rw [hop] at hne
  unfold csrSrc csrSource
  change (if s.de.csrOp = .rwi ∨ s.de.csrOp = .rsi ∨ s.de.csrOp = .rci then s.de.imm else s.de.rs1Data) = _
  rw [hop]
  by_cases hi : (funct3 s.de.instr).getLsbD 2 = true
  · rw [if_pos ((htab _ hne).mpr hi), if_pos hi]
    exact hd.imm hi
  · rw [if_neg fun h => hi ((htab _ hne).mp h), if_neg hi, hf.rs1, hd.reg (Bool.eq_false_iff.mpr hi)]

/-- The written bits depend on the old value in the written bits only. -/
private theorem mergeCsr_written (o : CsrOp) {m x y : Word} (src old : Word) (h : x &&& m = y &&& m) :
    mergeCsr m (o.written x src) old = mergeCsr m (o.written y src) old := by
  have hor : (x ||| src) &&& m = (y ||| src) &&& m := by
    apply BitVec.eq_of_getLsbD_eq
    intro b hb
    have hbit := congrArg (fun w : Word => w.getLsbD b) h
    simp only [BitVec.getLsbD_and, BitVec.getLsbD_or] at hbit ⊢
    cases hm : m.getLsbD b with
    | false => simp
    | true =>
      rw [hm, Bool.and_true, Bool.and_true] at hbit
      rw [hbit]
  have hand : (x &&& ~~~src) &&& m = (y &&& ~~~src) &&& m := by
    rw [BitVec.and_assoc, BitVec.and_comm _ m, ← BitVec.and_assoc, h, BitVec.and_assoc, BitVec.and_comm m,
      ← BitVec.and_assoc]
  unfold CsrOp.written mergeCsr
  cases o with
  | none => rfl
  | rw => rfl
  | rwi => rfl
  | rs =>
    by_cases h0 : src = 0
    · simp only [h0, if_true]
    · simp only [h0, if_false, hor]
  | rsi =>
    by_cases h0 : src = 0
    · simp only [h0, if_true]
    · simp only [h0, if_false, hor]
  | rc =>
    by_cases h0 : src = 0
    · simp only [h0, if_true]
    · simp only [h0, if_false, hand]
  | rci =>
    by_cases h0 : src = 0
    · simp only [h0, if_true]
    · simp only [h0, if_false, hand]

/-- A tick moves a CSR other than the counters in the bits of the interrupt lines only. -/
private theorem tick_read {r : Csrs} {retire : Bool} {a : BitVec 12} (ha : a ∈ plainCsrs) :
    (a ≠ csrAddrMip → (r.tick i retire).read a = r.read a) ∧
      (r.tick i retire).read a &&& csrMask a = r.read a &&& csrMask a := by
  have hsame : a ≠ csrAddrMip → (r.tick i retire).read a = r.read a := by
    intro hne
    apply Csrs.read_ext
    case h8 => exact fun h => absurd h hne
    case h9 =>
      rintro rfl
      exact absurd ha (by decide)
    case h10 =>
      rintro rfl
      exact absurd ha (by decide)
    all_goals exact fun _ => rfl
  refine ⟨hsame, ?_⟩
  by_cases hne : a = csrAddrMip
  · subst hne
    change (r.mip.extractLsb' 12 20 ++ BitVec.ofBool i.meip ++ r.mip.extractLsb' 8 3 ++ BitVec.ofBool i.mtip ++
      r.mip.extractLsb' 4 3 ++ BitVec.ofBool i.msip ++ r.mip.extractLsb' 0 3) &&& ~~~0x888#32 = r.mip &&& ~~~0x888#32
    apply BitVec.eq_of_getLsbD_eq
    intro b hb
    rw [BitVec.getLsbD_and, BitVec.getLsbD_and]
    rw [BitVec.getLsbD_append, BitVec.getLsbD_append, BitVec.getLsbD_append, BitVec.getLsbD_append,
      BitVec.getLsbD_append, BitVec.getLsbD_append]
    interval_cases b <;> simp
  · rw [hsame hne]

/-! ### Atomicity -/

/-- What a CSR instruction writes back: the value it has read. -/
theorem next_rf_of_csr (h : s.Sane p) (hw : s.ex.exStateQ = .csrWait) (hd : CsrWord s.de) :
    (s.next p i).rf = s.rf.next true (rdField s.de.instr) s.csr.csrRdataQ := by
  obtain ⟨hv, _, _, _, hcom, _⟩ := csr_commits (i := i) h hw
  have hwb : s.ex.wbData p (s.exIn i) = s.csr.csrRdataQ := by
    unfold wbData
    have hsel : (s.exIn i).de.wbSrc = .csr := hd.wbSrc
    rw [hsel]
    rfl
  have hen : s.ex.wbEn p (s.exIn i) = true := by rw [wbEn_of_commit (h.fresh hv).kind hcom, hd.regWrite]
  have haddr : wbAddr (s.exIn i) = rdField s.de.instr := hd.rd
  rw [next_rf, hwb, hen, haddr]

/-- The cycle `s` in which a CSR instruction commits, behind the cycle `s'` in which its read was registered. -/
structure CsrAtomic (p : Params) (s' s : Core) (i : CoreIn) : Prop where
  /-- `rd` takes the value of the cycle of the read, -/
  rd : (s.next p i).rf = s.rf.next true (rdField s.de.instr) (s'.csr.regs.read (funct12 s.de.instr))
  /-- which is the value of the cycle of the write but for the interrupt lines in `mip`. -/
  old : funct12 s.de.instr ≠ csrAddrMip → s'.csr.regs.read (funct12 s.de.instr) = s.csr.regs.read (funct12 s.de.instr)
  lines : s'.csr.regs.read (funct12 s.de.instr) &&& csrMask (funct12 s.de.instr) =
    s.csr.regs.read (funct12 s.de.instr) &&& csrMask (funct12 s.de.instr)
  /-- The CSR takes the function of its value and the source in its writable bits. -/
  target : (s.next p i).csr.regs.read (funct12 s.de.instr) =
    mergeCsr (csrMask (funct12 s.de.instr))
      ((csrOpOf (funct3 s.de.instr)).written (s.csr.regs.read (funct12 s.de.instr)) (csrSource s.rf s.de.instr))
      ((s.csr.regs.tick i s.ex.exValidQ).read (funct12 s.de.instr))
  /-- No other CSR is written. -/
  others : ∀ b, b ≠ funct12 s.de.instr → (s.next p i).csr.regs.read b = (s.csr.regs.tick i s.ex.exValidQ).read b

private theorem csr_atomic_step {s' : Core} {i' : CoreIn} (h' : s'.Sane p) (hs : s = s'.next p i')
    (hw : s.ex.exStateQ = .csrWait) (hd : CsrWord s.de) (hf : s.csr.regs.Fixed)
    (ha : funct12 s.de.instr ∈ plainCsrs) : CsrAtomic p s' s i := by
  have h : s.Sane p := hs ▸ h'.next i'
  have hst : CsrStarts p s' i' := csr_starts h' (csrStart_of_wait (hs ▸ hw))
  obtain ⟨hv, hcsr, hent, hmret, hcom, hval⟩ := csr_commits (i := i) h hw
  have hde : s'.de = s.de := by rw [hs, hst.de]
  have hrdata : s.csr.csrRdataQ = s'.csr.regs.read (funct12 s.de.instr) := by
    rw [← hd.addr, ← hde, hs, hst.rdata]
  have hregs : s.csr.regs = s'.csr.regs.tick i' s'.ex.exValidQ := by
    conv_lhs => rw [hs, hst.regs]
  obtain ⟨hold, hlines⟩ := @tick_read i' s'.csr.regs s'.ex.exValidQ _ ha
  rw [← hregs] at hold hlines
  have hsrc := csrSrc_eq (i := i) hd (h.fresh hv)
  have hport := csrPort_eq (p := p) (q := s.ex) (x := s.exIn i) hval
  have hop : (s.exIn i).de.csrOp = csrOpOf (funct3 s.de.instr) := hd.op
  have hrd : (s.exIn i).csrRdata = s'.csr.regs.read (funct12 s.de.instr) := hrdata
  rw [hop, hrd, hsrc] at hport
  refine ⟨?_, fun hne => (hold hne).symm, hlines.symm, ?_, ?_⟩
  · rw [next_rf_of_csr h hw hd, hrdata]
  · rw [mergeCsr_written _ _ _ hlines, hport]
    cases hwr : s.ex.csrWren p (s.exIn i) with
    | false =>
      rw [regs_tick hent hmret hwr]
      rfl
    | true =>
      rw [← hd.addr] at ha ⊢
      exact regs_target hent hmret hf hwr ha
  · intro b hb
    apply regs_other hent hmret
    unfold CsrRegfile.wr
    have hsel : ((s.csrIn p i).csrAddr == b) = false := by
      rw [beq_eq_false_iff_ne]
      intro heq
      exact hb (heq.symm.trans hd.addr)
    rw [hsel, Bool.and_false]

/-- **Zicsr read-modify-write.**  In every reachable state a CSR instruction that commits reads and writes its CSR
atomically, one that an interrupt squashes leaves the register file alone and the CSR file to the entry, and the
fields that hold one value keep it. -/
theorem csr_atomic (inp : Nat → CoreIn) (h : s.IsReset boot img rf) (t : Nat) :
    ((trace (next p) s inp t).ex.opCommits p ((trace (next p) s inp t).exIn (inp t)) = true →
      (trace (next p) s inp t).de.csrWren = true → funct12 (trace (next p) s inp t).de.instr ∈ plainCsrs →
      ∃ u, t = u + 1 ∧ CsrAtomic p (trace (next p) s inp u) (trace (next p) s inp t) (inp t)) ∧
    ((trace (next p) s inp t).ex.takeInterrupt p ((trace (next p) s inp t).exIn (inp t)) = true →
      (trace (next p) s inp t).de.csrWren = true →
      (trace (next p) s inp (t + 1)).rf = (trace (next p) s inp t).rf ∧
        CsrEntry (trace (next p) s inp t).csr.regs (trace (next p) s inp (t + 1)).csr.regs
          ((trace (next p) s inp t).ex.trapMepc ((trace (next p) s inp t).exIn (inp t)))
          ((trace (next p) s inp t).ex.trapCause p ((trace (next p) s inp t).exIn (inp t)))
          ((trace (next p) s inp t).ex.trapTval p ((trace (next p) s inp t).exIn (inp t)))) ∧
    (trace (next p) s inp t).csr.regs.Fixed := by
  have hsane := sane_run (p := p) h inp t
  refine ⟨?_, ?_, fixed_run h t⟩
  · intro hc hw ha
    have hwait := wait_of_commit hsane hc hw
    have hword := csrWord_run h t hw
    cases t with
    | zero =>
      have hidle : s.ex.exStateQ = .idle := by
        rw [h.ex]
        rfl
      change s.ex.exStateQ = .csrWait at hwait
      rw [hidle] at hwait
      cases hwait
    | succ u =>
      exact ⟨u, rfl, csr_atomic_step (sane_run h inp u) (trace_succ u) hwait hword (fixed_run h (u + 1)) ha⟩
  · intro ht _
    have he : (trace (next p) s inp t).entry p (inp t) = true := by
      rw [entry, ht, Bool.or_true]
    rw [trace_succ]
    exact ⟨next_rf_of_not_commit (quiet_of_interrupt hsane ht).1, csrEntry_of_entry hsane he⟩

/-- `csrrsi x0, mie, 8` commits in cycle 4. -/
theorem csr_atomic_mie :
    ∃ u, 4 = u + 1 ∧
      CsrAtomic .pkg (trace (next .pkg) (reset 0 (imgOf [0x3004607330446073#64]) ⟨fun _ => 0⟩) (fun _ => .quiet) u)
      (trace (next .pkg) (reset 0 (imgOf [0x3004607330446073#64]) ⟨fun _ => 0⟩) (fun _ => .quiet) 4) .quiet :=
  (csr_atomic (p := .pkg) (fun _ => .quiet) (reset_isReset 0 (imgOf [0x3004607330446073#64]) ⟨fun _ => 0⟩) 4).1
    (by decide +kernel) (by decide +kernel) (by decide +kernel)

/-- `csrrs x1, mip, x0` commits in cycle 4; the software interrupt line has gone up in cycle 3, behind the read. -/
theorem csr_mip_stale :
    let run := trace (next .pkg) (reset 0 (imgOf [0x00000013344020F3#64]) ⟨fun _ => 0⟩) (msipFrom 3)
    (run 4).ex.opCommits .pkg ((run 4).exIn (msipFrom 3 4)) = true ∧ (run 4).de.csrWren = true ∧
      funct12 (run 4).de.instr = csrAddrMip ∧ (run 4).csr.regs.read csrAddrMip = 8 ∧ (run 5).rf.read 1 = 0 := by
  decide +kernel

end Core

end Yarv
