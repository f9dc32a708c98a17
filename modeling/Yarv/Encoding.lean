import Yarv.OpcodeTree

/-!
# Fields of built words

What the field and immediate extractors of the decoder read back from the words the instruction builders assemble, and
which branch of the opcode tree a word with a known opcode takes.
-/

namespace Yarv

/-! ### Fields of the builders -/

section Builders

variable (op : BitVec 7) (rd rs1 rs2 : BitVec 5) (f3 : BitVec 3) (f7 : BitVec 7) (off : Word)

@[simp] theorem opcode_mkR : opcode (mkR op rd rs1 rs2 f3 f7) = op := by
  ext i hi
  simp only [opcode, mkR, BitVec.getElem_extractLsb', BitVec.getLsbD_append]
  interval_cases i <;> simp

@[simp] theorem opcode_mkI : opcode (mkI op rd rs1 f3 off) = op := by
  ext i hi
  simp only [opcode, mkI, BitVec.getElem_extractLsb', BitVec.getLsbD_append]
  interval_cases i <;> simp

@[simp] theorem opcode_mkS : opcode (mkS op rs1 rs2 f3 off) = op := by
  ext i hi
  simp only [opcode, mkS, BitVec.getElem_extractLsb', BitVec.getLsbD_append]
  interval_cases i <;> simp

@[simp] theorem opcode_mkB : opcode (mkB op rs1 rs2 f3 off) = op := by
  ext i hi
  simp only [opcode, mkB, BitVec.getElem_extractLsb', BitVec.getLsbD_append]
  interval_cases i <;> simp

@[simp] theorem opcode_mkU : opcode (mkU op rd off) = op := by
  ext i hi
  simp only [opcode, mkU, BitVec.getElem_extractLsb', BitVec.getLsbD_append]
  interval_cases i <;> simp

@[simp] theorem opcode_mkJ : opcode (mkJ op rd off) = op := by
  ext i hi
  simp only [opcode, mkJ, BitVec.getElem_extractLsb', BitVec.getLsbD_append]
  interval_cases i <;> simp

@[simp] theorem funct3_mkR : funct3 (mkR op rd rs1 rs2 f3 f7) = f3 := by
  ext i hi
  simp only [funct3, mkR, BitVec.getElem_extractLsb', BitVec.getLsbD_append]
  interval_cases i <;> simp

@[simp] theorem funct3_mkI : funct3 (mkI op rd rs1 f3 off) = f3 := by
  ext i hi
  simp only [funct3, mkI, BitVec.getElem_extractLsb', BitVec.getLsbD_append]
  interval_cases i <;> simp

@[simp] theorem funct3_mkS : funct3 (mkS op rs1 rs2 f3 off) = f3 := by
  ext i hi
  simp only [funct3, mkS, BitVec.getElem_extractLsb', BitVec.getLsbD_append]
  interval_cases i <;> simp

@[simp] theorem funct3_mkB : funct3 (mkB op rs1 rs2 f3 off) = f3 := by
  ext i hi
  simp only [funct3, mkB, BitVec.getElem_extractLsb', BitVec.getLsbD_append]
  interval_cases i <;> simp

end Builders

/-! ### Branches of the tree -/

section Tree

variable {w : Word}

theorem opcodeTree_lui (h : opcode w = opcLui) : opcodeTree w = decLui w := by
  rw [opcodeTree, if_pos h]

theorem opcodeTree_auipc (h : opcode w = opcAuipc) : opcodeTree w = decAuipc w := by
  rw [opcodeTree, h, if_neg (by decide), if_pos rfl]

theorem opcodeTree_jal (h : opcode w = opcJal) : opcodeTree w = decJal w := by
  rw [opcodeTree, h, if_neg (by decide), if_neg (by decide), if_pos rfl]

theorem opcodeTree_jalr (h : opcode w = opcJalr) : opcodeTree w = decJalr w := by
  rw [opcodeTree, h, if_neg (by decide), if_neg (by decide), if_neg (by decide), if_pos rfl]

theorem opcodeTree_branch (h : opcode w = opcBranch) : opcodeTree w = decBranch w := by
  rw [opcodeTree, h, if_neg (by decide), if_neg (by decide), if_neg (by decide), if_neg (by decide), if_pos rfl]

end Tree

end Yarv
