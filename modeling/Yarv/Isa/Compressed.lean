import Yarv.Isa.Instr

/-!
# Compressed instructions

The halfword instructions of RV32C without the floating-point ones: what each of them stands for (`expand`) and how
its operands are scattered over the halfword (`encode`).  `decodeRvc_iff` says that `decodeRvc` finds exactly the
halfwords that are encodings of defined instructions.

A register of three bits is one of `x8` to `x15`.  An offset or immediate holds the bits that are encoded: `lw` counts
words, a jump counts halfwords, `addi4spn` counts words, `addi16sp` counts blocks of 16 bytes.
-/

namespace Yarv.Isa

/-- A compressed instruction. -/
inductive Rvc
  | addi4spn (rd : BitVec 3) (imm : BitVec 8)
  | lw (rd rs1 : BitVec 3) (off : BitVec 5)
  | sw (rs1 rs2 : BitVec 3) (off : BitVec 5)
  | addi (rd : Reg) (imm : BitVec 6)
  | jal (off : BitVec 11)
  | li (rd : Reg) (imm : BitVec 6)
  | addi16sp (imm : BitVec 6)
  | lui (rd : Reg) (imm : BitVec 6)
  | srli (rd : BitVec 3) (sh : BitVec 5)
  | srai (rd : BitVec 3) (sh : BitVec 5)
  | andi (rd : BitVec 3) (imm : BitVec 6)
  | sub (rd rs2 : BitVec 3)
  | xor (rd rs2 : BitVec 3)
  | or (rd rs2 : BitVec 3)
  | and (rd rs2 : BitVec 3)
  | j (off : BitVec 11)
  | beqz (rs1 : BitVec 3) (off : BitVec 8)
  | bnez (rs1 : BitVec 3) (off : BitVec 8)
  | slli (rd : Reg) (sh : BitVec 5)
  | lwsp (rd : Reg) (off : BitVec 6)
  | jr (rs1 : Reg)
  | mv (rd rs2 : Reg)
  | ebreak
  | jalr (rs1 : Reg)
  | add (rd rs2 : Reg)
  | swsp (rs2 : Reg) (off : BitVec 6)
  deriving DecidableEq, Repr

/-- The register a field of three bits names. -/
def wide (r : BitVec 3) : Reg := 0b01#2 ++ r

namespace Rvc

/-- The operands are neither reserved nor those of a hint that writes `x0`. -/
def defined : Rvc → Bool
  | addi4spn _ imm => imm != 0
  | addi rd imm => rd != 0 || imm == 0
  | li rd _ => rd != 0
  | addi16sp imm => imm != 0
  | lui rd imm => rd != 0 && rd != 2 && imm != 0
  | slli rd _ => rd != 0
  | lwsp rd _ => rd != 0
  | jr rs1 => rs1 != 0
  | mv rd rs2 => rd != 0 && rs2 != 0
  | jalr rs1 => rs1 != 0
  | add rd rs2 => rd != 0 && rs2 != 0
  | _ => true

/-- The operands make it a hint: it writes `x0`, or a register with what is in it. -/
def hint : Rvc → Bool
  | addi rd imm => (rd == 0) != (imm == 0)
  | li rd _ => rd == 0
  | lui rd imm => rd == 0 && imm != 0
  | srli _ sh => sh == 0
  | srai _ sh => sh == 0
  | slli rd sh => rd == 0 || sh == 0
  | mv rd _ => rd == 0
  | add rd _ => rd == 0
  | _ => false

/-- The instruction it abbreviates. -/
def expand : Rvc → Instr
  | addi4spn rd imm => .opImm .addi (wide rd) 2 ((imm ++ 0#2).setWidth 12)
  | lw rd rs1 off => .load .lw (wide rd) (wide rs1) ((off ++ 0#2).setWidth 12)
  | sw rs1 rs2 off => .store .sw (wide rs1) (wide rs2) ((off ++ 0#2).setWidth 12)
  | addi rd imm => .opImm .addi rd rd (imm.signExtend 12)
  | jal off => .jal 1 (off.signExtend 20)
  | li rd imm => .opImm .addi rd 0 (imm.signExtend 12)
  | addi16sp imm => .opImm .addi 2 2 ((imm ++ 0#4).signExtend 12)
  | lui rd imm => .lui rd (imm.signExtend 20)
  | srli rd sh => .shiftImm .srli (wide rd) (wide rd) sh
  | srai rd sh => .shiftImm .srai (wide rd) (wide rd) sh
  | andi rd imm => .opImm .andi (wide rd) (wide rd) (imm.signExtend 12)
  | sub rd rs2 => .op .sub (wide rd) (wide rd) (wide rs2)
  | xor rd rs2 => .op .xor (wide rd) (wide rd) (wide rs2)
  | or rd rs2 => .op .or (wide rd) (wide rd) (wide rs2)
  | and rd rs2 => .op .and (wide rd) (wide rd) (wide rs2)
  | j off => .jal 0 (off.signExtend 20)
  | beqz rs1 off => .branch .eq (wide rs1) 0 (off.signExtend 12)
  | bnez rs1 off => .branch .ne (wide rs1) 0 (off.signExtend 12)
  | slli rd sh => .shiftImm .slli rd rd sh
  | lwsp rd off => .load .lw rd 2 ((off ++ 0#2).setWidth 12)
  | jr rs1 => .jalr 0 rs1 0
  | mv rd rs2 => .op .add rd 0 rs2
  | ebreak => .priv .ebreak
  | jalr rs1 => .jalr 1 rs1 0
  | add rd rs2 => .op .add rd rd rs2
  | swsp rs2 off => .store .sw 2 rs2 ((off ++ 0#2).setWidth 12)

/-! ### Scattered operands -/

/-- `nzuimm[5:4|9:6|2|3]`. -/
def ciw (imm : BitVec 8) : BitVec 8 :=
  imm.extractLsb' 2 2 ++ imm.extractLsb' 4 4 ++ imm.extractLsb' 0 1 ++ imm.extractLsb' 1 1

/-- The operands of a load or store: `uimm[5:3]`, the base, `uimm[2|6]`, the data register. -/
def cl (off : BitVec 5) (rs1 r : BitVec 3) : BitVec 11 :=
  off.extractLsb' 1 3 ++ rs1 ++ off.extractLsb' 0 1 ++ off.extractLsb' 4 1 ++ r

/-- `imm[5]`, the register, `imm[4:0]`. -/
def ci (imm : BitVec 6) (rd : Reg) : BitVec 11 := imm.extractLsb' 5 1 ++ rd ++ imm.extractLsb' 0 5

/-- `offset[11|4|9:8|10|6|7|3:1|5]`. -/
def cj (off : BitVec 11) : BitVec 11 :=
  off.extractLsb' 10 1 ++ off.extractLsb' 3 1 ++ off.extractLsb' 7 2 ++ off.extractLsb' 9 1 ++ off.extractLsb' 5 1 ++
    off.extractLsb' 6 1 ++ off.extractLsb' 0 3 ++ off.extractLsb' 4 1

/-- `nzimm[9]`, `x2`, `nzimm[4|6|8:7|5]`. -/
def ci16 (imm : BitVec 6) (rd : Reg) : BitVec 11 :=
  imm.extractLsb' 5 1 ++ rd ++ imm.extractLsb' 0 1 ++ imm.extractLsb' 2 1 ++ imm.extractLsb' 3 2 ++
    imm.extractLsb' 1 1

/-- `offset[8|4:3]`, the register, `offset[7:6|2:1|5]`. -/
def cb (off : BitVec 8) (rs1 : BitVec 3) : BitVec 11 :=
  off.extractLsb' 7 1 ++ off.extractLsb' 2 2 ++ rs1 ++ off.extractLsb' 5 2 ++ off.extractLsb' 0 2 ++
    off.extractLsb' 4 1

/-- `uimm[5]`, the register, `uimm[4:2|7:6]`. -/
def clsp (off : BitVec 6) (rd : Reg) : BitVec 11 :=
  off.extractLsb' 3 1 ++ rd ++ off.extractLsb' 0 3 ++ off.extractLsb' 4 2

/-- `uimm[5:2|7:6]` and the register. -/
def cssp (off : BitVec 6) (rs2 : Reg) : BitVec 11 := off.extractLsb' 0 4 ++ off.extractLsb' 4 2 ++ rs2

/-- The halfword of a compressed instruction. -/
def encode : Rvc → BitVec 16
  | addi4spn rd imm => 0b000#3 ++ (ciw imm ++ rd) ++ 0b00#2
  | lw rd rs1 off => 0b010#3 ++ cl off rs1 rd ++ 0b00#2
  | sw rs1 rs2 off => 0b110#3 ++ cl off rs1 rs2 ++ 0b00#2
  | addi rd imm => 0b000#3 ++ ci imm rd ++ 0b01#2
  | jal off => 0b001#3 ++ cj off ++ 0b01#2
  | li rd imm => 0b010#3 ++ ci imm rd ++ 0b01#2
  | addi16sp imm => 0b011#3 ++ ci16 imm 2#5 ++ 0b01#2
  | lui rd imm => 0b011#3 ++ ci imm rd ++ 0b01#2
  | srli rd sh => 0b100#3 ++ (0b0#1 ++ 0b00#2 ++ rd ++ sh) ++ 0b01#2
  | srai rd sh => 0b100#3 ++ (0b0#1 ++ 0b01#2 ++ rd ++ sh) ++ 0b01#2
  | andi rd imm => 0b100#3 ++ (imm.extractLsb' 5 1 ++ 0b10#2 ++ rd ++ imm.extractLsb' 0 5) ++ 0b01#2
  | sub rd rs2 => 0b100#3 ++ (0b0#1 ++ 0b11#2 ++ rd ++ (0b00#2 ++ rs2)) ++ 0b01#2
  | xor rd rs2 => 0b100#3 ++ (0b0#1 ++ 0b11#2 ++ rd ++ (0b01#2 ++ rs2)) ++ 0b01#2
  | or rd rs2 => 0b100#3 ++ (0b0#1 ++ 0b11#2 ++ rd ++ (0b10#2 ++ rs2)) ++ 0b01#2
  | and rd rs2 => 0b100#3 ++ (0b0#1 ++ 0b11#2 ++ rd ++ (0b11#2 ++ rs2)) ++ 0b01#2
  | j off => 0b101#3 ++ cj off ++ 0b01#2
  | beqz rs1 off => 0b110#3 ++ cb off rs1 ++ 0b01#2
  | bnez rs1 off => 0b111#3 ++ cb off rs1 ++ 0b01#2
  | slli rd sh => 0b000#3 ++ (0b0#1 ++ rd ++ sh) ++ 0b10#2
  | lwsp rd off => 0b010#3 ++ clsp off rd ++ 0b10#2
  | jr rs1 => 0b100#3 ++ (0b0#1 ++ rs1 ++ 0#5) ++ 0b10#2
  | mv rd rs2 => 0b100#3 ++ (0b0#1 ++ rd ++ rs2) ++ 0b10#2
  | ebreak => 0b100#3 ++ (0b1#1 ++ 0#5 ++ 0#5) ++ 0b10#2
  | jalr rs1 => 0b100#3 ++ (0b1#1 ++ rs1 ++ 0#5) ++ 0b10#2
  | add rd rs2 => 0b100#3 ++ (0b1#1 ++ rd ++ rs2) ++ 0b10#2
  | swsp rs2 off => 0b110#3 ++ cssp off rs2 ++ 0b10#2

end Rvc

/-! ### Gathered operands -/

section Gather

variable (m : BitVec 11)

/-- The fields of the eleven bits between `funct3` and the quadrant. -/
def gTop : BitVec 1 := m.extractLsb' 10 1
def gFn : BitVec 2 := m.extractLsb' 8 2
def gRd : Reg := m.extractLsb' 5 5
def gRs1 : BitVec 3 := m.extractLsb' 5 3
def gRs2 : Reg := m.extractLsb' 0 5
def gFn2 : BitVec 2 := m.extractLsb' 3 2
def gRd3 : BitVec 3 := m.extractLsb' 0 3
def gImm : BitVec 6 := m.extractLsb' 10 1 ++ m.extractLsb' 0 5

def gCiw : BitVec 8 := m.extractLsb' 5 4 ++ m.extractLsb' 9 2 ++ m.extractLsb' 3 1 ++ m.extractLsb' 4 1
def gCl : BitVec 5 := m.extractLsb' 3 1 ++ m.extractLsb' 8 3 ++ m.extractLsb' 4 1

def gCj : BitVec 11 :=
  m.extractLsb' 10 1 ++ m.extractLsb' 6 1 ++ m.extractLsb' 7 2 ++ m.extractLsb' 4 1 ++ m.extractLsb' 5 1 ++
    m.extractLsb' 0 1 ++ m.extractLsb' 9 1 ++ m.extractLsb' 1 3

def gCi16 : BitVec 6 :=
  m.extractLsb' 10 1 ++ m.extractLsb' 1 2 ++ m.extractLsb' 3 1 ++ m.extractLsb' 0 1 ++ m.extractLsb' 4 1

def gCb : BitVec 8 :=
  m.extractLsb' 10 1 ++ m.extractLsb' 3 2 ++ m.extractLsb' 0 1 ++ m.extractLsb' 8 2 ++ m.extractLsb' 1 2

def gClsp : BitVec 6 := m.extractLsb' 0 2 ++ m.extractLsb' 10 1 ++ m.extractLsb' 2 3
def gCssp : BitVec 6 := m.extractLsb' 5 2 ++ m.extractLsb' 7 4

open Rvc

private theorem ciw_gather : ciw (gCiw m) ++ gRd3 m = m := by
  unfold ciw gCiw gRd3
  refine BitVec.eq_of_getLsbD_eq fun i hi => ?_
  simp only [BitVec.getLsbD_extractLsb', BitVec.getLsbD_append]
  interval_cases i <;> simp

private theorem cl_gather : cl (gCl m) (gRs1 m) (gRd3 m) = m := by
  unfold cl gCl gRs1 gRd3
  refine BitVec.eq_of_getLsbD_eq fun i hi => ?_
  simp only [BitVec.getLsbD_extractLsb', BitVec.getLsbD_append]
  interval_cases i <;> simp

private theorem ci_gather : ci (gImm m) (gRd m) = m := by
  unfold ci gImm gRd
  refine BitVec.eq_of_getLsbD_eq fun i hi => ?_
  simp only [BitVec.getLsbD_extractLsb', BitVec.getLsbD_append]
  interval_cases i <;> simp

private theorem cj_gather : cj (gCj m) = m := by
  unfold cj gCj
  refine BitVec.eq_of_getLsbD_eq fun i hi => ?_
  simp only [BitVec.getLsbD_extractLsb', BitVec.getLsbD_append]
  interval_cases i <;> simp

private theorem ci16_gather : ci16 (gCi16 m) (gRd m) = m := by
  unfold ci16 gCi16 gRd
  refine BitVec.eq_of_getLsbD_eq fun i hi => ?_
  simp only [BitVec.getLsbD_extractLsb', BitVec.getLsbD_append]
  interval_cases i <;> simp

private theorem cb_gather : cb (gCb m) (gRs1 m) = m := by
  unfold cb gCb gRs1
  refine BitVec.eq_of_getLsbD_eq fun i hi => ?_
  simp only [BitVec.getLsbD_extractLsb', BitVec.getLsbD_append]
  interval_cases i <;> simp

private theorem clsp_gather : clsp (gClsp m) (gRd m) = m := by
  unfold clsp gClsp gRd
  refine BitVec.eq_of_getLsbD_eq fun i hi => ?_
  simp only [BitVec.getLsbD_extractLsb', BitVec.getLsbD_append]
  interval_cases i <;> simp

private theorem cssp_gather : cssp (gCssp m) (gRs2 m) = m := by
  unfold cssp gCssp gRs2
  refine BitVec.eq_of_getLsbD_eq fun i hi => ?_
  simp only [BitVec.getLsbD_extractLsb', BitVec.getLsbD_append]
  interval_cases i <;> simp

/-! The fields of scattered operands. -/

variable (imm5 sh rd rs2 : BitVec 5) (imm6 : BitVec 6) (imm8 : BitVec 8) (off : BitVec 11) (r r' : BitVec 3)
  (top : BitVec 1)
  (fn fn2 : BitVec 2)

private theorem ciw_fields : gCiw (ciw imm8 ++ r) = imm8 ∧ gRd3 (ciw imm8 ++ r) = r := by
  unfold ciw gCiw gRd3
  refine ⟨?_, ?_⟩ <;> refine BitVec.eq_of_getLsbD_eq fun i hi => ?_
  all_goals simp only [BitVec.getLsbD_extractLsb', BitVec.getLsbD_append]
  all_goals interval_cases i <;> simp

private theorem cl_fields : gCl (cl imm5 r r') = imm5 ∧ gRs1 (cl imm5 r r') = r ∧ gRd3 (cl imm5 r r') = r' := by
  unfold cl gCl gRs1 gRd3
  refine ⟨?_, ?_, ?_⟩ <;> refine BitVec.eq_of_getLsbD_eq fun i hi => ?_
  all_goals simp only [BitVec.getLsbD_extractLsb', BitVec.getLsbD_append]
  all_goals interval_cases i <;> simp

private theorem ci_fields : gImm (ci imm6 rd) = imm6 ∧ gRd (ci imm6 rd) = rd := by
  unfold ci gImm gRd
  refine ⟨?_, ?_⟩ <;> refine BitVec.eq_of_getLsbD_eq fun i hi => ?_
  all_goals simp only [BitVec.getLsbD_extractLsb', BitVec.getLsbD_append]
  all_goals interval_cases i <;> simp

private theorem cj_fields : gCj (cj off) = off := by
  unfold cj gCj
  refine BitVec.eq_of_getLsbD_eq fun i hi => ?_
  simp only [BitVec.getLsbD_extractLsb', BitVec.getLsbD_append]
  interval_cases i <;> simp

private theorem ci16_fields : gCi16 (ci16 imm6 rd) = imm6 ∧ gRd (ci16 imm6 rd) = rd := by
  unfold ci16 gCi16 gRd
  refine ⟨?_, ?_⟩ <;> refine BitVec.eq_of_getLsbD_eq fun i hi => ?_
  all_goals simp only [BitVec.getLsbD_extractLsb', BitVec.getLsbD_append]
  all_goals interval_cases i <;> simp

private theorem cb_fields : gCb (cb imm8 r) = imm8 ∧ gRs1 (cb imm8 r) = r := by
  unfold cb gCb gRs1
  refine ⟨?_, ?_⟩ <;> refine BitVec.eq_of_getLsbD_eq fun i hi => ?_
  all_goals simp only [BitVec.getLsbD_extractLsb', BitVec.getLsbD_append]
  all_goals interval_cases i <;> simp

private theorem clsp_fields : gClsp (clsp imm6 rd) = imm6 ∧ gRd (clsp imm6 rd) = rd := by
  unfold clsp gClsp gRd
  refine ⟨?_, ?_⟩ <;> refine BitVec.eq_of_getLsbD_eq fun i hi => ?_
  all_goals simp only [BitVec.getLsbD_extractLsb', BitVec.getLsbD_append]
  all_goals interval_cases i <;> simp

private theorem cssp_fields : gCssp (cssp imm6 rd) = imm6 ∧ gRs2 (cssp imm6 rd) = rd := by
  unfold cssp gCssp gRs2
  refine ⟨?_, ?_⟩ <;> refine BitVec.eq_of_getLsbD_eq fun i hi => ?_
  all_goals simp only [BitVec.getLsbD_extractLsb', BitVec.getLsbD_append]
  all_goals interval_cases i <;> simp

private theorem shift_fields : gTop (top ++ fn ++ r ++ sh) = top ∧ gFn (top ++ fn ++ r ++ sh) = fn ∧
    gRs1 (top ++ fn ++ r ++ sh) = r ∧ gRs2 (top ++ fn ++ r ++ sh) = sh ∧ gImm (top ++ fn ++ r ++ sh) = top ++ sh := by
  unfold gTop gFn gRs1 gRs2 gImm
  refine ⟨?_, ?_, ?_, ?_, ?_⟩ <;> refine BitVec.eq_of_getLsbD_eq fun i hi => ?_
  all_goals simp only [BitVec.getLsbD_extractLsb', BitVec.getLsbD_append]
  all_goals interval_cases i <;> simp

private theorem ca_fields : gFn2 (top ++ fn ++ r ++ (fn2 ++ r')) = fn2 ∧
    gRd3 (top ++ fn ++ r ++ (fn2 ++ r')) = r' := by
  unfold gFn2 gRd3
  refine ⟨?_, ?_⟩ <;> refine BitVec.eq_of_getLsbD_eq fun i hi => ?_
  all_goals simp only [BitVec.getLsbD_extractLsb', BitVec.getLsbD_append]
  all_goals interval_cases i <;> simp

private theorem cr_fields : gTop (top ++ rd ++ rs2) = top ∧ gRd (top ++ rd ++ rs2) = rd ∧
    gRs2 (top ++ rd ++ rs2) = rs2 := by
  unfold gTop gRd gRs2
  refine ⟨?_, ?_, ?_⟩ <;> refine BitVec.eq_of_getLsbD_eq fun i hi => ?_
  all_goals simp only [BitVec.getLsbD_extractLsb', BitVec.getLsbD_append]
  all_goals interval_cases i <;> simp

private theorem shift_gather : gTop m ++ gFn m ++ gRs1 m ++ gRs2 m = m := by
  unfold gTop gFn gRs1 gRs2
  refine BitVec.eq_of_getLsbD_eq fun i hi => ?_
  simp only [BitVec.getLsbD_extractLsb', BitVec.getLsbD_append]
  interval_cases i <;> simp

private theorem ca_gather : gTop m ++ gFn m ++ gRs1 m ++ (gFn2 m ++ gRd3 m) = m := by
  unfold gTop gFn gRs1 gFn2 gRd3
  refine BitVec.eq_of_getLsbD_eq fun i hi => ?_
  simp only [BitVec.getLsbD_extractLsb', BitVec.getLsbD_append]
  interval_cases i <;> simp

theorem cr_gather : gTop m ++ gRd m ++ gRs2 m = m := by
  unfold gTop gRd gRs2
  refine BitVec.eq_of_getLsbD_eq fun i hi => ?_
  simp only [BitVec.getLsbD_extractLsb', BitVec.getLsbD_append]
  interval_cases i <;> simp

end Gather

/-! ### Decoding -/

section Decode

/-- Quadrant 0. -/
def rvc0 (f3 : BitVec 3) (m : BitVec 11) : Option Rvc :=
  if f3 = 0b000#3 then some (.addi4spn (gRd3 m) (gCiw m))
  else if f3 = 0b010#3 then some (.lw (gRd3 m) (gRs1 m) (gCl m))
  else if f3 = 0b110#3 then some (.sw (gRs1 m) (gRd3 m) (gCl m))
  else none

/-- The arithmetic of quadrant 1. -/
def rvcArith (m : BitVec 11) : Option Rvc :=
  if gFn m = 0b10#2 then some (.andi (gRs1 m) (gImm m))
  else if gTop m = 1#1 then none
  else if gFn m = 0b00#2 then some (.srli (gRs1 m) (gRs2 m))
  else if gFn m = 0b01#2 then some (.srai (gRs1 m) (gRs2 m))
  else if gFn2 m = 0b00#2 then some (.sub (gRs1 m) (gRd3 m))
  else if gFn2 m = 0b01#2 then some (.xor (gRs1 m) (gRd3 m))
  else if gFn2 m = 0b10#2 then some (.or (gRs1 m) (gRd3 m))
  else some (.and (gRs1 m) (gRd3 m))

/-- Quadrant 1. -/
def rvc1 (f3 : BitVec 3) (m : BitVec 11) : Option Rvc :=
  if f3 = 0b000#3 then some (.addi (gRd m) (gImm m))
  else if f3 = 0b001#3 then some (.jal (gCj m))
  else if f3 = 0b010#3 then some (.li (gRd m) (gImm m))
  else if f3 = 0b011#3 then if gRd m = 2#5 then some (.addi16sp (gCi16 m)) else some (.lui (gRd m) (gImm m))
  else if f3 = 0b100#3 then rvcArith m
  else if f3 = 0b101#3 then some (.j (gCj m))
  else if f3 = 0b110#3 then some (.beqz (gRs1 m) (gCb m))
  else some (.bnez (gRs1 m) (gCb m))

/-- The jumps and register moves of quadrant 2. -/
def rvcJump (m : BitVec 11) : Option Rvc :=
  if gTop m = 0#1 then if gRs2 m = 0#5 then some (.jr (gRd m)) else some (.mv (gRd m) (gRs2 m))
  else if gRs2 m = 0#5 then if gRd m = 0#5 then some .ebreak else some (.jalr (gRd m))
  else some (.add (gRd m) (gRs2 m))

/-- Quadrant 2. -/
def rvc2 (f3 : BitVec 3) (m : BitVec 11) : Option Rvc :=
  if f3 = 0b000#3 then if gTop m = 0#1 then some (.slli (gRd m) (gRs2 m)) else none
  else if f3 = 0b010#3 then some (.lwsp (gRd m) (gClsp m))
  else if f3 = 0b100#3 then rvcJump m
  else if f3 = 0b110#3 then some (.swsp (gRs2 m) (gCssp m))
  else none

/-- The format table, reserved operands included. -/
def rvcTable (q : BitVec 2) (f3 : BitVec 3) (m : BitVec 11) : Option Rvc :=
  if q = 0b00#2 then rvc0 f3 m else if q = 0b01#2 then rvc1 f3 m else if q = 0b10#2 then rvc2 f3 m else none

/-- The instruction of a halfword. -/
def decodeRvc (c : BitVec 16) : Option Rvc :=
  (rvcTable (c.extractLsb' 0 2) (c.extractLsb' 13 3) (c.extractLsb' 2 11)).filter Rvc.defined

/-- A hint, to which the instruction set gives no effect. -/
def Hint (c : BitVec 16) : Prop :=
  (rvcTable (c.extractLsb' 0 2) (c.extractLsb' 13 3) (c.extractLsb' 2 11)).any Rvc.hint = true

instance : DecidablePred Hint := fun _ => inferInstanceAs (Decidable (_ = _))

theorem half_self (c : BitVec 16) : c.extractLsb' 13 3 ++ c.extractLsb' 2 11 ++ c.extractLsb' 0 2 = c := by
  refine BitVec.eq_of_getLsbD_eq fun i hi => ?_
  simp only [BitVec.getLsbD_extractLsb', BitVec.getLsbD_append]
  interval_cases i <;> simp

theorem half_fields (f3 : BitVec 3) (m : BitVec 11) (q : BitVec 2) : (f3 ++ m ++ q).extractLsb' 13 3 = f3 ∧
    (f3 ++ m ++ q).extractLsb' 2 11 = m ∧ (f3 ++ m ++ q).extractLsb' 0 2 = q := by
  refine ⟨?_, ?_, ?_⟩ <;> refine BitVec.eq_of_getLsbD_eq fun i hi => ?_
  all_goals simp only [BitVec.getLsbD_extractLsb', BitVec.getLsbD_append]
  all_goals interval_cases i <;> simp

theorem three_bits (x : BitVec 3) : x = 0b000#3 ∨ x = 0b001#3 ∨ x = 0b010#3 ∨ x = 0b011#3 ∨
    x = 0b100#3 ∨ x = 0b101#3 ∨ x = 0b110#3 ∨ x = 0b111#3 := by
  revert x
  decide

variable {q : BitVec 2} {f3 : BitVec 3} {m : BitVec 11} {k : Rvc}

/-- What quadrant 0 finds encodes to the halfword. -/
private theorem encode_rvc0 (h : rvc0 f3 m = some k) : k.encode = f3 ++ m ++ 0b00#2 := by
  unfold rvc0 at h
  rcases ite_some h with ⟨hf, h⟩ | ⟨-, h⟩
  · rw [hf]
    obtain rfl := Option.some.inj h
    rw [Rvc.encode, ciw_gather]
  rcases ite_some h with ⟨hf, h⟩ | ⟨-, h⟩
  · rw [hf]
    obtain rfl := Option.some.inj h
    rw [Rvc.encode, cl_gather]
  rcases ite_some h with ⟨hf, h⟩ | ⟨-, h⟩
  · rw [hf]
    obtain rfl := Option.some.inj h
    rw [Rvc.encode, cl_gather]
  · cases h

private theorem encode_rvcArith (h : rvcArith m = some k) : k.encode = 0b100#3 ++ m ++ 0b01#2 := by
  have htop : gTop m ≠ 1#1 → gTop m = 0#1 := by
    generalize gTop m = x
    revert x
    decide
  have hfn : gFn m ≠ 0b10#2 → gFn m ≠ 0b00#2 → gFn m ≠ 0b01#2 → gFn m = 0b11#2 := by
    generalize gFn m = x
    revert x
    decide
  have hfn2 : gFn2 m ≠ 0b00#2 → gFn2 m ≠ 0b01#2 → gFn2 m ≠ 0b10#2 → gFn2 m = 0b11#2 := by
    generalize gFn2 m = x
    revert x
    decide
  unfold rvcArith at h
  rcases ite_some h with ⟨hf, h⟩ | ⟨hf, h⟩
  · obtain rfl := Option.some.inj h
    have hs := shift_gather m
    rw [hf] at hs
    have htop : (gImm m).extractLsb' 5 1 = gTop m := by
      unfold gImm gTop
      refine BitVec.eq_of_getLsbD_eq fun i hi => ?_
      simp only [BitVec.getLsbD_extractLsb', BitVec.getLsbD_append]
      interval_cases i
      simp
    have hlow : (gImm m).extractLsb' 0 5 = gRs2 m := by
      unfold gImm gRs2
      refine BitVec.eq_of_getLsbD_eq fun i hi => ?_
      simp only [BitVec.getLsbD_extractLsb', BitVec.getLsbD_append]
      interval_cases i <;> simp
    rw [Rvc.encode, htop, hlow, hs]
  rcases ite_some h with ⟨-, h⟩ | ⟨ht, h⟩
  · cases h
  rcases ite_some h with ⟨hf0, h⟩ | ⟨hf0, h⟩
  · obtain rfl := Option.some.inj h
    rw [Rvc.encode, ← htop ht, ← hf0, shift_gather]
  rcases ite_some h with ⟨hf1, h⟩ | ⟨hf1, h⟩
  · obtain rfl := Option.some.inj h
    rw [Rvc.encode, ← htop ht, ← hf1, shift_gather]
  have hca := ca_gather m
  rw [htop ht, hfn hf hf0 hf1] at hca
  rcases ite_some h with ⟨h2, h⟩ | ⟨h2, h⟩
  · obtain rfl := Option.some.inj h
    rw [Rvc.encode, ← h2, hca]
  rcases ite_some h with ⟨h3, h⟩ | ⟨h3, h⟩
  · obtain rfl := Option.some.inj h
    rw [Rvc.encode, ← h3, hca]
  rcases ite_some h with ⟨h4, h⟩ | ⟨h4, h⟩
  · obtain rfl := Option.some.inj h
    rw [Rvc.encode, ← h4, hca]
  · obtain rfl := Option.some.inj h
    rw [hfn2 h2 h3 h4] at hca
    rw [Rvc.encode, hca]

private theorem encode_rvc1 (h : rvc1 f3 m = some k) : k.encode = f3 ++ m ++ 0b01#2 := by
  unfold rvc1 at h
  rcases ite_some h with ⟨hf, h⟩ | ⟨h0, h⟩
  · rw [hf]
    obtain rfl := Option.some.inj h
    rw [Rvc.encode, ci_gather]
  rcases ite_some h with ⟨hf, h⟩ | ⟨h1, h⟩
  · rw [hf]
    obtain rfl := Option.some.inj h
    rw [Rvc.encode, cj_gather]
  rcases ite_some h with ⟨hf, h⟩ | ⟨h2, h⟩
  · rw [hf]
    obtain rfl := Option.some.inj h
    rw [Rvc.encode, ci_gather]
  rcases ite_some h with ⟨hf, h⟩ | ⟨h3, h⟩
  · rw [hf]
    rcases ite_some h with ⟨hr, h⟩ | ⟨-, h⟩
    · obtain rfl := Option.some.inj h
      rw [Rvc.encode, ← hr, ci16_gather]
    · obtain rfl := Option.some.inj h
      rw [Rvc.encode, ci_gather]
  rcases ite_some h with ⟨hf, h⟩ | ⟨h4, h⟩
  · rw [hf]
    exact encode_rvcArith h
  rcases ite_some h with ⟨hf, h⟩ | ⟨h5, h⟩
  · rw [hf]
    obtain rfl := Option.some.inj h
    rw [Rvc.encode, cj_gather]
  rcases ite_some h with ⟨hf, h⟩ | ⟨h6, h⟩
  · rw [hf]
    obtain rfl := Option.some.inj h
    rw [Rvc.encode, cb_gather]
  · have hf : f3 = 0b111#3 := by simpa [h0, h1, h2, h3, h4, h5, h6] using three_bits f3
    obtain rfl := Option.some.inj h
    rw [hf, Rvc.encode, cb_gather]

private theorem encode_rvcJump (h : rvcJump m = some k) : k.encode = 0b100#3 ++ m ++ 0b10#2 := by
  have htop : gTop m ≠ 0#1 → gTop m = 1#1 := by
    generalize gTop m = x
    revert x
    decide
  have hcr := cr_gather m
  unfold rvcJump at h
  rcases ite_some h with ⟨ht, h⟩ | ⟨ht, h⟩
  · rcases ite_some h with ⟨h2, h⟩ | ⟨-, h⟩
    · obtain rfl := Option.some.inj h
      rw [Rvc.encode, ← ht, ← h2, hcr]
    · obtain rfl := Option.some.inj h
      rw [Rvc.encode, ← ht, hcr]
  rw [htop ht] at hcr
  rcases ite_some h with ⟨h2, h⟩ | ⟨-, h⟩
  · rw [h2] at hcr
    rcases ite_some h with ⟨hr, h⟩ | ⟨-, h⟩
    · obtain rfl := Option.some.inj h
      rw [hr] at hcr
      rw [Rvc.encode, hcr]
    · obtain rfl := Option.some.inj h
      rw [Rvc.encode, hcr]
  · obtain rfl := Option.some.inj h
    rw [Rvc.encode, hcr]

private theorem encode_rvc2 (h : rvc2 f3 m = some k) : k.encode = f3 ++ m ++ 0b10#2 := by
  unfold rvc2 at h
  rcases ite_some h with ⟨hf, h⟩ | ⟨-, h⟩
  · rw [hf]
    rcases ite_some h with ⟨ht, h⟩ | ⟨-, h⟩
    · obtain rfl := Option.some.inj h
      rw [Rvc.encode, ← ht, cr_gather]
    · cases h
  rcases ite_some h with ⟨hf, h⟩ | ⟨-, h⟩
  · rw [hf]
    obtain rfl := Option.some.inj h
    rw [Rvc.encode, clsp_gather]
  rcases ite_some h with ⟨hf, h⟩ | ⟨-, h⟩
  · rw [hf]
    exact encode_rvcJump h
  rcases ite_some h with ⟨hf, h⟩ | ⟨-, h⟩
  · rw [hf]
    obtain rfl := Option.some.inj h
    rw [Rvc.encode, cssp_gather]
  · cases h

private theorem encode_rvcTable (h : rvcTable q f3 m = some k) : k.encode = f3 ++ m ++ q := by
  unfold rvcTable at h
  rcases ite_some h with ⟨hf, h⟩ | ⟨-, h⟩
  · rw [hf]
    exact encode_rvc0 h
  rcases ite_some h with ⟨hf, h⟩ | ⟨-, h⟩
  · rw [hf]
    exact encode_rvc1 h
  rcases ite_some h with ⟨hf, h⟩ | ⟨-, h⟩
  · rw [hf]
    exact encode_rvc2 h
  · cases h

section Arith

variable (top : BitVec 1) (fn fn2 : BitVec 2) (r r2 : BitVec 3) (sh : BitVec 5)

/-- The arithmetic of quadrant 1 sees its own part of the halfword. -/
private theorem table_arith (m : BitVec 11) : rvcTable ((0b100#3 ++ m ++ 0b01#2).extractLsb' 0 2)
    ((0b100#3 ++ m ++ 0b01#2).extractLsb' 13 3) ((0b100#3 ++ m ++ 0b01#2).extractLsb' 2 11) = rvcArith m := by
  simp [rvcTable, rvc1, half_fields]

private theorem rvcArith_shift : rvcArith (top ++ fn ++ r ++ sh) =
    if fn = 0b10#2 then some (.andi r (top ++ sh))
    else if top = 1#1 then none
    else if fn = 0b00#2 then some (.srli r sh)
    else if fn = 0b01#2 then some (.srai r sh)
    else rvcArith (top ++ fn ++ r ++ sh) := by
  simp only [rvcArith, shift_fields]
  split_ifs <;> rfl

private theorem rvcArith_ca : rvcArith (0b0#1 ++ 0b11#2 ++ r ++ (fn2 ++ r2)) =
    if fn2 = 0b00#2 then some (.sub r r2)
    else if fn2 = 0b01#2 then some (.xor r r2)
    else if fn2 = 0b10#2 then some (.or r r2)
    else some (.and r r2) := by
  have hs := shift_fields (fn2 ++ r2) r 0b0#1 0b11#2
  have hc := ca_fields r r2 0b0#1 0b11#2 fn2
  rw [rvcArith, hs.1, hs.2.1, hs.2.2.1, hc.1, hc.2]
  rfl

end Arith

/-- A defined instruction is found from its halfword. -/
private theorem table_encode (k : Rvc) (h : k.defined = true) :
    rvcTable (k.encode.extractLsb' 0 2) (k.encode.extractLsb' 13 3)
    (k.encode.extractLsb' 2 11) = some k := by
  cases k with
  | addi4spn rd imm => simp [rvcTable, rvc0, Rvc.encode, half_fields, ciw_fields]
  | lw rd rs1 off => simp [rvcTable, rvc0, Rvc.encode, half_fields, cl_fields]
  | sw rs1 rs2 off => simp [rvcTable, rvc0, Rvc.encode, half_fields, cl_fields]
  | addi rd imm => simp [rvcTable, rvc1, Rvc.encode, half_fields, ci_fields]
  | jal off => simp [rvcTable, rvc1, Rvc.encode, half_fields, cj_fields]
  | li rd imm => simp [rvcTable, rvc1, Rvc.encode, half_fields, ci_fields]
  | addi16sp imm => simp [rvcTable, rvc1, Rvc.encode, half_fields, ci16_fields]
  | lui rd imm =>
    simp only [Rvc.defined, Bool.and_eq_true, bne_iff_ne] at h
    have h2 : rd ≠ 2#5 := h.1.2
    simp [rvcTable, rvc1, Rvc.encode, half_fields, ci_fields, h2]
  | srli rd sh => exact (table_arith _).trans (rvcArith_shift _ _ _ _)
  | srai rd sh => exact (table_arith _).trans (rvcArith_shift _ _ _ _)
  | andi rd imm =>
    have hi : imm.extractLsb' 5 1 ++ imm.extractLsb' 0 5 = imm := by
      refine BitVec.eq_of_getLsbD_eq fun i hi => ?_
      simp only [BitVec.getLsbD_extractLsb', BitVec.getLsbD_append]
      interval_cases i <;> simp
    refine (table_arith _).trans ((rvcArith_shift _ _ _ _).trans ?_)
    rw [if_pos rfl, hi]
  | sub rd rs2 => exact (table_arith _).trans (rvcArith_ca _ _ _)
  | xor rd rs2 => exact (table_arith _).trans (rvcArith_ca _ _ _)
  | or rd rs2 => exact (table_arith _).trans (rvcArith_ca _ _ _)
  | and rd rs2 => exact (table_arith _).trans (rvcArith_ca _ _ _)
  | j off => simp [rvcTable, rvc1, Rvc.encode, half_fields, cj_fields]
  | beqz rs1 off => simp [rvcTable, rvc1, Rvc.encode, half_fields, cb_fields]
  | bnez rs1 off => simp [rvcTable, rvc1, Rvc.encode, half_fields, cb_fields]
  | slli rd sh => simp [rvcTable, rvc2, Rvc.encode, half_fields, cr_fields]
  | lwsp rd off => simp [rvcTable, rvc2, Rvc.encode, half_fields, clsp_fields]
  | jr rs1 => simp [rvcTable, rvc2, rvcJump, Rvc.encode, half_fields, cr_fields]
  | mv rd rs2 =>
    simp only [Rvc.defined, Bool.and_eq_true, bne_iff_ne] at h
    have h2 : rs2 ≠ 0#5 := h.2
    simp [rvcTable, rvc2, rvcJump, Rvc.encode, half_fields, cr_fields, h2]
  | ebreak => decide
  | jalr rs1 =>
    simp only [Rvc.defined, bne_iff_ne] at h
    have h1 : rs1 ≠ 0#5 := h
    simp [rvcTable, rvc2, rvcJump, Rvc.encode, half_fields, cr_fields, h1]
  | add rd rs2 =>
    simp only [Rvc.defined, Bool.and_eq_true, bne_iff_ne] at h
    have h2 : rs2 ≠ 0#5 := h.2
    simp [rvcTable, rvc2, rvcJump, Rvc.encode, half_fields, cr_fields, h2]
  | swsp rs2 off => simp [rvcTable, rvc2, Rvc.encode, half_fields, cssp_fields]

/-- A halfword decodes to an instruction exactly if the instruction is defined and the halfword is its encoding. -/
theorem decodeRvc_iff {c : BitVec 16} : decodeRvc c = some k ↔ k.encode = c ∧ k.defined = true := by
  unfold decodeRvc
  rw [Option.filter_eq_some_iff]
  constructor
  · rintro ⟨ht, hd⟩
    exact ⟨(encode_rvcTable ht).trans (half_self c), hd⟩
  · rintro ⟨rfl, hd⟩
    exact ⟨table_encode k hd, hd⟩

end Decode

end Yarv.Isa
