import Yarv.Pkg

/-!
# `c_expand`

The builders of 32-bit instruction words and the expansion of a compressed halfword, as `decode_stage` computes them.
The result is the zero word for every compressed encoding the expander does not know.

A slice `c[hi:lo]` of the source is `c.extractLsb' lo (hi - lo + 1)`, a concatenation `{a, b}` is `a ++ b`.
-/

namespace Yarv

/-! ### Major opcodes -/

def opcLui : BitVec 7 := 0b0110111
def opcAuipc : BitVec 7 := 0b0010111
def opcJal : BitVec 7 := 0b1101111
def opcJalr : BitVec 7 := 0b1100111
def opcBranch : BitVec 7 := 0b1100011
def opcLoad : BitVec 7 := 0b0000011
def opcStore : BitVec 7 := 0b0100011
def opcOpImm : BitVec 7 := 0b0010011
def opcOp : BitVec 7 := 0b0110011
def opcMiscMem : BitVec 7 := 0b0001111
def opcSystem : BitVec 7 := 0b1110011
def opcAmo : BitVec 7 := 0b0101111

/-! ### Instruction builders -/

def mkR (op : BitVec 7) (rd rs1 rs2 : BitVec 5) (f3 : BitVec 3) (f7 : BitVec 7) : Word :=
  f7 ++ rs2 ++ rs1 ++ f3 ++ rd ++ op

def mkI (op : BitVec 7) (rd rs1 : BitVec 5) (f3 : BitVec 3) (off : Word) : Word :=
  off.extractLsb' 0 12 ++ rs1 ++ f3 ++ rd ++ op

def mkS (op : BitVec 7) (rs1 rs2 : BitVec 5) (f3 : BitVec 3) (off : Word) : Word :=
  off.extractLsb' 5 7 ++ rs2 ++ rs1 ++ f3 ++ off.extractLsb' 0 5 ++ op

def mkB (op : BitVec 7) (rs1 rs2 : BitVec 5) (f3 : BitVec 3) (off : Word) : Word :=
  off.extractLsb' 12 1 ++ off.extractLsb' 5 6 ++ rs2 ++ rs1 ++ f3 ++ off.extractLsb' 1 4 ++ off.extractLsb' 11 1 ++ op

def mkU (op : BitVec 7) (rd : BitVec 5) (off : Word) : Word :=
  off.extractLsb' 12 20 ++ rd ++ op

def mkJ (op : BitVec 7) (rd : BitVec 5) (off : Word) : Word :=
  off.extractLsb' 20 1 ++ off.extractLsb' 1 10 ++ off.extractLsb' 11 1 ++ off.extractLsb' 12 8 ++ rd ++ op

/-! ### Fields of a compressed halfword -/

variable (c : BitVec 16)

/-- `c[15:13]`. -/
def cF3 : BitVec 3 := c.extractLsb' 13 3

/-- `rd5 = c[11:7]`. -/
def cRd5 : BitVec 5 := c.extractLsb' 7 5

/-- `crd = crs2 = {2'b01, c[4:2]}`. -/
def cCrd : BitVec 5 := 0b01#2 ++ c.extractLsb' 2 3

/-- `crs1 = {2'b01, c[9:7]}`. -/
def cCrs1 : BitVec 5 := 0b01#2 ++ c.extractLsb' 7 3

/-- `rs2_5 = c[6:2]`. -/
def cRs2 : BitVec 5 := c.extractLsb' 2 5

/-- `imm6 = {c[12], c[6:2]}`. -/
def cImm6 : BitVec 6 := c.extractLsb' 12 1 ++ c.extractLsb' 2 5

/-- The unsigned immediate of `c.addi4spn`. -/
def cAddi4spnImm : BitVec 10 :=
  c.extractLsb' 7 4 ++ c.extractLsb' 11 2 ++ c.extractLsb' 5 1 ++ c.extractLsb' 6 1 ++ 0b00#2

/-- The unsigned offset of `c.lw` and `c.sw`. -/
def cLwOff : BitVec 7 := c.extractLsb' 5 1 ++ c.extractLsb' 10 3 ++ c.extractLsb' 6 1 ++ 0b00#2

/-- The CJ offset of `c.jal` and `c.j`. -/
def cJOff : BitVec 12 :=
  c.extractLsb' 12 1 ++ c.extractLsb' 8 1 ++ c.extractLsb' 10 1 ++ c.extractLsb' 9 1 ++ c.extractLsb' 6 1 ++
    c.extractLsb' 7 1 ++ c.extractLsb' 2 1 ++ c.extractLsb' 11 1 ++ c.extractLsb' 5 1 ++ c.extractLsb' 4 1 ++
    c.extractLsb' 3 1 ++ 0b0#1

/-- The immediate of `c.addi16sp`. -/
def cAddi16spImm : BitVec 10 :=
  c.extractLsb' 12 1 ++ c.extractLsb' 3 2 ++ c.extractLsb' 5 1 ++ c.extractLsb' 2 1 ++ c.extractLsb' 6 1 ++ 0b0000#4

/-- The CB offset of `c.beqz` and `c.bnez`. -/
def cBOff : BitVec 9 :=
  c.extractLsb' 12 1 ++ c.extractLsb' 5 2 ++ c.extractLsb' 2 1 ++ c.extractLsb' 10 2 ++ c.extractLsb' 3 2 ++ 0b0#1

/-- The offset of `c.lwsp`. -/
def cLwspOff : BitVec 8 := c.extractLsb' 2 2 ++ c.extractLsb' 12 1 ++ c.extractLsb' 4 3 ++ 0b00#2

/-- The offset of `c.swsp`. -/
def cSwspOff : BitVec 8 := c.extractLsb' 7 2 ++ c.extractLsb' 9 4 ++ 0b00#2

/-! ### The three quadrants -/

/-- Quadrant 0. -/
def cExpand0 : Word :=
  if cF3 c = 0b000#3 then
    if cAddi4spnImm c ≠ 0#10 then mkI opcOpImm (cCrd c) 2#5 0b000#3 ((cAddi4spnImm c).setWidth 32) else 0
  else if cF3 c = 0b010#3 then mkI opcLoad (cCrd c) (cCrs1 c) 0b010#3 ((cLwOff c).setWidth 32)
  else if cF3 c = 0b110#3 then mkS opcStore (cCrs1 c) (cCrd c) 0b010#3 ((cLwOff c).setWidth 32)
  else 0

/-- The `funct3 = 100` group of quadrant 1: shifts, `c.andi` and the CA format. -/
def cExpandAlu : Word :=
  if c.extractLsb' 10 2 = 0b00#2 then
    mkI opcOpImm (cCrs1 c) (cCrs1 c) 0b101#3 (0#25 ++ 0b00#2 ++ c.extractLsb' 2 5)
  else if c.extractLsb' 10 2 = 0b01#2 then
    mkI opcOpImm (cCrs1 c) (cCrs1 c) 0b101#3 (0#20 ++ 0b0100000#7 ++ c.extractLsb' 2 5)
  else if c.extractLsb' 10 2 = 0b10#2 then
    mkI opcOpImm (cCrs1 c) (cCrs1 c) 0b111#3 ((cImm6 c).signExtend 32)
  else if c.extractLsb' 5 2 = 0b00#2 then mkR opcOp (cCrs1 c) (cCrs1 c) (cCrd c) 0b000#3 0b0100000#7
  else if c.extractLsb' 5 2 = 0b01#2 then mkR opcOp (cCrs1 c) (cCrs1 c) (cCrd c) 0b100#3 0b0000000#7
  else if c.extractLsb' 5 2 = 0b10#2 then mkR opcOp (cCrs1 c) (cCrs1 c) (cCrd c) 0b110#3 0b0000000#7
  else mkR opcOp (cCrs1 c) (cCrs1 c) (cCrd c) 0b111#3 0b0000000#7

/-- Quadrant 1. -/
def cExpand1 : Word :=
  if cF3 c = 0b000#3 then
    if cRd5 c = 0#5 ∧ cImm6 c = 0#6 then mkI opcOpImm 0#5 0#5 0b000#3 0
    else if cRd5 c ≠ 0#5 then mkI opcOpImm (cRd5 c) (cRd5 c) 0b000#3 ((cImm6 c).signExtend 32)
    else 0
  else if cF3 c = 0b001#3 then mkJ opcJal 1#5 ((cJOff c).signExtend 32)
  else if cF3 c = 0b010#3 then
    if cRd5 c ≠ 0#5 then mkI opcOpImm (cRd5 c) 0#5 0b000#3 ((cImm6 c).signExtend 32) else 0
  else if cF3 c = 0b011#3 then
    if cRd5 c = 2#5 then
      if cAddi16spImm c ≠ 0#10 then mkI opcOpImm 2#5 2#5 0b000#3 ((cAddi16spImm c).signExtend 32) else 0
    else if cRd5 c ≠ 0#5 ∧ cImm6 c ≠ 0#6 then mkU opcLui (cRd5 c) ((cImm6 c ++ 0#12).signExtend 32)
    else 0
  else if cF3 c = 0b100#3 then cExpandAlu c
  else if cF3 c = 0b101#3 then mkJ opcJal 0#5 ((cJOff c).signExtend 32)
  else if cF3 c = 0b110#3 then mkB opcBranch (cCrs1 c) 0#5 0b000#3 ((cBOff c).signExtend 32)
  else mkB opcBranch (cCrs1 c) 0#5 0b001#3 ((cBOff c).signExtend 32)

/-- Quadrant 2. -/
def cExpand2 : Word :=
  if cF3 c = 0b000#3 then
    if cRd5 c ≠ 0#5 then mkI opcOpImm (cRd5 c) (cRd5 c) 0b001#3 (0#25 ++ 0b00#2 ++ c.extractLsb' 2 5) else 0
  else if cF3 c = 0b010#3 then
    if cRd5 c ≠ 0#5 then mkI opcLoad (cRd5 c) 2#5 0b010#3 ((cLwspOff c).setWidth 32) else 0
  else if cF3 c = 0b100#3 then
    if cRd5 c = 0#5 ∧ cRs2 c = 0#5 then mkI opcSystem 0#5 0#5 0b000#3 1
    else if cRs2 c = 0#5 then mkI opcJalr (if c.getLsbD 12 then 1#5 else 0#5) (cRd5 c) 0b000#3 0
    else if cRd5 c ≠ 0#5 then
      if c.getLsbD 12 then mkR opcOp (cRd5 c) (cRd5 c) (cRs2 c) 0b000#3 0b0000000#7
      else mkR opcOp (cRd5 c) 0#5 (cRs2 c) 0b000#3 0b0000000#7
    else 0
  else if cF3 c = 0b110#3 then mkS opcStore 2#5 (cRs2 c) 0b010#3 ((cSwspOff c).setWidth 32)
  else 0

/-- `c_expand`: the 32-bit word of a compressed halfword, zero when there is none. -/
def cExpand : Word :=
  if c.extractLsb' 0 2 = 0b00#2 then cExpand0 c
  else if c.extractLsb' 0 2 = 0b01#2 then cExpand1 c
  else if c.extractLsb' 0 2 = 0b10#2 then cExpand2 c
  else 0

/-- The encodings the source verified by hand. -/
example : cExpand 0x4095 = 0x00500093 ∧ cExpand 0x0085 = 0x00108093 ∧ cExpand 0xA801 = 0x0100006F := by decide

end Yarv
