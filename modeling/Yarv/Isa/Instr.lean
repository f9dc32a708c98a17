import Yarv.Pkg

/-!
# Instructions

The instructions of RV32I, M, Zicsr, Zifencei, the four machine-mode instructions and the indexed loads of Zilx, with
their encoding as words.  `decode_iff` says that `decode` and `encode` are inverse to each other.

An offset of a jump or a branch counts halfwords.
-/

namespace Yarv.Isa

/-- A register number. -/
abbrev Reg := BitVec 5

/-! ### Tables of codes -/

section Lookup

variable {α β : Type*} [DecidableEq β] {all : List α} {code : α → β} {a : α} {b : β}

/-- The entry with the code `b`. -/
def lookup (all : List α) (code : α → β) (b : β) : Option α := all.find? fun a => code a == b

/-- In a complete table without two equal codes the entry is the one with the code. -/
theorem lookup_iff (hall : ∀ a, a ∈ all) (hcode : Function.Injective code) :
    lookup all code b = some a ↔ code a = b := by
  unfold lookup
  constructor
  · intro h
    exact beq_iff_eq.mp (List.find?_some (p := fun a => code a == b) h)
  · intro h
    cases hf : all.find? fun a => code a == b with
    | none => exact absurd (beq_iff_eq.mpr h) (List.find?_eq_none.mp hf a (hall a))
    | some a' =>
      have h' : code a' = b := beq_iff_eq.mp (List.find?_some (p := fun a => code a == b) hf)
      rw [hcode (h'.trans h.symm)]

end Lookup

/-! ### Operations -/

/-- The comparison of a branch. -/
inductive Cond
  | eq | ne | lt | ge | ltu | geu
  deriving DecidableEq, Repr

namespace Cond

def all : List Cond := [eq, ne, lt, ge, ltu, geu]

def f3 : Cond → BitVec 3
  | eq => 0b000 | ne => 0b001 | lt => 0b100 | ge => 0b101 | ltu => 0b110 | geu => 0b111

theorem mem_all (c : Cond) : c ∈ all := by cases c <;> decide

theorem f3_injective : Function.Injective f3 := by
  intro a b
  cases a <;> cases b <;> decide

end Cond

/-- A load. -/
inductive LoadKind
  | lb | lh | lw | lbu | lhu
  deriving DecidableEq, Repr

namespace LoadKind

def all : List LoadKind := [lb, lh, lw, lbu, lhu]

def f3 : LoadKind → BitVec 3
  | lb => 0b000 | lh => 0b001 | lw => 0b010 | lbu => 0b100 | lhu => 0b101

def size : LoadKind → MemSize
  | lb | lbu => .b
  | lh | lhu => .h
  | lw => .w

def unsigned : LoadKind → Bool
  | lbu | lhu => true
  | _ => false

theorem mem_all (k : LoadKind) : k ∈ all := by cases k <;> decide

theorem f3_injective : Function.Injective f3 := by
  intro a b
  cases a <;> cases b <;> decide

end LoadKind

/-- A store. -/
inductive StoreKind
  | sb | sh | sw
  deriving DecidableEq, Repr

namespace StoreKind

def all : List StoreKind := [sb, sh, sw]

def f3 : StoreKind → BitVec 3
  | sb => 0b000 | sh => 0b001 | sw => 0b010

def size : StoreKind → MemSize
  | sb => .b
  | sh => .h
  | sw => .w

theorem mem_all (k : StoreKind) : k ∈ all := by cases k <;> decide

theorem f3_injective : Function.Injective f3 := by
  intro a b
  cases a <;> cases b <;> decide

end StoreKind

/-- An operation on a register and an immediate. -/
inductive ImmOp
  | addi | slti | sltiu | xori | ori | andi
  deriving DecidableEq, Repr

namespace ImmOp

def all : List ImmOp := [addi, slti, sltiu, xori, ori, andi]

def f3 : ImmOp → BitVec 3
  | addi => 0b000 | slti => 0b010 | sltiu => 0b011 | xori => 0b100 | ori => 0b110 | andi => 0b111

theorem mem_all (o : ImmOp) : o ∈ all := by cases o <;> decide

theorem f3_injective : Function.Injective f3 := by
  intro a b
  cases a <;> cases b <;> decide

end ImmOp

/-- A shift by an immediate. -/
inductive ShiftOp
  | slli | srli | srai
  deriving DecidableEq, Repr

namespace ShiftOp

def all : List ShiftOp := [slli, srli, srai]

/-- `funct7` and `funct3`. -/
def code : ShiftOp → BitVec 7 × BitVec 3
  | slli => (0b0000000, 0b001)
  | srli => (0b0000000, 0b101)
  | srai => (0b0100000, 0b101)

theorem mem_all (o : ShiftOp) : o ∈ all := by cases o <;> decide

theorem code_injective : Function.Injective code := by
  intro a b
  cases a <;> cases b <;> decide

end ShiftOp

/-- An operation on two registers. -/
inductive RegOp
  | add | sub | sll | slt | sltu | xor | srl | sra | or | and
  | mul | mulh | mulhsu | mulhu | div | divu | rem | remu
  deriving DecidableEq, Repr

namespace RegOp

def all : List RegOp :=
  [add, sub, sll, slt, sltu, xor, srl, sra, or, and, mul, mulh, mulhsu, mulhu, div, divu, rem, remu]

/-- `funct7` and `funct3`. -/
def code : RegOp → BitVec 7 × BitVec 3
  | add => (0b0000000, 0b000)
  | sub => (0b0100000, 0b000)
  | sll => (0b0000000, 0b001)
  | slt => (0b0000000, 0b010)
  | sltu => (0b0000000, 0b011)
  | xor => (0b0000000, 0b100)
  | srl => (0b0000000, 0b101)
  | sra => (0b0100000, 0b101)
  | or => (0b0000000, 0b110)
  | and => (0b0000000, 0b111)
  | mul => (0b0000001, 0b000)
  | mulh => (0b0000001, 0b001)
  | mulhsu => (0b0000001, 0b010)
  | mulhu => (0b0000001, 0b011)
  | div => (0b0000001, 0b100)
  | divu => (0b0000001, 0b101)
  | rem => (0b0000001, 0b110)
  | remu => (0b0000001, 0b111)

theorem mem_all (o : RegOp) : o ∈ all := by cases o <;> decide

theorem code_injective : Function.Injective code := by
  intro a b
  cases a <;> cases b <;> decide

end RegOp

/-- An indexed load: unscaled, or with the index scaled by the access size. -/
inductive IndexKind
  | lxh | lxw | lxhu | lxsb | lxsh | lxsw | lxsbu | lxshu
  deriving DecidableEq, Repr

namespace IndexKind

def all : List IndexKind := [lxh, lxw, lxhu, lxsb, lxsh, lxsw, lxsbu, lxshu]

/-- `funct5`, the ordering bits and `funct3`. -/
def code : IndexKind → BitVec 7 × BitVec 3
  | lxh => (0b1001000, 0b001)
  | lxw => (0b1001000, 0b010)
  | lxhu => (0b1001000, 0b101)
  | lxsb => (0b1101000, 0b000)
  | lxsh => (0b1101000, 0b001)
  | lxsw => (0b1101000, 0b010)
  | lxsbu => (0b1101000, 0b100)
  | lxshu => (0b1101000, 0b101)

/-- The load it is at the computed address. -/
def load : IndexKind → LoadKind
  | lxh | lxsh => .lh
  | lxw | lxsw => .lw
  | lxhu | lxshu => .lhu
  | lxsb => .lb
  | lxsbu => .lbu

/-- What the index is shifted by. -/
def shamt : IndexKind → Nat
  | lxsh | lxshu => 1
  | lxsw => 2
  | _ => 0

theorem mem_all (k : IndexKind) : k ∈ all := by cases k <;> decide

theorem code_injective : Function.Injective code := by
  intro a b
  cases a <;> cases b <;> decide

end IndexKind

/-- What a CSR instruction does with its source: write it, set its bits, clear its bits. -/
inductive CsrFn
  | rw | rs | rc
  deriving DecidableEq, Repr

namespace CsrFn

def all : List CsrFn := [rw, rs, rc]

/-- The low two bits of `funct3`; its top bit tells an immediate source. -/
def code : CsrFn → BitVec 2
  | rw => 0b01 | rs => 0b10 | rc => 0b11

theorem mem_all (f : CsrFn) : f ∈ all := by cases f <;> decide

theorem code_injective : Function.Injective code := by
  intro a b
  cases a <;> cases b <;> decide

end CsrFn

/-- An instruction that is one word. -/
inductive Priv
  | ecall | ebreak | wfi | mret
  deriving DecidableEq, Repr

namespace Priv

def all : List Priv := [ecall, ebreak, wfi, mret]

def word : Priv → Word
  | ecall => 0x00000073 | ebreak => 0x00100073 | wfi => 0x10500073 | mret => 0x30200073

theorem mem_all (o : Priv) : o ∈ all := by cases o <;> decide

theorem word_injective : Function.Injective word := by
  intro a b
  cases a <;> cases b <;> decide

end Priv

/-- An instruction. -/
inductive Instr
  | lui (rd : Reg) (imm : BitVec 20)
  | auipc (rd : Reg) (imm : BitVec 20)
  | jal (rd : Reg) (off : BitVec 20)
  | jalr (rd rs1 : Reg) (imm : BitVec 12)
  | branch (c : Cond) (rs1 rs2 : Reg) (off : BitVec 12)
  | load (k : LoadKind) (rd rs1 : Reg) (imm : BitVec 12)
  | store (k : StoreKind) (rs1 rs2 : Reg) (imm : BitVec 12)
  | opImm (o : ImmOp) (rd rs1 : Reg) (imm : BitVec 12)
  | shiftImm (o : ShiftOp) (rd rs1 : Reg) (sh : BitVec 5)
  | op (o : RegOp) (rd rs1 rs2 : Reg)
  | index (k : IndexKind) (rd rs1 rs2 : Reg)
  | csr (f : CsrFn) (immediate : Bool) (rd src : Reg) (addr : BitVec 12)
  | fence (i : Bool) (rd rs1 : Reg) (fields : BitVec 12)
  | priv (o : Priv)
  deriving DecidableEq, Repr

/-! ### Formats -/

def rType (f7 : BitVec 7) (rs2 rs1 : Reg) (f3 : BitVec 3) (rd : Reg) (op : BitVec 7) : Word :=
  f7 ++ rs2 ++ rs1 ++ f3 ++ rd ++ op

def iType (imm : BitVec 12) (rs1 : Reg) (f3 : BitVec 3) (rd : Reg) (op : BitVec 7) : Word :=
  imm ++ rs1 ++ f3 ++ rd ++ op

def sType (imm : BitVec 12) (rs2 rs1 : Reg) (f3 : BitVec 3) (op : BitVec 7) : Word :=
  imm.extractLsb' 5 7 ++ rs2 ++ rs1 ++ f3 ++ imm.extractLsb' 0 5 ++ op

/-- `off` is bits 12 to 1 of the byte offset. -/
def bType (off : BitVec 12) (rs2 rs1 : Reg) (f3 : BitVec 3) (op : BitVec 7) : Word :=
  off.extractLsb' 11 1 ++ off.extractLsb' 4 6 ++ rs2 ++ rs1 ++ f3 ++ off.extractLsb' 0 4 ++ off.extractLsb' 10 1 ++ op

def uType (imm : BitVec 20) (rd : Reg) (op : BitVec 7) : Word := imm ++ rd ++ op

/-- `off` is bits 20 to 1 of the byte offset. -/
def jType (off : BitVec 20) (rd : Reg) (op : BitVec 7) : Word :=
  off.extractLsb' 19 1 ++ off.extractLsb' 0 10 ++ off.extractLsb' 10 1 ++ off.extractLsb' 11 8 ++ rd ++ op

/-- The word of an instruction. -/
def Instr.encode : Instr → Word
  | .lui rd imm => uType imm rd 0b0110111#7
  | .auipc rd imm => uType imm rd 0b0010111#7
  | .jal rd off => jType off rd 0b1101111#7
  | .jalr rd rs1 imm => iType imm rs1 0b000#3 rd 0b1100111#7
  | .branch c rs1 rs2 off => bType off rs2 rs1 c.f3 0b1100011#7
  | .load k rd rs1 imm => iType imm rs1 k.f3 rd 0b0000011#7
  | .store k rs1 rs2 imm => sType imm rs2 rs1 k.f3 0b0100011#7
  | .opImm o rd rs1 imm => iType imm rs1 o.f3 rd 0b0010011#7
  | .shiftImm o rd rs1 sh => rType o.code.1 sh rs1 o.code.2 rd 0b0010011#7
  | .op o rd rs1 rs2 => rType o.code.1 rs2 rs1 o.code.2 rd 0b0110011#7
  | .index k rd rs1 rs2 => rType k.code.1 rs2 rs1 k.code.2 rd 0b0101111#7
  | .csr f immediate rd src addr => iType addr src (BitVec.ofBool immediate ++ f.code) rd 0b1110011#7
  | .fence i rd rs1 fields => iType fields rs1 (0#2 ++ BitVec.ofBool i) rd 0b0001111#7
  | .priv o => o.word

/-! ### Fields -/

section Fields

variable (w : Word)

def fOp : BitVec 7 := w.extractLsb' 0 7
def fRd : Reg := w.extractLsb' 7 5
def fF3 : BitVec 3 := w.extractLsb' 12 3
def fRs1 : Reg := w.extractLsb' 15 5
def fRs2 : Reg := w.extractLsb' 20 5
def fF7 : BitVec 7 := w.extractLsb' 25 7
def fImmI : BitVec 12 := w.extractLsb' 20 12
def fImmS : BitVec 12 := w.extractLsb' 25 7 ++ w.extractLsb' 7 5
def fOffB : BitVec 12 := w.extractLsb' 31 1 ++ w.extractLsb' 7 1 ++ w.extractLsb' 25 6 ++ w.extractLsb' 8 4
def fImmU : BitVec 20 := w.extractLsb' 12 20
def fOffJ : BitVec 20 := w.extractLsb' 31 1 ++ w.extractLsb' 12 8 ++ w.extractLsb' 20 1 ++ w.extractLsb' 21 10

/-- The instruction of a word. -/
def decode : Option Instr :=
  if fOp w = 0b0110111#7 then some (.lui (fRd w) (fImmU w))
  else if fOp w = 0b0010111#7 then some (.auipc (fRd w) (fImmU w))
  else if fOp w = 0b1101111#7 then some (.jal (fRd w) (fOffJ w))
  else if fOp w = 0b1100111#7 then if fF3 w = 0b000#3 then some (.jalr (fRd w) (fRs1 w) (fImmI w)) else none
  else if fOp w = 0b1100011#7 then
    (lookup Cond.all Cond.f3 (fF3 w)).map fun c => .branch c (fRs1 w) (fRs2 w) (fOffB w)
  else if fOp w = 0b0000011#7 then
    (lookup LoadKind.all LoadKind.f3 (fF3 w)).map fun k => .load k (fRd w) (fRs1 w) (fImmI w)
  else if fOp w = 0b0100011#7 then
    (lookup StoreKind.all StoreKind.f3 (fF3 w)).map fun k => .store k (fRs1 w) (fRs2 w) (fImmS w)
  else if fOp w = 0b0010011#7 then
    if fF3 w = 0b001#3 ∨ fF3 w = 0b101#3 then
      (lookup ShiftOp.all ShiftOp.code (fF7 w, fF3 w)).map fun o => .shiftImm o (fRd w) (fRs1 w) (fRs2 w)
    else (lookup ImmOp.all ImmOp.f3 (fF3 w)).map fun o => .opImm o (fRd w) (fRs1 w) (fImmI w)
  else if fOp w = 0b0110011#7 then
    (lookup RegOp.all RegOp.code (fF7 w, fF3 w)).map fun o => .op o (fRd w) (fRs1 w) (fRs2 w)
  else if fOp w = 0b0101111#7 then
    (lookup IndexKind.all IndexKind.code (fF7 w, fF3 w)).map fun k => .index k (fRd w) (fRs1 w) (fRs2 w)
  else if fOp w = 0b1110011#7 then
    if fF3 w = 0b000#3 then (lookup Priv.all Priv.word w).map .priv
    else (lookup CsrFn.all CsrFn.code ((fF3 w).extractLsb' 0 2)).map fun f =>
      .csr f ((fF3 w).getLsbD 2) (fRd w) (fRs1 w) (fImmI w)
  else if fOp w = 0b0001111#7 then
    if fF3 w = 0b000#3 then some (.fence false (fRd w) (fRs1 w) (fImmI w))
    else if fF3 w = 0b001#3 then some (.fence true (fRd w) (fRs1 w) (fImmI w))
    else none
  else none

end Fields

/-! ### Round trip -/

section Formats

variable (f7 op : BitVec 7) (rd rs1 rs2 : Reg) (f3 : BitVec 3) (imm off : BitVec 12) (wide : BitVec 20) (w : Word)

private theorem rType_fields : fOp (rType f7 rs2 rs1 f3 rd op) = op ∧ fRd (rType f7 rs2 rs1 f3 rd op) = rd ∧
    fF3 (rType f7 rs2 rs1 f3 rd op) = f3 ∧ fRs1 (rType f7 rs2 rs1 f3 rd op) = rs1 ∧
    fRs2 (rType f7 rs2 rs1 f3 rd op) = rs2 ∧ fF7 (rType f7 rs2 rs1 f3 rd op) = f7 := by
  unfold rType fOp fRd fF3 fRs1 fRs2 fF7
  refine ⟨?_, ?_, ?_, ?_, ?_, ?_⟩ <;> refine BitVec.eq_of_getLsbD_eq fun i hi => ?_
  all_goals simp only [BitVec.getLsbD_extractLsb', BitVec.getLsbD_append]
  all_goals interval_cases i <;> simp

private theorem iType_fields : fOp (iType imm rs1 f3 rd op) = op ∧ fRd (iType imm rs1 f3 rd op) = rd ∧
    fF3 (iType imm rs1 f3 rd op) = f3 ∧ fRs1 (iType imm rs1 f3 rd op) = rs1 ∧
      fImmI (iType imm rs1 f3 rd op) = imm := by
  unfold iType fOp fRd fF3 fRs1 fImmI
  refine ⟨?_, ?_, ?_, ?_, ?_⟩ <;> refine BitVec.eq_of_getLsbD_eq fun i hi => ?_
  all_goals simp only [BitVec.getLsbD_extractLsb', BitVec.getLsbD_append]
  all_goals interval_cases i <;> simp

private theorem sType_fields : fOp (sType imm rs2 rs1 f3 op) = op ∧ fF3 (sType imm rs2 rs1 f3 op) = f3 ∧
    fRs1 (sType imm rs2 rs1 f3 op) = rs1 ∧ fRs2 (sType imm rs2 rs1 f3 op) = rs2 ∧
      fImmS (sType imm rs2 rs1 f3 op) = imm := by
  unfold sType fOp fF3 fRs1 fRs2 fImmS
  refine ⟨?_, ?_, ?_, ?_, ?_⟩ <;> refine BitVec.eq_of_getLsbD_eq fun i hi => ?_
  all_goals simp only [BitVec.getLsbD_extractLsb', BitVec.getLsbD_append]
  all_goals interval_cases i <;> simp

private theorem bType_fields : fOp (bType off rs2 rs1 f3 op) = op ∧ fF3 (bType off rs2 rs1 f3 op) = f3 ∧
    fRs1 (bType off rs2 rs1 f3 op) = rs1 ∧ fRs2 (bType off rs2 rs1 f3 op) = rs2 ∧
      fOffB (bType off rs2 rs1 f3 op) = off := by
  unfold bType fOp fF3 fRs1 fRs2 fOffB
  refine ⟨?_, ?_, ?_, ?_, ?_⟩ <;> refine BitVec.eq_of_getLsbD_eq fun i hi => ?_
  all_goals simp only [BitVec.getLsbD_extractLsb', BitVec.getLsbD_append]
  all_goals interval_cases i <;> simp

private theorem uType_fields : fOp (uType wide rd op) = op ∧ fRd (uType wide rd op) = rd ∧
    fImmU (uType wide rd op) = wide := by
  unfold uType fOp fRd fImmU
  refine ⟨?_, ?_, ?_⟩ <;> refine BitVec.eq_of_getLsbD_eq fun i hi => ?_
  all_goals simp only [BitVec.getLsbD_extractLsb', BitVec.getLsbD_append]
  all_goals interval_cases i <;> simp

private theorem jType_fields : fOp (jType wide rd op) = op ∧ fRd (jType wide rd op) = rd ∧
    fOffJ (jType wide rd op) = wide := by
  unfold jType fOp fRd fOffJ
  refine ⟨?_, ?_, ?_⟩ <;> refine BitVec.eq_of_getLsbD_eq fun i hi => ?_
  all_goals simp only [BitVec.getLsbD_extractLsb', BitVec.getLsbD_append]
  all_goals interval_cases i <;> simp

theorem rType_self : rType (fF7 w) (fRs2 w) (fRs1 w) (fF3 w) (fRd w) (fOp w) = w := by
  unfold rType fOp fRd fF3 fRs1 fRs2 fF7
  refine BitVec.eq_of_getLsbD_eq fun i hi => ?_
  simp only [BitVec.getLsbD_extractLsb', BitVec.getLsbD_append]
  interval_cases i <;> simp

theorem iType_self : iType (fImmI w) (fRs1 w) (fF3 w) (fRd w) (fOp w) = w := by
  unfold iType fOp fRd fF3 fRs1 fImmI
  refine BitVec.eq_of_getLsbD_eq fun i hi => ?_
  simp only [BitVec.getLsbD_extractLsb', BitVec.getLsbD_append]
  interval_cases i <;> simp

theorem sType_self : sType (fImmS w) (fRs2 w) (fRs1 w) (fF3 w) (fOp w) = w := by
  unfold sType fOp fF3 fRs1 fRs2 fImmS
  refine BitVec.eq_of_getLsbD_eq fun i hi => ?_
  simp only [BitVec.getLsbD_extractLsb', BitVec.getLsbD_append]
  interval_cases i <;> simp

theorem bType_self : bType (fOffB w) (fRs2 w) (fRs1 w) (fF3 w) (fOp w) = w := by
  unfold bType fOp fF3 fRs1 fRs2 fOffB
  refine BitVec.eq_of_getLsbD_eq fun i hi => ?_
  simp only [BitVec.getLsbD_extractLsb', BitVec.getLsbD_append]
  interval_cases i <;> simp

theorem uType_self : uType (fImmU w) (fRd w) (fOp w) = w := by
  unfold uType fOp fRd fImmU
  refine BitVec.eq_of_getLsbD_eq fun i hi => ?_
  simp only [BitVec.getLsbD_extractLsb', BitVec.getLsbD_append]
  interval_cases i <;> simp

theorem jType_self : jType (fOffJ w) (fRd w) (fOp w) = w := by
  unfold jType fOp fRd fOffJ
  refine BitVec.eq_of_getLsbD_eq fun i hi => ?_
  simp only [BitVec.getLsbD_extractLsb', BitVec.getLsbD_append]
  interval_cases i <;> simp

end Formats

/-- A found operation has the code it was looked up by. -/
theorem map_lookup {α β γ : Type*} [DecidableEq β] {all : List α} {code : α → β} {b : β} {f : α → γ} {c : γ}
    (hall : ∀ a, a ∈ all) (hcode : Function.Injective code) :
    (lookup all code b).map f = some c ↔ ∃ a, code a = b ∧ f a = c := by
  rw [Option.map_eq_some_iff]
  constructor
  · rintro ⟨a, ha, hf⟩
    exact ⟨a, (lookup_iff hall hcode).mp ha, hf⟩
  · rintro ⟨a, ha, hf⟩
    exact ⟨a, (lookup_iff hall hcode).mpr ha, hf⟩

theorem decode_encode (i : Instr) : decode i.encode = some i := by
  cases i with
  | lui rd imm => simp [decode, Instr.encode, uType_fields]
  | auipc rd imm => simp [decode, Instr.encode, uType_fields]
  | jal rd off => simp [decode, Instr.encode, jType_fields]
  | jalr rd rs1 imm => simp [decode, Instr.encode, iType_fields]
  | branch c rs1 rs2 off =>
    have hl : lookup Cond.all Cond.f3 c.f3 = some c := (lookup_iff Cond.mem_all Cond.f3_injective).mpr rfl
    simp [decode, Instr.encode, bType_fields, hl]
  | load k rd rs1 imm =>
    have hl : lookup LoadKind.all LoadKind.f3 k.f3 = some k :=
      (lookup_iff LoadKind.mem_all LoadKind.f3_injective).mpr rfl
    simp [decode, Instr.encode, iType_fields, hl]
  | store k rs1 rs2 imm =>
    have hl : lookup StoreKind.all StoreKind.f3 k.f3 = some k :=
      (lookup_iff StoreKind.mem_all StoreKind.f3_injective).mpr rfl
    simp [decode, Instr.encode, sType_fields, hl]
  | opImm o rd rs1 imm =>
    have hl : lookup ImmOp.all ImmOp.f3 o.f3 = some o := (lookup_iff ImmOp.mem_all ImmOp.f3_injective).mpr rfl
    have hno : ¬(o.f3 = 0b001#3 ∨ o.f3 = 0b101#3) := by cases o <;> decide
    simp [decode, Instr.encode, iType_fields, hl, hno]
  | shiftImm o rd rs1 sh =>
    have hl : lookup ShiftOp.all ShiftOp.code (o.code.1, o.code.2) = some o :=
      (lookup_iff ShiftOp.mem_all ShiftOp.code_injective).mpr rfl
    have hyes : o.code.2 = 0b001#3 ∨ o.code.2 = 0b101#3 := by cases o <;> decide
    simp [decode, Instr.encode, rType_fields, hl, hyes]
  | op o rd rs1 rs2 =>
    have hl : lookup RegOp.all RegOp.code (o.code.1, o.code.2) = some o :=
      (lookup_iff RegOp.mem_all RegOp.code_injective).mpr rfl
    simp [decode, Instr.encode, rType_fields, hl]
  | index k rd rs1 rs2 =>
    have hl : lookup IndexKind.all IndexKind.code (k.code.1, k.code.2) = some k :=
      (lookup_iff IndexKind.mem_all IndexKind.code_injective).mpr rfl
    simp [decode, Instr.encode, rType_fields, hl]
  | csr f immediate rd src addr =>
    have hl : lookup CsrFn.all CsrFn.code f.code = some f := (lookup_iff CsrFn.mem_all CsrFn.code_injective).mpr rfl
    have hne : BitVec.ofBool immediate ++ f.code ≠ 0b000#3 := by cases immediate <;> cases f <;> decide
    have hlow : (BitVec.ofBool immediate ++ f.code).extractLsb' 0 2 = f.code := by
      cases immediate <;> cases f <;> decide
    have htop : (BitVec.ofBool immediate ++ f.code)[2] = immediate := by cases immediate <;> cases f <;> decide
    simp [decode, Instr.encode, iType_fields, hl, hne, hlow, htop]
  | fence i rd rs1 fields => cases i <;> simp [decode, Instr.encode, iType_fields]
  | priv o => cases o <;> decide

/-- The branch a decoded word took. -/
theorem ite_some {α : Type*} {c : Prop} [Decidable c] {x y : Option α} {a : α} (h : (if c then x else y) = some a) :
    c ∧ x = some a ∨ ¬c ∧ y = some a := by
  by_cases hc : c
  · rw [if_pos hc] at h
    exact .inl ⟨hc, h⟩
  · rw [if_neg hc] at h
    exact .inr ⟨hc, h⟩

private theorem encode_decode {w : Word} {i : Instr} (h : decode w = some i) : i.encode = w := by
  unfold decode at h
  rcases ite_some h with ⟨ho, h⟩ | ⟨-, h⟩
  · obtain rfl := Option.some.inj h
    rw [Instr.encode, ← ho, uType_self]
  rcases ite_some h with ⟨ho, h⟩ | ⟨-, h⟩
  · obtain rfl := Option.some.inj h
    rw [Instr.encode, ← ho, uType_self]
  rcases ite_some h with ⟨ho, h⟩ | ⟨-, h⟩
  · obtain rfl := Option.some.inj h
    rw [Instr.encode, ← ho, jType_self]
  rcases ite_some h with ⟨ho, h⟩ | ⟨-, h⟩
  · rcases ite_some h with ⟨h3, h⟩ | ⟨-, h⟩
    · obtain rfl := Option.some.inj h
      rw [Instr.encode, ← ho, ← h3, iType_self]
    · cases h
  rcases ite_some h with ⟨ho, h⟩ | ⟨-, h⟩
  · obtain ⟨c, hc, rfl⟩ := (map_lookup Cond.mem_all Cond.f3_injective).mp h
    rw [Instr.encode, ← ho, hc, bType_self]
  rcases ite_some h with ⟨ho, h⟩ | ⟨-, h⟩
  · obtain ⟨k, hk, rfl⟩ := (map_lookup LoadKind.mem_all LoadKind.f3_injective).mp h
    rw [Instr.encode, ← ho, hk, iType_self]
  rcases ite_some h with ⟨ho, h⟩ | ⟨-, h⟩
  · obtain ⟨k, hk, rfl⟩ := (map_lookup StoreKind.mem_all StoreKind.f3_injective).mp h
    rw [Instr.encode, ← ho, hk, sType_self]
  rcases ite_some h with ⟨ho, h⟩ | ⟨-, h⟩
  · rcases ite_some h with ⟨-, h⟩ | ⟨-, h⟩
    · obtain ⟨o, hc, rfl⟩ := (map_lookup ShiftOp.mem_all ShiftOp.code_injective).mp h
      rw [Instr.encode, ← ho, hc, rType_self]
    · obtain ⟨o, hc, rfl⟩ := (map_lookup ImmOp.mem_all ImmOp.f3_injective).mp h
      rw [Instr.encode, ← ho, hc, iType_self]
  rcases ite_some h with ⟨ho, h⟩ | ⟨-, h⟩
  · obtain ⟨o, hc, rfl⟩ := (map_lookup RegOp.mem_all RegOp.code_injective).mp h
    rw [Instr.encode, ← ho, hc, rType_self]
  rcases ite_some h with ⟨ho, h⟩ | ⟨-, h⟩
  · obtain ⟨k, hc, rfl⟩ := (map_lookup IndexKind.mem_all IndexKind.code_injective).mp h
    rw [Instr.encode, ← ho, hc, rType_self]
  rcases ite_some h with ⟨ho, h⟩ | ⟨-, h⟩
  · rcases ite_some h with ⟨-, h⟩ | ⟨-, h⟩
    · obtain ⟨o, hc, rfl⟩ := (map_lookup Priv.mem_all Priv.word_injective).mp h
      exact hc
    · obtain ⟨f, hc, rfl⟩ := (map_lookup CsrFn.mem_all CsrFn.code_injective).mp h
      have h3 : BitVec.ofBool ((fF3 w).getLsbD 2) ++ f.code = fF3 w := by
        rw [hc]
        generalize fF3 w = x
        revert x
        decide
      rw [Instr.encode, h3, ← ho, iType_self]
  rcases ite_some h with ⟨ho, h⟩ | ⟨-, h⟩
  · rcases ite_some h with ⟨h3, h⟩ | ⟨-, h⟩
    · obtain rfl := Option.some.inj h
      rw [Instr.encode, ← ho]
      change iType (fImmI w) (fRs1 w) 0b000#3 (fRd w) (fOp w) = w
      rw [← h3, iType_self]
    rcases ite_some h with ⟨h3, h⟩ | ⟨-, h⟩
    · obtain rfl := Option.some.inj h
      rw [Instr.encode, ← ho]
      change iType (fImmI w) (fRs1 w) 0b001#3 (fRd w) (fOp w) = w
      rw [← h3, iType_self]
    · cases h
  · cases h

/-- A word decodes to an instruction exactly if it is its encoding. -/
theorem decode_iff {w : Word} {i : Instr} : decode w = some i ↔ i.encode = w := by
  constructor
  · exact encode_decode
  · rintro rfl
    exact decode_encode i

end Yarv.Isa
