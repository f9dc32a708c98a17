import Yarv.CsrFacts
import Yarv.DataMem

/-!
# The interpreter

What the hart is for, one instruction at a time: take the item at the PC, decode it, read the source registers, trap
or apply the operation, and move on.  The state holds what software sees: the PC, the registers, the CSRs by address
and the bytes of the D-mem.
-/

namespace Yarv

open Clocked FetchStage ExecuteStage

/-- The architectural state. -/
structure Arch where
  pc : Word
  regs : RegFile
  csr : BitVec 12 → Word
  mem : Nat → BitVec 8

/-- A committed instruction: its address, its word, the register it writes and its store. -/
structure Retired where
  pc : Word
  instr : Word
  reg : Option (BitVec 5 × Word)
  store : Option BusReq
  deriving DecidableEq

/-- The D/E word without its prediction. -/
def De.unpredicted (d : De) : De :=
  { d with predValid := false, predTaken := false, predTarget := 0, predPhtIndex := 0 }

/-- The access leaves its size alignment. -/
def De.misaligned (d : De) : Bool := (d.memRead || d.memWrite) && !decide (d.memSize.Aligned (effAddr d))

/-- The instruction traps instead of committing. -/
def De.traps (d : De) : Bool := d.exception || d.misaligned

namespace Arch

/-- The state behind a reset at `boot`. -/
def reset (boot : Word) (rf : RegFile) (mem : Nat → BitVec 8) : Arch where
  pc := boot
  regs := rf
  csr := Csrs.reset.read
  mem := mem

variable (p : Params) (img : Nat → BitVec 64) (a : Arch)

/-- The decoded instruction at the PC with its operands. -/
def word : De :=
  (itemAt p img a.pc).de (a.regs.read (rs1AddrDec (itemAt p img a.pc).src.instr32))
    (a.regs.read (rs2AddrDec (itemAt p img a.pc).src.instr32)) ⟨false, false, 0, 0⟩

/-- The value an instruction writes back. -/
def result (d : De) : Word :=
  match d.wbSrc with
  | .alu => d.aluOp.eval d.memShamt (operandA (ofDe d)) (operandB (ofDe d))
  | .pc4 => pcLink (ofDe d)
  | .mem => loadValue a.mem (p.dmemByte (effAddr d)) d.memSize d.memUnsigned
  | .csr => a.csr d.csrAddr

/-- The CSRs behind a trap with its cause and value. -/
def csrTrap (report : Word × Word) : BitVec 12 → Word :=
  Function.update
    (Function.update (Function.update (Function.update a.csr csrAddrMepc a.pc) csrAddrMcause report.1)
      csrAddrMtval report.2)
    csrAddrMstatus (TrapUnit.setMstatus (a.csr csrAddrMstatus) ((a.csr csrAddrMstatus).getLsbD 3) false)

/-- The CSRs behind an instruction. -/
def csrNext (d : De) : BitVec 12 → Word :=
  if d.sysOp = .mret then
    Function.update a.csr csrAddrMstatus
      (TrapUnit.setMstatus (a.csr csrAddrMstatus) true ((a.csr csrAddrMstatus).getLsbD 7))
  else if d.csrWren = true ∧ d.csrAddr ∈ plainCsrs then
    Function.update a.csr d.csrAddr
      (mergeCsr (csrMask d.csrAddr) (d.csrOp.written (a.csr d.csrAddr) (csrSrc (ofDe d))) (a.csr d.csrAddr))
  else a.csr

/-- A trap: the position is saved, the handler entered. -/
def enter (d : De) : Arch :=
  { a with pc := a.csr csrAddrMtvec &&& ~~~3#32, csr := a.csrTrap (Core.syncReport d) }

/-- An instruction that commits. -/
def retire (d : De) : Arch where
  pc := nextPc d (a.csr csrAddrMepc)
  regs := a.regs.next d.regWrite d.rd (a.result p d)
  csr := a.csrNext d
  mem := d.storeTo p a.mem

/-- One instruction. -/
def step (_ : Unit) : Arch :=
  if (a.word p img).traps then a.enter (a.word p img) else a.retire p (a.word p img)

/-- What an instruction shows when it commits. -/
def shown (d : De) : Retired where
  pc := d.pc
  instr := d.instr
  reg := if d.regWrite then some (d.rd, a.result p d) else none
  store := if d.memWrite then some d.request else none

/-- The commit of a step. -/
def event (_ : Unit) : Option Retired :=
  if (a.word p img).traps then none else some (a.shown p (a.word p img))

/-- The state after `k` instructions. -/
abbrev run (k : Nat) : Arch := trace (step p img) a (fun _ => ()) k

/-- What the first `k` instructions have committed. -/
abbrev commits (k : Nat) : List Retired := logFrom (event p img) (step p img) a (fun _ => ()) 0 k

/-- The programs the interpreter speaks for: they access the D-mem only and leave the two counters alone. -/
structure InScope : Prop where
  dmem : ((a.word p img).memRead || (a.word p img).memWrite) = true → (a.word p img).toPeri = false
  counters : (a.word p img).csrWren = true →
    (a.word p img).csrAddr ≠ csrAddrMcycle ∧ (a.word p img).csrAddr ≠ csrAddrMinstret

/-- The instruction does not span the end of the I-mem, and an `mret` returns to an even address. -/
structure Sound : Prop where
  span : ¬SpanFault p img a.pc
  mret : (a.word p img).sysOp = .mret → (a.csr csrAddrMepc).getLsbD 0 = false

instance : Decidable (a.InScope p img) :=
  decidable_of_iff
    ((((a.word p img).memRead || (a.word p img).memWrite) = true → (a.word p img).toPeri = false) ∧
      ((a.word p img).csrWren = true →
        (a.word p img).csrAddr ≠ csrAddrMcycle ∧ (a.word p img).csrAddr ≠ csrAddrMinstret))
    ⟨fun h => ⟨h.1, h.2⟩, fun h => ⟨h.dmem, h.counters⟩⟩

instance : Decidable (a.Sound p img) :=
  decidable_of_iff
    (¬(outOfImem p a.pc = false ∧ a.pc.getLsbD 1 = true ∧ isRvc (halfAt img a.pc) = false ∧
        outOfImem p (spanPc a.pc) = true) ∧
      ((a.word p img).sysOp = .mret → (a.csr csrAddrMepc).getLsbD 0 = false))
    ⟨fun h => ⟨fun hs => h.1 ⟨hs.inside, hs.upper, hs.long, hs.outside⟩, h.2⟩,
      fun h => ⟨fun hs => h.span ⟨hs.1, hs.2.1, hs.2.2.1, hs.2.2.2⟩, h.mret⟩⟩

end Arch

end Yarv
