import Yarv.Interp

/-!
# The interpreter and its surroundings

The interpreter for every program.  Three things come from outside at each step: the interrupt that is taken in front
of the instruction, the word a peripheral answers to a load, and the value of a CSR that changes on its own.
-/

namespace Yarv

open Clocked ExecuteStage

/-- What a step takes from outside. -/
structure Outside where
  irq : Option Nat
  peri : Word
  csr : Word
  deriving DecidableEq

/-- The CSRs that change on their own. -/
def Volatile (b : BitVec 12) : Prop := b = csrAddrMip ∨ b = csrAddrMcycle ∨ b = csrAddrMinstret

instance (b : BitVec 12) : Decidable (Volatile b) := inferInstanceAs (Decidable (_ ∨ _))

/-- The implemented CSRs that only instructions and entries change. -/
def Stable (b : BitVec 12) : Prop :=
  b = csrAddrMstatus ∨ b = csrAddrMisa ∨ b = csrAddrMie ∨ b = csrAddrMtvec ∨ b = csrAddrMscratch ∨ b = csrAddrMepc ∨
    b = csrAddrMcause ∨ b = csrAddrMtval

instance (b : BitVec 12) : Decidable (Stable b) := inferInstanceAs (Decidable (_ ∨ _))

/-- What a load from `a` makes of the word its port answers. -/
def portValue (x a : Word) (z : MemSize) (u : Bool) : Word :=
  match z with
  | .b =>
    if u then ((x >>> (8 * (a.toNat % 4))).extractLsb' 0 8).setWidth 32
    else ((x >>> (8 * (a.toNat % 4))).extractLsb' 0 8).signExtend 32
  | .h =>
    if u then ((x >>> (8 * (a.toNat % 4))).extractLsb' 0 16).setWidth 32
    else ((x >>> (8 * (a.toNat % 4))).extractLsb' 0 16).signExtend 32
  | .w => x

/-- A committed instruction: its address, its word, the register it writes, and its access with the port it goes
to. -/
structure Committed where
  pc : Word
  instr : Word
  reg : Option (BitVec 5 × Word)
  access : Option (Bool × BusReq)
  deriving DecidableEq

/-- What a step shows. -/
inductive Event
  | commit (c : Committed)
  | trap (pc cause tval : Word)
  | interrupt (pc cause : Word)
  deriving DecidableEq

/-- The request of an event on a port. -/
def Event.request (peri : Bool) : Event → Option BusReq
  | .commit c => (c.access.filter (·.1 == peri)).map Prod.snd
  | _ => none

/-- The access of an instruction. -/
def De.access (d : De) : Option (Bool × BusReq) :=
  if d.memRead || d.memWrite then some (d.toPeri, d.request) else none

namespace Arch

variable (p : Params) (img : Nat → BitVec 64) (a : Arch) (o : Outside)

/-- The value a CSR read returns. -/
def readCsr (b : BitVec 12) : Word := if Volatile b then o.csr else a.csr b

/-- The value an instruction writes back. -/
def resultOn (d : De) : Word :=
  match d.wbSrc with
  | .alu => d.aluOp.eval d.memShamt (operandA (ofDe d)) (operandB (ofDe d))
  | .pc4 => pcLink (ofDe d)
  | .mem =>
    if d.toPeri then portValue o.peri (effAddr d) d.memSize d.memUnsigned
    else loadValue a.mem (p.dmemByte (effAddr d)) d.memSize d.memUnsigned
  | .csr => a.readCsr o d.csrAddr

/-- The CSRs behind an instruction. -/
def csrOn (d : De) : BitVec 12 → Word :=
  if d.sysOp = .mret then
    Function.update a.csr csrAddrMstatus
      (TrapUnit.setMstatus (a.csr csrAddrMstatus) true ((a.csr csrAddrMstatus).getLsbD 7))
  else if d.csrWren = true ∧ Stable d.csrAddr then
    Function.update a.csr d.csrAddr
      (mergeCsr (csrMask d.csrAddr) (d.csrOp.written (a.csr d.csrAddr) (csrSrc (ofDe d))) (a.csr d.csrAddr))
  else a.csr

/-- The bytes of the D-mem behind an instruction. -/
def memOn (d : De) : Nat → BitVec 8 := if d.toPeri then a.mem else d.storeTo p a.mem

/-- An instruction that commits. -/
def retireOn (d : De) : Arch where
  pc := nextPc d (a.csr csrAddrMepc)
  regs := a.regs.next d.regWrite d.rd (a.resultOn p o d)
  csr := a.csrOn d
  mem := a.memOn p d

/-- The cause of the interrupt with code `b`. -/
def irqCause (b : Nat) : Word := 0x80000000#32 + BitVec.ofNat 32 b

/-- The handler of the interrupt with code `b`: the base of `mtvec`, and in vectored mode four times the code above
it. -/
def irqVector (b : Nat) : Word :=
  (a.csr csrAddrMtvec &&& ~~~3#32) +
    if (a.csr csrAddrMtvec).extractLsb' 0 2 = 1 then BitVec.ofNat 32 (4 * b) else 0

/-- An interrupt: the position is saved, the handler entered. -/
def interrupted (b : Nat) : Arch :=
  { a with pc := a.irqVector b, csr := a.csrTrap (irqCause b, 0) }

/-- The interrupt is one of the machine and enabled, globally and by itself. -/
def Allows : Prop :=
  ∀ b, o.irq = some b → (b = 3 ∨ b = 7 ∨ b = 11) ∧ (a.csr csrAddrMstatus).getLsbD 3 = true ∧
    (a.csr csrAddrMie).getLsbD b = true

/-- One step. -/
def stepOn : Arch :=
  match o.irq with
  | some b => a.interrupted b
  | none => if (a.word p img).traps then a.enter (a.word p img) else a.retireOn p o (a.word p img)

/-- What the commit of an instruction shows. -/
def commitOn (d : De) : Committed where
  pc := d.pc
  instr := d.instr
  reg := if d.regWrite then some (d.rd, a.resultOn p o d) else none
  access := d.access

/-- What a step shows. -/
def eventOn : Event :=
  match o.irq with
  | some b => .interrupt a.pc (irqCause b)
  | none =>
    if (a.word p img).traps then
      .trap a.pc (Core.syncReport (a.word p img)).1 (Core.syncReport (a.word p img)).2
    else .commit (a.commitOn p o (a.word p img))

/-- The state behind a list of steps. -/
abbrev after (l : List Outside) : Arch := l.foldl (stepOn p img) a

/-- What they show. -/
abbrev events (l : List Outside) : List Event := shownOn (eventOn p img) (stepOn p img) a l

/-- The system operation at the PC. -/
theorem word_sysOp {a a' : Arch} (h : a.pc = a'.pc) : (a.word p img).sysOp = (a'.word p img).sysOp := by
  change (opcodeTree (itemAt p img a.pc).src.instr32).sysOp = (opcodeTree (itemAt p img a'.pc).src.instr32).sysOp
  rw [h]

/-- The state at the instruction behind the one at the PC. -/
def passed : Arch := { a with pc := pcLink (ofDe (a.word p img)) }

/-- The instruction does not span the end of the I-mem, an `mret` returns to an even address, and a WFI is not
followed by a WFI. -/
structure Regular : Prop where
  span : ¬SpanFault p img a.pc
  mret : (a.word p img).sysOp = .mret → (a.csr csrAddrMepc).getLsbD 0 = false
  wfi : (a.word p img).sysOp = .wfi → ((a.passed p img).word p img).sysOp ≠ .wfi

instance : Decidable (a.Regular p img) :=
  decidable_of_iff
    (¬(FetchStage.outOfImem p a.pc = false ∧ a.pc.getLsbD 1 = true ∧ isRvc (halfAt img a.pc) = false ∧
        FetchStage.outOfImem p (spanPc a.pc) = true) ∧
      ((a.word p img).sysOp = .mret → (a.csr csrAddrMepc).getLsbD 0 = false) ∧
      ((a.word p img).sysOp = .wfi → ((a.passed p img).word p img).sysOp ≠ .wfi))
    ⟨fun h => ⟨fun hs => h.1 ⟨hs.inside, hs.upper, hs.long, hs.outside⟩, h.2.1, h.2.2⟩,
      fun h => ⟨fun hs => h.span ⟨hs.1, hs.2.1, hs.2.2.1, hs.2.2.2⟩, h.mret, h.wfi⟩⟩

end Arch

end Yarv
