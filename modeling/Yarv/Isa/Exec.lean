import Yarv.Isa.Compressed
import Yarv.World

/-!
# The instruction set machine

The meaning of the instructions, from the decoder's point of view of nothing: `exec` works on instructions, with
integer arithmetic where the instruction set speaks of signed and unsigned numbers.  A machine is given by a
`Decoder`, the instructions it finds in words and halfwords; `standard` is the one of the instruction set.
-/

namespace Yarv.Isa

open ByteMem

/-! ### Operations -/

def Cond.holds (x y : Word) : Cond → Bool
  | .eq => x == y
  | .ne => x != y
  | .lt => decide (x.toInt < y.toInt)
  | .ge => decide (y.toInt ≤ x.toInt)
  | .ltu => decide (x.toNat < y.toNat)
  | .geu => decide (y.toNat ≤ x.toNat)

def ImmOp.eval (x y : Word) : ImmOp → Word
  | .addi => x + y
  | .slti => if x.toInt < y.toInt then 1 else 0
  | .sltiu => if x.toNat < y.toNat then 1 else 0
  | .xori => x ^^^ y
  | .ori => x ||| y
  | .andi => x &&& y

def ShiftOp.eval (x : Word) (n : Nat) : ShiftOp → Word
  | .slli => x <<< n
  | .srli => x >>> n
  | .srai => x.sshiftRight n

/-- A quotient by zero is all ones, a remainder by zero is the dividend; the one quotient that overflows wraps. -/
def RegOp.eval (x y : Word) : RegOp → Word
  | .add => x + y
  | .sub => x - y
  | .sll => x <<< (y.toNat % 32)
  | .slt => if x.toInt < y.toInt then 1 else 0
  | .sltu => if x.toNat < y.toNat then 1 else 0
  | .xor => x ^^^ y
  | .srl => x >>> (y.toNat % 32)
  | .sra => x.sshiftRight (y.toNat % 32)
  | .or => x ||| y
  | .and => x &&& y
  | .mul => BitVec.ofInt 32 (x.toInt * y.toInt)
  | .mulh => BitVec.ofInt 32 (x.toInt * y.toInt / 2 ^ 32)
  | .mulhsu => BitVec.ofInt 32 (x.toInt * y.toNat / 2 ^ 32)
  | .mulhu => BitVec.ofNat 32 (x.toNat * y.toNat / 2 ^ 32)
  | .div => if y = 0 then -1 else BitVec.ofInt 32 (x.toInt.tdiv y.toInt)
  | .divu => if y = 0 then -1 else BitVec.ofNat 32 (x.toNat / y.toNat)
  | .rem => if y = 0 then x else BitVec.ofInt 32 (x.toInt.tmod y.toInt)
  | .remu => if y = 0 then x else BitVec.ofNat 32 (x.toNat % y.toNat)

def CsrFn.written (old v : Word) : CsrFn → Word
  | .rw => v
  | .rs => old ||| v
  | .rc => old &&& ~~~v

/-! ### Instructions -/

/-- What an instruction does that does not trap. -/
structure Effect where
  pc : Word
  reg : Option (Reg × Word)
  csr : BitVec 12 → Word
  mem : Nat → BitVec 8
  access : Option (Bool × BusReq)

/-- The cause and the value of a trap. -/
abbrev Report := Word × Word

section Exec

variable (p : Params) (a : Arch) (o : Outside) (link : Word)

/-- The offset of a jump or a branch in bytes. -/
def byteOff {n : Nat} (off : BitVec n) : Word := (off ++ 0#1).signExtend 32

/-- The PC moves to `n`. -/
def goto (n : Word) : Effect where
  pc := n
  reg := none
  csr := a.csr
  mem := a.mem
  access := none

/-- `v` goes to `rd`. -/
def write (rd : Reg) (v : Word) : Effect := { goto a link with reg := some (rd, v) }

/-- The load from `addr` into `rd`. -/
def load (k : LoadKind) (rd : Reg) (addr : Word) : Except Report Effect :=
  if k.size.Aligned addr then
    .ok
      { write a link rd
          (if addr.getLsbD periAddrBit then portValue o.peri addr k.size k.unsigned
          else loadValue a.mem (p.dmemByte addr) k.size k.unsigned) with
        access := some (addr.getLsbD periAddrBit, ⟨false, addr, 0, 0⟩) }
  else .error (mcauseLadMis, addr)

/-- The store of `v` to `addr`. -/
def store (k : StoreKind) (addr v : Word) : Except Report Effect :=
  if k.size.Aligned addr then
    .ok
      { goto a link with
        mem := if addr.getLsbD periAddrBit then a.mem else put a.mem (p.dmemByte addr) k.size.bytes v
        access :=
          some (addr.getLsbD periAddrBit,
            ⟨true, addr, v <<< (8 * (addr.toNat % 4)),
              BitVec.ofNat 4 ((2 ^ k.size.bytes - 1) * 2 ^ (addr.toNat % 4))⟩) }
  else .error (mcauseSadMis, addr)

/-- The CSRs behind a write: the writable bits of an implemented one. -/
def csrWrite (addr : BitVec 12) (v : Word) : BitVec 12 → Word :=
  if Stable addr then
    Function.update a.csr addr ((v &&& csrMask addr) ||| (a.csr addr &&& ~~~csrMask addr))
  else a.csr

/-- The read-modify-write of a CSR; setting and clearing with `x0` or a zero immediate does not write.  A CSR that
does not exist is no reason to trap, as `csr_regfile` documents it: it reads 0 and ignores the write. -/
def csrAccess (f : CsrFn) (immediate : Bool) (rd src : Reg) (addr : BitVec 12) : Effect :=
  { write a link rd (a.readCsr o addr) with
    csr :=
      if f = .rw ∨ src ≠ 0 then
        csrWrite a addr (f.written (a.csr addr) (if immediate then src.setWidth 32 else a.regs.read src))
      else a.csr }

/-- The return from a handler. -/
def mret : Effect :=
  { goto a (a.csr csrAddrMepc) with
    csr := Function.update a.csr csrAddrMstatus
      (TrapUnit.setMstatus (a.csr csrAddrMstatus) true ((a.csr csrAddrMstatus).getLsbD 7)) }

/-- An instruction at the PC, with the address of the next one. -/
def exec : Instr → Except Report Effect
  | .lui rd imm => .ok (write a link rd (imm ++ 0#12))
  | .auipc rd imm => .ok (write a link rd (a.pc + (imm ++ 0#12)))
  | .jal rd off => .ok { write a link rd link with pc := a.pc + byteOff off }
  | .jalr rd rs1 imm => .ok { write a link rd link with pc := (a.regs.read rs1 + imm.signExtend 32) &&& ~~~1#32 }
  | .branch c rs1 rs2 off =>
    .ok (goto a (if c.holds (a.regs.read rs1) (a.regs.read rs2) then a.pc + byteOff off else link))
  | .load k rd rs1 imm => load p a o link k rd (a.regs.read rs1 + imm.signExtend 32)
  | .store k rs1 rs2 imm => store p a link k (a.regs.read rs1 + imm.signExtend 32) (a.regs.read rs2)
  | .opImm op rd rs1 imm => .ok (write a link rd (op.eval (a.regs.read rs1) (imm.signExtend 32)))
  | .shiftImm op rd rs1 sh => .ok (write a link rd (op.eval (a.regs.read rs1) sh.toNat))
  | .op op rd rs1 rs2 => .ok (write a link rd (op.eval (a.regs.read rs1) (a.regs.read rs2)))
  -- The base is in `rs2`, the index in `rs1`.
  | .index k rd rs1 rs2 => load p a o link k.load rd (a.regs.read rs2 + a.regs.read rs1 <<< k.shamt)
  | .csr f immediate rd src addr => .ok (csrAccess a o link f immediate rd src addr)
  | .fence _ _ _ _ => .ok (goto a link)
  | .priv .ecall => .error (mcauseEcallM, 0)
  | .priv .ebreak => .error (mcauseBreakpoint, 0)
  | .priv .wfi => .ok (goto a link)
  | .priv .mret => .ok (mret a)

end Exec

/-! ### Fetch -/

/-- What stands at an address. -/
inductive Fetched
  | fault (addr : Word)
  | half (c : BitVec 16)
  | word (w : Word)
  deriving DecidableEq

/-- The instruction at an even address. -/
def fetch (p : Params) (img : Nat → BitVec 64) (pc : Word) : Fetched :=
  if 2 ^ p.imemAddrW ≤ pc.toNat then .fault pc
  else if (imgHalf img pc.toNat).extractLsb' 0 2 ≠ 0b11#2 then .half (imgHalf img pc.toNat)
  else if 2 ^ p.imemAddrW ≤ (pc + 2).toNat then .fault (pc + 2)
  else .word (imgWord img pc.toNat)

/-- The instructions a machine finds in words and halfwords. -/
structure Decoder where
  word : Word → Option Instr
  half : BitVec 16 → Option Instr

/-- The decoder of the instruction set. -/
def standard : Decoder where
  word := decode
  half := fun c => (decodeRvc c).map Rvc.expand

namespace Fetched

/-- The instruction, or the trap for want of one. -/
def instr (D : Decoder) : Fetched → Except Report Instr
  | fault addr => .error (mcauseInstrAcc, addr)
  | half c =>
    match D.half c with
    | some i => .ok i
    | none => .error (mcauseIllegal, 0)
  | word w =>
    match D.word w with
    | some i => .ok i
    | none => .error (mcauseIllegal, w)

/-- The length of an instruction in bytes. -/
def bytes : Fetched → Word
  | half _ => 2
  | _ => 4

/-- The word a commit shows: a compressed instruction shows the one it abbreviates. -/
def shown (i : Instr) : Fetched → Word
  | word w => w
  | _ => i.encode

end Fetched

/-! ### The machine -/

section Machine

variable (D : Decoder) (p : Params) (img : Nat → BitVec 64) (a : Arch) (o : Outside)

/-- The instruction at the PC and what it does. -/
def outcome : Except Report (Instr × Effect) :=
  match (fetch p img a.pc).instr D with
  | .error e => .error e
  | .ok i => (exec p a o (a.pc + (fetch p img a.pc).bytes) i).map fun e => (i, e)

/-- The state behind an instruction. -/
def Effect.apply (a : Arch) (e : Effect) : Arch where
  pc := e.pc
  regs :=
    match e.reg with
    | some (rd, v) => a.regs.next true rd v
    | none => a.regs
  csr := e.csr
  mem := e.mem

/-- The state behind a trap. -/
def trapped (r : Report) : Arch := { a with pc := a.csr csrAddrMtvec &&& ~~~3#32, csr := a.csrTrap r }

/-- One step: an interrupt, a trap or an instruction. -/
def step : Arch :=
  match o.irq with
  | some b => a.interrupted b
  | none =>
    match outcome D p img a o with
    | .error r => trapped a r
    | .ok x => x.2.apply a

/-- What a step shows. -/
def event : Event :=
  match o.irq with
  | some b => .interrupt a.pc (Arch.irqCause b)
  | none =>
    match outcome D p img a o with
    | .error r => .trap a.pc r.1 r.2
    | .ok x => .commit ⟨a.pc, (fetch p img a.pc).shown x.1, x.2.reg, x.2.access⟩

/-- The state behind a list of steps. -/
abbrev after (l : List Outside) : Arch := l.foldl (step D p img) a

/-- What they show. -/
abbrev events (l : List Outside) : List Event := Clocked.shownOn (event D p img) (step D p img) a l

end Machine

end Yarv.Isa
