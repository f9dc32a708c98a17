import Yarv.Pkg

/-!
# `csr_regfile`, `trap_unit` and `reg_file`

The machine-mode CSR file with its two write ports, the combinational trap unit that computes the redirect target and
the CSR trap-write bundle, and the general register file.

The eleven entries of `regs` carry the names the source gives them in its comments and in `csr_addr_t`.
-/

namespace Yarv

/-! ### CSR addresses -/

def csrAddrMstatus : BitVec 12 := 0x300
def csrAddrMisa : BitVec 12 := 0x301
def csrAddrMie : BitVec 12 := 0x304
def csrAddrMtvec : BitVec 12 := 0x305
def csrAddrMscratch : BitVec 12 := 0x340
def csrAddrMepc : BitVec 12 := 0x341
def csrAddrMcause : BitVec 12 := 0x342
def csrAddrMtval : BitVec 12 := 0x343
def csrAddrMip : BitVec 12 := 0x344
def csrAddrMcycle : BitVec 12 := 0xB00
def csrAddrMinstret : BitVec 12 := 0xB02

/-! ### Trap unit -/

/-- The CSR taps of the trap unit. -/
structure TrapTaps where
  mtvec : Word
  mepc : Word
  mstatus : Word
  mip : Word
  mie : Word
  deriving DecidableEq, Repr

/-- The triggers and the payload execute resolves. -/
structure TrapIn where
  takeTrap : Bool
  takeInterrupt : Bool
  mret : Bool
  cause : Word
  tval : Word
  pc : Word
  deriving DecidableEq, Repr

/-- The CSR trap-write bundle; `entry` enables the first three writes, `mstatusWe` the last. -/
structure TrapBundle where
  weMepc : Bool
  dMepc : Word
  weMcause : Bool
  dMcause : Word
  weMtval : Bool
  dMtval : Word
  weMstatus : Bool
  dMstatus : Word
  deriving DecidableEq, Repr

namespace TrapUnit

variable (t : TrapTaps) (i : TrapIn)

def msiPending : Bool := t.mip.getLsbD 3 && t.mie.getLsbD 3

def mtiPending : Bool := t.mip.getLsbD 7 && t.mie.getLsbD 7

def meiPending : Bool := t.mip.getLsbD 11 && t.mie.getLsbD 11

/-- `int_pending_o`. -/
def intPending : Bool := t.mstatus.getLsbD 3 && (meiPending t || msiPending t || mtiPending t)

/-- `int_cause_o`. -/
def intCause : Word := if meiPending t then mcauseMei else if msiPending t then mcauseMsi else mcauseMti

/-- `{mtvec[31:2], 2'b00}`. -/
def mtvecBase : Word := t.mtvec.extractLsb' 2 30 ++ 0#2

def isVectored : Bool := t.mtvec.extractLsb' 0 2 == 0b01#2

/-- `{26'b0, cause_i[5:0], 2'b00}`, cut to the 32 bits of the wire. -/
def intOffset : Word := (0#26 ++ i.cause.extractLsb' 0 6 ++ 0#2).setWidth 32

def vecTarget : Word := mtvecBase t + intOffset i

def trapTarget : Word := if i.takeInterrupt && isVectored t then vecTarget t i else mtvecBase t

def redirectValid : Bool := i.takeTrap || i.takeInterrupt || i.mret

def redirectAddr : Word := if i.mret then t.mepc else trapTarget t i

def entry : Bool := i.takeTrap || i.takeInterrupt

/-- `w` with bit 7, bit 3 and the two MPP bits replaced. -/
def setMstatus (w : Word) (mpie mie : Bool) : Word :=
  w.extractLsb' 13 19 ++ 0b11#2 ++ w.extractLsb' 8 3 ++ BitVec.ofBool mpie ++ w.extractLsb' 4 3 ++
    BitVec.ofBool mie ++ w.extractLsb' 0 3

def mstatusNew : Word :=
  if entry i then setMstatus t.mstatus (t.mstatus.getLsbD 3) false
  else if i.mret then setMstatus t.mstatus true (t.mstatus.getLsbD 7)
  else t.mstatus

/-- The `csr_we_*_o` and `csr_d_*_o` outputs. -/
def bundle : TrapBundle where
  weMepc := entry i
  dMepc := i.pc
  weMcause := entry i
  dMcause := i.cause
  weMtval := entry i
  dMtval := i.tval
  weMstatus := i.takeTrap || i.takeInterrupt || i.mret
  dMstatus := mstatusNew t i

end TrapUnit

/-! ### CSR file -/

/-- The implemented CSRs. -/
structure Csrs where
  mstatus : Word
  misa : Word
  mie : Word
  mtvec : Word
  mscratch : Word
  mepc : Word
  mcause : Word
  mtval : Word
  mip : Word
  mcycle : Word
  minstret : Word
  deriving DecidableEq, Repr

/-- The reset values. -/
def Csrs.reset : Csrs where
  mstatus := 0x00001800
  misa := 0x40002105
  mie := 0
  mtvec := 0
  mscratch := 0
  mepc := 0
  mcause := 0
  mtval := 0
  mip := 0
  mcycle := 0
  minstret := 0

/-- The `case (csr_addr_i)` of the read port. -/
def Csrs.read (r : Csrs) (a : BitVec 12) : Word :=
  if a = csrAddrMstatus then r.mstatus
  else if a = csrAddrMisa then r.misa
  else if a = csrAddrMie then r.mie
  else if a = csrAddrMtvec then r.mtvec
  else if a = csrAddrMscratch then r.mscratch
  else if a = csrAddrMepc then r.mepc
  else if a = csrAddrMcause then r.mcause
  else if a = csrAddrMtval then r.mtval
  else if a = csrAddrMip then r.mip
  else if a = csrAddrMcycle then r.mcycle
  else if a = csrAddrMinstret then r.minstret
  else 0

/-- The taps the trap unit reads. -/
def Csrs.taps (r : Csrs) : TrapTaps where
  mtvec := r.mtvec
  mepc := r.mepc
  mstatus := r.mstatus
  mip := r.mip
  mie := r.mie

/-- The flops of `csr_regfile`: the registers and the registered read. -/
structure CsrRegfile where
  regs : Csrs
  csrRdataQ : Word
  deriving DecidableEq, Repr

/-- The inputs of `csr_regfile`. -/
structure CsrIn where
  csrAddr : BitVec 12
  csrWren : Bool
  csrData : Word
  trap : TrapBundle
  msip : Bool
  mtip : Bool
  meip : Bool
  instrRetire : Bool

namespace CsrRegfile

variable (q : CsrRegfile) (i : CsrIn)

/-- The RMW port writes this CSR. -/
def wr (a : BitVec 12) : Bool := i.csrWren && i.csrAddr == a

def mstatusD : Word :=
  if i.trap.weMstatus then i.trap.dMstatus
  else if wr i csrAddrMstatus then i.csrData.extractLsb' 13 19 ++ 0b11#2 ++ i.csrData.extractLsb' 0 11
  else q.regs.mstatus

def mtvecD : Word :=
  if wr i csrAddrMtvec then i.csrData.extractLsb' 2 30 ++ 0#1 ++ i.csrData.extractLsb' 0 1 else q.regs.mtvec

/-- `mip`: bits 3, 7 and 11 track the sources, the other bits are written by the RMW port. -/
def mipD : Word :=
  let w := if wr i csrAddrMip then i.csrData else q.regs.mip
  w.extractLsb' 12 20 ++ BitVec.ofBool i.meip ++ w.extractLsb' 8 3 ++ BitVec.ofBool i.mtip ++ w.extractLsb' 4 3 ++
    BitVec.ofBool i.msip ++ w.extractLsb' 0 3

def regsD : Csrs where
  mstatus := mstatusD q i
  misa := q.regs.misa
  mie := if wr i csrAddrMie then i.csrData else q.regs.mie
  mtvec := mtvecD q i
  mscratch := if wr i csrAddrMscratch then i.csrData else q.regs.mscratch
  mepc := if i.trap.weMepc then i.trap.dMepc else if wr i csrAddrMepc then i.csrData else q.regs.mepc
  mcause := if i.trap.weMcause then i.trap.dMcause else if wr i csrAddrMcause then i.csrData else q.regs.mcause
  mtval := if i.trap.weMtval then i.trap.dMtval else if wr i csrAddrMtval then i.csrData else q.regs.mtval
  mip := mipD q i
  mcycle := if wr i csrAddrMcycle then i.csrData else q.regs.mcycle + 1
  minstret :=
    if wr i csrAddrMinstret then i.csrData
    else if i.instrRetire then q.regs.minstret + 1 else q.regs.minstret

/-- One clock edge. -/
def next : CsrRegfile where
  regs := regsD q i
  csrRdataQ := q.regs.read i.csrAddr

/-- The flops at their reset values. -/
def reset : CsrRegfile where
  regs := Csrs.reset
  csrRdataQ := 0

end CsrRegfile

/-! ### Register file -/

/-- The storage of `reg_file`; it is not reset. -/
structure RegFile where
  regs : BitVec 5 → Word

namespace RegFile

/-- The asynchronous read port: `x0` reads as zero. -/
def read (f : RegFile) (a : BitVec 5) : Word := if a = 0 then 0 else f.regs a

/-- One clock edge of the write port: writes to `x0` are ignored. -/
def next (f : RegFile) (en : Bool) (addr : BitVec 5) (data : Word) : RegFile :=
  if en && addr != 0 then ⟨Function.update f.regs addr data⟩ else f

end RegFile

end Yarv
