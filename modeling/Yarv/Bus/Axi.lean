import Yarv.Pkg

/-!
# AXI4-Lite

The two halves of an `axi4_lite_if`: what the master drives and what the slave drives.  A beat is exchanged in a cycle
in which the valid and the ready of its channel are both high.
-/

namespace Yarv

/-- The wires a master drives. -/
structure AxiM where
  awaddr : Word
  awvalid : Bool
  wdata : Word
  wstrb : BitVec 4
  wvalid : Bool
  bready : Bool
  araddr : Word
  arvalid : Bool
  rready : Bool
  deriving DecidableEq, Repr

/-- The wires a slave drives. -/
structure AxiS where
  awready : Bool
  wready : Bool
  bresp : BitVec 2
  bvalid : Bool
  arready : Bool
  rdata : Word
  rresp : BitVec 2
  rvalid : Bool
  deriving DecidableEq, Repr

namespace Axi

variable (m : AxiM) (s : AxiS)

def awHs : Bool := m.awvalid && s.awready

def wHs : Bool := m.wvalid && s.wready

def bHs : Bool := s.bvalid && m.bready

def arHs : Bool := m.arvalid && s.arready

def rHs : Bool := s.rvalid && m.rready

/-- A write beat: the data and its strobes. -/
structure WBeat where
  data : Word
  strb : BitVec 4
  deriving DecidableEq, Repr

/-! ### The beats of a cycle -/

def awBeat : Option Word := if awHs m s then some m.awaddr else none

def wBeat : Option WBeat := if wHs m s then some ⟨m.wdata, m.wstrb⟩ else none

def arBeat : Option Word := if arHs m s then some m.araddr else none

def rBeat : Option Word := if rHs m s then some s.rdata else none

/-- Every channel the slave does not take in this cycle is offered again in the next one, with the same payload. -/
structure Held (m : AxiM) (s : AxiS) (m' : AxiM) : Prop where
  aw : m.awvalid = true → s.awready = false → m'.awvalid = true ∧ m'.awaddr = m.awaddr
  w : m.wvalid = true → s.wready = false → m'.wvalid = true ∧ m'.wdata = m.wdata ∧ m'.wstrb = m.wstrb
  ar : m.arvalid = true → s.arready = false → m'.arvalid = true ∧ m'.araddr = m.araddr

end Axi

end Yarv
