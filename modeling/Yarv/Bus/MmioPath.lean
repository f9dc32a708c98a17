import Yarv.Bus.MasterBridge
import Yarv.Bus.RegSlave
import Yarv.Bus.XbarFacts

/-!
# The peripheral path

The native port, the bridge, the crossbar and one register slave behind each window, wired as in `top_module`.  The
slaves may be of different kinds: `dev k` is the device of window `k`.

`seqNext` is what the path is for: a machine that performs one request at a time on the devices alone, at the window
`sel` finds for its address.
-/

namespace Yarv

/-- A native request, as it is accepted. -/
structure MmioReq where
  we : Bool
  addr : Word
  wdata : Word
  wstrb : BitVec 4
  deriving DecidableEq, Repr

/-- What the native port answers. -/
inductive MmioResp
  | ack
  | data (v : Word)
  deriving DecidableEq, Repr

def MemReq.request (r : MemReq) : MmioReq := ⟨r.we, r.addr, r.wdata, r.wstrb⟩

/-- A slave that drives nothing. -/
def AxiS.silent : AxiS := ⟨false, false, 0, false, false, 0, 0, false⟩

namespace XbarParams

variable (x : XbarParams)

/-- The window the comparators find. -/
def target (a : Word) : Option (Fin x.n) := (List.finRange x.n).find? (Xbar.winMatch x a)

/-- No address is in two windows. -/
def Disjoint : Prop := ∀ a j k, x.Covers a j → x.Covers a k → j = k

end XbarParams

variable {x : XbarParams} {α σ ι : Fin x.n → Type}

/-- The flops of the path. -/
structure MmioPath (x : XbarParams) (α σ : Fin x.n → Type) where
  bridge : MasterBridge
  xbar : Xbar x.n
  slave : ∀ k, RegSlave (α k) (σ k)

/-- The native request and the wires of the devices. -/
structure MmioIn (x : XbarParams) (ι : Fin x.n → Type) where
  req : MemReq
  ext : ∀ k, ι k

namespace MmioPath

variable (dev : ∀ k, RegDevice (α k) (σ k) (ι k)) (s : MmioPath x α σ) (i : MmioIn x ι)

/-! ### Wiring -/

/-- What slave `k` sees; the crossbar does not look at the slaves for it. -/
def toSlave (req : MemReq) (k : Fin x.n) : AxiM :=
  Xbar.toTarget x s.xbar ⟨s.bridge.axi req, fun _ => AxiS.silent⟩ k

def xbarIn (req : MemReq) : XbarIn x.n :=
  ⟨s.bridge.axi req, fun k => (s.slave k).axi (dev k) (s.toSlave req k)⟩

def bridgeIn (req : MemReq) : BridgeIn := ⟨req, Xbar.toMaster x s.xbar (s.xbarIn dev req)⟩

/-- `rsp_o` of the bridge. -/
def rsp : MemRsp := s.bridge.rsp (s.bridgeIn dev i.req)

/-- What the device behind window `k` sees. -/
def access (k : Fin x.n) : RegAccess (α k) (ι k) := (s.slave k).access (dev k) ⟨s.toSlave i.req k, i.ext k⟩

/-- One clock edge. -/
def next : MmioPath x α σ where
  bridge := s.bridge.next (s.bridgeIn dev i.req)
  xbar := Xbar.next x s.xbar (s.xbarIn dev i.req)
  slave k := (s.slave k).next (dev k) ⟨s.toSlave i.req k, i.ext k⟩

/-- The devices. -/
def cores (k : Fin x.n) : σ k := (s.slave k).core

/-- Every flop of the bus at its reset value; the latches and the devices hold anything. -/
structure IsReset : Prop where
  bridge : s.bridge.IsReset
  xbar : s.xbar = Xbar.reset x.n
  awSeen : ∀ k, (s.slave k).port.awSeenQ = false
  wSeen : ∀ k, (s.slave k).port.wSeenQ = false
  bvalid : ∀ k, (s.slave k).port.bvalidQ = false
  rvalid : ∀ k, (s.slave k).port.rvalidQ = false

/-! ### The native port -/

def accepted : Option MmioReq := if i.req.wvalid && (s.rsp dev i).wready then some i.req.request else none

def responded : Option MmioResp :=
  if (s.rsp dev i).bvalid then some .ack
  else if (s.rsp dev i).rvalid then some (.data (s.rsp dev i).rdata)
  else none

end MmioPath

/-! ### The sequential machine -/

section Seq

variable (sel : Word → Option (Fin x.n)) (dev : ∀ k, RegDevice (α k) (σ k) (ι k))

/-- One cycle of the sequential machine: at most one request and the wires of the devices. -/
structure SeqIn (x : XbarParams) (ι : Fin x.n → Type) where
  op : Option MmioReq
  ext : ∀ k, ι k

/-- What a request does to the device behind window `k`: something only if its address selects the window. -/
def opAccess (op : Option MmioReq) (k : Fin x.n) (e : ι k) : RegAccess (α k) (ι k) :=
  match op with
  | some r =>
    if sel r.addr = some k then
      if r.we then ⟨some ⟨(dev k).sel r.addr, r.wdata, r.wstrb⟩, none, e⟩ else ⟨none, some ((dev k).sel r.addr), e⟩
    else ⟨none, none, e⟩
  | none => ⟨none, none, e⟩

def seqNext (c : ∀ k, σ k) (i : SeqIn x ι) : ∀ k, σ k :=
  fun k => (dev k).next (c k) (opAccess sel dev i.op k (i.ext k))

/-- The answer to a request: a read samples its device, and 0 where there is none. -/
def answer (c : ∀ k, σ k) (e : ∀ k, ι k) (r : MmioReq) : MmioResp :=
  if r.we then .ack
  else .data (match sel r.addr with
    | some k => (dev k).read (c k) (e k) ((dev k).sel r.addr)
    | none => 0)

def seqAnswer (c : ∀ k, σ k) (i : SeqIn x ι) : Option MmioResp := i.op.map (answer sel dev c i.ext)

/-- The request has to wait for its device. -/
def waits (c : ∀ k, σ k) (r : MmioReq) : Bool :=
  r.we && match sel r.addr with
    | some k => (dev k).hold (c k) ((dev k).sel r.addr)
    | none => false

end Seq

end Yarv
