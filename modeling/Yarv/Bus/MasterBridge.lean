import Yarv.Bus.Axi

/-!
# `axi4_lite_master_bridge`

The bridge between the native peripheral port and the AXI4-Lite master port.  One state machine drives both
directions; the launch cycle drives the channels from the live request, every later cycle from the latch.
-/

namespace Yarv

/-- `state_t`; the eighth encoding of the three bits returns to idle and is never reached. -/
inductive BridgeState
  | idle | rdAddr | rdWait | wrBoth | wrAddr | wrData | wrWait
  deriving DecidableEq, Repr, Inhabited

/-- The flops of `axi4_lite_master_bridge`. -/
structure MasterBridge where
  stateQ : BridgeState
  addrQ : Word
  wdataQ : Word
  wstrbQ : BitVec 4
  deriving DecidableEq, Repr

/-- The inputs of the bridge: the native request and what the slave drives. -/
structure BridgeIn where
  req : MemReq
  axi : AxiS
  deriving DecidableEq, Repr

namespace MasterBridge

variable (q : MasterBridge) (i : BridgeIn)

def accept : Bool := q.stateQ == .idle && i.req.wvalid

/-- The defaults of the AXI outputs. -/
def quiet : AxiM where
  awaddr := 0
  awvalid := false
  wdata := 0
  wstrb := 0
  wvalid := false
  bready := true
  araddr := 0
  arvalid := false
  rready := false

/-- The AXI outputs; they do not depend on the slave. -/
def axi (req : MemReq) : AxiM :=
  match q.stateQ with
  | .idle =>
    if req.wvalid then
      if req.we then
        { quiet with awaddr := req.addr, awvalid := true, wdata := req.wdata, wstrb := req.wstrb, wvalid := true }
      else { quiet with araddr := req.addr, arvalid := true }
    else quiet
  | .rdAddr => { quiet with araddr := q.addrQ, arvalid := true }
  | .rdWait => { quiet with rready := req.rready }
  | .wrBoth =>
    { quiet with awaddr := q.addrQ, awvalid := true, wdata := q.wdataQ, wstrb := q.wstrbQ, wvalid := true }
  | .wrAddr => { quiet with wdata := q.wdataQ, wstrb := q.wstrbQ, wvalid := true }
  | .wrData => { quiet with awaddr := q.addrQ, awvalid := true }
  | .wrWait => quiet

def awHs : Bool := Axi.awHs (q.axi i.req) i.axi

def wHs : Bool := Axi.wHs (q.axi i.req) i.axi

def arHs : Bool := Axi.arHs (q.axi i.req) i.axi

def rHs : Bool := Axi.rHs (q.axi i.req) i.axi

def bHs : Bool := Axi.bHs (q.axi i.req) i.axi

/-- `rsp_o`. -/
def rsp : MemRsp where
  wready := q.stateQ == .idle
  rvalid := q.stateQ == .rdWait && q.rHs i
  rdata := if q.stateQ = .rdWait then i.axi.rdata else 0
  bvalid := q.stateQ == .wrWait && q.bHs i

/-- The branch the launch and the retry of both write channels share. -/
def writeD (neither : BridgeState) : BridgeState :=
  if q.awHs i && q.wHs i then .wrWait
  else if q.awHs i then .wrAddr
  else if q.wHs i then .wrData
  else neither

/-- `state_d`. -/
def stateD : BridgeState :=
  match q.stateQ with
  | .idle =>
    if i.req.wvalid then
      if i.req.we then q.writeD i .wrBoth else if q.arHs i then .rdWait else .rdAddr
    else .idle
  | .rdAddr => if q.arHs i then .rdWait else .rdAddr
  | .rdWait => if q.rHs i then .idle else .rdWait
  | .wrBoth => q.writeD i .wrBoth
  | .wrAddr => if q.wHs i then .wrWait else .wrAddr
  | .wrData => if q.awHs i then .wrWait else .wrData
  | .wrWait => if q.bHs i then .idle else .wrWait

/-- One clock edge. -/
def next : MasterBridge where
  stateQ := q.stateD i
  addrQ := if q.accept i then i.req.addr else q.addrQ
  wdataQ := if q.accept i then i.req.wdata else q.wdataQ
  wstrbQ := if q.accept i then i.req.wstrb else q.wstrbQ

/-- The state flop at its reset value; the latch is not reset. -/
structure IsReset (q : MasterBridge) : Prop where
  state : q.stateQ = .idle

end MasterBridge

end Yarv
