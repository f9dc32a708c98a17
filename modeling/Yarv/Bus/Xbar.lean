import Yarv.Bus.Axi

/-!
# `axi4_lite_xbar`

The crossbar between the one master bridge and the `n` targets.  The packed parameter and port vectors of the source
are functions of the target index; a one-hot vector is a predicate on it.
-/

namespace Yarv

/-- `N`, `BASES` and `SIZES`. -/
structure XbarParams where
  n : Nat
  base : Fin n → Word
  size : Fin n → Word

/-- The flops of `axi4_lite_xbar`. -/
structure Xbar (n : Nat) where
  wrBusyQ : Bool
  wrMatchQ : Fin n → Bool
  wrErrQ : Bool
  rdBusyQ : Bool
  rdMatchQ : Fin n → Bool
  rdErrQ : Bool
  errAwSeenQ : Bool
  errWSeenQ : Bool
  errBvalidQ : Bool
  errRvalidQ : Bool

/-- The inputs: what the master drives and what each target drives. -/
structure XbarIn (n : Nat) where
  m : AxiM
  tgt : Fin n → AxiS

/-- `RESP_DECERR`. -/
def respDecerr : BitVec 2 := 0b11#2

namespace Xbar

/-- The reduction `|v`. -/
def orReduce {n : Nat} (v : Fin n → Bool) : Bool := (List.finRange n).any v

/-- The response mux: the loop keeps the entry of the last selected index. -/
def select {n : Nat} {α : Type} (v : Fin n → Bool) (x : Fin n → α) (d : α) : α :=
  (List.finRange n).foldl (fun r k => if v k then x k else r) d

section Wires

variable (x : XbarParams) (q : Xbar x.n) (i : XbarIn x.n)

/-- One window comparator; the end of the window is a 32-bit sum. -/
def winMatch (a : Word) (k : Fin x.n) : Bool :=
  decide (x.base k ≤ a) && decide (a < x.base k + x.size k)

def wrMatch : Fin x.n → Bool := winMatch x i.m.awaddr

def rdMatch : Fin x.n → Bool := winMatch x i.m.araddr

def wrLiveErr : Bool := !orReduce (wrMatch x i)

def rdLiveErr : Bool := !orReduce (rdMatch x i)

def wrEffMatch : Fin x.n → Bool := if q.wrBusyQ then q.wrMatchQ else wrMatch x i

def wrEffErr : Bool := if q.wrBusyQ then q.wrErrQ else wrLiveErr x i

def errAwready : Bool := !q.errAwSeenQ && !q.errBvalidQ

def errWready : Bool := !q.errWSeenQ && !q.errBvalidQ

def errArready : Bool := !q.errRvalidQ

def awGo : Bool := !q.wrBusyQ && i.m.awvalid

def arGo : Bool := !q.rdBusyQ && i.m.arvalid

/-- What target `k` sees: the broadcast payload and its own handshake bits. -/
def toTarget (k : Fin x.n) : AxiM where
  awaddr := i.m.awaddr
  awvalid := awGo x q i && wrMatch x i k
  wdata := i.m.wdata
  wstrb := i.m.wstrb
  wvalid := i.m.wvalid && wrEffMatch x q i k
  bready := (q.wrBusyQ && !q.wrErrQ) && (q.wrMatchQ k && i.m.bready)
  araddr := i.m.araddr
  arvalid := arGo x q i && rdMatch x i k
  rready := (q.rdBusyQ && !q.rdErrQ) && (q.rdMatchQ k && i.m.rready)

/-- What the master sees. -/
def toMaster : AxiS where
  awready :=
    awGo x q i && (if wrLiveErr x i then errAwready x q else orReduce fun k => wrMatch x i k && (i.tgt k).awready)
  wready :=
    i.m.wvalid &&
      (if wrEffErr x q i then errWready x q else orReduce fun k => wrEffMatch x q i k && (i.tgt k).wready)
  bresp :=
    if q.wrBusyQ && !q.wrErrQ then select q.wrMatchQ (fun k => (i.tgt k).bresp) 0 else respDecerr
  bvalid :=
    if q.wrBusyQ && !q.wrErrQ then orReduce fun k => q.wrMatchQ k && (i.tgt k).bvalid
    else if q.wrBusyQ then q.errBvalidQ
    else false
  arready :=
    arGo x q i && (if rdLiveErr x i then errArready x q else orReduce fun k => rdMatch x i k && (i.tgt k).arready)
  rdata :=
    if q.rdBusyQ && !q.rdErrQ then select q.rdMatchQ (fun k => (i.tgt k).rdata) 0 else 0
  rresp :=
    if q.rdBusyQ && !q.rdErrQ then select q.rdMatchQ (fun k => (i.tgt k).rresp) 0 else respDecerr
  rvalid :=
    if q.rdBusyQ && !q.rdErrQ then orReduce fun k => q.rdMatchQ k && (i.tgt k).rvalid
    else if q.rdBusyQ then q.errRvalidQ
    else false

def awHs : Bool := Axi.awHs i.m (toMaster x q i)

def bHs : Bool := Axi.bHs i.m (toMaster x q i)

def arHs : Bool := Axi.arHs i.m (toMaster x q i)

def rHs : Bool := Axi.rHs i.m (toMaster x q i)

def errAwHs : Bool := awHs x q i && wrLiveErr x i

def errWHs : Bool := Axi.wHs i.m (toMaster x q i) && wrEffErr x q i

def errBHs : Bool := bHs x q i && q.wrBusyQ && q.wrErrQ

def errArHs : Bool := arHs x q i && rdLiveErr x i

def errRHs : Bool := rHs x q i && q.rdBusyQ && q.rdErrQ

def errDoWrite : Bool :=
  (q.errAwSeenQ || errAwHs x q i) && (q.errWSeenQ || errWHs x q i) && !q.errBvalidQ

/-- One clock edge. -/
def next : Xbar x.n where
  wrBusyQ := if awHs x q i then true else if bHs x q i then false else q.wrBusyQ
  wrMatchQ := if awHs x q i then wrMatch x i else q.wrMatchQ
  wrErrQ := if awHs x q i then wrLiveErr x i else q.wrErrQ
  rdBusyQ := if arHs x q i then true else if rHs x q i then false else q.rdBusyQ
  rdMatchQ := if arHs x q i then rdMatch x i else q.rdMatchQ
  rdErrQ := if arHs x q i then rdLiveErr x i else q.rdErrQ
  errAwSeenQ := if errDoWrite x q i then false else q.errAwSeenQ || errAwHs x q i
  errWSeenQ := if errDoWrite x q i then false else q.errWSeenQ || errWHs x q i
  errBvalidQ := if errBHs x q i then false else q.errBvalidQ || errDoWrite x q i
  errRvalidQ := if errArHs x q i then true else if errRHs x q i then false else q.errRvalidQ

end Wires

/-- The flops at their reset values. -/
def reset (n : Nat) : Xbar n where
  wrBusyQ := false
  wrMatchQ := fun _ => false
  wrErrQ := false
  rdBusyQ := false
  rdMatchQ := fun _ => false
  rdErrQ := false
  errAwSeenQ := false
  errWSeenQ := false
  errBvalidQ := false
  errRvalidQ := false

end Xbar

end Yarv
