import Yarv.Bus.MmioPath

/-!
# The peripheral path is a sequential machine

`XbarAt` says which transaction the crossbar has open, `MmioAt` in which of its four phases the whole path is.  One
step lemma for each phase tells what the slaves see, what the native port sees and the next phase; `refines_run` puts
them together.
-/

namespace Yarv

open Clocked

variable {x : XbarParams}

private theorem XbarParams.Disjoint.winMatch_eq (hd : x.Disjoint) (a : Word) (k : Fin x.n) :
    Xbar.winMatch x a k = decide (x.target a = some k) := by
  rw [Bool.eq_iff_iff, decide_eq_true_iff]
  constructor
  · intro hk
    cases ht : x.target a with
    | none =>
      have := List.find?_eq_none.mp ht k (List.mem_finRange k)
      exact absurd hk this
    | some j =>
      have hj : Xbar.winMatch x a j = true := by simpa using List.find?_some ht
      rw [hd a j k ((Xbar.winMatch_iff a j).mp hj).1 ((Xbar.winMatch_iff a k).mp hk).1]
  · intro hk
    simpa using List.find?_some hk

namespace Xbar

/-- The transactions the crossbar has open: their windows, or the terminator. -/
structure XbarAt (wr rd : Option (Option (Fin x.n))) (q : Xbar x.n) : Prop where
  wrBusy : q.wrBusyQ = wr.isSome
  wrSel : ∀ t, wr = some t → ∀ j, q.wrMatchQ j = decide (t = some j)
  wrErr : ∀ t, wr = some t → q.wrErrQ = t.isNone
  rdBusy : q.rdBusyQ = rd.isSome
  rdSel : ∀ t, rd = some t → ∀ j, q.rdMatchQ j = decide (t = some j)
  rdErr : ∀ t, rd = some t → q.rdErrQ = t.isNone
  errAw : q.errAwSeenQ = false
  errW : q.errWSeenQ = false
  errB : q.errBvalidQ = decide (wr = some none)
  errR : q.errRvalidQ = decide (rd = some none)

/-- What a window drives, or the terminator when there is none. -/
def pick {β : Type} (t : Option (Fin x.n)) (y : Fin x.n → β) (d : β) : β :=
  match t with
  | some k => y k
  | none => d

variable {q : Xbar x.n} {i : XbarIn x.n} {wr rd : Option (Option (Fin x.n))}

private theorem isNone_of_match (hd : x.Disjoint) (a : Word) : (!orReduce (winMatch x a)) = (x.target a).isNone := by
  rw [orReduce_isSome (hd.winMatch_eq a)]
  cases x.target a <;> rfl

/-- A reduction behind the comparators reads the window. -/
private theorem pick_match {v : Fin x.n → Bool} {t : Option (Fin x.n)} (h : ∀ j, v j = decide (t = some j))
    (y : Fin x.n → Bool) (d : Bool) :
    (if t.isNone then d else orReduce fun k => v k && y k) = pick t y d := by
  cases t with
  | none => rfl
  | some k =>
    rw [Option.isNone_some, if_neg Bool.false_ne_true]
    exact orReduce_and h y

/-! ### The request channels, with nothing open -/

private theorem XbarAt.awready (h : XbarAt none rd q) (hd : x.Disjoint) :
    (toMaster x q i).awready =
      (i.m.awvalid && pick (x.target i.m.awaddr) (fun k => (i.tgt k).awready) true) := by
  have hb : q.wrBusyQ = false := h.wrBusy
  have he : errAwready x q = true := by simp [errAwready, h.errAw, h.errB]
  simp only [toMaster, awGo, hb, Bool.not_false, Bool.true_and, wrLiveErr, wrMatch, isNone_of_match hd, he]
  rw [pick_match (hd.winMatch_eq i.m.awaddr)]

private theorem XbarAt.wready (h : XbarAt none rd q) (hd : x.Disjoint) :
    (toMaster x q i).wready = (i.m.wvalid && pick (x.target i.m.awaddr) (fun k => (i.tgt k).wready) true) := by
  have hb : q.wrBusyQ = false := h.wrBusy
  have he : errWready x q = true := by simp [errWready, h.errW, h.errB]
  simp only [toMaster, wrEffErr, wrEffMatch, hb, Bool.false_eq_true, if_false, wrLiveErr, wrMatch,
    isNone_of_match hd, he]
  rw [pick_match (hd.winMatch_eq i.m.awaddr)]

private theorem XbarAt.arready (h : XbarAt wr none q) (hd : x.Disjoint) :
    (toMaster x q i).arready =
      (i.m.arvalid && pick (x.target i.m.araddr) (fun k => (i.tgt k).arready) true) := by
  have hb : q.rdBusyQ = false := h.rdBusy
  have he : errArready x q = true := by simp [errArready, h.errR]
  simp only [toMaster, arGo, hb, Bool.not_false, Bool.true_and, rdLiveErr, rdMatch, isNone_of_match hd, he]
  rw [pick_match (hd.winMatch_eq i.m.araddr)]

/-! ### The response channels -/

private theorem XbarAt.no_bvalid (h : XbarAt none rd q) : (toMaster x q i).bvalid = false := by
  have hb : q.wrBusyQ = false := h.wrBusy
  simp [toMaster, hb]

private theorem XbarAt.bvalid {t : Option (Fin x.n)} (h : XbarAt (some t) rd q) :
    (toMaster x q i).bvalid = pick t (fun k => (i.tgt k).bvalid) true := by
  have hb : q.wrBusyQ = true := h.wrBusy
  have he := h.wrErr t rfl
  have hB := h.errB
  cases t with
  | none => simp [toMaster, hb, he, hB, pick]
  | some k =>
    have ho := orReduce_and (h.wrSel (some k) rfl) fun j => (i.tgt j).bvalid
    simp only [toMaster, hb, he, Option.isNone_some, Bool.not_false, Bool.and_true, if_true, ho, pick]

private theorem XbarAt.rvalid {t : Option (Fin x.n)} (h : XbarAt wr (some t) q) :
    (toMaster x q i).rvalid = pick t (fun k => (i.tgt k).rvalid) true := by
  have hb : q.rdBusyQ = true := h.rdBusy
  have he := h.rdErr t rfl
  have hR := h.errR
  cases t with
  | none => simp [toMaster, hb, he, hR, pick]
  | some k =>
    have ho := orReduce_and (h.rdSel (some k) rfl) fun j => (i.tgt j).rvalid
    simp only [toMaster, hb, he, Option.isNone_some, Bool.not_false, Bool.and_true, if_true, ho, pick]

theorem XbarAt.rdata {t : Option (Fin x.n)} (h : XbarAt wr (some t) q) :
    (toMaster x q i).rdata = pick t (fun k => (i.tgt k).rdata) 0 := by
  have hb : q.rdBusyQ = true := h.rdBusy
  have he := h.rdErr t rfl
  cases t with
  | none => simp [toMaster, hb, he, pick]
  | some k =>
    have hs := select_eq (h.rdSel (some k) rfl) (fun j => (i.tgt j).rdata) 0
    simp only [toMaster, hb, he, Option.isNone_some, Bool.not_false, Bool.and_true, if_true, hs, pick]

/-! ### The latches -/

/-- The master offers nothing, so what is open stays open until it is answered. -/
private theorem XbarAt.quiet (h : XbarAt none none q) (haw : i.m.awvalid = false) (hw : i.m.wvalid = false)
    (har : i.m.arvalid = false) : XbarAt none none (next x q i) := by
  have h1 : awHs x q i = false := by simp [awHs, Axi.awHs, haw]
  have h2 : arHs x q i = false := by simp [arHs, Axi.arHs, har]
  have h3 : Axi.wHs i.m (toMaster x q i) = false := by simp [Axi.wHs, hw]
  have hb : q.wrBusyQ = false := h.wrBusy
  have hr : q.rdBusyQ = false := h.rdBusy
  have hB : q.errBvalidQ = false := h.errB
  have hR : q.errRvalidQ = false := h.errR
  have h4 : errDoWrite x q i = false := by simp [errDoWrite, errAwHs, h1, h.errAw]
  refine ⟨?_, ?_, ?_, ?_, ?_, ?_, ?_, ?_, ?_, ?_⟩ <;>
    simp [next, h1, h2, h3, h4, hb, hr, hB, hR, errArHs, errBHs, errAwHs, errWHs, h.errAw, h.errW]

/-- A write address: the transaction opens as soon as it is taken. -/
private theorem XbarAt.open_write (h : XbarAt none none q) (hd : x.Disjoint) (haw : i.m.awvalid = true)
    (har : i.m.arvalid = false) (hw : x.target i.m.awaddr = none → i.m.wvalid = true) :
    XbarAt (if (toMaster x q i).awready then some (x.target i.m.awaddr) else none) none (next x q i) := by
  have h2 : arHs x q i = false := by simp [arHs, Axi.arHs, har]
  have hb : q.wrBusyQ = false := h.wrBusy
  have hr : q.rdBusyQ = false := h.rdBusy
  have hB : q.errBvalidQ = false := h.errB
  have hR : q.errRvalidQ = false := h.errR
  have hno := h.no_bvalid (i := i)
  have hbh : bHs x q i = false := by simp [bHs, Axi.bHs, hno]
  have hlive : wrLiveErr x i = (x.target i.m.awaddr).isNone := isNone_of_match hd _
  have h1 : awHs x q i = (toMaster x q i).awready := by simp [awHs, Axi.awHs, haw]
  cases hrdy : (toMaster x q i).awready with
  | false =>
    rw [hrdy] at h1
    have hsome : (x.target i.m.awaddr).isNone = false := by
      cases ht : x.target i.m.awaddr with
      | none => simp [h.awready hd, haw, ht, pick] at hrdy
      | some k => rfl
    have hw' : errWHs x q i = false := by simp [errWHs, wrEffErr, hb, hlive, hsome]
    have h4 : errDoWrite x q i = false := by simp [errDoWrite, errAwHs, h1, h.errAw]
    refine ⟨?_, ?_, ?_, ?_, ?_, ?_, ?_, ?_, ?_, ?_⟩ <;>
      simp [next, h1, h2, hw', h4, hb, hr, hB, hR, errArHs, errBHs, errAwHs, h.errAw, h.errW, hbh]
  | true =>
    rw [hrdy] at h1
    have hm : ∀ j, wrMatch x i j = decide (x.target i.m.awaddr = some j) := hd.winMatch_eq _
    cases ht : x.target i.m.awaddr with
    | none =>
      have hwv := hw ht
      rw [ht] at hlive hm
      have hwr : errWHs x q i = true := by
        have := h.wready hd (i := i)
        rw [hwv, ht] at this
        simp [errWHs, Axi.wHs, hwv, this, pick, wrEffErr, hb, hlive]
      have h4 : errDoWrite x q i = true := by simp [errDoWrite, errAwHs, h1, hlive, hwr, hB]
      refine ⟨?_, ?_, ?_, ?_, ?_, ?_, ?_, ?_, ?_, ?_⟩ <;>
        simp [next, h1, h2, h4, hr, hR, hm, hlive, errArHs, errBHs, hbh]
    | some k =>
      rw [ht] at hlive hm
      have hw' : errWHs x q i = false := by simp [errWHs, wrEffErr, hb, hlive]
      have h4 : errDoWrite x q i = false := by simp [errDoWrite, errAwHs, hlive, h.errAw]
      refine ⟨?_, ?_, ?_, ?_, ?_, ?_, ?_, ?_, ?_, ?_⟩ <;>
        simp [next, h1, h2, hw', h4, hr, hB, hR, hm, hlive, errArHs, errBHs, errAwHs, h.errAw, h.errW, hbh]

/-- A read address that is taken. -/
private theorem XbarAt.open_read (h : XbarAt none none q) (hd : x.Disjoint) (haw : i.m.awvalid = false)
    (hw : i.m.wvalid = false) (har : i.m.arvalid = true) (hrdy : (toMaster x q i).arready = true) :
    XbarAt none (some (x.target i.m.araddr)) (next x q i) := by
  have h1 : awHs x q i = false := by simp [awHs, Axi.awHs, haw]
  have h2 : arHs x q i = true := by simp [arHs, Axi.arHs, har, hrdy]
  have h3 : Axi.wHs i.m (toMaster x q i) = false := by simp [Axi.wHs, hw]
  have hb : q.wrBusyQ = false := h.wrBusy
  have hB : q.errBvalidQ = false := h.errB
  have hR : q.errRvalidQ = false := h.errR
  have hno := h.no_bvalid (i := i)
  have hbh : bHs x q i = false := by simp [bHs, Axi.bHs, hno]
  have hlive : rdLiveErr x i = (x.target i.m.araddr).isNone := isNone_of_match hd _
  have hm : ∀ j, rdMatch x i j = decide (x.target i.m.araddr = some j) := hd.winMatch_eq _
  have h4 : errDoWrite x q i = false := by simp [errDoWrite, errAwHs, h1, h.errAw]
  have hrr : errRHs x q i = false := by simp [errRHs, h.rdBusy]
  refine ⟨?_, ?_, ?_, ?_, ?_, ?_, ?_, ?_, ?_, ?_⟩ <;>
    simp [next, h1, h2, h3, h4, hb, hB, hR, hm, hlive, errArHs, errBHs, errAwHs, errWHs, h.errAw, h.errW, hbh, hrr]

/-- The response of a write closes it. -/
private theorem XbarAt.close_write {t : Option (Fin x.n)} (h : XbarAt (some t) none q) (haw : i.m.awvalid = false)
    (hw : i.m.wvalid = false) (har : i.m.arvalid = false) (hb : i.m.bready = true)
    (hv : (toMaster x q i).bvalid = true) : XbarAt none none (next x q i) := by
  have h1 : awHs x q i = false := by simp [awHs, Axi.awHs, haw]
  have h2 : arHs x q i = false := by simp [arHs, Axi.arHs, har]
  have h3 : Axi.wHs i.m (toMaster x q i) = false := by simp [Axi.wHs, hw]
  have h4 : errDoWrite x q i = false := by simp [errDoWrite, errAwHs, h1, h.errAw]
  have h5 : bHs x q i = true := by simp [bHs, Axi.bHs, hv, hb]
  have hbz : q.wrBusyQ = true := h.wrBusy
  have hr : q.rdBusyQ = false := h.rdBusy
  have hR : q.errRvalidQ = false := h.errR
  have hB := h.errB
  have he := h.wrErr t rfl
  refine ⟨?_, ?_, ?_, ?_, ?_, ?_, ?_, ?_, ?_, ?_⟩ <;>
    simp [next, h1, h2, h3, h4, h5, hbz, hr, hR, hB, he, errArHs, errBHs, errAwHs, errWHs, h.errAw, h.errW]

/-- The response of a read closes it as soon as the master takes it. -/
private theorem XbarAt.close_read {t : Option (Fin x.n)} (h : XbarAt none (some t) q) (haw : i.m.awvalid = false)
    (hw : i.m.wvalid = false) (har : i.m.arvalid = false) (hv : (toMaster x q i).rvalid = true) :
    XbarAt none (if i.m.rready then none else some t) (next x q i) := by
  have h1 : awHs x q i = false := by simp [awHs, Axi.awHs, haw]
  have h2 : arHs x q i = false := by simp [arHs, Axi.arHs, har]
  have h3 : Axi.wHs i.m (toMaster x q i) = false := by simp [Axi.wHs, hw]
  have h4 : errDoWrite x q i = false := by simp [errDoWrite, errAwHs, h1, h.errAw]
  have h5 : rHs x q i = i.m.rready := by simp [rHs, Axi.rHs, hv]
  have hno := h.no_bvalid (i := i)
  have h6 : bHs x q i = false := by simp [bHs, Axi.bHs, hno]
  have hb : q.wrBusyQ = false := h.wrBusy
  have hrz : q.rdBusyQ = true := h.rdBusy
  have hB : q.errBvalidQ = false := h.errB
  have hR := h.errR
  have he := h.rdErr t rfl
  have hm := h.rdSel t rfl
  cases hrr : i.m.rready with
  | true =>
    rw [hrr] at h5
    refine ⟨?_, ?_, ?_, ?_, ?_, ?_, ?_, ?_, ?_, ?_⟩ <;>
      simp [next, h1, h2, h3, h4, h5, h6, hb, hrz, hR, hB, he, errArHs, errBHs, errRHs, errAwHs, errWHs,
        h.errAw, h.errW]
  | false =>
    rw [hrr] at h5
    refine ⟨?_, ?_, ?_, ?_, ?_, ?_, ?_, ?_, ?_, ?_⟩ <;>
      simp [next, h1, h2, h3, h4, h5, h6, hb, hrz, hR, hB, he, hm, errArHs, errBHs, errRHs, errAwHs, errWHs,
        h.errAw, h.errW]

end Xbar

namespace MasterBridge

variable {q : MasterBridge} {i : BridgeIn}

/-- A write whose data is taken in its launch cycle. -/
private theorem launch_write (hs : q.stateQ = .idle) (hv : i.req.wvalid = true) (hwe : i.req.we = true)
    (hw : i.axi.wready = true) :
    q.next i = ⟨if i.axi.awready then .wrWait else .wrData, i.req.addr, i.req.wdata, i.req.wstrb⟩ := by
  cases ha : i.axi.awready <;>
    simp [next, stateD, writeD, awHs, wHs, Axi.awHs, Axi.wHs, axi, accept, hs, hv, hwe, hw, ha]

end MasterBridge

namespace MmioPath

open Xbar RegSlave

variable {α σ ι : Fin x.n → Type} (dev : ∀ k, RegDevice (α k) (σ k) (ι k)) (s : MmioPath x α σ) (i : MmioIn x ι)

/-- The request that is performed in this cycle. -/
def op : Option MmioReq :=
  match s.bridge.stateQ with
  | .idle => if i.req.wvalid && !waits x.target dev s.cores i.req.request then some i.req.request else none
  | .wrData =>
    let r : MmioReq := ⟨true, s.bridge.addrQ, s.bridge.wdataQ, s.bridge.wstrbQ⟩
    if waits x.target dev s.cores r then none else some r
  | _ => none

/-- The phases of the path. -/
inductive Phase
  | idle
  /-- The data of the write is at its slave, the address has to wait. -/
  | held (r : MmioReq)
  | wrote
  | read (v : Word)
  deriving DecidableEq, Repr

/-- The accepted request that has not been performed. -/
def Phase.pend : Phase → List MmioReq
  | .held r => [r]
  | _ => []

/-- The answer that has not been given. -/
def Phase.owed : Phase → List MmioResp
  | .wrote => [.ack]
  | .read v => [.data v]
  | _ => []

/-- The state of bridge, crossbar and ports in a phase. -/
inductive MmioAt : Phase → MmioPath x α σ → Prop
  | idle {s : MmioPath x α σ} : s.bridge.stateQ = .idle → XbarAt none none s.xbar →
      (∀ k, PortAt none false none (s.slave k).port) → MmioAt .idle s
  | held {s : MmioPath x α σ} {r : MmioReq} {k : Fin x.n} : s.bridge = ⟨.wrData, r.addr, r.wdata, r.wstrb⟩ →
      r.we = true → x.target r.addr = some k → XbarAt none none s.xbar →
      (∀ j, PortAt (if k = j then some (r.wdata, r.wstrb) else none) false none (s.slave j).port) → MmioAt (.held r) s
  | wrote {s : MmioPath x α σ} {t : Option (Fin x.n)} : s.bridge.stateQ = .wrWait → XbarAt (some t) none s.xbar →
      (∀ j, PortAt none (decide (t = some j)) none (s.slave j).port) → MmioAt .wrote s
  | read {s : MmioPath x α σ} {t : Option (Fin x.n)} {v : Word} : s.bridge.stateQ = .rdWait →
      XbarAt none (some t) s.xbar → (∀ j, PortAt none false (if t = some j then some v else none) (s.slave j).port) →
      (t = none → v = 0) → MmioAt (.read v) s

/-- One clock edge from phase `p` to phase `p'`, as both ends see it. -/
structure Steps (p p' : Phase) : Prop where
  next : MmioAt p' (s.next dev i)
  effect : ∀ k, s.access dev i k = opAccess x.target dev (s.op dev i) k (i.ext k)
  order : p.pend ++ (s.accepted dev i).toList = (s.op dev i).toList ++ p'.pend
  answers : p.owed ++ ((s.op dev i).map (answer x.target dev s.cores i.ext)).toList =
    (s.responded dev i).toList ++ p'.owed

theorem IsReset.idle {s : MmioPath x α σ} (h : s.IsReset) : MmioAt .idle s := by
  refine .idle h.bridge.state ?_ fun k => ?_
  · rw [h.xbar]
    constructor <;> simp [Xbar.reset]
  · constructor <;> simp [h.awSeen, h.wSeen, h.bvalid, h.rvalid]

variable {dev s i} {m : AxiM}

/-! ### What the slaves see -/

variable (s) in
theorem toSlave_quiet (req : MemReq) (haw : (s.bridge.axi req).awvalid = false)
    (hw : (s.bridge.axi req).wvalid = false) (har : (s.bridge.axi req).arvalid = false) (k : Fin x.n) :
    (s.toSlave req k).awvalid = false ∧ (s.toSlave req k).wvalid = false ∧ (s.toSlave req k).arvalid = false := by
  simp [toSlave, toTarget, awGo, arGo, haw, hw, har]

theorem toSlave_calm (h : XbarAt none none s.xbar) (hd : x.Disjoint) (req : MemReq) (k : Fin x.n) :
    (s.toSlave req k).awvalid = ((s.bridge.axi req).awvalid && decide (x.target (s.bridge.axi req).awaddr = some k)) ∧
    (s.toSlave req k).wvalid = ((s.bridge.axi req).wvalid && decide (x.target (s.bridge.axi req).awaddr = some k)) ∧
    (s.toSlave req k).arvalid =
      ((s.bridge.axi req).arvalid && decide (x.target (s.bridge.axi req).araddr = some k)) := by
  have hb : s.xbar.wrBusyQ = false := h.wrBusy
  have hr : s.xbar.rdBusyQ = false := h.rdBusy
  simp [toSlave, toTarget, awGo, arGo, wrEffMatch, wrMatch, rdMatch, hb, hr, hd.winMatch_eq]

variable (dev) in
/-- A slave the master offers nothing to. -/
private theorem slave_quiet {w : Option (Word × BitVec 4)} {b : Bool} {r : Option Word} {k : Fin x.n}
    (h : PortAt w b r (s.slave k).port)
    (hq : (s.toSlave i.req k).awvalid = false ∧ (s.toSlave i.req k).wvalid = false ∧
    (s.toSlave i.req k).arvalid = false) :
    s.access dev i k = ⟨none, none, i.ext k⟩ ∧
      PortAt w (b && !(s.toSlave i.req k).bready) (if (s.toSlave i.req k).rready then none else r)
        ((s.next dev i).slave k).port :=
  h.quiet_step hq.1 hq.2.1 hq.2.2

private theorem opAccess_none (k : Fin x.n) (e : ι k) : opAccess x.target dev none k e = ⟨none, none, e⟩ := rfl

theorem opAccess_other {r : MmioReq} {k : Fin x.n} (h : x.target r.addr ≠ some k) (e : ι k) :
    opAccess x.target dev (some r) k e = ⟨none, none, e⟩ := by
  rw [opAccess]
  simp [h]

theorem opAccess_write {r : MmioReq} {k : Fin x.n} {e : ι k} (h : x.target r.addr = some k) (hwe : r.we = true) :
    opAccess x.target dev (some r) k e = ⟨some ⟨(dev k).sel r.addr, r.wdata, r.wstrb⟩, none, e⟩ := by
  rw [opAccess]
  simp [h, hwe]

theorem opAccess_read {r : MmioReq} {k : Fin x.n} {e : ι k} (h : x.target r.addr = some k) (hwe : r.we = false) :
    opAccess x.target dev (some r) k e = ⟨none, some ((dev k).sel r.addr), e⟩ := by
  rw [opAccess]
  simp [h, hwe]

/-- A read samples its device. -/
theorem answer_read {c : ∀ k, σ k} {e : ∀ k, ι k} {r : MmioReq} {k : Fin x.n} (h : x.target r.addr = some k)
    (hwe : r.we = false) : answer x.target dev c e r = .data ((dev k).read (c k) (e k) ((dev k).sel r.addr)) := by
  rw [answer, hwe, if_neg Bool.false_ne_true, h]

/-- What is written comes from a write to the window. -/
theorem wr_of_opAccess {op : Option MmioReq} {k : Fin x.n} {e : ι k} {w : RegWrite (α k)}
    (h : (opAccess x.target dev op k e).wr = some w) :
    ∃ r, op = some r ∧ x.target r.addr = some k ∧ r.we = true ∧ w = ⟨(dev k).sel r.addr, r.wdata, r.wstrb⟩ := by
  cases op with
  | none => cases h
  | some r =>
    by_cases ht : x.target r.addr = some k
    · cases hwe : r.we with
      | false =>
        rw [opAccess_read ht hwe] at h
        cases h
      | true =>
        rw [opAccess_write ht hwe] at h
        cases h
        exact ⟨r, rfl, ht, hwe, rfl⟩
    · rw [opAccess_other ht] at h
      cases h

/-! ### The idle path -/

/-- Without a request nothing happens. -/
theorem idle_step_none (h : MmioAt .idle s) (hv : i.req.wvalid = false) : Steps dev s i .idle .idle := by
  cases h with
  | idle hs hx hp =>
    have hm : s.bridge.axi i.req = MasterBridge.quiet := by simp [MasterBridge.axi, hs, hv]
    have hq := fun k => toSlave_quiet s i.req (by rw [hm]; rfl) (by rw [hm]; rfl) (by rw [hm]; rfl) k
    have hop : s.op dev i = none := by simp [op, hs, hv]
    refine ⟨.idle ?_ ?_ ?_, ?_, ?_, ?_⟩
    · simp [next, MasterBridge.next, MasterBridge.stateD, hs, bridgeIn, hv]
    · exact hx.quiet (by rw [xbarIn, hm]; rfl) (by rw [xbarIn, hm]; rfl) (by rw [xbarIn, hm]; rfl)
    · intro k
      have := (slave_quiet dev (i := i) (hp k) (hq k)).2
      simpa using this
    · intro k
      rw [hop]
      exact (slave_quiet dev (hp k) (hq k)).1
    · rw [hop]
      simp [accepted, hv, Phase.pend]
    · rw [hop]
      simp [responded, rsp, MasterBridge.rsp, hs, Phase.owed]

variable (dev) in
/-- A slave at rest takes its address unless the write has to wait, and its data. -/
private theorem slave_ready {k : Fin x.n} (h : PortAt none false none (s.slave k).port) (req : MemReq) :
    ((s.xbarIn dev req).tgt k).awready = !(dev k).hold (s.cores k) ((dev k).sel (s.bridge.axi req).awaddr) ∧
      ((s.xbarIn dev req).tgt k).wready = true ∧ ((s.xbarIn dev req).tgt k).arready = true := by
  have hw : (s.slave k).port.wSeenQ = false := h.wSeen
  have hr : (s.slave k).port.rvalidQ = false := h.rValid
  simp [xbarIn, RegSlave.axi, h.awSeen, h.bValid, hw, hr, toSlave, toTarget, cores]

variable (dev) in
/-- A write is performed in the cycle it is accepted, unless it has to wait. -/
theorem idle_step_write (hd : x.Disjoint) (h : MmioAt .idle s) (hv : i.req.wvalid = true) (hwe : i.req.we = true) :
    Steps dev s i .idle (if waits x.target dev s.cores i.req.request then .held i.req.request else .wrote) := by
  cases h with
  | idle hs hx hp =>
    have hm : s.bridge.axi i.req = { MasterBridge.quiet with
        awaddr := i.req.addr, awvalid := true, wdata := i.req.wdata, wstrb := i.req.wstrb, wvalid := true } := by
      simp [MasterBridge.axi, hs, hv, hwe]
    have hxi : (s.xbarIn dev i.req).m = s.bridge.axi i.req := rfl
    have hto := fun k => toSlave_calm hx hd i.req k
    simp only [hm, Bool.true_and, MasterBridge.quiet, Bool.false_and] at hto
    have hacc : s.accepted dev i = some i.req.request := by
      simp [accepted, hv, rsp, MasterBridge.rsp, hs]
    have hresp : s.responded dev i = none := by simp [responded, rsp, MasterBridge.rsp, hs]
    have hwrdy : (toMaster x s.xbar (s.xbarIn dev i.req)).wready = true := by
      rw [hx.wready hd, hxi, hm]
      cases x.target i.req.addr with
      | none => rfl
      | some k => exact (slave_ready dev (hp k) i.req).2.1
    have hawrdy : (toMaster x s.xbar (s.xbarIn dev i.req)).awready = !waits x.target dev s.cores i.req.request := by
      rw [hx.awready hd, hxi, waits]
      have hwe' : i.req.request.we = true := hwe
      have haddr : i.req.request.addr = i.req.addr := rfl
      rw [hwe', haddr, hm]
      cases x.target i.req.addr with
      | none => rfl
      | some k =>
        have := (slave_ready dev (hp k) i.req).1
        rw [hm] at this
        exact this
    have hop : s.op dev i = if waits x.target dev s.cores i.req.request then none else some i.req.request := by
      simp only [op, hs, hv, Bool.true_and]
      cases waits x.target dev s.cores i.req.request <;> rfl
    -- the slaves that are not addressed
    have hother : ∀ k, x.target i.req.addr ≠ some k → s.access dev i k = ⟨none, none, i.ext k⟩ ∧
        PortAt none false none ((s.next dev i).slave k).port := by
      intro k hk
      have hq := hto k
      simp only [hk, decide_false] at hq
      have := slave_quiet dev (hp k) hq
      simpa using this
    have hself : ∀ k, x.target i.req.addr = some k →
        if (dev k).hold (s.cores k) ((dev k).sel i.req.addr) then
          s.access dev i k = ⟨none, none, i.ext k⟩ ∧
            PortAt (some (i.req.wdata, i.req.wstrb)) false none ((s.next dev i).slave k).port
        else
          s.access dev i k = ⟨some ⟨(dev k).sel i.req.addr, i.req.wdata, i.req.wstrb⟩, none, i.ext k⟩ ∧
            PortAt none true none ((s.next dev i).slave k).port := by
      intro k hk
      have hq := hto k
      simp only [hk, decide_true] at hq
      have := (hp k).write_step (d := dev k) (e := i.ext k) hq.1 hq.2.1 hq.2.2
      have haddr : (s.toSlave i.req k).awaddr = i.req.addr ∧ (s.toSlave i.req k).wdata = i.req.wdata ∧
          (s.toSlave i.req k).wstrb = i.req.wstrb := by simp [toSlave, toTarget, hm]
      rw [haddr.1, haddr.2.1, haddr.2.2] at this
      exact this
    have haw : (s.bridgeIn dev i.req).axi.awready = !waits x.target dev s.cores i.req.request := hawrdy
    have hxn := hx.open_write (i := s.xbarIn dev i.req) hd (by rw [hxi, hm]) (by rw [hxi, hm]; rfl) fun _ => by
      rw [hxi, hm]
    rw [hawrdy, hxi, hm] at hxn
    cases hwait : waits x.target dev s.cores i.req.request with
    | true =>
      rw [hwait] at hxn hop haw
      rw [if_pos rfl]
      obtain ⟨k, hk, hh⟩ : ∃ k, x.target i.req.addr = some k ∧
        (dev k).hold (s.cores k) ((dev k).sel i.req.addr) = true := by
        rw [waits, Bool.and_eq_true] at hwait
        have h2 := hwait.2
        change (match x.target i.req.addr with
          | some k => (dev k).hold (s.cores k) ((dev k).sel i.req.addr)
          | none => false) = true at h2
        cases ht : x.target i.req.addr with
        | none => rw [ht] at h2; exact absurd h2 Bool.false_ne_true
        | some k => rw [ht] at h2; exact ⟨k, rfl, h2⟩
      have hk' := hself k hk
      rw [if_pos hh] at hk'
      refine ⟨.held (k := k) ?_ hwe hk hxn ?_, ?_, ?_, ?_⟩
      · change s.bridge.next (s.bridgeIn dev i.req) = _
        rw [MasterBridge.launch_write hs hv hwe hwrdy, haw]
        rfl
      · intro j
        by_cases hj : k = j
        · subst hj
          rw [if_pos rfl]
          exact hk'.2
        · rw [if_neg hj]
          exact (hother j fun h => hj (Option.some.inj (hk.symm.trans h))).2
      · intro j
        rw [hop, if_pos rfl, opAccess_none]
        by_cases hj : k = j
        · subst hj
          exact hk'.1
        · exact (hother j fun h => hj (Option.some.inj (hk.symm.trans h))).1
      · rw [hop, hacc]
        rfl
      · rw [hop, hresp]
        rfl
    | false =>
      rw [hwait] at hxn hop haw
      rw [if_neg Bool.false_ne_true]
      have hfree : ∀ k, x.target i.req.addr = some k → (dev k).hold (s.cores k) ((dev k).sel i.req.addr) = false := by
        intro k hk
        rw [waits] at hwait
        have hwe' : i.req.request.we = true := hwe
        have haddr : x.target i.req.request.addr = some k := hk
        rw [hwe', haddr] at hwait
        exact hwait
      refine ⟨.wrote (t := x.target i.req.addr) ?_ hxn ?_, ?_, ?_, ?_⟩
      · change (s.bridge.next (s.bridgeIn dev i.req)).stateQ = _
        rw [MasterBridge.launch_write hs hv hwe hwrdy, haw]
        rfl
      · intro k
        rcases em (x.target i.req.addr = some k) with hk | hk
        · have hk' := hself k hk
          rw [if_neg (by simp [hfree k hk])] at hk'
          rw [decide_eq_true hk]
          exact hk'.2
        · rw [decide_eq_false hk]
          exact (hother k hk).2
      · intro k
        rw [hop, if_neg Bool.false_ne_true]
        rcases em (x.target i.req.addr = some k) with hk | hk
        · have hk' := hself k hk
          rw [if_neg (by simp [hfree k hk])] at hk'
          rw [hk'.1, opAccess_write hk hwe]
          rfl
        · rw [(hother k hk).1, opAccess_other hk]
      · rw [hop, hacc]
        rfl
      · have hans : answer x.target dev s.cores i.ext i.req.request = .ack := if_pos hwe
        rw [hop, hresp, if_neg Bool.false_ne_true, Option.map_some, hans]
        rfl

variable (dev) in
/-- A read is performed in the cycle it is accepted. -/
theorem idle_step_read (hd : x.Disjoint) (h : MmioAt .idle s) (hv : i.req.wvalid = true) (hwe : i.req.we = false) :
    ∃ v, Steps dev s i .idle (.read v) := by
  cases h with
  | idle hs hx hp =>
    have hm : s.bridge.axi i.req = { MasterBridge.quiet with araddr := i.req.addr, arvalid := true } := by
      simp [MasterBridge.axi, hs, hv, hwe]
    have hxi : (s.xbarIn dev i.req).m = s.bridge.axi i.req := rfl
    have hto := fun k => toSlave_calm hx hd i.req k
    simp only [hm, Bool.true_and, MasterBridge.quiet, Bool.false_and] at hto
    have hacc : s.accepted dev i = some i.req.request := by
      simp [accepted, hv, rsp, MasterBridge.rsp, hs]
    have hresp : s.responded dev i = none := by simp [responded, rsp, MasterBridge.rsp, hs]
    have harrdy : (toMaster x s.xbar (s.xbarIn dev i.req)).arready = true := by
      rw [hx.arready hd, hxi, hm]
      cases x.target i.req.addr with
      | none => rfl
      | some k => exact (slave_ready dev (hp k) i.req).2.2
    have hop : s.op dev i = some i.req.request := by
      have : waits x.target dev s.cores i.req.request = false := by simp [waits, MemReq.request, hwe]
      simp [op, hs, hv, this]
    have hother : ∀ k, x.target i.req.addr ≠ some k → s.access dev i k = ⟨none, none, i.ext k⟩ ∧
        PortAt none false none ((s.next dev i).slave k).port := by
      intro k hk
      have hq := hto k
      simp only [hk, decide_false] at hq
      have := slave_quiet dev (hp k) hq
      simpa using this
    have hself : ∀ k, x.target i.req.addr = some k →
        s.access dev i k = ⟨none, some ((dev k).sel i.req.addr), i.ext k⟩ ∧
          PortAt none false (some ((dev k).read (s.cores k) (i.ext k) ((dev k).sel i.req.addr)))
            ((s.next dev i).slave k).port := by
      intro k hk
      have hq := hto k
      simp only [hk, decide_true] at hq
      have := (hp k).read_step (d := dev k) (e := i.ext k) hq.1 hq.2.1 hq.2.2
      have haddr : (s.toSlave i.req k).araddr = i.req.addr := by simp [toSlave, toTarget, hm]
      rw [haddr] at this
      exact this
    have hxn :=
      hx.open_read (i := s.xbarIn dev i.req) hd (by rw [hxi, hm]; rfl) (by rw [hxi, hm]; rfl) (by rw [hxi, hm])
      harrdy
    rw [hxi, hm] at hxn
    have hans : answer x.target dev s.cores i.ext i.req.request = .data (pick (x.target i.req.addr)
        (fun k => (dev k).read (s.cores k) (i.ext k) ((dev k).sel i.req.addr)) 0) := by
      rw [answer, if_neg (by simp [MemReq.request, hwe])]
      rfl
    refine ⟨pick (x.target i.req.addr) (fun k => (dev k).read (s.cores k) (i.ext k) ((dev k).sel i.req.addr)) 0,
      .read (t := x.target i.req.addr) ?_ hxn ?_ ?_, ?_, ?_, ?_⟩
    · have hr : (s.bridgeIn dev i.req).axi.arready = true := harrdy
      change s.bridge.stateD (s.bridgeIn dev i.req) = _
      have hreq : (s.bridgeIn dev i.req).req = i.req := rfl
      simp [MasterBridge.stateD, hs, hreq, hv, hwe, MasterBridge.arHs, Axi.arHs, hr, hm]
    · intro k
      rcases em (x.target i.req.addr = some k) with hk | hk
      · have := (hself k hk).2
        rw [if_pos hk, hk]
        exact this
      · rw [if_neg hk]
        exact (hother k hk).2
    · intro ht
      rw [ht]
      rfl
    · intro k
      rw [hop]
      rcases em (x.target i.req.addr = some k) with hk | hk
      · rw [(hself k hk).1, opAccess_read hk hwe]
        rfl
      · rw [(hother k hk).1, opAccess_other hk]
    · rw [hop, hacc]
      rfl
    · rw [hop, hresp, Option.map_some, hans]
      rfl

/-! ### The busy path -/

theorem accepted_busy (h : s.bridge.stateQ ≠ .idle) : s.accepted dev i = none := by
  simp [accepted, rsp, MasterBridge.rsp, h]

/-- The address of a held write is offered until its slave takes it. -/
theorem held_step (hd : x.Disjoint) {r : MmioReq} (h : MmioAt (.held r) s) :
    Steps dev s i (.held r) (if waits x.target dev s.cores r then .held r else .wrote) := by
  cases h with
  | @held _ _ k hs hwe hk hx hp =>
    have hst : s.bridge.stateQ = .wrData := by rw [hs]
    have hm : s.bridge.axi i.req = { MasterBridge.quiet with awaddr := r.addr, awvalid := true } := by
      simp [MasterBridge.axi, hs]
    have hxi : (s.xbarIn dev i.req).m = s.bridge.axi i.req := rfl
    have hto := fun k => toSlave_calm hx hd i.req k
    simp only [hm, Bool.true_and, MasterBridge.quiet, Bool.false_and] at hto
    have hacc : s.accepted dev i = none := accepted_busy (by simp [hst])
    have hresp : s.responded dev i = none := by simp [responded, rsp, MasterBridge.rsp, hst]
    have hpk : PortAt (some (r.wdata, r.wstrb)) false none (s.slave k).port := by
      have := hp k
      rwa [if_pos rfl] at this
    have hwaits : waits x.target dev s.cores r = (dev k).hold (s.cores k) ((dev k).sel r.addr) := by
      rw [waits, hwe, hk]
      rfl
    have hawrdy : (toMaster x s.xbar (s.xbarIn dev i.req)).awready = !waits x.target dev s.cores r := by
      rw [hx.awready hd, hxi, hm, hk, hwaits]
      simp [pick, xbarIn, RegSlave.axi, hpk.awSeen, hpk.bValid, toSlave, toTarget, cores, hm]
    have hop : s.op dev i = if waits x.target dev s.cores r then none else some r := by
      have hr : (⟨true, r.addr, r.wdata, r.wstrb⟩ : MmioReq) = r := by rw [← hwe]
      rw [op, hst]
      simp only [hs, hr]
    have hother : ∀ j, k ≠ j → s.access dev i j = ⟨none, none, i.ext j⟩ ∧
        PortAt none false none ((s.next dev i).slave j).port := by
      intro j hj
      have hq := hto j
      have hne : x.target r.addr ≠ some j := fun h => hj (Option.some.inj (hk.symm.trans h))
      simp only [hne, decide_false] at hq
      have hpj := hp j
      rw [if_neg hj] at hpj
      have := slave_quiet dev hpj hq
      simpa using this
    have hself := hpk.address_step (d := dev k) (m := s.toSlave i.req k) (e := i.ext k) (by simp [hto k, hk])
      (hto k).2.1 (hto k).2.2
    have haddr : (s.toSlave i.req k).awaddr = r.addr := by simp [toSlave, toTarget, hm]
    rw [haddr] at hself
    have haw : (s.bridgeIn dev i.req).axi.awready = !waits x.target dev s.cores r := hawrdy
    have hxn := hx.open_write (i := s.xbarIn dev i.req) hd (by rw [hxi, hm]) (by rw [hxi, hm]; rfl) fun ht => by
      rw [hxi, hm] at ht
      exact absurd (hk.symm.trans ht) (by simp)
    rw [hawrdy, hxi, hm] at hxn
    cases hwait : waits x.target dev s.cores r with
    | true =>
      rw [hwait] at hxn hop haw
      rw [if_pos rfl]
      have hh : (dev k).hold (s.slave k).core ((dev k).sel r.addr) = true := hwaits.symm.trans hwait
      rw [if_pos hh] at hself
      refine ⟨.held (k := k) ?_ hwe hk hxn ?_, ?_, ?_, ?_⟩
      · change s.bridge.next (s.bridgeIn dev i.req) = _
        simp [MasterBridge.next, MasterBridge.stateD, MasterBridge.accept, MasterBridge.awHs, Axi.awHs, hs, haw]
      · intro j
        by_cases hj : k = j
        · subst hj
          rw [if_pos rfl]
          exact hself.2
        · rw [if_neg hj]
          exact (hother j hj).2
      · intro j
        rw [hop, if_pos rfl, opAccess_none]
        by_cases hj : k = j
        · subst hj
          exact hself.1
        · exact (hother j hj).1
      · rw [hop, hacc]
        rfl
      · rw [hop, hresp]
        rfl
    | false =>
      rw [hwait] at hxn hop haw
      rw [if_neg Bool.false_ne_true]
      have hh : (dev k).hold (s.slave k).core ((dev k).sel r.addr) = false := hwaits.symm.trans hwait
      rw [if_neg (by simp [hh])] at hself
      refine ⟨.wrote (t := x.target r.addr) ?_ hxn ?_, ?_, ?_, ?_⟩
      · change s.bridge.stateD (s.bridgeIn dev i.req) = _
        have hreq : (s.bridgeIn dev i.req).req = i.req := rfl
        simp [MasterBridge.stateD, MasterBridge.awHs, Axi.awHs, hst, hreq, hm, haw]
      · intro j
        by_cases hj : k = j
        · subst hj
          rw [decide_eq_true hk]
          exact hself.2
        · rw [decide_eq_false fun h => hj (Option.some.inj (hk.symm.trans h))]
          exact (hother j hj).2
      · intro j
        rw [hop, if_neg Bool.false_ne_true]
        by_cases hj : k = j
        · subst hj
          rw [opAccess_write hk hwe]
          exact hself.1
        · rw [opAccess_other fun h => hj (Option.some.inj (hk.symm.trans h))]
          exact (hother j hj).1
      · rw [hop, hacc]
        rfl
      · have hans : answer x.target dev s.cores i.ext r = .ack := if_pos hwe
        rw [hop, hresp, if_neg Bool.false_ne_true, Option.map_some, hans]
        rfl

variable (dev) in
/-- The response of a write comes at once. -/
theorem wrote_step (h : MmioAt .wrote s) : Steps dev s i .wrote .idle := by
  cases h with
  | @wrote _ t hs hx hp =>
    have hm : s.bridge.axi i.req = MasterBridge.quiet := by simp [MasterBridge.axi, hs]
    have hxi : (s.xbarIn dev i.req).m = MasterBridge.quiet := hm
    have hq := fun k => toSlave_quiet s i.req (by rw [hm]; rfl) (by rw [hm]; rfl) (by rw [hm]; rfl) k
    have hop : s.op dev i = none := by simp [op, hs]
    have hv : (toMaster x s.xbar (s.xbarIn dev i.req)).bvalid = true := by
      rw [hx.bvalid]
      cases t with
      | none => rfl
      | some k => simpa [pick, xbarIn, RegSlave.axi] using (hp k).bValid
    have hv' : (s.bridgeIn dev i.req).axi.bvalid = true := hv
    have hreq : (s.bridgeIn dev i.req).req = i.req := rfl
    refine ⟨.idle ?_ (hx.close_write (by rw [hxi]; rfl) (by rw [hxi]; rfl) (by rw [hxi]; rfl) (by rw [hxi]; rfl) hv)
      ?_, ?_, ?_, ?_⟩
    · change s.bridge.stateD (s.bridgeIn dev i.req) = _
      simp [MasterBridge.stateD, MasterBridge.bHs, Axi.bHs, hs, hv', hreq, hm, MasterBridge.quiet]
    · intro k
      have := (slave_quiet dev (i := i) (hp k) (hq k)).2
      have hb : (decide (t = some k) && !(s.toSlave i.req k).bready) = false := by
        rcases em (t = some k) with hk | hk
        · have h1 : s.xbar.wrBusyQ = true := hx.wrBusy
          have h2 := hx.wrErr t rfl
          have h3 := hx.wrSel t rfl k
          simp [toSlave, toTarget, h1, h2, h3, hk, hm, MasterBridge.quiet]
        · simp [hk]
      rw [hb] at this
      simpa using this
    · intro k
      rw [hop]
      exact (slave_quiet dev (hp k) (hq k)).1
    · rw [hop, accepted_busy (by simp [hs])]
      rfl
    · have hr : s.responded dev i = some .ack := by
        simp [responded, rsp, MasterBridge.rsp, hs, MasterBridge.bHs, Axi.bHs, hv', hreq, hm, MasterBridge.quiet]
      rw [hop, hr]
      rfl

/-- The sample of a read stays until the native master takes it. -/
theorem read_step {v : Word} (h : MmioAt (.read v) s) :
    Steps dev s i (.read v) (if i.req.rready then .idle else .read v) := by
  cases h with
  | @read _ t _ hs hx hp hz =>
    have hm : s.bridge.axi i.req = { MasterBridge.quiet with rready := i.req.rready } := by
      simp [MasterBridge.axi, hs]
    have hxi : (s.xbarIn dev i.req).m = { MasterBridge.quiet with rready := i.req.rready } := hm
    have hq := fun k => toSlave_quiet s i.req (by rw [hm]; rfl) (by rw [hm]; rfl) (by rw [hm]; rfl) k
    have hop : s.op dev i = none := by simp [op, hs]
    have hv : (toMaster x s.xbar (s.xbarIn dev i.req)).rvalid = true := by
      rw [hx.rvalid]
      cases t with
      | none => rfl
      | some k =>
        have := (hp k).rValid
        rw [if_pos rfl] at this
        simpa [pick, xbarIn, RegSlave.axi] using this
    have hdata : (toMaster x s.xbar (s.xbarIn dev i.req)).rdata = v := by
      rw [hx.rdata]
      cases t with
      | none => exact (hz rfl).symm
      | some k => exact (hp k).rData v (if_pos rfl)
    have hv' : (s.bridgeIn dev i.req).axi.rvalid = true := hv
    have hdata' : (s.bridgeIn dev i.req).axi.rdata = v := hdata
    have hreq : (s.bridgeIn dev i.req).req = i.req := rfl
    have hrr : ∀ k, t = some k → (s.toSlave i.req k).rready = i.req.rready := by
      intro k hk
      have h1 : s.xbar.rdBusyQ = true := hx.rdBusy
      have h2 := hx.rdErr t rfl
      have h3 := hx.rdSel t rfl k
      simp [toSlave, toTarget, h1, h2, h3, hk, hm]
    have hxn := hx.close_read (i := s.xbarIn dev i.req) (by rw [hxi]; rfl) (by rw [hxi]; rfl) (by rw [hxi]; rfl) hv
    rw [hxi] at hxn
    have hresp : s.responded dev i = if i.req.rready then some (.data v) else none := by
      cases hr : i.req.rready <;>
        simp [responded, rsp, MasterBridge.rsp, hs, MasterBridge.rHs, Axi.rHs, hv', hdata', hreq, hm, hr]
    have hst : (s.next dev i).bridge.stateQ = if i.req.rready then .idle else .rdWait := by
      change s.bridge.stateD (s.bridgeIn dev i.req) = _
      simp [MasterBridge.stateD, MasterBridge.rHs, Axi.rHs, hs, hv', hreq, hm]
    have heff : ∀ k, s.access dev i k = opAccess x.target dev (s.op dev i) k (i.ext k) := by
      intro k
      rw [hop]
      exact (slave_quiet dev (hp k) (hq k)).1
    have hport := fun k => (slave_quiet dev (i := i) (hp k) (hq k)).2
    have hacc : s.accepted dev i = none := accepted_busy (by simp [hs])
    cases hr : i.req.rready with
    | true =>
      rw [hr] at hst hresp hxn
      rw [if_pos rfl]
      refine ⟨.idle hst hxn ?_, heff, ?_, ?_⟩
      · intro k
        have := hport k
        rcases em (t = some k) with hk | hk
        · rw [hrr k hk, hr] at this
          simpa using this
        · simpa [hk] using this
      · rw [hop, hacc]
        rfl
      · rw [hop, hresp]
        rfl
    | false =>
      rw [hr] at hst hresp hxn
      rw [if_neg Bool.false_ne_true]
      refine ⟨.read (t := t) hst hxn ?_ hz, heff, ?_, ?_⟩
      · intro k
        have := hport k
        rcases em (t = some k) with hk | hk
        · rw [hrr k hk, hr] at this
          simpa [hk] using this
        · simpa [hk] using this
      · rw [hop, hacc]
        rfl
      · rw [hop, hresp]
        rfl

variable (dev) in
/-- One clock edge, in whatever phase. -/
private theorem step (hd : x.Disjoint) {p : Phase} (h : MmioAt p s) (i : MmioIn x ι) : ∃ p', Steps dev s i p p' := by
  cases p with
  | idle =>
    cases hv : i.req.wvalid with
    | false => exact ⟨_, idle_step_none h hv⟩
    | true =>
      cases hwe : i.req.we with
      | true => exact ⟨_, idle_step_write dev hd h hv hwe⟩
      | false =>
        obtain ⟨v, hv⟩ := idle_step_read dev hd h hv hwe
        exact ⟨_, hv⟩
  | held r => exact ⟨_, held_step hd h⟩
  | wrote => exact ⟨_, wrote_step dev h⟩
  | read v => exact ⟨_, read_step h⟩

/-! ### A run -/

section Run

variable (sel : Word → Option (Fin x.n)) (dev : ∀ k, RegDevice (α k) (σ k) (ι k)) (s : MmioPath x α σ)
variable (inp : Nat → MmioIn x ι)

abbrev pathAt (t : Nat) : MmioPath x α σ := trace (next dev) s inp t

/-- The inputs of the sequential machine. -/
def seqInp (op : Nat → Option MmioReq) (t : Nat) : SeqIn x ι := ⟨op t, (inp t).ext⟩

/-- The requests the native port has accepted before cycle `t`. -/
def acceptedLog (t : Nat) : List MmioReq := logFrom (accepted dev) (next dev) s inp 0 t

/-- The answers it has given. -/
def respondedLog (t : Nat) : List MmioResp := logFrom (responded dev) (next dev) s inp 0 t

/-- The requests the sequential machine has performed before cycle `t`. -/
def performedLog (op : Nat → Option MmioReq) (t : Nat) : List MmioReq :=
  logFrom (fun _ i => i.op) (seqNext sel dev) s.cores (seqInp inp op) 0 t

/-- The answers to them. -/
def answerLog (op : Nat → Option MmioReq) (t : Nat) : List MmioResp :=
  logFrom (seqAnswer sel dev) (seqNext sel dev) s.cores (seqInp inp op) 0 t

/-- The native master takes its read data in the end, and no accepted request finds its FIFO full for ever. -/
structure Fair (op : Nat → Option MmioReq) : Prop where
  rready : ∀ t, ∃ u, t ≤ u ∧ (inp u).req.rready = true
  drains : ∀ r t, acceptedLog dev s inp t = performedLog sel dev s inp op t ++ [r] →
    ∃ u, t ≤ u ∧ waits sel dev (pathAt dev s inp u).cores r = false

/-- The path does what the sequential machine does that performs `op`. -/
structure Refines (op : Nat → Option MmioReq) : Prop where
  /-- Every device sees the requests to its window, when they are performed, and nothing else. -/
  effect : ∀ t k, (pathAt dev s inp t).access dev (inp t) k = opAccess sel dev (op t) k ((inp t).ext k)
  cores : ∀ t, (pathAt dev s inp t).cores = trace (seqNext sel dev) s.cores (seqInp inp op) t
  /-- The accepted requests are performed, each once and in order; at most one is still to be. -/
  order : ∀ t, ∃ p, p.length ≤ 1 ∧ acceptedLog dev s inp t = performedLog sel dev s inp op t ++ p
  /-- The answers are given likewise. -/
  answers : ∀ t, ∃ p, p.length ≤ 1 ∧ answerLog sel dev s inp op t = respondedLog dev s inp t ++ p
  /-- Everything is performed and answered in the end, and the port is free again. -/
  completes : Fair sel dev s inp op → ∀ t, ∃ u, t ≤ u ∧ ((pathAt dev s inp u).rsp dev (inp u)).wready = true ∧
    acceptedLog dev s inp u = performedLog sel dev s inp op u ∧
    answerLog sel dev s inp op u = respondedLog dev s inp u

/-- The request performed in cycle `t`. -/
def opAt (t : Nat) : Option MmioReq := (pathAt dev s inp t).op dev (inp t)

/-- The path and the sequential machine after `t` cycles. -/
structure Tracks (t : Nat) (p : Phase) : Prop where
  phase : MmioAt p (pathAt dev s inp t)
  cores : (pathAt dev s inp t).cores = trace (seqNext x.target dev) s.cores (seqInp inp (opAt dev s inp)) t
  order : acceptedLog dev s inp t = performedLog x.target dev s inp (opAt dev s inp) t ++ p.pend
  answers : answerLog x.target dev s inp (opAt dev s inp) t = respondedLog dev s inp t ++ p.owed

end Run

variable {inp : Nat → MmioIn x ι}

private theorem Tracks.next {t : Nat} {p p' : Phase} (h : Tracks dev s inp t p)
    (hs : Steps dev (pathAt dev s inp t) (inp t) p p') : Tracks dev s inp (t + 1) p' := by
  refine ⟨hs.next, ?_, ?_, ?_⟩
  · rw [trace_succ, ← h.cores]
    funext k
    change (dev k).next _ _ = (dev k).next _ _
    have := hs.effect k
    rw [access] at this
    rw [this]
    rfl
  · rw [acceptedLog, logFrom_succ, Nat.zero_add, ← acceptedLog, h.order, List.append_assoc, hs.order, performedLog,
      performedLog, logFrom_succ, Nat.zero_add, List.append_assoc]
    rfl
  · have ha : answerLog x.target dev s inp (opAt dev s inp) (t + 1) =
        answerLog x.target dev s inp (opAt dev s inp) t ++
          ((opAt dev s inp t).map (answer x.target dev (pathAt dev s inp t).cores (inp t).ext)).toList := by
      rw [h.cores, answerLog, logFrom_succ, Nat.zero_add]
      rfl
    have hr : respondedLog dev s inp (t + 1) =
        respondedLog dev s inp t ++ ((pathAt dev s inp t).responded dev (inp t)).toList := by
      rw [respondedLog, logFrom_succ, Nat.zero_add]
      rfl
    rw [ha, hr, h.answers, List.append_assoc, List.append_assoc]
    exact congrArg _ hs.answers

variable (dev inp) in
private theorem tracks_run (hd : x.Disjoint) (h0 : MmioAt .idle s) (t : Nat) : ∃ p, Tracks dev s inp t p := by
  induction t with
  | zero => exact ⟨.idle, h0, rfl, rfl, rfl⟩
  | succ t ih =>
    obtain ⟨p, hp⟩ := ih
    obtain ⟨p', hs⟩ := step dev hd hp.phase (inp t)
    exact ⟨p', hp.next hs⟩

/-- From every phase the path gets back to rest. -/
private theorem Tracks.exists_idle (hd : x.Disjoint) (hf : Fair x.target dev s inp (opAt dev s inp))
    {t : Nat} {p : Phase} (h : Tracks dev s inp t p) : ∃ u, t ≤ u ∧ Tracks dev s inp u .idle := by
  cases p with
  | idle => exact ⟨t, le_rfl, h⟩
  | wrote => exact ⟨t + 1, by omega, h.next (wrote_step dev h.phase)⟩
  | read v =>
    have hstep : ∀ u, Tracks dev s inp u (.read v) → ¬(inp u).req.rready = true →
        Tracks dev s inp (u + 1) (.read v) := by
      intro u hu hne
      have := hu.next (read_step hu.phase)
      rwa [if_neg hne] at this
    obtain ⟨u, htu, hu, he⟩ := exists_exit h hstep fun _ => hf.rready t
    have := hu.next (read_step hu.phase)
    rw [if_pos he] at this
    exact ⟨u + 1, by omega, this⟩
  | held r =>
    have hstep : ∀ u, Tracks dev s inp u (.held r) → ¬waits x.target dev (pathAt dev s inp u).cores r = false →
        Tracks dev s inp (u + 1) (.held r) := by
      intro u hu hne
      have := hu.next (held_step hd hu.phase)
      rwa [if_pos (by simpa using hne)] at this
    obtain ⟨u, htu, hu, he⟩ := exists_exit h hstep fun _ => hf.drains r t h.order
    have hw := hu.next (held_step hd hu.phase)
    rw [if_neg (by simp [he])] at hw
    exact ⟨u + 2, by omega, hw.next (wrote_step dev hw.phase)⟩

private theorem pend_length (p : Phase) : p.pend.length ≤ 1 := by cases p <;> simp [Phase.pend]

private theorem owed_length (p : Phase) : p.owed.length ≤ 1 := by cases p <;> simp [Phase.owed]

theorem MmioAt.wready (h : MmioAt .idle s) : (s.rsp dev i).wready = true := by
  cases h with
  | idle hs _ _ => simp [rsp, MasterBridge.rsp, hs]

/-- The path is the sequential machine on the windows the comparators find. -/
theorem refines_target (hd : x.Disjoint) (h0 : MmioAt .idle s) : Refines x.target dev s inp (opAt dev s inp) := by
  refine ⟨?_, ?_, ?_, ?_, ?_⟩
  · intro t k
    obtain ⟨p, hp⟩ := tracks_run dev inp hd h0 t
    obtain ⟨p', hs⟩ := step dev hd hp.phase (inp t)
    exact hs.effect k
  · intro t
    obtain ⟨p, hp⟩ := tracks_run dev inp hd h0 t
    exact hp.cores
  · intro t
    obtain ⟨p, hp⟩ := tracks_run dev inp hd h0 t
    exact ⟨p.pend, pend_length p, hp.order⟩
  · intro t
    obtain ⟨p, hp⟩ := tracks_run dev inp hd h0 t
    exact ⟨p.owed, owed_length p, hp.answers⟩
  · intro hf t
    obtain ⟨p, hp⟩ := tracks_run dev inp hd h0 t
    obtain ⟨u, htu, hu⟩ := hp.exists_idle hd hf
    refine ⟨u, htu, hu.phase.wready, ?_, ?_⟩
    · exact hu.order.trans (List.append_nil _)
    · exact hu.answers.trans (List.append_nil _)

/-! ### Windows that end at the top of the address space -/

/-- Where every window ends below `2 ^ 32`, the comparators find the window that contains the address. -/
theorem target_eq_lowest (hb : ∀ k, (x.base k).toNat + (x.size k).toNat < 2 ^ 32) :
    x.target = x.lowest := by
  funext a
  rw [XbarParams.target, XbarParams.lowest]
  congr 1
  funext k
  rw [Bool.eq_iff_iff, winMatch_iff, decide_eq_true_iff]
  exact and_iff_left (hb k)

/-- A write to the first address of the window `k`, over and over. -/
def poke (ext : ∀ k, ι k) (k : Fin x.n) (_ : Nat) : MmioIn x ι :=
  ⟨{ wvalid := true, we := true, addr := x.base k, wdata := 0, wstrb := 0xF#4, rready := true }, ext⟩

private theorem lowest_base (hd : x.Disjoint) {k : Fin x.n} (hk : 2 ^ 32 ≤ (x.base k).toNat + (x.size k).toNat) :
    x.lowest (x.base k) = some k := by
  have hb := (x.base k).isLt
  have hc : x.Covers (x.base k) k := ⟨le_rfl, by omega⟩
  cases hl : x.lowest (x.base k) with
  | none => exact absurd (by simpa using hc) (List.find?_eq_none.mp hl k (List.mem_finRange k))
  | some j => rw [hd _ j k (covers_of_lowest hl) hc]

private theorem target_base (hd : x.Disjoint) {k : Fin x.n} (hk : 2 ^ 32 ≤ (x.base k).toNat + (x.size k).toNat) :
    x.target (x.base k) = none := by
  have hb := (x.base k).isLt
  have hc : x.Covers (x.base k) k := ⟨le_rfl, by omega⟩
  rw [XbarParams.target, List.find?_eq_none]
  intro j _ hj
  have hw := (winMatch_iff _ j).mp hj
  rw [hd _ j k hw.1 hc] at hw
  omega

/-- What is performed has been asked for. -/
private theorem Refines.op_request {sel : Word → Option (Fin x.n)} {op : Nat → Option MmioReq}
    (h : Refines sel dev s inp op) {t : Nat} {r : MmioReq} (ht : op t = some r) : ∃ u, r = (inp u).req.request := by
  obtain ⟨p, -, hp⟩ := h.order (t + 1)
  have hr : r ∈ acceptedLog dev s inp (t + 1) := by
    rw [hp, performedLog, logFrom_succ, Nat.zero_add]
    simp [seqInp, ht]
  obtain ⟨u, -, hu⟩ := mem_logFrom hr
  rw [accepted] at hu
  split at hu
  · exact ⟨_, (Option.some.inj hu).symm⟩
  · exact absurd hu (by simp)

/-- A window that ends at `2 ^ 32` or beyond is never reached: its writes are answered and not performed. -/
theorem not_refines_top (hd : x.Disjoint) (h0 : MmioAt .idle s) {k : Fin x.n}
    (hk : 2 ^ 32 ≤ (x.base k).toNat + (x.size k).toNat) (ext : ∀ k, ι k) (op : Nat → Option MmioReq) :
    ¬Refines x.lowest dev s (poke ext k) op := by
  intro h
  have hnone := target_base hd hk
  have hquiet : ∀ t, ((pathAt dev s (poke ext k) t).access dev (poke ext k t) k).wr = none := by
    intro t
    have hr : Refines x.target dev s (poke ext k) (opAt dev s (poke ext k)) := refines_target hd h0
    rw [hr.effect t k]
    cases hop : opAt dev s (poke ext k) t with
    | none => rfl
    | some r =>
      obtain ⟨u, hu⟩ := hr.op_request hop
      have ht : x.target r.addr = none := by
        rw [hu]
        exact hnone
      rw [opAccess_other (by simp [ht])]
  -- the bridge launches the write and has its answer in the next cycle
  have hw : MmioAt .wrote (pathAt dev s (poke ext k) 1) := by
    have hf : waits x.target dev s.cores (poke ext k 0).req.request = false := by
      have : x.target (poke ext k 0).req.request.addr = none := hnone
      rw [waits, this, Bool.and_false]
    have := (idle_step_write dev (i := poke ext k 0) hd h0 rfl rfl).next
    rwa [hf] at this
  have hresp : (pathAt dev s (poke ext k) 1).responded dev (poke ext k 1) ≠ none := by
    intro hn
    have := (wrote_step dev (i := poke ext k 1) hw).answers
    rw [hn] at this
    simp [Phase.owed] at this
  obtain ⟨p, -, hp⟩ := h.answers 2
  have hlog : answerLog x.lowest dev s (poke ext k) op 2 ≠ [] := by
    intro hnil
    rw [hnil] at hp
    have h2 : respondedLog dev s (poke ext k) 2 = [] := (List.append_eq_nil_iff.mp hp.symm).1
    exact hresp (logFrom_eq_nil.mp h2 1 (by omega))
  -- so the write has been performed at its window
  obtain ⟨a, ha⟩ := List.exists_mem_of_ne_nil _ hlog
  obtain ⟨t, -, ht⟩ := mem_logFrom ha
  obtain ⟨r, hr, -⟩ := Option.map_eq_some_iff.mp ht
  have hr' : op (0 + t) = some r := hr
  obtain ⟨u, hu⟩ := h.op_request hr'
  have heff := congrArg RegAccess.wr (h.effect (0 + t) k)
  have hl : x.lowest r.addr = some k := by
    rw [hu]
    exact lowest_base hd hk
  rw [hquiet, hr', opAccess, if_pos hl, hu] at heff
  exact absurd heff (by simp [poke, MemReq.request])

end MmioPath

end Yarv
