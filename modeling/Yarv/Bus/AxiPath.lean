import Yarv.Bus.MmioFacts

/-!
# Any slaves on the peripheral path

The bridge and the crossbar over slaves that are machines of any kind (`AxiPath`).  A slave acts as a register slave
if it drives the same wires whenever the master keeps to one transaction at a time, but for its read data while there
is none (`ActsAs`).  A path of such slaves answers the native port exactly as the path of the register slaves does
(`Plays.step`).
-/

namespace Yarv

/-- A slave: what it drives, and its clock edge. -/
structure AxiSlave (S ι : Type) where
  axi : S → AxiM → AxiS
  next : S → AxiM → ι → S

/-- A register slave is one. -/
def RegDevice.slave {α σ ι : Type} (d : RegDevice α σ ι) : AxiSlave (RegSlave α σ) ι where
  axi s m := s.axi d m
  next s m e := s.next d ⟨m, e⟩

/-! ### Slaves that act as register slaves -/

/-- Two slaves drive the same; the acceptance of a read counts when one is offered, the data when it is valid. -/
structure Drives (m : AxiM) (y y' : AxiS) : Prop where
  awready : y.awready = y'.awready
  wready : y.wready = y'.wready
  bvalid : y.bvalid = y'.bvalid
  rvalid : y.rvalid = y'.rvalid
  arready : m.arvalid = true → y.arready = y'.arready
  rdata : y'.rvalid = true → y.rdata = y'.rdata

/-- A read is offered or outstanding alone. -/
structure ReadAlone {α : Type} (p : SlavePort α) (m : AxiM) : Prop where
  write : m.arvalid = true ∨ p.rvalidQ = true → p.awSeenQ = false ∧ m.awvalid = false
  read : p.rvalidQ = true → m.arvalid = false

/-- The slave acts as the register slave of the device `d`, as long as reads are alone. -/
structure ActsAs {S α σ ι : Type} (y : AxiSlave S ι) (d : RegDevice α σ ι)
    (Like : S → RegSlave α σ → Prop) : Prop where
  drives : ∀ f r m, Like f r → ReadAlone r.port m → Drives m (y.axi f m) (r.axi d m)
  next : ∀ f r m e, Like f r → ReadAlone r.port m → Like (y.next f m e) (r.next d ⟨m, e⟩)

private theorem Drives.refl (m : AxiM) (y : AxiS) : Drives m y y := ⟨rfl, rfl, rfl, rfl, fun _ => rfl, fun _ => rfl⟩

/-- A register slave acts as itself. -/
theorem RegDevice.actsAs {α σ ι : Type} (d : RegDevice α σ ι) : ActsAs d.slave d Eq := by
  refine ⟨?_, ?_⟩
  · rintro f _ m rfl -
    exact Drives.refl m _
  · rintro f _ m e rfl -
    rfl

/-! ### The path -/

/-- The flops of the path. -/
structure AxiPath (x : XbarParams) (S : Fin x.n → Type) where
  bridge : MasterBridge
  xbar : Xbar x.n
  slave : ∀ k, S k

namespace AxiPath

open Xbar MmioPath

variable {x : XbarParams} {S α σ ι : Fin x.n → Type} (y : ∀ k, AxiSlave (S k) (ι k)) (s : AxiPath x S)
  (i : MmioIn x ι)

/-- What slave `k` sees; the crossbar does not look at the slaves for it. -/
def toSlave (req : MemReq) (k : Fin x.n) : AxiM := Xbar.toTarget x s.xbar ⟨s.bridge.axi req, fun _ => AxiS.silent⟩ k

def xbarIn (req : MemReq) : XbarIn x.n := ⟨s.bridge.axi req, fun k => (y k).axi (s.slave k) (s.toSlave req k)⟩

def bridgeIn (req : MemReq) : BridgeIn := ⟨req, Xbar.toMaster x s.xbar (s.xbarIn y req)⟩

/-- `rsp_o` of the bridge. -/
def rsp : MemRsp := s.bridge.rsp (s.bridgeIn y i.req)

/-- One clock edge. -/
def next : AxiPath x S where
  bridge := s.bridge.next (s.bridgeIn y i.req)
  xbar := Xbar.next x s.xbar (s.xbarIn y i.req)
  slave k := (y k).next (s.slave k) (s.toSlave i.req k) (i.ext k)

/-- Every slave is like a register slave. -/
structure Plays (Like : ∀ k, S k → RegSlave (α k) (σ k) → Prop) (s : AxiPath x S) (b : MmioPath x α σ) : Prop where
  bridge : s.bridge = b.bridge
  xbar : s.xbar = b.xbar
  slave : ∀ k, Like k (s.slave k) (b.slave k)

end AxiPath

/-! ### What the master makes of the slaves -/

namespace Xbar

variable {x : XbarParams} {q : Xbar x.n} {m : AxiM} {y y' : Fin x.n → AxiS}

private theorem orReduce_congr {n : Nat} {v w : Fin n → Bool} (h : ∀ k, v k = w k) : orReduce v = orReduce w := by
  rw [show v = w from funext h]

/-- The handshakes of the master depend on what its slaves drive, and on nothing else. -/
private theorem toMaster_congr (h : ∀ k, Drives (toTarget x q ⟨m, y'⟩ k) (y k) (y' k)) :
    (toMaster x q ⟨m, y⟩).awready = (toMaster x q ⟨m, y'⟩).awready ∧
      (toMaster x q ⟨m, y⟩).wready = (toMaster x q ⟨m, y'⟩).wready ∧
      (toMaster x q ⟨m, y⟩).bvalid = (toMaster x q ⟨m, y'⟩).bvalid ∧
      (toMaster x q ⟨m, y⟩).arready = (toMaster x q ⟨m, y'⟩).arready ∧
      (toMaster x q ⟨m, y⟩).rvalid = (toMaster x q ⟨m, y'⟩).rvalid := by
  have har : ∀ b : Bool,
      (arGo x q ⟨m, y⟩ && (if b then errArready x q else orReduce fun k => rdMatch x ⟨m, y⟩ k && (y k).arready)) =
      (arGo x q ⟨m, y'⟩ &&
        (if b then errArready x q else orReduce fun k => rdMatch x ⟨m, y'⟩ k && (y' k).arready)) := by
    intro b
    change (arGo x q ⟨m, y'⟩ && _) = _
    cases hgo : arGo x q ⟨m, y'⟩ with
    | false => rfl
    | true =>
      congr 2
      refine orReduce_congr fun k => ?_
      change (rdMatch x ⟨m, y'⟩ k && _) = _
      cases hk : rdMatch x ⟨m, y'⟩ k with
      | false => rfl
      | true =>
        have hoffer : (toTarget x q ⟨m, y'⟩ k).arvalid = true := by
          change (arGo x q ⟨m, y'⟩ && rdMatch x ⟨m, y'⟩ k) = true
          rw [hgo, hk]
          rfl
        rw [(h k).arready hoffer]
  refine ⟨?_, ?_, ?_, har _, ?_⟩
  · change (awGo x q ⟨m, y'⟩ &&
      (if wrLiveErr x ⟨m, y'⟩ then _ else orReduce fun k => wrMatch x ⟨m, y'⟩ k && (y k).awready)) = _
    rw [orReduce_congr fun k => congrArg (wrMatch x ⟨m, y'⟩ k && ·) (h k).awready]
    rfl
  · change (m.wvalid &&
      (if wrEffErr x q ⟨m, y'⟩ then _ else orReduce fun k => wrEffMatch x q ⟨m, y'⟩ k && (y k).wready)) = _
    rw [orReduce_congr fun k => congrArg (wrEffMatch x q ⟨m, y'⟩ k && ·) (h k).wready]
    rfl
  · change (if q.wrBusyQ && !q.wrErrQ then orReduce fun k => q.wrMatchQ k && (y k).bvalid else _) = _
    rw [orReduce_congr fun k => congrArg (q.wrMatchQ k && ·) (h k).bvalid]
    rfl
  · change (if q.rdBusyQ && !q.rdErrQ then orReduce fun k => q.rdMatchQ k && (y k).rvalid else _) = _
    rw [orReduce_congr fun k => congrArg (q.rdMatchQ k && ·) (h k).rvalid]
    rfl

/-- The clock edge of the crossbar depends on the handshakes. -/
private theorem next_congr (h : ∀ k, Drives (toTarget x q ⟨m, y'⟩ k) (y k) (y' k)) :
    next x q ⟨m, y⟩ = next x q ⟨m, y'⟩ := by
  obtain ⟨h1, h2, h3, h4, h5⟩ := toMaster_congr h
  have haw : awHs x q ⟨m, y⟩ = awHs x q ⟨m, y'⟩ := congrArg (m.awvalid && ·) h1
  have hw : Axi.wHs m (toMaster x q ⟨m, y⟩) = Axi.wHs m (toMaster x q ⟨m, y'⟩) := congrArg (m.wvalid && ·) h2
  have hb : bHs x q ⟨m, y⟩ = bHs x q ⟨m, y'⟩ := congrArg (· && m.bready) h3
  have har : arHs x q ⟨m, y⟩ = arHs x q ⟨m, y'⟩ := congrArg (m.arvalid && ·) h4
  have hr : rHs x q ⟨m, y⟩ = rHs x q ⟨m, y'⟩ := congrArg (· && m.rready) h5
  unfold next errDoWrite errAwHs errWHs errBHs errArHs errRHs
  rw [haw, hw, hb, har, hr]
  rfl

end Xbar

namespace MasterBridge

variable {q : MasterBridge} {req : MemReq} {y y' : AxiS}

/-- The clock edge of the bridge depends on the handshakes. -/
private theorem next_congr (h1 : y.awready = y'.awready) (h2 : y.wready = y'.wready) (h3 : y.bvalid = y'.bvalid)
    (h4 : y.arready = y'.arready) (h5 : y.rvalid = y'.rvalid) : q.next ⟨req, y⟩ = q.next ⟨req, y'⟩ := by
  have haw : q.awHs ⟨req, y⟩ = q.awHs ⟨req, y'⟩ := congrArg ((q.axi req).awvalid && ·) h1
  have hw : q.wHs ⟨req, y⟩ = q.wHs ⟨req, y'⟩ := congrArg ((q.axi req).wvalid && ·) h2
  have hb : q.bHs ⟨req, y⟩ = q.bHs ⟨req, y'⟩ := congrArg (· && (q.axi req).bready) h3
  have har : q.arHs ⟨req, y⟩ = q.arHs ⟨req, y'⟩ := congrArg ((q.axi req).arvalid && ·) h4
  have hr : q.rHs ⟨req, y⟩ = q.rHs ⟨req, y'⟩ := congrArg (· && (q.axi req).rready) h5
  unfold next stateD writeD
  rw [haw, hw, hb, har, hr]
  rfl

/-- So does its answer, but for the word of a read. -/
private theorem rsp_congr (h3 : y.bvalid = y'.bvalid) (h5 : y.rvalid = y'.rvalid)
    (hd : q.stateQ = .rdWait → y.rdata = y'.rdata) :
    q.rsp ⟨req, y⟩ = q.rsp ⟨req, y'⟩ := by
  have hb : q.bHs ⟨req, y⟩ = q.bHs ⟨req, y'⟩ := congrArg (· && (q.axi req).bready) h3
  have hr : q.rHs ⟨req, y⟩ = q.rHs ⟨req, y'⟩ := congrArg (· && (q.axi req).rready) h5
  unfold rsp
  rw [hb, hr]
  by_cases hst : q.stateQ = .rdWait
  · rw [if_pos hst, if_pos hst, hd hst]
  · rw [if_neg hst, if_neg hst]

end MasterBridge

namespace AxiPath

open Xbar MmioPath

variable {x : XbarParams} {S α σ ι : Fin x.n → Type} {y : ∀ k, AxiSlave (S k) (ι k)}
variable {dev : ∀ k, RegDevice (α k) (σ k) (ι k)} {Like : ∀ k, S k → RegSlave (α k) (σ k) → Prop}
variable {s : AxiPath x S} {b : MmioPath x α σ} {i : MmioIn x ι} {ph : Phase}

/-- The native master has one transaction outstanding, so every read is alone. -/
private theorem readAlone (hd : x.Disjoint) (h : MmioAt ph b) (req : MemReq) (k : Fin x.n) :
    ReadAlone (b.slave k).port (b.toSlave req k) := by
  -- away from rest the bridge offers no read
  have hbusy : (b.bridge.axi req).arvalid = false → (b.slave k).port.rvalidQ = false →
      ReadAlone (b.slave k).port (b.toSlave req k) := by
    intro har hv
    have hoff : (b.toSlave req k).arvalid = false := by simp [MmioPath.toSlave, toTarget, arGo, har]
    refine ⟨fun hor => ?_, fun hr => ?_⟩
    · rcases hor with hc | hc
      · rw [hoff] at hc
        cases hc
      · rw [hv] at hc
        cases hc
    · rw [hv] at hr
      cases hr
  cases h with
  | idle hs hx hp =>
    have hport := hp k
    refine ⟨fun hor => ?_, fun hr => ?_⟩
    · rcases hor with hc | hc
      · refine ⟨hport.awSeen, ?_⟩
        have hone : (b.bridge.axi req).arvalid = true → (b.bridge.axi req).awvalid = false := by
          rw [MasterBridge.axi, hs]
          cases req.wvalid with
          | false => exact fun _ => rfl
          | true =>
            cases req.we with
            | false => exact fun _ => rfl
            | true =>
              intro hc
              cases hc
        rw [(toSlave_calm hx hd req k).2.2, Bool.and_eq_true] at hc
        rw [(toSlave_calm hx hd req k).1, hone hc.1]
        rfl
      · have hv : (b.slave k).port.rvalidQ = false := hport.rValid
        rw [hv] at hc
        cases hc
    · have hv : (b.slave k).port.rvalidQ = false := hport.rValid
      rw [hv] at hr
      cases hr
  | held hs hwe hk hx hp =>
    refine hbusy ?_ (hp k).rValid
    rw [hs]
    rfl
  | wrote hs hx hp =>
    refine hbusy ?_ (hp k).rValid
    rw [MasterBridge.axi, hs]
    rfl
  | read hs hx hp hz =>
    have hq := toSlave_quiet b req (k := k) (by rw [MasterBridge.axi, hs]; rfl) (by rw [MasterBridge.axi, hs]; rfl)
      (by rw [MasterBridge.axi, hs]; rfl)
    exact ⟨fun _ => ⟨(hp k).awSeen, hq.1⟩, fun _ => hq.2.2⟩

/-- The slaves of the two paths drive the same. -/
private theorem Plays.drives (hy : ∀ k, ActsAs (y k) (dev k) (Like k)) (hd : x.Disjoint) (h : Plays Like s b)
    (hph : MmioAt ph b) (req : MemReq) (k : Fin x.n) :
    Drives (b.toSlave req k) ((y k).axi (s.slave k) (b.toSlave req k)) ((b.slave k).axi (dev k) (b.toSlave req k)) :=
  (hy k).drives _ _ _ (h.slave k) (readAlone hd hph req k)

/-- The word of a read is there while the bridge waits for it. -/
private theorem rdata_eq {z : Fin x.n → AxiS} (h : MmioAt ph b) (hst : b.bridge.stateQ = .rdWait)
    (hdr : ∀ k, Drives (toTarget x b.xbar (b.xbarIn dev i.req) k) (z k)
      ((b.slave k).axi (dev k) (b.toSlave i.req k))) :
    (toMaster x b.xbar ⟨b.bridge.axi i.req, z⟩).rdata = (toMaster x b.xbar (b.xbarIn dev i.req)).rdata := by
  cases h with
  | @read _ t v hs hx hp hz =>
    rw [hx.rdata, hx.rdata]
    cases t with
    | none => rfl
    | some k =>
      refine (hdr k).rdata ?_
      have hv := (hp k).rValid
      rw [if_pos rfl] at hv
      exact hv
  | idle hs => rw [hs] at hst; cases hst
  | held hs => rw [hs] at hst; cases hst
  | wrote hs => rw [hs] at hst; cases hst

/-- **The path of slaves that act as register slaves.**  It answers as the path of the register slaves, and goes on
doing so. -/
theorem Plays.step (hy : ∀ k, ActsAs (y k) (dev k) (Like k)) (hd : x.Disjoint) (h : Plays Like s b)
    (hph : MmioAt ph b) :
    s.rsp y i = b.rsp dev i ∧ Plays Like (s.next y i) (b.next dev i) := by
  have hto : s.toSlave i.req = b.toSlave i.req := by
    funext k
    rw [toSlave, h.bridge, h.xbar]
    rfl
  have hxi : s.xbarIn y i.req =
      ⟨b.bridge.axi i.req, fun k => (y k).axi (s.slave k) (b.toSlave i.req k)⟩ := by
    rw [xbarIn, hto, h.bridge]
  have hdr : ∀ k, Drives (toTarget x b.xbar (b.xbarIn dev i.req) k) ((y k).axi (s.slave k) (b.toSlave i.req k))
      ((b.slave k).axi (dev k) (b.toSlave i.req k)) := h.drives hy hd hph i.req
  obtain ⟨h1, h2, h3, h4, h5⟩ := toMaster_congr (q := b.xbar) (m := b.bridge.axi i.req) hdr
  have hbridge : s.bridgeIn y i.req =
      ⟨i.req, toMaster x b.xbar ⟨b.bridge.axi i.req, fun k => (y k).axi (s.slave k) (b.toSlave i.req k)⟩⟩ := by
    rw [bridgeIn, hxi, h.xbar]
  refine ⟨?_, ?_, ?_, fun k => ?_⟩
  · rw [rsp, hbridge, h.bridge]
    exact MasterBridge.rsp_congr h3 h5 fun hst => rdata_eq hph hst hdr
  · change s.bridge.next (s.bridgeIn y i.req) = b.bridge.next (b.bridgeIn dev i.req)
    rw [hbridge, h.bridge]
    exact MasterBridge.next_congr h1 h2 h3 h4 h5
  · change Xbar.next x s.xbar (s.xbarIn y i.req) = Xbar.next x b.xbar (b.xbarIn dev i.req)
    rw [hxi, h.xbar]
    exact next_congr hdr
  · change Like k ((y k).next (s.slave k) (s.toSlave i.req k) (i.ext k)) _
    rw [hto]
    exact (hy k).next _ _ _ _ (h.slave k) (readAlone hd hph i.req k)

end AxiPath

end Yarv
