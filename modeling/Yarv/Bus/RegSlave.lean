import Yarv.Bus.Axi
import Yarv.Lib.Clocked

/-!
# Register slaves

The accept template the register slaves share: AW and W are taken independently, the write commits in the cycle in
which both are there, the read is sampled in the cycle its address is taken.  `SlavePort` holds the bus flops; a
`RegDevice` is what stands behind them, and `RegSlave` is the two together.

`core_trace` says that the device of a slave runs like the device alone under the accesses the port hands it.
-/

namespace Yarv

/-- A write the port commits: the decoded address, `wdata_eff` and `wstrb_eff`. -/
structure RegWrite (α : Type) where
  addr : α
  data : Word
  strb : BitVec 4
  deriving DecidableEq, Repr

/-- What a device sees in one cycle: the write that commits, the read that is taken and its own input wires. -/
structure RegAccess (α ι : Type) where
  wr : Option (RegWrite α)
  rd : Option α
  ext : ι

namespace RegAccess

variable {ι : Type} (i : RegAccess (BitVec 3) ι) (r : BitVec 3) (k : Nat)

/-- The committed write, when it strobes the low byte and addresses `r`. -/
def wrAt : Option (RegWrite (BitVec 3)) := i.wr.filter fun x => x.strb.getLsbD 0 && x.addr == r

/-- The same for the byte lane `b`. -/
def wrLane (b : Nat) : Option (RegWrite (BitVec 3)) := i.wr.filter fun x => x.strb.getLsbD b && x.addr == r

/-- A control bit behind the edge: bit `k` of a write to `r`, else what it was. -/
def ctrlBit (old : Bool) : Bool := ((i.wrAt r).map fun x => x.data.getLsbD k).getD old

/-- A sticky flag behind the edge: a W1C to bit `k` of `r` clears it, its event sets it, and the event wins. -/
def sticky (old event : Bool) : Bool := event || (old && !(i.wrAt r).any fun x => x.data.getLsbD k)

theorem wrAt_eq_none {x r : BitVec 3} (h : x ≠ r) (data : Word) (strb : BitVec 4) (rd : Option (BitVec 3)) (e : ι) :
    wrAt ⟨some ⟨x, data, strb⟩, rd, e⟩ r = none := by
  simp [wrAt, h]

end RegAccess

/-- The cycles in which a write of one to bit `k` of `r` commits. -/
def clears {ι : Type} (acc : Nat → RegAccess (BitVec 3) ι) (r : BitVec 3) (k : Nat) (t : Nat) : Bool :=
  ((acc t).wrAt r).any fun x => x.data.getLsbD k

/-- What stands behind the port. -/
structure RegDevice (α σ ι : Type) where
  /-- The address bits the slave decodes. -/
  sel : Word → α
  /-- A write to this address has to wait. -/
  hold : σ → α → Bool
  /-- `rdata_mux`. -/
  read : σ → ι → α → Word
  next : σ → RegAccess α ι → σ

/-- The bus flops of the template. -/
structure SlavePort (α : Type) where
  awSeenQ : Bool
  wSeenQ : Bool
  awaddrWordQ : α
  wdataQ : Word
  wstrbQ : BitVec 4
  bvalidQ : Bool
  rvalidQ : Bool
  rdataQ : Word
  deriving DecidableEq, Repr

/-- A register slave: its bus flops and its device. -/
structure RegSlave (α σ : Type) where
  port : SlavePort α
  core : σ

/-- The inputs of a slave: what the master drives and the wires of the device. -/
structure SlaveIn (ι : Type) where
  m : AxiM
  ext : ι

/-- `wr_mask`: every strobe replicated over its lane. -/
def wrMask (strb : BitVec 4) : Word :=
  let lane (b : Nat) : BitVec 8 := if strb.getLsbD b then 0xFF#8 else 0#8
  lane 3 ++ lane 2 ++ lane 1 ++ lane 0

/-- A strobed merge. -/
def mergeWr {w : Nat} (old : BitVec w) (data : Word) (strb : BitVec 4) : BitVec w :=
  (old &&& ~~~(wrMask strb).setWidth w) ||| (data.setWidth w &&& (wrMask strb).setWidth w)

namespace RegSlave

variable {α σ ι : Type} (d : RegDevice α σ ι) (s : RegSlave α σ) (m : AxiM) (e : ι) (i : SlaveIn ι)

/-- What the slave drives; only `awready` looks at the master, for the address of a held write. -/
def axi : AxiS where
  awready := !s.port.awSeenQ && !s.port.bvalidQ && !d.hold s.core (d.sel m.awaddr)
  wready := !s.port.wSeenQ && !s.port.bvalidQ
  bresp := 0b00#2
  bvalid := s.port.bvalidQ
  arready := !s.port.rvalidQ || (s.port.rvalidQ && m.rready)
  rdata := s.port.rdataQ
  rresp := 0b00#2
  rvalid := s.port.rvalidQ

def awHs : Bool := Axi.awHs m (s.axi d m)

def wHs : Bool := Axi.wHs m (s.axi d m)

def bHs : Bool := Axi.bHs m (s.axi d m)

def arHs : Bool := Axi.arHs m (s.axi d m)

def awPresent : Bool := s.port.awSeenQ || s.awHs d m

def wPresent : Bool := s.port.wSeenQ || s.wHs d m

def waddrEff : α := if s.awHs d m then d.sel m.awaddr else s.port.awaddrWordQ

def wdataEff : Word := if s.wHs d m then m.wdata else s.port.wdataQ

def wstrbEff : BitVec 4 := if s.wHs d m then m.wstrb else s.port.wstrbQ

def doWrite : Bool :=
  s.awPresent d m && s.wPresent d m && !s.port.bvalidQ && !d.hold s.core (s.waddrEff d m)

/-- The accesses the device sees. -/
def access : RegAccess α ι where
  wr := if s.doWrite d i.m then some ⟨s.waddrEff d i.m, s.wdataEff d i.m, s.wstrbEff d i.m⟩ else none
  rd := if s.arHs d i.m then some (d.sel i.m.araddr) else none
  ext := i.ext

/-- One clock edge of the bus flops. -/
def portNext : SlavePort α where
  awSeenQ := if s.doWrite d m then false else s.port.awSeenQ || s.awHs d m
  wSeenQ := if s.doWrite d m then false else s.port.wSeenQ || s.wHs d m
  awaddrWordQ := if s.awHs d m then d.sel m.awaddr else s.port.awaddrWordQ
  wdataQ := if s.wHs d m then m.wdata else s.port.wdataQ
  wstrbQ := if s.wHs d m then m.wstrb else s.port.wstrbQ
  bvalidQ := if s.bHs d m then false else s.port.bvalidQ || s.doWrite d m
  rvalidQ := if s.arHs d m then true else if s.port.rvalidQ && m.rready then false else s.port.rvalidQ
  rdataQ := if s.arHs d m then d.read s.core e (d.sel m.araddr) else s.port.rdataQ

/-- One clock edge of the slave. -/
def next : RegSlave α σ where
  port := s.portNext d i.m i.ext
  core := d.next s.core (s.access d i)

/-- The accesses of a run. -/
def accesses (inp : Nat → SlaveIn ι) (t : Nat) : RegAccess α ι := (Clocked.trace (next d) s inp t).access d (inp t)

/-- The device of a slave runs like the device alone. -/
theorem core_trace (inp : Nat → SlaveIn ι) (t : Nat) :
    (Clocked.trace (next d) s inp t).core = Clocked.trace d.next s.core (s.accesses d inp) t := by
  induction t with
  | zero => rfl
  | succ t ih => rw [Clocked.trace_succ, Clocked.trace_succ, ← ih, next, accesses]

/-- A committed write does not have to wait. -/
theorem hold_of_write {w : RegWrite α} (h : (s.access d i).wr = some w) : d.hold s.core w.addr = false := by
  rw [access] at h
  split at h
  · rename_i hw
    obtain rfl := Option.some.inj h
    rw [doWrite, Bool.and_eq_true, Bool.not_eq_true'] at hw
    exact hw.2
  · exact absurd h (by simp)

/-- A master that drives nothing causes no access, once no half of a write is held. -/
theorem access_quiet (haw : m.awvalid = false) (har : m.arvalid = false) (hs : s.port.awSeenQ = false) :
    s.access d ⟨m, e⟩ = ⟨none, none, e⟩ ∧ (s.next d ⟨m, e⟩).port.awSeenQ = false := by
  have h1 : s.awHs d m = false := by simp [awHs, Axi.awHs, haw]
  have h2 : s.doWrite d m = false := by simp [doWrite, awPresent, h1, hs]
  have h3 : s.arHs d m = false := by simp [arHs, Axi.arHs, har]
  exact ⟨by simp [access, h2, h3], by simp [next, portNext, h1, h2, hs]⟩

/-- From a cycle on in which the master offers nothing and no half of a write is held, there is no access. -/
theorem accesses_quiet {inp : Nat → SlaveIn ι} {t : Nat} (hs : (Clocked.trace (next d) s inp t).port.awSeenQ = false)
    (hm : ∀ u, t ≤ u → (inp u).m.awvalid = false ∧ (inp u).m.arvalid = false) {u : Nat} (hu : t ≤ u) :
    s.accesses d inp u = ⟨none, none, (inp u).ext⟩ := by
  have hq : (Clocked.trace (next d) s inp u).port.awSeenQ = false := by
    induction u, hu using Nat.le_induction with
    | base => exact hs
    | succ u hu ih =>
      rw [Clocked.trace_succ]
      exact (access_quiet d _ _ _ (hm u hu).1 (hm u hu).2 ih).2
  exact (access_quiet d _ _ _ (hm u hu).1 (hm u hu).2 hq).1

/-! ### One transaction at a time -/

variable {d}

/-- The bus flops between the steps of a transaction: the data phase of a write may be there before its address. -/
structure PortAt (w : Option (Word × BitVec 4)) (b : Bool) (r : Option Word) (p : SlavePort α) : Prop where
  awSeen : p.awSeenQ = false
  wSeen : p.wSeenQ = w.isSome
  wData : ∀ v, w = some v → p.wdataQ = v.1 ∧ p.wstrbQ = v.2
  bValid : p.bvalidQ = b
  rValid : p.rvalidQ = r.isSome
  rData : ∀ v, r = some v → p.rdataQ = v

variable {s m e}
variable {w : Option (Word × BitVec 4)} {b : Bool} {r : Option Word}

/-- A master that offers nothing lets a response go. -/
theorem PortAt.quiet_step (h : PortAt w b r s.port) (haw : m.awvalid = false) (hw : m.wvalid = false)
    (har : m.arvalid = false) :
    s.access d ⟨m, e⟩ = ⟨none, none, e⟩ ∧
      PortAt w (b && !m.bready) (if m.rready then none else r) (s.next d ⟨m, e⟩).port := by
  have h1 : s.awHs d m = false := by simp [awHs, Axi.awHs, haw]
  have h2 : s.wHs d m = false := by simp [wHs, Axi.wHs, hw]
  have h3 : s.arHs d m = false := by simp [arHs, Axi.arHs, har]
  have h4 : s.doWrite d m = false := by simp [doWrite, awPresent, h1, h.awSeen]
  have h5 : s.bHs d m = (b && m.bready) := by simp [bHs, Axi.bHs, axi, h.bValid]
  refine ⟨by simp [access, h3, h4], ?_, ?_, ?_, ?_, ?_, ?_⟩
  · simp [next, portNext, h1, h4, h.awSeen]
  · simp [next, portNext, h2, h4, h.wSeen]
  · intro v hv
    simp [next, portNext, h2, h.wData v hv]
  · simp only [next, portNext, h5, h4, h.bValid]
    cases b <;> cases m.bready <;> rfl
  · simp only [next, portNext, h3, h.rValid]
    cases r <;> cases m.rready <;> rfl
  · intro v hv
    split at hv
    · exact absurd hv (by simp)
    · simp [next, portNext, h3, h.rData v hv]

/-- A write with both phases: it commits at once, or its address is refused and its data kept. -/
theorem PortAt.write_step (h : PortAt none false none s.port) (haw : m.awvalid = true) (hw : m.wvalid = true)
    (har : m.arvalid = false) :
    if d.hold s.core (d.sel m.awaddr) then
      s.access d ⟨m, e⟩ = ⟨none, none, e⟩ ∧ PortAt (some (m.wdata, m.wstrb)) false none (s.next d ⟨m, e⟩).port
    else
      s.access d ⟨m, e⟩ = ⟨some ⟨d.sel m.awaddr, m.wdata, m.wstrb⟩, none, e⟩ ∧
        PortAt none true none (s.next d ⟨m, e⟩).port := by
  have hws : s.port.wSeenQ = false := h.wSeen
  have hrv : s.port.rvalidQ = false := h.rValid
  have h2 : s.wHs d m = true := by simp [wHs, Axi.wHs, hw, axi, hws, h.bValid]
  have h3 : s.arHs d m = false := by simp [arHs, Axi.arHs, har]
  have h5 : s.bHs d m = false := by simp [bHs, Axi.bHs, axi, h.bValid]
  have h1 : s.awHs d m = !d.hold s.core (d.sel m.awaddr) := by simp [awHs, Axi.awHs, haw, axi, h.awSeen, h.bValid]
  cases hh : d.hold s.core (d.sel m.awaddr) with
  | true =>
    rw [hh] at h1
    have h4 : s.doWrite d m = false := by simp [doWrite, awPresent, h1, h.awSeen]
    rw [if_pos rfl]
    refine ⟨by simp [access, h3, h4], ?_, ?_, ?_, ?_, ?_, ?_⟩ <;>
      simp [next, portNext, h1, h2, h3, h4, h5, h.awSeen, h.bValid, hrv]
  | false =>
    rw [hh] at h1
    have hadr : s.waddrEff d m = d.sel m.awaddr := by simp [waddrEff, h1]
    have h4 : s.doWrite d m = true := by simp [doWrite, awPresent, wPresent, h1, h2, h.bValid, hadr, hh]
    rw [if_neg Bool.false_ne_true]
    refine ⟨by simp [access, h3, h4, hadr, wdataEff, wstrbEff, h2], ?_, ?_, ?_, ?_, ?_, ?_⟩ <;>
      simp [next, portNext, h3, h4, h5, hrv]

/-- The address of a write whose data is there already. -/
theorem PortAt.address_step {v : Word × BitVec 4} (h : PortAt (some v) false none s.port) (haw : m.awvalid = true)
    (hw : m.wvalid = false) (har : m.arvalid = false) :
    if d.hold s.core (d.sel m.awaddr) then
      s.access d ⟨m, e⟩ = ⟨none, none, e⟩ ∧ PortAt (some v) false none (s.next d ⟨m, e⟩).port
    else
      s.access d ⟨m, e⟩ = ⟨some ⟨d.sel m.awaddr, v.1, v.2⟩, none, e⟩ ∧
        PortAt none true none (s.next d ⟨m, e⟩).port := by
  have hws : s.port.wSeenQ = true := h.wSeen
  have hrv : s.port.rvalidQ = false := h.rValid
  obtain ⟨hd1, hd2⟩ := h.wData v rfl
  have h2 : s.wHs d m = false := by simp [wHs, Axi.wHs, hw]
  have h3 : s.arHs d m = false := by simp [arHs, Axi.arHs, har]
  have h5 : s.bHs d m = false := by simp [bHs, Axi.bHs, axi, h.bValid]
  have h1 : s.awHs d m = !d.hold s.core (d.sel m.awaddr) := by simp [awHs, Axi.awHs, haw, axi, h.awSeen, h.bValid]
  cases hh : d.hold s.core (d.sel m.awaddr) with
  | true =>
    rw [hh] at h1
    have h4 : s.doWrite d m = false := by simp [doWrite, awPresent, h1, h.awSeen]
    rw [if_pos rfl]
    refine ⟨by simp [access, h3, h4], ?_, ?_, ?_, ?_, ?_, ?_⟩ <;>
      simp [next, portNext, h1, h2, h3, h4, h5, h.awSeen, h.bValid, hrv, hws, hd1, hd2]
  | false =>
    rw [hh] at h1
    have hadr : s.waddrEff d m = d.sel m.awaddr := by simp [waddrEff, h1]
    have h4 : s.doWrite d m = true := by simp [doWrite, awPresent, wPresent, h1, hws, h.bValid, hadr, hh]
    rw [if_neg Bool.false_ne_true]
    refine ⟨by simp [access, h3, h4, hadr, wdataEff, wstrbEff, h2, hd1, hd2], ?_, ?_, ?_, ?_, ?_, ?_⟩ <;>
      simp [next, portNext, h3, h4, h5, hrv]

/-- A read is sampled in the cycle it is offered. -/
theorem PortAt.read_step (h : PortAt none false none s.port) (haw : m.awvalid = false) (hw : m.wvalid = false)
    (har : m.arvalid = true) :
    s.access d ⟨m, e⟩ = ⟨none, some (d.sel m.araddr), e⟩ ∧
      PortAt none false (some (d.read s.core e (d.sel m.araddr))) (s.next d ⟨m, e⟩).port := by
  have hws : s.port.wSeenQ = false := h.wSeen
  have hrv : s.port.rvalidQ = false := h.rValid
  have h1 : s.awHs d m = false := by simp [awHs, Axi.awHs, haw]
  have h2 : s.wHs d m = false := by simp [wHs, Axi.wHs, hw]
  have h3 : s.arHs d m = true := by simp [arHs, Axi.arHs, har, axi, hrv]
  have h4 : s.doWrite d m = false := by simp [doWrite, awPresent, h1, h.awSeen]
  have h5 : s.bHs d m = false := by simp [bHs, Axi.bHs, axi, h.bValid]
  refine ⟨by simp [access, h3, h4], ?_, ?_, ?_, ?_, ?_, ?_⟩ <;>
    simp [next, portNext, h1, h2, h3, h4, h5, h.awSeen, h.bValid, hws]

end RegSlave

end Yarv
