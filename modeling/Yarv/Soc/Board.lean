import Yarv.Bus.MmioFacts
import Yarv.WorldRun

/-!
# The hart on the peripheral path

The core and its D-mem with the bridge, the crossbar and the register slaves behind its peripheral port.

The instructions that commit and the devices are two machines that meet at the accesses only: the interpreter performs
its accesses in program order, the devices perform one request at a time, and both see the same requests with the same
answers, in the same order (`in_step`).  At any time one of them may be ahead by one access: a store commits before a
full FIFO takes it, a load is performed before it commits.
-/

namespace Yarv

open Clocked ExecuteStage ByteMem

/-- The request as its slave sees it. -/
def MmioReq.bus (r : MmioReq) : BusReq := ⟨r.we, r.addr, if r.we then r.wdata else 0, if r.we then r.wstrb else 0⟩

/-- A request and its answer. -/
abbrev Exchange : Type := BusReq × MmioResp

/-! ### The exchanges of the program -/

namespace Arch

variable (p : Params) (img : Nat → BitVec 64) (a : Arch) (o : Outside)

/-- The access of a step to the peripherals: a store is acknowledged, a load gets the word that comes from outside. -/
def exchangeOn : Option Exchange :=
  ((a.eventOn p img o).request true).map fun r => (r, if r.write then .ack else .data o.peri)

/-- The accesses of a list of steps. -/
def exchanges : Arch → List Outside → List Exchange
  | _, [] => []
  | a, o :: l => (a.exchangeOn p img o).toList ++ exchanges (a.stepOn p img o) l

variable {p img a o}

theorem exchanges_concat (l : List Outside) :
    a.exchanges p img (l ++ [o]) = a.exchanges p img l ++ ((a.after p img l).exchangeOn p img o).toList := by
  induction l generalizing a with
  | nil => simp [exchanges]
  | cons b l ih =>
    rw [List.cons_append, exchanges, ih, exchanges, List.append_assoc]
    rfl

end Arch

namespace CoreMem

variable {p : Params} {img : Nat → BitVec 64} {a : Arch} {s : CoreMem} {i : CoreIn} {boot : Word} {rf : RegFile}

/-- The access to the peripherals that a cycle commits, with what its port answers. -/
def exchangeEv (p : Params) (s : CoreMem) (i : CoreIn) : Option Exchange :=
  (Core.accessEv p true s.core (s.coreIn p i)).map fun r => (r, if r.write then .ack else .data i.periRsp.rdata)

/-- The accesses a run commits are those of the interpreter. -/
theorem exchange_log (h : s.IsReset boot img rf) (hb : boot.getLsbD 0 = false) (inp : Nat → CoreIn)
    (ha : a = Arch.reset boot rf (ofWords 4 s.dmem.mem)) (t : Nat)
    (hs : ∀ u < t, (a.after p img (outsides p s inp u)).Regular p img) :
    logFrom (exchangeEv p) (next p) s inp 0 t = a.exchanges p img (outsides p s inp t) := by
  induction t with
  | zero => rfl
  | succ t ih =>
    have hprev := ih fun u hu => hs u (by omega)
    obtain ⟨htr, -⟩ := tracks_run h hb inp ha t fun u hu => hs u (by omega)
    have hout : outsides p s inp (t + 1) =
        outsides p s inp t ++ (outsideEv p (trace (next p) s inp (0 + t)) (inp (0 + t))).toList := logFrom_succ 0 t
    rw [logFrom_succ, hprev, hout, Nat.zero_add]
    have hev : ∀ e, eventEv p (trace (next p) s inp t) (inp t) = e →
        exchangeEv p (trace (next p) s inp t) (inp t) =
          (e.bind (Event.request true)).map fun r => (r, if r.write then .ack else .data (inp t).periRsp.rdata) := by
      intro e he
      rw [exchangeEv, ← event_request (sane_run h t) true, he]
    rcases htr.cycle (steady_run h t) (hs t (by omega)) (inp t) with ⟨ho, he, -⟩ | ⟨o, ho, he, -⟩
    · rw [ho, hev _ he]
      simp
    · have hperi : o.peri = (inp t).periRsp.rdata := by
        unfold outsideEv at ho
        split at ho
        · cases ho
          rfl
        · cases ho
      rw [ho, hev _ he, Option.toList_some, Arch.exchanges_concat, Arch.exchangeOn, hperi]
      rfl

end CoreMem

/-! ### The accesses of the core on its peripheral port -/

namespace Core

variable {p : Params} {s : Core} {i : CoreIn} {r : BusReq}

/-- What waits for its data is a load. -/
theorem read_of_inFlight (h : s.Sane p) (hr : inFlight true s = [r]) :
    r = s.de.request ∧ r.write = false ∧ s.ex.exStateQ = .memWait ∧ s.ex.memIsPeriQ = true ∧ s.de.memRead = true := by
  unfold inFlight at hr
  split at hr
  next hc =>
    rw [Bool.and_eq_true, beq_iff_eq, beq_iff_eq] at hc
    obtain rfl := (List.singleton_inj.mp hr).symm
    obtain ⟨⟨-, hk⟩, -, hread, -⟩ := h.waiting hc.1
    have hone : (s.de.memRead && s.de.memWrite) = false := hk.one
    rw [hread, Bool.true_and] at hone
    exact ⟨rfl, hone, hc.1, hc.2, hread⟩
  next => cases hr

/-- What commits as a load has been waiting. -/
private theorem inFlight_of_load (h : s.Sane p) (ha : accessEv p true s i = some r) (hw : r.write = false) :
    inFlight true s = [r] := by
  unfold accessEv at ha
  split at ha
  next hc =>
    cases ha
    simp only [Bool.and_eq_true, beq_iff_eq] at hc
    obtain ⟨⟨hcommit, hop⟩, hperi⟩ := hc
    have hread : s.de.memRead = true := by
      have hmem : (s.de.memRead || s.de.memWrite) = true := hop
      have hwrite : s.de.memWrite = false := hw
      rwa [hwrite, Bool.or_false] at hmem
    obtain ⟨hwait, hk⟩ := waiting_of_commit h hcommit hread
    have hport := toPeri_busy h hk (by rw [hwait]; exact ExState.noConfusion)
    rw [inFlight, hwait, hport, hperi]
    rfl
  next => cases ha

/-- A store that commits is accepted in that cycle. -/
theorem acceptEv_of_store (h : s.Sane p) (ha : accessEv p true s i = some r) (hw : r.write = true) :
    acceptEv p true s i = some r := by
  have hb := port_balance h i true
  rw [ha, Option.toList_some, List.singleton_append] at hb
  cases hf : inFlight true s with
  | nil =>
    rw [hf, List.nil_append] at hb
    cases hacc : acceptEv p true s i with
    | none =>
      rw [hacc] at hb
      cases hb
    | some r' =>
      rw [hacc, Option.toList_some, List.cons_eq_cons] at hb
      rw [hb.1]
  | cons r' l =>
    have hl : l = [] := by
      unfold inFlight at hf
      split at hf
      · exact (List.cons_eq_cons.mp hf).2.symm
      · cases hf
    rw [hl] at hf
    rw [hf, List.singleton_append, List.cons_eq_cons] at hb
    -- what waits is a load
    have hread := (read_of_inFlight h hf).2.1
    rw [hb.1, hw] at hread
    cases hread

/-- Without a request and a load that waits nothing commits as an access. -/
private theorem port_still (h : s.Sane p) (hf : inFlight true s = []) (ha : acceptEv p true s i = none) :
    accessEv p true s i = none ∧ inFlight true (s.next p i) = [] := by
  have hb := port_balance h i true
  rw [hf, ha, Option.toList_none, List.append_nil] at hb
  obtain ⟨h1, h2⟩ := List.append_eq_nil_iff.mp hb.symm
  exact ⟨Option.toList_eq_nil_iff.mp h1, h2⟩

/-- A store commits when it is accepted. -/
private theorem port_store (h : s.Sane p) (hf : inFlight true s = []) (ha : acceptEv p true s i = some r)
    (hw : r.write = true) :
    accessEv p true s i = some r ∧ inFlight true (s.next p i) = [] := by
  have hb := port_balance h i true
  rw [hf, ha, Option.toList_some, List.nil_append] at hb
  cases hc : accessEv p true s i with
  | some r' =>
    rw [hc, Option.toList_some, List.singleton_append, List.cons_eq_cons] at hb
    rw [← hb.1, ← hb.2]
    exact ⟨rfl, rfl⟩
  | none =>
    rw [hc, Option.toList_none, List.nil_append] at hb
    obtain ⟨-, hread, -⟩ := read_of_inFlight (h.next i) hb.symm
    rw [hw] at hread
    cases hread

/-- A load waits when it is accepted. -/
private theorem port_load (h : s.Sane p) (hf : inFlight true s = []) (ha : acceptEv p true s i = some r)
    (hw : r.write = false) :
    accessEv p true s i = none ∧ inFlight true (s.next p i) = [r] := by
  have hb := port_balance h i true
  rw [hf, ha, Option.toList_some, List.nil_append] at hb
  cases hc : accessEv p true s i with
  | none =>
    rw [hc, Option.toList_none, List.nil_append] at hb
    exact ⟨rfl, hb.symm⟩
  | some r' =>
    rw [hc, Option.toList_some, List.singleton_append, List.cons_eq_cons] at hb
    rw [inFlight_of_load h hc (by rw [← hb.1, hw])] at hf
    cases hf

/-- A load commits when its data has come. -/
private theorem port_data (h : s.Sane p) (hf : inFlight true s = [r]) (hv : i.periRsp.rvalid = true)
    (ha : acceptEv p true s i = none) :
    accessEv p true s i = some r ∧ inFlight true (s.next p i) = [] := by
  obtain ⟨-, -, hwait, hperi, hread⟩ := read_of_inFlight h hf
  have hk := (h.waiting hwait).1.2
  have hdone : s.ex.memOpDone p (s.exIn i) = true := by
    have hrsp : lsuRspWait s.ex (s.exIn i) = i.periRsp := by
      rw [lsuRspWait, hperi]
      rfl
    change (if s.de.memRead then memDone s.ex (s.exIn i) else _) = true
    rw [hread, if_pos rfl, memDone, hwait, hrsp, hv]
    rfl
  have hnext : inFlight true (s.next p i) = [] := by
    rcases access_cycle (i := i) h hk with ⟨hne, -⟩ | ⟨-, -, -, hn⟩
    · exact absurd hwait hne
    · rw [hdone] at hn
      exact inFlight_nil true (beq_eq_false_iff_ne.mp hn)
  have hb := port_balance h i true
  rw [hf, ha, hnext, Option.toList_none, List.append_nil, List.append_nil] at hb
  exact ⟨Option.toList_eq_singleton_iff.mp hb.symm, hnext⟩

end Core

/-! ### The board -/

/-- The flops of the hart and of the peripheral path. -/
structure Board (x : XbarParams) (α σ : Fin x.n → Type) where
  hart : CoreMem
  path : MmioPath x α σ

/-- The answers of the predictor and the interrupt lines, and the wires of the devices; the ports of the core are not
inputs. -/
structure BoardIn (x : XbarParams) (ι : Fin x.n → Type) where
  core : CoreIn
  ext : ∀ k, ι k

namespace Board

open MmioPath

variable {x : XbarParams} {α σ ι : Fin x.n → Type}
variable (p : Params) (dev : ∀ k, RegDevice (α k) (σ k) (ι k)) (s : Board x α σ) (i : BoardIn x ι)

/-- The request on the peripheral port; it does not look at the answer. -/
def mmioIn : MmioIn x ι := ⟨s.hart.core.periReq p i.core, i.ext⟩

/-- The inputs of the hart. -/
def coreIn : CoreIn := { i.core with periRsp := s.path.rsp dev (s.mmioIn p i) }

/-- One clock edge. -/
def next : Board x α σ where
  hart := s.hart.next p (s.coreIn p dev i)
  path := s.path.next dev (s.mmioIn p i)

/-- Hart and path behind a reset; the D-mem and the devices hold anything. -/
structure IsReset (boot : Word) (img : Nat → BitVec 64) (rf : RegFile) (s : Board x α σ) : Prop where
  hart : s.hart.IsReset boot img rf
  path : s.path.IsReset

/-- The request a device performs in a cycle, with the answer it gives. -/
def performEv (s : Board x α σ) (i : BoardIn x ι) : Option Exchange :=
  (s.path.op dev (s.mmioIn p i)).map fun r => (r.bus, answer x.target dev s.path.cores i.ext r)

variable {p dev s i}

theorem hart_run (inp : Nat → BoardIn x ι) (t : Nat) : (trace (next p dev) s inp t).hart =
    trace (CoreMem.next p) s.hart (fun u => (trace (next p dev) s inp u).coreIn p dev (inp u)) t :=
  trace_view Board.hart (Board.coreIn p dev) (fun _ _ => rfl) t

private theorem path_run (inp : Nat → BoardIn x ι) (t : Nat) : (trace (next p dev) s inp t).path =
    trace (MmioPath.next dev) s.path (fun u => (trace (next p dev) s inp u).mmioIn p (inp u)) t :=
  trace_view Board.path (fun s i => s.mmioIn p i) (fun _ _ => rfl) t

variable (p dev s i) in
/-- The core hands a request over in the cycle the path accepts it. -/
private theorem acceptEv_eq : Core.acceptEv p true s.hart.core (s.hart.coreIn p (s.coreIn p dev i)) =
    (s.path.accepted dev (s.mmioIn p i)).map MmioReq.bus := by
  change (if (s.hart.core.periReq p i.core).wvalid && (s.path.rsp dev (s.mmioIn p i)).wready then
      some (s.hart.core.periReq p i.core).bus else none) =
    (if (s.hart.core.periReq p i.core).wvalid && (s.path.rsp dev (s.mmioIn p i)).wready then
      some (s.hart.core.periReq p i.core).request else none).map MmioReq.bus
  split
  · rfl
  · rfl

/-- The store that has committed and is still to be performed. -/
def late : Phase → List Exchange
  | .held r => [(r.bus, .ack)]
  | _ => []

/-- The load that has been performed and is still to commit. -/
def early (s : Board x α σ) : Phase → List Exchange
  | .read v => (Core.inFlight true s.hart.core).map fun r => (r, .data v)
  | _ => []

/-- The loads that wait in execute in a phase of the path. -/
def loads : Phase → Nat
  | .read _ => 1
  | _ => 0

/-- Hart and path stand in the same phase. -/
structure Coupled (p : Params) (s : Board x α σ) (ph : Phase) : Prop where
  sane : s.hart.core.Sane p
  path : MmioAt ph s.path
  load : (Core.inFlight true s.hart.core).length = loads ph

/-- What a cycle makes of the two sides: `m` is what they agree on besides. -/
structure Meets (p : Params) (dev : ∀ k, RegDevice (α k) (σ k) (ι k)) (s : Board x α σ) (i : BoardIn x ι)
    (ph ph' : Phase) (m : List Exchange) : Prop where
  coupled : Coupled p (s.next p dev i) ph'
  hart : late ph ++ (CoreMem.exchangeEv p s.hart (s.coreIn p dev i)).toList = m ++ late ph'
  path : early s ph ++ (performEv p dev s i).toList = m ++ early (s.next p dev i) ph'

private theorem exchangeEv_none (h : Core.accessEv p true s.hart.core (s.hart.coreIn p (s.coreIn p dev i)) = none) :
    CoreMem.exchangeEv p s.hart (s.coreIn p dev i) = none := by
  rw [CoreMem.exchangeEv, h]
  rfl

private theorem performEv_none (h : s.path.op dev (s.mmioIn p i) = none) : performEv p dev s i = none := by
  rw [performEv, h]
  rfl

/-- A path that accepts nothing leaves the core alone, unless a load waits. -/
private theorem Coupled.still {ph : Phase} (h : Coupled p s ph) (hl : loads ph = 0)
    (ha : s.path.accepted dev (s.mmioIn p i) = none) :
    CoreMem.exchangeEv p s.hart (s.coreIn p dev i) = none ∧
      Core.inFlight true (s.next p dev i).hart.core = [] := by
  have hf : Core.inFlight true s.hart.core = [] := by
    rw [← List.length_eq_zero_iff, h.load, hl]
  have hacc := acceptEv_eq p dev s i
  rw [ha, Option.map_none] at hacc
  obtain ⟨h1, h2⟩ := Core.port_still h.sane hf hacc
  exact ⟨exchangeEv_none h1, h2⟩

/-- The phases of a write, once its data is at the slave. -/
private theorem Coupled.step_held (hd : x.Disjoint) {r : MmioReq} (h : Coupled p s (.held r)) :
    ∃ ph' m, Meets p dev s i (.held r) ph' m := by
  have hs : Steps dev s.path (s.mmioIn p i) (.held r) _ := held_step hd h.path
  have hacc : s.path.accepted dev (s.mmioIn p i) = none := by
    refine accepted_busy ?_
    cases h.path with
    | held hb => rw [hb]; exact BridgeState.noConfusion
  obtain ⟨hev, hfl⟩ := h.still rfl hacc
  have hsane := h.sane.next (s.hart.coreIn p (s.coreIn p dev i))
  have horder := hs.order
  rw [hacc, Option.toList_none, List.append_nil] at horder
  cases hw : waits x.target dev s.path.cores r with
  | true =>
    rw [hw, if_pos rfl] at hs horder
    have hop : s.path.op dev (s.mmioIn p i) = none := by
      cases hop : s.path.op dev (s.mmioIn p i) with
      | none => rfl
      | some r' =>
        rw [hop] at horder
        exact absurd (congrArg List.length horder) (by simp [Phase.pend])
    refine ⟨.held r, [], ⟨hsane, hs.next, by rw [hfl]; rfl⟩, ?_, ?_⟩
    · rw [hev]
      rfl
    · rw [performEv_none hop]
      rfl
  | false =>
    rw [hw, if_neg Bool.false_ne_true] at hs horder
    have hop : s.path.op dev (s.mmioIn p i) = some r := by
      change [r] = (s.path.op dev (s.mmioIn p i)).toList ++ [] at horder
      rw [List.append_nil] at horder
      exact Option.toList_eq_singleton_iff.mp horder.symm
    have hwe : r.we = true := by
      cases h.path with
      | held _ hwe => exact hwe
    refine ⟨.wrote, [(r.bus, .ack)], ⟨hsane, hs.next, by rw [hfl]; rfl⟩, ?_, ?_⟩
    · rw [hev]
      rfl
    · rw [performEv, hop, Option.map_some, answer, if_pos hwe]
      rfl

private theorem Coupled.step_wrote (h : Coupled p s .wrote) : ∃ ph' m, Meets p dev s i .wrote ph' m := by
  have hs := wrote_step dev (i := s.mmioIn p i) h.path
  have hacc : s.path.accepted dev (s.mmioIn p i) = none := by
    refine accepted_busy ?_
    cases h.path with
    | wrote hb => rw [hb]; exact BridgeState.noConfusion
  obtain ⟨hev, hfl⟩ := h.still rfl hacc
  have horder := hs.order
  rw [hacc] at horder
  have hop : s.path.op dev (s.mmioIn p i) = none :=
    Option.toList_eq_nil_iff.mp (List.append_eq_nil_iff.mp horder.symm).1
  refine ⟨.idle, [], ⟨h.sane.next _, hs.next, by rw [hfl]; rfl⟩, ?_, ?_⟩
  · rw [hev]
    rfl
  · rw [performEv_none hop]
    rfl

/-- The load that waits takes its word as soon as it is there. -/
private theorem Coupled.step_read {v : Word} (h : Coupled p s (.read v)) :
    ∃ ph' m, Meets p dev s i (.read v) ph' m := by
  obtain ⟨r, hf⟩ := List.length_eq_one_iff.mp h.load
  obtain ⟨-, hread, hwait, hperi, hload⟩ := Core.read_of_inFlight h.sane hf
  have hready : (s.mmioIn p i).req.rready = true := by
    change (readPhase s.hart.core.ex (s.hart.core.exIn i.core) && s.hart.core.ex.memIsPeriQ) = true
    rw [readPhase, hwait, hperi, Core.exIn_de, hload]
    rfl
  have hs : Steps dev s.path (s.mmioIn p i) (.read v) _ := read_step h.path
  rw [if_pos hready] at hs
  have hacc : s.path.accepted dev (s.mmioIn p i) = none := by
    refine accepted_busy ?_
    cases h.path with
    | read hb => rw [hb]; exact BridgeState.noConfusion
  have horder := hs.order
  rw [hacc] at horder
  have hop : s.path.op dev (s.mmioIn p i) = none :=
    Option.toList_eq_nil_iff.mp (List.append_eq_nil_iff.mp horder.symm).1
  have hresp : s.path.responded dev (s.mmioIn p i) = some (.data v) := by
    have hans := hs.answers
    rw [hop] at hans
    change [.data v] = (s.path.responded dev (s.mmioIn p i)).toList ++ [] at hans
    rw [List.append_nil] at hans
    exact Option.toList_eq_singleton_iff.mp hans.symm
  obtain ⟨hvalid, hdata⟩ : (s.path.rsp dev (s.mmioIn p i)).rvalid = true ∧
    (s.path.rsp dev (s.mmioIn p i)).rdata = v := by
    unfold responded at hresp
    split at hresp
    next => cases hresp
    next =>
      split at hresp
      next hv =>
        cases hresp
        exact ⟨hv, rfl⟩
      next => cases hresp
  have haccept := acceptEv_eq p dev s i
  rw [hacc, Option.map_none] at haccept
  obtain ⟨hcommit, hfl⟩ := Core.port_data h.sane hf (i := s.hart.coreIn p (s.coreIn p dev i)) hvalid haccept
  refine ⟨.idle, [(r, .data v)], ⟨h.sane.next _, hs.next, ?_⟩, ?_, ?_⟩
  · change (Core.inFlight true (s.hart.core.next p (s.hart.coreIn p (s.coreIn p dev i)))).length = 0
    rw [hfl]
    rfl
  · have hperiData : (s.coreIn p dev i).periRsp.rdata = v := hdata
    rw [CoreMem.exchangeEv, hcommit, Option.map_some, hread, hperiData]
    rfl
  · rw [performEv_none hop, early, hf]
    rfl

/-- A path at rest performs a request, puts a write off, or goes on resting. -/
private theorem Coupled.step_idle (hd : x.Disjoint) (h : Coupled p s .idle) :
    ∃ ph' m, Meets p dev s i .idle ph' m := by
  have hready : (s.path.rsp dev (s.mmioIn p i)).wready = true := h.path.wready
  have hf : Core.inFlight true s.hart.core = [] := List.length_eq_zero_iff.mp h.load
  have haccept := acceptEv_eq p dev s i
  have hsane := h.sane.next (s.hart.coreIn p (s.coreIn p dev i))
  cases hv : (s.mmioIn p i).req.wvalid with
  | false =>
    have hs : Steps dev s.path (s.mmioIn p i) .idle .idle := idle_step_none h.path hv
    have hacc : s.path.accepted dev (s.mmioIn p i) = none := by simp [accepted, hv]
    obtain ⟨hev, hfl⟩ := h.still rfl hacc
    have hop : s.path.op dev (s.mmioIn p i) = none := by
      have horder := hs.order
      rw [hacc] at horder
      exact Option.toList_eq_nil_iff.mp (List.append_eq_nil_iff.mp horder.symm).1
    refine ⟨.idle, [], ⟨hsane, hs.next, by rw [hfl]; rfl⟩, ?_, ?_⟩
    · rw [hev]
      rfl
    · rw [performEv_none hop]
      rfl
  | true =>
    have hacc : s.path.accepted dev (s.mmioIn p i) = some (s.mmioIn p i).req.request := by simp [accepted, hv, hready]
    rw [hacc, Option.map_some] at haccept
    cases hwe : (s.mmioIn p i).req.we with
    | true =>
      have hs := idle_step_write dev (i := s.mmioIn p i) hd h.path hv hwe
      have horder := hs.order
      rw [hacc] at horder
      obtain ⟨hcommit, hfl⟩ := Core.port_store h.sane hf haccept hwe
      have hev : CoreMem.exchangeEv p s.hart (s.coreIn p dev i) = some ((s.mmioIn p i).req.request.bus, .ack) := by
        rw [CoreMem.exchangeEv, hcommit, Option.map_some]
        exact congrArg (fun y => some ((s.mmioIn p i).req.request.bus, y)) (if_pos hwe)
      have hload : ∀ ph', loads ph' = 0 → (Core.inFlight true (s.next p dev i).hart.core).length = loads ph' := by
        intro ph' hz
        change (Core.inFlight true (s.hart.core.next p (s.hart.coreIn p (s.coreIn p dev i)))).length = loads ph'
        rw [hfl, hz]
        rfl
      cases hw : waits x.target dev s.path.cores (s.mmioIn p i).req.request with
      | true =>
        rw [hw, if_pos rfl] at hs horder
        have hop : s.path.op dev (s.mmioIn p i) = none := by
          cases hop : s.path.op dev (s.mmioIn p i) with
          | none => rfl
          | some r' =>
            rw [hop] at horder
            exact absurd (congrArg List.length horder) (by simp [Phase.pend])
        refine ⟨.held (s.mmioIn p i).req.request, [], ⟨hsane, hs.next, hload _ rfl⟩, ?_, ?_⟩
        · rw [hev]
          rfl
        · rw [performEv_none hop]
          rfl
      | false =>
        rw [hw, if_neg Bool.false_ne_true] at hs horder
        change [(s.mmioIn p i).req.request] = (s.path.op dev (s.mmioIn p i)).toList ++ [] at horder
        rw [List.append_nil] at horder
        have hop := Option.toList_eq_singleton_iff.mp horder.symm
        refine ⟨.wrote, [((s.mmioIn p i).req.request.bus, .ack)], ⟨hsane, hs.next, hload _ rfl⟩, ?_, ?_⟩
        · rw [hev]
          rfl
        · have hans : answer x.target dev s.path.cores i.ext (s.mmioIn p i).req.request = .ack := if_pos hwe
          rw [performEv, hop, Option.map_some, hans]
          rfl
    | false =>
      obtain ⟨v, hs⟩ := idle_step_read dev (i := s.mmioIn p i) hd h.path hv hwe
      have horder := hs.order
      rw [hacc] at horder
      change [(s.mmioIn p i).req.request] = (s.path.op dev (s.mmioIn p i)).toList ++ [] at horder
      rw [List.append_nil] at horder
      have hop := Option.toList_eq_singleton_iff.mp horder.symm
      have hresp : s.path.responded dev (s.mmioIn p i) = none := by
        cases h.path with
        | idle hb => simp [responded, rsp, MasterBridge.rsp, hb]
      have hans : answer x.target dev s.path.cores i.ext (s.mmioIn p i).req.request = .data v := by
        have hans := hs.answers
        rw [hop, hresp] at hans
        exact List.singleton_inj.mp hans
      obtain ⟨hcommit, hfl⟩ := Core.port_load h.sane hf haccept hwe
      have hfl' : Core.inFlight true (s.next p dev i).hart.core = [(s.mmioIn p i).req.request.bus] := hfl
      refine ⟨.read v, [], ⟨hsane, hs.next, by rw [hfl']; rfl⟩, ?_, ?_⟩
      · rw [exchangeEv_none hcommit]
        rfl
      · change [] ++ (performEv p dev s i).toList =
          [] ++ (Core.inFlight true (s.next p dev i).hart.core).map fun r => (r, .data v)
        rw [performEv, hop, Option.map_some, hans, hfl']
        rfl

variable (dev) in
/-- One cycle of the board. -/
private theorem Coupled.step (hd : x.Disjoint) {ph : Phase} (h : Coupled p s ph) (i : BoardIn x ι) :
    ∃ ph' m, Meets p dev s i ph ph' m := by
  cases ph with
  | idle => exact h.step_idle hd
  | held r => exact h.step_held hd
  | wrote => exact h.step_wrote
  | read v => exact h.step_read

/-- What one of two sides is ahead by: a store of the program or a load of the devices. -/
structure Ahead (l e : List Exchange) : Prop where
  le : l.length + e.length ≤ 1
  store : ∀ y ∈ l, y.1.write = true
  load : ∀ y ∈ e, y.1.write = false

private theorem Coupled.ahead {ph : Phase} (h : Coupled p s ph) : Ahead (late ph) (early s ph) := by
  cases ph with
  | idle => exact ⟨Nat.zero_le 1, List.forall_mem_nil _, List.forall_mem_nil _⟩
  | held r =>
    have hwe : r.we = true := by
      cases h.path with
      | held _ hwe => exact hwe
    refine ⟨le_rfl, fun y hy => ?_, List.forall_mem_nil _⟩
    obtain rfl := List.mem_singleton.mp hy
    exact hwe
  | wrote => exact ⟨Nat.zero_le 1, List.forall_mem_nil _, List.forall_mem_nil _⟩
  | read v =>
    obtain ⟨r, hf⟩ := List.length_eq_one_iff.mp h.load
    have hearly : early s (.read v) = [(r, .data v)] := by
      rw [early, hf]
      rfl
    rw [hearly]
    refine ⟨le_rfl, List.forall_mem_nil _, fun y hy => ?_⟩
    obtain rfl := List.mem_singleton.mp hy
    exact (Core.read_of_inFlight h.sane hf).2.1

/-! ### Runs -/

section Run

variable (p dev s) (inp : Nat → BoardIn x ι)

/-- What the hart sees in a run. -/
def hartInp (t : Nat) : CoreIn := (trace (next p dev) s inp t).coreIn p dev (inp t)

/-- The request the devices perform in a cycle, and their wires. -/
def deviceInp (t : Nat) : SeqIn x ι :=
  ⟨(trace (next p dev) s inp t).path.op dev ((trace (next p dev) s inp t).mmioIn p (inp t)), (inp t).ext⟩

/-- The exchange of a cycle of the devices alone. -/
def answered (c : ∀ k, σ k) (i : SeqIn x ι) : Option Exchange :=
  i.op.map fun r => (r.bus, answer x.target dev c i.ext r)

/-- The program and the devices in the first `t` cycles of a run. -/
structure InStep (img : Nat → BitVec 64) (a : Arch) (t : Nat) : Prop where
  /-- The commits, traps and interrupts are those of the interpreter. -/
  program : CoreMem.InStep p img a s.hart (hartInp p dev s inp) t
  /-- The devices run under the requests they perform, one at a time. -/
  devices : (trace (next p dev) s inp t).path.cores =
    trace (seqNext x.target dev) s.path.cores (deviceInp p dev s inp) t
  /-- Both make the same accesses, with the same answers and in the same order; one of them may be one ahead. -/
  accesses : ∃ c l e, Ahead l e ∧
    a.exchanges p img (CoreMem.outsides p s.hart (hartInp p dev s inp) t) = c ++ l ∧
    logFrom (answered dev) (seqNext x.target dev) s.path.cores (deviceInp p dev s inp) 0 t = c ++ e

variable {p dev s inp} {img : Nat → BitVec 64} {a : Arch} {boot : Word} {rf : RegFile}

private theorem IsReset.coupled (h : s.IsReset boot img rf) : Coupled p s .idle := by
  refine ⟨h.hart.core.sane, h.path.idle, ?_⟩
  rw [Core.inFlight_nil true (by rw [h.hart.core.ex]; exact ExState.noConfusion)]
  rfl

variable (p dev inp) in
/-- The two sides along a run. -/
theorem meets_run (hd : x.Disjoint) (h : s.IsReset boot img rf) (t : Nat) :
    ∃ ph c, Coupled p (trace (next p dev) s inp t) ph ∧
      logFrom (fun s i => CoreMem.exchangeEv p s.hart (s.coreIn p dev i)) (next p dev) s inp 0 t = c ++ late ph ∧
      logFrom (performEv p dev) (next p dev) s inp 0 t = c ++ early (trace (next p dev) s inp t) ph := by
  induction t with
  | zero => exact ⟨.idle, [], h.coupled, rfl, rfl⟩
  | succ t ih =>
    obtain ⟨ph, c, hc, hhart, hpath⟩ := ih
    obtain ⟨ph', m, hm⟩ := hc.step dev hd (inp t)
    refine ⟨ph', c ++ m, hm.coupled, ?_, ?_⟩
    · rw [logFrom_succ, hhart, Nat.zero_add, List.append_assoc, hm.hart, List.append_assoc]
    · rw [logFrom_succ, hpath, Nat.zero_add, List.append_assoc, hm.path, List.append_assoc]
      rfl

variable (p dev inp) in
/-- The devices of a run are the sequential machine. -/
theorem devices_run (hd : x.Disjoint) (h : s.IsReset boot img rf) (t : Nat) :
    (trace (next p dev) s inp t).path.cores =
      trace (seqNext x.target dev) s.path.cores (deviceInp p dev s inp) t := by
  have href : Refines x.target dev s.path (fun u => (trace (next p dev) s inp u).mmioIn p (inp u)) _ :=
    refines_target hd h.path.idle
  have hr := href.cores t
  rw [pathAt, ← path_run] at hr
  rw [hr]
  congr 1
  funext u
  rw [seqInp, opAt, pathAt, ← path_run]
  rfl

variable (p dev s inp) in
/-- The accesses of the hart along a run of the board. -/
theorem exchanges_view (t : Nat) :
    logFrom (CoreMem.exchangeEv p) (CoreMem.next p) s.hart (hartInp p dev s inp) 0 t =
      logFrom (fun s i => CoreMem.exchangeEv p s.hart (s.coreIn p dev i)) (next p dev) s inp 0 t :=
  (logFrom_view Board.hart (Board.coreIn p dev) (fun _ _ => rfl) 0 t).symm

/-- The accesses the hart commits are those of the program. -/
private theorem exchanges_run (h : s.IsReset boot img rf) (hb : boot.getLsbD 0 = false)
    (ha : a = Arch.reset boot rf (ofWords 4 s.hart.dmem.mem)) (t : Nat)
    (hs : ∀ u < t, (a.after p img (CoreMem.outsides p s.hart (hartInp p dev s inp) u)).Regular p img) :
    a.exchanges p img (CoreMem.outsides p s.hart (hartInp p dev s inp) t) =
      logFrom (fun s i => CoreMem.exchangeEv p s.hart (s.coreIn p dev i)) (next p dev) s inp 0 t := by
  rw [← exchanges_view p dev s inp t]
  exact (CoreMem.exchange_log h.hart hb _ ha t hs).symm

variable (p dev inp) in
/-- The requests the devices perform along a run. -/
theorem performed_run (hd : x.Disjoint) (h : s.IsReset boot img rf) (t : Nat) :
    logFrom (answered dev) (seqNext x.target dev) s.path.cores (deviceInp p dev s inp) 0 t =
      logFrom (performEv p dev) (next p dev) s inp 0 t := by
  induction t with
  | zero => rfl
  | succ t ih =>
    rw [logFrom_succ, logFrom_succ, ih, Nat.zero_add, ← devices_run p dev inp hd h t]
    rfl

/-- **The program and its devices.** -/
theorem in_step (hd : x.Disjoint) (h : s.IsReset boot img rf) (hb : boot.getLsbD 0 = false)
    (ha : a = Arch.reset boot rf (ofWords 4 s.hart.dmem.mem)) (t : Nat)
    (hs : ∀ u < t, (a.after p img (CoreMem.outsides p s.hart (hartInp p dev s inp) u)).Regular p img) :
    InStep p dev s inp img a t := by
  refine ⟨CoreMem.inStep_run h.hart hb _ ha t hs, devices_run p dev inp hd h t, ?_⟩
  obtain ⟨ph, c, hc, hhart, hpath⟩ := meets_run p dev inp hd h t
  refine ⟨c, late ph, _, hc.ahead, ?_, ?_⟩
  · rw [exchanges_run h hb ha t hs, hhart]
  · rw [performed_run p dev inp hd h t, hpath]

end Run

end Board

end Yarv
