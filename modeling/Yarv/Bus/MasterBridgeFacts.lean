import Yarv.Bus.MasterBridge
import Yarv.Lib.Clocked

/-!
# The bridge keeps every transaction whole

What the bridge has accepted from the native port and not yet exchanged on a channel is read off its state: at most
one address, one data beat, one response.  One clock edge keeps the balance between what comes in and what goes out,
so the beats of a run are the accepted requests, each once and in order.
-/

namespace Yarv

open Clocked

namespace MasterBridge

variable {q : MasterBridge} {i : BridgeIn}

/-! ### Events -/

/-- A write the bridge accepts. -/
def acceptedWrite (q : MasterBridge) (i : BridgeIn) : Option (Word × Axi.WBeat) :=
  if i.req.wvalid && (q.rsp i).wready && i.req.we then some (i.req.addr, ⟨i.req.wdata, i.req.wstrb⟩) else none

/-- A read the bridge accepts. -/
def acceptedRead (q : MasterBridge) (i : BridgeIn) : Option Word :=
  if i.req.wvalid && (q.rsp i).wready && !i.req.we then some i.req.addr else none

def awBeat (q : MasterBridge) (i : BridgeIn) : Option Word := Axi.awBeat (q.axi i.req) i.axi

def wBeat (q : MasterBridge) (i : BridgeIn) : Option Axi.WBeat := Axi.wBeat (q.axi i.req) i.axi

def arBeat (q : MasterBridge) (i : BridgeIn) : Option Word := Axi.arBeat (q.axi i.req) i.axi

def rBeat (q : MasterBridge) (i : BridgeIn) : Option Word := Axi.rBeat (q.axi i.req) i.axi

def bBeat (q : MasterBridge) (i : BridgeIn) : Option Unit := if q.bHs i then some () else none

/-- The read data the native side sees. -/
def delivered (q : MasterBridge) (i : BridgeIn) : Option Word :=
  if (q.rsp i).rvalid then some (q.rsp i).rdata else none

/-- The write response the native side sees. -/
def retired (q : MasterBridge) (i : BridgeIn) : Option Unit := if (q.rsp i).bvalid then some () else none

/-! ### What is held back -/

/-- The address of an accepted write that AW has not taken. -/
def pendAw (q : MasterBridge) : List Word :=
  match q.stateQ with
  | .wrBoth | .wrData => [q.addrQ]
  | _ => []

/-- The data of an accepted write that W has not taken. -/
def pendW (q : MasterBridge) : List Axi.WBeat :=
  match q.stateQ with
  | .wrBoth | .wrAddr => [⟨q.wdataQ, q.wstrbQ⟩]
  | _ => []

/-- The address of an accepted read that AR has not taken. -/
def pendAr (q : MasterBridge) : List Word :=
  match q.stateQ with
  | .rdAddr => [q.addrQ]
  | _ => []

/-- The accepted writes without a response. -/
def writing (q : MasterBridge) : Nat :=
  match q.stateQ with
  | .wrBoth | .wrAddr | .wrData | .wrWait => 1
  | _ => 0

/-- The accepted reads without data. -/
def reading (q : MasterBridge) : Nat :=
  match q.stateQ with
  | .rdAddr | .rdWait => 1
  | _ => 0

/-! ### One clock edge -/

/-- The five balances of a cycle. -/
structure Balanced (q : MasterBridge) (i : BridgeIn) : Prop where
  aw : q.pendAw ++ ((q.acceptedWrite i).map Prod.fst).toList = (q.awBeat i).toList ++ (q.next i).pendAw
  w : q.pendW ++ ((q.acceptedWrite i).map Prod.snd).toList = (q.wBeat i).toList ++ (q.next i).pendW
  ar : q.pendAr ++ (q.acceptedRead i).toList = (q.arBeat i).toList ++ (q.next i).pendAr
  write : q.writing + (q.acceptedWrite i).toList.length = (q.retired i).toList.length + (q.next i).writing
  read : q.reading + (q.acceptedRead i).toList.length = (q.delivered i).toList.length + (q.next i).reading

private theorem balanced_idle (h : q.stateQ = .idle) : Balanced q i := by
  obtain ⟨st, a, d, b⟩ := q
  obtain ⟨⟨wv, we, ad, wd, ws, rr⟩, ⟨awr, wr, br, bv, arr, rd, rs, rv⟩⟩ := i
  subst h
  cases wv with
  | false => constructor <;> rfl
  | true =>
    cases we with
    | false => cases arr <;> constructor <;> rfl
    | true => cases awr <;> cases wr <;> constructor <;> rfl

private theorem balanced_busy (h : q.stateQ ≠ .idle) : Balanced q i := by
  obtain ⟨st, a, d, b⟩ := q
  obtain ⟨⟨wv, we, ad, wd, ws, rr⟩, ⟨awr, wr, br, bv, arr, rd, rs, rv⟩⟩ := i
  -- A request that waits for the idle state changes nothing.
  cases wv <;> cases st with
  | idle => exact absurd rfl h
  | rdAddr => cases arr <;> constructor <;> rfl
  | rdWait => cases rv <;> cases rr <;> constructor <;> rfl
  | wrBoth => cases awr <;> cases wr <;> constructor <;> rfl
  | wrAddr => cases wr <;> constructor <;> rfl
  | wrData => cases awr <;> constructor <;> rfl
  | wrWait => cases bv <;> constructor <;> rfl

private theorem balanced (q : MasterBridge) (i : BridgeIn) : Balanced q i := by
  by_cases h : q.stateQ = .idle
  · exact balanced_idle h
  · exact balanced_busy h

/-- A channel the slave refuses is offered again, whatever the native master does. -/
private theorem held (q : MasterBridge) (i j : BridgeIn) : Axi.Held (q.axi i.req) i.axi ((q.next i).axi j.req) := by
  obtain ⟨st, a, d, b⟩ := q
  obtain ⟨⟨wv, we, ad, wd, ws, rr⟩, ⟨awr, wr, br, bv, arr, rd, rs, rv⟩⟩ := i
  constructor <;> intro hv hr <;> simp only at hr <;> subst hr
  case aw =>
    cases st with
    | idle =>
      cases wv <;> cases we <;> first | exact absurd hv Bool.false_ne_true | skip
      cases wr <;> exact ⟨rfl, rfl⟩
    | wrBoth => cases wr <;> cases wv <;> exact ⟨rfl, rfl⟩
    | wrData => cases wv <;> exact ⟨rfl, rfl⟩
    | rdAddr | rdWait | wrAddr | wrWait => exact absurd hv Bool.false_ne_true
  case w =>
    cases st with
    | idle =>
      cases wv <;> cases we <;> first | exact absurd hv Bool.false_ne_true | skip
      cases awr <;> exact ⟨rfl, rfl, rfl⟩
    | wrBoth => cases awr <;> cases wv <;> exact ⟨rfl, rfl, rfl⟩
    | wrAddr => cases wv <;> exact ⟨rfl, rfl, rfl⟩
    | rdAddr | rdWait | wrData | wrWait => exact absurd hv Bool.false_ne_true
  case ar =>
    cases st with
    | idle =>
      cases wv <;> cases we <;> first | exact absurd hv Bool.false_ne_true | exact ⟨rfl, rfl⟩
    | rdAddr => cases wv <;> exact ⟨rfl, rfl⟩
    | rdWait | wrBoth | wrAddr | wrData | wrWait => exact absurd hv Bool.false_ne_true

/-- At most one transaction is in flight, and none is accepted behind it. -/
private theorem single (q : MasterBridge) : q.writing + q.reading ≤ 1 := by
  unfold writing reading
  cases q.stateQ <;> simp

private theorem wready_iff (q : MasterBridge) (i : BridgeIn) :
    (q.rsp i).wready = true ↔ q.writing + q.reading = 0 := by
  unfold rsp writing reading
  cases q.stateQ <;> simp

/-- Nothing is held back in the idle state. -/
private theorem pend_idle (h : q.stateQ = .idle) :
    q.pendAw = [] ∧ q.pendW = [] ∧ q.pendAr = [] ∧ q.writing = 0 ∧ q.reading = 0 := by
  simp [pendAw, pendW, pendAr, writing, reading, h]

/-- A response leaves nothing of its transaction behind. -/
private theorem pend_of_retired (h : (q.retired i).isSome = true) : q.pendAw = [] ∧ q.pendW = [] ∧ q.writing = 1 := by
  have hs : q.stateQ = .wrWait := by
    by_contra hn
    have : (q.stateQ == .wrWait) = false := by simpa using hn
    simp [retired, rsp, this] at h
  simp [pendAw, pendW, writing, hs]

private theorem pend_of_delivered (h : (q.delivered i).isSome = true) : q.pendAr = [] ∧ q.reading = 1 := by
  have hs : q.stateQ = .rdWait := by
    by_contra hn
    have : (q.stateQ == .rdWait) = false := by simpa using hn
    simp [delivered, rsp, this] at h
  simp [pendAr, reading, hs]

/-- The native side sees exactly the R beats. -/
private theorem delivered_eq (q : MasterBridge) (i : BridgeIn) : q.delivered i = q.rBeat i := by
  obtain ⟨st, a, d, b⟩ := q
  obtain ⟨⟨wv, we, ad, wd, ws, rr⟩, ⟨awr, wr, br, bv, arr, rd, rs, rv⟩⟩ := i
  cases st with
  | rdWait => cases rv <;> cases rr <;> rfl
  | idle => cases wv <;> cases we <;> cases rv <;> rfl
  | rdAddr | wrBoth | wrAddr | wrData | wrWait => cases rv <;> rfl

/-- With nothing left to send, a B beat is a write response. -/
private theorem retired_of_bBeat (ha : q.pendAw = []) (hw : q.pendW = []) (h1 : q.writing = 1) :
    q.retired i = q.bBeat i := by
  obtain ⟨st, a, d, b⟩ := q
  cases st with
  | wrWait => rfl
  | wrBoth | wrData => exact absurd ha (by simp [pendAw])
  | wrAddr => exact absurd hw (by simp [pendW])
  | idle | rdAddr | rdWait => exact absurd h1 (by simp [writing])

/-! ### Runs -/

variable {s : MasterBridge} {inp : Nat → BridgeIn}

/-- The events of the first `t` cycles. -/
abbrev log {ε : Type} (ev : MasterBridge → BridgeIn → Option ε) (s : MasterBridge) (inp : Nat → BridgeIn) (t : Nat) :
    List ε :=
  logFrom ev next s inp 0 t

/-- What the first `t` cycles have exchanged on the five channels and on the native port. -/
structure Whole (s : MasterBridge) (inp : Nat → BridgeIn) (t : Nat) : Prop where
  aw : (log acceptedWrite s inp t).map Prod.fst = log awBeat s inp t ++ (trace next s inp t).pendAw
  w : (log acceptedWrite s inp t).map Prod.snd = log wBeat s inp t ++ (trace next s inp t).pendW
  ar : log acceptedRead s inp t = log arBeat s inp t ++ (trace next s inp t).pendAr
  write : (log acceptedWrite s inp t).length = (log retired s inp t).length + (trace next s inp t).writing
  read : (log acceptedRead s inp t).length = (log delivered s inp t).length + (trace next s inp t).reading
  data : log delivered s inp t = log rBeat s inp t

private theorem whole_run (h : s.IsReset) (inp : Nat → BridgeIn) (t : Nat) : Whole s inp t := by
  obtain ⟨h1, h2, h3, h4, h5⟩ := pend_idle h.state
  refine ⟨?_, ?_, ?_, ?_, ?_, ?_⟩
  · rw [log, ← logFrom_map]
    exact logFrom_balance h1 t fun k _ => (balanced _ _).aw
  · rw [log, ← logFrom_map]
    exact logFrom_balance h2 t fun k _ => (balanced _ _).w
  · exact logFrom_balance h3 t fun k _ => (balanced _ _).ar
  · exact logFrom_length_balance h4 t fun k _ => (balanced _ _).write
  · exact logFrom_length_balance h5 t fun k _ => (balanced _ _).read
  · rw [log, log, show delivered = rBeat from funext fun q => funext fun i => delivered_eq q i]

/-- A slave answers a write only behind both its beats: AXI4-Lite allows no earlier B. -/
def SlaveOk (s : MasterBridge) (inp : Nat → BridgeIn) : Prop :=
  ∀ t, (inp t).axi.bvalid = true →
    (log bBeat s inp t).length < (log awBeat s inp t).length ∧ (log bBeat s inp t).length < (log wBeat s inp t).length

/-- Under such a slave no B beat is lost. -/
private theorem retired_run (h : s.IsReset) (hs : SlaveOk s inp) (t : Nat) :
    (log bBeat s inp t).length = (log retired s inp t).length := by
  induction t with
  | zero => rfl
  | succ t ih =>
    rw [log, log, logFrom_succ, logFrom_succ, List.length_append, List.length_append, Nat.zero_add, ← log, ← log, ih]
    congr 2
    have hw := whole_run h inp t
    cases hb : (inp t).axi.bvalid with
    | false => simp [bBeat, retired, rsp, bHs, Axi.bHs, hb]
    | true =>
      obtain ⟨h1, h2⟩ := hs t hb
      have ha := congrArg List.length hw.aw
      have hd := congrArg List.length hw.w
      have hn := hw.write
      rw [List.length_map, List.length_append] at ha hd
      have hone := single (trace next s inp t)
      rw [ih] at h1 h2
      rw [retired_of_bBeat (List.length_eq_zero_iff.mp (by omega)) (List.length_eq_zero_iff.mp (by omega)) (by omega)]

/-- No channel is put off for ever: what is offered from some cycle on is taken, and what is awaited comes. -/
structure Fair (s : MasterBridge) (inp : Nat → BridgeIn) : Prop where
  aw : ∀ t, (∀ u, t ≤ u → ((trace next s inp u).axi (inp u).req).awvalid = true) →
    ∃ u, t ≤ u ∧ (inp u).axi.awready = true
  w : ∀ t, (∀ u, t ≤ u → ((trace next s inp u).axi (inp u).req).wvalid = true) →
    ∃ u, t ≤ u ∧ (inp u).axi.wready = true
  ar : ∀ t, (∀ u, t ≤ u → ((trace next s inp u).axi (inp u).req).arvalid = true) →
    ∃ u, t ≤ u ∧ (inp u).axi.arready = true
  b : ∀ t, (∀ u, t ≤ u → (trace next s inp u).stateQ = .wrWait) → ∃ u, t ≤ u ∧ (inp u).axi.bvalid = true
  r : ∀ t, (∀ u, t ≤ u → (trace next s inp u).stateQ = .rdWait) →
    ∃ u, t ≤ u ∧ (inp u).axi.rvalid = true ∧ (inp u).req.rready = true

section Progress

variable {t : Nat}

private theorem leave_wrWait (hf : Fair s inp) (h : (trace next s inp t).stateQ = .wrWait) :
    ∃ u, t ≤ u ∧ (trace next s inp u).stateQ = .idle := by
  obtain ⟨u, hu, hp, he⟩ := exists_exit (P := fun u => (trace next s inp u).stateQ = .wrWait)
    (E := fun u => (inp u).axi.bvalid = true) h
    (fun u hp he => by simp [trace_succ, next, stateD, hp, bHs, Axi.bHs, axi, quiet, he]) (hf.b t)
  exact ⟨u + 1, by omega, by simp [trace_succ, next, stateD, hp, bHs, Axi.bHs, axi, quiet, he]⟩

private theorem leave_wrAddr (hf : Fair s inp) (h : (trace next s inp t).stateQ = .wrAddr) :
    ∃ u, t ≤ u ∧ (trace next s inp u).stateQ = .idle := by
  obtain ⟨u, hu, hp, he⟩ := exists_exit (P := fun u => (trace next s inp u).stateQ = .wrAddr)
    (E := fun u => (inp u).axi.wready = true) h
    (fun u hp he => by simp [trace_succ, next, stateD, hp, wHs, Axi.wHs, he])
    (fun hall => hf.w t fun u hu => by simp [axi, hall u hu])
  obtain ⟨v, hv, hi⟩ := leave_wrWait (t := u + 1) hf
    (by simp [trace_succ, next, stateD, hp, wHs, Axi.wHs, axi, he])
  exact ⟨v, by omega, hi⟩

private theorem leave_wrData (hf : Fair s inp) (h : (trace next s inp t).stateQ = .wrData) :
    ∃ u, t ≤ u ∧ (trace next s inp u).stateQ = .idle := by
  obtain ⟨u, hu, hp, he⟩ := exists_exit (P := fun u => (trace next s inp u).stateQ = .wrData)
    (E := fun u => (inp u).axi.awready = true) h
    (fun u hp he => by simp [trace_succ, next, stateD, hp, awHs, Axi.awHs, he])
    (fun hall => hf.aw t fun u hu => by simp [axi, hall u hu])
  obtain ⟨v, hv, hi⟩ := leave_wrWait (t := u + 1) hf
    (by simp [trace_succ, next, stateD, hp, awHs, Axi.awHs, axi, he])
  exact ⟨v, by omega, hi⟩

private theorem leave_wrBoth (hf : Fair s inp) (h : (trace next s inp t).stateQ = .wrBoth) :
    ∃ u, t ≤ u ∧ (trace next s inp u).stateQ = .idle := by
  obtain ⟨u, hu, hp, he⟩ := exists_exit (P := fun u => (trace next s inp u).stateQ = .wrBoth)
    (E := fun u => (inp u).axi.awready = true ∨ (inp u).axi.wready = true) h
    (fun u hp he => by
      rw [not_or] at he
      simp [trace_succ, next, stateD, writeD, hp, awHs, wHs, Axi.awHs, Axi.wHs, he.1, he.2])
    (fun hall => by
      obtain ⟨u, hu, hr⟩ := hf.aw t fun u hu => by simp [axi, hall u hu]
      exact ⟨u, hu, .inl hr⟩)
  have hnext : (trace next s inp (u + 1)).stateQ =
      (trace next s inp u).writeD (inp u) .wrBoth := by simp [trace_succ, next, stateD, hp]
  -- Both channels at once, or one of them first.
  cases ha : (inp u).axi.awready <;> cases hw : (inp u).axi.wready <;>
    simp [writeD, awHs, wHs, Axi.awHs, Axi.wHs, axi, hp, ha, hw] at hnext
  · simp [ha, hw] at he
  · obtain ⟨v, hv, hi⟩ := leave_wrData hf hnext
    exact ⟨v, by omega, hi⟩
  · obtain ⟨v, hv, hi⟩ := leave_wrAddr hf hnext
    exact ⟨v, by omega, hi⟩
  · obtain ⟨v, hv, hi⟩ := leave_wrWait hf hnext
    exact ⟨v, by omega, hi⟩

private theorem leave_rdWait (hf : Fair s inp) (h : (trace next s inp t).stateQ = .rdWait) :
    ∃ u, t ≤ u ∧ (trace next s inp u).stateQ = .idle := by
  obtain ⟨u, hu, hp, he⟩ := exists_exit (P := fun u => (trace next s inp u).stateQ = .rdWait)
    (E := fun u => (inp u).axi.rvalid = true ∧ (inp u).req.rready = true) h
    (fun u hp he => by
      have : ((inp u).axi.rvalid && (inp u).req.rready) = false := by simpa using he
      simp [trace_succ, next, stateD, hp, rHs, Axi.rHs, axi, quiet, this]) (hf.r t)
  exact ⟨u + 1, by omega, by simp [trace_succ, next, stateD, hp, rHs, Axi.rHs, axi, quiet, he.1, he.2]⟩

private theorem leave_rdAddr (hf : Fair s inp) (h : (trace next s inp t).stateQ = .rdAddr) :
    ∃ u, t ≤ u ∧ (trace next s inp u).stateQ = .idle := by
  obtain ⟨u, hu, hp, he⟩ := exists_exit (P := fun u => (trace next s inp u).stateQ = .rdAddr)
    (E := fun u => (inp u).axi.arready = true) h
    (fun u hp he => by simp [trace_succ, next, stateD, hp, arHs, Axi.arHs, he])
    (fun hall => hf.ar t fun u hu => by simp [axi, hall u hu])
  obtain ⟨v, hv, hi⟩ := leave_rdWait (t := u + 1) hf
    (by simp [trace_succ, next, stateD, hp, arHs, Axi.arHs, axi, he])
  exact ⟨v, by omega, hi⟩

/-- Under fairness the bridge always comes back to idle. -/
private theorem exists_idle (hf : Fair s inp) (t : Nat) : ∃ u, t ≤ u ∧ (trace next s inp u).stateQ = .idle := by
  cases h : (trace next s inp t).stateQ with
  | idle => exact ⟨t, le_rfl, h⟩
  | rdAddr => exact leave_rdAddr hf h
  | rdWait => exact leave_rdWait hf h
  | wrBoth => exact leave_wrBoth hf h
  | wrAddr => exact leave_wrAddr hf h
  | wrData => exact leave_wrData hf h
  | wrWait => exact leave_wrWait hf h

end Progress

/-- **Exactly once.**  Whatever the native master and the slave do: the AW, W and AR beats are the addresses, data and
addresses of the accepted requests, in order, but for what the bridge holds back; the data the native side sees are
the R beats; each accepted write gets at most one response, behind both its beats, and each accepted read one datum,
behind its address; at most one transaction is in flight; no refused channel is dropped or changed.  A B beat that
comes behind its write is a response, and if nothing is put off for ever the bridge comes back to idle, with nothing
held back. -/
theorem exactly_once (inp : Nat → BridgeIn) (h : s.IsReset) :
    (∀ t, Whole s inp t) ∧
      (∀ t, ((trace next s inp t).retired (inp t)).isSome = true →
        (log awBeat s inp t).length = (log acceptedWrite s inp t).length ∧
          (log wBeat s inp t).length = (log acceptedWrite s inp t).length ∧ (trace next s inp t).writing = 1) ∧
      (∀ t, ((trace next s inp t).delivered (inp t)).isSome = true →
        (log arBeat s inp t).length = (log acceptedRead s inp t).length ∧ (trace next s inp t).reading = 1) ∧
      (∀ t, (trace next s inp t).writing + (trace next s inp t).reading ≤ 1 ∧
        (((trace next s inp t).rsp (inp t)).wready = true ↔
          (trace next s inp t).writing + (trace next s inp t).reading = 0)) ∧
      (∀ t, Axi.Held ((trace next s inp t).axi (inp t).req) (inp t).axi
        ((trace next s inp (t + 1)).axi (inp (t + 1)).req)) ∧
      (SlaveOk s inp → ∀ t, (log bBeat s inp t).length = (log retired s inp t).length) ∧
      (Fair s inp → ∀ t, ∃ u, t ≤ u ∧ (log awBeat s inp u).length = (log acceptedWrite s inp u).length ∧
        (log wBeat s inp u).length = (log acceptedWrite s inp u).length ∧
        (log retired s inp u).length = (log acceptedWrite s inp u).length ∧
        (log arBeat s inp u).length = (log acceptedRead s inp u).length ∧
        (log delivered s inp u).length = (log acceptedRead s inp u).length) := by
  refine ⟨whole_run h inp, fun t ht => ?_, fun t ht => ?_, fun t => ⟨single _, wready_iff _ _⟩,
    fun t => held _ _ _, fun hs => retired_run h hs, fun hf t => ?_⟩
  · obtain ⟨h1, h2, h3⟩ := pend_of_retired ht
    have hw := whole_run h inp t
    have ha := congrArg List.length hw.aw
    have hd := congrArg List.length hw.w
    rw [List.length_map, List.length_append] at ha hd
    simp only [h1, h2, List.length_nil] at ha hd
    exact ⟨by omega, by omega, h3⟩
  · obtain ⟨h1, h2⟩ := pend_of_delivered ht
    have ha := congrArg List.length (whole_run h inp t).ar
    rw [List.length_append] at ha
    simp only [h1, List.length_nil] at ha
    exact ⟨by omega, h2⟩
  · obtain ⟨u, hu, hi⟩ := exists_idle hf t
    obtain ⟨h1, h2, h3, h4, h5⟩ := pend_idle hi
    have hw := whole_run h inp u
    have ha := congrArg List.length hw.aw
    have hd := congrArg List.length hw.w
    have hr := congrArg List.length hw.ar
    have hn := hw.write
    have hm := hw.read
    rw [List.length_map, List.length_append] at ha hd
    rw [List.length_append] at hr
    simp only [h1, h2, h3, List.length_nil] at ha hd hr
    exact ⟨u, hu, by omega, by omega, by omega, by omega, by omega⟩

/-- A write in every other cycle, to a slave that is always ready and answers at once. -/
def writes (t : Nat) : BridgeIn where
  req := ⟨true, true, 0x10000004, BitVec.ofNat 32 t, 0b1111, true⟩
  axi := ⟨true, true, 0, decide (t % 2 = 1), true, 0, 0, true⟩

/-- The theorem on these writes: the response of cycle 1 comes behind both beats, and every write gets its own. -/
theorem exactly_once_writes :
    (log wBeat ⟨.idle, 0, 0, 0⟩ writes 1).length = 1 ∧
      ∃ u, 5 ≤ u ∧ (log retired ⟨.idle, 0, 0, 0⟩ writes u).length =
        (log acceptedWrite ⟨.idle, 0, 0, 0⟩ writes u).length := by
  have h := exactly_once (s := ⟨.idle, 0, 0, 0⟩) writes ⟨rfl⟩
  have hodd : ∀ t, ∃ u, t ≤ u ∧ (writes u).axi.bvalid = true := by
    intro t
    rcases Nat.mod_two_eq_zero_or_one t with ht | ht
    · exact ⟨t + 1, by omega, by simp [writes]; omega⟩
    · exact ⟨t, le_rfl, by simp [writes, ht]⟩
  have hf : Fair ⟨.idle, 0, 0, 0⟩ writes :=
    ⟨fun t _ => ⟨t, le_rfl, rfl⟩, fun t _ => ⟨t, le_rfl, rfl⟩, fun t _ => ⟨t, le_rfl, rfl⟩, fun t _ => hodd t,
      fun t _ => ⟨t, le_rfl, rfl, rfl⟩⟩
  obtain ⟨u, hu, -, -, hr, -, -⟩ := h.2.2.2.2.2.2 hf 5
  exact ⟨(h.2.1 1 (by decide)).2.1.trans (by decide), u, hu, hr⟩

end MasterBridge

end Yarv
