import Yarv.Lib.Ring
import Yarv.Image
import Yarv.Cpu
import Yarv.RamFacts

/-!
# The entry stream of fetch

Fetch and the I-mem together hold one position: the address of the entry at the buffer head.  `FetchAt` says so for
the buffer, the read in flight and the PC at once.  A cycle without a redirect moves the position over the entries
decode popped, a redirect moves it to the target, whatever was buffered or in flight.

With one cycle of read latency the in-flight count stays below two, no response is ever left in the skid FIFO and the
stale count stays zero.
-/

namespace Yarv

open FetchStage

variable {p : Params} {img : Nat → BitVec 64}

/-- The address the next sequential read goes to. -/
def FetchStage.nextIssue (q : FetchStage) : Word := if q.redirLaunchedQ then q.pcNextBlock else q.pcQ

/-- Fetch and the I-mem stand at the address `a`: the buffered entries are those from `a` on, the read in flight is
for the address behind them and the PC is behind that. -/
structure FetchAt (p : Params) (img : Nat → BitVec 64) (a : Word) (q : FetchStage) (r : NativeRam 64) : Prop where
  mem : r.mem = img
  skid : r.countQ = 0
  inflight : q.inflightQ = r.rifQ.toNat
  stale : q.staleQ = 0
  room : q.countQ + 2 * r.rifQ.toNat ≤ 8
  tail : q.tailQ = q.headQ + BitVec.ofNat 3 q.countQ
  redir : q.redirLaunchedQ = true → r.rifQ = true ∧ q.reqPcQ = q.pcQ
  data : r.rifQ = true → r.rdDQ = img (q.reqPcQ.toNat % 2 ^ p.imemAddrW / 8)
  issue : r.rifQ = true → q.nextIssue = blockNext q.reqPcQ
  pos : (nextFetch p)^[q.countQ] a = if r.rifQ then q.reqPcQ else q.nextIssue
  buf : ∃ l, Ring.Holds q.bufQ q.headQ l ∧ l.map BufEntry.slot = slotsFrom p img a q.countQ

/-- The request fetch presents to the I-mem. -/
def fetchMemIn (p : Params) (q : FetchStage) (i : FetchIn) : RamReq (imemParams p).dataWidth :=
  { valid := (imemReq p q i).valid, we := false, addr := (imemReq p q i).addr, wdata := 0, wstrb := 0,
    rready := (imemReq p q i).rready }

/-- The response of the I-mem `r` is wired to fetch. -/
def FetchWired (p : Params) (q : FetchStage) (r : NativeRam 64) (i : FetchIn) : Prop :=
  i.imemRsp =
    ⟨NativeRam.rspWready (imemParams p) r (fetchMemIn p q i), NativeRam.rspRvalid (imemParams p) r,
      NativeRam.rspRdata (imemParams p) r⟩

namespace FetchAt

variable {a : Word} {q : FetchStage} {r : NativeRam 64} {i : FetchIn}

/-! ### One cycle of the port -/

private theorem rready (h : FetchAt p img a q r) (hr : r.rifQ = true) : q.rready = true := by
  have h1 := h.room
  rw [hr] at h1
  have h2 : q.countQ ≤ 6 := by
    simp only [Bool.toNat_true] at h1
    omega
  simp [FetchStage.rready, h2]

/-- Nothing is left in the skid FIFO. -/
private theorem drained (h : FetchAt p img a q r) : NativeRam.Drained r (fetchMemIn p q i) := ⟨h.skid, h.rready⟩

private theorem wready (h : FetchAt p img a q r) : NativeRam.rspWready (imemParams p) r (fetchMemIn p q i) = true :=
  h.drained.wready Nat.two_pos

theorem rspCap (h : FetchAt p img a q r) (hw : FetchWired p q r i) : FetchStage.rspCap q i = r.rifQ := by
  have h1 : i.imemRsp.rvalid = r.rifQ := by
    rw [hw]
    exact NativeRam.rspRvalid_empty (c := imemParams p) h.skid
  rw [FetchStage.rspCap, h1]
  cases hr : r.rifQ with
  | false => rfl
  | true => rw [h.rready hr]; rfl

theorem launch (h : FetchAt p img a q r) (hw : FetchWired p q r i) : FetchStage.launch p q i = busIssue p q i := by
  have h1 : i.imemRsp.ready = true := by
    rw [hw]
    exact h.wready
  rw [FetchStage.launch, h1, Bool.and_true]

private theorem rdata (h : FetchAt p img a q r) (hw : FetchWired p q r i) : i.imemRsp.rdata = r.rdDQ := by
  rw [hw]
  exact NativeRam.rspRdata_empty (c := imemParams p) h.skid

theorem doRsp (h : FetchAt p img a q r) (hw : FetchWired p q r i) : FetchStage.doRsp q i = r.rifQ := by
  rw [FetchStage.doRsp, h.rspCap hw, h.stale]
  simp

/-- The I-mem after the clock edge. -/
theorem ram_next (h : FetchAt p img a q r) (hw : FetchWired p q r i) :
    (NativeRam.next (imemParams p) r (fetchMemIn p q i)).mem = img ∧
      (NativeRam.next (imemParams p) r (fetchMemIn p q i)).countQ = 0 ∧
      (NativeRam.next (imemParams p) r (fetchMemIn p q i)).rifQ = FetchStage.launch p q i ∧
      (FetchStage.launch p q i = true →
        (NativeRam.next (imemParams p) r (fetchMemIn p q i)).rdDQ =
          img ((issueAddr p q i).toNat % 2 ^ p.imemAddrW / 8)) := by
  have hl : NativeRam.launchRead (imemParams p) r (fetchMemIn p q i) = FetchStage.launch p q i := by
    rw [NativeRam.launchRead, NativeRam.launchHs, h.wready, h.launch hw]
    simp [fetchMemIn, imemReq]
  refine ⟨?_, NativeRam.Drained.newCount (c := imemParams p) h.drained, hl, fun hlt => ?_⟩
  · change NativeRam.memNext (imemParams p) r (fetchMemIn p q i) = img
    simp [NativeRam.memNext, imemParams, h.mem]
  · change (if NativeRam.launchRead (imemParams p) r (fetchMemIn p q i) then _ else _) = _
    rw [hl, hlt, if_pos rfl, h.mem, NativeRam.wordAddr]
    simp only [fetchMemIn, imemReq, Nat.reduceDiv]

/-! ### A redirect -/

/-- A redirect moves the position to its target. -/
theorem redirect (h : FetchAt p img a q r) (hw : FetchWired p q r i) (hr : FetchStage.redirect i = true) :
    FetchAt p img (redirectAddr i) (q.next p i) (NativeRam.next (imemParams p) r (fetchMemIn p q i)) := by
  obtain ⟨hm, hc, hrif, hd⟩ := h.ram_next hw
  have hfl : q.inflightQ ≤ 1 := by
    rw [h.inflight]
    exact Bool.toNat_le _
  -- An in-cycle launch is never refused; without one nothing is launched.
  have hlaunch : FetchStage.launch p q i = incycleLaunch p i := by
    rw [h.launch hw, busIssue, availableIssue, hr, twiceInflight]
    have h1 : q.inflightQ < 2 := by omega
    have h2 : 2 ≤ (8 + 32 - 2 * q.inflightQ) % 32 := by omega
    cases hk : p.execRedirIncycle <;> cases hb : i.branchValid <;>
      simp_all [incycleLaunch, execRedirHold, FetchStage.redirect, predRedirect]
  have hissue : FetchStage.launch p q i = true → issueAddr p q i = redirectAddr i := by
    intro hl
    rw [hlaunch] at hl
    rw [issueAddr, if_pos hl, incycleAddr]
    split
    · rfl
    · rename_i hk
      simp only [incycleLaunch, hk, Bool.false_eq_true, if_false, predRedirect, Bool.and_eq_true,
        Bool.not_eq_true'] at hl
      rw [redirectAddr, hl.2]
      rfl
  have hpc : (q.next p i).pcQ = redirectAddr i := by
    change pcD p q i = _
    rw [pcD, hr, if_pos rfl]
  have hcount : (q.next p i).countQ = 0 := by
    change (if FetchStage.redirect i then 0 else _) = 0
    rw [hr, if_pos rfl]
  have hreq : FetchStage.launch p q i = true → (q.next p i).reqPcQ = redirectAddr i := by
    intro hl
    change (if FetchStage.launch p q i then issueAddr p q i else q.reqPcQ) = _
    rw [if_pos hl, hissue hl]
  have hrl : (q.next p i).redirLaunchedQ = FetchStage.launch p q i := by
    change (incycleLaunch p i && FetchStage.launch p q i) = _
    rw [hlaunch, Bool.and_self]
  have hnext : (q.next p i).nextIssue =
      if FetchStage.launch p q i then blockNext (redirectAddr i) else redirectAddr i := by
    rw [nextIssue, hrl, pcNextBlock, hpc]
    rfl
  refine
    { mem := hm, skid := hc, inflight := ?_, stale := ?_, room := ?_, tail := ?_, redir := ?_, data := ?_,
      issue := ?_, pos := ?_, buf := ?_ }
  · rw [hrif]
    change (q.inflightQ + (FetchStage.launch p q i).toNat + 4 - (FetchStage.rspCap q i).toNat) % 4 = _
    rw [h.rspCap hw, h.inflight]
    cases r.rifQ <;> cases FetchStage.launch p q i <;> rfl
  · change staleD q i = 0
    rw [staleD, hr, if_pos rfl, h.rspCap hw, h.inflight]
    cases r.rifQ <;> rfl
  · rw [hcount]
    have := Bool.toNat_le (NativeRam.next (imemParams p) r (fetchMemIn p q i)).rifQ
    omega
  · change (if FetchStage.redirect i then 0 else _) = (if FetchStage.redirect i then 0 else _) + _
    rw [hcount, hr]
    rfl
  · intro hl
    rw [hrl] at hl
    exact ⟨by rw [hrif, hl], by rw [hreq hl, hpc]⟩
  · intro hl
    rw [hrif] at hl
    rw [hd hl, hissue hl, hreq hl]
  · intro hl
    rw [hrif] at hl
    rw [hnext, hl, if_pos rfl, hreq hl]
  · rw [hcount, hrif, hnext]
    cases hl : FetchStage.launch p q i with
    | true => simp [hreq hl]
    | false => simp
  · exact ⟨[], Ring.holds_nil _ _, by rw [hcount]; rfl⟩

/-! ### A cycle without a redirect -/

/-- A landing response leaves no room for a fault push, and the other way round. -/
private theorem faultPush_of_rif (h : FetchAt p img a q r) (hw : FetchWired p q r i) (hr : r.rifQ = true) :
    faultPush p q i = false := by
  simp [faultPush, h.rspCap hw, hr]

private theorem redirLaunched_of_not_rif (h : FetchAt p img a q r) (hr : r.rifQ = false) :
    q.redirLaunchedQ = false := by
  cases hl : q.redirLaunchedQ with
  | false => rfl
  | true => exact absurd (h.redir hl).1 (by simp [hr])

/-- The landing response is split into the entries from its address on. -/
theorem push_of_rif (h : FetchAt p img a q r) (hw : FetchWired p q r i) (hr : r.rifQ = true) :
    (pushCnt p q i = 1 ∧ (push0 p q i).slot = slotAt p img q.reqPcQ ∧ nextFetch p q.reqPcQ = blockNext q.reqPcQ) ∨
      (pushCnt p q i = 2 ∧ (push0 p q i).slot = slotAt p img q.reqPcQ ∧
        (push1 q i).slot = slotAt p img (nextFetch p q.reqPcQ) ∧
        nextFetch p (nextFetch p q.reqPcQ) = blockNext q.reqPcQ) := by
  have hdo : FetchStage.doRsp q i = true := by rw [h.doRsp hw, hr]
  have hpc : push0Pc q i = q.reqPcQ := by rw [push0Pc, if_pos hdo]
  cases hf : outOfImem p q.reqPcQ with
  | true =>
    left
    have hdd : doRspData p q i = false := by simp [doRspData, rspFault, hf]
    have hdf : doRspFault p q i = true := by simp [doRspFault, rspFault, hf, hdo]
    refine ⟨by simp [pushCnt, hdd, hdf], ?_, nextFetch_of_out hf⟩
    simp [BufEntry.slot, push0, push0Word, hdd, hpc, slotAt, hf]
  | false =>
    have hdd : doRspData p q i = true := by simp [doRspData, rspFault, hf, hdo]
    have hdata : i.imemRsp.rdata = img (q.reqPcQ.toNat / 8) := by
      rw [h.rdata hw, h.data hr, wordAddr_in hf]
    have hslot : (push0 p q i).slot = slotAt p img q.reqPcQ := by
      have hx := extract_word img q.reqPcQ
      cases hb : q.reqPcQ.getLsbD 2 <;>
        simp_all [BufEntry.slot, push0, push0Word, slotAt, rspTwo, rspLowWord, rspHighWord]
    cases hb : q.reqPcQ.getLsbD 2 with
    | true =>
      have ht : rspTwo q = false := by rw [rspTwo, hb]; rfl
      exact .inl ⟨by simp [pushCnt, hdd, ht], hslot, nextFetch_high hb⟩
    | false =>
      right
      have hn := nextFetch_low hf hb
      have ht : rspTwo q = true := by rw [rspTwo, hb]; rfl
      refine ⟨by simp [pushCnt, hdd, ht], hslot, ?_, ?_⟩
      · have hx := extract_word img (highPc q.reqPcQ)
        have hd : (highPc q.reqPcQ).toNat / 8 = q.reqPcQ.toNat / 8 := by
          rw [toNat_highPc]
          omega
        rw [hd, highPc_bit, if_pos rfl, ← hdata] at hx
        rw [hn]
        simp only [BufEntry.slot, push1, slotAt, highPc_in hf, rspHighWord, hx]
        rfl
      · rw [hn, nextFetch_high (highPc_bit _), blockNext_highPc]

/-- What a cycle pushes is the continuation of the buffered stream. -/
theorem push_stream (h : FetchAt p img a q r) (hw : FetchWired p q r i) :
    q.countQ + pushCnt p q i ≤ 8 ∧
      ∃ l, Ring.Holds (bufD p q i) q.headQ l ∧
        l.map BufEntry.slot = slotsFrom p img a (q.countQ + pushCnt p q i) := by
  obtain ⟨l, hl, hs⟩ := h.buf
  have hlen : l.length = q.countQ := by
    have := congrArg List.length hs
    simpa using this
  have hroom := h.room
  have hpos := h.pos
  have h8 : (2 : Nat) ^ 3 = 8 := rfl
  cases hr : r.rifQ with
  | true =>
    rw [hr, if_pos rfl] at hpos
    rw [hr, Bool.toNat_true] at hroom
    rcases h.push_of_rif hw hr with ⟨hc, h0, -⟩ | ⟨hc, h0, h1, -⟩
    · refine ⟨by omega, l ++ [push0 p q i], ?_, ?_⟩
      · have := hl.push (by omega) (push0 p q i)
        rw [hlen, ← h.tail] at this
        simpa [bufD, hc] using this
      · rw [hc, slotsFrom_add, hpos, slotsFrom_one, List.map_append, hs, List.map_singleton, h0]
    · refine ⟨by omega, l ++ [push0 p q i, push1 q i], ?_, ?_⟩
      · have := hl.push_two (by omega) (push0 p q i) (push1 q i)
        rw [hlen, ← h.tail] at this
        simpa [bufD, hc] using this
      · rw [hc, slotsFrom_add, hpos, slotsFrom_two, List.map_append, hs, List.map_cons, List.map_singleton, h0, h1]
  | false =>
    have hdo : FetchStage.doRsp q i = false := by rw [h.doRsp hw, hr]
    have hdd : doRspData p q i = false := by simp [doRspData, hdo]
    have hdf : doRspFault p q i = false := by simp [doRspFault, hdo]
    have hrl := h.redirLaunched_of_not_rif hr
    rw [hr, if_neg (by simp), nextIssue, hrl, if_neg (by simp)] at hpos
    cases hf : faultPush p q i with
    | false =>
      have hc : pushCnt p q i = 0 := by simp [pushCnt, hdd, hdf, hf]
      exact ⟨by omega, l, by simpa [bufD, hc] using hl, by rw [hc, Nat.add_zero, hs]⟩
    | true =>
      have hc : pushCnt p q i = 1 := by simp [pushCnt, hdd, hdf, hf]
      simp only [faultPush, Bool.and_eq_true] at hf
      have hlt : q.countQ + 1 ≤ 8 := by
        have hi := h.inflight
        have ha := of_decide_eq_true hf.1.1.2
        rw [available, reserved, twiceInflight] at ha
        rw [hr, Bool.toNat_false] at hi hroom
        omega
      refine ⟨by omega, l ++ [push0 p q i], ?_, ?_⟩
      · have := hl.push (by omega) (push0 p q i)
        rw [hlen, ← h.tail] at this
        simpa [bufD, hc] using this
      · have hout : outOfImem p q.pcQ = true := hf.1.1.1
        rw [hc, slotsFrom_add, hpos, slotsFrom_one, List.map_append, hs, List.map_singleton]
        simp [BufEntry.slot, push0, push0Word, push0Pc, hdd, hdo, slotAt, hout]

/-- The stream position behind the buffer after the clock edge, in a cycle without a redirect. -/
private theorem pos_next (h : FetchAt p img a q r) (hw : FetchWired p q r i) (hr : FetchStage.redirect i = false) :
    (nextFetch p)^[q.countQ + pushCnt p q i] a =
      (if FetchStage.launch p q i then (q.next p i).reqPcQ else (q.next p i).nextIssue) ∧
    (FetchStage.launch p q i = true → (q.next p i).nextIssue = blockNext (q.next p i).reqPcQ) := by
  have hin : incycleLaunch p i = false := by
    simp only [FetchStage.redirect, Bool.or_eq_false_iff] at hr
    simp [incycleLaunch, FetchStage.redirect, hr.1, hr.2]
  have hissue : issueAddr p q i = q.nextIssue := by simp [issueAddr, hin, nextIssue]
  have hreq : (q.next p i).reqPcQ = if FetchStage.launch p q i then q.nextIssue else q.reqPcQ := by
    rw [← hissue]
    rfl
  have hnext : (q.next p i).nextIssue = pcD p q i := by
    have : (q.next p i).redirLaunchedQ = false := by
      change (incycleLaunch p i && _) = false
      rw [hin, Bool.false_and]
    rw [nextIssue, this]
    rfl
  have hblock2 : q.pcNextBlock2 = blockNext q.pcNextBlock := by
    apply BitVec.eq_of_toNat_eq
    rw [toNat_blockNext, pcNextBlock, pcNextBlock2, BitVec.toNat_add, BitVec.toNat_add, toNat_and_not7]
    have h1 : (8 : Word).toNat = 8 := rfl
    have h2 : (16 : Word).toNat = 16 := rfl
    omega
  have hpos := h.pos
  rw [Nat.add_comm, Function.iterate_add_apply, hpos, hnext, hreq]
  cases hrif : r.rifQ with
  | true =>
    rw [if_pos rfl]
    have hpc : pcD p q i = if FetchStage.launch p q i then blockNext q.nextIssue else q.nextIssue := by
      rw [pcD, hr, h.faultPush_of_rif hw hrif]
      cases hrl : q.redirLaunchedQ <;> cases FetchStage.launch p q i <;> simp [nextIssue, hrl, hblock2]
      · rfl
    have hpush : (nextFetch p)^[pushCnt p q i] q.reqPcQ = q.nextIssue := by
      rw [h.issue hrif]
      rcases h.push_of_rif hw hrif with ⟨hc, -, hn⟩ | ⟨hc, -, -, hn⟩
      · rw [hc]
        exact hn
      · rw [hc]
        exact hn
    rw [hpush, hpc]
    cases FetchStage.launch p q i <;> simp
  | false =>
    have hrl := h.redirLaunched_of_not_rif hrif
    have hni : q.nextIssue = q.pcQ := by rw [nextIssue, hrl, if_neg (by simp)]
    have hdo : FetchStage.doRsp q i = false := by rw [h.doRsp hw, hrif]
    rw [if_neg (by simp), hni]
    cases hf : faultPush p q i with
    | true =>
      have hc : pushCnt p q i = 1 := by simp [pushCnt, doRspData, hdo, hf]
      have hout : outOfImem p q.pcQ = true := by
        simp only [faultPush, Bool.and_eq_true] at hf
        exact hf.1.1.1
      have hl : FetchStage.launch p q i = false := by
        rw [h.launch hw]
        simp [busIssue, hin, pcFault, hout]
      rw [hc, hl, if_neg (by simp), pcD, hr, hf]
      exact ⟨nextFetch_of_out hout, by simp⟩
    | false =>
      have hc : pushCnt p q i = 0 := by simp [pushCnt, doRspData, doRspFault, hdo, hf]
      rw [hc, pcD, hr, hf, hrl]
      cases FetchStage.launch p q i <;> simp [pcNextBlock, blockNext]

/-- Without a redirect the position moves over the popped entries. -/
theorem advance (h : FetchAt p img a q r) (hw : FetchWired p q r i) (hr : FetchStage.redirect i = false)
    (hk : bufPopCnt q i ≤ q.countQ) :
    FetchAt p img ((nextFetch p)^[bufPopCnt q i] a) (q.next p i)
      (NativeRam.next (imemParams p) r (fetchMemIn p q i)) := by
  obtain ⟨hm, hc, hrif, hd⟩ := h.ram_next hw
  obtain ⟨hpush, l, hl, hs⟩ := h.push_stream hw
  obtain ⟨hpos, hissue⟩ := h.pos_next hw hr
  have hin : incycleLaunch p i = false := by
    simp only [FetchStage.redirect, Bool.or_eq_false_iff] at hr
    simp [incycleLaunch, FetchStage.redirect, hr.1, hr.2]
  have hcount : (q.next p i).countQ = q.countQ + pushCnt p q i - bufPopCnt q i := by
    change (if FetchStage.redirect i then 0 else (q.countQ + pushCnt p q i + 16 - bufPopCnt q i) % 16) = _
    rw [hr, if_neg (by simp)]
    omega
  have hhead : (q.next p i).headQ = q.headQ + BitVec.ofNat 3 (bufPopCnt q i) := by
    change (if FetchStage.redirect i then 0 else _) = _
    rw [hr, if_neg (by simp)]
  have hsplit : (nextFetch p)^[(q.next p i).countQ] ((nextFetch p)^[bufPopCnt q i] a) =
      (nextFetch p)^[q.countQ + pushCnt p q i] a := by
    rw [← Function.iterate_add_apply, hcount, Nat.sub_add_cancel (by omega)]
  have hreqd : FetchStage.launch p q i = true → (q.next p i).reqPcQ = issueAddr p q i := by
    intro hlt
    change (if FetchStage.launch p q i then _ else _) = _
    rw [if_pos hlt]
  refine
    { mem := hm, skid := hc, inflight := ?_, stale := ?_, room := ?_, tail := ?_, redir := ?_, data := ?_,
      issue := ?_, pos := ?_, buf := ?_ }
  · rw [hrif]
    change (q.inflightQ + (FetchStage.launch p q i).toNat + 4 - (FetchStage.rspCap q i).toNat) % 4 = _
    rw [h.rspCap hw, h.inflight]
    cases r.rifQ <;> cases FetchStage.launch p q i <;> rfl
  · change staleD q i = 0
    simp [staleD, hr, h.stale]
  · -- A launch reserves two slots, a push uses at most the reservation of the response.
    rw [hrif, hcount]
    have hle : q.countQ + pushCnt p q i ≤ q.countQ + 2 * r.rifQ.toNat ∨ FetchStage.launch p q i = false := by
      cases hrq : r.rifQ with
      | true =>
        rcases h.push_of_rif hw hrq with ⟨hc', -, -⟩ | ⟨hc', -, -, -⟩ <;> exact .inl (by simp [hc'])
      | false =>
        have hdo : FetchStage.doRsp q i = false := by rw [h.doRsp hw, hrq]
        cases hf : faultPush p q i with
        | false => exact .inl (by simp [pushCnt, doRspData, doRspFault, hdo, hf])
        | true =>
          right
          rw [h.launch hw]
          simp only [faultPush, Bool.and_eq_true] at hf
          simp [busIssue, hin, hf.1.1.1]
    cases hlt : FetchStage.launch p q i with
    | false =>
      simp only [Bool.toNat_false]
      omega
    | true =>
      have hb : busIssue p q i = true := by rw [← h.launch hw, hlt]
      simp only [busIssue, Bool.and_eq_true, decide_eq_true_eq, availableIssue, hr, available, reserved,
        twiceInflight, Bool.false_eq_true, if_false, h.inflight] at hb
      have hroom := h.room
      rw [hlt] at hle
      simp only [Bool.true_eq_false, or_false] at hle
      simp only [Bool.toNat_true]
      omega
  · change (if FetchStage.redirect i then 0 else q.tailQ + BitVec.ofNat 3 (pushCnt p q i)) = _
    rw [hr, if_neg (by simp), hhead, hcount, h.tail, BitVec.add_assoc, BitVec.add_assoc, ← BitVec.ofNat_add,
      ← BitVec.ofNat_add, Nat.add_sub_cancel' (by omega)]
  · intro hlt
    have : (q.next p i).redirLaunchedQ = false := by
      change (incycleLaunch p i && _) = false
      rw [hin, Bool.false_and]
    rw [this] at hlt
    exact absurd hlt (by simp)
  · intro hlt
    rw [hrif] at hlt
    rw [hd hlt, hreqd hlt]
  · intro hlt
    rw [hrif] at hlt
    exact hissue hlt
  · rw [hsplit, hpos, hrif]
  · refine ⟨l.drop (bufPopCnt q i), ?_, ?_⟩
    · rw [hhead]
      exact hl.drop _
    · rw [List.map_drop, hs, slotsFrom_drop _ _ _ (by omega), hcount]

end FetchAt

end Yarv
