import Yarv.Lib.Progress
import Yarv.Stream
import Yarv.WorldRun

/-!
# The hart makes progress

The core with its D-mem retires something, a commit, a trap or an interrupt, in every forty cycles in which nothing
outside holds it back (`CoreMem.progress`).  Three things outside can: a WFI waits for an interrupt, the peripherals
do not accept a request, they owe the data of a load.  Nothing inside does: not the fetch buffer, the predictor and
its redirects, the D-mem or the divider.

The rank counts down from a redirect to the commit: five cycles to stitch and fetch an instruction that spans two
words, one to latch it, and the division with its 32 iterations.
-/

namespace Yarv

open Clocked ExecuteStage

/-! ### Execute -/

namespace ExecuteStage

variable {p : Params} {q : ExecuteStage} {i : ExecuteIn} {k : Kind}

/-- The cycles an instruction still needs in execute, its last one left out. -/
def rank (q : ExecuteStage) : Nat :=
  match q.exStateQ with
  | .idle => 33
  | .divBusy => if q.alu.divStateQ = .run then 32 - q.alu.divCntQ.toNat else 0
  | .memLaunch => 1
  | .csrWait => 0
  | .memTrap => 0
  | .memWait => 0

/-- A port takes the request of the cycle and has the data execute waits for. -/
structure Answers (p : Params) (q : ExecuteStage) (i : ExecuteIn) (peri : Bool) : Prop where
  ready : (portReq p q i peri).wvalid = true → (portRsp i peri).wready = true
  data : (portReq p q i peri).rready = true → (portRsp i peri).rvalid = true

private theorem rank_le (q : ExecuteStage) : q.rank ≤ 33 := by
  unfold rank
  split
  · exact le_rfl
  · split <;> omega
  all_goals omega

private theorem rank_busy (h : q.exStateQ ≠ .idle) : q.rank < 33 := by
  unfold rank
  split
  next hi => exact absurd hi h
  next => split <;> omega
  all_goals omega

/-- An instruction that is launched leaves the idle state. -/
private theorem launched_of_waits (h : q.exStateQ = .idle) (hs : i.stall = false) (hw : Waits p q i)
    (hf : wfiStall q i = false) (ha : Answers p q i false) : (next p q i).exStateQ ≠ .idle := by
  intro hn
  change exStateD p q i = .idle at hn
  rw [exStateD_idle h] at hn
  have hquiet : aluStart p q i = false ∧ memMisalignedLaunch p q i = false ∧ memCapture p q i = false ∧
      dmemLoadHs p q i = false ∧ csrStart p q i = false := by
    cases h1 : aluStart p q i with
    | true => rw [h1] at hn; cases hn
    | false =>
      cases h2 : memMisalignedLaunch p q i with
      | true => rw [h1, h2] at hn; cases hn
      | false =>
        cases h3 : memCapture p q i with
        | true => rw [h1, h2, h3] at hn; cases hn
        | false =>
          cases h4 : dmemLoadHs p q i with
          | true => rw [h1, h2, h3, h4] at hn; cases hn
          | false =>
            cases h5 : csrStart p q i with
            | true => rw [h1, h2, h3, h4, h5] at hn; cases hn
            | false => exact ⟨rfl, rfl, rfl, rfl, rfl⟩
  obtain ⟨h1, h2, h3, h4, h5⟩ := hquiet
  have hmem : memReqPending q i = false := by
    cases hm : memReqPending q i with
    | false => rfl
    | true =>
      -- neither trapped nor captured: the load is live, and the port takes it
      have hd : dmemLoadDrive p q i = true := by
        rw [memCapture, hm, h2, Bool.true_and, Bool.not_false, Bool.and_true, Bool.not_eq_false'] at h3
        exact h3
      have hr : i.memRsp.wready = true := ha.ready (by rw [(portReq_live hd).1])
      rw [dmemLoadHs, hd, hr] at h4
      cases h4
  have hst := hw.stall
  rw [stallO_of_quiet h hs h1 hmem h5, hf] at hst
  cases hst

/-- An instruction that waits without a halt has no result. -/
private theorem resultReady_of_waits (hs : i.stall = false) (hv : i.de.valid = true) (hf : wfiStall q i = false)
    (hw : Waits p q i) : resultReady p q i = false := by
  cases hr : resultReady p q i with
  | false => rfl
  | true =>
    have hc := opCommits_of_ready hv ((freeze_eq hs).trans hf) hr hw.trap
    rw [hw.commit] at hc
    cases hc

/-- An iteration of the divider. -/
private theorem rank_lt_div (state : q.exStateQ = .divBusy) (hk : i.de.HasKind .div)
    (hdiv : Alu.DivAt q.alu (aluIn (ofDe i.de) false)) (hr : resultReady p q i = false) :
    (next p q i).rank < q.rank := by
  rw [resultReady_div hk] at hr
  have hnext : (next p q i).exStateQ = .divBusy := by
    change exStateD p q i = .divBusy
    rw [exStateD, state, aluResultValid_div hk, hr]
    rfl
  have halu : (next p q i).alu = Alu.next q.alu (aluIn i (aluStart p q i)) := rfl
  cases hdiv with
  | done hdone =>
    rw [hdone] at hr
    cases hr
  | run hrun =>
    have hcnt := q.alu.divCntQ.isLt
    have hstep := Alu.run_next (i := aluIn i (aluStart p q i)) hrun
    rw [← halu] at hstep
    rw [rank, rank, state, hnext]
    simp only [hrun, if_true]
    split at hstep
    · rw [hstep, if_neg DivState.noConfusion]
      omega
    · rw [hstep.1, hstep.2, if_pos rfl]
      omega

/-- The launch of a captured access: it is put off, or a port takes it. -/
private theorem rank_step_launch (state : q.exStateQ = .memLaunch) (hv : i.de.valid = true) (hk : i.de.HasKind .mem)
    (hw : Waits p q i) (hr : resultReady p q i = false) :
    (next p q i).rank ≤ q.rank ∧ (Answers p q i q.memIsPeriQ → (next p q i).rank < q.rank) := by
  have hm : misalignedTrap p q i = false := by
    cases hm : misalignedTrap p q i with
    | false => rfl
    | true =>
      have ht := hw.trap
      simp [trapRedirectReq, syncTrapReq, hm] at ht
  have hd : capturedDrive p q i = true := by simp [capturedDrive, memLaunchState, state, hv, hm]
  have hrsp : lsuRspWait q i = portRsp i q.memIsPeriQ := rfl
  have hnext : (next p q i).exStateQ =
      if capturedHs p q i then (if i.de.memRead then .memWait else .idle) else .memLaunch := by
    change exStateD p q i = _
    rw [exStateD, state]
    simp only [hm, Bool.false_eq_true, if_false]
  have hrank : q.rank = 1 := by rw [rank, state]
  rw [hrank]
  cases hhs : capturedHs p q i with
  | false =>
    rw [hhs, if_neg Bool.false_ne_true] at hnext
    refine ⟨by rw [rank, hnext], fun ha => ?_⟩
    rw [capturedHs, hd, hrsp, ha.ready (by rw [portReq_captured hd, if_pos rfl])] at hhs
    cases hhs
  | true =>
    rw [hhs, if_pos rfl] at hnext
    rw [resultReady_mem hk, memOpDone] at hr
    cases hread : i.de.memRead with
    | true =>
      rw [hread, if_pos rfl] at hnext
      have h0 : (next p q i).rank = 0 := by rw [rank, hnext]
      omega
    | false =>
      -- a store that is taken commits
      have hwrite : i.de.memWrite = true := by simpa [hread] using hk.mem
      rw [hread, if_neg Bool.false_ne_true, storeDone, hhs, hwrite] at hr
      cases hr

/-- **Progress of execute.**  A cycle in which an instruction waits, with no halt, does not take it away from its end,
and brings it closer if both ports answer. -/
theorem rank_step (h : ExAt p i.de q) (hs : i.stall = false) (hv : i.de.valid = true) (hw : Waits p q i)
    (hf : wfiStall q i = false) :
    (next p q i).rank ≤ q.rank ∧ ((∀ peri, Answers p q i peri) → (next p q i).rank < q.rank) := by
  have hr := resultReady_of_waits hs hv hf hw
  cases h with
  | idle state alu =>
    have hrank : q.rank = 33 := by rw [rank, state]
    rw [hrank]
    exact ⟨rank_le _, fun ha => rank_busy (launched_of_waits state hs hw hf (ha false))⟩
  | divBusy state valid kind halt div =>
    have hlt := rank_lt_div (p := p) state kind div hr
    exact ⟨hlt.le, fun _ => hlt⟩
  | csrWait state valid kind halt alu =>
    have hc := (outcome_csrWait (p := p) state valid kind halt alu hs).1.commit
    rw [hw.commit] at hc
    cases hc
  | memTrap state valid kind halt alu cap live =>
    have hq := (outcome_memTrap state valid halt alu live hs).1
    have ht := hw.trap
    rcases hq.trap with h | h
    · simp [trapRedirectReq, h] at ht
    · simp [trapRedirectReq, h] at ht
  | memLaunch state valid kind halt alu cap live =>
    obtain ⟨hle, hlt⟩ := rank_step_launch state hv kind hw hr
    exact ⟨hle, fun ha => hlt (ha _)⟩
  | memWait state valid kind halt alu cap read aligned =>
    rw [resultReady_mem kind, memOpDone, read, if_pos rfl] at hr
    have hnext : (next p q i).exStateQ = .memWait := by
      change exStateD p q i = .memWait
      rw [exStateD, state, hr]
      rfl
    refine ⟨by rw [rank, hnext]; exact Nat.zero_le _, fun ha => ?_⟩
    have hrsp : lsuRspWait q i = portRsp i q.memIsPeriQ := rfl
    have hphase : (portReq p q i q.memIsPeriQ).rready = true := by
      cases hp : q.memIsPeriQ with
      | true => simp [portReq, periReq, readPhase, state, read, hp]
      | false => simp [portReq, memReq, readPhase, state, read, hp]
    rw [memDone, state, hrsp, (ha _).data hphase] at hr
    cases hr

end ExecuteStage

/-! ### The core -/

namespace Core

variable {p : Params} {img : Nat → BitVec 64} {s : Core} {i : CoreIn} {a : Word}

/-- The outside holds the hart back: it is halted and no interrupt is pending, or the peripherals do not accept a
request, or they owe the data of a load. -/
def blocked (p : Params) (s : Core) (i : CoreIn) : Bool :=
  wfiStall s.ex (s.exIn i) || ((s.periReq p i).wvalid && !i.periRsp.wready) ||
    ((s.periReq p i).rready && !i.periRsp.rvalid)

/-- The cycles to the next event, that one left out, if nothing blocks. -/
def rank (s : Core) : Nat := if s.ex.wfiHaltQ then 0 else if s.de.valid then s.ex.rank else 34 + s.fe.rank

private theorem rank_le (s : Core) : s.rank ≤ 39 := by
  have hex := s.ex.rank_le
  have hfe := s.fe.rank_le
  unfold rank
  split
  · omega
  · split <;> omega

private theorem answers_of_not_blocked (hb : s.blocked p i = false) : Answers p s.ex (s.exIn i) true := by
  simp only [blocked, Bool.or_eq_false_iff, Bool.and_eq_false_iff, Bool.not_eq_false'] at hb
  refine ⟨fun hw => ?_, fun hr => ?_⟩
  · rcases hb.1.2 with h | h
    · rw [show (s.periReq p i).wvalid = true from hw] at h
      cases h
    · exact h
  · rcases hb.2 with h | h
    · rw [show (s.periReq p i).rready = true from hr] at h
      cases h
    · exact h

/-- A halted hart that has nothing to show sees no interrupt. -/
theorem pending_of_halted (hh : s.ex.wfiHaltQ = true) (he : s.entry p i = false)
    (hc : s.ex.opCommits p (s.exIn i) = false) : (s.exIn i).intPending = false := by
  cases hp : (s.exIn i).intPending with
  | false => rfl
  | true =>
    simp only [entry, Bool.or_eq_false_iff] at he
    have hm : mretReq s.ex (s.exIn i) = false := by
      simp only [opCommits, Bool.or_eq_false_iff] at hc
      exact hc.1
    simp [takeInterrupt, hp, he.1, hm, hh] at he

/-- It is blocked, and stays halted. -/
theorem halted_step (hh : s.ex.wfiHaltQ = true) (he : s.entry p i = false)
    (hc : s.ex.opCommits p (s.exIn i) = false) :
    s.blocked p i = true ∧ (s.next p i).ex.wfiHaltQ = true := by
  have hpend := pending_of_halted hh he hc
  constructor
  · simp [blocked, wfiStall, hh, hpend]
  · change (wfiRetire p s.ex (s.exIn i) || (s.ex.wfiHaltQ && !(s.exIn i).intPending)) = true
    rw [hh, hpend]
    exact Bool.or_true _

/-- Without an instruction in the D/E register the front end comes closer to emitting, or the register is filled. -/
private theorem rank_lt_bubble (h : s.Sane p) (ha : FeAt p img a s.fe) (hv : s.de.valid = false)
    (hh : s.ex.wfiHaltQ = false) :
    (s.next p i).rank < s.rank := by
  obtain ⟨hcommit, hsync, hmret, hint, hstall, hrest⟩ := h.ex.bubble (i := s.exIn i) rfl hv
  have hhalt : (s.next p i).ex.wfiHaltQ = false := by
    change (wfiRetire p s.ex (s.exIn i) || (s.ex.wfiHaltQ && !(s.exIn i).intPending)) = false
    rw [hh, wfiRetire, exIn_de, hv]
    rfl
  have hs : (s.feIn p i).stall = false := by
    change stallO p s.ex (s.exIn i) = false
    rw [hstall, wfiStall, hh]
    rfl
  have hb : (s.feIn p i).branchValid = false := by
    change branchValid p s.ex (s.exIn i) = false
    rw [branchValid, mispredict, cfResolving, exIn_de, hv, trapRedirectReq, hsync, hmret, hint, hh]
    simp
  rw [rank, rank, hh, hhalt, hv]
  simp only [Bool.false_eq_true, if_false]
  cases hl : FrontEnd.latched p s.fe (s.feIn p i) with
  | some x =>
    have hvalid : (s.next p i).de.valid = true := by
      have hx := (FrontEnd.latched_eq hl).2.1
      unfold FrontEnd.latched at hl
      split at hl
      · cases hl
        exact hx
      · cases hl
    have hrank : (s.next p i).ex.rank = 33 := by
      rw [ExecuteStage.rank, show (s.next p i).ex.exStateQ = .idle from hrest.state]
    rw [if_pos hvalid, hrank]
    omega
  | none =>
    have hd : DecodeStage.decodedValid s.fe.decode (s.fe.decodeIn (s.feIn p i)) = false := by
      cases hd : DecodeStage.decodedValid s.fe.decode (s.fe.decodeIn (s.feIn p i)) with
      | false => rfl
      | true => simp [FrontEnd.latched, hb, hs, hd] at hl
    have hr : FrontEnd.redirectTo p s.fe (s.feIn p i) = none := by
      rw [FrontEnd.redirectTo_eq_none, FrontEnd.redirect_eq, hb, DecodeStage.predRedirectFire, DecodeStage.isCf, hd]
      simp
    have hvalid : (s.next p i).de.valid = false := by
      have hb' : branchValid p s.ex (s.exIn i) = false := hb
      have hs' : stallO p s.ex (s.exIn i) = false := hs
      rw [next_de, hb', hs']
      exact hd
    have hlt := FrontEnd.rank_lt ha hr hs hl
    rw [if_neg (ne_true_of_eq_false hvalid)]
    change 34 + (s.fe.next p (s.feIn p i)).rank < 34 + s.fe.rank
    omega

/-- The instruction of a cycle that shows nothing waits. -/
private theorem waits_of_quiet (h : s.Sane p) (hv : s.de.valid = true) (he : s.entry p i = false)
    (hc : s.ex.opCommits p (s.exIn i) = false) : Waits p s.ex (s.exIn i) ∧ (s.next p i).de = s.de := by
  obtain ⟨k, hk⟩ := (h.fresh hv).kind
  have hw : Waits p s.ex (s.exIn i) := by
    rcases h.ex.outcome (i := s.exIn i) hk rfl hv with ⟨hw, -⟩ | ⟨hcom, -⟩ | ⟨hsq, -⟩
    · exact hw
    · rw [hcom.commit] at hc
      cases hc
    · simp only [entry, Bool.or_eq_false_iff] at he
      rcases hsq.trap with ht | ht
      · rw [ht] at he
        cases he.1
      · rw [ht] at he
        cases he.2
  refine ⟨hw, ?_⟩
  rw [next_de, branchValid_of_waits hw ⟨k, hk⟩, hw.stall]
  rfl

/-- An instruction that waits is the one whose rank counts. -/
private theorem rank_waits (hv : s.de.valid = true) (hh : s.ex.wfiHaltQ = false) (hde : (s.next p i).de = s.de) :
    s.rank = s.ex.rank ∧ (s.next p i).rank ≤ (s.next p i).ex.rank := by
  rw [rank, rank, hh, hde, hv]
  simp only [Bool.false_eq_true, if_false, if_true]
  refine ⟨trivial, ?_⟩
  split
  · exact Nat.zero_le _
  · exact le_rfl

/-- A cycle that shows nothing does not take the hart away from its next event, and brings it closer if it is not
blocked. -/
private theorem rank_step (h : s.Sane p) (ha : FeAt p img a s.fe) (hmem : Answers p s.ex (s.exIn i) false)
    (he : s.entry p i = false) (hc : s.ex.opCommits p (s.exIn i) = false) :
    (s.next p i).rank ≤ s.rank ∧ (s.blocked p i = false → (s.next p i).rank < s.rank) := by
  cases hh : s.ex.wfiHaltQ with
  | true =>
    obtain ⟨hb, hn⟩ := halted_step hh he hc
    refine ⟨?_, fun hno => ?_⟩
    · rw [rank, hn, if_pos rfl]
      exact Nat.zero_le _
    · rw [hb] at hno
      cases hno
  | false =>
    cases hv : s.de.valid with
    | false =>
      have hlt := rank_lt_bubble (i := i) h ha hv hh
      exact ⟨hlt.le, fun _ => hlt⟩
    | true =>
      obtain ⟨hw, hde⟩ := waits_of_quiet h hv he hc
      obtain ⟨h1, h2⟩ := rank_waits (p := p) hv hh hde
      have hf : wfiStall s.ex (s.exIn i) = false := by
        rw [wfiStall, hh]
        rfl
      obtain ⟨hle, hlt⟩ := ExecuteStage.rank_step (i := s.exIn i) h.ex rfl hv hw hf
      rw [h1]
      refine ⟨h2.trans hle, fun hb => lt_of_le_of_lt h2 (hlt fun peri => ?_)⟩
      cases peri with
      | true => exact answers_of_not_blocked hb
      | false => exact hmem

end Core

/-! ### Runs -/

namespace CoreMem

variable {p : Params} {img : Nat → BitVec 64} {s : CoreMem} {i : CoreIn} {boot : Word} {rf : RegFile}

/-- The D-mem takes every request in its cycle and has the data one cycle later. -/
private theorem dmem_answers (hs : s.core.Sane p) (h : Served p s) :
    Answers p s.core.ex (s.core.exIn (s.coreIn p i)) false := by
  refine ⟨fun _ => NativeRam.Drained.wready (c := dmemParams p) (h.drained hs i) Nat.one_pos, fun hr => ?_⟩
  change (s.dmemRsp p i).rvalid = true
  rw [dmemRsp_rvalid h, h.land]
  have hphase : (readPhase s.core.ex (s.core.exIn (s.coreIn p i)) && !s.core.ex.memIsPeriQ) = true := hr
  rw [readPhase, Bool.and_eq_true, Bool.and_eq_true] at hphase
  rw [hphase.1.1, hphase.2]
  rfl

/-- A cycle without an event neither enters a handler nor commits. -/
theorem quiet_of_event (h : eventEv p s i = none) :
    s.core.entry p (s.coreIn p i) = false ∧ s.core.ex.opCommits p (s.core.exIn (s.coreIn p i)) = false := by
  unfold eventEv at h
  split at h
  next => cases h
  next hint =>
    split at h
    next => cases h
    next hsync =>
      split at h
      next => cases h
      next hcommit =>
        rw [Bool.not_eq_true] at hint hsync hcommit
        exact ⟨by rw [Core.entry, hint, hsync]; rfl, hcommit⟩

/-- An event takes something from outside. -/
theorem outsideEv_isSome (h : (eventEv p s i).isSome = true) :
    (outsideEv p s i).isSome = true := by
  unfold outsideEv
  split
  next => rfl
  next hno =>
    rw [Bool.not_eq_true, Bool.or_eq_false_iff, Core.entry, Bool.or_eq_false_iff] at hno
    obtain ⟨⟨hint, hsync⟩, hcommit⟩ := hno
    rw [eventEv, hint, hsync, hcommit] at h
    cases h

/-- The hart is blocked from outside. -/
def blocked (p : Params) (s : CoreMem) (i : CoreIn) : Bool := s.core.blocked p (s.coreIn p i)

/-- The front end of a run stands somewhere in the image. -/
private theorem feAt_run (h : s.IsReset boot img rf) (inp : Nat → CoreIn) (t : Nat) :
    ∃ a, FeAt p img a (trace (next p) s inp t).core.fe := by
  induction t with
  | zero => exact ⟨boot, h.core.fe.feAt⟩
  | succ t ih =>
    obtain ⟨a, ha⟩ := ih
    exact ⟨_, ha.next _⟩

theorem ranked (h : s.IsReset boot img rf) (inp : Nat → CoreIn) :
    Ranked (eventEv p) (blocked p) (next p) s inp (fun s => s.core.rank) 39 := by
  have hstep : ∀ t, eventEv p (trace (next p) s inp t) (inp t) = none →
      (trace (next p) s inp (t + 1)).core.rank ≤ (trace (next p) s inp t).core.rank ∧
        (blocked p (trace (next p) s inp t) (inp t) = false →
          (trace (next p) s inp (t + 1)).core.rank < (trace (next p) s inp t).core.rank) := by
    intro t he
    obtain ⟨hentry, hcommit⟩ := quiet_of_event he
    obtain ⟨a, ha⟩ := feAt_run (p := p) h inp t
    exact Core.rank_step (sane_run h t) ha (dmem_answers (sane_run h t) (served_run h t)) hentry hcommit
  exact ⟨fun t => Core.rank_le _, fun t he hb => (hstep t he).2 hb, fun t he _ => (hstep t he).1⟩

/-- A run goes on retiring. -/
structure Progresses (p : Params) (s : CoreMem) (inp : Nat → CoreIn) : Prop where
  /-- The cycles of a window that are not blocked are fewer than forty for each of its events and forty more. -/
  window : ∀ a n, (List.range n).countP (fun k => !(trace (next p) s inp (a + k)).blocked p (inp (a + k))) <
    40 * ((logFrom (eventEv p) (next p) s inp a n).length + 1)
  /-- Unless it is blocked for ever, it never comes to an end. -/
  again : (∀ t, ∃ u, t ≤ u ∧ (trace (next p) s inp u).blocked p (inp u) = false) →
    ∀ t, ∃ u, t ≤ u ∧ (eventEv p (trace (next p) s inp u) (inp u)).isSome

/-- **Progress.**  Whatever the program, the predictor, the interrupt lines and the peripherals do, a hart that is not
blocked from outside commits, traps or takes an interrupt within forty cycles. -/
theorem progress (h : s.IsReset boot img rf) (inp : Nat → CoreIn) : Progresses p s inp :=
  ⟨(ranked h inp).countP_lt, (ranked h inp).exists_event⟩

/-- `div x1, x2, x3`, `wfi`, `j -8`. -/
def divideAndHalt : Nat → BitVec 64 := imgOf [0x10500073023140B3#64, 0x00000000FF9FF06F#64]

/-- The theorem on that program: a division, and a halt that blocks until the interrupt. -/
theorem progress_divide :
    Progresses .pkg (reset 0 divideAndHalt ⟨fun _ => 0⟩ fun _ => 0) fun t => { CoreIn.quiet with
      msip := decide (100 ≤ t) } :=
  progress (reset_isReset 0 divideAndHalt ⟨fun _ => 0⟩ fun _ => 0) _

end CoreMem

end Yarv
