import Yarv.ExecuteStage
import Yarv.AluFacts
import Yarv.Kinds

/-!
# One cycle of execute

`ExAt` ties the flops of execute to the instruction in the D/E register: which state belongs to which kind of
instruction, and what the captured registers and the divider hold there.  A cycle waits, commits or squashes
(`ExAt.outcome`), and each of the three keeps the tie.

The lemmas are about the core, whose `stall_i` is tied to zero.
-/

namespace Yarv

namespace ExecuteStage

/-- The inputs of execute that carry a D/E word and nothing else. -/
def ofDe (d : De) : ExecuteIn where
  de := d
  csrRdata := 0
  intPending := false
  intCause := 0
  stall := false
  memRsp := ⟨false, false, 0, false⟩
  periRsp := ⟨false, false, 0, false⟩

/-- The captured registers hold the request of the instruction. -/
structure Captured (d : De) (q : ExecuteStage) : Prop where
  addr : q.memAddrQ = lsuEa (ofDe d)
  wdata : q.memWdataQ = storeWdata (ofDe d)
  wstrb : q.memWstrbQ = storeWstrb (ofDe d)
  peri : q.memIsPeriQ = isPeriLive (ofDe d)

/-- The flops of execute belong to the instruction `d`. -/
inductive ExAt (p : Params) (d : De) (q : ExecuteStage) : Prop
  | idle (state : q.exStateQ = .idle) (alu : q.alu.divStateQ = .idle)
  | divBusy (state : q.exStateQ = .divBusy) (valid : d.valid = true) (kind : d.HasKind .div)
      (halt : q.wfiHaltQ = false) (div : Alu.DivAt q.alu (aluIn (ofDe d) false))
  | csrWait (state : q.exStateQ = .csrWait) (valid : d.valid = true) (kind : d.HasKind .csr)
      (halt : q.wfiHaltQ = false) (alu : q.alu.divStateQ = .idle)
  | memLaunch (state : q.exStateQ = .memLaunch) (valid : d.valid = true) (kind : d.HasKind .mem)
      (halt : q.wfiHaltQ = false) (alu : q.alu.divStateQ = .idle) (cap : Captured d q)
      (live : p.lsuLiveLoad = true → memMisalignedLive (ofDe d) = false ∧
        (d.memRead = true → isPeriLive (ofDe d) = true))
  | memTrap (state : q.exStateQ = .memTrap) (valid : d.valid = true) (kind : d.HasKind .mem)
      (halt : q.wfiHaltQ = false) (alu : q.alu.divStateQ = .idle) (cap : Captured d q)
      (live : p.lsuLiveLoad = true) (misaligned : memMisalignedLive (ofDe d) = true)
  | memWait (state : q.exStateQ = .memWait) (valid : d.valid = true) (kind : d.HasKind .mem)
      (halt : q.wfiHaltQ = false) (alu : q.alu.divStateQ = .idle) (cap : Captured d q)
      (read : d.memRead = true) (aligned : memMisalignedLive (ofDe d) = false)

section

variable {p : Params} {q : ExecuteStage} {i : ExecuteIn} {k : Kind}

/-! ### Kinds on the wires -/

theorem isDivOp_kind (hk : i.de.HasKind k) : isDivOp i = decide (k = .div) := hk.div

theorem isMemOp_kind (hk : i.de.HasKind k) : isMemOp i = decide (k = .mem) := hk.mem

theorem isCsrOp_kind (hk : i.de.HasKind k) : isCsrOp i = decide (k = .csr) := hk.csr

theorem isWfiOp_kind (hk : i.de.HasKind k) : isWfiOp i = decide (k = .wfi) := hk.wfi

theorem isMretOp_kind (hk : i.de.HasKind k) : isMretOp i = decide (k = .mret) := hk.mret

/-- The effective address of an access: base plus immediate, or base plus scaled index. -/
def effAddr (d : De) : Word := d.aluOp.eval d.memShamt (operandA (ofDe d)) (operandB (ofDe d))

theorem lsuEa_eq {d : De} (hk : d.HasKind .mem) : lsuEa (ofDe d) = effAddr d := by
  have hs : Alu.opIsSub (aluIn (ofDe d) false) = false := by
    rcases hk.ea rfl with h | h <;> simp [Alu.opIsSub, aluIn, ofDe, h]
  rw [lsuEa, Alu.ea_add _ hs, effAddr, Alu.addendB, hs]
  rcases hk.ea rfl with h | h <;> simp [Alu.opIsLx, aluIn, ofDe, h, AluOp.eval]

/-- Everything with an effect is part of a commit. -/
theorem opCommits_of_ready (hv : i.de.valid = true) (hf : freeze q i = false) (hr : resultReady p q i = true)
    (ht : trapRedirectReq p q i = false) : opCommits p q i = true := by
  simp [opCommits, hv, hf, hr, ht]

theorem opCommits_of_wbEn (h : wbEn p q i = true) : opCommits p q i = true := by
  simp only [wbEn, Bool.and_eq_true, Bool.not_eq_true'] at h
  exact opCommits_of_ready h.1.1.1.1 h.1.1.2 h.1.2 h.2

theorem opCommits_of_csrWren (h : csrWren p q i = true) : opCommits p q i = true := by
  have hv : csrOpValid p q i = true := by
    rw [csrWren] at h
    cases ho : i.de.csrOp <;> simp only [ho, Bool.and_eq_true, Bool.false_eq_true] at h
    all_goals first | exact h | exact h.1
  simp only [csrOpValid, Bool.and_eq_true, Bool.not_eq_true'] at hv
  exact opCommits_of_ready hv.1.1.1.1 hv.1.1.2 hv.1.2 hv.2

theorem opCommits_of_cfResolving (hk : i.de.HasKind k) (h : cfResolving p q i = true) :
    opCommits p q i = true ∧ k = .branch := by
  simp only [cfResolving, Bool.and_eq_true, Bool.not_eq_true'] at h
  have hb : k = .branch := by simpa [hk.branch] using h.1.1.2
  subst hb
  have hr : resultReady p q i = true := by
    simp [resultReady, isMemOp_kind hk, isCsrOp_kind hk, aluResultValid, Alu.resultValid, Alu.isDivOp, aluIn]
    have := hk.div
    simp [AluOp.isDiv] at this
    simp [this]
  exact ⟨opCommits_of_ready h.1.1.1.1 h.1.2 hr h.2, rfl⟩

/-- Only divisions, CSR and memory operations leave the idle state. -/
theorem ExAt.state_idle {d : De} (h : ExAt p d q) (hk : d.HasKind k) (hd : k ≠ .div) (hc : k ≠ .csr) (hm : k ≠ .mem) :
    q.exStateQ = .idle := by
  cases h with
  | idle state => exact state
  | divBusy _ _ kind => exact absurd (hk.unique kind) hd
  | csrWait _ _ kind => exact absurd (hk.unique kind) hc
  | memLaunch _ _ kind => exact absurd (hk.unique kind) hm
  | memTrap _ _ kind => exact absurd (hk.unique kind) hm
  | memWait _ _ kind => exact absurd (hk.unique kind) hm

/-! ### Requests on the ports -/

/-- A live launch belongs to the idle state, a captured one to its own. -/
theorem dmemLoadDrive_of_captured (h : capturedDrive p q i = true) : dmemLoadDrive p q i = false := by
  simp only [capturedDrive, memLaunchState, Bool.and_eq_true, beq_iff_eq] at h
  simp [dmemLoadDrive, memReqPending, exIdle, h.1.1]

theorem memReq_wvalid : (memReq p q i).wvalid = (dmemLoadDrive p q i || dmemCapturedDrive p q i) := by
  have hl : (p.lsuLiveLoad && dmemLoadDrive p q i) = dmemLoadDrive p q i := by
    cases hp : p.lsuLiveLoad <;> simp [dmemLoadDrive, hp]
  unfold memReq
  rw [hl]
  cases hd : dmemLoadDrive p q i with
  | true => rfl
  | false => cases hq : q.memIsPeriQ <;> simp [dmemCapturedDrive, idleReq, hq]

theorem periReq_wvalid : (periReq p q i).wvalid = (capturedDrive p q i && q.memIsPeriQ) := by
  unfold periReq
  cases hc : capturedDrive p q i with
  | true =>
    rw [dmemLoadDrive_of_captured hc, Bool.and_false]
    cases hq : q.memIsPeriQ <;> rfl
  | false =>
    split
    · rfl
    · split <;> rfl

/-! ### What a cycle does with the instruction -/

/-- The cycle holds the instruction back. -/
structure Waits (p : Params) (q : ExecuteStage) (i : ExecuteIn) : Prop where
  stall : stallO p q i = true
  commit : opCommits p q i = false
  trap : trapRedirectReq p q i = false

/-- The cycle commits the instruction. -/
structure Commits (p : Params) (q : ExecuteStage) (i : ExecuteIn) : Prop where
  stall : stallO p q i = false
  commit : opCommits p q i = true
  sync : syncTrapReq p q i = false
  int : takeInterrupt p q i = false

/-- The cycle traps: the instruction does not commit. -/
structure Squashes (p : Params) (q : ExecuteStage) (i : ExecuteIn) : Prop where
  commit : opCommits p q i = false
  trap : syncTrapReq p q i = true ∨ takeInterrupt p q i = true
  mret : mretReq q i = false

/-- Execute is at rest after the clock edge. -/
structure Rests (p : Params) (q : ExecuteStage) (i : ExecuteIn) : Prop where
  state : (next p q i).exStateQ = .idle
  alu : (next p q i).alu.divStateQ = .idle

theorem Rests.exAt (h : Rests p q i) (d : De) : ExAt p d (next p q i) := .idle h.state h.alu

private theorem next_alu_idle (ha : q.alu.divStateQ = .idle) (hs : aluStart p q i = false) :
    (next p q i).alu.divStateQ = .idle := by
  simp [next, Alu.next, Alu.divStateD, ha, hs, aluIn]

theorem misalignedTrap_idle (h : q.exStateQ = .idle) : misalignedTrap p q i = false := by
  simp [misalignedTrap, h]

theorem exStateD_idle (h : q.exStateQ = .idle) :
    exStateD p q i =
      if aluStart p q i then .divBusy
      else if memMisalignedLaunch p q i then .memTrap
      else if memCapture p q i then .memLaunch
      else if dmemLoadHs p q i then .memWait
      else if csrStart p q i then .csrWait
      else .idle := by
  rw [exStateD, h]

/-- No launch leaves an idle execute at rest. -/
private theorem rests_of_quiet (h : q.exStateQ = .idle) (ha : q.alu.divStateQ = .idle) (h1 : aluStart p q i = false)
    (h2 : memReqPending q i = false) (h3 : csrStart p q i = false) : Rests p q i := by
  refine ⟨?_, next_alu_idle ha h1⟩
  rw [show (next p q i).exStateQ = exStateD p q i from rfl, exStateD_idle h, h1, h3]
  simp [memMisalignedLaunch, memCapture, dmemLoadHs, dmemLoadDrive, h2]

theorem stallO_of_quiet (h : q.exStateQ = .idle) (hs : i.stall = false) (h1 : aluStart p q i = false)
    (h2 : memReqPending q i = false) (h3 : csrStart p q i = false) : stallO p q i = wfiStall q i := by
  simp [stallO, divRunning, memRunning, memLaunchState, h, hs, h1, h2, h3]

theorem freeze_eq (hs : i.stall = false) : freeze q i = wfiStall q i := by simp [freeze, hs]

/-- A trap in the idle state. -/
private theorem outcome_idle_trap (h : q.exStateQ = .idle) (ha : q.alu.divStateQ = .idle) (hk : i.de.HasKind k)
    (hs : i.stall = false) (hv : i.de.valid = true) (ht : trapRedirectReq p q i = true) :
    (Commits p q i ∧ Rests p q i) ∨ (Squashes p q i ∧ Rests p q i) := by
  have h1 : aluStart p q i = false := by simp [aluStart, ht]
  have h3 : csrStart p q i = false := by simp [csrStart, ht]
  have hmis := misalignedTrap_idle (p := p) (i := i) h
  have h2 : memReqPending q i = false := by
    cases hm : memReqPending q i with
    | false => rfl
    | true =>
      simp only [memReqPending, Bool.and_eq_true, Bool.not_eq_true', isMemOp_kind hk, decide_eq_true_eq] at hm
      obtain ⟨⟨⟨⟨⟨-, rfl⟩, -⟩, -⟩, he⟩, hh⟩ := hm
      simp [trapRedirectReq, syncTrapReq, takeInterrupt, mretReq, normalIntEligible, hmis, he, hh,
        isMemOp_kind hk, isMretOp_kind hk] at ht
  have hrest := rests_of_quiet h ha h1 h2 h3
  cases hm : mretReq q i with
  | true =>
    left
    simp only [mretReq, Bool.and_eq_true, Bool.not_eq_true', isMretOp_kind hk, decide_eq_true_eq] at hm
    obtain ⟨⟨⟨-, hf⟩, -⟩, rfl⟩ := hm
    refine ⟨⟨?_, ?_, ?_, ?_⟩, hrest⟩
    · rw [stallO_of_quiet h hs h1 h2 h3, ← freeze_eq hs, hf]
    · simp [opCommits, mretReq, hv, hf, exIdle, h, isMretOp_kind hk]
    · simp [syncTrapReq, hk.exception, hmis]
    · simp [takeInterrupt, mretReq, hv, hf, exIdle, h, isMretOp_kind hk]
  | false =>
    right
    refine ⟨⟨?_, ?_, hm⟩, hrest⟩
    · simp [opCommits, hm, ht]
    · simpa [trapRedirectReq, hm] using ht

/-- A launch of a memory operation in the idle state. -/
private theorem exAt_mem_launch (h : q.exStateQ = .idle) (ha : q.alu.divStateQ = .idle) (hk : i.de.HasKind .mem)
    (hv : i.de.valid = true) (hh : q.wfiHaltQ = false) (hm : memReqPending q i = true) :
    ExAt p i.de (next p q i) := by
  have h1 : aluStart p q i = false := by simp [aluStart, isDivOp_kind hk]
  have h3 : csrStart p q i = false := by simp [csrStart, isCsrOp_kind hk]
  have halu := next_alu_idle (p := p) ha h1
  have hhalt : (next p q i).wfiHaltQ = false := by simp [next, wfiRetire, isWfiOp_kind hk, hh]
  have hcap : Captured i.de (next p q i) := by
    constructor <;> simp [next, hm] <;> rfl
  have hstate : (next p q i).exStateQ = exStateD p q i := rfl
  rw [exStateD_idle h, h1, h3] at hstate
  simp only [Bool.false_eq_true, if_false] at hstate
  cases hml : memMisalignedLaunch p q i with
  | true =>
    rw [hml, if_pos rfl] at hstate
    simp only [memMisalignedLaunch, Bool.and_eq_true] at hml
    exact .memTrap hstate hv hk hhalt halu hcap hml.1.1 hml.2
  | false =>
    rw [hml, if_neg (by decide)] at hstate
    have hal : p.lsuLiveLoad = true → memMisalignedLive (ofDe i.de) = false := by
      intro hp
      have hl : memMisalignedLive i = false := by simpa [memMisalignedLaunch, hp, hm] using hml
      exact hl
    cases hmc : memCapture p q i with
    | true =>
      rw [hmc, if_pos rfl] at hstate
      refine .memLaunch hstate hv hk hhalt halu hcap fun hp => ⟨hal hp, fun hr => ?_⟩
      have hal' : memMisalignedLive i = false := hal hp
      have hdd : dmemLoadDrive p q i = false := by simpa [memCapture, hm, hml] using hmc
      have hperi : isPeriLive i = true := by simpa [dmemLoadDrive, hp, hm, hr, hal'] using hdd
      exact hperi
    | false =>
      rw [hmc, if_neg (by decide)] at hstate
      have hdd : dmemLoadDrive p q i = true := by simpa [memCapture, hm, hml] using hmc
      cases hhs : dmemLoadHs p q i with
      | false =>
        rw [hhs, if_neg (by decide)] at hstate
        exact .idle hstate halu
      | true =>
        rw [hhs, if_pos rfl] at hstate
        simp only [dmemLoadDrive, Bool.and_eq_true, Bool.not_eq_true'] at hdd
        exact .memWait hstate hv hk hhalt halu hcap hdd.2 (hal hdd.1.1.1.1)

/-- A cycle of an instruction in the idle state. -/
private theorem outcome_idle (h : q.exStateQ = .idle) (ha : q.alu.divStateQ = .idle) (hk : i.de.HasKind k)
    (hs : i.stall = false) (hv : i.de.valid = true) :
    (Waits p q i ∧ ExAt p i.de (next p q i)) ∨ (Commits p q i ∧ Rests p q i) ∨ (Squashes p q i ∧ Rests p q i) := by
  cases ht : trapRedirectReq p q i with
  | true => exact .inr (outcome_idle_trap h ha hk hs hv ht)
  | false =>
    have hsync : syncTrapReq p q i = false := by
      cases hx : syncTrapReq p q i <;> simp_all [trapRedirectReq]
    have hmret : mretReq q i = false := by
      cases hx : mretReq q i <;> simp_all [trapRedirectReq]
    have hint : takeInterrupt p q i = false := by
      cases hx : takeInterrupt p q i <;> simp_all [trapRedirectReq]
    cases hf : freeze q i with
    | true =>
      have h1 : aluStart p q i = false := by simp [aluStart, hf]
      have h2 : memReqPending q i = false := by simp [memReqPending, hf]
      have h3 : csrStart p q i = false := by simp [csrStart, hf]
      refine .inl ⟨⟨?_, ?_, ht⟩, (rests_of_quiet h ha h1 h2 h3).exAt _⟩
      · rw [stallO_of_quiet h hs h1 h2 h3, ← freeze_eq hs, hf]
      · simp [opCommits, hmret, hf]
    | false =>
      have hh : q.wfiHaltQ = false := by
        cases hh : q.wfiHaltQ with
        | false => rfl
        | true => simp_all [takeInterrupt, freeze, wfiStall]
      have hexc : i.de.exception = false := by
        cases he : i.de.exception with
        | false => rfl
        | true => simp [syncTrapReq, hv, hf, exIdle, h, he] at hsync
      have hplain : k ≠ .div → k ≠ .mem → k ≠ .csr →
          (Waits p q i ∧ ExAt p i.de (next p q i)) ∨ (Commits p q i ∧ Rests p q i) ∨
            (Squashes p q i ∧ Rests p q i) := by
        intro hd hm hc
        have h1 : aluStart p q i = false := by simp [aluStart, isDivOp_kind hk, hd]
        have h2 : memReqPending q i = false := by simp [memReqPending, isMemOp_kind hk, hm]
        have h3 : csrStart p q i = false := by simp [csrStart, isCsrOp_kind hk, hc]
        have hr : resultReady p q i = true := by
          have hdiv : Alu.isDivOp (aluIn i false) = false := (isDivOp_kind hk).trans (by simp [hd])
          simp [resultReady, isMemOp_kind hk, isCsrOp_kind hk, hm, hc, aluResultValid, Alu.resultValid, hdiv]
        refine .inr (.inl ⟨⟨?_, ?_, hsync, hint⟩, rests_of_quiet h ha h1 h2 h3⟩)
        · rw [stallO_of_quiet h hs h1 h2 h3, ← freeze_eq hs, hf]
        · exact opCommits_of_ready hv hf hr ht
      cases k
      case plain => exact hplain (by decide) (by decide) (by decide)
      case trap => simp [hk.exception] at hexc
      case branch => exact hplain (by decide) (by decide) (by decide)
      case mret => exact hplain (by decide) (by decide) (by decide)
      case wfi => exact hplain (by decide) (by decide) (by decide)
      case div =>
        have h1 : aluStart p q i = true := by simp [aluStart, hv, isDivOp_kind hk, exIdle, h, hf, ht]
        have hdiv : Alu.isDivOp (aluIn i false) = true := isDivOp_kind hk
        refine .inl ⟨⟨by simp [stallO, h1], ?_, ht⟩, .divBusy ?_ hv hk ?_ ?_⟩
        · simp [opCommits, hmret, resultReady, isMemOp_kind hk, isCsrOp_kind hk, aluResultValid, Alu.resultValid,
            hdiv, ha]
        · rw [show (next p q i).exStateQ = exStateD p q i from rfl, exStateD_idle h, h1, if_pos rfl]
        · simp [next, wfiRetire, isWfiOp_kind hk, hh]
        · rw [show (next p q i).alu = Alu.next q.alu (aluIn i (aluStart p q i)) from rfl, h1]
          exact (Alu.DivAt.start ha rfl hdiv : Alu.DivAt _ (aluIn i true)).operands (i := aluIn i false)
      case csr =>
        have h1 : aluStart p q i = false := by simp [aluStart, isDivOp_kind hk]
        have h2 : memReqPending q i = false := by simp [memReqPending, isMemOp_kind hk]
        have h3 : csrStart p q i = true := by simp [csrStart, hv, isCsrOp_kind hk, exIdle, h, hf, ht]
        refine .inl ⟨⟨by simp [stallO, h3], ?_, ht⟩, .csrWait ?_ hv hk ?_ (next_alu_idle ha h1)⟩
        · simp [opCommits, hmret, resultReady, isMemOp_kind hk, isCsrOp_kind hk, csrReady, h]
        · rw [show (next p q i).exStateQ = exStateD p q i from rfl, exStateD_idle h, h1, h3]
          simp [memMisalignedLaunch, memCapture, dmemLoadHs, dmemLoadDrive, h2]
        · simp [next, wfiRetire, isWfiOp_kind hk, hh]
      case mem =>
        have h2 : memReqPending q i = true := by simp [memReqPending, hv, isMemOp_kind hk, exIdle, h, hf, hexc, hh]
        have hsd : storeDone p q i = false := by simp [storeDone, capturedHs, capturedDrive, memLaunchState, h]
        have hmd : memDone q i = false := by simp [memDone, h]
        refine .inl ⟨⟨by simp [stallO, h2, hsd], ?_, ht⟩, exAt_mem_launch h ha hk hv hh h2⟩
        simp [opCommits, hmret, resultReady, isMemOp_kind hk, memOpDone, hsd, hmd]

/-- The wires of a state other than idle, with nothing frozen. -/
theorem busy_wires (h : q.exStateQ ≠ .idle) (hs : i.stall = false) (hh : q.wfiHaltQ = false) :
    freeze q i = false ∧ aluStart p q i = false ∧ memReqPending q i = false ∧ csrStart p q i = false ∧
      mretReq q i = false ∧ takeInterrupt p q i = false ∧ syncTrapReq p q i = misalignedTrap p q i := by
  have he : exIdle q = false := by simpa [exIdle] using h
  refine ⟨by simp [freeze, wfiStall, hs, hh], ?_, ?_, ?_, ?_, ?_, ?_⟩
  · simp [aluStart, he]
  · simp [memReqPending, he]
  · simp [csrStart, he]
  · simp [mretReq, he]
  · simp [takeInterrupt, normalIntEligible, he, hh]
  · simp [syncTrapReq, he]

/-- The halt flag stays down while execute is busy. -/
private theorem busy_halt (h : q.exStateQ ≠ .idle) (hh : q.wfiHaltQ = false) : (next p q i).wfiHaltQ = false := by
  have he : exIdle q = false := by simpa [exIdle] using h
  simp [next, wfiRetire, he, hh]

/-- The captured registers stay while execute is busy. -/
private theorem busy_captured (h : q.exStateQ ≠ .idle) (hc : Captured i.de q) : Captured i.de (next p q i) := by
  have he : memReqPending q i = false := by
    have he : exIdle q = false := by simpa [exIdle] using h
    simp [memReqPending, he]
  constructor
  · simp [next, he, hc.addr]
  · simp [next, he, hc.wdata]
  · simp [next, he, hc.wstrb]
  · simp [next, he, hc.peri]

/-- The cycle in which a busy execute finishes. -/
private theorem commits_of_busy (h : q.exStateQ ≠ .idle) (hs : i.stall = false) (hh : q.wfiHaltQ = false)
    (hv : i.de.valid = true) (hm : misalignedTrap p q i = false) (hd : divRunning q i = false)
    (hl : (q.memLaunchState && !storeDone p q i) = false) (ht : (q.exStateQ == .memTrap) = false)
    (hw : memRunning q i = false) (hr : resultReady p q i = true) : Commits p q i := by
  obtain ⟨hf, h1, h2, h3, h4, h5, h6⟩ := busy_wires (p := p) h hs hh
  have hsync : syncTrapReq p q i = false := by rw [h6, hm]
  have htrap : trapRedirectReq p q i = false := by simp [trapRedirectReq, hsync, h4, h5]
  refine ⟨?_, opCommits_of_ready hv hf hr htrap, hsync, h5⟩
  simp only [stallO, h1, hd, h2, Bool.false_or, hl, ht, hw, h3, hs]
  rw [← freeze_eq hs, hf]

/-- A cycle in which a busy execute goes on. -/
private theorem waits_of_busy (h : q.exStateQ ≠ .idle) (hs : i.stall = false) (hh : q.wfiHaltQ = false)
    (hm : misalignedTrap p q i = false) (hst : stallO p q i = true) (hr : resultReady p q i = false) :
    Waits p q i := by
  obtain ⟨-, -, -, -, h4, h5, h6⟩ := busy_wires (p := p) h hs hh
  exact ⟨hst, by simp [opCommits, h4, hr], by simp [trapRedirectReq, h4, h5, h6, hm]⟩

/-- The cycle in which a misaligned access traps. -/
private theorem squashes_of_misaligned (h : q.exStateQ ≠ .idle) (hs : i.stall = false) (hh : q.wfiHaltQ = false)
    (hm : misalignedTrap p q i = true) : Squashes p q i := by
  obtain ⟨-, -, -, -, h4, h5, h6⟩ := busy_wires (p := p) h hs hh
  rw [hm] at h6
  exact ⟨by simp [opCommits, trapRedirectReq, h4, h6], .inl h6, h4⟩

theorem resultReady_div (hk : i.de.HasKind .div) : resultReady p q i = (q.alu.divStateQ == .done) := by
  have hdiv : Alu.isDivOp (aluIn i false) = true := isDivOp_kind hk
  simp [resultReady, isMemOp_kind hk, isCsrOp_kind hk, aluResultValid, Alu.resultValid, hdiv]

theorem aluResultValid_div (hk : i.de.HasKind .div) : aluResultValid q i = (q.alu.divStateQ == .done) := by
  have hdiv : Alu.isDivOp (aluIn i false) = true := isDivOp_kind hk
  simp [aluResultValid, Alu.resultValid, hdiv]

theorem resultReady_mem (hk : i.de.HasKind .mem) : resultReady p q i = memOpDone p q i := by
  simp [resultReady, isMemOp_kind hk]

private theorem outcome_divBusy (state : q.exStateQ = .divBusy) (hv : i.de.valid = true) (hk : i.de.HasKind .div)
    (hh : q.wfiHaltQ = false) (hdiv : Alu.DivAt q.alu (aluIn (ofDe i.de) false)) (hs : i.stall = false) :
    (Waits p q i ∧ ExAt p i.de (next p q i)) ∨ (Commits p q i ∧ Rests p q i) := by
  have hne : q.exStateQ ≠ .idle := by simp [state]
  have hm : misalignedTrap p q i = false := by simp [misalignedTrap, state]
  have hstate : (next p q i).exStateQ = if aluResultValid q i then .idle else .divBusy := by
    rw [show (next p q i).exStateQ = exStateD p q i from rfl, exStateD, state]
  have halu : (next p q i).alu = Alu.next q.alu (aluIn i false) := by
    rw [show (next p q i).alu = Alu.next q.alu (aluIn i (aluStart p q i)) from rfl, (busy_wires hne hs hh).2.1]
  have hr := aluResultValid_div (q := q) hk
  cases hd : (q.alu.divStateQ == .done) with
  | true =>
    right
    rw [hd] at hr
    rw [hr, if_pos rfl] at hstate
    have hdone : q.alu.divStateQ = .done := by simpa using hd
    refine ⟨commits_of_busy hne hs hh hv hm ?_ ?_ ?_ ?_ ?_, ⟨hstate, ?_⟩⟩
    · simp [divRunning, hr]
    · simp [memLaunchState, state]
    · simp [state]
    · simp [memRunning, state]
    · rw [resultReady_div hk, hd]
    · rw [halu]
      simp [Alu.next, Alu.divStateD, hdone]
  | false =>
    left
    rw [hd] at hr
    rw [hr, if_neg (by decide)] at hstate
    refine ⟨waits_of_busy hne hs hh hm ?_ (by rw [resultReady_div hk, hd]), ?_⟩
    · simp [stallO, divRunning, state, hr]
    · refine .divBusy hstate hv hk (busy_halt hne hh) ?_
      rw [halu]
      exact hdiv.next hr

theorem outcome_csrWait (state : q.exStateQ = .csrWait) (hv : i.de.valid = true) (hk : i.de.HasKind .csr)
    (hh : q.wfiHaltQ = false) (ha : q.alu.divStateQ = .idle) (hs : i.stall = false) :
    Commits p q i ∧ Rests p q i := by
  have hne : q.exStateQ ≠ .idle := by simp [state]
  have hm : misalignedTrap p q i = false := by simp [misalignedTrap, state]
  refine ⟨commits_of_busy hne hs hh hv hm ?_ ?_ ?_ ?_ ?_, ⟨?_, next_alu_idle ha (busy_wires hne hs hh).2.1⟩⟩
  · simp [divRunning, state]
  · simp [memLaunchState, state]
  · simp [state]
  · simp [memRunning, state]
  · simp [resultReady, isMemOp_kind hk, isCsrOp_kind hk, csrReady, state]
  · rw [show (next p q i).exStateQ = exStateD p q i from rfl, exStateD, state]

/-- A misaligned address trips the check on the captured address. -/
theorem memMisalignedQ_captured (hc : Captured i.de q) : memMisalignedQ q i = memMisalignedLive (ofDe i.de) := by
  rw [memMisalignedQ, hc.addr]
  rfl

private theorem outcome_memLaunch (state : q.exStateQ = .memLaunch) (hv : i.de.valid = true) (hk : i.de.HasKind .mem)
    (hh : q.wfiHaltQ = false) (ha : q.alu.divStateQ = .idle) (hc : Captured i.de q)
    (hl : p.lsuLiveLoad = true →
      memMisalignedLive (ofDe i.de) = false ∧ (i.de.memRead = true → isPeriLive (ofDe i.de) = true))
    (hs : i.stall = false) :
    (Waits p q i ∧ ExAt p i.de (next p q i)) ∨ (Commits p q i ∧ Rests p q i) ∨ (Squashes p q i ∧ Rests p q i) := by
  have hne : q.exStateQ ≠ .idle := by simp [state]
  have halu := next_alu_idle (p := p) ha (busy_wires (p := p) hne hs hh).2.1
  have hstate : (next p q i).exStateQ = exStateD p q i := rfl
  rw [exStateD, state] at hstate
  have hmis : misalignedTrap p q i = memMisalignedLive (ofDe i.de) := by
    cases hp : p.lsuLiveLoad with
    | true => simp [misalignedTrap, hp, state, (hl hp).1]
    | false => simp [misalignedTrap, hp, state, hv, memMisalignedQ_captured hc]
  cases hm : misalignedTrap p q i with
  | true =>
    simp only [hm, if_true] at hstate
    exact .inr (.inr ⟨squashes_of_misaligned hne hs hh hm, ⟨hstate, halu⟩⟩)
  | false =>
    simp only [hm, Bool.false_eq_true, if_false] at hstate
    have hcd : capturedDrive p q i = true := by simp [capturedDrive, memLaunchState, state, hv, hm]
    cases hr : i.de.memRead with
    | true =>
      -- A load only leaves the launch, whatever the handshake.
      have hone := hk.one
      rw [hr, Bool.true_and] at hone
      have hsd : storeDone p q i = false := by simp [storeDone, hone]
      refine .inl ⟨waits_of_busy hne hs hh hm ?_ ?_, ?_⟩
      · simp [stallO, memLaunchState, state, hsd]
      · rw [resultReady_mem hk]
        simp [memOpDone, hr, memDone, state]
      · cases hhs : capturedHs p q i with
        | true =>
          rw [hhs, if_pos rfl, hr, if_pos rfl] at hstate
          exact .memWait hstate hv hk (busy_halt hne hh) halu (busy_captured hne hc) hr (by rw [← hmis, hm])
        | false =>
          rw [hhs, if_neg (by decide)] at hstate
          exact .memLaunch hstate hv hk (busy_halt hne hh) halu (busy_captured hne hc) hl
    | false =>
      have hw : i.de.memWrite = true := by simpa [hr] using hk.mem
      have hsd : storeDone p q i = capturedHs p q i := by simp [storeDone, hw]
      cases hhs : capturedHs p q i with
      | true =>
        rw [hhs, if_pos rfl, hr, if_neg (by decide)] at hstate
        rw [hhs] at hsd
        refine .inr (.inl ⟨commits_of_busy hne hs hh hv hm ?_ ?_ ?_ ?_ ?_, ⟨hstate, halu⟩⟩)
        · simp [divRunning, state]
        · simp [hsd]
        · simp [state]
        · simp [memRunning, state]
        · rw [resultReady_mem hk]
          simp [memOpDone, hr, hsd]
      | false =>
        rw [hhs, if_neg (by decide)] at hstate
        rw [hhs] at hsd
        refine .inl ⟨waits_of_busy hne hs hh hm ?_ ?_, .memLaunch hstate hv hk (busy_halt hne hh) halu
          (busy_captured hne hc) hl⟩
        · simp [stallO, memLaunchState, state, hsd]
        · rw [resultReady_mem hk]
          simp [memOpDone, hr, hsd]

theorem outcome_memTrap (state : q.exStateQ = .memTrap) (hv : i.de.valid = true) (hh : q.wfiHaltQ = false)
    (ha : q.alu.divStateQ = .idle) (hl : p.lsuLiveLoad = true) (hs : i.stall = false) :
    Squashes p q i ∧ Rests p q i := by
  have hne : q.exStateQ ≠ .idle := by simp [state]
  refine ⟨squashes_of_misaligned hne hs hh (by simp [misalignedTrap, hl, state, hv]), ⟨?_, ?_⟩⟩
  · rw [show (next p q i).exStateQ = exStateD p q i from rfl, exStateD, state]
  · exact next_alu_idle ha (busy_wires hne hs hh).2.1

private theorem outcome_memWait (state : q.exStateQ = .memWait) (hv : i.de.valid = true) (hk : i.de.HasKind .mem)
    (hh : q.wfiHaltQ = false) (ha : q.alu.divStateQ = .idle) (hc : Captured i.de q) (hr : i.de.memRead = true)
    (hal : memMisalignedLive (ofDe i.de) = false) (hs : i.stall = false) :
    (Waits p q i ∧ ExAt p i.de (next p q i)) ∨ (Commits p q i ∧ Rests p q i) := by
  have hne : q.exStateQ ≠ .idle := by simp [state]
  have halu := next_alu_idle (p := p) ha (busy_wires (p := p) hne hs hh).2.1
  have hm : misalignedTrap p q i = false := by simp [misalignedTrap, state]
  have hstate : (next p q i).exStateQ = if memDone q i then .idle else .memWait := by
    rw [show (next p q i).exStateQ = exStateD p q i from rfl, exStateD, state]
  have hready : resultReady p q i = memDone q i := by rw [resultReady_mem hk, memOpDone, hr, if_pos rfl]
  cases hd : memDone q i with
  | true =>
    rw [hd, if_pos rfl] at hstate
    refine .inr ⟨commits_of_busy hne hs hh hv hm ?_ ?_ ?_ ?_ ?_, ⟨hstate, halu⟩⟩
    · simp [divRunning, state]
    · simp [memLaunchState, state]
    · simp [state]
    · simp [memRunning, hd]
    · rw [hready, hd]
  | false =>
    rw [hd, if_neg (by decide)] at hstate
    refine .inl ⟨waits_of_busy hne hs hh hm ?_ (by rw [hready, hd]), ?_⟩
    · simp [stallO, memRunning, state, hd]
    · exact .memWait hstate hv hk (busy_halt hne hh) halu (busy_captured hne hc) hr hal

/-- A cycle of an instruction, in any state. -/
theorem ExAt.outcome (h : ExAt p i.de q) (hk : i.de.HasKind k) (hs : i.stall = false) (hv : i.de.valid = true) :
    (Waits p q i ∧ ExAt p i.de (next p q i)) ∨ (Commits p q i ∧ Rests p q i) ∨ (Squashes p q i ∧ Rests p q i) := by
  cases h with
  | idle state alu => exact outcome_idle state alu hk hs hv
  | divBusy state valid kind halt div =>
    exact (outcome_divBusy state hv kind halt div hs).imp_right .inl
  | csrWait state valid kind halt alu => exact .inr (.inl (outcome_csrWait state hv kind halt alu hs))
  | memLaunch state valid kind halt alu cap live => exact outcome_memLaunch state hv kind halt alu cap live hs
  | memTrap state valid kind halt alu cap live misaligned =>
    exact .inr (.inr (outcome_memTrap state hv halt alu live hs))
  | memWait state valid kind halt alu cap read aligned =>
    exact (outcome_memWait state hv kind halt alu cap read aligned hs).imp_right .inl

/-- A cycle without an instruction: an interrupt may end a halt, nothing else happens. -/
theorem ExAt.bubble (h : ExAt p i.de q) (hs : i.stall = false) (hv : i.de.valid = false) :
    opCommits p q i = false ∧ syncTrapReq p q i = false ∧ mretReq q i = false ∧
      takeInterrupt p q i = (i.intPending && q.wfiHaltQ) ∧ stallO p q i = wfiStall q i ∧ Rests p q i := by
  cases h with
  | idle state alu =>
    have h1 : aluStart p q i = false := by simp [aluStart, hv]
    have h2 : memReqPending q i = false := by simp [memReqPending, hv]
    have h3 : csrStart p q i = false := by simp [csrStart, hv]
    have h4 : mretReq q i = false := by simp [mretReq, hv]
    have h5 : syncTrapReq p q i = false := by simp [syncTrapReq, hv, misalignedTrap_idle state]
    exact ⟨by simp [opCommits, h4, hv], h5, h4, by simp [takeInterrupt, h5, h4, normalIntEligible, hv],
      stallO_of_quiet state hs h1 h2 h3, rests_of_quiet state alu h1 h2 h3⟩
  | divBusy _ valid => simp [hv] at valid
  | csrWait _ valid => simp [hv] at valid
  | memLaunch _ valid => simp [hv] at valid
  | memTrap _ valid => simp [hv] at valid
  | memWait _ valid => simp [hv] at valid

end

end ExecuteStage

end Yarv
