import Yarv.Position

/-!
# Control flow, interrupts and traps

What the tie between the core and its architectural position gives for whole runs.  Committed instructions follow each
other as execute resolves them, whatever the predictor answers (`control_flow`).  An interrupt saves the position
(`interrupt_mepc`), as long as no second WFI sits in the D/E register during a halt: such a WFI is not frozen and
moves the saved wake address past itself.  A synchronous trap saves it too (`sync_trap_mepc`), except when it is
raised by the missing half of an instruction that spans the end of the I-mem.
-/

namespace Yarv

open Clocked FetchStage ExecuteStage

variable {p : Params} {img : Nat → BitVec 64}

namespace Core

variable {s : Core} {i : CoreIn} {n : Word} {boot : Word} {rf : RegFile} {inp : Nat → CoreIn}

/-! ### Control flow -/

/-- The instruction in the D/E register writes a register, a CSR or the predictor, or raises a memory request. -/
def Acts (p : Params) (s : Core) (i : CoreIn) : Prop :=
  s.ex.wbEn p (s.exIn i) = true ∨ s.ex.csrWren p (s.exIn i) = true ∨ (s.ex.bpTrain p (s.exIn i)).valid = true ∨
    (s.dmemReq p i).wvalid = true ∨ (s.periReq p i).wvalid = true

/-- A raised request belongs to a memory operation. -/
theorem mem_of_wvalid (h : s.Sane p) (hw : (s.dmemReq p i).wvalid = true ∨ (s.periReq p i).wvalid = true) :
    s.de.valid = true ∧ s.de.HasKind .mem := by
  have hcases : s.ex.dmemLoadDrive p (s.exIn i) = true ∨ s.ex.capturedDrive p (s.exIn i) = true := by
    rw [dmemReq, Core.periReq, memReq_wvalid, periReq_wvalid, dmemCapturedDrive, Bool.or_eq_true, Bool.and_eq_true,
      Bool.and_eq_true] at hw
    rcases hw with (hw | hw) | hw
    · exact .inl hw
    · exact .inr hw.1
    · exact .inr hw.1
  rcases hcases with hd | hd
  · simp only [dmemLoadDrive, memReqPending, Bool.and_eq_true] at hd
    have hv : s.de.valid = true := hd.1.1.1.2.1.1.1.1.1
    have hm : isMemOp (s.exIn i) = true := hd.1.1.1.2.1.1.1.1.2
    obtain ⟨k, hk⟩ := (h.fresh hv).kind
    rw [isMemOp_kind (i := s.exIn i) hk, decide_eq_true_eq] at hm
    exact ⟨hv, hm ▸ hk⟩
  · simp only [capturedDrive, Bool.and_eq_true] at hd
    have hstate : s.ex.exStateQ = .memLaunch := by simpa [memLaunchState] using hd.1.1
    have hv : s.de.valid = true := hd.1.2
    cases h.ex with
    | memLaunch _ _ kind => exact ⟨hv, kind⟩
    | idle state => simp [hstate] at state
    | divBusy state => simp [hstate] at state
    | csrWait state => simp [hstate] at state
    | memTrap state => simp [hstate] at state
    | memWait state => simp [hstate] at state

/-- Only the instruction at the architectural position acts. -/
private theorem At.acts (h : At p img n s) (ha : Acts p s i) :
    s.de.pc = n ∧ s.de.instr = (itemAt p img n).src.instr32 ∧ (itemAt p img n).fault = false := by
  have hcommit : s.ex.opCommits p (s.exIn i) = true →
      s.de.pc = n ∧ s.de.instr = (itemAt p img n).src.instr32 ∧ (itemAt p img n).fault = false := by
    intro hc
    obtain ⟨-, h1, h2, h3⟩ := h.commit_pc hc
    exact ⟨h1, h3, h2⟩
  rcases ha with ha | ha | ha | ha
  · exact hcommit (opCommits_of_wbEn ha)
  · exact hcommit (opCommits_of_csrWren ha)
  · have hv : s.de.valid = true := by
      simp only [bpTrain, cfResolving, Bool.and_eq_true] at ha
      exact ha.1.1.1.1
    obtain ⟨k, hk⟩ := (h.sane.fresh hv).kind
    exact hcommit (opCommits_of_cfResolving (i := s.exIn i) hk ha).1
  · obtain ⟨hv, hk⟩ := mem_of_wvalid h.sane ha
    obtain ⟨pr, -, hde, -⟩ := (h.full hv).word
    have hx : s.de.exception = false := by simp [hk.exception]
    have hf : (itemAt p img n).fault = false := by
      rw [hde] at hx
      simp only [Item.de, Bool.or_eq_false_iff] at hx
      exact hx.1.1
    exact ⟨by rw [hde]; exact (itemAt_step h.even hf).1, by rw [hde]; rfl, hf⟩

/-- Behind a commit and up to the next event, the position is the successor of the committed instruction. -/
private theorem archPc_of_commit (boot : Word) {t u : Nat} (htu : t < u) (h : s.Sane p)
    (hc : (trace (next p) s inp t).ex.opCommits p ((trace (next p) s inp t).exIn (inp t)) = true)
    (hq : ∀ v, t < v → v < u → (trace (next p) s inp v).entry p (inp v) = false ∧
      (trace (next p) s inp v).ex.opCommits p ((trace (next p) s inp v).exIn (inp v)) = false) :
    archPc p boot s inp u = nextPc (trace (next p) s inp t).de (trace (next p) s inp t).csr.regs.mepc := by
  have hs : (trace (next p) s inp t).Sane p := trace_invariant h (fun _ i hs => hs.next i) t
  have hv := valid_of_commit hs hc
  obtain ⟨k, hk⟩ := (hs.fresh hv).kind
  rw [archPc_const (a := t + 1) htu fun v h1 h2 => hq v h1 h2, archPc_succ, archPcNext]
  rcases hs.ex.outcome (i := (trace (next p) s inp t).exIn (inp t)) hk rfl hv with ⟨hw, -⟩ | ⟨hco, -⟩ | ⟨hsq, -⟩
  · rw [hw.commit] at hc
    exact absurd hc (by decide)
  · rw [entry, hco.sync, hco.int, hc]
    rfl
  · rw [hsq.commit] at hc
    exact absurd hc (by decide)

/-- **Control flow under an adversarial predictor.**  In a run up to cycle `m` whose every `mret` finds an even
`mepc`, an instruction that commits next behind another one, with no trap or interrupt entry between, stands at the
successor of the first; and whatever writes a register, a CSR or the predictor or raises a memory request is the
instruction of the image at the architectural position. -/
theorem control_flow (inp : Nat → CoreIn) (h : s.IsReset boot img rf) (hb : boot.getLsbD 0 = false) (m : Nat)
    (hm : ∀ t, t < m → EvenMepc (trace (next p) s inp t) (inp t)) :
    (∀ t u, t < u → u ≤ m → (trace (next p) s inp t).ex.opCommits p ((trace (next p) s inp t).exIn (inp t)) = true →
      (trace (next p) s inp u).ex.opCommits p ((trace (next p) s inp u).exIn (inp u)) = true →
      (∀ v, t < v → v < u → (trace (next p) s inp v).entry p (inp v) = false ∧
        (trace (next p) s inp v).ex.opCommits p ((trace (next p) s inp v).exIn (inp v)) = false) →
      (trace (next p) s inp u).de.pc =
        nextPc (trace (next p) s inp t).de (trace (next p) s inp t).csr.regs.mepc) ∧
    (∀ t, t ≤ m → Acts p (trace (next p) s inp t) (inp t) →
      (trace (next p) s inp t).de.pc = archPc p boot s inp t ∧
      (trace (next p) s inp t).de.instr = (itemAt p img (archPc p boot s inp t)).src.instr32 ∧
      (itemAt p img (archPc p boot s inp t)).fault = false) := by
  refine ⟨fun t u htu hu hct hcu hq => ?_, fun t ht ha => (at_run h hb inp t fun u hu => hm u (by omega)).acts ha⟩
  rw [← archPc_of_commit (p := p) boot htu h.sane hct hq]
  exact ((at_run h hb inp u fun v hv => hm v (by omega)).commit_pc hcu).2.1

/-- A predictor that calls every branch taken and every return one to 40. -/
def allTaken : CoreIn :=
  { CoreIn.quiet with bpLookup := ⟨true, true, 40, 0⟩, bpPush := ⟨0, true, true, true, true⟩ }

/-- `csrrwi mepc, 24`, `bne x0, x0` to the store at 16, `mret` at 8. -/
def bneMret : Core :=
  reset 0 (imgOf [0x00001663341C5073#64, 0x0000001330200073#64, 0x0000202300002023#64]) ⟨fun _ => 0⟩

/-- The branch was predicted taken and is not: the `mret` behind it commits next, and behind that the instruction at
the return address.  The branch trains the predictor at its own position. -/
theorem control_flow_bne_mret :
    let run := trace (next .pkg) bneMret fun _ => allTaken
    ((run 5).de.predTaken = true ∧ (run 5).de.predTarget = 16 ∧ (run 8).de.sysOp = .mret) ∧
      (run 8).de.pc = nextPc (run 5).de (run 5).csr.regs.mepc ∧
      (run 11).de.pc = nextPc (run 8).de (run 8).csr.regs.mepc ∧
      ((run 5).de.pc = 4 ∧ (run 8).de.pc = 8 ∧ (run 11).de.pc = 24) ∧
      (run 5).de.pc = archPc .pkg 0 bneMret (fun _ => allTaken) 5 := by
  have h := control_flow (p := .pkg) (fun _ => allTaken)
    (reset_isReset 0 (imgOf [0x00001663341C5073#64, 0x0000001330200073#64, 0x0000202300002023#64]) ⟨fun _ => 0⟩)
    (by decide) 11 (by decide +kernel)
  have hbetween : ∀ v, 5 < v → v < 8 → v = 6 ∨ v = 7 := by omega
  have hbehind : ∀ v, 8 < v → v < 11 → v = 9 ∨ v = 10 := by omega
  refine ⟨by decide +kernel,
    h.1 5 8 (by decide) (by decide) (by decide +kernel) (by decide +kernel) fun v h1 h2 => ?_,
    h.1 8 11 (by decide) (by decide) (by decide +kernel) (by decide +kernel) fun v h1 h2 => ?_, by decide +kernel,
    (h.2 5 (by decide) (.inr (.inr (.inl (by decide +kernel))))).1⟩
  · rcases hbetween v h1 h2 with rfl | rfl <;> decide +kernel
  · rcases hbehind v h1 h2 with rfl | rfl <;> decide +kernel

/-- `csrrwi mepc, 17` and `mret`: behind the no-operation at 17 execute resolves 21, the core commits the one at
20. -/
theorem control_flow_odd_mepc :
    let run := trace (next .pkg) (reset 0 (imgOf [0x302000733418D073#64]) ⟨fun _ => 0⟩) fun _ => .quiet
    (run 8).ex.opCommits .pkg ((run 8).exIn .quiet) = true ∧ (run 9).ex.opCommits .pkg ((run 9).exIn .quiet) = true ∧
      (run 8).entry .pkg .quiet = false ∧ (run 9).entry .pkg .quiet = false ∧
      (run 8).de.pc = 17 ∧ (run 9).de.pc = 20 ∧ nextPc (run 8).de (run 8).csr.regs.mepc = 21 := by
  decide +kernel

/-! ### The halt of WFI -/

/-- A WFI sits in the D/E register during a halt that no interrupt ends yet. -/
def ParkedWfi (s : Core) (i : CoreIn) : Prop :=
  wfiStall s.ex (s.exIn i) = true ∧ s.de.valid = true ∧ s.de.sysOp = .wfi

instance (s : Core) (i : CoreIn) : Decidable (ParkedWfi s i) :=
  inferInstanceAs (Decidable (_ ∧ _))

/-- A frozen core stays where it is. -/
theorem frozen (h : s.Sane p) (hf : wfiStall s.ex (s.exIn i) = true) :
    s.ex.exStateQ = .idle ∧ s.ex.opCommits p (s.exIn i) = false ∧ s.entry p i = false := by
  simp only [wfiStall, Bool.and_eq_true, Bool.not_eq_true'] at hf
  have hfr : freeze s.ex (s.exIn i) = true := by simp [freeze, wfiStall, hf.1, hf.2]
  have hidle : s.ex.exStateQ = .idle := h.idle_of_halt hf.1
  refine ⟨hidle, by simp [opCommits, mretReq, hfr], ?_⟩
  simp [entry, syncTrapReq, takeInterrupt, hfr, misalignedTrap_idle hidle, hf.2]

/-- A WFI that retires outside a halt commits, and its wake address is its successor. -/
private theorem wfiRetire_next (h : At p img n s) (hr : s.ex.wfiRetire p (s.exIn i) = true)
    (hf : wfiStall s.ex (s.exIn i) = false) : archPcNext p n s i = pcLink (s.exIn i) := by
  simp only [wfiRetire, Bool.and_eq_true, Bool.not_eq_true', isWfiOp, beq_iff_eq] at hr
  obtain ⟨⟨⟨⟨hv, hidle⟩, hs⟩, ht⟩, -⟩ := hr
  obtain ⟨k, hk⟩ := (h.sane.fresh hv).kind
  have hw : s.de.sysOp = .wfi := hs
  obtain rfl : k = .wfi := by simpa [hw] using hk.wfi
  have hfr : freeze s.ex (s.exIn i) = false := by simp [freeze, hf]
  have hready : resultReady p s.ex (s.exIn i) = true := by
    have hdiv : Alu.isDivOp (aluIn (s.exIn i) false) = false := isDivOp_kind (i := s.exIn i) hk
    simp [resultReady, isMemOp_kind (i := s.exIn i) hk, isCsrOp_kind (i := s.exIn i) hk, aluResultValid,
      Alu.resultValid, hdiv]
  have hc := opCommits_of_ready (i := s.exIn i) hv hfr hready ht
  simp only [trapRedirectReq, Bool.or_eq_false_iff] at ht
  have hb : s.de.branchType = .none := by simpa using hk.branch
  rw [archPcNext, entry, ht.1.1, ht.2, hc, nextPc, hw]
  simp [branchTaken, ofDe, hb]
  rfl

/-- One cycle without a parked WFI keeps the wake address at the position. -/
theorem halt_next (h : At p img n s) (hh : s.ex.wfiHaltQ = true → s.ex.wfiNextPcQ = n) (hp : ¬ParkedWfi s i)
    (hn : (s.next p i).ex.wfiHaltQ = true) : (s.next p i).ex.wfiNextPcQ = archPcNext p n s i := by
  have hnext : (s.next p i).ex.wfiNextPcQ =
      if s.ex.wfiRetire p (s.exIn i) then pcLink (s.exIn i) else s.ex.wfiNextPcQ := rfl
  have hhalt : (s.next p i).ex.wfiHaltQ = (s.ex.wfiRetire p (s.exIn i) || wfiStall s.ex (s.exIn i)) := rfl
  rw [hhalt] at hn
  rw [hnext]
  cases hr : s.ex.wfiRetire p (s.exIn i) with
  | true =>
    have hf : wfiStall s.ex (s.exIn i) = false := by
      cases hf : wfiStall s.ex (s.exIn i) with
      | false => rfl
      | true =>
        simp only [wfiRetire, Bool.and_eq_true, isWfiOp, beq_iff_eq] at hr
        exact absurd ⟨hf, hr.1.1.1.1, hr.1.1.2⟩ hp
    rw [if_pos rfl, wfiRetire_next h hr hf]
  | false =>
    rw [hr, Bool.false_or] at hn
    obtain ⟨-, hc, he⟩ := frozen h.sane hn
    simp only [wfiStall, Bool.and_eq_true] at hn
    rw [if_neg (by decide), archPcNext, he, hc]
    exact hh hn.1

/-- Without a condition the wake address is at the position, or a WFI is parked behind the one that halted. -/
private theorem halt_next_weak (h : At p img n s)
    (hh : s.ex.wfiHaltQ = true → s.ex.wfiNextPcQ = n ∨ (s.de.valid = true ∧ s.de.sysOp = .wfi))
    (hn : (s.next p i).ex.wfiHaltQ = true) :
    (s.next p i).ex.wfiNextPcQ = archPcNext p n s i ∨
      ((s.next p i).de.valid = true ∧ (s.next p i).de.sysOp = .wfi) := by
  have hhalt : (s.next p i).ex.wfiHaltQ = (s.ex.wfiRetire p (s.exIn i) || wfiStall s.ex (s.exIn i)) := rfl
  by_cases hp : ParkedWfi s i
  · -- The parked WFI stays in the D/E register.
    right
    obtain ⟨hf, hv, hs⟩ := hp
    obtain ⟨hidle, hc, he⟩ := frozen h.sane hf
    obtain ⟨k, hk⟩ := (h.sane.fresh hv).kind
    simp only [entry, Bool.or_eq_false_iff] at he
    have hst : s.ex.stallO p (s.exIn i) = true := by simp [stallO, hf]
    have hb : s.ex.branchValid p (s.exIn i) = false := by
      have hm : s.ex.mretReq (s.exIn i) = false := by simp [mretReq, isMretOp, hs]
      have hr : s.ex.cfResolving p (s.exIn i) = false := by simp [cfResolving, freeze, hf]
      simp [branchValid, mispredict, hr, trapRedirectReq, he.1, he.2, hm]
    rw [next_de, hb, hst]
    exact ⟨hv, hs⟩
  · left
    by_cases hw : s.ex.wfiHaltQ = true → s.ex.wfiNextPcQ = n
    · exact halt_next h hw hp hn
    · -- A parked WFI under an ending halt: it does not retire, so the halt is over.
      rw [Classical.not_imp] at hw
      obtain ⟨hq, hne⟩ := hw
      rcases hh hq with he | ⟨hv, hs⟩
      · exact absurd he hne
      · have hstall : wfiStall s.ex (s.exIn i) = false := by
          cases hf : wfiStall s.ex (s.exIn i) with
          | false => rfl
          | true => exact absurd ⟨hf, hv, hs⟩ hp
        have hpend : (s.exIn i).intPending = true := by
          simpa [wfiStall, hq] using hstall
        rw [hhalt, hstall, Bool.or_false] at hn
        simp only [wfiRetire, Bool.and_eq_true, Bool.not_eq_true', trapRedirectReq, Bool.or_eq_false_iff] at hn
        obtain ⟨⟨-, ⟨h1, h2⟩, h3⟩, -⟩ := hn
        simp [takeInterrupt, hpend, h1, h2, hq] at h3

/-- The wake address of a run without parked WFIs is the position. -/
private theorem halt_run (h : s.IsReset boot img rf) (hb : boot.getLsbD 0 = false) (inp : Nat → CoreIn) (t : Nat)
    (hok : ∀ u, u < t → EvenMepc (trace (next p) s inp u) (inp u) ∧ ¬ParkedWfi (trace (next p) s inp u) (inp u)) :
    (trace (next p) s inp t).ex.wfiHaltQ = true →
      (trace (next p) s inp t).ex.wfiNextPcQ = archPc p boot s inp t := by
  induction t with
  | zero =>
    intro hh
    have : s.ex.wfiHaltQ = false := by rw [h.ex]; rfl
    rw [trace_zero, this] at hh
    exact absurd hh (by decide)
  | succ t ih =>
    have hat := at_run (p := p) h hb inp t fun u hu => (hok u (by omega)).1
    exact halt_next hat (ih fun u hu => hok u (by omega)) (hok t (by omega)).2

private theorem halt_run_weak (h : s.IsReset boot img rf) (hb : boot.getLsbD 0 = false) (inp : Nat → CoreIn) (t : Nat)
    (hok : ∀ u, u < t → EvenMepc (trace (next p) s inp u) (inp u)) :
    (trace (next p) s inp t).ex.wfiHaltQ = true →
      (trace (next p) s inp t).ex.wfiNextPcQ = archPc p boot s inp t ∨
        ((trace (next p) s inp t).de.valid = true ∧ (trace (next p) s inp t).de.sysOp = .wfi) := by
  induction t with
  | zero =>
    intro hh
    have : s.ex.wfiHaltQ = false := by rw [h.ex]; rfl
    rw [trace_zero, this] at hh
    exact absurd hh (by decide)
  | succ t ih =>
    have hat := at_run (p := p) h hb inp t fun u hu => hok u (by omega)
    exact halt_next_weak hat (ih fun u hu => hok u (by omega))

/-! ### Interrupts -/

/-- What a trap or interrupt entry writes. -/
theorem next_csr_entry (h : s.entry p i = true) :
    (s.next p i).csr.regs.mepc = s.ex.trapMepc (s.exIn i) ∧
      (s.next p i).csr.regs.mcause = s.ex.trapCause p (s.exIn i) ∧
      (s.next p i).csr.regs.mtval = s.ex.trapTval p (s.exIn i) := by
  have he : TrapUnit.entry (s.trapIn p i) = true := h
  have h1 : (s.csrIn p i).trap.weMepc = true := he
  have h2 : (s.csrIn p i).trap.weMcause = true := he
  have h3 : (s.csrIn p i).trap.weMtval = true := he
  change (CsrRegfile.regsD s.csr (s.csrIn p i)).mepc = _ ∧ (CsrRegfile.regsD s.csr (s.csrIn p i)).mcause = _ ∧
    (CsrRegfile.regsD s.csr (s.csrIn p i)).mtval = _
  simp only [CsrRegfile.regsD, h1, h2, h3, if_true]
  exact ⟨rfl, rfl, rfl⟩

/-- A valid word without an exception stands at the position. -/
private theorem At.pc_of_no_exception (h : At p img n s) (hv : s.de.valid = true) (hx : s.de.exception = false) :
    s.de.pc = n := by
  obtain ⟨pr, -, hde, -⟩ := (h.full hv).word
  have hf : (itemAt p img n).fault = false := by
    rw [hde] at hx
    simp only [Item.de, Bool.or_eq_false_iff] at hx
    exact hx.1.1
  rw [hde]
  exact (itemAt_step h.even hf).1

/-- An `mret` moves the position to `mepc`. -/
private theorem archPcNext_mret (h : s.Sane p) (hr : s.ex.mretReq (s.exIn i) = true) :
    archPcNext p n s i = s.csr.regs.mepc := by
  have hc : s.ex.opCommits p (s.exIn i) = true := by simp [opCommits, hr]
  have hparts := hr
  simp only [mretReq, isMretOp, exIdle, Bool.and_eq_true, beq_iff_eq] at hparts
  obtain ⟨⟨⟨hv, -⟩, hidle⟩, hs⟩ := hparts
  have hs' : s.de.sysOp = .mret := hs
  obtain ⟨k, hk⟩ := (h.fresh hv).kind
  have hx : s.de.exception = false := exception_of_commit (i := s.exIn i) h.ex hk hc
  have he : s.entry p i = false := by
    simp [entry, syncTrapReq, takeInterrupt, hr, hx, misalignedTrap_idle (i := s.exIn i) hidle]
  rw [archPcNext, he, hc, nextPc, if_pos hs']
  rfl

/-- **Interrupt precision.**  In a run in which so far every `mret` finds an even `mepc` and no WFI is parked in the
D/E register during a halt, an interrupt saves the position: the successor of the last committed instruction.  Nothing
of the interrupted program commits with it, and an `mret` that finds the saved address goes on there. -/
theorem interrupt_mepc (inp : Nat → CoreIn) (h : s.IsReset boot img rf) (hb : boot.getLsbD 0 = false)
    (t : Nat)
    (hok : ∀ u, u < t → EvenMepc (trace (next p) s inp u) (inp u) ∧ ¬ParkedWfi (trace (next p) s inp u) (inp u))
    (ht : (trace (next p) s inp t).ex.takeInterrupt p ((trace (next p) s inp t).exIn (inp t)) = true) :
    (trace (next p) s inp (t + 1)).csr.regs.mepc = archPc p boot s inp t ∧
      (trace (next p) s inp t).ex.opCommits p ((trace (next p) s inp t).exIn (inp t)) = false ∧
      (∀ u, u < t → (trace (next p) s inp u).ex.opCommits p ((trace (next p) s inp u).exIn (inp u)) = true →
        (∀ v, u < v → v < t → (trace (next p) s inp v).entry p (inp v) = false ∧
          (trace (next p) s inp v).ex.opCommits p ((trace (next p) s inp v).exIn (inp v)) = false) →
        (trace (next p) s inp (t + 1)).csr.regs.mepc =
          nextPc (trace (next p) s inp u).de (trace (next p) s inp u).csr.regs.mepc) ∧
      (∀ u, t < u → (trace (next p) s inp u).ex.mretReq ((trace (next p) s inp u).exIn (inp u)) = true →
        (trace (next p) s inp u).csr.regs.mepc = (trace (next p) s inp (t + 1)).csr.regs.mepc →
        archPc p boot s inp (u + 1) = archPc p boot s inp t) := by
  have hat := at_run (p := p) h hb inp t fun u hu => (hok u hu).1
  have hent : (trace (next p) s inp t).entry p (inp t) = true := by simp [entry, ht]
  have hmepc : (trace (next p) s inp (t + 1)).csr.regs.mepc = archPc p boot s inp t := by
    rw [trace_succ, (next_csr_entry hent).1, trapMepc]
    cases hh : (trace (next p) s inp t).ex.wfiHaltQ with
    | true =>
      rw [if_pos rfl]
      exact halt_run h hb inp t hok hh
    | false =>
      have hn : normalIntEligible (trace (next p) s inp t).ex ((trace (next p) s inp t).exIn (inp t)) = true := by
        simp only [takeInterrupt, Bool.and_eq_true, Bool.or_eq_true, hh, Bool.false_eq_true, or_false] at ht
        exact ht.2
      simp only [normalIntEligible, Bool.and_eq_true, Bool.not_eq_true'] at hn
      rw [if_neg (by decide)]
      exact hat.pc_of_no_exception hn.1.1.1.1.1 hn.1.1.1.2
  refine ⟨hmepc, ?_, fun u hu hc hq => ?_, fun u hu hr he => ?_⟩
  · have hm : mretReq (trace (next p) s inp t).ex ((trace (next p) s inp t).exIn (inp t)) = false := by
      simp only [takeInterrupt, Bool.and_eq_true, Bool.not_eq_true'] at ht
      exact ht.1.2
    simp [opCommits, hm, trapRedirectReq, ht]
  · rw [hmepc]
    exact archPc_of_commit boot hu h.sane hc hq
  · rw [archPc_succ, archPcNext_mret (trace_invariant h.sane (fun _ i hs => hs.next i) u) hr, he, hmepc]

/-- The software interrupt line rises at cycle `c`. -/
def msipFrom (c t : Nat) : CoreIn := { CoreIn.quiet with msip := decide (c ≤ t) }

/-- Two CSR writes enable the software interrupt; the one that comes at cycle 9 saves address 16. -/
theorem interrupt_mepc_msi :
    let s := reset 0 (imgOf [0x3004607330446073#64]) ⟨fun _ => 0⟩
    (trace (next .pkg) s (msipFrom 8) 10).csr.regs.mepc = archPc .pkg 0 s (msipFrom 8) 9 :=
  (interrupt_mepc (p := .pkg) (msipFrom 8) (reset_isReset 0 (imgOf [0x3004607330446073#64]) ⟨fun _ => 0⟩)
    (by decide) 9 (by decide +kernel) (by decide +kernel)).1

/-- Two WFIs in a row: the first commits in cycle 7 and its successor is 12, the interrupt of cycle 13 saves 16, and
the WFI at 12 has not committed. -/
theorem interrupt_mepc_parked_wfi :
    let s := reset 0 (imgOf [0x3004607330446073#64, 0x1050007310500073#64]) ⟨fun _ => 0⟩
    let run := trace (next .pkg) s (msipFrom 12)
    (run 7).ex.opCommits .pkg ((run 7).exIn (msipFrom 12 7)) = true ∧
      nextPc (run 7).de (run 7).csr.regs.mepc = 12 ∧
      (∀ v, v < 13 → 7 < v → (run v).entry .pkg (msipFrom 12 v) = false ∧
        (run v).ex.opCommits .pkg ((run v).exIn (msipFrom 12 v)) = false) ∧
      (run 13).ex.takeInterrupt .pkg ((run 13).exIn (msipFrom 12 13)) = true ∧
      (run 14).csr.regs.mepc = 16 := by
  decide +kernel

/-! ### Synchronous traps -/

/-- What the instruction at `n` reports in `mcause` and `mtval` when it traps. -/
def trapReport (p : Params) (img : Nat → BitVec 64) (n : Word) (d : De) : Word × Word :=
  if outOfImem p n then (mcauseInstrAcc, n)
  else if (itemAt p img n).fault then (mcauseInstrAcc, spanPc n)
  else if (opcodeTree d.instr).illegal then (mcauseIllegal, d.instr)
  else if d.sysOp = .ecall then (mcauseEcallM, 0)
  else if d.sysOp = .ebreak then (mcauseBreakpoint, 0)
  else (if d.memWrite then mcauseSadMis else mcauseLadMis, effAddr d)

/-- The trap of this cycle saves the position and reports its instruction, which has no other effect. -/
structure PreciseTrap (p : Params) (img : Nat → BitVec 64) (n : Word) (s : Core) (i : CoreIn) : Prop where
  mepc : (s.next p i).csr.regs.mepc = n
  report : ((s.next p i).csr.regs.mcause, (s.next p i).csr.regs.mtval) = trapReport p img n s.de
  commit : s.ex.opCommits p (s.exIn i) = false
  quiet : ¬Acts p s i

/-- A fault item lies outside the I-mem, or is the missing half of an instruction that spans its end. -/
theorem fault_cases (n : Word) (hf : (itemAt p img n).fault = true) :
    (outOfImem p n = true ∧ (itemAt p img n).src.pc = n) ∨
      (SpanFault p img n ∧ (itemAt p img n).src.pc = spanPc n) := by
  cases ho : outOfImem p n with
  | true =>
    left
    rw [itemAt, ho]
    exact ⟨rfl, rfl⟩
  | false =>
    right
    cases hc : isRvc (halfAt img n) with
    | true =>
      rw [itemAt, ho, hc] at hf
      exact Bool.noConfusion hf
    | false =>
      cases hb : n.getLsbD 1 with
      | false =>
        rw [itemAt, ho, hc, hb] at hf
        exact Bool.noConfusion hf
      | true =>
        cases hs : outOfImem p (spanPc n) with
        | false =>
          rw [itemAt, ho, hc, hb, hs] at hf
          exact Bool.noConfusion hf
        | true =>
          rw [itemAt, ho, hc, hb, hs]
          exact ⟨⟨ho, hb, hc, hs⟩, rfl⟩

private theorem spanFault_fault {n : Word} (h : SpanFault p img n) : (itemAt p img n).fault = true := by
  rw [itemAt, h.inside, h.long, h.upper, h.outside]
  rfl

private theorem spanPc_ne {n : Word} (h : n.getLsbD 1 = true) : spanPc n ≠ n := by
  intro he
  have := spanPc_bit n
  rw [he, h] at this
  exact absurd this (by decide)

/-- The misaligned address of a trapping access. -/
theorem misaligned_facts (h : s.Sane p) (hm : s.ex.misalignedTrap p (s.exIn i) = true) :
    s.de.valid = true ∧ s.de.HasKind .mem ∧ s.ex.memAddrQ = effAddr s.de ∧ s.ex.wfiHaltQ = false ∧
      s.ex.exStateQ ≠ .idle := by
  have hne : s.ex.exStateQ ≠ .idle := by
    intro hi
    rw [misalignedTrap_idle hi] at hm
    exact absurd hm (by decide)
  have hstate : s.ex.exStateQ = .memTrap ∨ s.ex.exStateQ = .memLaunch := by
    unfold misalignedTrap at hm
    cases hp : p.lsuLiveLoad with
    | true => left; simpa [hp] using (Bool.and_eq_true_iff.mp hm).2
    | false =>
      right
      have := (Bool.and_eq_true_iff.mp hm).2
      simp only [hp, Bool.false_eq_true, if_false, Bool.and_eq_true, beq_iff_eq] at this
      exact this.1
  cases h.ex with
  | memLaunch _ valid kind halt _ cap => exact ⟨valid, kind, cap.addr.trans (lsuEa_eq kind), halt, hne⟩
  | memTrap _ valid kind halt _ cap => exact ⟨valid, kind, cap.addr.trans (lsuEa_eq kind), halt, hne⟩
  | idle state => exact absurd state hne
  | divBusy state => simp [state] at hstate
  | csrWait state => simp [state] at hstate
  | memWait state => simp [state] at hstate

/-- An instruction that traps does nothing else. -/
theorem quiet_of_sync (h : s.Sane p) (ht : s.ex.syncTrapReq p (s.exIn i) = true) :
    s.ex.opCommits p (s.exIn i) = false ∧ ¬Acts p s i := by
  have htr : s.ex.trapRedirectReq p (s.exIn i) = true := by simp [trapRedirectReq, ht]
  have hv : s.de.valid = true := by
    cases hv : s.de.valid with
    | true => rfl
    | false =>
      rw [(h.ex.bubble (i := s.exIn i) rfl hv).2.1] at ht
      exact absurd ht (by decide)
  obtain ⟨k, hk⟩ := (h.fresh hv).kind
  have hc : s.ex.opCommits p (s.exIn i) = false := by
    rcases h.ex.outcome (i := s.exIn i) hk rfl hv with ⟨hw, -⟩ | ⟨hco, -⟩ | ⟨hsq, -⟩
    · exact hw.commit
    · rw [hco.sync] at ht
      exact absurd ht (by decide)
    · exact hsq.commit
  refine ⟨hc, ?_⟩
  rintro (ha | ha | ha | ha)
  · rw [opCommits_of_wbEn ha] at hc
    exact absurd hc (by decide)
  · rw [opCommits_of_csrWren ha] at hc
    exact absurd hc (by decide)
  · rw [(opCommits_of_cfResolving (i := s.exIn i) hk ha).1] at hc
    exact absurd hc (by decide)
  · obtain ⟨-, hkm⟩ := mem_of_wvalid h ha
    have hmis : s.ex.misalignedTrap p (s.exIn i) = true := by
      simpa [syncTrapReq, hkm.exception] using ht
    obtain ⟨-, -, -, -, hne⟩ := misaligned_facts h hmis
    have hd : s.ex.dmemLoadDrive p (s.exIn i) = false := by
      simp [dmemLoadDrive, memReqPending, exIdle, hne]
    have hcd : s.ex.capturedDrive p (s.exIn i) = false := by simp [capturedDrive, hmis]
    rw [dmemReq, Core.periReq, memReq_wvalid, periReq_wvalid, dmemCapturedDrive, hd, hcd] at ha
    simp at ha

private theorem inside_of_no_fault {n : Word} (hf : (itemAt p img n).fault = false) : outOfImem p n = false := by
  cases ho : outOfImem p n with
  | false => rfl
  | true =>
    rw [itemAt, ho] at hf
    exact Bool.noConfusion hf

/-- A misaligned access reports its effective address. -/
private theorem misaligned_report (h : At p img n s) (hm : s.ex.misalignedTrap p (s.exIn i) = true) :
    (if s.de.memWrite then mcauseSadMis else mcauseLadMis, s.ex.memAddrQ) = trapReport p img n s.de := by
  obtain ⟨hv, hk, ha, -⟩ := misaligned_facts h.sane hm
  obtain ⟨pr, -, hde, -⟩ := (h.full hv).word
  have hx : s.de.exception = ((itemAt p img n).fault || (opcodeTree s.de.instr).illegal ||
      (opcodeTree s.de.instr).excReq) := by rw [hde]; rfl
  have hsys : ¬(s.de.sysOp = .ecall ∨ s.de.sysOp = .ebreak) := fun hs => by
    have := hk.sys hs
    exact absurd this (by decide)
  rw [not_or] at hsys
  rw [hk.exception] at hx
  have hparts : ((itemAt p img n).fault = false ∧ (opcodeTree s.de.instr).illegal = false) := by
    have := hx.symm
    simp only [reduceCtorEq, decide_false, Bool.or_eq_false_iff] at this
    exact this.1
  simp only [trapReport, inside_of_no_fault hparts.1, hparts.1, hparts.2, hsys.1, hsys.2, ha,
    Bool.false_eq_true, if_false]

/-- An exception of decode reports the fault address, the illegal word or the environment call. -/
private theorem exception_report (h : At p img n s) (hv : s.de.valid = true) (hx : s.de.exception = true) :
    (s.de.exceptionCause, s.de.exceptionTval) = trapReport p img n s.de := by
  obtain ⟨pr, -, hde, -⟩ := (h.full hv).word
  have hsys : s.de.sysOp = (opcodeTree s.de.instr).sysOp := by rw [hde]; rfl
  have hcause : s.de.exceptionCause = if (itemAt p img n).fault then mcauseInstrAcc
      else if (opcodeTree s.de.instr).illegal then mcauseIllegal else (opcodeTree s.de.instr).excCause := by
    rw [hde]; rfl
  have htval : s.de.exceptionTval = if (itemAt p img n).fault then (itemAt p img n).src.pc
      else if (opcodeTree s.de.instr).illegal then s.de.instr else (opcodeTree s.de.instr).excTval := by
    rw [hde]; rfl
  have hexc : s.de.exception = ((itemAt p img n).fault || (opcodeTree s.de.instr).illegal ||
      (opcodeTree s.de.instr).excReq) := by rw [hde]; rfl
  rw [hcause, htval, trapReport]
  cases hf : (itemAt p img n).fault with
  | true =>
    rcases fault_cases n hf with ⟨ho, hpc⟩ | ⟨hs, hpc⟩
    · simp [ho, hpc]
    · simp [hs.inside, hpc]
  | false =>
    have hout := inside_of_no_fault hf
    cases hi : (opcodeTree s.de.instr).illegal with
    | true => simp [hout]
    | false =>
      rw [hf, hi, Bool.false_or, Bool.false_or, hx] at hexc
      obtain ⟨k, hk⟩ := opcodeTree_hasKind s.de.instr
      rcases hk.exc hexc.symm with ⟨h1, h2, h3⟩ | ⟨h1, h2, h3⟩
      · simp [hout, hsys, h1, h2, h3]
      · simp [hout, hsys, h1, h2, h3]

/-- The cause and the value a trap reports describe its instruction. -/
private theorem sync_report (h : At p img n s) (ht : s.ex.syncTrapReq p (s.exIn i) = true) :
    (s.ex.trapCause p (s.exIn i), s.ex.trapTval p (s.exIn i)) = trapReport p img n s.de := by
  have hint : s.ex.takeInterrupt p (s.exIn i) = false := by simp [takeInterrupt, ht]
  rw [trapCause, trapTval, hint, if_neg (by decide), if_neg (by decide), syncCause, syncTval]
  cases hm : s.ex.misalignedTrap p (s.exIn i) with
  | true => exact misaligned_report h hm
  | false =>
    simp only [syncTrapReq, hm, Bool.or_false, Bool.and_eq_true] at ht
    exact exception_report h ht.1.1.1 ht.2

/-- **Synchronous-trap precision.**  In a run whose every `mret` so far finds an even `mepc`, a synchronous trap saves
the position, reports its instruction and has no other effect, if and only if it is not raised, outside the wake-up
from a halt, by the missing half of an instruction that spans the end of the I-mem.  The position is the successor of
the last committed instruction. -/
theorem sync_trap_mepc (inp : Nat → CoreIn) (h : s.IsReset boot img rf) (hb : boot.getLsbD 0 = false)
    (t : Nat) (hm : ∀ u, u < t → EvenMepc (trace (next p) s inp u) (inp u))
    (ht : (trace (next p) s inp t).ex.syncTrapReq p ((trace (next p) s inp t).exIn (inp t)) = true) :
    (PreciseTrap p img (archPc p boot s inp t) (trace (next p) s inp t) (inp t) ↔
      (SpanFault p img (archPc p boot s inp t) → (trace (next p) s inp t).ex.wfiHaltQ = true)) ∧
    (∀ u, u < t → (trace (next p) s inp u).ex.opCommits p ((trace (next p) s inp u).exIn (inp u)) = true →
      (∀ v, u < v → v < t → (trace (next p) s inp v).entry p (inp v) = false ∧
        (trace (next p) s inp v).ex.opCommits p ((trace (next p) s inp v).exIn (inp v)) = false) →
      archPc p boot s inp t = nextPc (trace (next p) s inp u).de (trace (next p) s inp u).csr.regs.mepc) := by
  refine ⟨?_, fun u hu hc hq => archPc_of_commit boot hu h.sane hc hq⟩
  have hat := at_run (p := p) h hb inp t hm
  have hhalt := halt_run_weak (p := p) h hb inp t hm
  generalize archPc p boot s inp t = n at hat hhalt ⊢
  generalize trace (next p) s inp t = q at hat hhalt ht ⊢
  generalize inp t = j at ht ⊢
  have hent : q.entry p j = true := by simp [entry, ht]
  obtain ⟨hw1, hw2, hw3⟩ := next_csr_entry hent
  obtain ⟨hcommit, hquiet⟩ := quiet_of_sync hat.sane ht
  have hreport : ((q.next p j).csr.regs.mcause, (q.next p j).csr.regs.mtval) = trapReport p img n q.de := by
    rw [hw2, hw3]
    exact sync_report hat ht
  have hmepc : (q.next p j).csr.regs.mepc = n ↔ (SpanFault p img n → q.ex.wfiHaltQ = true) := by
    rw [hw1, trapMepc]
    cases hh : q.ex.wfiHaltQ with
    | true =>
      refine ⟨fun _ _ => rfl, fun _ => ?_⟩
      rcases hhalt hh with he | ⟨hv, hs⟩
      · exact he
      · -- A parked WFI does not trap.
        obtain ⟨k, hk⟩ := (hat.sane.fresh hv).kind
        obtain rfl : k = .wfi := by simpa [hs] using hk.wfi
        cases hmis : q.ex.misalignedTrap p (q.exIn j) with
        | true => exact absurd (hk.unique (misaligned_facts hat.sane hmis).2.1) (by decide)
        | false => simp [syncTrapReq, hmis, hk.exception] at ht
    | false =>
      have hv : q.de.valid = true := by
        cases hv : q.de.valid with
        | true => rfl
        | false =>
          rw [(hat.sane.ex.bubble (i := q.exIn j) rfl hv).2.1] at ht
          exact absurd ht (by decide)
      obtain ⟨pr, -, hde, -⟩ := (hat.full hv).word
      have hpc : q.de.pc = (itemAt p img n).src.pc := by rw [hde]; rfl
      rw [if_neg (by decide), exIn_de, hpc]
      cases hf : (itemAt p img n).fault with
      | false =>
        refine ⟨fun _ hs => ?_, fun _ => (itemAt_step hat.even hf).1⟩
        rw [spanFault_fault hs] at hf
        exact absurd hf (by decide)
      | true =>
        rcases fault_cases n hf with ⟨ho, he⟩ | ⟨hs, he⟩
        · refine ⟨fun _ hs => ?_, fun _ => he⟩
          rw [hs.inside] at ho
          exact absurd ho (by decide)
        · rw [he]
          exact ⟨fun hx => absurd hx (spanPc_ne hs.upper), fun hx => absurd (hx hs) (by decide)⟩
  exact ⟨fun hp => hmepc.mp hp.mepc, fun hs => ⟨hmepc.mpr hs, hreport, hcommit, hquiet⟩⟩

/-- The theorem at an illegal word at address 0. -/
theorem sync_trap_mepc_illegal :
    let s := reset 0 (imgOf [0]) ⟨fun _ => 0⟩
    PreciseTrap .pkg (imgOf [0]) (archPc .pkg 0 s (fun _ => .quiet) 3)
      (trace (next .pkg) s (fun _ => .quiet) 3) .quiet :=
  (sync_trap_mepc (p := .pkg) (fun _ => .quiet) (reset_isReset 0 (imgOf [0]) ⟨fun _ => 0⟩) (by decide) 3
    (by decide +kernel) (by decide +kernel)).1.mpr fun h => absurd h.long (by decide +kernel)

/-- A build with 16 bytes of I-mem. -/
def smallImem : Params := { Params.pkg with imemAddrW := 4, imemAddrW_ge := by decide, imemAddrW_lt := by decide }

/-- The last halfword of the I-mem starts a 32-bit instruction.  The instruction before it commits in cycle 6 and its
successor is 14; the access fault of cycle 7 saves 16. -/
theorem sync_trap_mepc_span :
    let s := reset 0 (imgOf [0x0000001300000013#64, 0x0013000100000013#64]) ⟨fun _ => 0⟩
    let run := trace (next smallImem) s fun _ => .quiet
    (run 6).ex.opCommits smallImem ((run 6).exIn .quiet) = true ∧ nextPc (run 6).de (run 6).csr.regs.mepc = 14 ∧
      (run 7).ex.syncTrapReq smallImem ((run 7).exIn .quiet) = true ∧ (run 8).csr.regs.mepc = 16 := by
  decide +kernel

end Core

end Yarv
