import Yarv.Interp

/-!
# The pipeline runs the interpreter

One cycle of the core with its D-mem and silent interrupt lines, seen from the interpreter: it commits the instruction
at the PC, enters its trap, or changes nothing software sees.
-/

namespace Yarv

open Clocked ExecuteStage ByteMem

/-! ### Where a result comes from -/

/-- What writes back from memory reads it, what writes back from a CSR is a CSR instruction. -/
def Dec.Routed (d : Dec) : Prop := (d.wbSrc = .mem → d.memRead = true) ∧ (d.wbSrc = .csr → d.csrWren = true)

section Tree

variable (w : Word)

private theorem routed_alu {d : Dec} (h : d.wbSrc = .alu) : d.Routed :=
  ⟨fun hm => WbSrc.noConfusion (h.symm.trans hm), fun hc => WbSrc.noConfusion (h.symm.trans hc)⟩

private theorem routed_link {d : Dec} (h : d.wbSrc = .pc4) : d.Routed :=
  ⟨fun hm => WbSrc.noConfusion (h.symm.trans hm), fun hc => WbSrc.noConfusion (h.symm.trans hc)⟩

private theorem routed_ite {c : Prop} [Decidable c] {d e : Dec} (hd : d.Routed) (he : e.Routed) :
    (if c then d else e).Routed := by
  by_cases h : c
  · rwa [if_pos h]
  · rwa [if_neg h]

private theorem decLoad_routed : (decLoad w).Routed := by
  unfold decLoad
  split_ifs <;> exact ⟨fun _ => rfl, fun h => WbSrc.noConfusion h⟩

private theorem decAmo_routed : (decAmo w).Routed := by
  unfold decAmo
  exact routed_ite ⟨fun _ => rfl, fun h => WbSrc.noConfusion h⟩ (routed_alu rfl)

private theorem decOpImm_routed : (decOpImm w).Routed := by
  obtain ⟨o, b, -, he⟩ := decOpImm_eq w
  rw [he]
  exact routed_alu rfl

private theorem decSystem_routed : (decSystem w).Routed := by
  unfold decSystem
  refine routed_ite ?_ ?_
  · unfold decCsr
    split_ifs <;> exact ⟨fun h => WbSrc.noConfusion h, fun _ => rfl⟩
  · unfold decPriv
    split_ifs <;> exact routed_alu rfl

private theorem opcodeTree_routed : (opcodeTree w).Routed := by
  unfold opcodeTree
  refine routed_ite (routed_alu rfl) (routed_ite (routed_alu rfl) (routed_ite (routed_link rfl) ?_))
  refine routed_ite ?_ (routed_ite ?_ (routed_ite (decLoad_routed w) (routed_ite ?_ ?_)))
  · unfold decJalr
    exact routed_ite (routed_link rfl) (routed_alu rfl)
  · unfold decBranch
    split_ifs <;> exact routed_alu rfl
  · unfold decStore
    split_ifs <;> exact routed_alu rfl
  refine routed_ite (decOpImm_routed w) (routed_ite ?_ (routed_ite (decAmo_routed w) ?_))
  · unfold decOp
    exact routed_ite (routed_alu rfl) (routed_alu rfl)
  refine routed_ite (decSystem_routed w) (routed_ite ?_ (routed_alu rfl))
  unfold decMiscMem
  split_ifs <;> exact routed_alu rfl

end Tree

/-- What an instruction writes back comes from where it is. -/
structure De.Routed (d : De) : Prop where
  loads : d.Loads
  mem : d.exception = false → d.wbSrc = .mem → d.memRead = true
  csr : d.exception = false → d.wbSrc = .csr → d.csrWren = true

theorem De.Made.routed {d : De} (h : d.Made) : d.Routed := by
  obtain ⟨x, -, pr, -, hde⟩ := h
  have hmem : d.memRead = (!(opcodeTree x.src.instr32).illegal && (opcodeTree x.src.instr32).memRead) := by
    rw [hde]
    rfl
  have hreg : d.regWrite = (!(opcodeTree x.src.instr32).illegal && (opcodeTree x.src.instr32).regWrite) := by
    rw [hde]
    rfl
  have hcsr : d.csrWren = (!(opcodeTree x.src.instr32).illegal && (opcodeTree x.src.instr32).csrWren) := by
    rw [hde]
    rfl
  have hsrc : d.wbSrc = (opcodeTree x.src.instr32).wbSrc := by
    rw [hde]
    rfl
  have hlegal : d.exception = false → (opcodeTree x.src.instr32).illegal = false := by
    intro hx
    rw [hde] at hx
    simp only [Item.de, Bool.or_eq_false_iff] at hx
    exact hx.1.2
  refine ⟨fun hr => ?_, fun hx => ?_, fun hx => ?_⟩
  · rw [hmem, Bool.and_eq_true] at hr
    rw [hsrc, hreg, hr.1, Bool.true_and]
    exact opcodeTree_loads _ hr.2
  · rw [hsrc, hmem, hlegal hx]
    exact (opcodeTree_routed _).1
  · rw [hsrc, hcsr, hlegal hx]
    exact (opcodeTree_routed _).2

/-! ### Silent interrupt lines -/

/-- No interrupt source raises its line. -/
structure CoreIn.Silent (i : CoreIn) : Prop where
  msip : i.msip = false
  mtip : i.mtip = false
  meip : i.meip = false

/-- No interrupt is pending, enabled or not. -/
def Csrs.Low (r : Csrs) : Prop := ∀ b, b = 3 ∨ b = 7 ∨ b = 11 → r.mip.getLsbD b = false

/-- The CSRs that change on their own. -/
def Counts (b : BitVec 12) : Prop := b = csrAddrMcycle ∨ b = csrAddrMinstret

instance (b : BitVec 12) : Decidable (Counts b) := inferInstanceAs (Decidable (_ ∨ _))

private theorem Csrs.Low.pending {r : Csrs} (h : r.Low) : TrapUnit.intPending r.taps = false := by
  have hp : ∀ b, b = 3 ∨ b = 7 ∨ b = 11 → r.pending b = false := by
    intro b hb
    rw [Csrs.pending, h b hb, Bool.false_and]
  rw [intPending_eq, Csrs.firstPending]
  simp [hp]

/-- A tick under silent lines moves the counters only. -/
private theorem Csrs.Low.tick {r : Csrs} {i : CoreIn} (h : r.Low) (hi : i.Silent) (retire : Bool) {b : BitVec 12}
    (hb : ¬Counts b) : (r.tick i retire).read b = r.read b := by
  rw [Counts, not_or] at hb
  apply Csrs.read_ext
  case h8 =>
    intro _
    have h3 := h 3 (.inl rfl)
    have h7 := h 7 (.inr (.inl rfl))
    have h11 := h 11 (.inr (.inr rfl))
    simp only [Csrs.tick, hi.msip, hi.mtip, hi.meip]
    apply BitVec.eq_of_getLsbD_eq
    intro k hk
    rw [BitVec.getLsbD_append, BitVec.getLsbD_append, BitVec.getLsbD_append, BitVec.getLsbD_append,
      BitVec.getLsbD_append, BitVec.getLsbD_append]
    interval_cases k <;> simp_all
  case h9 => exact fun h => absurd h hb.1
  case h10 => exact fun h => absurd h hb.2
  all_goals exact fun _ => rfl

/-- The CSR file has nothing at other addresses. -/
private theorem Csrs.read_missing {b : BitVec 12} (hp : b ∉ plainCsrs) (hb : ¬Counts b) (r : Csrs) :
    r.read b = 0 := by
  simp only [plainCsrs, List.mem_cons, List.not_mem_nil, or_false, not_or] at hp
  rw [Counts, not_or] at hb
  simp [Csrs.read, hp, hb]

/-- The four CSRs an entry writes. -/
theorem Csrs.read_entry (r : Csrs) (pc cause tval ms : Word) (b : BitVec 12) :
    ({ r with mepc := pc, mcause := cause, mtval := tval, mstatus := ms } : Csrs).read b =
      Function.update
        (Function.update (Function.update (Function.update r.read csrAddrMepc pc) csrAddrMcause cause)
          csrAddrMtval tval)
        csrAddrMstatus ms b := by
  by_cases h1 : b = csrAddrMstatus
  · subst h1
    rfl
  by_cases h2 : b = csrAddrMtval
  · subst h2
    rfl
  by_cases h3 : b = csrAddrMcause
  · subst h3
    rfl
  by_cases h4 : b = csrAddrMepc
  · subst h4
    rfl
  rw [Function.update_of_ne h1, Function.update_of_ne h2, Function.update_of_ne h3, Function.update_of_ne h4]
  apply Csrs.read_ext
  case h0 => exact fun h => absurd h h1
  case h5 => exact fun h => absurd h h4
  case h6 => exact fun h => absurd h h3
  case h7 => exact fun h => absurd h h2
  all_goals exact fun _ => rfl

/-- The CSR an `mret` writes. -/
theorem Csrs.read_mret (r : Csrs) (ms : Word) (b : BitVec 12) :
    ({ r with mstatus := ms } : Csrs).read b = Function.update r.read csrAddrMstatus ms b := by
  by_cases h : b = csrAddrMstatus
  · subst h
    rfl
  rw [Function.update_of_ne h]
  apply Csrs.read_ext
  case h0 => exact fun hb => absurd hb h
  all_goals exact fun _ => rfl

namespace Core

variable {p : Params} {s : Core} {i : CoreIn} {img : Nat → BitVec 64} {boot : Word} {rf : RegFile}
  {inp : Nat → CoreIn}

private theorem low_run (h : s.IsReset boot img rf) (hi : ∀ t, (inp t).Silent) (t : Nat) :
    (trace (next p) s inp t).csr.regs.Low := by
  intro b hb
  cases t with
  | zero =>
    rw [trace_zero, h.csr]
    exact BitVec.getLsbD_zero
  | succ t =>
    rw [trace_succ, mip_line hb]
    rcases hb with rfl | rfl | rfl
    · exact (hi t).msip
    · exact (hi t).mtip
    · exact (hi t).meip

private theorem takeInterrupt_low (h : s.csr.regs.Low) : s.ex.takeInterrupt p (s.exIn i) = false := by
  have hp : (s.exIn i).intPending = false := h.pending
  rw [takeInterrupt, hp]
  rfl

/-! ### The CSR file in a cycle -/

/-- A cycle without an event leaves the CSRs alone. -/
private theorem csr_still (hl : s.csr.regs.Low) (hi : i.Silent) (he : s.entry p i = false)
    (hm : s.ex.mretReq (s.exIn i) = false) (hw : s.ex.csrWren p (s.exIn i) = false) {b : BitVec 12} (hb : ¬Counts b) :
    (s.next p i).csr.regs.read b = s.csr.regs.read b := by
  rw [regs_tick he hm hw, hl.tick hi _ hb]

/-- The trap port writes four CSRs in the cycle of an entry. -/
theorem regs_entry (h : s.Sane p) (he : s.entry p i = true) :
    (s.next p i).csr.regs =
      { s.csr.regs.tick i s.ex.exValidQ with
        mepc := s.ex.trapMepc (s.exIn i)
        mcause := s.ex.trapCause p (s.exIn i)
        mtval := s.ex.trapTval p (s.exIn i)
        mstatus := TrapUnit.setMstatus s.csr.regs.mstatus (s.csr.regs.mstatus.getLsbD 3) false } := by
  have hwr : ∀ a, CsrRegfile.wr (s.csrIn p i) a = false := by
    intro a
    have hin : (s.csrIn p i).csrWren = false := csrWren_of_entry h he
    rw [CsrRegfile.wr, hin, Bool.false_and]
  have hent : TrapUnit.entry (s.trapIn p i) = true := he
  have hms : (s.csrIn p i).trap.weMstatus = true := by
    have hdef : (s.csrIn p i).trap.weMstatus = (s.entry p i || s.ex.mretReq (s.exIn i)) := rfl
    rw [hdef, he, Bool.true_or]
  have h1 : (s.csrIn p i).trap.weMepc = true := he
  have h2 : (s.csrIn p i).trap.weMcause = true := he
  have h3 : (s.csrIn p i).trap.weMtval = true := he
  have hd : (s.csrIn p i).trap.dMstatus = TrapUnit.mstatusNew s.csr.regs.taps (s.trapIn p i) := rfl
  change CsrRegfile.regsD s.csr (s.csrIn p i) = _
  unfold CsrRegfile.regsD CsrRegfile.mstatusD CsrRegfile.mtvecD CsrRegfile.mipD
  simp only [hwr, hms, h1, h2, h3, hd, TrapUnit.mstatusNew, hent, Bool.false_eq_true, if_false, if_true]
  rfl

/-- It writes `mstatus` in the cycle of an `mret`. -/
theorem regs_mret (h : s.Sane p) (hm : s.ex.mretReq (s.exIn i) = true) :
    (s.next p i).csr.regs =
      { s.csr.regs.tick i s.ex.exValidQ with
        mstatus := TrapUnit.setMstatus s.csr.regs.mstatus true (s.csr.regs.mstatus.getLsbD 7) } := by
  have he : s.entry p i = false := by
    cases he : s.entry p i with
    | false => rfl
    | true =>
      rw [mretReq_of_entry h he] at hm
      cases hm
  have hwr : ∀ a, CsrRegfile.wr (s.csrIn p i) a = false := by
    intro a
    have hin : (s.csrIn p i).csrWren = false := by
      have htr : s.ex.trapRedirectReq p (s.exIn i) = true := by simp [trapRedirectReq, hm]
      have hval : s.ex.csrOpValid p (s.exIn i) = false := by simp [csrOpValid, htr]
      change s.ex.csrWren p (s.exIn i) = false
      unfold csrWren
      cases (s.exIn i).de.csrOp <;> simp [hval]
    rw [CsrRegfile.wr, hin, Bool.false_and]
  have hent : TrapUnit.entry (s.trapIn p i) = false := he
  have hret : (s.trapIn p i).mret = true := hm
  have hms : (s.csrIn p i).trap.weMstatus = true := by
    have hdef : (s.csrIn p i).trap.weMstatus = (s.entry p i || s.ex.mretReq (s.exIn i)) := rfl
    rw [hdef, hm, Bool.or_true]
  have h1 : (s.csrIn p i).trap.weMepc = false := he
  have h2 : (s.csrIn p i).trap.weMcause = false := he
  have h3 : (s.csrIn p i).trap.weMtval = false := he
  have hd : (s.csrIn p i).trap.dMstatus = TrapUnit.mstatusNew s.csr.regs.taps (s.trapIn p i) := rfl
  change CsrRegfile.regsD s.csr (s.csrIn p i) = _
  unfold CsrRegfile.regsD CsrRegfile.mstatusD CsrRegfile.mtvecD CsrRegfile.mipD
  simp only [hwr, hms, h1, h2, h3, hd, TrapUnit.mstatusNew, hent, hret, Bool.false_eq_true, if_false, if_true]
  rfl

/-- The registered read of a CSR instruction that waits for it. -/
private theorem read_run (h : s.IsReset boot img rf) (hi : ∀ t, (inp t).Silent) (t : Nat)
    (hw : (trace (next p) s inp t).ex.exStateQ = .csrWait) (hb : ¬Counts (trace (next p) s inp t).de.csrAddr) :
    (trace (next p) s inp t).csr.csrRdataQ =
      (trace (next p) s inp t).csr.regs.read (trace (next p) s inp t).de.csrAddr := by
  cases t with
  | zero =>
    rw [trace_zero, h.ex] at hw
    cases hw
  | succ t =>
    have hst := csr_starts (sane_run (p := p) h inp t) (csrStart_of_wait hw)
    rw [trace_succ] at hb ⊢
    rw [hst.de] at hb
    rw [hst.rdata, hst.de, hst.regs, (low_run (p := p) h hi t).tick (hi t) _ hb]

/-- The cycle in which a CSR instruction commits. -/
private theorem csr_rmw (h : s.Sane p) (hl : s.csr.regs.Low) (hi : i.Silent) (hf : s.csr.regs.Fixed)
    (hw : s.ex.exStateQ = .csrWait) (hc : ¬Counts s.de.csrAddr)
    (hr : s.csr.csrRdataQ = s.csr.regs.read s.de.csrAddr) {b : BitVec 12} (hb : ¬Counts b) :
    (s.next p i).csr.regs.read b =
      if s.de.csrAddr ∈ plainCsrs then
        Function.update s.csr.regs.read s.de.csrAddr
          (mergeCsr (csrMask s.de.csrAddr) (s.de.csrOp.written (s.csr.regs.read s.de.csrAddr) (csrSrc (ofDe s.de)))
            (s.csr.regs.read s.de.csrAddr)) b
      else s.csr.regs.read b := by
  obtain ⟨-, -, he, hm, -, hval⟩ := csr_commits (i := i) h hw
  have hport : s.de.csrOp.written (s.csr.regs.read s.de.csrAddr) (csrSrc (ofDe s.de)) =
      if s.ex.csrWren p (s.exIn i) then some (csrWdata (s.exIn i)) else none := by
    rw [← csrPort_eq hval, ← hr]
    rfl
  rw [hport]
  by_cases hba : b = s.de.csrAddr
  · subst hba
    rw [Function.update_self]
    by_cases hp : s.de.csrAddr ∈ plainCsrs
    · rw [if_pos hp]
      cases hwr : s.ex.csrWren p (s.exIn i) with
      | true => rw [if_pos rfl, regs_target he hm hf hwr hp, hl.tick hi _ hc]
      | false => exact csr_still hl hi he hm hwr hb
    · rw [if_neg hp, Csrs.read_missing hp hc, Csrs.read_missing hp hc]
  · rw [Function.update_of_ne hba, ite_self]
    have hwr : CsrRegfile.wr (s.csrIn p i) b = false := by
      have hsel : ((s.csrIn p i).csrAddr == b) = false := by
        rw [beq_eq_false_iff_ne]
        exact fun heq => hba heq.symm
      rw [CsrRegfile.wr, hsel, Bool.and_false]
    rw [regs_other he hm hwr, hl.tick hi _ hb]

/-! ### Results -/

/-- A division that commits has its answer. -/
private theorem div_of_commit (h : s.Sane p) (hk : s.de.HasKind .div) (hc : s.ex.opCommits p (s.exIn i) = true) :
    Alu.DivAt s.ex.alu (aluIn (s.exIn i) false) ∧ Alu.resultValid s.ex.alu (aluIn (s.exIn i) false) = true := by
  have hm : s.ex.mretReq (s.exIn i) = false := by
    have hmret : isMretOp (s.exIn i) = false := isMretOp_kind (i := s.exIn i) hk
    rw [mretReq, hmret, Bool.and_false]
  simp only [opCommits, hm, Bool.false_or, Bool.and_eq_true] at hc
  have hr := hc.1.2
  rw [resultReady_div (i := s.exIn i) hk, beq_iff_eq] at hr
  have hvalid : Alu.resultValid s.ex.alu (aluIn (s.exIn i) false) = true := by
    have hv := aluResultValid_div (q := s.ex) (i := s.exIn i) hk
    rw [hr] at hv
    exact hv
  cases h.ex with
  | divBusy _ _ _ _ div => exact ⟨div, hvalid⟩
  | idle _ alu =>
    rw [hr] at alu
    cases alu
  | csrWait _ _ kind => exact absurd (hk.unique kind) (by decide)
  | memLaunch _ _ kind => exact absurd (hk.unique kind) (by decide)
  | memTrap _ _ kind => exact absurd (hk.unique kind) (by decide)
  | memWait _ _ kind => exact absurd (hk.unique kind) (by decide)

/-- The ALU answers a commit with the operation of the ISA. -/
theorem alu_of_commit (h : s.Sane p) (hc : s.ex.opCommits p (s.exIn i) = true) :
    s.ex.aluResult p (s.exIn i) =
      s.de.aluOp.eval s.de.memShamt (operandA (ofDe s.de)) (operandB (ofDe s.de)) := by
  obtain ⟨k, hk⟩ := (h.fresh (valid_of_commit h hc)).kind
  have hdiv : Alu.isDivOp (aluIn (s.exIn i) false) = decide (k = .div) := isDivOp_kind (i := s.exIn i) hk
  by_cases hkd : k = .div
  · subst hkd
    obtain ⟨hat, hvalid⟩ := div_of_commit h hk hc
    exact hat.result (p := p) hvalid
  · rw [decide_eq_false hkd] at hdiv
    exact Alu.result_eq_of_not_div p s.ex.alu _ hdiv

/-- A misaligned trap is raised for a misaligned address. -/
theorem misaligned_of_trap (h : s.Sane p) (hm : s.ex.misalignedTrap p (s.exIn i) = true) :
    s.de.misaligned = true := by
  obtain ⟨hv, hk, -, -, -⟩ := misaligned_facts h hm
  have hlive : memMisalignedLive (ofDe s.de) = true := by
    have hparts := hm
    rw [misalignedTrap, Bool.and_eq_true] at hparts
    cases h.ex with
    | memTrap _ _ _ _ _ _ _ misaligned => exact misaligned
    | memLaunch state _ _ _ _ cap =>
      have hq : s.ex.memMisalignedQ (s.exIn i) = memMisalignedLive (ofDe s.de) :=
        memMisalignedQ_captured (i := s.exIn i) cap
      rw [← hq]
      have hsel := hparts.2
      rw [state] at hsel
      cases hp : p.lsuLiveLoad with
      | true => simp [hp] at hsel
      | false => simpa [hp] using hsel
    | idle state => simp [state] at hparts
    | divBusy _ _ kind => exact absurd (hk.unique kind) (by decide)
    | csrWait _ _ kind => exact absurd (hk.unique kind) (by decide)
    | memWait state => simp [state] at hparts
  have hal : ¬s.de.memSize.Aligned (effAddr s.de) := by
    rw [← de_aligned_iff hk, hlive]
    exact Bool.noConfusion
  have hmem : (s.de.memRead || s.de.memWrite) = true := hk.mem
  rw [De.misaligned, hmem, decide_eq_false hal]
  rfl

/-- A synchronous trap is one of the instruction in the D/E register. -/
theorem traps_of_sync (h : s.Sane p) (ht : s.ex.syncTrapReq p (s.exIn i) = true) :
    s.de.valid = true ∧ s.de.traps = true := by
  constructor
  · cases hv : s.de.valid with
    | true => rfl
    | false =>
      rw [(h.ex.bubble (i := s.exIn i) rfl hv).2.1] at ht
      cases ht
  · rw [De.traps]
    cases hmis : s.ex.misalignedTrap p (s.exIn i) with
    | true => rw [misaligned_of_trap h hmis, Bool.or_true]
    | false =>
      simp only [syncTrapReq, hmis, Bool.or_false, Bool.and_eq_true] at ht
      have hexc : s.de.exception = true := ht.2
      rw [hexc, Bool.true_or]

end Core

/-! ### The tie to the interpreter -/

namespace CoreMem

variable {p : Params} {img : Nat → BitVec 64} {a : Arch} {s : CoreMem} {i : CoreIn}

/-- The commit of a cycle, read off the wires. -/
def retireEv (p : Params) (s : CoreMem) (i : CoreIn) : Option Retired :=
  if s.core.ex.opCommits p (s.core.exIn (s.coreIn p i)) then
    some
      { pc := s.core.de.pc
        instr := s.core.de.instr
        reg :=
          if s.core.ex.wbEn p (s.core.exIn (s.coreIn p i)) then
            some (wbAddr (s.core.exIn (s.coreIn p i)), s.core.ex.wbData p (s.core.exIn (s.coreIn p i)))
          else none
        store := (Core.acceptEv p false s.core (s.coreIn p i)).filter (·.write) }
  else none

/-- The machine stands where the interpreter does. -/
structure Runs (p : Params) (img : Nat → BitVec 64) (a : Arch) (s : CoreMem) : Prop where
  pos : Core.At p img a.pc s.core
  regs : s.core.rf = a.regs
  csr : ∀ b, ¬Counts b → s.core.csr.regs.read b = a.csr b
  mem : ofWords 4 s.dmem.mem = a.mem

/-- What holds of the machine besides. -/
structure Ready (p : Params) (s : CoreMem) : Prop where
  served : Served p s
  low : s.core.csr.regs.Low
  fixed : s.core.csr.regs.Fixed
  read : s.core.ex.exStateQ = .csrWait → ¬Counts s.core.de.csrAddr →
    s.core.csr.csrRdataQ = s.core.csr.regs.read s.core.de.csrAddr

/-- The instruction in the D/E register is the one at the PC, with the operands of the interpreter. -/
theorem Runs.word (h : Runs p img a s) (hv : s.core.de.valid = true) : a.word p img = s.core.de.unpredicted := by
  obtain ⟨pr, -, hde, -⟩ := (h.pos.full hv).word
  obtain ⟨-, h1, h2, -⟩ := h.pos.sane.fresh hv
  have hi : s.core.de.instr = (itemAt p img a.pc).src.instr32 := by rw [hde]; rfl
  have hun : s.core.de.unpredicted =
      ((itemAt p img a.pc).de s.core.de.rs1Data s.core.de.rs2Data pr).unpredicted := congrArg De.unpredicted hde
  rw [hun, Arch.word, ← h.regs, ← hi, ← h1, ← h2]
  rfl

/-- `mret` returns to an even address. -/
private theorem Runs.evenMepc (h : Runs p img a s) (hs : a.Sound p img) : Core.EvenMepc s.core (s.coreIn p i) := by
  intro hm
  have hparts := hm
  simp only [mretReq, Bool.and_eq_true, isMretOp, beq_iff_eq] at hparts
  have hv : s.core.de.valid = true := hparts.1.1.1
  have hret : s.core.de.sysOp = .mret := hparts.2
  have hsys : (a.word p img).sysOp = .mret := by
    rw [h.word hv]
    exact hret
  have heven := hs.mret hsys
  rw [← h.csr _ (by decide)] at heven
  exact heven

/-- The address of a trapping instruction is the PC, unless it spans the end of the I-mem. -/
theorem Runs.pc (h : Runs p img a s) (hs : ¬SpanFault p img a.pc) (hv : s.core.de.valid = true) :
    s.core.de.pc = a.pc := by
  obtain ⟨pr, -, hde, -⟩ := (h.pos.full hv).word
  have hpc : s.core.de.pc = (itemAt p img a.pc).src.pc := by rw [hde]; rfl
  rw [hpc]
  cases hf : (itemAt p img a.pc).fault with
  | false => exact (itemAt_step h.pos.even hf).1
  | true =>
    rcases Core.fault_cases a.pc hf with ⟨-, he⟩ | ⟨hspan, -⟩
    · exact he
    · exact absurd hspan hs

theorem accessEv_of_not_commit (hc : s.core.ex.opCommits p (s.core.exIn (s.coreIn p i)) = false) :
    accessEv p s i = none := by
  rw [accessEv, hc]
  rfl

/-- A cycle without an event. -/
private theorem Runs.still (h : Runs p img a s) (hr : Ready p s) (hs : a.Sound p img) (hi : i.Silent)
    (he : s.core.entry p (s.coreIn p i) = false) (hc : s.core.ex.opCommits p (s.core.exIn (s.coreIn p i)) = false) :
    retireEv p s i = none ∧ Runs p img a (s.next p i) := by
  have hin : (s.coreIn p i).Silent := ⟨hi.msip, hi.mtip, hi.meip⟩
  have hm : s.core.ex.mretReq (s.core.exIn (s.coreIn p i)) = false := by
    rw [opCommits, Bool.or_eq_false_iff] at hc
    exact hc.1
  have hw : s.core.ex.csrWren p (s.core.exIn (s.coreIn p i)) = false := by
    rw [Bool.eq_false_iff]
    intro hw
    rw [opCommits_of_csrWren hw] at hc
    cases hc
  have hnext := h.pos.next (s.coreIn p i) (h.evenMepc hs)
  rw [Core.archPcNext, he, hc] at hnext
  refine ⟨by rw [retireEv, hc]; rfl, hnext, ?_, fun b hb => ?_, ?_⟩
  · rw [← h.regs]
    exact Core.next_rf_of_not_commit hc
  · rw [← h.csr b hb]
    exact Core.csr_still hr.low hin he hm hw hb
  · rw [← h.mem, bytes_next h.pos.sane, accessEv_of_not_commit hc]
    rfl

/-- The cycle of a trap. -/
private theorem Runs.enters (h : Runs p img a s) (hr : Ready p s) (hs : a.Sound p img) (hi : i.Silent)
    (he : s.core.entry p (s.coreIn p i) = true) :
    retireEv p s i = a.event p img () ∧ Runs p img (a.step p img ()) (s.next p i) := by
  have hin : (s.coreIn p i).Silent := ⟨hi.msip, hi.mtip, hi.meip⟩
  have hsane := h.pos.sane
  have hint : s.core.ex.takeInterrupt p (s.core.exIn (s.coreIn p i)) = false := Core.takeInterrupt_low hr.low
  have hsync : s.core.ex.syncTrapReq p (s.core.exIn (s.coreIn p i)) = true := by
    rw [Core.entry, hint, Bool.or_false] at he
    exact he
  have hm := Core.mretReq_of_entry hsane he
  have hc := (Core.quiet_of_entry hsane he).1
  obtain ⟨hv, hde⟩ := Core.traps_of_sync hsane hsync
  have hword := h.word hv
  have htraps : (a.word p img).traps = true := by
    rw [hword]
    exact hde
  have hstep : a.step p img () = a.enter s.core.de := by
    rw [Arch.step, if_pos htraps, hword]
    rfl
  have hhalt : s.core.ex.wfiHaltQ = false := by
    cases hh : s.core.ex.wfiHaltQ with
    | false => rfl
    | true =>
      have hpend : (s.core.exIn (s.coreIn p i)).intPending = false := hr.low.pending
      have hf : wfiStall s.core.ex (s.core.exIn (s.coreIn p i)) = true := by rw [wfiStall, hh, hpend]; rfl
      rw [(Core.frozen hsane hf).2.2] at he
      cases he
  have hmepc : s.core.ex.trapMepc (s.core.exIn (s.coreIn p i)) = a.pc := by
    rw [trapMepc, hhalt, if_neg Bool.false_ne_true]
    exact h.pc hs.span hv
  have hreport := Core.trapReport_sync hsane hsync
  have hnext := h.pos.next (s.coreIn p i) (h.evenMepc hs)
  rw [Core.archPcNext, he, if_pos rfl, Core.trapRedirectAddr_entry hm, Core.trapTarget_sync hsync] at hnext
  refine ⟨by rw [retireEv, hc, Arch.event, if_pos htraps]; rfl, ?_⟩
  rw [hstep]
  refine ⟨?_, ?_, fun b hb => ?_, ?_⟩
  · have htvec : s.core.csr.regs.mtvec = a.csr csrAddrMtvec := h.csr csrAddrMtvec (by decide)
    have hpc : Core.vector s.core.csr.regs none = (a.enter s.core.de).pc := by
      rw [Core.vector, htvec]
      exact BitVec.add_zero _
    rw [hpc] at hnext
    exact hnext
  · exact (Core.next_rf_of_not_commit hc).trans h.regs
  · have hms : s.core.csr.regs.mstatus = a.csr csrAddrMstatus := h.csr csrAddrMstatus (by decide)
    change (s.core.next p (s.coreIn p i)).csr.regs.read b = a.csrTrap (Core.syncReport s.core.de) b
    rw [Core.regs_entry hsane he, Csrs.read_entry, Arch.csrTrap, ← hreport, hmepc, hms]
    simp only [Function.update_apply]
    rw [hr.low.tick hin _ hb, h.csr b hb]
  · rw [bytes_next hsane, accessEv_of_not_commit hc]
    exact h.mem

/-- What a commit writes back. -/
private theorem Runs.value (h : Runs p img a s) (hr : Ready p s) (hs : a.InScope p img)
    (hc : s.core.ex.opCommits p (s.core.exIn (s.coreIn p i)) = true) :
    s.core.ex.wbData p (s.core.exIn (s.coreIn p i)) = a.result p s.core.de := by
  have hsane := h.pos.sane
  have hv := Core.valid_of_commit hsane hc
  have hword := h.word hv
  obtain ⟨hloads, hmem, hcsr⟩ := (h.pos.full hv).made.routed
  obtain ⟨k, hk⟩ := (hsane.fresh hv).kind
  have hx : s.core.de.exception = false := exception_of_commit (i := s.core.exIn (s.coreIn p i)) hsane.ex hk hc
  cases hsrc : s.core.de.wbSrc with
  | alu =>
    have hsel : (s.core.exIn (s.coreIn p i)).de.wbSrc = .alu := hsrc
    rw [wbData, hsel, Arch.result, hsrc]
    exact Core.alu_of_commit hsane hc
  | pc4 =>
    have hsel : (s.core.exIn (s.coreIn p i)).de.wbSrc = .pc4 := hsrc
    rw [wbData, hsel, Arch.result, hsrc]
    rfl
  | mem =>
    have hread := hmem hx hsrc
    have hop : isMemOp (s.core.exIn (s.coreIn p i)) = true := by
      change (s.core.de.memRead || s.core.de.memWrite) = true
      rw [hread, Bool.true_or]
    have hto : s.core.de.toPeri = false := by
      have hd := hs.dmem
      rw [hword] at hd
      exact hd hop
    have hev : accessEv p s i = some s.core.de := by
      rw [accessEv, hc, hop, hto]
      rfl
    rw [(load_commit hr.served hsane hloads hev hread).2, Arch.result, hsrc, h.mem]
  | csr =>
    have hwren := hcsr hx hsrc
    have hcount : ¬Counts s.core.de.csrAddr := by
      have hn := hs.counters
      rw [hword] at hn
      obtain ⟨h1, h2⟩ := hn hwren
      exact not_or.mpr ⟨h1, h2⟩
    have hsel : (s.core.exIn (s.coreIn p i)).de.wbSrc = .csr := hsrc
    rw [wbData, hsel, Arch.result, hsrc, ← h.csr _ hcount]
    exact hr.read (Core.wait_of_commit hsane hc hwren) hcount

/-- The CSRs behind a commit. -/
private theorem Runs.csrs (h : Runs p img a s) (hr : Ready p s) (hs : a.InScope p img) (hi : i.Silent)
    (hc : s.core.ex.opCommits p (s.core.exIn (s.coreIn p i)) = true) {b : BitVec 12} (hb : ¬Counts b) :
    (s.core.next p (s.coreIn p i)).csr.regs.read b = a.csrNext s.core.de b := by
  have hin : (s.coreIn p i).Silent := ⟨hi.msip, hi.mtip, hi.meip⟩
  have hsane := h.pos.sane
  have hv := Core.valid_of_commit hsane hc
  have hword := h.word hv
  have he : s.core.entry p (s.coreIn p i) = false := by
    cases he : s.core.entry p (s.coreIn p i) with
    | false => rfl
    | true =>
      rw [(Core.quiet_of_entry hsane he).1] at hc
      cases hc
  unfold Arch.csrNext
  by_cases hret : s.core.de.sysOp = .mret
  · have hms : s.core.csr.regs.mstatus = a.csr csrAddrMstatus := h.csr csrAddrMstatus (by decide)
    rw [if_pos hret, Core.regs_mret hsane (Core.mretReq_of_commit hsane hc hret), Csrs.read_mret, hms]
    simp only [Function.update_apply]
    rw [hr.low.tick hin _ hb, h.csr b hb]
  · rw [if_neg hret]
    have hm : s.core.ex.mretReq (s.core.exIn (s.coreIn p i)) = false := by
      have hsys : isMretOp (s.core.exIn (s.coreIn p i)) = false := beq_eq_false_iff_ne.mpr hret
      rw [mretReq, hsys, Bool.and_false]
    cases hwren : s.core.de.csrWren with
    | true =>
      have hcount : ¬Counts s.core.de.csrAddr := by
        have hn := hs.counters
        rw [hword] at hn
        obtain ⟨h1, h2⟩ := hn hwren
        exact not_or.mpr ⟨h1, h2⟩
      have hwait := Core.wait_of_commit hsane hc hwren
      rw [Core.csr_rmw hsane hr.low hin hr.fixed hwait hcount (hr.read hwait hcount) hb, h.csr _ hcount]
      by_cases hp : s.core.de.csrAddr ∈ plainCsrs
      · rw [if_pos hp, if_pos ⟨rfl, hp⟩]
        simp only [Function.update_apply]
        rw [h.csr b hb]
      · rw [if_neg hp, if_neg fun hx => hp hx.2, h.csr b hb]
    | false =>
      have hw : s.core.ex.csrWren p (s.core.exIn (s.coreIn p i)) = false := by
        have hval : s.core.ex.csrOpValid p (s.core.exIn (s.coreIn p i)) = false := by simp [csrOpValid, hwren]
        unfold csrWren
        cases (s.core.exIn (s.coreIn p i)).de.csrOp <;> simp [hval]
      rw [if_neg fun hx => Bool.false_ne_true hx.1, Core.csr_still hr.low hin he hm hw hb, h.csr b hb]

/-- The store of a commit is the request of its instruction. -/
private theorem Runs.store (h : Runs p img a s) (hs : a.InScope p img)
    (hc : s.core.ex.opCommits p (s.core.exIn (s.coreIn p i)) = true) :
    (Core.acceptEv p false s.core (s.coreIn p i)).filter (·.write) =
      if s.core.de.memWrite then some s.core.de.request else none := by
  have hsane := h.pos.sane
  have hv := Core.valid_of_commit hsane hc
  have hword := h.word hv
  obtain ⟨k, hk⟩ := (hsane.fresh hv).kind
  by_cases hkm : k = .mem
  · subst hkm
    have hone : (s.core.de.memRead && s.core.de.memWrite) = false := hk.one
    have hto : s.core.de.toPeri = false := by
      have hd := hs.dmem
      rw [hword] at hd
      exact hd hk.mem
    rw [opCommits_mem (i := s.core.exIn (s.coreIn p i)) hsane.ex hk rfl hv] at hc
    rw [Core.acceptEv_mem hsane hk, hto]
    rcases Core.access_cycle (i := s.coreIn p i) hsane hk with ⟨-, hd, -⟩ | ⟨hwait, h1, h2, -⟩
    · rw [hd, Bool.and_eq_true] at hc
      rw [hc.1, hc.2]
      change Option.filter (·.write) (some s.core.de.request) = some s.core.de.request
      have hwe : s.core.de.request.write = true := hc.2
      rw [Option.filter_some, hwe, if_pos rfl]
    · have hread := (hsane.waiting hwait).2.2.1
      rw [hread, Bool.true_and] at hone
      rw [h1, h2, hone]
      rfl
  · have hnot : ¬(s.core.de.valid = true ∧ s.core.de.HasKind .mem) := fun hm => hkm (hk.unique hm.2)
    have hmem := hk.mem
    rw [decide_eq_false hkm, Bool.or_eq_false_iff] at hmem
    rw [(Core.port_quiet (i := s.coreIn p i) hsane hnot false).1, hmem.2]
    rfl

/-- The bytes behind a commit. -/
private theorem Runs.bytes (h : Runs p img a s) (hs : a.InScope p img)
    (hc : s.core.ex.opCommits p (s.core.exIn (s.coreIn p i)) = true) :
    ofWords 4 (s.next p i).dmem.mem = s.core.de.storeTo p a.mem := by
  have hsane := h.pos.sane
  have hword := h.word (Core.valid_of_commit hsane hc)
  rw [bytes_next hsane, accessEv, hc, Bool.true_and]
  cases hop : isMemOp (s.core.exIn (s.coreIn p i)) with
  | true =>
    have hto : s.core.de.toPeri = false := by
      have hd := hs.dmem
      rw [hword] at hd
      exact hd hop
    rw [hto, ← h.mem]
    rfl
  | false =>
    have hw : s.core.de.memWrite = false := by
      have hx : (s.core.de.memRead || s.core.de.memWrite) = false := hop
      rw [Bool.or_eq_false_iff] at hx
      exact hx.2
    rw [De.storeTo, hw, if_neg Bool.false_ne_true, ← h.mem]
    rfl

/-- The cycle of a commit. -/
private theorem Runs.commits (h : Runs p img a s) (hr : Ready p s) (hs : a.InScope p img) (hok : a.Sound p img)
    (hi : i.Silent) (hc : s.core.ex.opCommits p (s.core.exIn (s.coreIn p i)) = true) :
    retireEv p s i = a.event p img () ∧ Runs p img (a.step p img ()) (s.next p i) := by
  have hsane := h.pos.sane
  have hv := Core.valid_of_commit hsane hc
  have hword := h.word hv
  have hkind := (hsane.fresh hv).kind
  have he : s.core.entry p (s.coreIn p i) = false := by
    cases he : s.core.entry p (s.coreIn p i) with
    | false => rfl
    | true =>
      rw [(Core.quiet_of_entry hsane he).1] at hc
      cases hc
  have hx : s.core.de.exception = false := by
    obtain ⟨k, hk⟩ := hkind
    exact exception_of_commit (i := s.core.exIn (s.coreIn p i)) hsane.ex hk hc
  have hal : s.core.de.misaligned = false := by
    rw [De.misaligned, Bool.and_eq_false_imp]
    intro hmem
    obtain ⟨k, hk⟩ := hkind
    obtain rfl : k = .mem := by
      rw [hk.mem, decide_eq_true_eq] at hmem
      exact hmem
    rw [Bool.not_eq_false', decide_eq_true_iff]
    by_contra hno
    rw [(misaligned_quiet (i := i) hsane hv hk hno).1] at hc
    cases hc
  have htraps : (a.word p img).traps = false := by
    rw [hword]
    change (s.core.de.exception || s.core.de.misaligned) = false
    rw [hx, hal]
    rfl
  have hstep : a.step p img () = a.retire p s.core.de := by
    rw [Arch.step, htraps, if_neg Bool.false_ne_true, hword]
    rfl
  have hvalue := h.value hr hs hc
  have hwb := Core.wbEn_of_commit hkind hc
  have hmepc : s.core.csr.regs.mepc = a.csr csrAddrMepc := h.csr csrAddrMepc (by decide)
  have hnext := h.pos.next (s.coreIn p i) (h.evenMepc hok)
  rw [Core.archPcNext, he, if_neg Bool.false_ne_true, hc, if_pos rfl, hmepc] at hnext
  refine ⟨?_, ?_⟩
  · rw [retireEv, hc, if_pos rfl, Arch.event, htraps, if_neg Bool.false_ne_true, hword, hwb, h.store hs hc, hvalue]
    rfl
  rw [hstep]
  refine ⟨hnext, ?_, fun b hb => h.csrs hr hs hi hc hb, h.bytes hs hc⟩
  change (s.core.next p (s.coreIn p i)).rf = a.regs.next s.core.de.regWrite s.core.de.rd (a.result p s.core.de)
  rw [Core.next_rf, hwb, hvalue, h.regs]
  rfl

/-! ### Runs -/

variable {boot : Word} {rf : RegFile} {inp : Nat → CoreIn}

/-- The side facts hold in every run. -/
private theorem ready_run (h : s.IsReset boot img rf) (hi : ∀ t, (inp t).Silent) (t : Nat) :
    Ready p (trace (next p) s inp t) := by
  have hin : ∀ t, ((trace (next p) s inp t).coreIn p (inp t)).Silent :=
    fun t => ⟨(hi t).msip, (hi t).mtip, (hi t).meip⟩
  refine ⟨served_run h t, ?_, ?_, ?_⟩
  · rw [core_run]
    exact Core.low_run h.core hin t
  · rw [core_run]
    exact Core.fixed_run h.core t
  · rw [core_run]
    exact Core.read_run h.core hin t

private theorem IsReset.runs (h : s.IsReset boot img rf) (hb : boot.getLsbD 0 = false) :
    Runs p img (Arch.reset boot rf (ofWords 4 s.dmem.mem)) s := by
  refine ⟨h.core.at hb, h.core.rf, fun b _ => ?_, rfl⟩
  rw [h.core.csr]
  rfl

/-- A cycle is a step of the interpreter, or nothing to it. -/
private theorem Runs.cycle (h : Runs p img a s) (hr : Ready p s) (hs : a.InScope p img) (hok : a.Sound p img)
    (hi : i.Silent) :
    retireEv p s i = none ∧ Runs p img a (s.next p i) ∨
      retireEv p s i = a.event p img () ∧ Runs p img (a.step p img ()) (s.next p i) := by
  cases he : s.core.entry p (s.coreIn p i) with
  | true => exact .inr (h.enters hr hok hi he)
  | false =>
    cases hc : s.core.ex.opCommits p (s.core.exIn (s.coreIn p i)) with
    | true => exact .inr (h.commits hr hs hok hi hc)
    | false => exact .inl (h.still hr hok hi he hc)

/-- What a run commits is what the interpreter commits. -/
theorem retire_run (h : s.IsReset boot img rf) (hb : boot.getLsbD 0 = false) (hi : ∀ t, (inp t).Silent)
    (ha : a = Arch.reset boot rf (ofWords 4 s.dmem.mem)) (t : Nat)
    (hs : ∀ k < t, (a.run p img k).InScope p img ∧ (a.run p img k).Sound p img) :
    ∃ k ≤ t, Runs p img (a.run p img k) (trace (next p) s inp t) ∧
      logFrom (retireEv p) (next p) s inp 0 t = a.commits p img k := by
  subst ha
  refine exists_refined (h.runs hb) t fun u hu k hk hruns => ?_
  obtain ⟨hscope, hok⟩ := hs k (by omega)
  exact hruns.cycle (ready_run h hi u) hscope hok (hi u)

end CoreMem

end Yarv
