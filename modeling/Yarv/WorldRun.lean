import Yarv.World
import Yarv.Refinement

/-!
# The pipeline in its surroundings

The core with its D-mem under any interrupt lines and any peripheral port, for every program.  `Tracks` ties it to the
interpreter; a cycle with a commit, a trap or an interrupt is one step of the interpreter, which takes from outside
what the core takes from its wires in that cycle (`outsideEv`).
-/

namespace Yarv

open Clocked ExecuteStage ByteMem

/-! ### The CSR file -/

/-- A tick leaves the other CSRs alone. -/
private theorem Csrs.tick_stable (r : Csrs) (i : CoreIn) (retire : Bool) {b : BitVec 12} (hb : ¬Volatile b) :
    (r.tick i retire).read b = r.read b := by
  rw [Volatile, not_or, not_or] at hb
  apply Csrs.read_ext
  case h8 => exact fun h => absurd h hb.1
  case h9 => exact fun h => absurd h hb.2.1
  case h10 => exact fun h => absurd h hb.2.2
  all_goals exact fun _ => rfl

/-- There are no other CSRs. -/
private theorem Csrs.read_unstable {b : BitVec 12} (hs : ¬Stable b) (hb : ¬Volatile b) (r : Csrs) : r.read b = 0 := by
  simp only [Stable, not_or] at hs
  rw [Volatile, not_or, not_or] at hb
  simp [Csrs.read, hs, hb]

private theorem mem_plainCsrs {b : BitVec 12} (h : Stable b) : b ∈ plainCsrs ∧ ¬Volatile b := by
  unfold Stable at h
  rcases h with rfl | rfl | rfl | rfl | rfl | rfl | rfl | rfl <;> decide

namespace Core

variable {p : Params} {s : Core} {i : CoreIn} {img : Nat → BitVec 64} {boot : Word} {rf : RegFile}
  {inp : Nat → CoreIn}

/-- The registered read of a CSR instruction that waits for it. -/
private theorem read_stable (h : s.IsReset boot img rf) (inp : Nat → CoreIn) (t : Nat)
    (hw : (trace (next p) s inp t).ex.exStateQ = .csrWait) (hb : ¬Volatile (trace (next p) s inp t).de.csrAddr) :
    (trace (next p) s inp t).csr.csrRdataQ =
      (trace (next p) s inp t).csr.regs.read (trace (next p) s inp t).de.csrAddr := by
  cases t with
  | zero =>
    rw [trace_zero, h.ex] at hw
    cases hw
  | succ t =>
    have hst := csr_starts (sane_run (p := p) h inp t) (csrStart_of_wait hw)
    rw [trace_succ] at hb ⊢
    rw [hst.de] at hb
    rw [hst.rdata, hst.de, hst.regs, Csrs.tick_stable _ _ _ hb]

/-- The cycle in which a CSR instruction commits, seen in the CSRs that change by instructions only. -/
private theorem rmw_stable (h : s.Sane p) (hf : s.csr.regs.Fixed) (hw : s.ex.exStateQ = .csrWait)
    (hr : ¬Volatile s.de.csrAddr → s.csr.csrRdataQ = s.csr.regs.read s.de.csrAddr) {b : BitVec 12}
    (hb : ¬Volatile b) :
    (s.next p i).csr.regs.read b =
      if Stable s.de.csrAddr then
        Function.update s.csr.regs.read s.de.csrAddr
          (mergeCsr (csrMask s.de.csrAddr) (s.de.csrOp.written (s.csr.regs.read s.de.csrAddr) (csrSrc (ofDe s.de)))
            (s.csr.regs.read s.de.csrAddr)) b
      else s.csr.regs.read b := by
  obtain ⟨-, -, he, hm, -, hval⟩ := csr_commits (i := i) h hw
  by_cases hba : b = s.de.csrAddr
  · subst hba
    rw [Function.update_self]
    by_cases hs : Stable s.de.csrAddr
    · have hport : s.de.csrOp.written (s.csr.regs.read s.de.csrAddr) (csrSrc (ofDe s.de)) =
          if s.ex.csrWren p (s.exIn i) then some (csrWdata (s.exIn i)) else none := by
        rw [← csrPort_eq hval, ← hr hb]
        rfl
      rw [if_pos hs, hport]
      cases hwr : s.ex.csrWren p (s.exIn i) with
      | true => rw [if_pos rfl, regs_target he hm hf hwr (mem_plainCsrs hs).1, Csrs.tick_stable _ _ _ hb]
      | false =>
        rw [regs_tick he hm hwr, Csrs.tick_stable _ _ _ hb]
        rfl
    · rw [if_neg hs, Csrs.read_unstable hs hb, Csrs.read_unstable hs hb]
  · rw [Function.update_of_ne hba, ite_self]
    have hwr : CsrRegfile.wr (s.csrIn p i) b = false := by
      have hsel : ((s.csrIn p i).csrAddr == b) = false := by
        rw [beq_eq_false_iff_ne]
        exact fun heq => hba heq.symm
      rw [CsrRegfile.wr, hsel, Bool.and_false]
    rw [regs_other he hm hwr, Csrs.tick_stable _ _ _ hb]

/-- A cycle without an event leaves the other CSRs alone. -/
theorem csr_of_still (he : s.entry p i = false) (hc : s.ex.opCommits p (s.exIn i) = false) {b : BitVec 12}
    (hb : ¬Volatile b) : (s.next p i).csr.regs.read b = s.csr.regs.read b := by
  have hm : s.ex.mretReq (s.exIn i) = false := by
    rw [opCommits, Bool.or_eq_false_iff] at hc
    exact hc.1
  have hw : s.ex.csrWren p (s.exIn i) = false := by
    rw [Bool.eq_false_iff]
    intro hw
    rw [opCommits_of_csrWren hw] at hc
    cases hc
  rw [regs_tick he hm hw, Csrs.tick_stable _ _ _ hb]

/-- A WFI that retires outside a halt commits. -/
private theorem commit_of_wfiRetire (h : s.Sane p) (hr : s.ex.wfiRetire p (s.exIn i) = true)
    (hf : wfiStall s.ex (s.exIn i) = false) : s.ex.opCommits p (s.exIn i) = true := by
  simp only [wfiRetire, Bool.and_eq_true, Bool.not_eq_true', isWfiOp, beq_iff_eq] at hr
  obtain ⟨⟨⟨⟨hv, -⟩, hw⟩, ht⟩, -⟩ := hr
  obtain ⟨k, hk⟩ := (h.fresh hv).kind
  have hsys : s.de.sysOp = .wfi := hw
  obtain rfl : k = .wfi := by simpa [hsys] using hk.wfi
  have hready : resultReady p s.ex (s.exIn i) = true := by
    have hdiv : Alu.isDivOp (aluIn (s.exIn i) false) = false := isDivOp_kind (i := s.exIn i) hk
    simp [resultReady, isMemOp_kind (i := s.exIn i) hk, isCsrOp_kind (i := s.exIn i) hk, aluResultValid,
      Alu.resultValid, hdiv]
  exact opCommits_of_ready (i := s.exIn i) hv (by simp [freeze, hf]) hready ht

/-- A core halts behind a WFI that commits, or stays halted. -/
theorem halted_next (h : s.Sane p) (hh : (s.next p i).ex.wfiHaltQ = true) :
    wfiStall s.ex (s.exIn i) = true ∨
      s.ex.opCommits p (s.exIn i) = true ∧ s.entry p i = false ∧ s.de.sysOp = .wfi := by
  have hor : (s.ex.wfiRetire p (s.exIn i) || wfiStall s.ex (s.exIn i)) = true := hh
  cases hf : wfiStall s.ex (s.exIn i) with
  | true => exact .inl rfl
  | false =>
    rw [hf, Bool.or_false] at hor
    have hparts := hor
    simp only [wfiRetire, Bool.and_eq_true, Bool.not_eq_true', isWfiOp, beq_iff_eq, trapRedirectReq,
      Bool.or_eq_false_iff] at hparts
    exact .inr ⟨commit_of_wfiRetire h hor hf, by rw [entry, hparts.1.2.1.1, hparts.1.2.2]; rfl, hparts.1.1.2⟩

/-- A load that commits is waiting for its data. -/
theorem waiting_of_commit (h : s.Sane p) (hc : s.ex.opCommits p (s.exIn i) = true) (hr : s.de.memRead = true) :
    s.ex.exStateQ = .memWait ∧ s.de.HasKind .mem := by
  have hv := valid_of_commit h hc
  obtain ⟨k, hk⟩ := (h.fresh hv).kind
  obtain rfl : k = .mem := by
    have hmem := hk.mem
    rw [hr, Bool.true_or] at hmem
    exact of_decide_eq_true hmem.symm
  rw [opCommits_mem (i := s.exIn i) h.ex hk rfl hv] at hc
  rcases access_cycle (i := i) h hk with ⟨-, hd, -⟩ | ⟨hwait, -⟩
  · have hone : (s.de.memRead && s.de.memWrite) = false := hk.one
    rw [hr, Bool.true_and] at hone
    rw [hc, hone, Bool.and_false] at hd
    cases hd
  · exact ⟨hwait, hk⟩

/-- What a load from the peripheral port writes back. -/
private theorem peri_load (h : s.Sane p) (hc : s.ex.opCommits p (s.exIn i) = true) (hr : s.de.memRead = true)
    (hp : s.de.toPeri = true) (hsrc : s.de.wbSrc = .mem) :
    s.ex.wbData p (s.exIn i) = portValue i.periRsp.rdata (effAddr s.de) s.de.memSize s.de.memUnsigned := by
  obtain ⟨hwait, hk⟩ := waiting_of_commit h hc hr
  obtain ⟨-, hcap, -, -⟩ := h.waiting hwait
  have hperi : s.ex.memIsPeriQ = true := (toPeri_captured hk hcap).trans hp
  have haddr : s.ex.memAddrQ = effAddr s.de := hcap.addr.trans (lsuEa_eq hk)
  have hrsp : lsuRspWait s.ex (s.exIn i) = i.periRsp := by
    rw [lsuRspWait, hperi, if_pos rfl]
    rfl
  have hshift : loadShifted s.ex (s.exIn i) = i.periRsp.rdata >>> (8 * ((effAddr s.de).toNat % 4)) := by
    rw [loadShifted, hrsp, haddr, BitVec.ushiftRight_eq', laneShift_toNat]
  have hsel : (s.exIn i).de.wbSrc = .mem := hsrc
  rw [wbData, hsel]
  change loadData s.ex (s.exIn i) = _
  rw [loadData, hshift, hrsp]
  rfl

end Core

/-! ### The tie to the interpreter -/

namespace CoreMem

variable {p : Params} {img : Nat → BitVec 64} {a : Arch} {s : CoreMem} {i : CoreIn}

/-- What a cycle shows, read off the wires. -/
def eventEv (p : Params) (s : CoreMem) (i : CoreIn) : Option Event :=
  if s.core.ex.takeInterrupt p (s.core.exIn (s.coreIn p i)) then
    some
      (.interrupt (s.core.ex.trapMepc (s.core.exIn (s.coreIn p i)))
      (s.core.ex.trapCause p (s.core.exIn (s.coreIn p i))))
  else if s.core.ex.syncTrapReq p (s.core.exIn (s.coreIn p i)) then
    some (.trap (s.core.ex.trapMepc (s.core.exIn (s.coreIn p i))) (s.core.ex.trapCause p (s.core.exIn (s.coreIn p i)))
      (s.core.ex.trapTval p (s.core.exIn (s.coreIn p i))))
  else if s.core.ex.opCommits p (s.core.exIn (s.coreIn p i)) then
    some (.commit
      { pc := s.core.de.pc
        instr := s.core.de.instr
        reg :=
          if s.core.ex.wbEn p (s.core.exIn (s.coreIn p i)) then
            some (wbAddr (s.core.exIn (s.coreIn p i)), s.core.ex.wbData p (s.core.exIn (s.coreIn p i)))
          else none
        access := s.core.de.access })
  else none

/-- What a cycle with an event takes from outside. -/
def outsideEv (p : Params) (s : CoreMem) (i : CoreIn) : Option Outside :=
  if s.core.entry p (s.coreIn p i) || s.core.ex.opCommits p (s.core.exIn (s.coreIn p i)) then
    some
      { irq := if s.core.ex.takeInterrupt p (s.core.exIn (s.coreIn p i)) then s.core.csr.regs.firstPending else none
        peri := i.periRsp.rdata
        csr := s.core.csr.csrRdataQ }
  else none

/-- What an instruction takes from outside that commits. -/
def outside (s : CoreMem) (i : CoreIn) : Outside := ⟨none, i.periRsp.rdata, s.core.csr.csrRdataQ⟩

/-- The machine stands where the interpreter does. -/
structure Tracks (p : Params) (img : Nat → BitVec 64) (a : Arch) (s : CoreMem) : Prop where
  pos : Core.At p img a.pc s.core
  regs : s.core.rf = a.regs
  csr : ∀ b, ¬Volatile b → s.core.csr.regs.read b = a.csr b
  mem : ofWords 4 s.dmem.mem = a.mem
  /-- A halt has stopped behind a WFI, in front of something else. -/
  halt : s.core.ex.wfiHaltQ = true → s.core.ex.wfiNextPcQ = a.pc ∧ (a.word p img).sysOp ≠ .wfi

/-- The registers, the CSRs that only instructions and entries change and the bytes are those of `a`. -/
structure Carries (p : Params) (a : Arch) (s : CoreMem) : Prop where
  sane : s.core.Sane p
  made : s.core.de.valid = true → s.core.de.Made
  regs : s.core.rf = a.regs
  csr : ∀ b, ¬Volatile b → s.core.csr.regs.read b = a.csr b
  mem : ofWords 4 s.dmem.mem = a.mem

theorem Tracks.carries (h : Tracks p img a s) : Carries p a s :=
  ⟨h.pos.sane, fun hv => (h.pos.full hv).made, h.regs, h.csr, h.mem⟩

/-- What holds of the machine besides. -/
structure Steady (p : Params) (s : CoreMem) : Prop where
  served : Served p s
  fixed : s.core.csr.regs.Fixed
  read : s.core.ex.exStateQ = .csrWait → ¬Volatile s.core.de.csrAddr →
    s.core.csr.csrRdataQ = s.core.csr.regs.read s.core.de.csrAddr

/-- The instruction in the D/E register is the one at the PC, with the operands of the interpreter. -/
theorem Tracks.word (h : Tracks p img a s) (hv : s.core.de.valid = true) : a.word p img = s.core.de.unpredicted := by
  -- The tie at the registers and the PC is that of `Runs`; the CSRs and the bytes play no role.
  have hr : Runs p img { a with csr := s.core.csr.regs.read, mem := ofWords 4 s.dmem.mem } s :=
    ⟨h.pos, h.regs, fun _ _ => rfl, rfl⟩
  exact hr.word hv

/-- `mret` returns to an even address. -/
private theorem Tracks.evenMepc (h : Tracks p img a s) (hs : a.Regular p img) :
    Core.EvenMepc s.core (s.coreIn p i) := by
  intro hm
  have hparts := hm
  simp only [mretReq, Bool.and_eq_true, isMretOp, beq_iff_eq] at hparts
  have hv : s.core.de.valid = true := hparts.1.1.1
  have hret : s.core.de.sysOp = .mret := hparts.2
  have hsys : (a.word p img).sysOp = .mret := by
    rw [h.word hv]
    exact hret
  have heven := hs.mret hsys
  rw [← h.csr _ (by decide)] at heven
  exact heven

/-- No WFI is parked behind the one that has halted the core. -/
private theorem Tracks.not_parked (h : Tracks p img a s) : ¬Core.ParkedWfi s.core (s.coreIn p i) := by
  rintro ⟨hf, hv, hw⟩
  have hhalt : s.core.ex.wfiHaltQ = true := by
    rw [wfiStall, Bool.and_eq_true] at hf
    exact hf.1
  apply (h.halt hhalt).2
  rw [h.word hv]
  exact hw

/-- The position an entry saves is the PC. -/
private theorem Tracks.mepc (h : Tracks p img a s) (hs : a.Regular p img)
    (hv : s.core.ex.wfiHaltQ = false → s.core.de.valid = true) :
    s.core.ex.trapMepc (s.core.exIn (s.coreIn p i)) = a.pc := by
  rw [trapMepc]
  cases hh : s.core.ex.wfiHaltQ with
  | true =>
    rw [if_pos rfl]
    exact (h.halt hh).1
  | false =>
    rw [if_neg Bool.false_ne_true]
    have hr : Runs p img { a with csr := s.core.csr.regs.read, mem := ofWords 4 s.dmem.mem } s :=
      ⟨h.pos, h.regs, fun _ _ => rfl, rfl⟩
    exact hr.pc hs.span (hv hh)

/-- A cycle without an event. -/
private theorem Tracks.still (h : Tracks p img a s) (hs : a.Regular p img)
    (he : s.core.entry p (s.coreIn p i) = false) (hc : s.core.ex.opCommits p (s.core.exIn (s.coreIn p i)) = false) :
    outsideEv p s i = none ∧ eventEv p s i = none ∧ Tracks p img a (s.next p i) := by
  have hparts := he
  rw [Core.entry, Bool.or_eq_false_iff] at hparts
  have hpc : Core.archPcNext p a.pc s.core (s.coreIn p i) = a.pc := by
    rw [Core.archPcNext, he, hc]
    rfl
  have hnext := h.pos.next (s.coreIn p i) (h.evenMepc hs)
  rw [hpc] at hnext
  refine ⟨by rw [outsideEv, he, hc]; rfl, by rw [eventEv, hparts.1, hparts.2, hc]; rfl, hnext, ?_,
    fun b hb => ?_, ?_, ?_⟩
  · rw [← h.regs]
    exact Core.next_rf_of_not_commit hc
  · rw [← h.csr b hb]
    exact Core.csr_of_still he hc hb
  · rw [← h.mem, bytes_next h.pos.sane, accessEv_of_not_commit hc]
    rfl
  · intro hh
    rcases Core.halted_next h.pos.sane hh with hstall | ⟨hcom, -⟩
    · have hhalt : s.core.ex.wfiHaltQ = true := by
        rw [wfiStall, Bool.and_eq_true] at hstall
        exact hstall.1
      have hkeep := Core.halt_next h.pos (fun hq => (h.halt hq).1) h.not_parked hh
      rw [hpc] at hkeep
      exact ⟨hkeep, (h.halt hhalt).2⟩
    · rw [hcom] at hc
      cases hc

/-- An entry leaves no halt behind. -/
private theorem no_halt_of_entry (hs : s.core.Sane p) (he : s.core.entry p (s.coreIn p i) = true) :
    (s.next p i).core.ex.wfiHaltQ = false := by
  rw [Bool.eq_false_iff]
  intro hh
  rcases Core.halted_next hs hh with hf | ⟨-, hno, -⟩
  · rw [(Core.frozen hs hf).2.2] at he
    cases he
  · rw [hno] at he
    cases he

/-- What an entry makes of the state, for the cause and the vector it has. -/
private theorem Tracks.enters (h : Tracks p img a s) (hs : a.Regular p img)
    (he : s.core.entry p (s.coreIn p i) = true) {target : Word}
    (hpc : s.core.ex.trapMepc (s.core.exIn (s.coreIn p i)) = a.pc)
    (htarget : TrapUnit.trapTarget s.core.csr.regs.taps (s.core.trapIn p (s.coreIn p i)) = target) :
    Tracks p img
      { a with
        pc := target
        csr := a.csrTrap (s.core.ex.trapCause p (s.core.exIn (s.coreIn p i)),
          s.core.ex.trapTval p (s.core.exIn (s.coreIn p i))) }
      (s.next p i) := by
  have hsane := h.pos.sane
  have hc := (Core.quiet_of_entry hsane he).1
  have hnext := h.pos.next (s.coreIn p i) (h.evenMepc hs)
  rw [Core.archPcNext, he, if_pos rfl, Core.trapRedirectAddr_entry (Core.mretReq_of_entry hsane he), htarget] at hnext
  refine ⟨hnext, ?_, fun b hb => ?_, ?_, fun hh => ?_⟩
  · exact (Core.next_rf_of_not_commit hc).trans h.regs
  · have hms : s.core.csr.regs.mstatus = a.csr csrAddrMstatus := h.csr csrAddrMstatus (by decide)
    change (s.core.next p (s.coreIn p i)).csr.regs.read b = a.csrTrap _ b
    rw [Core.regs_entry hsane he, Csrs.read_entry, Arch.csrTrap, hpc, hms]
    simp only [Function.update_apply]
    rw [Csrs.tick_stable _ _ _ hb, h.csr b hb]
  · rw [bytes_next hsane, accessEv_of_not_commit hc]
    exact h.mem
  · rw [no_halt_of_entry hsane he] at hh
    cases hh

/-- The cycle of a trap. -/
private theorem Tracks.traps (h : Tracks p img a s) (hs : a.Regular p img)
    (hsync : s.core.ex.syncTrapReq p (s.core.exIn (s.coreIn p i)) = true) :
    ∃ o, o.irq = none ∧ outsideEv p s i = some o ∧ eventEv p s i = some (a.eventOn p img o) ∧
      Tracks p img (a.stepOn p img o) (s.next p i) := by
  have hsane := h.pos.sane
  have he : s.core.entry p (s.coreIn p i) = true := by rw [Core.entry, hsync, Bool.true_or]
  have hint : s.core.ex.takeInterrupt p (s.core.exIn (s.coreIn p i)) = false := by simp [takeInterrupt, hsync]
  obtain ⟨hv, hde⟩ := Core.traps_of_sync hsane hsync
  have hword := h.word hv
  have htraps : (a.word p img).traps = true := by
    rw [hword]
    exact hde
  have hpc := h.mepc (i := i) hs fun _ => hv
  have hreport : Core.syncReport (a.word p img) =
      (s.core.ex.trapCause p (s.core.exIn (s.coreIn p i)), s.core.ex.trapTval p (s.core.exIn (s.coreIn p i))) := by
    rw [Core.trapReport_sync hsane hsync, hword]
    rfl
  have htvec : s.core.csr.regs.mtvec = a.csr csrAddrMtvec := h.csr csrAddrMtvec (by decide)
  have htarget : TrapUnit.trapTarget s.core.csr.regs.taps (s.core.trapIn p (s.coreIn p i)) =
      a.csr csrAddrMtvec &&& ~~~3#32 := by
    rw [Core.trapTarget_sync hsync, Core.vector, htvec]
    exact BitVec.add_zero _
  refine ⟨⟨none, i.periRsp.rdata, s.core.csr.csrRdataQ⟩, rfl, ?_, ?_, ?_⟩
  · rw [outsideEv, he, hint]
    rfl
  · rw [eventEv, hint, if_neg Bool.false_ne_true, hsync, if_pos rfl, hpc, Arch.eventOn, htraps, hreport]
    rfl
  · have hgo := h.enters hs he hpc htarget
    rw [← hreport] at hgo
    have hstep : a.stepOn p img ⟨none, i.periRsp.rdata, s.core.csr.csrRdataQ⟩ =
        a.enter (a.word p img) := if_pos htraps
    rw [hstep]
    exact hgo

/-- The cycle of an interrupt. -/
private theorem Tracks.interrupts (h : Tracks p img a s) (hs : a.Regular p img)
    (hint : s.core.ex.takeInterrupt p (s.core.exIn (s.coreIn p i)) = true) :
    ∃ o, a.Allows o ∧ outsideEv p s i = some o ∧ eventEv p s i = some (a.eventOn p img o) ∧
      Tracks p img (a.stepOn p img o) (s.next p i) := by
  have hsane := h.pos.sane
  obtain ⟨hpend, hsync, -⟩ := Core.takeInterrupt_parts hint
  have he : s.core.entry p (s.coreIn p i) = true := by rw [Core.entry, hint, Bool.or_true]
  rw [intPending_eq, Bool.and_eq_true] at hpend
  obtain ⟨b, hb⟩ := Option.isSome_iff_exists.mp hpend.2
  have hcause : s.core.ex.trapCause p (s.core.exIn (s.coreIn p i)) = Arch.irqCause b := by
    rw [trapCause, hint, if_pos rfl]
    exact intCause_eq hb
  have htval : s.core.ex.trapTval p (s.core.exIn (s.coreIn p i)) = 0 := by rw [trapTval, hint, if_pos rfl]
  have hpc : s.core.ex.trapMepc (s.core.exIn (s.coreIn p i)) = a.pc := by
    refine h.mepc hs fun hh => ?_
    simp only [takeInterrupt, normalIntEligible, hh, Bool.or_false, Bool.and_eq_true] at hint
    exact hint.2.1.1.1.1.1
  have htvec : s.core.csr.regs.mtvec = a.csr csrAddrMtvec := h.csr csrAddrMtvec (by decide)
  have htarget : TrapUnit.trapTarget s.core.csr.regs.taps (s.core.trapIn p (s.coreIn p i)) = a.irqVector b := by
    rw [Core.trapTarget_interrupt hint hb, Core.vector, htvec]
    rfl
  refine ⟨⟨some b, i.periRsp.rdata, s.core.csr.csrRdataQ⟩, ?_, ?_, ?_, ?_⟩
  · intro c hc
    obtain rfl : b = c := Option.some.inj hc
    have hfound := List.find?_some hb
    have hmem := List.mem_of_find?_eq_some hb
    simp only [List.mem_cons, List.not_mem_nil, or_false] at hmem
    rw [Csrs.pending, Bool.and_eq_true] at hfound
    refine ⟨by omega, ?_, ?_⟩
    · rw [← h.csr csrAddrMstatus (by decide)]
      exact hpend.1
    · rw [← h.csr csrAddrMie (by decide)]
      exact hfound.2
  · rw [outsideEv, he, hint, hb]
    rfl
  · rw [eventEv, hint, if_pos rfl, hpc, hcause]
    rfl
  · have hgo := h.enters hs he hpc htarget
    rw [hcause, htval] at hgo
    exact hgo

/-- What a commit writes back. -/
private theorem Carries.value (h : Carries p a s) (hr : Steady p s)
    (hc : s.core.ex.opCommits p (s.core.exIn (s.coreIn p i)) = true) :
    s.core.ex.wbData p (s.core.exIn (s.coreIn p i)) =
      a.resultOn p (outside s i) s.core.de := by
  have hsane := h.sane
  have hv := Core.valid_of_commit hsane hc
  obtain ⟨hloads, hmem, hcsr⟩ := (h.made hv).routed
  obtain ⟨k, hk⟩ := (hsane.fresh hv).kind
  have hx : s.core.de.exception = false := exception_of_commit (i := s.core.exIn (s.coreIn p i)) hsane.ex hk hc
  cases hsrc : s.core.de.wbSrc with
  | alu =>
    have hsel : (s.core.exIn (s.coreIn p i)).de.wbSrc = .alu := hsrc
    rw [wbData, hsel, Arch.resultOn, hsrc]
    exact Core.alu_of_commit hsane hc
  | pc4 =>
    have hsel : (s.core.exIn (s.coreIn p i)).de.wbSrc = .pc4 := hsrc
    rw [wbData, hsel, Arch.resultOn, hsrc]
    rfl
  | mem =>
    have hread := hmem hx hsrc
    have hop : isMemOp (s.core.exIn (s.coreIn p i)) = true := by
      change (s.core.de.memRead || s.core.de.memWrite) = true
      rw [hread, Bool.true_or]
    cases hto : s.core.de.toPeri with
    | true =>
      rw [Core.peri_load hsane hc hread hto hsrc, Arch.resultOn, hsrc, hto]
      rfl
    | false =>
      have hev : accessEv p s i = some s.core.de := by
        rw [accessEv, hc, hop, hto]
        rfl
      rw [(load_commit hr.served hsane hloads hev hread).2, Arch.resultOn, hsrc, hto, h.mem]
      rfl
  | csr =>
    have hwren := hcsr hx hsrc
    have hsel : (s.core.exIn (s.coreIn p i)).de.wbSrc = .csr := hsrc
    rw [wbData, hsel, Arch.resultOn, hsrc]
    change s.core.csr.csrRdataQ = a.readCsr _ s.core.de.csrAddr
    rw [Arch.readCsr]
    by_cases hvol : Volatile s.core.de.csrAddr
    · rw [if_pos hvol]
      rfl
    · rw [if_neg hvol, ← h.csr _ hvol]
      exact hr.read (Core.wait_of_commit hsane hc hwren) hvol

/-- The CSRs behind a commit. -/
private theorem Carries.csrs (h : Carries p a s) (hr : Steady p s)
    (hc : s.core.ex.opCommits p (s.core.exIn (s.coreIn p i)) = true) {b : BitVec 12} (hb : ¬Volatile b) :
    (s.core.next p (s.coreIn p i)).csr.regs.read b = a.csrOn s.core.de b := by
  have hsane := h.sane
  have he : s.core.entry p (s.coreIn p i) = false := by
    cases he : s.core.entry p (s.coreIn p i) with
    | false => rfl
    | true =>
      rw [(Core.quiet_of_entry hsane he).1] at hc
      cases hc
  unfold Arch.csrOn
  by_cases hret : s.core.de.sysOp = .mret
  · have hms : s.core.csr.regs.mstatus = a.csr csrAddrMstatus := h.csr csrAddrMstatus (by decide)
    rw [if_pos hret, Core.regs_mret hsane (Core.mretReq_of_commit hsane hc hret), Csrs.read_mret, hms]
    simp only [Function.update_apply]
    rw [Csrs.tick_stable _ _ _ hb, h.csr b hb]
  · rw [if_neg hret]
    have hm : s.core.ex.mretReq (s.core.exIn (s.coreIn p i)) = false := by
      have hsys : isMretOp (s.core.exIn (s.coreIn p i)) = false := beq_eq_false_iff_ne.mpr hret
      rw [mretReq, hsys, Bool.and_false]
    cases hwren : s.core.de.csrWren with
    | true =>
      have hwait := Core.wait_of_commit hsane hc hwren
      rw [Core.rmw_stable hsane hr.fixed hwait (hr.read hwait) hb]
      by_cases hst : Stable s.core.de.csrAddr
      · rw [if_pos hst, if_pos ⟨rfl, hst⟩, h.csr _ (mem_plainCsrs hst).2]
        simp only [Function.update_apply]
        rw [h.csr b hb]
      · rw [if_neg hst, if_neg fun hx => hst hx.2, h.csr b hb]
    | false =>
      have hw : s.core.ex.csrWren p (s.core.exIn (s.coreIn p i)) = false := by
        have hval : s.core.ex.csrOpValid p (s.core.exIn (s.coreIn p i)) = false := by simp [csrOpValid, hwren]
        unfold csrWren
        cases (s.core.exIn (s.coreIn p i)).de.csrOp <;> simp [hval]
      rw [if_neg fun hx => Bool.false_ne_true hx.1, Core.regs_tick he hm hw, Csrs.tick_stable _ _ _ hb, h.csr b hb]

/-- The bytes behind a commit. -/
private theorem Carries.bytes (h : Carries p a s) (hc : s.core.ex.opCommits p (s.core.exIn (s.coreIn p i)) = true) :
    ofWords 4 (s.next p i).dmem.mem = a.memOn p s.core.de := by
  have hsane := h.sane
  rw [bytes_next hsane, accessEv, hc, Bool.true_and, Arch.memOn, h.mem]
  cases hto : s.core.de.toPeri with
  | true =>
    rw [Bool.not_true, Bool.and_false, if_neg Bool.false_ne_true, if_pos rfl]
    rfl
  | false =>
    cases hop : isMemOp (s.core.exIn (s.coreIn p i)) with
    | true => rfl
    | false =>
      have hw : s.core.de.memWrite = false := by
        have hx : (s.core.de.memRead || s.core.de.memWrite) = false := hop
        rw [Bool.or_eq_false_iff] at hx
        exact hx.2
      rw [De.storeTo, hw]
      rfl

/-- A cycle commits the instruction in the D/E register: it shows and does to the state what the interpreter makes of
it. -/
structure Retires (p : Params) (a : Arch) (s : CoreMem) (i : CoreIn) : Prop where
  traps : s.core.de.traps = false
  event : eventEv p s i = some (.commit (a.commitOn p (outside s i) s.core.de))
  regs : (s.next p i).core.rf = (a.retireOn p (outside s i) s.core.de).regs
  csr : ∀ b, ¬Volatile b → (s.next p i).core.csr.regs.read b = (a.retireOn p (outside s i) s.core.de).csr b
  mem : ofWords 4 (s.next p i).dmem.mem = (a.retireOn p (outside s i) s.core.de).mem

theorem Carries.retires (h : Carries p a s) (hr : Steady p s)
    (hc : s.core.ex.opCommits p (s.core.exIn (s.coreIn p i)) = true) : Retires p a s i := by
  have hsane := h.sane
  have hv := Core.valid_of_commit hsane hc
  obtain ⟨k, hk⟩ := (hsane.fresh hv).kind
  have he : s.core.entry p (s.coreIn p i) = false := by
    cases he : s.core.entry p (s.coreIn p i) with
    | false => rfl
    | true =>
      rw [(Core.quiet_of_entry hsane he).1] at hc
      cases hc
  rw [Core.entry, Bool.or_eq_false_iff] at he
  have hx : s.core.de.exception = false := exception_of_commit (i := s.core.exIn (s.coreIn p i)) hsane.ex hk hc
  have hal : s.core.de.misaligned = false := by
    rw [De.misaligned, Bool.and_eq_false_imp]
    intro hmem
    obtain rfl : k = .mem := by
      rw [hk.mem, decide_eq_true_eq] at hmem
      exact hmem
    rw [Bool.not_eq_false', decide_eq_true_iff]
    by_contra hno
    rw [(misaligned_quiet (i := i) hsane hv hk hno).1] at hc
    cases hc
  have hvalue := h.value hr hc
  have hwb := Core.wbEn_of_commit ⟨k, hk⟩ hc
  refine ⟨by rw [De.traps, hx, hal]; rfl, ?_, ?_, fun b hb => h.csrs hr hc hb, h.bytes hc⟩
  · rw [eventEv, he.1, he.2, hc, hwb, hvalue]
    rfl
  · change (s.core.next p (s.coreIn p i)).rf = a.regs.next s.core.de.regWrite s.core.de.rd _
    rw [Core.next_rf, hwb, hvalue, h.regs]
    rfl

/-- The cycle of a commit. -/
private theorem Tracks.commits (h : Tracks p img a s) (hr : Steady p s) (hs : a.Regular p img)
    (hc : s.core.ex.opCommits p (s.core.exIn (s.coreIn p i)) = true) :
    ∃ o, o.irq = none ∧ outsideEv p s i = some o ∧ eventEv p s i = some (a.eventOn p img o) ∧
      Tracks p img (a.stepOn p img o) (s.next p i) := by
  have hsane := h.pos.sane
  have hv := Core.valid_of_commit hsane hc
  have hword := h.word hv
  have hkind := (hsane.fresh hv).kind
  have he : s.core.entry p (s.coreIn p i) = false := by
    cases he : s.core.entry p (s.coreIn p i) with
    | false => rfl
    | true =>
      rw [(Core.quiet_of_entry hsane he).1] at hc
      cases hc
  have hparts := he
  rw [Core.entry, Bool.or_eq_false_iff] at hparts
  have hret := h.carries.retires hr hc
  have htraps : (a.word p img).traps = false := by
    rw [hword]
    exact hret.traps
  have hstep : a.stepOn p img (outside s i) = a.retireOn p (outside s i) s.core.de := by
    rw [Arch.stepOn, htraps, if_neg Bool.false_ne_true, hword]
    rfl
  have hmepc : s.core.csr.regs.mepc = a.csr csrAddrMepc := h.csr csrAddrMepc (by decide)
  have hnext := h.pos.next (s.coreIn p i) (h.evenMepc hs)
  rw [Core.archPcNext, he, if_neg Bool.false_ne_true, hc, if_pos rfl, hmepc] at hnext
  refine ⟨outside s i, rfl, ?_, ?_, ?_⟩
  · rw [outsideEv, he, hc, hparts.2]
    rfl
  · rw [hret.event, Arch.eventOn, htraps, hword]
    rfl
  · rw [hstep]
    refine ⟨hnext, hret.regs, hret.csr, hret.mem, fun hh => ?_⟩
    have hkeep := Core.halt_next h.pos (fun hq => (h.halt hq).1) h.not_parked hh
    rw [Core.archPcNext, he, if_neg Bool.false_ne_true, hc, if_pos rfl, hmepc] at hkeep
    refine ⟨hkeep, ?_⟩
    rcases Core.halted_next hsane hh with hf | ⟨-, -, hwfi⟩
    · rw [(Core.frozen hsane hf).2.1] at hc
      cases hc
    · have hsys : (a.word p img).sysOp = .wfi := by
        rw [hword]
        exact hwfi
      -- A WFI leaves through its link address.
      have hpass : nextPc s.core.de (a.csr csrAddrMepc) = (a.passed p img).pc := by
        obtain ⟨k, hk⟩ := hkind
        obtain rfl : k = .wfi := by simpa [hwfi] using hk.wfi
        have hnb : s.core.de.branchType = .none := by simpa using hk.branch
        have hnt : branchTaken (ofDe s.core.de) = false := by simp [branchTaken, ofDe, hnb]
        rw [nextPc, hwfi, if_neg SysOp.noConfusion, hnt, if_neg Bool.false_ne_true, Arch.passed, hword]
        rfl
      exact fun hbad => hs.wfi hsys ((Arch.word_sysOp p img hpass.symm).trans hbad)

/-! ### Runs -/

variable {boot : Word} {rf : RegFile} {inp : Nat → CoreIn}

theorem steady_run (h : s.IsReset boot img rf) (t : Nat) : Steady p (trace (next p) s inp t) := by
  refine ⟨served_run h t, ?_, ?_⟩
  · rw [core_run]
    exact Core.fixed_run h.core t
  · rw [core_run]
    exact Core.read_stable h.core _ t

theorem IsReset.tracks (h : s.IsReset boot img rf) (hb : boot.getLsbD 0 = false) :
    Tracks p img (Arch.reset boot rf (ofWords 4 s.dmem.mem)) s := by
  refine ⟨h.core.at hb, h.core.rf, fun b _ => ?_, rfl, fun hh => ?_⟩
  · rw [h.core.csr]
    rfl
  · rw [h.core.ex] at hh
    cases hh

/-- A cycle is a step of the interpreter, or nothing to it. -/
theorem Tracks.cycle (h : Tracks p img a s) (hr : Steady p s) (hs : a.Regular p img) (i : CoreIn) :
    outsideEv p s i = none ∧ eventEv p s i = none ∧ Tracks p img a (s.next p i) ∨
      ∃ o, outsideEv p s i = some o ∧ eventEv p s i = some (a.eventOn p img o) ∧
        Tracks p img (a.stepOn p img o) (s.next p i) := by
  cases hint : s.core.ex.takeInterrupt p (s.core.exIn (s.coreIn p i)) with
  | true =>
    obtain ⟨o, -, hgo⟩ := h.interrupts hs hint
    exact .inr ⟨o, hgo⟩
  | false =>
    cases hsync : s.core.ex.syncTrapReq p (s.core.exIn (s.coreIn p i)) with
    | true =>
      obtain ⟨o, -, hgo⟩ := h.traps hs hsync
      exact .inr ⟨o, hgo⟩
    | false =>
      cases hc : s.core.ex.opCommits p (s.core.exIn (s.coreIn p i)) with
      | true =>
        obtain ⟨o, -, hgo⟩ := h.commits hr hs hc
        exact .inr ⟨o, hgo⟩
      | false => exact .inl (h.still hs (by rw [Core.entry, hsync, hint]; rfl) hc)

/-- What the first `t` cycles take from outside. -/
abbrev outsides (p : Params) (s : CoreMem) (inp : Nat → CoreIn) (t : Nat) : List Outside :=
  logFrom (outsideEv p) (next p) s inp 0 t

/-- The requests of the events on a port. -/
theorem event_request (hs : s.core.Sane p) (peri : Bool) :
    (eventEv p s i).bind (Event.request peri) = Core.accessEv p peri s.core (s.coreIn p i) := by
  cases hint : s.core.ex.takeInterrupt p (s.core.exIn (s.coreIn p i)) with
  | true =>
    rw [eventEv, hint, if_pos rfl, Core.accessEv, (Core.quiet_of_interrupt hs hint).1]
    rfl
  | false =>
    cases hsync : s.core.ex.syncTrapReq p (s.core.exIn (s.coreIn p i)) with
    | true =>
      rw [eventEv, hint, if_neg Bool.false_ne_true, hsync, if_pos rfl, Core.accessEv, (Core.quiet_of_sync hs hsync).1]
      rfl
    | false =>
      rw [eventEv, hint, if_neg Bool.false_ne_true, hsync, if_neg Bool.false_ne_true, Core.accessEv]
      cases hc : s.core.ex.opCommits p (s.core.exIn (s.coreIn p i)) with
      | false => rfl
      | true =>
        have hop : isMemOp (s.core.exIn (s.coreIn p i)) = (s.core.de.memRead || s.core.de.memWrite) := rfl
        rw [if_pos rfl, hop]
        simp only [Option.bind_some, Event.request, De.access]
        cases s.core.de.memRead || s.core.de.memWrite with
        | false => rfl
        | true =>
          rw [if_pos rfl, Option.filter_some]
          cases s.core.de.toPeri == peri with
          | true => rfl
          | false => rfl

/-- The first `t` cycles of a run are a run of the interpreter. -/
structure InStep (p : Params) (img : Nat → BitVec 64) (a : Arch) (s : CoreMem) (inp : Nat → CoreIn)
    (t : Nat) : Prop where
  events : logFrom (eventEv p) (next p) s inp 0 t = a.events p img (outsides p s inp t)
  /-- An interrupt is enabled, and its line was up in the cycle before. -/
  interrupts : ∀ u < t, ∀ o b, outsideEv p (trace (next p) s inp u) (inp u) = some o → o.irq = some b →
    (a.after p img (outsides p s inp u)).Allows o ∧ ∃ v, u = v + 1 ∧ (inp v).line b = true
  /-- The requests a port accepts are those of the committed accesses, and that of the load which waits. -/
  ports : ∀ peri, logFrom (fun s i => Core.acceptEv p peri s.core (s.coreIn p i)) (next p) s inp 0 t =
    (a.events p img (outsides p s inp t)).filterMap (Event.request peri) ++
      Core.inFlight peri (trace (next p) s inp t).core

/-- The line of an interrupt that is taken was up in the cycle before. -/
theorem line_of_interrupt (h : s.IsReset boot img rf) {u : Nat} {o : Outside} {b : Nat}
    (ho : outsideEv p (trace (next p) s inp u) (inp u) = some o) (hb : o.irq = some b) :
    ∃ v, u = v + 1 ∧ (inp v).line b = true := by
  have hfirst : (trace (next p) s inp u).core.csr.regs.firstPending = some b := by
    unfold outsideEv at ho
    split_ifs at ho with h1 h2
    · obtain rfl := Option.some.inj ho
      exact hb
    · obtain rfl := Option.some.inj ho
      cases hb
  have hmem := List.mem_of_find?_eq_some hfirst
  have hpend := List.find?_some hfirst
  simp only [List.mem_cons, List.not_mem_nil, or_false] at hmem
  rw [Csrs.pending, Bool.and_eq_true] at hpend
  cases u with
  | zero =>
    rw [trace_zero, h.core.csr] at hpend
    exact absurd hpend.1 (by rcases hmem with rfl | rfl | rfl <;> decide)
  | succ v =>
    have hline : (trace (next p) s inp (v + 1)).core.csr.regs.mip.getLsbD b = (inp v).line b :=
      Core.mip_line (s := (trace (next p) s inp v).core) (i := (trace (next p) s inp v).coreIn p (inp v)) (by omega)
    exact ⟨v, rfl, hline.symm.trans hpend.1⟩

/-- The tie along a run. -/
theorem tracks_run (h : s.IsReset boot img rf) (hb : boot.getLsbD 0 = false) (inp : Nat → CoreIn)
    (ha : a = Arch.reset boot rf (ofWords 4 s.dmem.mem)) (t : Nat)
    (hs : ∀ u < t, (a.after p img (outsides p s inp u)).Regular p img) :
    Tracks p img (a.after p img (outsides p s inp t)) (trace (next p) s inp t) ∧
      logFrom (eventEv p) (next p) s inp 0 t = a.events p img (outsides p s inp t) := by
  subst ha
  refine refined_on (h.tracks hb) t fun u hu b hbe htr => ?_
  subst hbe
  exact htr.cycle (steady_run h u) (hs u hu) (inp u)

/-- A run is in step with the interpreter as long as its states are regular. -/
theorem inStep_run (h : s.IsReset boot img rf) (hb : boot.getLsbD 0 = false) (inp : Nat → CoreIn)
    (ha : a = Arch.reset boot rf (ofWords 4 s.dmem.mem)) (t : Nat)
    (hs : ∀ u < t, (a.after p img (outsides p s inp u)).Regular p img) : InStep p img a s inp t := by
  obtain ⟨-, hlog⟩ := tracks_run h hb inp ha t hs
  refine ⟨hlog, fun u hu o b ho hirq => ⟨?_, line_of_interrupt h ho hirq⟩, fun peri => ?_⟩
  · obtain ⟨htr, -⟩ := tracks_run h hb inp ha u fun v hv => hs v (by omega)
    have hint : (trace (next p) s inp u).core.ex.takeInterrupt p
        ((trace (next p) s inp u).core.exIn ((trace (next p) s inp u).coreIn p (inp u))) = true := by
      unfold outsideEv at ho
      split_ifs at ho with h1 h2
      · exact h2
      · obtain rfl := Option.some.inj ho
        cases hirq
    obtain ⟨o', hallow, ho', -⟩ := htr.interrupts (hs u hu) hint
    obtain rfl : o' = o := Option.some.inj (ho'.symm.trans ho)
    exact hallow
  · rw [← hlog, ← logFrom_bind]
    have hreq : logFrom (fun s i => (eventEv p s i).bind (Event.request peri)) (next p) s inp 0 t =
        logFrom (fun s i => Core.accessEv p peri s.core (s.coreIn p i)) (next p) s inp 0 t :=
      logFrom_congr fun k _ => event_request (sane_run h (0 + k)) peri
    have hcore : ∀ ev : Core → CoreIn → Option BusReq,
        logFrom (fun s i => ev s.core (s.coreIn p i)) (next p) s inp 0 t =
          logFrom ev (Core.next p) s.core (fun u => (trace (next p) s inp u).coreIn p (inp u)) 0 t :=
      fun ev => logFrom_view CoreMem.core (CoreMem.coreIn p) (fun _ _ => rfl) 0 t
    rw [hreq, hcore, hcore, (Core.exactlyOnce h.core _).log peri t, core_run]

/-- **The hart in its surroundings.**  For every program, under any interrupt lines, predictor answers and peripheral
port, the commits, traps and interrupts of a run are those of the interpreter, as long as its states are regular. -/
theorem outside_refinement (h : s.IsReset boot img rf) (hb : boot.getLsbD 0 = false) (inp : Nat → CoreIn)
    (ha : a = Arch.reset boot rf (ofWords 4 s.dmem.mem)) (t : Nat)
    (hs : ∀ u < t, (a.after p img (outsides p s inp u)).Regular p img) : InStep p img a s inp t :=
  inStep_run h hb inp ha t hs

/-- `lui x1, 0x10000`, `lw x2, 0(x1)`, `sw x2, 4(x1)`, `csrrsi mie, 8`, `csrrsi mstatus, 8`, `wfi`. -/
def surroundedProgram : Nat → BitVec 64 :=
  imgOf [0x0000A103100000B7#64, 0x304460730020A223#64, 0x1050007330046073#64]

/-- A peripheral port that accepts every request and answers a word, and the software interrupt from cycle 16 on. -/
def surroundings (t : Nat) : CoreIn :=
  { CoreIn.quiet with periRsp := ⟨true, true, 0x5EED#32, false⟩, msip := decide (16 ≤ t) }

/-- The theorem on that program: the load, the store, the two CSR writes, the WFI and the interrupt. -/
theorem outside_refinement_msi :
    InStep .pkg surroundedProgram (Arch.reset 0 ⟨fun _ => 0⟩ (ofWords 4 fun _ => 0#32))
      (reset 0 surroundedProgram ⟨fun _ => 0⟩ fun _ => 0) surroundings 20 :=
  outside_refinement (p := .pkg) (reset_isReset 0 surroundedProgram ⟨fun _ => 0⟩ fun _ => 0) (by decide)
    surroundings rfl 20
    (by decide +kernel)

end CoreMem

end Yarv
