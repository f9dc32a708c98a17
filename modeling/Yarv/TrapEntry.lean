import Yarv.Precision

/-!
# Trap entry and the halt of WFI

In the cycle of a trap or an interrupt nothing of the squashed instruction, or of a younger one, has an effect, and
the CSR file takes the entry and nothing else (`trap_entry_atomic`).  The suppression terms of execute rest on the tie
between its state and the instruction in the D/E register, which every reachable state keeps (`Sane`).

The halt of WFI ends with an interrupt that the global enable lets through (`wfi_release`): `int_pending_o` reads
`mstatus.MIE`, and nothing changes that bit while the hart is halted.
-/

namespace Yarv

open Clocked ExecuteStage

/-! ### Pending interrupts -/

/-- The interrupt with code `b` is pending and locally enabled. -/
def Csrs.pending (r : Csrs) (b : Nat) : Bool := r.mip.getLsbD b && r.mie.getLsbD b

/-- The interrupt that goes first, by its code: external, software, timer. -/
def Csrs.firstPending (r : Csrs) : Option Nat := [11, 3, 7].find? r.pending

/-- The global interrupt enable. -/
def Csrs.globalEnable (r : Csrs) : Bool := r.mstatus.getLsbD 3

theorem intPending_eq (r : Csrs) :
    TrapUnit.intPending r.taps = (r.globalEnable && r.firstPending.isSome) := by
  have h : TrapUnit.intPending r.taps = (r.globalEnable && (r.pending 11 || r.pending 3 || r.pending 7)) := rfl
  rw [h, Csrs.firstPending]
  cases h11 : r.pending 11 <;> cases h3 : r.pending 3 <;> cases h7 : r.pending 7 <;> simp [h11, h3, h7]

/-- The cause of an interrupt is its code under the interrupt bit. -/
theorem intCause_eq {r : Csrs} {b : Nat} (h : r.firstPending = some b) :
    TrapUnit.intCause r.taps = 0x80000000#32 + BitVec.ofNat 32 b := by
  have hc : TrapUnit.intCause r.taps = if r.pending 11 then mcauseMei else if r.pending 3 then mcauseMsi
      else mcauseMti := rfl
  rw [Csrs.firstPending] at h
  rw [hc]
  cases h11 : r.pending 11 with
  | true =>
    simp only [List.find?, h11, Option.some.injEq] at h
    subst h
    rfl
  | false =>
    cases h3 : r.pending 3 with
    | true =>
      simp only [List.find?, h11, h3, Option.some.injEq] at h
      subst h
      rfl
    | false =>
      cases h7 : r.pending 7 with
      | true =>
        simp only [List.find?, h11, h3, h7, Option.some.injEq] at h
        subst h
        rfl
      | false =>
        simp only [List.find?, h11, h3, h7] at h
        exact absurd h (by simp)

/-- The line of the interrupt with code `b`. -/
def CoreIn.line (i : CoreIn) (b : Nat) : Bool :=
  if b = 3 then i.msip else if b = 7 then i.mtip else if b = 11 then i.meip else false

namespace Core

variable {p : Params} {s : Core} {i : CoreIn} {img : Nat → BitVec 64} {boot : Word} {rf : RegFile}
  {inp : Nat → CoreIn}

/-! ### One redirect of the trap unit -/

theorem takeInterrupt_parts (h : s.ex.takeInterrupt p (s.exIn i) = true) :
    TrapUnit.intPending s.csr.regs.taps = true ∧ s.ex.syncTrapReq p (s.exIn i) = false ∧
      s.ex.mretReq (s.exIn i) = false := by
  simp only [takeInterrupt, Bool.and_eq_true, Bool.not_eq_true'] at h
  exact ⟨h.1.1.1, h.1.1.2, h.1.2⟩

/-- A synchronous trap and an `mret` never coincide. -/
private theorem mretReq_of_sync (h : s.Sane p) (ht : s.ex.syncTrapReq p (s.exIn i) = true) :
    s.ex.mretReq (s.exIn i) = false := by
  cases hm : s.ex.mretReq (s.exIn i) with
  | false => rfl
  | true =>
    have hc : s.ex.opCommits p (s.exIn i) = true := by simp [opCommits, hm]
    rw [(quiet_of_sync h ht).1] at hc
    exact absurd hc (by decide)

theorem mretReq_of_entry (h : s.Sane p) (he : s.entry p i = true) : s.ex.mretReq (s.exIn i) = false := by
  rw [entry, Bool.or_eq_true] at he
  rcases he with ht | ht
  · exact mretReq_of_sync h ht
  · exact (takeInterrupt_parts ht).2.2

/-- What an interrupt squashes does nothing. -/
theorem quiet_of_interrupt (h : s.Sane p) (ht : s.ex.takeInterrupt p (s.exIn i) = true) :
    s.ex.opCommits p (s.exIn i) = false ∧ ¬Acts p s i := by
  obtain ⟨-, hsync, hmret⟩ := takeInterrupt_parts ht
  have htr : s.ex.trapRedirectReq p (s.exIn i) = true := by simp [trapRedirectReq, ht]
  have hc : s.ex.opCommits p (s.exIn i) = false := by simp [opCommits, hmret, htr]
  refine ⟨hc, ?_⟩
  rintro (ha | ha | ha | ha)
  · rw [opCommits_of_wbEn ha] at hc
    exact absurd hc (by decide)
  · rw [opCommits_of_csrWren ha] at hc
    exact absurd hc (by decide)
  · simp [bpTrain, cfResolving, htr] at ha
  · obtain ⟨-, hk⟩ := mem_of_wvalid h ha
    -- A memory operation gives way only at the wake-up, where it has not launched.
    have hnorm : s.ex.normalIntEligible (s.exIn i) = false := by
      simp [normalIntEligible, isMemOp_kind (i := s.exIn i) hk]
    have hhalt : s.ex.wfiHaltQ = true := by
      simp only [takeInterrupt, hnorm, Bool.false_or, Bool.and_eq_true] at ht
      exact ht.2
    have hidle : s.ex.exStateQ = .idle := h.idle_of_halt hhalt
    have hd : s.ex.dmemLoadDrive p (s.exIn i) = false := by simp [dmemLoadDrive, memReqPending, hhalt]
    have hcd : s.ex.capturedDrive p (s.exIn i) = false := by simp [capturedDrive, memLaunchState, hidle]
    rw [dmemReq, Core.periReq, memReq_wvalid, periReq_wvalid, dmemCapturedDrive, hd, hcd] at ha
    simp at ha

theorem quiet_of_entry (h : s.Sane p) (he : s.entry p i = true) :
    s.ex.opCommits p (s.exIn i) = false ∧ ¬Acts p s i := by
  rw [entry, Bool.or_eq_true] at he
  rcases he with ht | ht
  · exact quiet_of_sync h ht
  · exact quiet_of_interrupt h ht

/-! ### The CSR file behind an entry -/

/-- The cause and the value of a synchronous trap: the exception decode found, or the address of a misaligned
access. -/
def syncReport (d : De) : Word × Word :=
  if d.exception then (d.exceptionCause, d.exceptionTval)
  else (if d.memWrite then mcauseSadMis else mcauseLadMis, effAddr d)

theorem trapReport_sync (h : s.Sane p) (ht : s.ex.syncTrapReq p (s.exIn i) = true) :
    (s.ex.trapCause p (s.exIn i), s.ex.trapTval p (s.exIn i)) = syncReport s.de := by
  have hint : s.ex.takeInterrupt p (s.exIn i) = false := by simp [takeInterrupt, ht]
  rw [trapCause, trapTval, hint, if_neg (by decide), if_neg (by decide), syncCause, syncTval, syncReport]
  cases hm : s.ex.misalignedTrap p (s.exIn i) with
  | true =>
    obtain ⟨-, hk, ha, -⟩ := misaligned_facts h hm
    have hx : s.de.exception = false := by simp [hk.exception]
    rw [hx, ha]
    rfl
  | false =>
    simp only [syncTrapReq, hm, Bool.or_false, Bool.and_eq_true] at ht
    have hx : s.de.exception = true := ht.2
    rw [hx]
    rfl

/-- `mstatus` behind an entry: `MPIE` takes `MIE`, `MIE` is cleared, `MPP` is machine mode, no other bit moves. -/
private theorem setMstatus_bit (w : Word) (b : Nat) (hb : b < 32) :
    (TrapUnit.setMstatus w (w.getLsbD 3) false).getLsbD b =
      if b = 3 then false else if b = 7 then w.getLsbD 3 else if b = 11 ∨ b = 12 then true else w.getLsbD b := by
  unfold TrapUnit.setMstatus
  rw [BitVec.getLsbD_append, BitVec.getLsbD_append, BitVec.getLsbD_append, BitVec.getLsbD_append,
    BitVec.getLsbD_append, BitVec.getLsbD_append]
  interval_cases b <;> simp

/-- The bits of `mip` no interrupt line drives. -/
private theorem mipD_bit (q : CsrRegfile) (c : CsrIn) (hw : CsrRegfile.wr c csrAddrMip = false) (b : Nat)
    (hb : b < 32) :
    (CsrRegfile.mipD q c).getLsbD b =
      if b = 3 then c.msip else if b = 7 then c.mtip else if b = 11 then c.meip else q.regs.mip.getLsbD b := by
  unfold CsrRegfile.mipD
  rw [hw, BitVec.getLsbD_append, BitVec.getLsbD_append, BitVec.getLsbD_append, BitVec.getLsbD_append,
    BitVec.getLsbD_append, BitVec.getLsbD_append]
  interval_cases b <;> simp

/-- The CSRs behind an entry at `pc` with its cause and value, seen from the CSRs `r` in front of it. -/
structure CsrEntry (r r' : Csrs) (pc cause tval : Word) : Prop where
  mepc : r'.mepc = pc
  mcause : r'.mcause = cause
  mtval : r'.mtval = tval
  mstatus : ∀ b < 32, r'.mstatus.getLsbD b =
    if b = 3 then false else if b = 7 then r.mstatus.getLsbD 3 else if b = 11 ∨ b = 12 then true
      else r.mstatus.getLsbD b
  misa : r'.misa = r.misa
  mie : r'.mie = r.mie
  mtvec : r'.mtvec = r.mtvec
  mscratch : r'.mscratch = r.mscratch
  mip : ∀ b < 32, b ≠ 3 → b ≠ 7 → b ≠ 11 → r'.mip.getLsbD b = r.mip.getLsbD b

/-- The CSR port is closed in the cycle of an entry. -/
theorem csrWren_of_entry (h : s.Sane p) (he : s.entry p i = true) : s.ex.csrWren p (s.exIn i) = false := by
  cases hw : s.ex.csrWren p (s.exIn i) with
  | false => rfl
  | true => exact absurd (.inr (.inl hw)) (quiet_of_entry h he).2

theorem csrEntry_of_entry (h : s.Sane p) (he : s.entry p i = true) :
    CsrEntry s.csr.regs (s.next p i).csr.regs (s.ex.trapMepc (s.exIn i)) (s.ex.trapCause p (s.exIn i))
      (s.ex.trapTval p (s.exIn i)) := by
  obtain ⟨h1, h2, h3⟩ := next_csr_entry he
  have hw : ∀ a, CsrRegfile.wr (s.csrIn p i) a = false := by
    intro a
    rw [CsrRegfile.wr, show (s.csrIn p i).csrWren = s.ex.csrWren p (s.exIn i) from rfl, csrWren_of_entry h he,
      Bool.false_and]
  have he' : TrapUnit.entry (s.trapIn p i) = true := he
  have hnext : (s.next p i).csr.regs = CsrRegfile.regsD s.csr (s.csrIn p i) := rfl
  refine ⟨h1, h2, h3, fun b hb => ?_, ?_, ?_, ?_, ?_, fun b hb n3 n7 n11 => ?_⟩
  · have hms : (s.next p i).csr.regs.mstatus =
        TrapUnit.setMstatus s.csr.regs.mstatus (s.csr.regs.mstatus.getLsbD 3) false := by
      have hwe : (s.csrIn p i).trap.weMstatus = true := by
        have : (s.csrIn p i).trap.weMstatus = (s.entry p i || s.ex.mretReq (s.exIn i)) := rfl
        rw [this, he, Bool.true_or]
      have hd : (s.csrIn p i).trap.dMstatus = TrapUnit.mstatusNew s.csr.regs.taps (s.trapIn p i) := rfl
      rw [hnext, CsrRegfile.regsD]
      simp only [CsrRegfile.mstatusD, hwe, if_true, hd, TrapUnit.mstatusNew, he']
      rfl
    rw [hms]
    exact setMstatus_bit _ b hb
  · rfl
  · rw [hnext, CsrRegfile.regsD]
    simp only [hw, Bool.false_eq_true, if_false]
  · rw [hnext, CsrRegfile.regsD]
    simp only [CsrRegfile.mtvecD, hw, Bool.false_eq_true, if_false]
  · rw [hnext, CsrRegfile.regsD]
    simp only [hw, Bool.false_eq_true, if_false]
  · have := mipD_bit s.csr (s.csrIn p i) (hw _) b hb
    rw [if_neg n3, if_neg n7, if_neg n11] at this
    exact this

/-! ### Atomic entry -/

/-- Where an entry leads: the base of `mtvec`, and in vectored mode four times the code of an interrupt above it. -/
def vector (r : Csrs) (code : Option Nat) : Word :=
  (r.mtvec &&& ~~~3#32) +
    match code with
    | some b => if r.mtvec.extractLsb' 0 2 = 1 then BitVec.ofNat 32 (4 * b) else 0
    | none => 0

/-- The cycle enters a trap or an interrupt and does nothing else. -/
structure AtomicEntry (p : Params) (s : Core) (i : CoreIn) : Prop where
  /-- Exactly one of the three redirects of the trap unit is selected. -/
  one : [s.ex.syncTrapReq p (s.exIn i), s.ex.takeInterrupt p (s.exIn i), s.ex.mretReq (s.exIn i)].count true = 1
  wb : s.ex.wbEn p (s.exIn i) = false
  rf : (s.next p i).rf = s.rf
  csrWren : s.ex.csrWren p (s.exIn i) = false
  dmem : (s.dmemReq p i).wvalid = false
  peri : (s.periReq p i).wvalid = false
  train : (s.ex.bpTrain p (s.exIn i)).valid = false
  /-- The squashed instruction and everything younger are gone. -/
  squash : (s.next p i).de.valid = false ∧ (s.next p i).fe.decode.holdQ = false ∧ (s.next p i).fe.fetch.countQ = 0
  sync : s.ex.syncTrapReq p (s.exIn i) = true →
    CsrEntry s.csr.regs (s.next p i).csr.regs (if s.ex.wfiHaltQ then s.ex.wfiNextPcQ else s.de.pc)
      (syncReport s.de).1 (syncReport s.de).2 ∧
    (s.next p i).fe.fetch.pcQ = vector s.csr.regs none
  interrupt : s.ex.takeInterrupt p (s.exIn i) = true →
    ∃ b, s.csr.regs.globalEnable = true ∧ s.csr.regs.firstPending = some b ∧
      CsrEntry s.csr.regs (s.next p i).csr.regs (if s.ex.wfiHaltQ then s.ex.wfiNextPcQ else s.de.pc)
        (0x80000000#32 + BitVec.ofNat 32 b) 0 ∧
      (s.next p i).fe.fetch.pcQ = vector s.csr.regs (some b)

private theorem mtvecBase_eq (t : TrapTaps) : TrapUnit.mtvecBase t = t.mtvec &&& ~~~3#32 := by
  apply BitVec.eq_of_getLsbD_eq
  intro b hb
  rw [TrapUnit.mtvecBase, BitVec.getLsbD_append]
  interval_cases b <;> simp

/-- The redirect of an entry reaches fetch, and empties decode and the fetch buffer. -/
private theorem next_of_entry (h : s.Sane p) (he : s.entry p i = true) :
    (s.next p i).de.valid = false ∧ (s.next p i).fe.decode.holdQ = false ∧ (s.next p i).fe.fetch.countQ = 0 ∧
      (s.next p i).fe.fetch.pcQ = TrapUnit.trapTarget s.csr.regs.taps (s.trapIn p i) := by
  have htr : s.ex.trapRedirectReq p (s.exIn i) = true := by
    rw [entry, Bool.or_eq_true] at he
    rcases he with ht | ht <;> simp [trapRedirectReq, ht]
  have hb := branchValid_of_trap htr
  have hbv : (s.fe.fetchIn p (s.feIn p i)).branchValid = true := hb
  have hfl : (s.fe.decodeIn (s.feIn p i)).flush = true := hb
  have hr : FetchStage.redirect (s.fe.fetchIn p (s.feIn p i)) = true := by rw [FetchStage.redirect, hbv, Bool.true_or]
  refine ⟨by rw [next_de, hb, if_pos rfl]; rfl, ?_, ?_, ?_⟩
  · have : (s.next p i).fe.decode.holdQ = (DecodeStage.holdD p s.fe.decode (s.fe.decodeIn (s.feIn p i))).holdQ := rfl
    rw [this, DecodeStage.holdD, hfl, if_pos rfl]
  · have : (s.next p i).fe.fetch.countQ = (s.fe.fetch.next p (s.fe.fetchIn p (s.feIn p i))).countQ := rfl
    rw [this, FetchStage.next]
    simp only [hr, if_true]
  · have : (s.next p i).fe.fetch.pcQ = FetchStage.pcD p s.fe.fetch (s.fe.fetchIn p (s.feIn p i)) := rfl
    rw [this, FetchStage.pcD, hr, if_pos rfl, FetchStage.redirectAddr, hbv, if_pos rfl]
    change s.ex.branchAddr p (s.exIn i) (s.trapRedirectAddr p i) = _
    rw [branchAddr, htr, if_pos rfl, trapRedirectAddr_entry (mretReq_of_entry h he)]

/-- An interrupt in vectored mode enters four times its code above the base. -/
theorem trapTarget_interrupt {b : Nat} (ht : s.ex.takeInterrupt p (s.exIn i) = true)
    (hb : s.csr.regs.firstPending = some b) :
    TrapUnit.trapTarget s.csr.regs.taps (s.trapIn p i) = vector s.csr.regs (some b) := by
  have hcause := intCause_eq hb
  have hci : (s.trapIn p i).cause = 0x80000000#32 + BitVec.ofNat 32 b := by
    have : (s.trapIn p i).cause = s.ex.trapCause p (s.exIn i) := rfl
    rw [this, trapCause, ht, if_pos rfl]
    exact hcause
  have hti : (s.trapIn p i).takeInterrupt = true := ht
  rw [TrapUnit.trapTarget, hti, Bool.true_and, vector, TrapUnit.vecTarget, mtvecBase_eq]
  by_cases hv : s.csr.regs.mtvec.extractLsb' 0 2 = 1
  · have hiv : TrapUnit.isVectored s.csr.regs.taps = true := by
      rw [TrapUnit.isVectored, beq_iff_eq]
      exact hv
    have hoff : TrapUnit.intOffset (s.trapIn p i) = BitVec.ofNat 32 (4 * b) := by
      rw [TrapUnit.intOffset, hci]
      unfold Csrs.firstPending at hb
      have hmem := List.mem_of_find?_eq_some hb
      simp only [List.mem_cons, List.not_mem_nil, or_false] at hmem
      rcases hmem with rfl | rfl | rfl <;> decide
    rw [hiv, if_pos rfl, if_pos hv, hoff]
    rfl
  · have hiv : TrapUnit.isVectored s.csr.regs.taps = false := by
      rw [TrapUnit.isVectored, beq_eq_false_iff_ne]
      exact hv
    rw [hiv, if_neg (by decide), if_neg hv]
    exact (BitVec.add_zero _).symm

theorem trapTarget_sync (ht : s.ex.syncTrapReq p (s.exIn i) = true) :
    TrapUnit.trapTarget s.csr.regs.taps (s.trapIn p i) = vector s.csr.regs none := by
  have hti : (s.trapIn p i).takeInterrupt = false := by
    have : (s.trapIn p i).takeInterrupt = s.ex.takeInterrupt p (s.exIn i) := rfl
    rw [this]
    simp [takeInterrupt, ht]
  rw [TrapUnit.trapTarget, hti, Bool.false_and, if_neg (by decide), mtvecBase_eq, vector]
  exact (BitVec.add_zero _).symm

private theorem one_of_entry (h : s.Sane p) (he : s.entry p i = true) :
    [s.ex.syncTrapReq p (s.exIn i), s.ex.takeInterrupt p (s.exIn i), s.ex.mretReq (s.exIn i)].count true = 1 := by
  have hm := mretReq_of_entry h he
  rw [entry, Bool.or_eq_true] at he
  rcases he with ht | ht
  · have hi : s.ex.takeInterrupt p (s.exIn i) = false := by simp [takeInterrupt, ht]
    rw [ht, hi, hm]
    rfl
  · rw [ht, (takeInterrupt_parts ht).2.1, hm]
    rfl

/-- **Trap entry is atomic.**  In every reachable state a cycle that takes a synchronous trap or an interrupt writes
no register and no CSR for the instruction it squashes, raises no request, trains nothing, and enters. -/
theorem trap_entry_atomic (inp : Nat → CoreIn) (h : s.IsReset boot img rf) (t : Nat)
    (he : (trace (next p) s inp t).entry p (inp t) = true) : AtomicEntry p (trace (next p) s inp t) (inp t) := by
  have hs : (trace (next p) s inp t).Sane p := sane_run h inp t
  generalize trace (next p) s inp t = q at hs he ⊢
  generalize inp t = j at he ⊢
  obtain ⟨hc, hq⟩ := quiet_of_entry hs he
  simp only [Acts, not_or, Bool.not_eq_true] at hq
  obtain ⟨hwb, hcsr, htrain, hdmem, hperi⟩ := hq
  obtain ⟨hde, hhold, hcount, hpc⟩ := next_of_entry hs he
  have hent := csrEntry_of_entry hs he
  refine ⟨one_of_entry hs he, hwb, next_rf_of_not_commit hc, hcsr, hdmem, hperi, htrain, ⟨hde, hhold, hcount⟩, ?_, ?_⟩
  · intro ht
    have hrep := trapReport_sync hs ht
    rw [← hrep, hpc, trapTarget_sync ht]
    exact ⟨hent, rfl⟩
  · intro ht
    have hpend : TrapUnit.intPending q.csr.regs.taps = true := (takeInterrupt_parts ht).1
    rw [intPending_eq, Bool.and_eq_true, Option.isSome_iff_exists] at hpend
    obtain ⟨hmie, b, hb⟩ := hpend
    have hcause : q.ex.trapCause p (q.exIn j) = 0x80000000#32 + BitVec.ofNat 32 b := by
      rw [trapCause, ht, if_pos rfl]
      exact intCause_eq hb
    have htval : q.ex.trapTval p (q.exIn j) = 0 := by rw [trapTval, ht, if_pos rfl]
    rw [hcause, htval] at hent
    refine ⟨b, hmie, hb, hent, ?_⟩
    rw [hpc, trapTarget_interrupt ht hb]

/-- The interrupt of cycle 9 at the second no-operation. -/
theorem trap_entry_atomic_msi :
    let s := reset 0 (imgOf [0x3004607330446073#64]) ⟨fun _ => 0⟩
    AtomicEntry .pkg (trace (next .pkg) s (msipFrom 8) 9) (msipFrom 8 9) :=
  trap_entry_atomic (p := .pkg) (msipFrom 8) (reset_isReset 0 (imgOf [0x3004607330446073#64]) ⟨fun _ => 0⟩) 9
    (by decide +kernel)

/-! ### The halt of WFI -/

/-- The next halt flag, outside the retirement of a WFI. -/
private theorem next_halt : (s.next p i).ex.wfiHaltQ =
    (s.ex.wfiRetire p (s.exIn i) || wfiStall s.ex (s.exIn i)) := rfl

/-- A halted hart that sees an interrupt redirects in this cycle. -/
private theorem redirect_of_wake (hh : s.ex.wfiHaltQ = true) (hi : TrapUnit.intPending s.csr.regs.taps = true) :
    s.ex.takeInterrupt p (s.exIn i) = true ∨ s.ex.syncTrapReq p (s.exIn i) = true ∨
      s.ex.mretReq (s.exIn i) = true := by
  have hx : (s.exIn i).intPending = true := hi
  cases hs : s.ex.syncTrapReq p (s.exIn i) with
  | true => exact .inr (.inl rfl)
  | false =>
    cases hm : s.ex.mretReq (s.exIn i) with
    | true => exact .inr (.inr rfl)
    | false => exact .inl (by simp [takeInterrupt, hx, hs, hm, hh])

/-- The halt ends with the pending interrupt, whichever redirect goes first. -/
private theorem halt_release (hh : s.ex.wfiHaltQ = true) (hi : TrapUnit.intPending s.csr.regs.taps = true) :
    (s.next p i).ex.wfiHaltQ = false := by
  have hst : wfiStall s.ex (s.exIn i) = false := by
    have hx : (s.exIn i).intPending = true := hi
    simp [wfiStall, hx]
  have hr : s.ex.wfiRetire p (s.exIn i) = false := by
    have htr : s.ex.trapRedirectReq p (s.exIn i) = true := by
      rcases redirect_of_wake (p := p) (i := i) hh hi with h | h | h <;> simp [trapRedirectReq, h]
    simp [wfiRetire, htr]
  rw [next_halt, hr, hst, Bool.or_false]

/-- What a halted hart keeps: the flag, the instruction behind the WFI, the registers and the two enables. -/
structure Parked (s s' : Core) : Prop where
  halt : s'.ex.wfiHaltQ = true
  de : s'.de = s.de
  rf : s'.rf = s.rf
  mstatus : s'.csr.regs.mstatus = s.csr.regs.mstatus
  mie : s'.csr.regs.mie = s.csr.regs.mie

private theorem Parked.trans {s₁ s₂ s₃ : Core} (h : Parked s₁ s₂) (h' : Parked s₂ s₃) : Parked s₁ s₃ :=
  ⟨h'.halt, h'.de.trans h.de, h'.rf.trans h.rf, h'.mstatus.trans h.mstatus, h'.mie.trans h.mie⟩

/-- Without an interrupt the hart stays parked. -/
private theorem parked_next (h : s.Sane p) (hh : s.ex.wfiHaltQ = true)
    (hi : TrapUnit.intPending s.csr.regs.taps = false) : Parked s (s.next p i) := by
  have hx : (s.exIn i).intPending = false := hi
  have hst : wfiStall s.ex (s.exIn i) = true := by simp [wfiStall, hh, hx]
  have hfr : freeze s.ex (s.exIn i) = true := by simp [freeze, hst]
  obtain ⟨hidle, hc, he⟩ := frozen h hst
  have hmret : s.ex.mretReq (s.exIn i) = false := by simp [mretReq, hfr]
  have hstall : s.ex.stallO p (s.exIn i) = true := by simp [stallO, hst]
  have hb : s.ex.branchValid p (s.exIn i) = false := by
    have hr : s.ex.cfResolving p (s.exIn i) = false := by simp [cfResolving, hfr]
    rw [entry, Bool.or_eq_false_iff] at he
    simp [branchValid, mispredict, hr, trapRedirectReq, hmret, he.1, he.2]
  have hw : ∀ a, CsrRegfile.wr (s.csrIn p i) a = false := by
    intro a
    have hw : s.ex.csrWren p (s.exIn i) = false := by
      cases hw : s.ex.csrWren p (s.exIn i) with
      | false => rfl
      | true =>
        rw [opCommits_of_csrWren hw] at hc
        exact absurd hc (by decide)
    rw [CsrRegfile.wr, show (s.csrIn p i).csrWren = s.ex.csrWren p (s.exIn i) from rfl, hw, Bool.false_and]
  have hnext : (s.next p i).csr.regs = CsrRegfile.regsD s.csr (s.csrIn p i) := rfl
  refine ⟨by rw [next_halt, hst, Bool.or_true], by rw [next_de, hb, hstall]; rfl, next_rf_of_not_commit hc, ?_, ?_⟩
  · have hwe : (s.csrIn p i).trap.weMstatus = false := by
      have : (s.csrIn p i).trap.weMstatus = (s.entry p i || s.ex.mretReq (s.exIn i)) := rfl
      rw [this, he, hmret, Bool.false_or]
    rw [hnext, CsrRegfile.regsD]
    simp only [CsrRegfile.mstatusD, hwe, hw, Bool.false_eq_true, if_false]
  · rw [hnext, CsrRegfile.regsD]
    simp only [hw, Bool.false_eq_true, if_false]

/-- With the global enable off no interrupt line wakes the hart. -/
private theorem parked_run (hs : s.Sane p) (hh : s.ex.wfiHaltQ = true) (hg : s.csr.regs.globalEnable = false)
    (inp : Nat → CoreIn) (t : Nat) : Parked s (trace (next p) s inp t) := by
  induction t with
  | zero => exact ⟨hh, rfl, rfl, rfl, rfl⟩
  | succ t ih =>
    have hs' : (trace (next p) s inp t).Sane p := trace_invariant hs (fun _ i h => h.next i) t
    have hoff : TrapUnit.intPending (trace (next p) s inp t).csr.regs.taps = false := by
      rw [intPending_eq, Csrs.globalEnable, ih.mstatus]
      rw [Csrs.globalEnable] at hg
      rw [hg, Bool.false_and]
    exact ih.trans (parked_next hs' ih.halt hoff)

theorem mip_line {b : Nat} (hb : b = 3 ∨ b = 7 ∨ b = 11) :
    (s.next p i).csr.regs.mip.getLsbD b = i.line b := by
  have hnext : (s.next p i).csr.regs.mip = CsrRegfile.mipD s.csr (s.csrIn p i) := rfl
  rw [hnext, CsrRegfile.mipD, BitVec.getLsbD_append, BitVec.getLsbD_append, BitVec.getLsbD_append,
    BitVec.getLsbD_append, BitVec.getLsbD_append, BitVec.getLsbD_append]
  rcases hb with rfl | rfl | rfl
  · simp [CoreIn.line, csrIn]
  · simp [CoreIn.line, csrIn]
  · simp [CoreIn.line, csrIn]

private theorem firstPending_isSome {r : Csrs} {b : Nat} (hb : b = 3 ∨ b = 7 ∨ b = 11) (h : r.pending b = true) :
    r.firstPending.isSome = true := by
  rw [Csrs.firstPending, List.find?_isSome]
  refine ⟨b, ?_, h⟩
  rcases hb with rfl | rfl | rfl <;> decide

/-- A halted hart whose global enable is on is awake two cycles after an enabled line rises. -/
private theorem wake_run (hs : s.Sane p) (hh : s.ex.wfiHaltQ = true) (hg : s.csr.regs.globalEnable = true)
    (inp : Nat → CoreIn) (u : Nat) {b : Nat} (hb : b = 3 ∨ b = 7 ∨ b = 11) (hl : (inp u).line b = true)
    (he : s.csr.regs.mie.getLsbD b = true) :
    ∃ v, 0 < v ∧ v ≤ u + 2 ∧ (trace (next p) s inp v).ex.wfiHaltQ = false := by
  by_contra hno
  push Not at hno
  have hall : ∀ v, 0 < v → v ≤ u + 2 → (trace (next p) s inp v).ex.wfiHaltQ = true := by
    intro v h0 h1
    have := hno v h0 h1
    rwa [ne_eq, Bool.not_eq_false] at this
  -- Up to cycle `u + 1` the hart is parked: a wake-up would show in the flag one cycle later.
  have hpark : ∀ v ≤ u + 1, Parked s (trace (next p) s inp v) := by
    intro v
    induction v with
    | zero => exact fun _ => ⟨hh, rfl, rfl, rfl, rfl⟩
    | succ v ih =>
      intro hv
      have ih := ih (by omega)
      have hs' : (trace (next p) s inp v).Sane p := trace_invariant hs (fun _ i h => h.next i) v
      cases hi : TrapUnit.intPending (trace (next p) s inp v).csr.regs.taps with
      | false => exact ih.trans (parked_next hs' ih.halt hi)
      | true =>
        have hrel : (trace (next p) s inp (v + 1)).ex.wfiHaltQ = false := halt_release ih.halt hi
        rw [hall (v + 1) (by omega) (by omega)] at hrel
        exact absurd hrel (by decide)
  have hpk := hpark (u + 1) le_rfl
  have hpend : (trace (next p) s inp (u + 1)).csr.regs.pending b = true := by
    rw [Csrs.pending, hpk.mie, he, trace_succ, mip_line hb, hl, Bool.and_true]
  have hon : TrapUnit.intPending (trace (next p) s inp (u + 1)).csr.regs.taps = true := by
    rw [intPending_eq, firstPending_isSome hb hpend, Csrs.globalEnable, hpk.mstatus]
    rw [Csrs.globalEnable] at hg
    rw [hg, Bool.true_and]
  have hrel : (trace (next p) s inp (u + 2)).ex.wfiHaltQ = false := halt_release hpk.halt hon
  rw [hall (u + 2) (by omega) le_rfl] at hrel
  exact absurd hrel (by decide)

/-- The cycle in which the pending interrupt ends the halt: it enters with the wake address, unless the instruction
parked behind the WFI traps or is an `mret`, which then goes first. -/
structure Wakes (p : Params) (s : Core) (i : CoreIn) : Prop where
  halt : (s.next p i).ex.wfiHaltQ = false
  one : [s.ex.syncTrapReq p (s.exIn i), s.ex.takeInterrupt p (s.exIn i), s.ex.mretReq (s.exIn i)].count true = 1
  entry : s.ex.takeInterrupt p (s.exIn i) = true → (s.next p i).csr.regs.mepc = s.ex.wfiNextPcQ
  parked : s.ex.takeInterrupt p (s.exIn i) = false →
    s.de.valid = true ∧ (s.de.exception = true ∨ s.de.sysOp = .mret)

private theorem wakes_of_pending (h : s.Sane p) (hh : s.ex.wfiHaltQ = true)
    (hi : TrapUnit.intPending s.csr.regs.taps = true) : Wakes p s i := by
  have hred := redirect_of_wake (p := p) (i := i) hh hi
  refine ⟨halt_release hh hi, ?_, fun ht => ?_, fun ht => ?_⟩
  · rcases hred with ht | ht | ht
    · exact one_of_entry h (by rw [entry, ht, Bool.or_true])
    · exact one_of_entry h (by rw [entry, ht, Bool.true_or])
    · have hsync : s.ex.syncTrapReq p (s.exIn i) = false := by
        cases hs : s.ex.syncTrapReq p (s.exIn i) with
        | false => rfl
        | true =>
          rw [mretReq_of_sync h hs] at ht
          exact absurd ht (by decide)
      have hint : s.ex.takeInterrupt p (s.exIn i) = false := by simp [takeInterrupt, ht]
      rw [hsync, hint, ht]
      rfl
  · have hent : s.entry p i = true := by rw [entry, ht, Bool.or_true]
    rw [(next_csr_entry hent).1, trapMepc, hh, if_pos rfl]
  · rw [ht] at hred
    rcases hred with hx | hx | hx
    · exact absurd hx (by decide)
    · cases hm : s.ex.misalignedTrap p (s.exIn i) with
      | true =>
        have := (misaligned_facts h hm).2.2.2.1
        rw [hh] at this
        exact absurd this (by decide)
      | false =>
        simp only [syncTrapReq, hm, Bool.or_false, Bool.and_eq_true] at hx
        exact ⟨hx.1.1.1, .inl hx.2⟩
    · simp only [mretReq, isMretOp, Bool.and_eq_true, beq_iff_eq] at hx
      exact ⟨hx.1.1.1, .inr hx.2⟩

/-- **WFI release.**  In every reachable state in which the hart is halted: with the global enable on, a pending
enabled interrupt ends the halt in the next cycle, and an enabled line that rises ends it within two; with the global
enable off the hart stays parked, whatever the lines do, and commits nothing. -/
theorem wfi_release (inp : Nat → CoreIn) (h : s.IsReset boot img rf) (t : Nat)
    (hh : (trace (next p) s inp t).ex.wfiHaltQ = true) :
    ((trace (next p) s inp t).csr.regs.globalEnable = true →
      ((trace (next p) s inp t).csr.regs.firstPending.isSome = true → Wakes p (trace (next p) s inp t) (inp t)) ∧
      ∀ u b, t ≤ u → b ∈ [3, 7, 11] → (inp u).line b = true →
        (trace (next p) s inp t).csr.regs.mie.getLsbD b = true →
        ∃ v, t < v ∧ v ≤ u + 2 ∧ (trace (next p) s inp v).ex.wfiHaltQ = false) ∧
    ((trace (next p) s inp t).csr.regs.globalEnable = false →
      ∀ u, t ≤ u → Parked (trace (next p) s inp t) (trace (next p) s inp u) ∧
        (trace (next p) s inp u).ex.opCommits p ((trace (next p) s inp u).exIn (inp u)) = false) := by
  have hs : (trace (next p) s inp t).Sane p := sane_run h inp t
  refine ⟨fun hg => ⟨fun hp => ?_, fun u b htu hb hl he => ?_⟩, fun hg u htu => ?_⟩
  · exact wakes_of_pending hs hh (by rw [intPending_eq, hg, hp, Bool.and_true])
  · obtain ⟨d, rfl⟩ := Nat.exists_eq_add_of_le htu
    have hb' : b = 3 ∨ b = 7 ∨ b = 11 := by simpa using hb
    obtain ⟨v, h0, h1, hv⟩ := wake_run hs hh hg (fun k => inp (t + k)) d hb' hl he
    rw [← trace_add] at hv
    exact ⟨t + v, by omega, by omega, hv⟩
  · obtain ⟨d, rfl⟩ := Nat.exists_eq_add_of_le htu
    have hpk := parked_run hs hh hg (fun k => inp (t + k)) d
    rw [← trace_add] at hpk
    refine ⟨hpk, ?_⟩
    have hs' : (trace (next p) s inp (t + d)).Sane p := sane_run h inp (t + d)
    have hoff : TrapUnit.intPending (trace (next p) s inp (t + d)).csr.regs.taps = false := by
      rw [intPending_eq, Csrs.globalEnable, hpk.mstatus]
      rw [Csrs.globalEnable] at hg
      rw [hg, Bool.false_and]
    have hst :
        wfiStall (trace (next p) s inp (t + d)).ex ((trace (next p) s inp (t + d)).exIn (inp (t + d))) = true := by
      have hx : ((trace (next p) s inp (t + d)).exIn (inp (t + d))).intPending = false := hoff
      simp [wfiStall, hpk.halt, hx]
    exact (frozen hs' hst).2.1

/-- The software interrupt is enabled at both levels: the line that rises in cycle 12 ends the halt in cycle 13. -/
theorem wfi_release_msi :
    let s := reset 0 (imgOf [0x3004607330446073#64, 0x0000001310500073#64]) ⟨fun _ => 0⟩
    Wakes .pkg (trace (next .pkg) s (msipFrom 12) 13) (msipFrom 12 13) :=
  ((wfi_release (p := .pkg) (msipFrom 12)
    (reset_isReset 0 (imgOf [0x3004607330446073#64, 0x0000001310500073#64]) ⟨fun _ => 0⟩) 13 (by decide +kernel)).1
    (by decide +kernel)).1 (by decide +kernel)

/-- `csrsi mie, 8` and `wfi` with the global enable off: the software interrupt is pending and enabled, and the hart
stays halted. -/
theorem wfi_release_masked :
    let run := trace (next .pkg) (reset 0 (imgOf [0x1050007330446073#64]) ⟨fun _ => 0⟩) (msipFrom 0)
    (run 6).ex.wfiHaltQ = true ∧ (run 6).csr.regs.firstPending = some 3 ∧ (run 7).ex.wfiHaltQ = true := by
  decide +kernel

end Core

end Yarv
