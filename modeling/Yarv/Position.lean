import Yarv.Retire

/-!
# The architectural position of the core

`archPc` is the address of the oldest instruction that has not committed: the boot address, then the successor
execute computes for each commit and the vector of each trap or interrupt entry.  `Core.At` ties the core to it: the
D/E register holds the item there, and the front end stands behind that item or where its prediction leads.

The tie is kept by every cycle in which `mret` finds an even `mepc` (`At.next`).  The CSR file stores `mepc` as it is
written; from an odd address fetch goes on at the next word and execute at the next odd address.
-/

namespace Yarv

open Clocked FetchStage ExecuteStage DecodeStage

variable {p : Params} {img : Nat → BitVec 64}

/-! ### Items at even addresses -/

/-- The address of the instruction behind `d`, as execute resolves it. -/
def nextPc (d : De) (mepc : Word) : Word :=
  if d.sysOp = .mret then mepc
  else if branchTaken (ofDe d) then branchTarget (ofDe d)
  else pcLink (ofDe d)

private theorem itemAt_fault {n : Word} (hf : (itemAt p img n).fault = true) :
    itemAt p img n = Item.faultAt (itemAt p img n).src.pc := by
  unfold itemAt at hf ⊢
  split_ifs at hf ⊢
  all_goals rfl

/-- An instruction at an even address is followed by the one at its link address. -/
theorem itemAt_step {n : Word} (he : n.getLsbD 0 = false) (hf : (itemAt p img n).fault = false) :
    (itemAt p img n).src.pc = n ∧
      afterItem p img n = n + (if (itemAt p img n).src.isCompressed then 2 else 4) := by
  rw [even_iff] at he
  have hn := n.isLt
  have h2 : (2 : Word).toNat = 2 := rfl
  have h4 : (4 : Word).toNat = 4 := rfl
  cases ho : outOfImem p n with
  | true =>
    rw [itemAt, if_pos ho] at hf
    exact Bool.noConfusion hf
  | false =>
    cases hc : isRvc (halfAt img n) with
    | true =>
      have hi : itemAt p img n = ⟨false, ⟨0, halfAt img n, n, true⟩⟩ := by rw [itemAt, ho, hc]; rfl
      have ha : afterItem p img n = if n.getLsbD 1 then spanPc n else n + 2 := by rw [afterItem, ho, hc]; rfl
      rw [hi, ha]
      refine ⟨rfl, ?_⟩
      cases hb : n.getLsbD 1 with
      | false => rfl
      | true =>
        rw [getLsbD_one_eq, decide_eq_true_iff] at hb
        refine BitVec.eq_of_toNat_eq ?_
        rw [if_pos rfl, if_pos rfl, toNat_spanPc, BitVec.toNat_add, h2]
        omega
    | false =>
      cases hb : n.getLsbD 1 with
      | false =>
        have hi : itemAt p img n = ⟨false, ⟨imgWord img (n.toNat / 4 * 4), 0, n, false⟩⟩ := by
          rw [itemAt, ho, hc, hb]; rfl
        have ha : afterItem p img n = spanPc n := by rw [afterItem, ho, hc, hb]; rfl
        rw [getLsbD_one_eq, decide_eq_false_iff_not] at hb
        rw [hi, ha]
        refine ⟨rfl, BitVec.eq_of_toNat_eq ?_⟩
        change (spanPc n).toNat = (n + 4).toNat
        rw [toNat_spanPc, BitVec.toNat_add, h4]
        omega
      | true =>
        cases hs : outOfImem p (spanPc n) with
        | true =>
          rw [itemAt, ho, hc, hb, hs] at hf
          exact Bool.noConfusion hf
        | false =>
          have hi : itemAt p img n = ⟨false, ⟨halfAt img (spanPc n) ++ halfAt img n, 0, n, false⟩⟩ := by
            rw [itemAt, ho, hc, hb, hs]; rfl
          have ha : afterItem p img n = spanPc n + 2 := by rw [afterItem, ho, hc, hb, hs]; rfl
          rw [getLsbD_one_eq, decide_eq_true_iff] at hb
          rw [hi, ha]
          refine ⟨rfl, BitVec.eq_of_toNat_eq ?_⟩
          change (spanPc n + 2).toNat = (n + 4).toNat
          rw [BitVec.toNat_add, BitVec.toNat_add, toNat_spanPc, h2, h4]
          omega

theorem add_even {a b : Word} (ha : a.getLsbD 0 = false) (hb : b.toNat % 2 = 0) : (a + b).getLsbD 0 = false := by
  rw [even_iff] at ha ⊢
  rw [BitVec.toNat_add]
  omega

/-! ### Commits do not fault -/

namespace ExecuteStage

variable {q : ExecuteStage} {i : ExecuteIn} {k : Kind}

/-- An instruction with an exception does not commit. -/
theorem exception_of_commit (h : ExAt p i.de q) (hk : i.de.HasKind k) (hc : opCommits p q i = true) :
    i.de.exception = false := by
  simp only [opCommits, Bool.or_eq_true] at hc
  rcases hc with hm | hc
  · simp only [mretReq, Bool.and_eq_true, isMretOp_kind hk, decide_eq_true_eq] at hm
    simp [hk.exception, hm.2]
  · simp only [Bool.and_eq_true, Bool.not_eq_true', trapRedirectReq, Bool.or_eq_false_iff] at hc
    obtain ⟨⟨⟨hv, hf⟩, -⟩, ⟨hs, -⟩, -⟩ := hc
    cases h with
    | idle state =>
      have hx : syncTrapReq p q i = i.de.exception := by
        simp [syncTrapReq, misalignedTrap_idle state, hv, hf, exIdle, state]
      rw [← hx, hs]
    | divBusy _ _ kind => simp [kind.exception]
    | csrWait _ _ kind => simp [kind.exception]
    | memLaunch _ _ kind => simp [kind.exception]
    | memTrap _ _ kind => simp [kind.exception]
    | memWait _ _ kind => simp [kind.exception]

end ExecuteStage

/-! ### Targets -/

/-- The target of a control-flow instruction at an even address is even. -/
theorem branchTarget_even {d : De} (hk : d.HasKind .branch) (he : d.pc.getLsbD 0 = false) :
    (branchTarget (ofDe d)).getLsbD 0 = false := by
  unfold branchTarget
  split
  · simp [ofDe]
  · next hj =>
    rcases hk.target rfl with h | h
    · exact absurd h hj
    · exact add_even he h

private theorem mtvecBase_even (t : TrapTaps) : (TrapUnit.mtvecBase t).getLsbD 0 = false := by
  rw [TrapUnit.mtvecBase, BitVec.getLsbD_append]
  rfl

private theorem intOffset_even (i : TrapIn) : (TrapUnit.intOffset i).toNat % 2 = 0 := by
  apply (even_iff _).mp
  rw [TrapUnit.intOffset, BitVec.getLsbD_setWidth, BitVec.getLsbD_append]
  rfl

/-- A trap vector is even. -/
theorem trapTarget_even (t : TrapTaps) (i : TrapIn) : (TrapUnit.trapTarget t i).getLsbD 0 = false := by
  unfold TrapUnit.trapTarget
  split
  · exact add_even (mtvecBase_even t) (intOffset_even i)
  · exact mtvecBase_even t

/-! ### The tie between the core and its position -/

namespace Core

/-- A trap or an interrupt is taken. -/
def entry (p : Params) (s : Core) (i : CoreIn) : Bool :=
  s.ex.syncTrapReq p (s.exIn i) || s.ex.takeInterrupt p (s.exIn i)

/-- The architectural position after a cycle. -/
def archPcNext (p : Params) (n : Word) (s : Core) (i : CoreIn) : Word :=
  if s.entry p i then s.trapRedirectAddr p i
  else if s.ex.opCommits p (s.exIn i) then nextPc s.de s.csr.regs.mepc
  else n

/-- The D/E register holds the item at `n`, and the front end stands behind it or where its prediction leads. -/
structure Holds (p : Params) (img : Nat → BitVec 64) (n : Word) (s : Core) : Prop where
  word : ∃ pr : Pred, (pr.valid = true → IsBranch s.de.instr) ∧
    s.de = (itemAt p img n).de s.de.rs1Data s.de.rs2Data pr ∧
    FeAt p img (if pr.t then pr.target else afterItem p img n) s.fe

theorem Holds.made {n : Word} {s : Core} (h : s.Holds p img n) : s.de.Made := by
  obtain ⟨pr, hcf, hde, -⟩ := h.word
  exact ⟨itemAt p img n, itemAt_fault, pr, hcf, hde⟩

/-- The core stands at the address `n`. -/
structure At (p : Params) (img : Nat → BitVec 64) (n : Word) (s : Core) : Prop where
  sane : s.Sane p
  even : n.getLsbD 0 = false
  empty : s.de.valid = false → FeAt p img n s.fe
  full : s.de.valid = true → s.Holds p img n

variable {s : Core} {i : CoreIn} {n : Word}

/-- The front end stands somewhere. -/
private theorem At.feAt (h : At p img n s) : ∃ a, FeAt p img a s.fe := by
  cases hv : s.de.valid with
  | false => exact ⟨n, h.empty hv⟩
  | true =>
    obtain ⟨pr, -, -, hf⟩ := (h.full hv).word
    exact ⟨_, hf⟩

/-- A redirect by execute puts the front end at its target, with nothing in the D/E register. -/
private theorem next_of_redirect {a : Word} (ha : FeAt p img a s.fe) (hb : s.ex.branchValid p (s.exIn i) = true) :
    (s.next p i).de = De.zero ∧
      FeAt p img (s.ex.branchAddr p (s.exIn i) (s.trapRedirectAddr p i)) (s.next p i).fe := by
  refine ⟨by rw [next_de, hb, if_pos rfl], ?_⟩
  have hn := ha.next (s.feIn p i)
  have hr : FetchStage.redirect (s.fe.fetchIn p (s.feIn p i)) = true := by
    rw [FrontEnd.redirect_eq, show (s.feIn p i).branchValid = true from hb, Bool.true_or]
  rw [FrontEnd.posNext, if_pos hr, FrontEnd.redirectAddr_eq, show (s.feIn p i).branchValid = true from hb] at hn
  exact hn

/-- Under a stall the D/E register and the front end stay. -/
private theorem next_of_stall {a : Word} (ha : FeAt p img a s.fe) (hb : s.ex.branchValid p (s.exIn i) = false)
    (hs : s.ex.stallO p (s.exIn i) = true) : (s.next p i).de = s.de ∧ FeAt p img a (s.next p i).fe := by
  refine ⟨by rw [next_de, hb, hs]; rfl, ?_⟩
  have hr : FetchStage.redirect (s.fe.fetchIn p (s.feIn p i)) = false := by
    rw [FrontEnd.redirect_eq, show (s.feIn p i).branchValid = false from hb, Bool.false_or, predRedirectFire]
    simp [show (s.feIn p i).stall = true from hs]
  exact (ha.step (s.feIn p i)).wait hr hs

/-- The prediction decode records for a word it calls taken is the target it redirects to. -/
private theorem pred_target {q : DecodeStage} {d : DecodeIn} (h : (pred p q d).t = true) :
    (pred p q d).target = cfTarget q d := by
  simp only [Pred.t, pred, predTaken, cfTaken, Bool.and_eq_true, Bool.or_eq_true] at h
  obtain ⟨⟨hb, hcf⟩, -, -, ht⟩ := h
  simp only [pred, hb, if_true, predTarget, hcf, cfTarget]
  cases hret : (src q d).cfRet with
  | true => rfl
  | false =>
    rcases ht with (ht | ht) | ht
    · cases (src q d).cfCond <;> simp [ht]
    · simp [ht.1]
    · rw [hret] at ht
      exact absurd ht.1 (by decide)

/-- Without a stall and a redirect the D/E register takes the item at the position of the front end. -/
private theorem next_of_go (ha : FeAt p img n s.fe) (hb : s.ex.branchValid p (s.exIn i) = false)
    (hs : s.ex.stallO p (s.exIn i) = false) :
    ((s.next p i).de.valid = false → FeAt p img n (s.next p i).fe) ∧
      ((s.next p i).de.valid = true → (s.next p i).Holds p img n) := by
  have hde : (s.next p i).de = deD p s.fe.decode (s.fe.decodeIn (s.feIn p i)) := by rw [next_de, hb, hs]; rfl
  have hbv : (s.feIn p i).branchValid = false := hb
  have hst : (s.feIn p i).stall = false := hs
  have hfire : FetchStage.redirect (s.fe.fetchIn p (s.feIn p i)) =
      (pred p s.fe.decode (s.fe.decodeIn (s.feIn p i))).t := by
    rw [FrontEnd.redirect_eq, hbv, Bool.false_or, predRedirectFire, FrontEnd.decodeIn_stall, FrontEnd.decodeIn_flush,
      hst, hbv]
    simp [Pred.t, pred, predTaken, Bool.and_assoc, Bool.and_left_comm]
  have hn := ha.next (s.feIn p i)
  rw [FrontEnd.posNext, hfire, FrontEnd.redirectAddr_eq, hbv, hst] at hn
  rw [hde]
  constructor
  · intro hv
    have hv' : decodedValid s.fe.decode (s.fe.decodeIn (s.feIn p i)) = false := hv
    have ht : (pred p s.fe.decode (s.fe.decodeIn (s.feIn p i))).t = false := by simp [Pred.t, pred, isCf, hv']
    rw [ht, hv'] at hn
    exact hn
  · intro hv
    have hv' : decodedValid s.fe.decode (s.fe.decodeIn (s.feIn p i)) = true := hv
    have hitem := (ha.step (s.feIn p i)).item hv'
    refine ⟨pred p s.fe.decode (s.fe.decodeIn (s.feIn p i)), fun hp => ?_, ?_, ?_⟩
    · rw [hde]
      simp only [pred, Bool.and_eq_true] at hp
      exact isCf_sound hp.2
    · rw [hde, deD_eq hv', ← hitem]
      rfl
    · rw [hv'] at hn
      cases ht : (pred p s.fe.decode (s.fe.decodeIn (s.feIn p i))).t with
      | true =>
        rw [ht] at hn
        rw [if_pos rfl, pred_target ht]
        exact hn
      | false =>
        rw [ht] at hn
        exact hn

/-! ### Commits move the core to the next instruction -/

/-- An instruction that commits is valid. -/
theorem valid_of_commit (h : s.Sane p) (hc : s.ex.opCommits p (s.exIn i) = true) : s.de.valid = true := by
  cases hv : s.de.valid with
  | true => rfl
  | false =>
    rw [(h.ex.bubble (i := s.exIn i) rfl hv).1] at hc
    exact absurd hc (by decide)

/-- An `mret` commits through its own request. -/
theorem mretReq_of_commit (h : s.Sane p) (hc : s.ex.opCommits p (s.exIn i) = true) (hs : s.de.sysOp = .mret) :
    s.ex.mretReq (s.exIn i) = true := by
  have hv := valid_of_commit h hc
  obtain ⟨k, hk⟩ := (h.fresh hv).kind
  obtain rfl : k = .mret := by simpa [hs] using hk.mret
  have hidle := h.ex.state_idle hk (by decide) (by decide) (by decide)
  simp only [opCommits, Bool.or_eq_true, Bool.and_eq_true, Bool.not_eq_true'] at hc
  rcases hc with hc | hc
  · exact hc
  · simp [mretReq, hc.1.1.2, hv, exIdle, hidle, isMretOp, hs]

/-- An instruction that commits is fetched from the architectural position. -/
theorem At.commit_pc (h : At p img n s) (hc : s.ex.opCommits p (s.exIn i) = true) :
    s.de.valid = true ∧ s.de.pc = n ∧ (itemAt p img n).fault = false ∧
      s.de.instr = (itemAt p img n).src.instr32 := by
  have hv := valid_of_commit h.sane hc
  obtain ⟨k, hk⟩ := (h.sane.fresh hv).kind
  obtain ⟨pr, -, hde, -⟩ := (h.full hv).word
  have hx := exception_of_commit (i := s.exIn i) h.sane.ex hk hc
  have hf : (itemAt p img n).fault = false := by
    rw [exIn_de, hde] at hx
    simp only [Item.de, Bool.or_eq_false_iff] at hx
    exact hx.1.1
  refine ⟨hv, ?_, hf, by rw [hde]; rfl⟩
  rw [hde]
  exact (itemAt_step h.even hf).1

/-- Behind a commit that redirects nothing, fetch has gone on at the successor. -/
private theorem nextPc_of_quiet (h : s.Sane p) (hm : s.de.Made) (hc : s.ex.opCommits p (s.exIn i) = true)
    (hb : s.ex.branchValid p (s.exIn i) = false) :
    nextPc s.de s.csr.regs.mepc = if predT (s.exIn i) then s.de.predTarget else pcLink (ofDe s.de) := by
  have hv := valid_of_commit h hc
  obtain ⟨k, hk⟩ := hm.kind
  have htrap : trapRedirectReq p s.ex (s.exIn i) = false := by
    rw [branchValid, Bool.or_eq_false_iff] at hb
    exact hb.2
  have hmis : s.ex.mispredict p (s.exIn i) = false := by
    rw [branchValid, Bool.or_eq_false_iff] at hb
    exact hb.1
  have hmret : mretReq s.ex (s.exIn i) = false := by
    simp only [trapRedirectReq, Bool.or_eq_false_iff] at htrap
    exact htrap.1.2
  have hfr : freeze s.ex (s.exIn i) = false := by
    simp only [opCommits, hmret, Bool.false_or, Bool.and_eq_true, Bool.not_eq_true'] at hc
    exact hc.1.1.2
  have hsys : s.de.sysOp ≠ .mret := by
    intro hs
    rw [mretReq_of_commit h hc hs] at hmret
    exact absurd hmret (by decide)
  rw [nextPc, if_neg hsys]
  cases hbr : s.de.branchType != .none with
  | false =>
    -- No control flow: nothing was predicted.
    have hnone : s.de.branchType = .none := by simpa using hbr
    have hbt : branchTaken (ofDe s.de) = false := by simp [branchTaken, ofDe, hnone]
    have ht : predT (s.exIn i) = false := by
      rw [Bool.eq_false_iff]
      intro hx
      rw [predT, Bool.and_eq_true] at hx
      exact hm.predicted hx.1 hnone
    rw [hbt, ht]
    rfl
  | true =>
    have hill : s.de.illegal = false := by
      cases hx : s.de.illegal with
      | false => rfl
      | true =>
        obtain rfl := hk.illegal hx
        have := hk.branch
        rw [hbr] at this
        exact absurd this (by decide)
    have hres : s.ex.cfResolving p (s.exIn i) = true := by
      simp [cfResolving, hv, hill, hbr, hfr, htrap]
    rw [mispredict, hres, Bool.true_and, Bool.or_eq_false_iff, dirMispredict, tgtMispredict] at hmis
    have hdir : branchTaken (s.exIn i) = predT (s.exIn i) := by
      have hd := hmis.1
      revert hd
      cases branchTaken (s.exIn i) <;> cases predT (s.exIn i) <;> decide
    have hdir' : branchTaken (ofDe s.de) = predT (s.exIn i) := hdir
    rw [hdir']
    cases ht : predT (s.exIn i) with
    | false => rfl
    | true =>
      have hx := hmis.2
      rw [hdir, ht] at hx
      have htgt : branchTarget (s.exIn i) = s.de.predTarget := by simpa using hx
      rw [if_pos rfl, if_pos rfl]
      exact htgt

/-- Behind a commit that redirects nothing, the front end stands at the successor. -/
private theorem At.commit_front (h : At p img n s) (hc : s.ex.opCommits p (s.exIn i) = true)
    (hb : s.ex.branchValid p (s.exIn i) = false) : FeAt p img (nextPc s.de s.csr.regs.mepc) s.fe := by
  obtain ⟨hv, hpc, hf, -⟩ := h.commit_pc hc
  have hmade := (h.full hv).made
  obtain ⟨pr, -, hde, hfe⟩ := (h.full hv).word
  have hpred : predT (s.exIn i) = pr.t := by
    rw [predT, exIn_de, hde]
    rfl
  have htgt : s.de.predTarget = pr.target := by
    rw [hde]
    rfl
  have hafter : afterItem p img n = pcLink (ofDe s.de) := by
    have hcomp : s.de.isCompressed = (itemAt p img n).src.isCompressed := by rw [hde]; rfl
    rw [(itemAt_step h.even hf).2, ← hcomp]
    change _ = s.de.pc + _
    rw [hpc]
    rfl
  rw [nextPc_of_quiet h.sane hmade hc hb, hpred, htgt, ← hafter]
  exact hfe

/-- The successor of an instruction at an even address is even, for an even `mepc`. -/
private theorem nextPc_even {d : De} {m : Word} (hk : ∃ k, d.HasKind k) (he : d.pc.getLsbD 0 = false)
    (hm : d.sysOp = .mret → m.getLsbD 0 = false) : (nextPc d m).getLsbD 0 = false := by
  obtain ⟨k, hk⟩ := hk
  unfold nextPc
  split_ifs with h1 h2
  · exact hm h1
  · have hb : k = .branch := by
      have hne : d.branchType ≠ .none := by
        intro hn
        simp [branchTaken, ofDe, hn] at h2
      have hd := hk.branch
      rw [bne_iff_ne.mpr hne] at hd
      exact of_decide_eq_true hd.symm
    exact branchTarget_even (hb ▸ hk) he
  · unfold pcLink
    refine add_even he ?_
    split <;> rfl

/-- In a cycle of `mret` the return address is even. -/
def EvenMepc (s : Core) (i : CoreIn) : Prop :=
  s.ex.mretReq (s.exIn i) = true → s.csr.regs.mepc.getLsbD 0 = false

instance (s : Core) (i : CoreIn) : Decidable (EvenMepc s i) :=
  inferInstanceAs (Decidable (_ → _))

theorem trapRedirectAddr_mret (h : s.ex.mretReq (s.exIn i) = true) :
    s.trapRedirectAddr p i = s.csr.regs.mepc := by
  rw [trapRedirectAddr, TrapUnit.redirectAddr, trapIn, h]
  rfl

theorem trapRedirectAddr_entry (h : s.ex.mretReq (s.exIn i) = false) :
    s.trapRedirectAddr p i = TrapUnit.trapTarget s.csr.regs.taps (s.trapIn p i) := by
  rw [trapRedirectAddr, TrapUnit.redirectAddr, trapIn, h]
  rfl

/-- The redirect of a commit leads to the successor. -/
private theorem branchAddr_commit (h : s.Sane p) (hc : Commits p s.ex (s.exIn i)) :
    s.ex.branchAddr p (s.exIn i) (s.trapRedirectAddr p i) = nextPc s.de s.csr.regs.mepc := by
  unfold branchAddr nextPc
  cases hm : s.ex.mretReq (s.exIn i) with
  | true =>
    have hs : s.de.sysOp = .mret := by
      simp only [mretReq, isMretOp, Bool.and_eq_true, beq_iff_eq] at hm
      exact hm.2
    rw [if_pos (by simp [trapRedirectReq, hm]), if_pos hs, trapRedirectAddr_mret hm]
  | false =>
    have hs : s.de.sysOp ≠ .mret := by
      intro hs
      rw [mretReq_of_commit h hc.commit hs] at hm
      exact absurd hm (by decide)
    rw [if_neg (by simp [trapRedirectReq, hm, hc.sync, hc.int]), if_neg hs]
    rfl

/-- The address at which fetch goes on behind the instruction in execute: the redirect, or else the one decode has
predicted. -/
def goesOn (p : Params) (s : Core) (i : CoreIn) : Word :=
  if s.ex.branchValid p (s.exIn i) then s.ex.branchAddr p (s.exIn i) (s.trapRedirectAddr p i)
  else if predT (s.exIn i) then s.de.predTarget
  else pcLink (s.exIn i)

/-- Behind a commit fetch goes on at the successor. -/
theorem goesOn_commit (h : s.Sane p) (hm : s.de.Made) (hc : s.ex.opCommits p (s.exIn i) = true) :
    s.goesOn p i = nextPc s.de s.csr.regs.mepc := by
  have hv := valid_of_commit h hc
  obtain ⟨k, hk⟩ := hm.kind
  have hall : Commits p s.ex (s.exIn i) := by
    rcases h.ex.outcome (i := s.exIn i) hk rfl hv with ⟨hw, -⟩ | ⟨hall, -⟩ | ⟨hq, -⟩
    · rw [hw.commit] at hc
      cases hc
    · exact hall
    · rw [hq.commit] at hc
      cases hc
  unfold goesOn
  cases hb : s.ex.branchValid p (s.exIn i) with
  | true => exact branchAddr_commit h hall
  | false => exact (nextPc_of_quiet h hm hc hb).symm

/-- One cycle keeps the tie. -/
theorem At.next (h : At p img n s) (i : CoreIn) (hm : EvenMepc s i) :
    At p img (archPcNext p n s i) (s.next p i) := by
  have hsane := h.sane.next i
  cases hv : s.de.valid with
  | false =>
    obtain ⟨hc, hsync, hmret, hint, hst, -⟩ := h.sane.ex.bubble (i := s.exIn i) rfl hv
    have hfe := h.empty hv
    cases ht : s.ex.takeInterrupt p (s.exIn i) with
    | true =>
      have hb : s.ex.branchValid p (s.exIn i) = true := branchValid_of_trap (by simp [trapRedirectReq, ht])
      obtain ⟨hde, hn⟩ := next_of_redirect hfe hb
      rw [branchAddr, if_pos (by simp [trapRedirectReq, ht])] at hn
      rw [archPcNext, entry, ht, Bool.or_true, if_pos rfl]
      refine ⟨hsane, ?_, fun _ => hn, fun hx => ?_⟩
      · rw [trapRedirectAddr_entry hmret]
        exact trapTarget_even _ _
      · rw [hde] at hx
        exact absurd hx (by decide)
    | false =>
      have hb : s.ex.branchValid p (s.exIn i) = false := by
        simp [branchValid, mispredict, cfResolving, hv, trapRedirectReq, hsync, hmret, ht]
      rw [archPcNext, entry, hsync, ht, hc]
      cases hs : s.ex.stallO p (s.exIn i) with
      | true =>
        obtain ⟨hde, hn⟩ := next_of_stall hfe hb hs
        exact ⟨hsane, h.even, fun _ => hn, fun hx => absurd hx (by rw [hde, hv]; decide)⟩
      | false =>
        obtain ⟨h1, h2⟩ := next_of_go hfe hb hs
        exact ⟨hsane, h.even, h1, h2⟩
  | true =>
    obtain ⟨k, hk⟩ := (h.sane.fresh hv).kind
    rcases h.sane.ex.outcome (i := s.exIn i) hk rfl hv with ⟨hw, -⟩ | ⟨hc, -⟩ | ⟨hq, -⟩
    · have hsync : s.ex.syncTrapReq p (s.exIn i) = false := by
        have := hw.trap
        simp only [trapRedirectReq, Bool.or_eq_false_iff] at this
        exact this.1.1
      have hint : s.ex.takeInterrupt p (s.exIn i) = false := by
        have := hw.trap
        simp only [trapRedirectReq, Bool.or_eq_false_iff] at this
        exact this.2
      obtain ⟨pr, h1, h2, h3⟩ := (h.full hv).word
      obtain ⟨hde, hn⟩ := next_of_stall h3 (branchValid_of_waits hw ⟨k, hk⟩) hw.stall
      rw [archPcNext, entry, hsync, hint, hw.commit]
      refine ⟨hsane, h.even, fun hx => absurd hx (by rw [hde, hv]; decide), fun _ => ⟨pr, ?_, ?_, hn⟩⟩
      · rw [hde]
        exact h1
      · rw [hde]
        exact h2
    · rw [archPcNext, entry, hc.sync, hc.int, hc.commit]
      have heven : (nextPc s.de s.csr.regs.mepc).getLsbD 0 = false := by
        refine nextPc_even ⟨k, hk⟩ (by rw [(h.commit_pc hc.commit).2.1]; exact h.even) fun hs => hm ?_
        exact mretReq_of_commit h.sane hc.commit hs
      cases hb : s.ex.branchValid p (s.exIn i) with
      | true =>
        obtain ⟨a, ha⟩ := h.feAt
        obtain ⟨hde, hn⟩ := next_of_redirect ha hb
        rw [branchAddr_commit h.sane hc] at hn
        refine ⟨hsane, heven, fun _ => hn, fun hx => ?_⟩
        rw [hde] at hx
        exact absurd hx (by decide)
      | false =>
        obtain ⟨h1, h2⟩ := next_of_go (h.commit_front hc.commit hb) hb hc.stall
        exact ⟨hsane, heven, h1, h2⟩
    · have hent : s.entry p i = true := by
        rcases hq.trap with ht | ht <;> simp [entry, ht]
      have htr : s.ex.trapRedirectReq p (s.exIn i) = true := by
        rcases hq.trap with ht | ht <;> simp [trapRedirectReq, ht]
      obtain ⟨a, ha⟩ := h.feAt
      obtain ⟨hde, hn⟩ := next_of_redirect ha (branchValid_of_trap htr)
      rw [branchAddr, if_pos htr] at hn
      rw [archPcNext, hent, if_pos rfl]
      refine ⟨hsane, ?_, fun _ => hn, fun hx => ?_⟩
      · rw [trapRedirectAddr_entry hq.mret]
        exact trapTarget_even _ _
      · rw [hde] at hx
        exact absurd hx (by decide)

/-! ### Runs -/

/-- The architectural position before cycle `t` of a run from a reset at `boot`. -/
def archPc (p : Params) (boot : Word) (s : Core) (inp : Nat → CoreIn) : Nat → Word :=
  companion (archPcNext p) (Core.next p) boot s inp

theorem archPc_succ (boot : Word) (inp : Nat → CoreIn) (t : Nat) :
    archPc p boot s inp (t + 1) =
      archPcNext p (archPc p boot s inp t) (trace (Core.next p) s inp t) (inp t) := rfl

theorem IsReset.at {boot : Word} {rf : RegFile} (h : s.IsReset boot img rf) (hb : boot.getLsbD 0 = false) :
    At p img boot s := by
  refine ⟨h.sane, hb, fun _ => h.fe.feAt, fun hv => ?_⟩
  have hde : s.de = De.zero := h.fe.decode.de
  rw [hde] at hv
  exact absurd hv (by decide)

/-- The core stands at its architectural position as long as every `mret` finds an even `mepc`. -/
theorem at_run {boot : Word} {rf : RegFile} (h : s.IsReset boot img rf) (hb : boot.getLsbD 0 = false)
    (inp : Nat → CoreIn) (t : Nat)
    (hm : ∀ u, u < t → EvenMepc (trace (Core.next p) s inp u) (inp u)) :
    At p img (archPc p boot s inp t) (trace (Core.next p) s inp t) :=
  companion_invariant (P := At p img) (Q := fun _ s i => EvenMepc s i) (h.at hb)
    (fun _ _ i hs hm => hs.next i hm) t hm

/-- Between two events the position stays. -/
theorem archPc_const {boot : Word} {inp : Nat → CoreIn} {a b : Nat} (hab : a ≤ b)
    (h : ∀ v, a ≤ v → v < b → (trace (Core.next p) s inp v).entry p (inp v) = false ∧
      (trace (Core.next p) s inp v).ex.opCommits p ((trace (Core.next p) s inp v).exIn (inp v)) = false) :
    archPc p boot s inp b = archPc p boot s inp a :=
  companion_const hab fun u h1 h2 => by
    obtain ⟨he, hc⟩ := h u h1 h2
    rw [archPcNext, he, hc]
    rfl

end Core

end Yarv
