import Yarv.Hart
import Yarv.FastPath
import Yarv.Precision

/-!
# Alignment of the PCs

Every PC of the hart stays even as long as the program writes even values to `mepc`, and only as long (`aligned_iff`):
the CSR file takes `mepc` raw, where `mtvec` and the target of JALR are masked.

The PCs of fetch and decode follow from the position of the front end (`FeAt`), so the invariant `Tracks` needs one
even address for all of them (`FetchAt.pcs`, `FeAt.next`).
-/

namespace Yarv

open Clocked FetchStage DecodeStage ExecuteStage

variable {p : Params} {img : Nat → BitVec 64}

/-- Bit 0 of an address is clear. -/
def EvenPc (a : Word) : Prop := a.getLsbD 0 = false

instance (a : Word) : Decidable (EvenPc a) := inferInstanceAs (Decidable (_ = _))

/-! ### Addresses of the front end -/

private theorem blockNext_even (a : Word) : EvenPc (blockNext a) := by
  rw [EvenPc, even_iff, toNat_blockNext]
  omega

private theorem spanPc_even (a : Word) : EvenPc (spanPc a) := by
  rw [EvenPc, even_iff, toNat_spanPc]
  omega

private theorem nextFetch_even (a : Word) : EvenPc (nextFetch p a) := by
  unfold nextFetch
  split
  · exact blockNext_even a
  · exact spanPc_even a

private theorem iterate_even {a : Word} (h : EvenPc a) (k : Nat) : EvenPc ((nextFetch p)^[k] a) := by
  cases k with
  | zero => exact h
  | succ k =>
    rw [Function.iterate_succ_apply']
    exact nextFetch_even _

private theorem afterItem_even {a : Word} (h : EvenPc a) : EvenPc (afterItem p img a) := by
  have h2 : (2 : Word).toNat % 2 = 0 := rfl
  unfold afterItem
  split_ifs
  · exact blockNext_even a
  · exact spanPc_even a
  · exact add_even h h2
  · exact spanPc_even a
  · exact blockNext_even _
  · exact add_even (spanPc_even a) h2

/-- The item at an even address carries an even PC. -/
private theorem itemAt_even {a : Word} (h : EvenPc a) : EvenPc (itemAt p img a).src.pc := by
  unfold itemAt
  split_ifs
  · exact h
  · exact h
  · exact h
  · exact spanPc_even a
  · exact h

/-- The PCs of fetch at an even position. -/
structure FetchEven (q : FetchStage) (r : NativeRam 64) : Prop where
  pc : EvenPc q.pcQ
  reqPc : r.rifQ = true → EvenPc q.reqPcQ
  buf : ∀ k < q.countQ, EvenPc (q.bufQ (q.headQ + BitVec.ofNat 3 k)).pc

private theorem FetchAt.pcs {a : Word} {q : FetchStage} {r : NativeRam 64} (h : FetchAt p img a q r) (ha : EvenPc a) :
    FetchEven q r := by
  have hpos := h.pos
  have hreq : r.rifQ = true → EvenPc q.reqPcQ := by
    intro hr
    rw [hr, if_pos rfl] at hpos
    rw [← hpos]
    exact iterate_even ha _
  refine ⟨?_, hreq, fun k hk => ?_⟩
  · cases hl : q.redirLaunchedQ with
    | true =>
      obtain ⟨hr, he⟩ := h.redir hl
      rw [← he]
      exact hreq hr
    | false =>
      have hn : q.nextIssue = q.pcQ := by rw [FetchStage.nextIssue, hl, if_neg (by decide)]
      rw [← hn]
      cases hr : r.rifQ with
      | true =>
        rw [h.issue hr]
        exact blockNext_even _
      | false =>
        rw [hr, if_neg (by decide)] at hpos
        rw [← hpos]
        exact iterate_even ha _
  · obtain ⟨l, hl, hs⟩ := h.buf
    have hlen : l.length = q.countQ := by
      have := congrArg List.length hs
      simpa using this
    have hk' : k < (l.map BufEntry.slot).length := by
      rw [List.length_map, hlen]
      exact hk
    have hslot : (l.map BufEntry.slot)[k] = slotAt p img ((nextFetch p)^[k] a) := by
      simp only [hs, getElem_slotsFrom]
    rw [List.getElem_map] at hslot
    have hkl : k < l.length := by omega
    have hpc : l[k].pc = (nextFetch p)^[k] a := by
      have := congrArg Slot.pc hslot
      rw [slotAt_pc] at this
      exact this
    rw [hl.get k hkl, hpc]
    exact iterate_even ha k

/-- The stash of decode at an even position. -/
private theorem FeAt.holdPc {a : Word} {s : FrontEnd} (h : FeAt p img a s) (ha : EvenPc a)
    (hq : s.decode.holdQ = true) :
    EvenPc s.decode.holdPcQ := by
  cases h with
  | fresh hold => exact absurd hq (by rw [hold]; decide)
  | held _ pc => rwa [pc]
  | dropped hold => exact absurd hq (by rw [hold]; decide)

private theorem FeAt.fetchEven {a : Word} {s : FrontEnd} (h : FeAt p img a s) (ha : EvenPc a) :
    FetchEven s.fetch s.imem := by
  cases h with
  | fresh _ h => exact h.pcs ha
  | held _ _ _ _ _ h => exact h.pcs (spanPc_even a)
  | dropped _ _ h => exact h.pcs (spanPc_even a)

/-! ### Targets -/

private theorem predImm_even (x : Src) : x.predImm.toNat % 2 = 0 := by
  unfold Src.predImm
  split_ifs
  · apply (even_iff _).mp
    rw [Src.predCbImm, BitVec.getLsbD_signExtend, BitVec.getLsbD_append]
    rfl
  · apply (even_iff _).mp
    rw [Src.predCjImm, BitVec.getLsbD_signExtend, BitVec.getLsbD_append]
    rfl
  · exact immJ_even _
  · exact immB_even _

/-- A fired prediction leads to an even address: the top of a stack that is not empty, or an even offset from the
PC. -/
private theorem cfTarget_even {q : DecodeStage} {i : DecodeIn} (hpc : EvenPc (src q i).pc)
    (hras : i.bpLookup.rasValid = true → EvenPc i.bpLookup.rasTop) (hf : predRedirectFire p q i = true) :
    EvenPc (cfTarget q i) := by
  unfold cfTarget
  cases hr : (src q i).cfRet with
  | false => exact add_even hpc (predImm_even _)
  | true =>
    have hop : opcode (src q i).instr32 = opcJalr := by
      rw [cfRet_eq] at hr
      simp only [Bool.and_eq_true, beq_iff_eq] at hr
      exact hr.1.1.1
    have hj : (src q i).cfJal = false := by
      rw [cfJal_eq, hop]
      rfl
    have hc : (src q i).cfCond = false := by
      rw [cfCond_eq, hop]
      rfl
    simp only [predRedirectFire, cfTaken, hr, hj, hc, Bool.and_eq_true, Bool.false_and, Bool.or_false, Bool.false_or,
      Bool.true_and] at hf
    exact hras hf.1.1.2

namespace Core

variable {s : Core} {i : CoreIn}

/-! ### Execute -/

/-- The instruction in the D/E register stands at an even address. -/
def EvenDe (s : Core) : Prop := s.de.valid = true → EvenPc s.de.pc

private theorem pcLink_even (h : EvenPc s.de.pc) : EvenPc (pcLink (s.exIn i)) := by
  refine add_even h ?_
  split <;> rfl

/-- Every redirect of execute leads to an even address. -/
private theorem branchAddr_even (h : s.Sane p) (hd : EvenDe s) (hm : EvenPc s.csr.regs.mepc)
    (hb : s.ex.branchValid p (s.exIn i) = true) :
    EvenPc (s.ex.branchAddr p (s.exIn i) (s.trapRedirectAddr p i)) := by
  unfold branchAddr
  cases ht : s.ex.trapRedirectReq p (s.exIn i) with
  | true =>
    rw [if_pos rfl]
    cases hr : s.ex.mretReq (s.exIn i) with
    | true =>
      rw [trapRedirectAddr_mret hr]
      exact hm
    | false =>
      rw [trapRedirectAddr_entry hr]
      exact trapTarget_even _ _
  | false =>
    have hres : s.ex.cfResolving p (s.exIn i) = true := by
      simp only [branchValid, ht, Bool.or_false, mispredict, Bool.and_eq_true] at hb
      exact hb.1
    have hv : s.de.valid = true := by
      simp only [cfResolving, Bool.and_eq_true] at hres
      exact hres.1.1.1.1
    obtain ⟨k, hk⟩ := (h.fresh hv).kind
    have hbr : k = .branch := (opCommits_of_cfResolving (i := s.exIn i) hk hres).2
    rw [if_neg (by decide)]
    split
    · exact branchTarget_even (hbr ▸ hk) (hd hv)
    · exact pcLink_even (hd hv)

/-- An entry saves an even address. -/
private theorem trapMepc_even (h : s.Sane p) (hd : EvenDe s) (hw : EvenPc s.ex.wfiNextPcQ) (he : s.entry p i = true) :
    EvenPc (s.ex.trapMepc (s.exIn i)) := by
  unfold trapMepc
  cases hh : s.ex.wfiHaltQ with
  | true => exact hw
  | false =>
    refine hd ?_
    cases hv : s.de.valid with
    | true => rfl
    | false =>
      obtain ⟨-, hsync, -, hint, -⟩ := h.ex.bubble (i := s.exIn i) rfl hv
      rw [entry, hsync, hint, hh] at he
      simp at he

/-- The program writes an even value when it writes `mepc`. -/
def EvenMepcWrite (p : Params) (s : Core) (i : CoreIn) : Prop :=
  s.ex.csrWren p (s.exIn i) = true → s.de.csrAddr = csrAddrMepc → EvenPc (csrWdata (s.exIn i))

private theorem next_mepc : (s.next p i).csr.regs.mepc =
    if s.entry p i then s.ex.trapMepc (s.exIn i)
    else if s.ex.csrWren p (s.exIn i) && s.de.csrAddr == csrAddrMepc then csrWdata (s.exIn i)
    else s.csr.regs.mepc := rfl

private theorem mepc_even (h : s.Sane p) (hd : EvenDe s) (hw : EvenPc s.ex.wfiNextPcQ) (hm : EvenPc s.csr.regs.mepc)
    (hok : EvenMepcWrite p s i) : EvenPc (s.next p i).csr.regs.mepc := by
  rw [next_mepc]
  split_ifs with he hc
  · exact trapMepc_even h hd hw he
  · rw [Bool.and_eq_true, beq_iff_eq] at hc
    exact hok hc.1 hc.2
  · exact hm

/-- An odd write goes into `mepc`: no entry comes with it. -/
private theorem mepc_of_write (hw : s.ex.csrWren p (s.exIn i) = true) (ha : s.de.csrAddr = csrAddrMepc)
    (h : s.Sane p) :
    (s.next p i).csr.regs.mepc = csrWdata (s.exIn i) := by
  have he : s.entry p i = false := by
    cases he : s.entry p i with
    | false => rfl
    | true =>
      have hc := opCommits_of_csrWren hw
      have hv := valid_of_commit h hc
      obtain ⟨k, hk⟩ := (h.fresh hv).kind
      rcases h.ex.outcome (i := s.exIn i) hk rfl hv with ⟨hx, -⟩ | ⟨hx, -⟩ | ⟨hx, -⟩
      · rw [hx.commit] at hc
        exact absurd hc (by decide)
      · rw [entry, hx.sync, hx.int] at he
        exact absurd he (by decide)
      · rw [hx.commit] at hc
        exact absurd hc (by decide)
  rw [next_mepc, he, hw, ha]
  rfl

private theorem wake_even (hd : EvenDe s) (hw : EvenPc s.ex.wfiNextPcQ) : EvenPc (s.next p i).ex.wfiNextPcQ := by
  have hnext : (s.next p i).ex.wfiNextPcQ =
      if s.ex.wfiRetire p (s.exIn i) then pcLink (s.exIn i) else s.ex.wfiNextPcQ := rfl
  rw [hnext]
  split_ifs with hr
  · simp only [wfiRetire, Bool.and_eq_true] at hr
    exact pcLink_even (hd hr.1.1.1.1)
  · exact hw

/-! ### The front end -/

/-- Fetch and decode stand at an even position. -/
def EvenFront (p : Params) (img : Nat → BitVec 64) (s : Core) : Prop := ∃ a, EvenPc a ∧ FeAt p img a s.fe

private theorem src_even (h : EvenFront p img s) (hv : decodedValid s.fe.decode (s.fe.decodeIn (s.feIn p i)) = true) :
    EvenPc (src s.fe.decode (s.fe.decodeIn (s.feIn p i))).pc := by
  obtain ⟨a, ha, hf⟩ := h
  have hitem := (hf.step (s.feIn p i)).item hv
  have hpc := congrArg (fun x => x.src.pc) hitem
  change (src s.fe.decode (s.fe.decodeIn (s.feIn p i))).pc = _ at hpc
  rw [hpc]
  exact itemAt_even ha

private theorem front_next (h : s.Sane p) (hd : EvenDe s) (hm : EvenPc s.csr.regs.mepc) (hf : EvenFront p img s)
    (hras : i.bpLookup.rasValid = true → EvenPc i.bpLookup.rasTop) : EvenFront p img (s.next p i) := by
  have hsrc := src_even (i := i) hf
  obtain ⟨a, ha, hfe⟩ := hf
  refine ⟨_, ?_, hfe.next (s.feIn p i)⟩
  unfold FrontEnd.posNext
  cases hr : FetchStage.redirect (s.fe.fetchIn p (s.feIn p i)) with
  | true =>
    rw [if_pos rfl, FrontEnd.redirectAddr_eq]
    rw [FrontEnd.redirect_eq] at hr
    cases hb : (s.feIn p i).branchValid with
    | true => exact branchAddr_even h hd hm hb
    | false =>
      rw [hb, Bool.false_or] at hr
      have hv : decodedValid s.fe.decode (s.fe.decodeIn (s.feIn p i)) = true := by
        by_contra hv
        rw [Bool.not_eq_true] at hv
        rw [FrontEnd.fire_eq_false hv] at hr
        exact absurd hr (by decide)
      exact cfTarget_even (hsrc hv) hras hr
  | false =>
    rw [if_neg (by decide)]
    split
    · exact afterItem_even ha
    · exact ha

private theorem de_next (hf : EvenFront p img s) (hd : EvenDe s) : EvenDe (s.next p i) := by
  intro hv
  rw [next_de] at hv ⊢
  split_ifs at hv ⊢
  · exact absurd hv (by decide)
  · exact hd hv
  · exact src_even hf hv

private theorem reqPc_next (hn : EvenFront p img (s.next p i)) (hf : EvenFront p img s)
    (hr : EvenPc s.fe.fetch.reqPcQ) :
    EvenPc (s.next p i).fe.fetch.reqPcQ := by
  have hreq : (s.next p i).fe.fetch.reqPcQ =
      if FetchStage.launch p s.fe.fetch (s.fe.fetchIn p (s.feIn p i)) then
        issueAddr p s.fe.fetch (s.fe.fetchIn p (s.feIn p i)) else s.fe.fetch.reqPcQ := rfl
  cases hl : FetchStage.launch p s.fe.fetch (s.fe.fetchIn p (s.feIn p i)) with
  | false =>
    rw [hreq, hl]
    exact hr
  | true =>
    obtain ⟨b, -, hb⟩ := hf
    obtain ⟨c, hc⟩ := hb.fetchAt
    have hrif := (hc.ram_next (FrontEnd.wired p s.fe (s.feIn p i))).2.2.1
    rw [hl] at hrif
    obtain ⟨a, ha, hfe⟩ := hn
    exact (hfe.fetchEven ha).reqPc hrif

end Core

/-! ### The return stack -/

namespace BranchPredictor

/-- The entries on the return stack are even. -/
def EvenRas (q : BranchPredictor) : Prop :=
  q.rasCntQ ≤ 8 ∧ ∀ k < q.rasCntQ, EvenPc (q.rasQ (q.rasPtrQ - 1 - BitVec.ofNat 3 k))

private theorem EvenRas.top {q : BranchPredictor} (h : q.EvenRas) (pc : Word) (hv : (q.lookup pc).rasValid = true) :
    EvenPc (q.lookup pc).rasTop := by
  have h0 : 0 < q.rasCntQ := by
    simp only [lookup, bne_iff_ne, ne_eq] at hv
    omega
  have := h.2 0 h0
  simpa [lookup] using this

private theorem EvenRas.next {q : BranchPredictor} (h : q.EvenRas) (t : BpTrain)
    (hpush : t.valid = true → EvenPc t.pushPc) : (q.next t).EvenRas := by
  -- An even slot stays even, also under a push.
  have hkeep : ∀ x, EvenPc (q.rasQ x) → EvenPc ((q.next t).rasQ x) := by
    intro x hx
    change EvenPc ((if t.valid && t.call then Function.update q.rasQ q.rasPtrQ t.pushPc else q.rasQ) x)
    split_ifs with hc
    · rw [Bool.and_eq_true] at hc
      by_cases he : x = q.rasPtrQ
      · rw [he, Function.update_self]
        exact hpush hc.1
      · rwa [Function.update_of_ne he]
    · exact hx
  have hptr : (q.next t).rasPtrQ =
      if t.valid && t.ret then q.rasPtrQ - 1 else if t.valid && t.call then q.rasPtrQ + 1 else q.rasPtrQ := rfl
  have hcnt : (q.next t).rasCntQ =
      if t.valid && t.ret then (if q.rasCntQ = 0 then 0 else q.rasCntQ - 1)
      else if t.valid && t.call then (if q.rasCntQ = 8 then q.rasCntQ else q.rasCntQ + 1) else q.rasCntQ := rfl
  obtain ⟨hle, hev⟩ := h
  have hone : ∀ k, (1 : BitVec 3) + BitVec.ofNat 3 k = BitVec.ofNat 3 (k + 1) := by
    intro k
    rw [Nat.add_comm k 1, BitVec.ofNat_add]
    rfl
  cases hr : t.valid && t.ret with
  | true =>
    rw [hr, if_pos rfl] at hptr hcnt
    refine ⟨by rw [hcnt]; split_ifs <;> omega, fun k hk => hkeep _ ?_⟩
    have hk' : k + 1 < q.rasCntQ := by
      rw [hcnt] at hk
      split_ifs at hk <;> omega
    have := hev (k + 1) hk'
    rw [← hone, ← BitVec.sub_sub] at this
    rw [hptr]
    exact this
  | false =>
    rw [hr, if_neg (by decide)] at hptr hcnt
    cases hc : t.valid && t.call with
    | false =>
      rw [hc, if_neg (by decide)] at hptr hcnt
      rw [EvenRas, hptr, hcnt]
      exact ⟨hle, fun k hk => hkeep _ (hev k hk)⟩
    | true =>
      rw [hc, if_pos rfl] at hptr hcnt
      refine ⟨by rw [hcnt]; split_ifs <;> omega, fun k hk => ?_⟩
      rw [hptr, BitVec.add_sub_cancel]
      have hr' : (q.next t).rasQ = Function.update q.rasQ q.rasPtrQ t.pushPc := by
        change (if t.valid && t.call then _ else _) = _
        rw [hc, if_pos rfl]
      cases k with
      | zero =>
        rw [hr', show q.rasPtrQ - BitVec.ofNat 3 0 = q.rasPtrQ by simp, Function.update_self]
        rw [Bool.and_eq_true] at hc
        exact hpush hc.1
      | succ k =>
        have hk' : k < q.rasCntQ := by
          rw [hcnt] at hk
          split_ifs at hk <;> omega
        rw [← hone, ← BitVec.sub_sub]
        exact hkeep _ (hev k hk')

end BranchPredictor

/-! ### The hart -/

namespace Hart

variable {s : Hart} {i : HartIn} {boot : Word} {rf : RegFile}

/-- Bit 0 of every PC the hart holds is clear. -/
structure Aligned (s : Hart) : Prop where
  pc : EvenPc s.core.fe.fetch.pcQ
  reqPc : EvenPc s.core.fe.fetch.reqPcQ
  /-- The live entries of the fetch buffer. -/
  buf : ∀ k < s.core.fe.fetch.countQ,
    EvenPc (s.core.fe.fetch.bufQ (s.core.fe.fetch.headQ + BitVec.ofNat 3 k)).pc
  hold : s.core.fe.decode.holdQ = true → EvenPc s.core.fe.decode.holdPcQ
  de : s.core.de.valid = true → EvenPc s.core.de.pc
  mepc : EvenPc s.core.csr.regs.mepc
  wake : EvenPc s.core.ex.wfiNextPcQ
  /-- The entries on the return stack. -/
  ras : ∀ k < s.bp.rasCntQ, EvenPc (s.bp.rasQ (s.bp.rasPtrQ - 1 - BitVec.ofNat 3 k))

/-- The invariant behind it. -/
structure Tracks (p : Params) (img : Nat → BitVec 64) (s : Hart) : Prop where
  sane : s.core.Sane p
  front : Core.EvenFront p img s.core
  reqPc : EvenPc s.core.fe.fetch.reqPcQ
  de : Core.EvenDe s.core
  mepc : EvenPc s.core.csr.regs.mepc
  wake : EvenPc s.core.ex.wfiNextPcQ
  ras : s.bp.EvenRas

private theorem Tracks.aligned (h : Tracks p img s) : Aligned s := by
  obtain ⟨a, ha, hf⟩ := h.front
  have hfetch := hf.fetchEven ha
  exact ⟨hfetch.pc, h.reqPc, hfetch.buf, hf.holdPc ha, h.de, h.mepc, h.wake, h.ras.2⟩

/-- The program writes an even value when it writes `mepc`. -/
def EvenMepcWrite (p : Params) (s : Hart) (i : HartIn) : Prop := Core.EvenMepcWrite p s.core (s.coreIn p i)

/-- One cycle keeps the PCs even. -/
private theorem Tracks.next (h : Tracks p img s) (i : HartIn) (hok : EvenMepcWrite p s i) :
    Tracks p img (s.next p i) := by
  have hras : (s.coreIn p i).bpLookup.rasValid = true → EvenPc (s.coreIn p i).bpLookup.rasTop :=
    fun hv => h.ras.top _ hv
  have hfront : Core.EvenFront p img (s.core.next p (s.coreIn p i)) :=
    Core.front_next h.sane h.de h.mepc h.front hras
  refine ⟨h.sane.next _, hfront, Core.reqPc_next hfront h.front h.reqPc, Core.de_next h.front h.de,
    Core.mepc_even h.sane h.de h.wake h.mepc hok, Core.wake_even h.de h.wake, h.ras.next _ fun hv => ?_⟩
  have hres : s.core.ex.cfResolving p (s.core.exIn (s.coreIn p i)) = true := hv
  simp only [cfResolving, Bool.and_eq_true] at hres
  exact Core.pcLink_even (h.de hres.1.1.1.1)

private theorem IsReset.tracks (h : s.IsReset boot img rf) (hb : EvenPc boot) : Tracks p img s := by
  have hde : s.core.de = De.zero := h.core.fe.decode.de
  refine ⟨h.core.sane, ⟨boot, hb, h.core.fe.feAt⟩, ?_, fun hv => ?_, ?_, ?_, ?_⟩
  · rw [h.core.fe.fetch.reqPc]
    decide
  · rw [hde] at hv
    exact absurd hv (by decide)
  · rw [h.core.csr]
    decide
  · rw [h.core.ex]
    decide
  · refine ⟨by rw [h.bp.rasCnt]; decide, fun k hk => ?_⟩
    rw [h.bp.rasCnt] at hk
    exact absurd hk (Nat.not_lt_zero k)

private theorem sane_run (h : s.IsReset boot img rf) (inp : Nat → HartIn) (t : Nat) :
    (trace (next p) s inp t).core.Sane p :=
  trace_invariant (P := fun s : Hart => s.core.Sane p) h.core.sane (fun _ _ hs => hs.next _) t

/-- **PC alignment.**  From an even boot address every PC of every state is even if and only if the program never
writes an odd value to `mepc`. -/
theorem aligned_iff (inp : Nat → HartIn) (h : s.IsReset boot img rf) (hb : EvenPc boot) :
    (∀ t, Aligned (trace (next p) s inp t)) ↔ ∀ t, EvenMepcWrite p (trace (next p) s inp t) (inp t) := by
  constructor
  · intro ha t hw hadr
    have hm := (ha (t + 1)).mepc
    rw [trace_succ] at hm
    rw [← Core.mepc_of_write hw hadr (sane_run h inp t)]
    exact hm
  · intro hok t
    exact (trace_invariant_of (P := Tracks p img) (h.tracks hb) (fun _ i hs hq => hs.next i hq) t
      fun u _ => hok u).aligned

/-- `csrrwi mepc, 17` and `mret`, from address 0. -/
def oddMepc : Hart := reset 0 (imgOf [0x302000733418D073#64]) ⟨fun _ => 0⟩

/-- The theorem at that program. -/
theorem aligned_iff_oddMepc :
    (∀ t, Aligned (trace (next .pkg) oddMepc (fun _ => .quiet) t)) ↔
      ∀ t, EvenMepcWrite .pkg (trace (next .pkg) oddMepc (fun _ => .quiet) t) .quiet :=
  aligned_iff (p := .pkg) (fun _ => .quiet) (reset_isReset 0 (imgOf [0x302000733418D073#64]) ⟨fun _ => 0⟩) (by decide)

/-- The write leaves 17 in `mepc`, fetch goes there, and the instruction in the D/E register stands at 17. -/
theorem aligned_odd_mepc :
    let run := trace (next .pkg) oddMepc fun _ => .quiet
    (run 5).core.csr.regs.mepc = 17 ∧ (run 6).core.fe.fetch.pcQ = 17 ∧ (run 8).core.de.valid = true ∧
      (run 8).core.de.pc = 17 ∧ ¬Aligned (run 8) := by
  have hrun : let run := trace (next .pkg) oddMepc fun _ => .quiet
      (run 5).core.csr.regs.mepc = 17 ∧ (run 6).core.fe.fetch.pcQ = 17 ∧ (run 8).core.de.valid = true ∧
        (run 8).core.de.pc = 17 := by
    decide +kernel
  obtain ⟨h1, h2, hv, hpc⟩ := hrun
  refine ⟨h1, h2, hv, hpc, fun ha => ?_⟩
  have hde := ha.de hv
  rw [hpc] at hde
  exact absurd hde (by decide)

end Hart

end Yarv
