import Yarv.Periph.FftEngine

/-!
# A transform from START to DONE

The engine is at rest or in some cycle of some pass.  An accepted START hands the buffer of the CPU to the engine and
begins the first pass; the passes follow one another, `N/2 + 5` cycles each; the last one leaves the transform of the
reference in the buffer, sets DONE and brings the engine to rest.
-/

namespace Yarv

open Clocked Radix2

namespace Fft

variable {m : Nat} {rom : BitVec m → Word} {q : Fft m} {i : RegAccess (BitVec 11) Unit} {j : FftJob m} {own : Bool}
  {s c : Nat} {frame : Nat → C16} {inp : Nat → RegAccess (BitVec 11) Unit}

/-- No transform is under way. -/
structure AtRest (q : Fft m) : Prop where
  state : q.seq.stateQ = .idle
  vld : q.seq.vldQ = 0
  two_le : 2 ≤ q.regs.log2nQ.toNat
  le_max : q.regs.log2nQ.toNat ≤ m + 1

/-- The transform an accepted START begins. -/
def AtRest.job (h : AtRest q) (hm : m < 10) : FftJob m :=
  ⟨q.regs.log2nQ.toNat, q.regs.scaleQ, q.regs.inverseQ, h.two_le, h.le_max, hm⟩

/-- The samples the CPU has in its buffer. -/
def cpuFrame (q : Fft m) (k : Nat) : C16 := FftTb.unpack (q.cpuBuf.mem (BitVec.ofNat (m + 1) k))

/-- The samples in the buffer the engine owns. -/
def engFrame (q : Fft m) (k : Nat) : C16 := FftTb.unpack (q.engBuf.mem (BitVec.ofNat (m + 1) k))

/-! ### START -/

theorem clamp_eq {v : BitVec 4} (hm : m < 10) (h2 : 2 ≤ v.toNat) (hle : v.toNat ≤ m + 1) : clamp m v = v := by
  have hmax : (log2nmax m).toNat = m + 1 := Nat.mod_eq_of_lt (by omega)
  have h1 : v.ult 2 = false := by
    rw [BitVec.ult_eq_decide]
    exact decide_eq_false (by change ¬v.toNat < 2; omega)
  have h3 : (log2nmax m).ult v = false := by
    rw [BitVec.ult_eq_decide, hmax]
    exact decide_eq_false (by omega)
  rw [clamp, h1, h3]
  rfl

private theorem one_shiftLeft_eq {w : Nat} (hw : 0 < w) (k : Nat) : 1#w <<< k = BitVec.ofNat w (2 ^ k) := by
  apply BitVec.eq_of_toNat_eq
  have h1 : (1#w).toNat = 1 := Nat.mod_eq_of_lt (Nat.one_lt_two_pow (by omega))
  rw [BitVec.toNat_shiftLeft, h1, Nat.one_shiftLeft, BitVec.toNat_ofNat]

/-- A START is a store to CTRL, so it stores nothing else. -/
theorem startPulse_wr (h : q.startPulse i = true) :
    dataWr i = none ∧ wrTo0 i REG_CONF = none ∧ wrTo i REG_SCALE = none := by
  unfold startPulse at h
  cases hc : wrTo0 i REG_CTRL with
  | none =>
    rw [hc] at h
    cases h
  | some w =>
    unfold wrTo0 wrTo csrWr at hc
    rw [Option.filter_eq_some_iff, Option.filter_eq_some_iff, Option.filter_eq_some_iff] at hc
    obtain ⟨⟨⟨hw, hpage⟩, hreg⟩, _⟩ := hc
    have hpage' : w.addr.getLsbD 10 = false := by
      rw [Bool.not_eq_true'] at hpage
      exact hpage
    have hctrl : w.addr.setWidth 3 = REG_CTRL := eq_of_beq hreg
    have hother : ∀ r, r ≠ REG_CTRL → wrTo i r = none := by
      intro r hr
      have hne : (w.addr.setWidth 3 == r) = false := by
        rw [hctrl]
        exact beq_eq_false_iff_ne.mpr (Ne.symm hr)
      unfold wrTo csrWr
      rw [hw, Option.filter_some, if_pos hpage, Option.filter_some, hne]
      rfl
    refine ⟨?_, ?_, hother _ (by decide)⟩
    · unfold dataWr
      rw [hw, Option.filter_some, hpage']
      rfl
    · unfold wrTo0
      rw [hother _ (by decide)]
      rfl

/-- A CPU port that stores nothing leaves the words alone. -/
private theorem cpuA_putWord (h : dataWr i = none) (f : BitVec (m + 1) → Word) : FftDpram.putWord (cpuA i) f = f := by
  unfold cpuA
  rw [h]
  cases dataRd i with
  | none => rfl
  | some a => rfl

/-- The first pass reads the words of the CPU. -/
private theorem srcMem_start (hwr : dataWr i = none) (hst : (Fft.next rom q i).seq.stQ = 0)
    (hown : (Fft.next rom q i).seq.cpuBufQ = !q.seq.cpuBufQ) : (Fft.next rom q i).srcMem.mem = q.cpuBuf.mem := by
  have hscr : (Fft.next rom q i).srcIsScr = false := by
    unfold srcIsScr
    rw [hst]
    rfl
  have hbuf : (Fft.next rom q i).engBuf = q.cpuBuf.next (cpuA i) .off := by
    unfold engBuf cpuBuf buf0IsEng
    rw [hown]
    cases hb : q.seq.cpuBufQ with
    | true =>
      change (if q.seq.cpuBufQ then q.buf1.next (cpuA i) .off else q.buf1.next q.ebufA q.ebufB) = _
      rw [hb]
      rfl
    | false =>
      change (if q.seq.cpuBufQ then q.buf0.next q.ebufA q.ebufB else q.buf0.next (cpuA i) .off) = _
      rw [hb]
      rfl
  unfold srcMem
  rw [hscr, if_neg Bool.false_ne_true, hbuf, FftDpram.mem_next, FftDpram.putWord_off, cpuA_putWord hwr]

theorem JobAt.start (hm : m < 10) (hrest : AtRest q) (h : q.startPulse i = true) :
    JobAt rom (hrest.job hm) (!q.seq.cpuBufQ) q.cpuFrame 0 0 (Fft.next rom q i) := by
  obtain ⟨hdata, hconf, hscale⟩ := startPulse_wr h
  have hb : q.busy = false := by
    unfold busy
    rw [hrest.state]
    rfl
  have hn : q.startLog2n = q.regs.log2nQ := clamp_eq hm hrest.two_le hrest.le_max
  have h2 := hrest.two_le
  have hle := hrest.le_max
  have hmax : (log2nmax m).toNat = m + 1 := Nat.mod_eq_of_lt (by omega)
  have hpred : (q.regs.log2nQ - 1).toNat = q.regs.log2nQ.toNat - 1 :=
    BitVec.toNat_sub_of_le (by rw [BitVec.le_def]; change 1 ≤ _; omega)
  have hrem : log2nmax m - q.regs.log2nQ = BitVec.ofNat 4 (m + 1 - q.regs.log2nQ.toNat) := by
    apply BitVec.eq_of_toNat_eq
    rw [BitVec.toNat_sub_of_le (by rw [BitVec.le_def, hmax]; exact hle), hmax, BitVec.toNat_ofNat,
      Nat.mod_eq_of_lt (by omega)]
  have hissue : q.issue = false := by
    unfold issue
    rw [hrest.state]
    rfl
  have hvld : q.vldD = 0 := by
    unfold vldD
    rw [hrest.vld, hissue]
    rfl
  have hseq : (Fft.next rom q i).seq = FftSeq.mk .run 0 0 ((1#m <<< (q.regs.log2nQ - 1)) - 1)
      (1#(m + 1) <<< (q.regs.log2nQ - 1)) (1#(m + 1) <<< (log2nmax m - q.regs.log2nQ)) 0 0
        (log2nmax m - q.regs.log2nQ)
      q.regs.inverseQ 0 q.seq.cyclesQ false (!q.seq.cpuBufQ) := by
    change q.seqNext i = _
    rw [seqNext, hrest.state]
    simp only [h, if_true, hn, hvld]
  have hlog : (Fft.next rom q i).regs.log2nQ = q.regs.log2nQ := by
    change (if q.busy then q.regs.log2nQ else ((wrTo0 i REG_CONF).map _).getD q.regs.log2nQ) = _
    rw [hb, hconf]
    rfl
  have hsc : (Fft.next rom q i).regs.scaleQ = q.regs.scaleQ := by
    change (if q.busy then q.regs.scaleQ else ((wrTo i REG_SCALE).map _).getD q.regs.scaleQ) = _
    rw [hb, hscale]
    rfl
  have hbit : (hrest.job hm).bit 0 = q.regs.log2nQ.toNat - 1 := by
    unfold FftJob.bit FftTb.passBit AtRest.job
    rw [if_neg (by change ¬q.regs.log2nQ.toNat ≤ 0; omega)]
    rfl
  have hstart : SeqAt (hrest.job hm) (!q.seq.cpuBufQ) 0 0 (Fft.next rom q i) := by
    refine ⟨?_, ?_, ?_, ?_, fun _ => ?_, fun _ => ?_, ?_, ?_, ?_, ?_, ?_, ?_, ?_, ?_⟩
    · have hself : BitVec.ofNat 4 q.regs.log2nQ.toNat = q.regs.log2nQ := by
        rw [BitVec.ofNat_toNat, BitVec.setWidth_eq]
      rw [hlog]
      exact hself.symm
    · exact hsc
    all_goals rw [hseq]
    · rw [if_pos FftJob.half_pos]
    · rfl
    · rfl
    · rw [FftJob.twIdx, Nat.zero_mod, Nat.zero_mul]
      rfl
    · change 1#m <<< (q.regs.log2nQ - 1) - 1 = _
      rw [BitVec.shiftLeft_eq', hpred, one_shiftLeft_eq (by omega)]
      rfl
    · change 1#(m + 1) <<< (q.regs.log2nQ - 1) = _
      rw [BitVec.shiftLeft_eq', hpred, one_shiftLeft_eq (by omega), hbit]
    · change 1#(m + 1) <<< (log2nmax m - q.regs.log2nQ) = _
      rw [BitVec.shiftLeft_eq', hrem, BitVec.toNat_ofNat, Nat.mod_eq_of_lt (by omega), one_shiftLeft_eq (by omega)]
      unfold FftJob.step
      rw [pow_zero, Nat.one_mul]
      rfl
    · intro b _
      rw [decide_eq_false (by omega)]
      exact BitVec.getLsbD_zero
    · exact hrem
    · rfl
  have hlt : 0 < (hrest.job hm).total :=
    lt_of_lt_of_le (lt_of_lt_of_le Nat.two_pos hrest.two_le) (Nat.le_add_right _ _)
  refine ⟨hstart, hlt, Nat.zero_le _, _, _, ?_, PassAt.zero⟩
  intro k _
  rw [Nat.zero_min, srcMem_start hdata hstart.st hstart.own]
  rfl

/-! ### DONE -/

private theorem dif_eq_stage (j : FftJob m) (rom : BitVec m → Word) (frame : Nat → C16) (i : Nat) :
    FftTb.dif (2 ^ (m + 1)) j.n (j.scale.setWidth 32) j.inverse (FftJob.tab rom) frame i =
      j.stage rom frame j.n (brev i j.n) := rfl

/-- The end of the last pass. -/
theorem JobAt.finish (h : JobAt rom j own frame s (j.half + 4) q) (hs : s + 1 = j.total)
    (i : RegAccess (BitVec 11) Unit) :
    AtRest (Fft.next rom q i) ∧ (Fft.next rom q i).seq.doneQ = true ∧ (Fft.next rom q i).seq.cpuBufQ = own ∧
      ∀ k < 2 ^ j.n, (Fft.next rom q i).engFrame k =
        FftTb.dif (2 ^ (m + 1)) j.n (j.scale.setWidth 32) j.inverse (FftJob.tab rom) frame k := by
  have hn := j.two_le
  have hst : q.seq.stateQ = .drain := by rw [h.seq.state, if_neg (by omega)]
  have hvld : q.seq.vldQ = 0 := (h.seq.vld_zero (by omega)).mpr le_rfl
  have hissue : q.issue = false := by
    rw [h.seq.issue]
    exact decide_eq_false (by omega)
  have hfinal : q.isFinalStage = true := by
    rw [h.seq.isFinalStage h.lt]
    exact decide_eq_true hs
  have hseq : (Fft.next rom q i).seq =
      { q.seq with
        stateQ := .idle, vldQ := q.vldD, cycQ := q.seq.cycQ + 1, cyclesQ := q.seq.cycQ, doneQ := true } := by
    change q.seqNext i = _
    rw [seqNext, hst]
    simp only [hvld, hfinal, if_true]
  have hlog : (Fft.next rom q i).regs.log2nQ.toNat = j.n := by
    have hkeep : (Fft.next rom q i).regs.log2nQ = q.regs.log2nQ := (regsNext_busy h.seq.busy i).1
    rw [hkeep, h.seq.log2n_toNat]
  have hown : (Fft.next rom q i).seq.cpuBufQ = own := by
    rw [hseq]
    exact h.seq.own
  refine ⟨⟨?_, ?_, ?_, ?_⟩, ?_, hown, ?_⟩
  · rw [hseq]
  · rw [hseq]
    change q.vldD = 0
    unfold vldD
    rw [hvld, hissue]
    rfl
  · rw [hlog]
    exact j.two_le
  · rw [hlog]
    exact j.le_max
  · rw [hseq]
  · intro k hk
    -- the last pass has an odd number, so it has written the buffer, at reversed addresses
    have hodd : q.srcIsScr = true := by
      have htable : ∀ s < 10, s % 2 = 1 → (BitVec.ofNat 4 s).getLsbD 0 = true := by decide
      have h1 := j.total_le
      unfold srcIsScr
      rw [h.seq.st]
      exact htable s (by omega) (by unfold FftJob.total at hs; omega)
    have hbuf : (Fft.next rom q i).engBuf.mem = q.engBuf.mem := by
      rw [engBuf_next i (hown.trans h.seq.own.symm), FftDpram.mem_next]
      unfold ebufA ebufB
      rw [h.seq.ports_off, h.seq.ports_off, FftDpram.putWord_off, FftDpram.putWord_off]
    have hdst : q.dstMem = q.engBuf := by
      unfold dstMem
      rw [hodd]
      rfl
    have haddr : j.wrAddr s (brev k j.n) = BitVec.ofNat (m + 1) k := by
      unfold FftJob.wrAddr FftTb.passAddr
      rw [if_pos (by unfold FftJob.total at hs; omega), brev_brev hk]
    have hw := h.written (brev_lt k j.n)
    have hmin : min (s + 1) j.n = j.n := by
      unfold FftJob.total at hs
      omega
    rw [haddr, hdst, hmin] at hw
    unfold engFrame
    rw [hbuf, dif_eq_stage, hw]

/-! ### Whole runs -/

theorem JobAt.pass_run (h : JobAt rom j own frame s 0 q) (inp : Nat → RegAccess (BitVec 11) Unit) {c : Nat}
    (hc : c ≤ j.half + 4) : JobAt rom j own frame s c (trace (Fft.next rom) q inp c) := by
  induction c with
  | zero => exact h
  | succ c ih =>
    rw [trace_succ]
    exact (ih (by omega)).next (by omega) (inp c)

/-- Pass `s` begins after `s` passes. -/
theorem JobAt.run_pass (h : JobAt rom j own frame 0 0 q) (inp : Nat → RegAccess (BitVec 11) Unit) {s : Nat}
    (hs : s < j.total) : JobAt rom j own frame s 0 (trace (Fft.next rom) q inp (s * (j.half + 5))) := by
  induction s with
  | zero =>
    rw [Nat.zero_mul]
    exact h
  | succ s ih =>
    have hlast := (ih (by omega)).pass_run (fun k => inp (s * (j.half + 5) + k)) (c := j.half + 4) le_rfl
    rw [← trace_add] at hlast
    have hstep := hlast.pass_next hs (inp (s * (j.half + 5) + (j.half + 4)))
    have htime : (s + 1) * (j.half + 5) = s * (j.half + 5) + (j.half + 4) + 1 := by
      rw [Nat.succ_mul]
      rfl
    rw [htime, trace_succ]
    exact hstep

/-- Every cycle of a transform is a cycle of a pass. -/
private theorem JobAt.run (h : JobAt rom j own frame 0 0 q) (inp : Nat → RegAccess (BitVec 11) Unit) {k : Nat}
    (hk : k < j.cycles) :
    JobAt rom j own frame (k / (j.half + 5)) (k % (j.half + 5)) (trace (Fft.next rom) q inp k) := by
  have hpos : 0 < j.half + 5 := by omega
  have hs : k / (j.half + 5) < j.total := Nat.div_lt_of_lt_mul (by rw [Nat.mul_comm]; exact hk)
  have hc : k % (j.half + 5) < j.half + 5 := Nat.mod_lt _ hpos
  have hpass :=
    (h.run_pass inp hs).pass_run (fun u => inp (k / (j.half + 5) * (j.half + 5) + u)) (Nat.le_of_lt_succ hc)
  rw [← trace_add, Nat.div_add_mod'] at hpass
  exact hpass

/-- The state in which a transform ends. -/
private theorem JobAt.run_finish (h : JobAt rom j own frame 0 0 q) (inp : Nat → RegAccess (BitVec 11) Unit) :
    AtRest (trace (Fft.next rom) q inp j.cycles) ∧ (trace (Fft.next rom) q inp j.cycles).seq.doneQ = true ∧
      (trace (Fft.next rom) q inp j.cycles).seq.cpuBufQ = own ∧
      ∀ k < 2 ^ j.n, (trace (Fft.next rom) q inp j.cycles).engFrame k =
        FftTb.dif (2 ^ (m + 1)) j.n (j.scale.setWidth 32) j.inverse (FftJob.tab rom) frame k := by
  have hpos : 0 < j.total := h.lt
  have hlast := (h.run_pass inp (s := j.total - 1) (by omega)).pass_run
    (fun u => inp ((j.total - 1) * (j.half + 5) + u)) (c := j.half + 4) le_rfl
  rw [← trace_add] at hlast
  have htime : j.cycles = (j.total - 1) * (j.half + 5) + (j.half + 4) + 1 := by
    unfold FftJob.cycles
    obtain ⟨k, hk⟩ := Nat.exists_eq_succ_of_ne_zero (Nat.ne_of_gt hpos)
    rw [hk, Nat.succ_mul, Nat.succ_sub_one]
    rfl
  rw [htime, trace_succ]
  exact hlast.finish (by omega) _

/-! ### Every reachable state -/

private theorem clamp_bounds (h1 : 1 ≤ m) (hm : m < 10) (v : BitVec 4) :
    2 ≤ (clamp m v).toNat ∧ (clamp m v).toNat ≤ m + 1 := by
  have hmax : (log2nmax m).toNat = m + 1 := Nat.mod_eq_of_lt (by omega)
  have htwo : (2 : BitVec 4).toNat = 2 := rfl
  unfold clamp
  rw [BitVec.ult_eq_decide, BitVec.ult_eq_decide, hmax, htwo]
  by_cases h2 : v.toNat < 2
  · rw [decide_eq_true h2, if_pos rfl, htwo]
    omega
  · rw [decide_eq_false h2, if_neg Bool.false_ne_true]
    by_cases h3 : m + 1 < v.toNat
    · rw [decide_eq_true h3, if_pos rfl, hmax]
      omega
    · rw [decide_eq_false h3, if_neg Bool.false_ne_true]
      omega

/-- Without a START the engine stays at rest, and DONE does not rise. -/
theorem AtRest.next (h1 : 1 ≤ m) (hm : m < 10) (h : AtRest q) (hstart : q.startPulse i = false) :
    AtRest (Fft.next rom q i) ∧ (Fft.next rom q i).seq.doneQ = q.doneD i ∧
      (Fft.next rom q i).seq.cpuBufQ = (q.seq.cpuBufQ ^^ q.swapPulse i) := by
  have hb : q.busy = false := by
    unfold busy
    rw [h.state]
    rfl
  have hissue : q.issue = false := by
    unfold issue
    rw [h.state]
    rfl
  have hseq : (Fft.next rom q i).seq =
      { q.seq with
        stateQ := .idle, vldQ := q.vldD, doneQ := q.doneD i, cpuBufQ := q.seq.cpuBufQ ^^ q.swapPulse i } := by
    change q.seqNext i = _
    rw [seqNext, h.state]
    simp only [hstart, Bool.false_eq_true, if_false]
  have hlog : 2 ≤ (Fft.next rom q i).regs.log2nQ.toNat ∧ (Fft.next rom q i).regs.log2nQ.toNat ≤ m + 1 := by
    change 2 ≤ (if q.busy then q.regs.log2nQ else ((wrTo0 i REG_CONF).map _).getD q.regs.log2nQ).toNat ∧
      (if q.busy then q.regs.log2nQ else ((wrTo0 i REG_CONF).map _).getD q.regs.log2nQ).toNat ≤ m + 1
    rw [hb, if_neg Bool.false_ne_true]
    cases wrTo0 i REG_CONF with
    | none => exact ⟨h.two_le, h.le_max⟩
    | some w => exact clamp_bounds h1 hm _
  refine ⟨⟨?_, ?_, hlog.1, hlog.2⟩, ?_, ?_⟩
  · rw [hseq]
  · rw [hseq]
    change q.vldD = 0
    unfold vldD
    rw [h.vld, hissue]
    rfl
  · rw [hseq]
  · rw [hseq]

/-- The engine is at rest or in a transform. -/
def Live (rom : BitVec m → Word) (q : Fft m) : Prop :=
  AtRest q ∨ ∃ j own frame s c, JobAt rom j own frame s c q

theorem live_of_reset (h1 : 1 ≤ m) (hm : m < 10) (h : q.IsReset) : Live rom q := by
  have hmax : (log2nmax m).toNat = m + 1 := Nat.mod_eq_of_lt (by omega)
  refine Or.inl ⟨?_, ?_, ?_, ?_⟩
  · rw [h.seq]
  · rw [h.seq]
  · rw [h.regs, hmax]
    omega
  · rw [h.regs, hmax]

private theorem Live.next (h1 : 1 ≤ m) (hm : m < 10) (h : Live rom q) (i : RegAccess (BitVec 11) Unit) :
    Live rom (Fft.next rom q i) := by
  rcases h with hrest | ⟨j, own, frame, s, c, hjob⟩
  · cases hs : q.startPulse i with
    | true => exact Or.inr ⟨_, _, _, _, _, JobAt.start hm hrest hs⟩
    | false => exact Or.inl (hrest.next h1 hm hs).1
  · by_cases hc : c < j.half + 4
    · exact Or.inr ⟨j, own, frame, s, c + 1, hjob.next hc i⟩
    · have hce : c = j.half + 4 := by
        have := hjob.le
        omega
      subst hce
      by_cases hs : s + 1 < j.total
      · exact Or.inr ⟨j, own, frame, s + 1, 0, hjob.pass_next hs i⟩
      · have hse : s + 1 = j.total := by
          have := hjob.lt
          omega
        exact Or.inl (hjob.finish hse i).1

private theorem live_run (h1 : 1 ≤ m) (hm : m < 10) (h : q.IsReset)
    (inp : Nat → RegAccess (BitVec 11) Unit) (t : Nat) :
    Live rom (trace (Fft.next rom) q inp t) :=
  trace_invariant (P := Live rom) (live_of_reset h1 hm h) (fun _ i hl => hl.next h1 hm i) t

/-- An accepted START finds the engine at rest. -/
private theorem Live.atRest (h : Live rom q) (hstart : q.startPulse i = true) : AtRest q := by
  rcases h with hrest | ⟨j, own, frame, s, c, hjob⟩
  · exact hrest
  · have hidle := startPulse_idle hstart
    have hb := hjob.seq.busy
    unfold busy at hb
    rw [hidle] at hb
    cases hb

/-! ### The engine against the reference -/

section Transform

variable (rom : BitVec m → Word) (s : Fft m) (is : Nat → RegAccess (BitVec 11) Unit)

/-- The transform begun in cycle `t` ends after `cycles`, once, and leaves what the reference makes of `frame`. -/
structure Transforms (t n cycles : Nat) (scale : BitVec (m + 1)) (inverse : Bool) (frame : Nat → C16) : Prop where
  busy : ∀ u, t < u → u ≤ t + cycles → (run rom s is u).busy = true ∧ (run rom s is u).seq.doneQ = false
  done : (run rom s is (t + cycles + 1)).busy = false ∧ (run rom s is (t + cycles + 1)).seq.doneQ = true
  result : ∀ i < 2 ^ n, (run rom s is (t + cycles + 1)).engFrame i =
    FftTb.dif (2 ^ (m + 1)) n (scale.setWidth 32) inverse (FftJob.tab rom) frame i
  reference : ∀ i < 2 ^ n, (run rom s is (t + cycles + 1)).engFrame i =
    FftTb.modelFft (2 ^ (m + 1)) n (scale.setWidth 32) inverse (FftJob.tab rom) frame i
  once : ∀ u, t + cycles + 1 ≤ u →
    (∀ v, t + cycles + 1 ≤ v → v ≤ u → (run rom s is v).startPulse (is v) = false) →
      (run rom s is (u + 1)).seq.doneQ = true → (run rom s is u).seq.doneQ = true

variable {rom s is}

/-- The state an accepted START makes. -/
theorem job_of_start (h1 : 1 ≤ m) (hm : m < 10) (h : s.IsReset) {t : Nat}
    (hstart : (run rom s is t).startPulse (is t) = true) : ∃ hrest : AtRest (run rom s is t),
      JobAt rom (hrest.job hm) (!(run rom s is t).seq.cpuBufQ) (run rom s is t).cpuFrame 0 0 (run rom s is (t + 1)) :=
  ⟨(live_run h1 hm h is t).atRest hstart, JobAt.start hm _ hstart⟩

/-- A run from cycle `t` on. -/
theorem run_add (t k : Nat) : trace (Fft.next rom) (run rom s is t) (fun u => is (t + u)) k = run rom s is (t + k) :=
  (trace_add t k).symm

/-- Every cycle of a transform that begins in cycle `t` of a run. -/
theorem cycle_of_job {j : FftJob m} {own : Bool} {frame : Nat → C16} {t : Nat}
    (h : JobAt rom j own frame 0 0 (run rom s is t)) {k : Nat} (hk : k < j.cycles) :
    JobAt rom j own frame (k / (j.half + 5)) (k % (j.half + 5)) (run rom s is (t + k)) := by
  have hcycle := h.run (fun u => is (t + u)) hk
  rw [run_add] at hcycle
  exact hcycle

/-- After an accepted START the engine makes the transform of the reference, in every run from reset. -/
theorem engine_transforms (h1 : 1 ≤ m) (hm : m < 10) (h : s.IsReset) {t : Nat}
    (hstart : (run rom s is t).startPulse (is t) = true) :
    (2 ≤ (run rom s is t).regs.log2nQ.toNat ∧ (run rom s is t).regs.log2nQ.toNat ≤ m + 1) ∧
      Transforms rom s is t (run rom s is t).regs.log2nQ.toNat
        (((run rom s is t).regs.log2nQ.toNat + (run rom s is t).regs.log2nQ.toNat % 2) *
          (2 ^ ((run rom s is t).regs.log2nQ.toNat - 1) + 5))
        (run rom s is t).regs.scaleQ (run rom s is t).regs.inverseQ (run rom s is t).cpuFrame := by
  obtain ⟨hrest, hjob⟩ := job_of_start h1 hm h hstart
  have hcycles :
      (hrest.job hm).cycles = ((run rom s is t).regs.log2nQ.toNat + (run rom s is t).regs.log2nQ.toNat % 2) *
        (2 ^ ((run rom s is t).regs.log2nQ.toNat - 1) + 5) := rfl
  rw [← hcycles]
  have htime : t + (hrest.job hm).cycles + 1 = t + 1 + (hrest.job hm).cycles := by omega
  obtain ⟨hend, hdone, _, hres⟩ := hjob.run_finish (fun u => is (t + 1 + u))
  rw [run_add, ← htime] at hend hdone hres
  have hresult : ∀ i < 2 ^ (hrest.job hm).n, (run rom s is (t + (hrest.job hm).cycles + 1)).engFrame i =
      FftTb.dif (2 ^ (m + 1)) (hrest.job hm).n ((hrest.job hm).scale.setWidth 32) (hrest.job hm).inverse
        (FftJob.tab rom)
        (run rom s is t).cpuFrame i := hres
  refine ⟨⟨hrest.two_le, hrest.le_max⟩, ?_, ?_, hresult, ?_, ?_⟩
  · intro u hlt hle
    have hk : u - (t + 1) < (hrest.job hm).cycles := by omega
    have hcycle := cycle_of_job hjob hk
    have hu : t + 1 + (u - (t + 1)) = u := by omega
    rw [hu] at hcycle
    exact ⟨hcycle.seq.busy, hcycle.seq.done⟩
  · refine ⟨?_, hdone⟩
    unfold busy
    rw [hend.state]
    rfl
  · intro i hi
    rw [hresult i hi]
    exact (FftTb.modelFft_eq (lt_of_lt_of_le Nat.two_pos hrest.two_le) _ hi).symm
  · -- at rest DONE only falls
    have hstay : ∀ u, t + (hrest.job hm).cycles + 1 ≤ u →
        (∀ v, t + (hrest.job hm).cycles + 1 ≤ v → v < u → (run rom s is v).startPulse (is v) = false) →
          AtRest (run rom s is u) := by
      intro u hu
      induction u, hu using Nat.le_induction with
      | base => exact fun _ => hend
      | succ u hu ih =>
        intro hno
        exact (AtRest.next h1 hm (ih fun v h1 h2 => hno v h1 (by omega)) (hno u hu (Nat.lt_succ_self u))).1
    intro u hu hno hrise
    have hat' := hstay u hu fun v h1 h2 => hno v h1 (Nat.le_of_lt h2)
    have hd : (run rom s is (u + 1)).seq.doneQ = (run rom s is u).doneD (is u) :=
      (AtRest.next h1 hm hat' (hno u hu le_rfl)).2.1
    rw [hd] at hrise
    unfold doneD at hrise
    rw [Bool.and_eq_true] at hrise
    exact hrise.1

/-- The twiddles of an 8-point engine. -/
def eighths : BitVec 2 → Word
  | 0 => 0x00007FFF
  | 1 => 0xA57E5A82
  | 2 => 0x80000000
  | _ => 0xA57EA57E

/-- Three samples are stored and the transform is started. -/
def sampleStores : Nat → RegAccess (BitVec 11) Unit
  | 0 => ⟨some ⟨1024, 0x000003E8, 0xF⟩, none, ()⟩
  | 1 => ⟨some ⟨1025, 0xFF9C07D0, 0xF⟩, none, ()⟩
  | 2 => ⟨some ⟨1030, 0x0190F448, 0xF⟩, none, ()⟩
  | 3 => ⟨some (ctrlStore 1), none, ()⟩
  | _ => ⟨none, none, ()⟩

/-- Four passes of nine cycles behind START the transform of the samples is there. -/
theorem engine_transforms_samples :
    let start := run eighths (outOfReset 2) sampleStores 3
    (start.cpuFrame 0 = ⟨1000, 0⟩ ∧ start.cpuFrame 1 = ⟨2000, -100⟩ ∧ start.cpuFrame 6 = ⟨-3000, 400⟩) ∧
      Transforms eighths (outOfReset 2) sampleStores 3 3 36 (BitVec.allOnes 3) false start.cpuFrame ∧
      (run eighths (outOfReset 2) sampleStores 40).engFrame 1 = ⟨243, -560⟩ := by
  have hstart : (run eighths (outOfReset 2) sampleStores 3).startPulse (sampleStores 3) = true := by decide +kernel
  have hn : (run eighths (outOfReset 2) sampleStores 3).regs.log2nQ = 3 := by decide +kernel
  have hscale : (run eighths (outOfReset 2) sampleStores 3).regs.scaleQ = BitVec.allOnes 3 := by decide +kernel
  have hinv : (run eighths (outOfReset 2) sampleStores 3).regs.inverseQ = false := by decide +kernel
  obtain ⟨-, h⟩ := engine_transforms (by decide) (by decide) ⟨rfl, rfl⟩ hstart
  rw [hn, hscale, hinv] at h
  have hresult : (run eighths (outOfReset 2) sampleStores 40).engFrame 1 =
      FftTb.dif 8 3 ((BitVec.allOnes 3).setWidth 32) false (FftJob.tab eighths)
        (run eighths (outOfReset 2) sampleStores 3).cpuFrame 1 := h.result 1 (by decide)
  refine ⟨by decide +kernel, h, ?_⟩
  rw [hresult]
  decide +kernel

end Transform

end Fft

end Yarv
