import Yarv.Periph.FftControl
import Yarv.Periph.FftStage

/-!
# The engine of `axi4_lite_fft`

A transform from START to DONE: `SeqAt` is the sequencer in a cycle of a pass, `PassAt` the pass with its memories and
the butterflies in flight.  A pass takes `N/2 + 5` cycles, and the memory it has written holds the next stage of the
reference.
-/

namespace Yarv

open Radix2

/-- What a START fixes. -/
structure FftJob (m : Nat) where
  n : Nat
  scale : BitVec (m + 1)
  inverse : Bool
  two_le : 2 ≤ n
  le_max : n ≤ m + 1
  small : m < 10

namespace FftJob

variable {m : Nat} (j : FftJob m)

/-- The butterflies of a pass. -/
def half : Nat := 2 ^ (j.n - 1)

/-- The passes, the copy pass included. -/
def total : Nat := j.n + j.n % 2

/-- The cycles of all passes. -/
def cycles : Nat := j.total * (j.half + 5)

/-- The bit a pass pairs at. -/
def bit (s : Nat) : Nat := FftTb.passBit j.n s

def addrA (s t : Nat) : BitVec (m + 1) := BitVec.ofNat (m + 1) (lo (2 ^ j.bit s) t)

def addrB (s t : Nat) : BitVec (m + 1) := BitVec.ofNat (m + 1) (hi (2 ^ j.bit s) t)

def copy (s : Nat) : Bool := decide (j.n ≤ s)

def scaled (s : Nat) : Bool := !j.copy s && j.scale.getLsbD s

def final (s : Nat) : Bool := decide (s + 1 = j.total)

/-- The tag of butterfly `t` of pass `s`. -/
def tag (s t : Nat) : FftTag m := ⟨j.addrA s t, j.addrB s t, j.copy s, j.scaled s, j.final s⟩

/-- The twiddle exponents of pass `s` go up by this. -/
def step (s : Nat) : Nat := 2 ^ s * 2 ^ (m + 1 - j.n)

def twIdx (s t : Nat) : Nat := t % 2 ^ j.bit s * j.step s

variable {j}

theorem bit_lt (s : Nat) : j.bit s < j.n := FftTb.passBit_lt (by have := j.two_le; omega)

theorem bit_le (s : Nat) : j.bit s ≤ m := by
  have h1 := j.bit_lt s
  have h2 := j.le_max
  omega

theorem half_pos : 0 < j.half := Nat.two_pow_pos _

theorem half_le : j.half ≤ 2 ^ m := Nat.pow_le_pow_right Nat.two_pos (by have := j.le_max; omega)

theorem total_le : j.total ≤ 10 := by
  have h1 := j.le_max
  have h2 := j.small
  rw [total]
  omega

private theorem step_succ (s : Nat) : BitVec.ofNat (m + 1) (j.step s) <<< 1 =
    BitVec.ofNat (m + 1) (j.step (s + 1)) := by
  apply BitVec.eq_of_toNat_eq
  have hstep : j.step (s + 1) = j.step s * 2 ^ 1 := by
    unfold step
    rw [pow_succ, pow_one]
    ring
  rw [BitVec.toNat_shiftLeft, BitVec.toNat_ofNat, BitVec.toNat_ofNat, Nat.shiftLeft_eq, Nat.mod_mul_mod, hstep]

end FftJob

namespace Fft

variable {m : Nat} {rom : BitVec m → Word} {q : Fft m} {j : FftJob m} {own : Bool} {s c : Nat}

/-! ### The sequencer -/

/-- The sequencer in cycle `c` of pass `s`; `own` is the buffer the CPU owns. -/
structure SeqAt (j : FftJob m) (own : Bool) (s c : Nat) (q : Fft m) : Prop where
  log2n : q.regs.log2nQ = BitVec.ofNat 4 j.n
  scale : q.regs.scaleQ = j.scale
  state : q.seq.stateQ = if c < j.half then .run else .drain
  st : q.seq.stQ = BitVec.ofNat 4 s
  bf : c < j.half → q.seq.bfQ = BitVec.ofNat m c
  twIdx : c < j.half → q.seq.twIdxQ = BitVec.ofNat (m + 1) (j.twIdx s c)
  bfLast : q.seq.bfLastQ = BitVec.ofNat m j.half - 1
  half : q.seq.halfQ = BitVec.ofNat (m + 1) (2 ^ j.bit s)
  twStep : q.seq.twStepQ = BitVec.ofNat (m + 1) (j.step s)
  vld : ∀ i < 4, q.seq.vldQ.getLsbD i = decide (i + 1 ≤ c ∧ c < j.half + (i + 1))
  shamt : q.seq.shamtQ = BitVec.ofNat 4 (m + 1 - j.n)
  inverse : q.seq.invRunQ = j.inverse
  done : q.seq.doneQ = false
  own : q.seq.cpuBufQ = own

namespace SeqAt

variable (h : SeqAt j own s c q)
include h

theorem issue : q.issue = decide (c < j.half) := by
  rw [Fft.issue, h.state]
  by_cases hc : c < j.half
  · rw [if_pos hc, decide_eq_true hc]
    rfl
  · rw [if_neg hc, decide_eq_false hc]
    rfl

theorem busy : q.busy = true := by
  rw [Fft.busy, h.state]
  by_cases hc : c < j.half
  · rw [if_pos hc]
    rfl
  · rw [if_neg hc]
    rfl

theorem log2n_toNat : q.regs.log2nQ.toNat = j.n := by
  have h1 := j.le_max
  have h2 := j.small
  rw [h.log2n, BitVec.toNat_ofNat, Nat.mod_eq_of_lt (by omega)]

variable (hs : s < j.total)
include hs

theorem st_toNat : q.seq.stQ.toNat = s := by
  have h1 := j.total_le
  rw [h.st, BitVec.toNat_ofNat, Nat.mod_eq_of_lt (by omega)]

private theorem isCopy : q.isCopy = j.copy s := by
  rw [Fft.isCopy, FftJob.copy, BitVec.ule_eq_decide, h.log2n_toNat, h.st_toNat hs]

private theorem scaleEff : q.scaleEff = j.scaled s := by
  rw [Fft.scaleEff, FftJob.scaled, h.isCopy hs, h.scale, h.st_toNat hs]

theorem isFinalStage : q.isFinalStage = j.final s := by
  have htable : ∀ n < 11, 2 ≤ n → ∀ s < n + n % 2, ((BitVec.ofNat 4 s).setWidth 5 ==
      (BitVec.ofNat 4 n).setWidth 5 + (BitVec.ofBool ((BitVec.ofNat 4 n).getLsbD 0)).setWidth 5 - 1) =
        decide (s + 1 = n + n % 2) := by decide
  rw [Fft.isFinalStage, totalStages, h.log2n, h.st]
  exact htable j.n (by have h1 := j.le_max; have h2 := j.small; omega) j.two_le s hs

/-- What is issued. -/
private theorem tag (hc : c < j.half) : q.tag = j.tag s c := by
  have hm : c < 2 ^ m := lt_of_lt_of_le hc FftJob.half_le
  have hlo : lo (2 ^ j.bit s) c < 2 ^ (m + 1) :=
    lt_of_lt_of_le (lo_lt (j.bit_lt s) hc) (Nat.pow_le_pow_right Nat.two_pos j.le_max)
  have hhi : hi (2 ^ j.bit s) c < 2 ^ (m + 1) :=
    lt_of_lt_of_le (hi_lt (j.bit_lt s) hc) (Nat.pow_le_pow_right Nat.two_pos j.le_max)
  have ha : q.issA = j.addrA s c := by
    apply BitVec.eq_of_toNat_eq
    rw [issA_toNat (j.bit_le s) h.half hm (h.bf hc), FftJob.addrA, BitVec.toNat_ofNat, Nat.mod_eq_of_lt hlo]
  have hb : q.issB = j.addrB s c := by
    apply BitVec.eq_of_toNat_eq
    rw [issB_toNat (j.bit_le s) h.half hm (h.bf hc), FftJob.addrB, BitVec.toNat_ofNat, Nat.mod_eq_of_lt hhi]
  rw [Fft.tag, ha, hb, h.isCopy hs, h.scaleEff hs, h.isFinalStage hs, FftJob.tag]

omit hs

private theorem bfLast_eq (hc : c < j.half) : q.bfLast = decide (c + 1 = j.half) := by
  have hm : c < 2 ^ m := lt_of_lt_of_le hc FftJob.half_le
  have hle : j.n - 1 ≤ m := by
    have := j.le_max
    omega
  have hlast : q.seq.bfLastQ.toNat = j.half - 1 := by
    rw [h.bfLast]
    exact pred_pow_toNat hle
  have hbf : q.seq.bfQ.toNat = c := by rw [h.bf hc, BitVec.toNat_ofNat, Nat.mod_eq_of_lt hm]
  rw [Fft.bfLast]
  by_cases he : c + 1 = j.half
  · have heq : q.seq.bfQ = q.seq.bfLastQ := BitVec.eq_of_toNat_eq (by omega)
    rw [heq, decide_eq_true he]
    exact beq_self_eq_true _
  · have hne : q.seq.bfQ ≠ q.seq.bfLastQ := by
      intro heq
      rw [heq] at hbf
      omega
    rw [decide_eq_false he]
    exact beq_eq_false_iff_ne.mpr hne

private theorem twIdx_next (hc : c < j.half) :
    (if q.jLast then 0 else q.seq.twIdxQ + q.seq.twStepQ) = BitVec.ofNat (m + 1) (j.twIdx s (c + 1)) := by
  have hm : c < 2 ^ m := lt_of_lt_of_le hc FftJob.half_le
  have hpos : 0 < 2 ^ j.bit s := Nat.two_pow_pos _
  rw [jLast_eq (j.bit_le s) h.half hm (h.bf hc), FftJob.twIdx]
  have hsucc : (c + 1) % 2 ^ j.bit s = (c % 2 ^ j.bit s + 1) % 2 ^ j.bit s := by rw [Nat.mod_add_mod]
  have hlt : c % 2 ^ j.bit s < 2 ^ j.bit s := Nat.mod_lt _ hpos
  by_cases hj : c % 2 ^ j.bit s = 2 ^ j.bit s - 1
  · have hz : (c + 1) % 2 ^ j.bit s = 0 := by rw [hsucc, hj, Nat.sub_add_cancel hpos, Nat.mod_self]
    rw [decide_eq_true hj, if_pos rfl, hz, Nat.zero_mul]
    rfl
  · have hs1 : (c + 1) % 2 ^ j.bit s = c % 2 ^ j.bit s + 1 := by rw [hsucc, Nat.mod_eq_of_lt (by omega)]
    rw [decide_eq_false hj, if_neg Bool.false_ne_true, hs1, h.twIdx hc, h.twStep, ← BitVec.ofNat_add, FftJob.twIdx,
      Nat.succ_mul]

/-- The occupancy behind the edge. -/
private theorem vld_next : ∀ i < 4, q.vldD.getLsbD i = decide (i + 1 ≤ c + 1 ∧ c + 1 < j.half + (i + 1)) := by
  intro i hi
  rw [vldD, BitVec.getLsbD_append, h.issue]
  by_cases h0 : i < 1
  · have hi0 : i = 0 := by omega
    subst hi0
    have hiff : (c < j.half) ↔ (0 + 1 ≤ c + 1 ∧ c + 1 < j.half + (0 + 1)) := by omega
    rw [if_pos h0, BitVec.getLsbD_ofBool, ← decide_eq_decide.mpr hiff]
    rfl
  · have hiff : (i - 1 + 1 ≤ c ∧ c < j.half + (i - 1 + 1)) ↔ (i + 1 ≤ c + 1 ∧ c + 1 < j.half + (i + 1)) := by omega
    rw [if_neg h0, BitVec.getLsbD_setWidth, h.vld (i - 1) (by omega), decide_eq_true (show i - 1 < 3 by omega),
      Bool.true_and, decide_eq_decide]
    exact hiff

/-- The pipeline is empty once the last butterfly of the pass is written. -/
theorem vld_zero (hc : j.half ≤ c) : q.seq.vldQ = 0 ↔ j.half + 4 ≤ c := by
  constructor
  · intro h0
    by_contra hlt
    have hbit := h.vld (c - j.half) (by omega)
    have hzero : (0 : BitVec 4).getLsbD (c - j.half) = false := BitVec.getLsbD_zero
    have hpos := j.half_pos
    rw [h0, hzero] at hbit
    exact of_decide_eq_false hbit.symm (by omega)
  · intro h4
    apply BitVec.eq_of_getLsbD_eq
    intro i hi
    have hzero : (0 : BitVec 4).getLsbD i = false := BitVec.getLsbD_zero
    rw [h.vld i hi, hzero]
    exact decide_eq_false (by omega)

end SeqAt

/-- A running transform keeps its size and its scaling. -/
theorem regsNext_busy (hb : q.busy = true) (i : RegAccess (BitVec 11) Unit) :
    (q.regsNext i).log2nQ = q.regs.log2nQ ∧ (q.regsNext i).scaleQ = q.regs.scaleQ := by
  rw [regsNext, hb]
  exact ⟨rfl, rfl⟩

/-- A cycle inside a pass. -/
private theorem SeqAt.next (h : SeqAt j own s c q) (hc : c < j.half + 4) (i : RegAccess (BitVec 11) Unit) :
    SeqAt j own s (c + 1) (next rom q i) := by
  obtain ⟨hlog, hscale⟩ := regsNext_busy h.busy i
  have hdone : q.doneD i = false := by rw [doneD, h.done, Bool.false_and]
  by_cases hr : c < j.half
  · have hst : q.seq.stateQ = .run := by rw [h.state, if_pos hr]
    have hseq : (Fft.next rom q i).seq = FftSeq.mk (if q.bfLast then .drain else .run) q.seq.stQ (q.seq.bfQ + 1)
        q.seq.bfLastQ q.seq.halfQ q.seq.twStepQ (if q.jLast then 0 else q.seq.twIdxQ + q.seq.twStepQ)
          q.vldD q.seq.shamtQ
        q.seq.invRunQ (q.seq.cycQ + 1) q.seq.cyclesQ (q.doneD i) q.seq.cpuBufQ := by
      change q.seqNext i = _
      rw [seqNext, hst]
    refine ⟨hlog.trans h.log2n, hscale.trans h.scale, ?_, ?_, fun _ => ?_, fun _ => ?_, ?_, ?_, ?_, ?_,
      ?_, ?_, ?_, ?_⟩
    all_goals rw [hseq]
    · change (if q.bfLast then FftState.drain else FftState.run) = _
      rw [h.bfLast_eq hr]
      by_cases he : c + 1 = j.half
      · rw [decide_eq_true he, if_pos rfl, if_neg (by omega)]
      · rw [decide_eq_false he, if_neg Bool.false_ne_true, if_pos (by omega)]
    · exact h.st
    · change q.seq.bfQ + 1 = _
      rw [h.bf hr, BitVec.ofNat_add]
      rfl
    · exact h.twIdx_next hr
    · exact h.bfLast
    · exact h.half
    · exact h.twStep
    · exact h.vld_next
    · exact h.shamt
    · exact h.inverse
    · exact hdone
    · exact h.own
  · have hst : q.seq.stateQ = .drain := by rw [h.state, if_neg hr]
    have hvld : q.seq.vldQ ≠ 0 := by
      intro h0
      have := (h.vld_zero (Nat.le_of_not_lt hr)).mp h0
      omega
    have hseq : (Fft.next rom q i).seq =
        { q.seq with stateQ := .drain, vldQ := q.vldD, cycQ := q.seq.cycQ + 1, doneQ := q.doneD i } := by
      change q.seqNext i = _
      rw [seqNext, hst]
      exact if_neg hvld
    refine ⟨hlog.trans h.log2n, hscale.trans h.scale, ?_, ?_, fun hc' => ?_, fun hc' => ?_, ?_, ?_, ?_, ?_,
      ?_, ?_, ?_, ?_⟩
    all_goals rw [hseq]
    · rw [if_neg (by omega)]
    · exact h.st
    · omega
    · omega
    · exact h.bfLast
    · exact h.half
    · exact h.twStep
    · exact h.vld_next
    · exact h.shamt
    · exact h.inverse
    · exact hdone
    · exact h.own

/-- The pair distance of the next pass. -/
private theorem SeqAt.half_next (h : SeqAt j own s c q) (hs : s + 1 < j.total) :
    (if q.seq.stQ.setWidth 5 + 1 = q.regs.log2nQ.setWidth 5 then q.seq.halfQ else q.seq.halfQ >>> 1) =
      BitVec.ofNat (m + 1) (2 ^ j.bit (s + 1)) := by
  have htable : ∀ n < 11, 2 ≤ n → ∀ s < n + n % 2,
      ((BitVec.ofNat 4 s).setWidth 5 + 1 = (BitVec.ofNat 4 n).setWidth 5 ↔ s + 1 = n) := by decide
  have hn : j.n < 11 := by
    have h1 := j.le_max
    have h2 := j.small
    omega
  have hcond := htable j.n hn j.two_le s (by unfold FftJob.total at hs; omega)
  rw [h.st, h.log2n, h.half]
  by_cases hend : s + 1 = j.n
  · -- the copy pass pairs neighbours, as the last butterfly pass has done
    have hbit : j.bit (s + 1) = j.bit s := by
      unfold FftJob.bit FftTb.passBit
      rw [if_pos (by omega), if_neg (by omega)]
      omega
    rw [if_pos (hcond.mpr hend), hbit]
  · have hlt : s + 1 < j.n := by
      unfold FftJob.total at hs
      omega
    have hbit : j.bit s = j.bit (s + 1) + 1 := by
      unfold FftJob.bit FftTb.passBit
      rw [if_neg (by omega), if_neg (by omega)]
      omega
    have h1 := j.bit_le s
    have hpow : 2 ^ j.bit s < 2 ^ (m + 1) := Nat.pow_lt_pow_right Nat.one_lt_two (by omega)
    have hpow' : 2 ^ j.bit (s + 1) < 2 ^ (m + 1) := Nat.pow_lt_pow_right Nat.one_lt_two (by omega)
    rw [if_neg (fun hx => hend (hcond.mp hx))]
    apply BitVec.eq_of_toNat_eq
    rw [BitVec.toNat_ushiftRight, BitVec.toNat_ofNat, BitVec.toNat_ofNat, Nat.mod_eq_of_lt hpow,
      Nat.mod_eq_of_lt hpow', Nat.shiftRight_one, hbit, pow_succ, Nat.mul_div_cancel _ Nat.two_pos]

/-- The edge between two passes. -/
private theorem SeqAt.pass_next (h : SeqAt j own s (j.half + 4) q) (hs : s + 1 < j.total)
    (i : RegAccess (BitVec 11) Unit) :
    SeqAt j own (s + 1) 0 (Fft.next rom q i) := by
  obtain ⟨hlog, hscale⟩ := regsNext_busy h.busy i
  have hdone : q.doneD i = false := by rw [doneD, h.done, Bool.false_and]
  have hst : q.seq.stateQ = .drain := by rw [h.state, if_neg (by omega)]
  have hvld : q.seq.vldQ = 0 := (h.vld_zero (by omega)).mpr le_rfl
  have hfinal : q.isFinalStage = false := by
    rw [h.isFinalStage (by omega)]
    exact decide_eq_false (by omega)
  have hseq : (Fft.next rom q i).seq = FftSeq.mk .run (q.seq.stQ + 1) 0 q.seq.bfLastQ
      (if q.seq.stQ.setWidth 5 + 1 = q.regs.log2nQ.setWidth 5 then q.seq.halfQ else q.seq.halfQ >>> 1)
        (q.seq.twStepQ <<< 1) 0
      q.vldD q.seq.shamtQ q.seq.invRunQ (q.seq.cycQ + 1) q.seq.cyclesQ (q.doneD i) q.seq.cpuBufQ := by
    change q.seqNext i = _
    rw [seqNext, hst, hfinal]
    exact if_pos hvld
  refine ⟨hlog.trans h.log2n, hscale.trans h.scale, ?_, ?_, fun _ => ?_, fun _ => ?_, ?_, ?_, ?_, ?_, ?_, ?_, ?_, ?_⟩
  all_goals rw [hseq]
  · rw [if_pos j.half_pos]
  · change q.seq.stQ + 1 = _
    rw [h.st, BitVec.ofNat_add]
    rfl
  · rfl
  · rw [FftJob.twIdx, Nat.zero_mod, Nat.zero_mul]
    rfl
  · exact h.bfLast
  · exact h.half_next hs
  · change q.seq.twStepQ <<< 1 = _
    rw [h.twStep, FftJob.step_succ]
  · intro b hb
    change q.vldD.getLsbD b = _
    rw [h.vld_next b hb, decide_eq_decide]
    omega
  · exact h.shamt
  · exact h.inverse
  · exact hdone
  · exact h.own

/-! ### The memories of a pass -/

/-- The memory the pass reads. -/
def srcMem (q : Fft m) : FftDpram (m + 1) := if q.srcIsScr then q.scratch else q.engBuf

/-- The memory the pass writes. -/
def dstMem (q : Fft m) : FftDpram (m + 1) := if q.srcIsScr then q.engBuf else q.scratch

private theorem srcRdata_eq : q.srcARdata = q.srcMem.aRdata ∧ q.srcBRdata = q.srcMem.bRdata := by
  unfold srcARdata srcBRdata srcMem
  cases q.srcIsScr with
  | true => exact ⟨rfl, rfl⟩
  | false => exact ⟨rfl, rfl⟩

/-- The buffer of the engine, while no buffer changes hands. -/
theorem engBuf_next (i : RegAccess (BitVec 11) Unit) (hown : (Fft.next rom q i).seq.cpuBufQ = q.seq.cpuBufQ) :
    (Fft.next rom q i).engBuf = q.engBuf.next q.ebufA q.ebufB := by
  have hbuf : (Fft.next rom q i).buf0IsEng = q.buf0IsEng := hown
  unfold engBuf
  rw [hbuf]
  cases hb : q.buf0IsEng with
  | true =>
    change (if q.buf0IsEng then q.buf0.next q.ebufA q.ebufB else q.buf0.next (cpuA i) .off) = _
    rw [hb]
    rfl
  | false =>
    change (if q.buf0IsEng then q.buf1.next (cpuA i) .off else q.buf1.next q.ebufA q.ebufB) = _
    rw [hb]
    rfl

/-- While no pass ends and no buffer changes hands, the ports of the pass go to its two memories. -/
private theorem mems_next (i : RegAccess (BitVec 11) Unit) (hst : (Fft.next rom q i).seq.stQ = q.seq.stQ)
    (hown : (Fft.next rom q i).seq.cpuBufQ = q.seq.cpuBufQ) :
    (Fft.next rom q i).srcMem =
      q.srcMem.next (q.port true q.issA q.s4.wa q.s4.da) (q.port true q.issB q.s4.wb q.s4.db) ∧
      (Fft.next rom q i).dstMem =
        q.dstMem.next (q.port false q.issA q.s4.wa q.s4.da) (q.port false q.issB q.s4.wb q.s4.db) := by
  have hscr : (Fft.next rom q i).srcIsScr = q.srcIsScr := by
    unfold srcIsScr
    rw [hst]
  have hsc : (Fft.next rom q i).scratch = q.scratch.next q.scrA q.scrB := rfl
  unfold srcMem dstMem
  rw [hscr, engBuf_next i hown, hsc]
  unfold ebufA ebufB scrA scrB
  cases q.srcIsScr with
  | true => exact ⟨rfl, rfl⟩
  | false => exact ⟨rfl, rfl⟩

/-- The read memory keeps its words. -/
theorem src_putWord (wa wb : BitVec (m + 1)) (da db : Word) (f : BitVec (m + 1) → Word) :
    FftDpram.putWord (q.port true q.issB wb db) (FftDpram.putWord (q.port true q.issA wa da) f) = f := by
  unfold port
  rw [Bool.not_true, Bool.and_false, if_neg Bool.false_ne_true, if_neg Bool.false_ne_true]
  cases q.issue with
  | true => rfl
  | false => rfl

/-- The written memory takes the two results of slot 4. -/
theorem dst_putWord (wa wb : BitVec (m + 1)) (da db : Word) (f : BitVec (m + 1) → Word) :
    FftDpram.putWord (q.port false q.issB wb db) (FftDpram.putWord (q.port false q.issA wa da) f) =
      if q.wrFire then Function.update (Function.update f wa da) wb db else f := by
  unfold port
  rw [Bool.not_false, Bool.and_true, Bool.and_false, if_neg Bool.false_ne_true, if_neg Bool.false_ne_true]
  cases q.wrFire with
  | true => rw [if_pos rfl, if_pos rfl, if_pos rfl, FftDpram.putWord_write, FftDpram.putWord_write]
  | false => rfl

end Fft

/-! ### The butterflies in flight -/

namespace FftJob

variable {m : Nat} (j : FftJob m) (rom : BitVec m → Word) (x : Nat → Word)

/-- The twiddle word of butterfly `t`. -/
def tw (s t : Nat) : Word := rom (BitVec.ofNat m (j.twIdx s t))

/-- Butterfly `t` in slot 2. -/
def slot2 (s t : Nat) : FftSlot2 :=
  Fft.slot2D (j.copy s) j.inverse (x (lo (2 ^ j.bit s) t)) (x (hi (2 ^ j.bit s) t)) (j.tw rom s t)

/-- Butterfly `t` in slot 3. -/
def slot3 (s t : Nat) : FftSlot3 := Fft.slot3D (j.slot2 rom x s t)

/-- Butterfly `t` in slot 4. -/
def slot4 (s t : Nat) : FftSlot4 m := Fft.slot4D (j.tag s t) (j.slot3 rom x s t) (BitVec.ofNat 4 (m + 1 - j.n))

/-- The memory after the writes of the butterflies below `t`. -/
def swept (s : Nat) (d : BitVec (m + 1) → Word) (t : Nat) : BitVec (m + 1) → Word :=
  sweep (fun t => (j.slot4 rom x s t).wa) (fun t => (j.slot4 rom x s t).wb) (fun t => (j.slot4 rom x s t).da)
    (fun t => (j.slot4 rom x s t).db) d t

end FftJob

namespace Fft

variable {m : Nat} {rom : BitVec m → Word} {q : Fft m} {j : FftJob m} {own : Bool} {s c : Nat} {x : Nat → Word}
  {d : BitVec (m + 1) → Word}

/-- Cycle `c` of pass `s`: it reads `x`, has found `d` in the memory it writes, and butterfly `t` is in slot `c -
t`. -/
structure PassAt (rom : BitVec m → Word) (j : FftJob m) (s c : Nat) (x : Nat → Word) (d : BitVec (m + 1) → Word)
    (q : Fft m) : Prop where
  src : ∀ i < 2 ^ j.n, q.srcMem.mem (BitVec.ofNat (m + 1) i) = x i
  dst : q.dstMem.mem = j.swept rom x s d (min (c - 4) j.half)
  slot1 : ∀ t < j.half, c = t + 1 → q.p1 = j.tag s t ∧ q.srcARdata = x (lo (2 ^ j.bit s) t) ∧
    q.srcBRdata = x (hi (2 ^ j.bit s) t) ∧ q.twRdata = j.tw rom s t
  slot2 : ∀ t < j.half, c = t + 2 → q.s2Tag = j.tag s t ∧ q.s2 = j.slot2 rom x s t
  slot3 : ∀ t < j.half, c = t + 3 → q.s3Tag = j.tag s t ∧ q.s3 = j.slot3 rom x s t
  slot4 : ∀ t < j.half, c = t + 4 → q.s4 = j.slot4 rom x s t

/-- Nothing is in flight when a pass begins. -/
theorem PassAt.zero : PassAt rom j s 0 (fun i => q.srcMem.mem (BitVec.ofNat (m + 1) i)) q.dstMem.mem q := by
  refine ⟨fun _ _ => rfl, ?_, ?_, ?_, ?_, ?_⟩
  · have hmin : min (0 - 4) j.half = 0 := by omega
    rw [hmin]
    rfl
  all_goals
    intro t _ hc
    omega

/-- An occupied slot. -/
theorem SeqAt.vld_slot (h : SeqAt j own s c q) {t i : Nat} (ht : t < j.half) (hi : i < 4) (hc : c = t + (i + 1)) :
    q.seq.vldQ.getLsbD i = true := by
  rw [h.vld i hi]
  exact decide_eq_true (by omega)

private theorem PassAt.next (hseq : SeqAt j own s c q) (h : PassAt rom j s c x d q) (hs : s < j.total)
    (hc : c < j.half + 4) (i : RegAccess (BitVec 11) Unit) : PassAt rom j s (c + 1) x d (Fft.next rom q i) := by
  have hnext : SeqAt j own s (c + 1) (Fft.next rom q i) := hseq.next hc i
  obtain ⟨hsrc, hdst⟩ := mems_next i (hnext.st.trans hseq.st.symm) (hnext.own.trans hseq.own.symm)
  have hmem : (Fft.next rom q i).srcMem.mem = q.srcMem.mem := by rw [hsrc, FftDpram.mem_next, src_putWord]
  refine ⟨?_, ?_, ?_, ?_, ?_, ?_⟩
  · intro k hk
    rw [hmem]
    exact h.src k hk
  · have hfire : q.wrFire = decide (4 ≤ c ∧ c < j.half + 4) := hseq.vld 3 (by omega)
    rw [hdst, FftDpram.mem_next, dst_putWord, hfire, h.dst]
    by_cases h4 : 4 ≤ c
    · have hmin : min (c - 4) j.half = c - 4 := by omega
      have hmin' : min (c + 1 - 4) j.half = c - 4 + 1 := by omega
      have hslot := h.slot4 (c - 4) (by omega) (by omega)
      rw [decide_eq_true ⟨h4, hc⟩, if_pos rfl, hmin, hmin', hslot]
      rfl
    · have hmin : min (c + 1 - 4) j.half = min (c - 4) j.half := by omega
      rw [decide_eq_false (by omega), if_neg Bool.false_ne_true, hmin]
  · intro t ht hct
    have htc : t = c := by omega
    subst htc
    have hissue : q.issue = true := by
      rw [hseq.issue]
      exact decide_eq_true ht
    have htag := hseq.tag hs ht
    have hp1 : (Fft.next rom q i).p1 = if q.issue then q.tag else q.p1 := rfl
    have htw : (Fft.next rom q i).twRdata = if q.issue then rom (q.seq.twIdxQ.setWidth m) else q.twRdata := rfl
    have hport : ∀ a wa da, q.port true a wa da = .read a := by
      intro a wa da
      unfold port
      rw [Bool.not_true, Bool.and_false, if_neg Bool.false_ne_true, hissue]
      rfl
    have hlo : lo (2 ^ j.bit s) t < 2 ^ j.n := lo_lt (j.bit_lt s) ht
    have hhi : hi (2 ^ j.bit s) t < 2 ^ j.n := hi_lt (j.bit_lt s) ht
    have ha : q.issA = j.addrA s t := congrArg FftTag.a htag
    have hb : q.issB = j.addrB s t := congrArg FftTag.b htag
    refine ⟨?_, ?_, ?_, ?_⟩
    · rw [hp1, hissue, if_pos rfl, htag]
    · rw [srcRdata_eq.1, hsrc, hport, hport, FftDpram.aRdata_read rfl rfl]
      change q.srcMem.mem q.issA = _
      rw [ha, FftJob.addrA, h.src _ hlo]
    · rw [srcRdata_eq.2, hsrc, hport, hport, FftDpram.bRdata_read rfl rfl]
      change q.srcMem.mem q.issB = _
      rw [hb, FftJob.addrB, h.src _ hhi]
    · rw [htw, hissue, if_pos rfl, hseq.twIdx ht, BitVec.setWidth_ofNat_of_le (Nat.le_succ m), FftJob.tw]
  · intro t ht hct
    obtain ⟨hp1, hra, hrb, htw⟩ := h.slot1 t ht (by omega)
    have hv := hseq.vld_slot (i := 0) ht (by omega) (by omega)
    have h1 : (Fft.next rom q i).s2Tag = if q.seq.vldQ.getLsbD 0 then q.p1 else q.s2Tag := rfl
    rw [h1, next_s2 hv, hv, if_pos rfl, hp1, hra, hrb, htw, hseq.inverse]
    exact ⟨rfl, rfl⟩
  · intro t ht hct
    obtain ⟨htag, hslot⟩ := h.slot2 t ht (by omega)
    have hv := hseq.vld_slot (i := 1) ht (by omega) (by omega)
    have h1 : (Fft.next rom q i).s3Tag = if q.seq.vldQ.getLsbD 1 then q.s2Tag else q.s3Tag := rfl
    have h2 : (Fft.next rom q i).s3 = if q.seq.vldQ.getLsbD 1 then slot3D q.s2 else q.s3 := rfl
    rw [h1, h2, hv, if_pos rfl, if_pos rfl, htag, hslot]
    exact ⟨rfl, rfl⟩
  · intro t ht hct
    obtain ⟨htag, hslot⟩ := h.slot3 t ht (by omega)
    have hv := hseq.vld_slot (i := 2) ht (by omega) (by omega)
    have h1 : (Fft.next rom q i).s4 = if q.seq.vldQ.getLsbD 2 then slot4D q.s3Tag q.s3 q.seq.shamtQ else q.s4 := rfl
    rw [h1, hv, if_pos rfl, htag, hslot, hseq.shamt]
    rfl

/-! ### What a pass leaves behind -/

end Fft

namespace FftJob

variable {m : Nat} (j : FftJob m) (rom : BitVec m → Word)

/-- The ROM as a table of samples. -/
def tab (rom : BitVec m → Word) (k : Nat) : C16 := FftTb.unpack (rom (BitVec.ofNat m k))

/-- The frame after `s` stages of the reference. -/
def stage (frame : Nat → C16) (s : Nat) : Nat → C16 :=
  FftTb.stages (2 ^ (m + 1)) j.n (j.scale.setWidth 32) j.inverse (tab rom) frame s

/-- What the reference does to pair `t` of pass `s`. -/
def op (s t : Nat) (A B : C16) : C16 × C16 :=
  FftTb.passOp (2 ^ (m + 1)) j.n (j.scale.setWidth 32) j.inverse (tab rom) s t A B

/-- The same on packed samples. -/
def wordOp (s t : Nat) (a b : Word) : Word × Word :=
  (FftTb.pack (j.op rom s t (FftTb.unpack a) (FftTb.unpack b)).1,
    FftTb.pack (j.op rom s t (FftTb.unpack a) (FftTb.unpack b)).2)

variable {j rom}

/-- The twiddle exponent of a butterfly, as the reference counts it. -/
theorem twIdx_eq {s : Nat} (hs : ¬j.n ≤ s) (t : Nat) :
    j.twIdx s t = t % 2 ^ (j.n - 1 - s) * (2 ^ s * (2 ^ (m + 1) / 2 ^ j.n)) := by
  rw [twIdx, bit, FftTb.passBit, if_neg hs, step, Nat.pow_div j.le_max Nat.two_pos]

/-- The results of slot 4 are those of the reference. -/
private theorem slot4_data (x : Nat → Word) (s t : Nat) :
    (j.slot4 rom x s t).da = (j.wordOp rom s t (x (lo (2 ^ j.bit s) t)) (x (hi (2 ^ j.bit s) t))).1 ∧
      (j.slot4 rom x s t).db = (j.wordOp rom s t (x (lo (2 ^ j.bit s) t)) (x (hi (2 ^ j.bit s) t))).2 := by
  have hda : (j.slot4 rom x s t).da = Fft.outA (j.scaled s) (Fft.slot3D (j.slot2 rom x s t)) := rfl
  have hdb : (j.slot4 rom x s t).db = Fft.outB (j.copy s) (j.scaled s) (Fft.slot3D (j.slot2 rom x s t)) := rfl
  rw [hda, hdb, scaled, slot2, wordOp, op, FftTb.passOp]
  by_cases hs : j.n ≤ s
  · have hcopy : j.copy s = true := decide_eq_true hs
    rw [hcopy, if_pos hs, Bool.not_true, Bool.false_and, Fft.pack_unpack, Fft.pack_unpack]
    exact Fft.out_copy _ _ _ _
  · have hcopy : j.copy s = false := decide_eq_false hs
    have h1 := j.le_max
    have h2 := j.small
    have hscale : (j.scale.setWidth 32).getLsbD s = j.scale.getLsbD s := by
      rw [BitVec.getLsbD_setWidth, decide_eq_true (by omega), Bool.true_and]
    rw [hcopy, if_neg hs, Bool.not_false, Bool.true_and, Fft.outA_eq, Fft.outB_eq, FftTb.difOp, hscale, ← twIdx_eq hs]
    exact ⟨rfl, rfl⟩

/-- The address pass `s` writes element `i` to. -/
def wrAddr (j : FftJob m) (s i : Nat) : BitVec (m + 1) := BitVec.ofNat (m + 1) (FftTb.passAddr j.n s i)

private theorem final_wrAddr {s i : Nat} (hi : i < 2 ^ j.n) :
    (if j.final s then Fft.rev (BitVec.ofNat (m + 1) i) (BitVec.ofNat 4 (m + 1 - j.n)) else BitVec.ofNat (m + 1) i) =
      j.wrAddr s i := by
  have hpos := j.two_le
  have hlt : i < 2 ^ (m + 1) := lt_of_lt_of_le hi (Nat.pow_le_pow_right Nat.two_pos j.le_max)
  unfold final wrAddr FftTb.passAddr total
  by_cases hs : s + 1 = j.n + j.n % 2
  · rw [decide_eq_true hs, if_pos rfl, if_pos (by omega)]
    apply BitVec.eq_of_toNat_eq
    have hb : brev i j.n < 2 ^ (m + 1) :=
      lt_of_lt_of_le (brev_lt i j.n) (Nat.pow_le_pow_right Nat.two_pos j.le_max)
    rw [Fft.rev_toNat j.le_max j.small, BitVec.toNat_ofNat, BitVec.toNat_ofNat, Nat.mod_eq_of_lt hlt,
      Nat.mod_eq_of_lt hb]
  · rw [decide_eq_false hs, if_neg Bool.false_ne_true, if_neg (by omega)]

theorem slot4_addr (x : Nat → Word) {s t : Nat} (ht : t < j.half) :
    (j.slot4 rom x s t).wa = j.wrAddr s (lo (2 ^ j.bit s) t) ∧
      (j.slot4 rom x s t).wb = j.wrAddr s (hi (2 ^ j.bit s) t) :=
  ⟨final_wrAddr (lo_lt (j.bit_lt s) ht), final_wrAddr (hi_lt (j.bit_lt s) ht)⟩

private theorem wrAddr_toNat (s : Nat) {i : Nat} (hi : i < 2 ^ j.n) :
    (j.wrAddr s i).toNat = FftTb.passAddr j.n s i := by
  have hlt : FftTb.passAddr j.n s i < 2 ^ (m + 1) := by
    refine lt_of_lt_of_le ?_ (Nat.pow_le_pow_right Nat.two_pos j.le_max)
    unfold FftTb.passAddr
    split
    · exact brev_lt i j.n
    · exact hi
  rw [wrAddr, BitVec.toNat_ofNat, Nat.mod_eq_of_lt hlt]

/-- The writes of a pass stay among the samples of the transform. -/
theorem wrAddr_lt (s : Nat) {i : Nat} (hi : i < 2 ^ j.n) : (j.wrAddr s i).toNat < 2 ^ j.n := by
  rw [wrAddr_toNat s hi]
  unfold FftTb.passAddr
  split
  · exact brev_lt i j.n
  · exact hi

private theorem wrAddr_injOn (s : Nat) : Set.InjOn (j.wrAddr s) (Set.Iio (2 ^ j.n)) := by
  intro a ha b hb he
  have h := congrArg BitVec.toNat he
  rw [wrAddr_toNat s ha, wrAddr_toNat s hb] at h
  exact FftTb.passAddr_injOn j.n s ha hb h

/-- A swept memory holds the pass of the reference, at the addresses of the pass. -/
private theorem swept_half (x : Nat → Word) (s : Nat) (d : BitVec (m + 1) → Word) {i : Nat} (hlt : i < 2 ^ j.n) :
    FftTb.unpack (j.swept rom x s d j.half (j.wrAddr s i)) =
      pass (2 ^ j.bit s) (j.op rom s) (fun i => FftTb.unpack (x i)) i := by
  have hsweep : j.swept rom x s d j.half = sweep (fun t => j.wrAddr s (lo (2 ^ j.bit s) t))
      (fun t => j.wrAddr s (hi (2 ^ j.bit s) t))
      (fun t => (j.wordOp rom s t (x (lo (2 ^ j.bit s) t)) (x (hi (2 ^ j.bit s) t))).1)
      (fun t => (j.wordOp rom s t (x (lo (2 ^ j.bit s) t)) (x (hi (2 ^ j.bit s) t))).2) d (2 ^ (j.n - 1)) := by
    apply sweep_congr
    intro t ht
    have haddr : (j.slot4 rom x s t).wa = j.wrAddr s (lo (2 ^ j.bit s) t) ∧
        (j.slot4 rom x s t).wb = j.wrAddr s (hi (2 ^ j.bit s) t) := slot4_addr x ht
    obtain ⟨hda, hdb⟩ := slot4_data x s t
    exact ⟨haddr.1, haddr.2, hda, hdb⟩
  have hmap : ∀ t a b, j.op rom s t (FftTb.unpack a) (FftTb.unpack b) =
      (FftTb.unpack (j.wordOp rom s t a b).1, FftTb.unpack (j.wordOp rom s t a b).2) := by
    intro t a b
    unfold wordOp
    rw [Fft.unpack_pack, Fft.unpack_pack]
  rw [hsweep, sweep_pass (j.bit_lt s) (wrAddr_injOn s) hlt, pass_map FftTb.unpack hmap]

/-- The next stage, from the memory a pass has read. -/
private theorem swept_stage {frame : Nat → C16} {x : Nat → Word} {s : Nat}
    (hx : ∀ i < 2 ^ j.n, FftTb.unpack (x i) = j.stage rom frame (min s j.n) i) (d : BitVec (m + 1) → Word) {i : Nat}
    (hi : i < 2 ^ j.n) :
    FftTb.unpack (j.swept rom x s d j.half (j.wrAddr s i)) = j.stage rom frame (min (s + 1) j.n) i := by
  rw [swept_half x s d hi, pass_congr (j.bit_lt s) hx hi]
  exact FftTb.pass_stages frame s i

end FftJob

namespace Fft

variable {m : Nat} {rom : BitVec m → Word} {q : Fft m} {j : FftJob m} {own : Bool} {s c : Nat} {frame : Nat → C16}

/-! ### A transform under way -/

/-- Cycle `c` of pass `s` of the transform of `frame`. -/
structure JobAt (rom : BitVec m → Word) (j : FftJob m) (own : Bool) (frame : Nat → C16) (s c : Nat)
    (q : Fft m) : Prop where
  seq : SeqAt j own s c q
  lt : s < j.total
  le : c ≤ j.half + 4
  pass : ∃ x d, (∀ i < 2 ^ j.n, FftTb.unpack (x i) = j.stage rom frame (min s j.n) i) ∧ PassAt rom j s c x d q

theorem JobAt.next (h : JobAt rom j own frame s c q) (hc : c < j.half + 4) (i : RegAccess (BitVec 11) Unit) :
    JobAt rom j own frame s (c + 1) (Fft.next rom q i) := by
  obtain ⟨x, d, hx, hpass⟩ := h.pass
  exact ⟨h.seq.next hc i, h.lt, hc, x, d, hx, hpass.next h.seq h.lt hc i⟩

/-- No port is driven in the last cycle of a pass. -/
theorem SeqAt.ports_off (h : SeqAt j own s (j.half + 4) q) (src : Bool) (a wa : BitVec (m + 1)) (w : Word) :
    q.port src a wa w = .off := by
  have hfire : q.wrFire = false := by
    have hbit : q.wrFire = decide (3 + 1 ≤ j.half + 4 ∧ j.half + 4 < j.half + (3 + 1)) := h.vld 3 (by omega)
    rw [hbit]
    exact decide_eq_false (by omega)
  have hissue : q.issue = false := by
    rw [h.issue]
    exact decide_eq_false (by omega)
  unfold port
  rw [hfire, hissue]
  rfl

/-- The memory a pass has written, at its end. -/
theorem JobAt.written (h : JobAt rom j own frame s (j.half + 4) q) {i : Nat} (hi : i < 2 ^ j.n) :
    FftTb.unpack (q.dstMem.mem (j.wrAddr s i)) = j.stage rom frame (min (s + 1) j.n) i := by
  obtain ⟨x, d, hx, hpass⟩ := h.pass
  have hmin : min (j.half + 4 - 4) j.half = j.half := by omega
  rw [hpass.dst, hmin]
  exact FftJob.swept_stage hx d hi

/-- The next pass reads what this one has written. -/
theorem JobAt.pass_next (h : JobAt rom j own frame s (j.half + 4) q) (hs : s + 1 < j.total)
    (i : RegAccess (BitVec 11) Unit) : JobAt rom j own frame (s + 1) 0 (Fft.next rom q i) := by
  have hseq : SeqAt j own (s + 1) 0 (Fft.next rom q i) := h.seq.pass_next hs i
  have haddr : ∀ i, j.wrAddr s i = BitVec.ofNat (m + 1) i := by
    intro i
    unfold FftJob.wrAddr FftTb.passAddr
    rw [if_neg (by unfold FftJob.total at hs; omega)]
  have hscr : (Fft.next rom q i).srcIsScr = !q.srcIsScr := by
    have hflip : ∀ b : BitVec 4, (b + 1).getLsbD 0 = !b.getLsbD 0 := by decide
    unfold srcIsScr
    rw [hseq.st, h.seq.st, BitVec.ofNat_add]
    exact hflip _
  have hsrc : (Fft.next rom q i).srcMem = q.dstMem.next .off .off := by
    have hsc : (Fft.next rom q i).scratch = q.scratch.next q.scrA q.scrB := rfl
    unfold srcMem dstMem
    rw [hscr, engBuf_next i (hseq.own.trans h.seq.own.symm), hsc]
    unfold ebufA ebufB scrA scrB
    rw [h.seq.ports_off, h.seq.ports_off, h.seq.ports_off, h.seq.ports_off]
    cases q.srcIsScr with
    | true => rfl
    | false => rfl
  have hmem : (Fft.next rom q i).srcMem.mem = q.dstMem.mem := by
    rw [hsrc, FftDpram.mem_next, FftDpram.putWord_off, FftDpram.putWord_off]
  refine ⟨hseq, hs, Nat.zero_le _, _, _, ?_, PassAt.zero⟩
  intro k hk
  have hw := h.written hk
  rw [haddr] at hw
  rw [hmem]
  exact hw

end Fft

end Yarv
