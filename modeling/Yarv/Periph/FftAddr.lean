import Yarv.Periph.FftRun

/-!
# The addresses of a transform

In every pass the pairs that are issued enumerate the frame, in the last one the pairs that are written do, and no
memory is read and written in one cycle.
-/

namespace Yarv

open Clocked Radix2

namespace DpPort

variable {a : Nat} (p : DpPort a)

/-- A read is issued to the port. -/
def reads : Bool := p.en && !p.we

/-- A write is. -/
def writes : Bool := p.en && p.we

/-- The two ports of a memory do not read and write in one cycle. -/
def Apart (p p' : DpPort a) : Prop := ¬((p.reads || p'.reads) = true ∧ (p.writes || p'.writes) = true)

end DpPort

namespace Fft

variable {m : Nat} {rom : BitVec m → Word} {q : Fft m} {j : FftJob m} {own : Bool} {s c : Nat} {frame : Nat → C16}

/-- One address of the pair that is issued. -/
def issued (q : Fft m) (up : Bool) : BitVec (m + 1) := if up then q.issB else q.issA

/-- One address of the pair that is written. -/
def written (q : Fft m) (up : Bool) : BitVec (m + 1) := if up then q.s4.wb else q.s4.wa

/-! ### The ports of a memory -/

section Ports

variable (q : Fft m) (i : RegAccess (BitVec 11) Unit)

/-- The ports of the two buffers and of the scratch memory. -/
def ports0 : DpPort (m + 1) × DpPort (m + 1) := if q.buf0IsEng then (q.ebufA, q.ebufB) else (cpuA i, .off)

def ports1 : DpPort (m + 1) × DpPort (m + 1) := if q.buf0IsEng then (cpuA i, .off) else (q.ebufA, q.ebufB)

def portsScr : DpPort (m + 1) × DpPort (m + 1) := (q.scrA, q.scrB)

/-- No memory is read and written in a cycle. -/
structure Separate : Prop where
  buf0 : DpPort.Apart (q.ports0 i).1 (q.ports0 i).2
  buf1 : DpPort.Apart (q.ports1 i).1 (q.ports1 i).2
  scratch : DpPort.Apart q.portsScr.1 q.portsScr.2

end Ports

/-- The ports of the engine to one memory. -/
private theorem port_apart (src : Bool) (a b wa wb : BitVec (m + 1)) (da db : Word) :
    DpPort.Apart (q.port src a wa da) (q.port src b wb db) := by
  rintro ⟨hr, hw⟩
  unfold port at hr hw
  cases src with
  | true =>
    rw [Bool.not_true, Bool.and_false, if_neg Bool.false_ne_true, if_neg Bool.false_ne_true] at hw
    cases hissue : q.issue with
    | true =>
      rw [hissue] at hw
      cases hw
    | false =>
      rw [hissue] at hw
      cases hw
  | false =>
    rw [Bool.not_false, Bool.and_true, Bool.and_false, if_neg Bool.false_ne_true, if_neg Bool.false_ne_true] at hr
    cases hfire : q.wrFire with
    | true =>
      rw [hfire] at hr
      cases hr
    | false =>
      rw [hfire] at hr
      cases hr

/-- The port of the CPU, beside an idle one. -/
private theorem cpuA_apart (i : RegAccess (BitVec 11) Unit) : DpPort.Apart (cpuA (m := m) i) .off := by
  rintro ⟨hr, hw⟩
  have hr' : (cpuA (m := m) i).reads = true := by
    rw [Bool.or_eq_true] at hr
    exact hr.resolve_right Bool.false_ne_true
  have hw' : (cpuA (m := m) i).writes = true := by
    rw [Bool.or_eq_true] at hw
    exact hw.resolve_right Bool.false_ne_true
  unfold DpPort.reads at hr'
  unfold DpPort.writes at hw'
  rw [Bool.and_eq_true] at hr' hw'
  rw [hw'.2] at hr'
  cases hr'.2

private theorem separate (q : Fft m) (i : RegAccess (BitVec 11) Unit) : Separate q i := by
  have heng : DpPort.Apart q.ebufA q.ebufB := port_apart _ _ _ _ _ _ _
  have hcpu := cpuA_apart (m := m) i
  refine ⟨?_, ?_, port_apart _ _ _ _ _ _ _⟩
  · unfold ports0
    cases q.buf0IsEng with
    | true => exact heng
    | false => exact hcpu
  · unfold ports1
    cases q.buf0IsEng with
    | true => exact hcpu
    | false => exact heng

/-! ### One pass -/

/-- What is issued is one side of the pair. -/
private theorem SeqAt.issued_toNat (h : SeqAt j own s c q) (hc : c < j.half) (up : Bool) :
    (q.issued up).toNat = elem (2 ^ j.bit s) c up := by
  have hm : c < 2 ^ m := lt_of_lt_of_le hc FftJob.half_le
  cases up with
  | true => exact issB_toNat (j.bit_le s) h.half hm (h.bf hc)
  | false => exact issA_toNat (j.bit_le s) h.half hm (h.bf hc)

/-- The distance of a pair, as the passes count it. -/
private theorem two_pow_bit (s : Nat) : 2 ^ j.bit s = if s < j.n then 2 ^ j.n / 2 ^ (s + 1) else 1 := by
  unfold FftJob.bit FftTb.passBit
  by_cases hs : s < j.n
  · rw [if_pos hs, if_neg (by omega), Nat.pow_div (by omega) Nat.two_pos]
    congr 1
    omega
  · rw [if_neg hs, if_pos (by omega), pow_zero]

/-- The twiddle exponent stays in the table. -/
private theorem twIdx_lt (hs : s < j.n) (c : Nat) : j.twIdx s c < 2 ^ m := by
  have hle := j.le_max
  have hbit : j.bit s = j.n - 1 - s := by
    unfold FftJob.bit FftTb.passBit
    rw [if_neg (by omega)]
  have hpos : 0 < j.step s := Nat.mul_pos (Nat.two_pow_pos _) (Nat.two_pow_pos _)
  have hlt : c % 2 ^ j.bit s < 2 ^ j.bit s := Nat.mod_lt _ (Nat.two_pow_pos _)
  calc j.twIdx s c < 2 ^ j.bit s * j.step s := Nat.mul_lt_mul_of_pos_right hlt hpos
    _ = 2 ^ m := by
      rw [FftJob.step, hbit, ← pow_add, ← pow_add]
      congr 1
      omega

private theorem SeqAt.twIdx_toNat (h : SeqAt j own s c q) (hs : s < j.n) (hc : c < j.half) :
    q.seq.twIdxQ.toNat = q.bfJ.toNat * 2 ^ s * (2 ^ (m + 1) / 2 ^ j.n) := by
  have hm : c < 2 ^ m := lt_of_lt_of_le hc FftJob.half_le
  have hlt : j.twIdx s c < 2 ^ (m + 1) :=
    lt_trans (twIdx_lt hs c) (Nat.pow_lt_pow_right Nat.one_lt_two (Nat.lt_succ_self m))
  rw [h.twIdx hc, BitVec.toNat_ofNat, Nat.mod_eq_of_lt hlt, bfJ_toNat (j.bit_le s) h.half hm (h.bf hc), FftJob.twIdx,
    FftJob.step, Nat.pow_div j.le_max Nat.two_pos, Nat.mul_assoc]

/-- What the last pass writes is what it has issued, reversed. -/
private theorem JobAt.written_toNat (h : JobAt rom j own frame s c q) (hs : s + 1 = j.total) {t : Nat}
    (ht : t < j.half) (hc : c = t + 4) (up : Bool) : (q.written up).toNat = brev (elem (2 ^ j.bit s) t up) j.n := by
  obtain ⟨x, d, -, hpass⟩ := h.pass
  have haddr : ∀ i, (j.wrAddr s i).toNat = brev i j.n := by
    intro i
    have hlt : brev i j.n < 2 ^ (m + 1) := lt_of_lt_of_le (brev_lt i j.n) (Nat.pow_le_pow_right Nat.two_pos j.le_max)
    unfold FftJob.wrAddr FftTb.passAddr
    rw [if_pos (by unfold FftJob.total at hs; omega), BitVec.toNat_ofNat, Nat.mod_eq_of_lt hlt]
  have haddrs : (j.slot4 rom x s t).wa = j.wrAddr s (lo (2 ^ j.bit s) t) ∧
      (j.slot4 rom x s t).wb = j.wrAddr s (hi (2 ^ j.bit s) t) := FftJob.slot4_addr x ht
  obtain ⟨ha, hb⟩ := haddrs
  unfold Fft.written
  rw [hpass.slot4 t ht hc, ha, hb]
  cases up with
  | true => exact haddr _
  | false => exact haddr _

/-! ### Every transform of a run -/

section Transform

variable (rom : BitVec m → Word) (s : Fft m) (is : Nat → RegAccess (BitVec 11) Unit)

/-- Cycle `c` of pass `p` of the transform of `2 ^ n` points begun in cycle `t`. -/
def passCycle (t n p c : Nat) : Nat := t + 1 + (p * (2 ^ (n - 1) + 5) + c)

/-- The addresses of the transform of `2 ^ n` points begun in cycle `t`. -/
structure Addresses (t n : Nat) : Prop where
  issues : ∀ p < n + n % 2, ∀ c < 2 ^ (n - 1) + 5,
    (run rom s is (passCycle t n p c)).seq.stQ.toNat = p ∧
      (run rom s is (passCycle t n p c)).issue = decide (c < 2 ^ (n - 1))
  enumerates : ∀ p < n + n % 2,
    Set.BijOn (fun x : Nat × Bool => ((run rom s is (passCycle t n p x.1)).issued x.2).toNat)
      {x | x.1 < 2 ^ (n - 1)} (Set.Iio (2 ^ n))
  distinct : ∀ p < n + n % 2, ∀ c < 2 ^ (n - 1),
    (run rom s is (passCycle t n p c)).issA ≠ (run rom s is (passCycle t n p c)).issB
  distance : ∀ p < n + n % 2, ∀ c < 2 ^ (n - 1),
    (run rom s is (passCycle t n p c)).issB.toNat =
      (run rom s is (passCycle t n p c)).issA.toNat + if p < n then 2 ^ n / 2 ^ (p + 1) else 1
  twiddle : ∀ p < n, ∀ c < 2 ^ (n - 1),
    (run rom s is (passCycle t n p c)).bfJ.toNat = c % (2 ^ n / 2 ^ (p + 1)) ∧
      (run rom s is (passCycle t n p c)).seq.twIdxQ.toNat =
        (run rom s is (passCycle t n p c)).bfJ.toNat * 2 ^ p * (2 ^ (m + 1) / 2 ^ n) ∧
      (run rom s is (passCycle t n p c)).seq.twIdxQ.toNat < 2 ^ (m + 1) / 2
  fires : ∀ p < n + n % 2, ∀ c < 2 ^ (n - 1) + 5,
    (run rom s is (passCycle t n p c)).wrFire = decide (4 ≤ c ∧ c < 2 ^ (n - 1) + 4)
  reversed : ∀ p, p + 1 = n + n % 2 → ∀ c < 2 ^ (n - 1), ∀ up,
    ((run rom s is (passCycle t n p (c + 4))).written up).toNat =
      brev ((run rom s is (passCycle t n p c)).issued up).toNat n
  permutes : ∀ p, p + 1 = n + n % 2 →
    Set.BijOn (fun x : Nat × Bool => ((run rom s is (passCycle t n p (x.1 + 4))).written x.2).toNat)
      {x | x.1 < 2 ^ (n - 1)} (Set.Iio (2 ^ n))

variable {rom s is}

private theorem pass_of_job {t : Nat} (h : JobAt rom j own frame 0 0 (run rom s is (t + 1))) {p c : Nat}
    (hp : p < j.total) (hc : c < j.half + 5) : JobAt rom j own frame p c (run rom s is (passCycle t j.n p c)) := by
  have hpass := (h.run_pass (fun u => is (t + 1 + u)) hp).pass_run (fun u => is (t + 1 + (p * (j.half + 5) + u)))
    (Nat.le_of_lt_succ hc)
  rw [← trace_add, run_add] at hpass
  exact hpass

private theorem addresses_of_job {t : Nat} (h : JobAt rom j own frame 0 0 (run rom s is (t + 1))) :
    Addresses rom s is t j.n := by
  have hissued : ∀ p < j.total, ∀ c < j.half, ∀ up,
      ((run rom s is (passCycle t j.n p c)).issued up).toNat = elem (2 ^ j.bit p) c up := by
    intro p hp c hc up
    exact (pass_of_job h hp (by omega)).seq.issued_toNat hc up
  have hwritten : ∀ p, p + 1 = j.total → ∀ c < j.half, ∀ up,
      ((run rom s is (passCycle t j.n p (c + 4))).written up).toNat = brev (elem (2 ^ j.bit p) c up) j.n := by
    intro p hp c hc up
    exact (pass_of_job h (by omega) (by omega)).written_toNat hp hc rfl up
  have hdistance : ∀ p < j.total, ∀ c < j.half, (run rom s is (passCycle t j.n p c)).issB.toNat =
      (run rom s is (passCycle t j.n p c)).issA.toNat + 2 ^ j.bit p := by
    intro p hp c hc
    have ha : (run rom s is (passCycle t j.n p c)).issA.toNat = lo (2 ^ j.bit p) c := hissued p hp c hc false
    have hb : (run rom s is (passCycle t j.n p c)).issB.toNat = hi (2 ^ j.bit p) c := hissued p hp c hc true
    rw [ha, hb, Radix2.hi]
  refine ⟨?_, ?_, ?_, ?_, ?_, ?_, ?_, ?_⟩
  · intro p hp c hc
    have hjob := pass_of_job h hp hc
    exact ⟨hjob.seq.st_toNat hp, hjob.seq.issue⟩
  · intro p hp
    exact (elem_bijOn (j.bit_lt p)).congr fun x hx => (hissued p hp x.1 hx x.2).symm
  · intro p hp c hc he
    have hd := hdistance p hp c hc
    have hpos : 0 < 2 ^ j.bit p := Nat.two_pow_pos _
    rw [he] at hd
    omega
  · intro p hp c hc
    rw [hdistance p hp c hc, two_pow_bit]
  · intro p hp c hc
    have hlt : p < j.total := lt_of_lt_of_le hp (Nat.le_add_right _ _)
    have hjob := pass_of_job h hlt (Nat.lt_of_lt_of_le hc (Nat.le_add_right _ _))
    have hm : c < 2 ^ m := lt_of_lt_of_le hc FftJob.half_le
    have htw : (run rom s is (passCycle t j.n p c)).seq.twIdxQ.toNat = j.twIdx p c := by
      rw [hjob.seq.twIdx hc, BitVec.toNat_ofNat, Nat.mod_eq_of_lt
        (lt_trans (twIdx_lt hp c) (Nat.pow_lt_pow_right Nat.one_lt_two (Nat.lt_succ_self m)))]
    refine ⟨?_, hjob.seq.twIdx_toNat hp hc, ?_⟩
    · rw [bfJ_toNat (j.bit_le p) hjob.seq.half hm (hjob.seq.bf hc), two_pow_bit, if_pos hp]
    · rw [htw, pow_succ, Nat.mul_div_cancel _ Nat.two_pos]
      exact twIdx_lt hp c
  · intro p hp c hc
    exact (pass_of_job h hp hc).seq.vld 3 (by omega)
  · intro p hp c hc up
    rw [hwritten p hp c hc up, hissued p (by unfold FftJob.total; omega) c hc up]
  · intro p hp
    refine ((brev_bijOn j.n).comp (elem_bijOn (j.bit_lt p))).congr fun x hx => ?_
    exact (hwritten p hp x.1 hx x.2).symm

/-- CONF is stored in cycle 0 and CTRL in cycle 1. -/
def sizedStart (n t : Nat) : RegAccess (BitVec 11) Unit :=
  ⟨if t = 0 then some ⟨REG_CONF.setWidth 11, BitVec.ofNat 32 n, 0xF⟩ else if t = 1 then some (ctrlStore 1)
    else none, none, ()⟩

/-- Every size can be started. -/
private theorem launches_sizedStart (hm : m < 10) (h : s.IsReset) {n : Nat} (h2 : 2 ≤ n) (hle : n ≤ m + 1) :
    (run rom s (sizedStart n) 1).startPulse (sizedStart n 1) = true ∧
      (run rom s (sizedStart n) 1).regs.log2nQ.toNat = n := by
  have hb : s.busy = false := by
    unfold busy
    rw [h.seq]
    rfl
  have hctrl : wrTo0 (sizedStart n 1) REG_CTRL = some (ctrlStore 1) := by
    simp [wrTo0, wrTo, csrWr, sizedStart, ctrlStore, REG_CTRL]
  have hconf : wrTo0 (sizedStart n 0) REG_CONF = some ⟨REG_CONF.setWidth 11, BitVec.ofNat 32 n, 0xF⟩ := by
    simp [wrTo0, wrTo, csrWr, sizedStart, REG_CONF]
  have hnone : wrTo0 (sizedStart n 0) REG_CTRL = none := by
    simp [wrTo0, wrTo, csrWr, sizedStart, REG_CONF, REG_CTRL]
  have hno : s.startPulse (sizedStart n 0) = false := by
    unfold startPulse
    rw [hnone]
    rfl
  have hidle : (run rom s (sizedStart n) 1).busy = false := by
    have hstate : (s.seqNext (sizedStart n 0)).stateQ = .idle := by
      unfold seqNext
      rw [h.seq]
      simp only [hno, Bool.false_eq_true, if_false]
    change ((s.seqNext (sizedStart n 0)).stateQ != .idle) = false
    rw [hstate]
    rfl
  constructor
  · unfold startPulse
    rw [hctrl, hidle]
    rfl
  · have hlow : (BitVec.ofNat 32 n).setWidth 4 = BitVec.ofNat 4 n := BitVec.setWidth_ofNat_of_le (by omega) n
    have hself : (BitVec.ofNat 4 n).toNat = n := by
      rw [BitVec.toNat_ofNat]
      exact Nat.mod_eq_of_lt (by omega)
    have hlog : (run rom s (sizedStart n) 1).regs.log2nQ = clamp m ((BitVec.ofNat 32 n).setWidth 4) := by
      change (if s.busy then s.regs.log2nQ else ((wrTo0 (sizedStart n 0) REG_CONF).map _).getD s.regs.log2nQ) = _
      rw [hb, hconf]
      rfl
    rw [hlog, hlow, clamp_eq hm (by rw [hself]; exact h2) (by rw [hself]; exact hle), hself]

/-- The addresses of every transform of every run: of each size the memories allow, and in every cycle. -/
theorem address_generation (h1 : 1 ≤ m) (hm : m < 10) (h : s.IsReset) :
    (∀ n, 2 ≤ n → n ≤ m + 1 → ∃ is t, (run rom s is t).startPulse (is t) = true ∧
        (run rom s is t).regs.log2nQ.toNat = n) ∧
      ∀ is, (∀ t, (run rom s is t).startPulse (is t) = true →
          (2 ≤ (run rom s is t).regs.log2nQ.toNat ∧ (run rom s is t).regs.log2nQ.toNat ≤ m + 1) ∧
            Addresses rom s is t (run rom s is t).regs.log2nQ.toNat) ∧
        ∀ t, Separate (run rom s is t) (is t) := by
  refine ⟨fun n h2 hle => ⟨sizedStart n, 1, launches_sizedStart hm h h2 hle⟩, fun is => ⟨fun t hstart => ?_, ?_⟩⟩
  · obtain ⟨hrest, hjob⟩ := job_of_start h1 hm h hstart
    exact ⟨⟨hrest.two_le, hrest.le_max⟩, addresses_of_job hjob⟩
  · exact fun t => separate _ _

/-- Out of reset the memories hold 1024 points. -/
theorem address_generation_reset :
    Addresses (fun _ => 0) (outOfReset 9) (oneStore 1) 0 10 :=
  ((address_generation (by decide) (by decide) ⟨rfl, rfl⟩).2 (oneStore 1)).1 0 (launches_oneStore rfl).2 |>.2

end Transform

end Fft

end Yarv
