import Yarv.Periph.FftRun

/-!
# The sample store of the FFT

`PingPong` is what software may take the FFT for: two buffers that change hands at START and SWAP, a transform that is
in the other buffer when the engine is at rest again, and a countdown until then.  The device refines it under all
accesses.
-/

namespace Yarv

open Clocked Radix2

/-- The sample store: the buffer of the CPU, and what the other one holds once the engine is at rest. -/
structure PingPong (m : Nat) where
  cpu : BitVec (m + 1) → Word
  other : BitVec (m + 1) → Word
  /-- The cycles until the engine is at rest. -/
  left : Nat
  regs : FftRegs m
  done : Bool

namespace PingPong

open Fft

variable {m : Nat} (tab : Nat → C16) (s : PingPong m) (i : RegAccess (BitVec 11) Unit)

/-- The transform of a buffer: of its first `2 ^ LOG2N` samples, the others staying. -/
def transformed (r : FftRegs m) (x : BitVec (m + 1) → Word) (a : BitVec (m + 1)) : Word :=
  if a.toNat < 2 ^ r.log2nQ.toNat then
    FftTb.pack (FftTb.modelFft (2 ^ (m + 1)) r.log2nQ.toNat (r.scaleQ.setWidth 32) r.inverseQ tab
      (fun k => FftTb.unpack (x (BitVec.ofNat (m + 1) k))) a.toNat)
  else x a

/-- The cycles of a transform of `2 ^ n` samples. -/
def cycles (n : Nat) : Nat := (n + n % 2) * (2 ^ (n - 1) + 5)

/-- A store of the CPU replaces the halfwords it strobes. -/
def stored (x : BitVec (m + 1) → Word) : BitVec (m + 1) → Word :=
  match dataWr i with
  | some w => Function.update x (w.addr.setWidth (m + 1))
      (FftDpram.mergeHalves (x (w.addr.setWidth (m + 1))) w.data w.strb)
  | none => x

def atRest : Bool := s.left == 0

/-- A START that is taken. -/
def start : Bool := s.atRest && (wrTo0 i REG_CTRL).any fun w => w.data.getLsbD 0

/-- A SWAP that is taken. -/
def swap : Bool := s.atRest && (wrTo0 i REG_CTRL).any fun w => w.data.getLsbD 3 && !w.data.getLsbD 0

/-- CTRL is written at any time, CONF and SCALE at rest. -/
def regsNext : FftRegs m where
  irqEnQ := ((wrTo0 i REG_CTRL).map fun w => w.data.getLsbD 1).getD s.regs.irqEnQ
  inverseQ := ((wrTo0 i REG_CTRL).map fun w => w.data.getLsbD 2).getD s.regs.inverseQ
  log2nQ :=
    if s.atRest then ((wrTo0 i REG_CONF).map fun w => clamp m (w.data.setWidth 4)).getD s.regs.log2nQ
      else s.regs.log2nQ
  scaleQ :=
    if s.atRest then ((wrTo i REG_SCALE).map fun w => mergeWr s.regs.scaleQ w.data w.strb).getD s.regs.scaleQ
    else s.regs.scaleQ

/-- One cycle. -/
def next : PingPong m where
  cpu := if s.start i || s.swap i then s.other else stored i s.cpu
  other := if s.start i then transformed tab s.regs s.cpu else if s.swap i then s.cpu else s.other
  left := if s.start i then cycles s.regs.log2nQ.toNat else s.left - 1
  regs := s.regsNext i
  done := if s.start i then false else s.left == 1 || (s.done && !w1cIrq i)

/-! ### Its runs -/

section Run

variable {tab s i} {is : Nat → RegAccess (BitVec 11) Unit} {t u : Nat}

/-- The transform waits in the other buffer until the buffers change hands. -/
theorem other_of_start (hstart : (trace (next tab) s is t).start (is t) = true) (htu : t < u)
    (hno : ∀ v, t < v → v < u →
      (trace (next tab) s is v).start (is v) = false ∧ (trace (next tab) s is v).swap (is v) = false) :
    (trace (next tab) s is u).other =
      transformed tab (trace (next tab) s is t).regs (trace (next tab) s is t).cpu := by
  induction u, htu using Nat.le_induction with
  | base =>
    rw [trace_succ]
    exact if_pos hstart
  | succ u htu ih =>
    obtain ⟨hs, hw⟩ := hno u htu (Nat.lt_succ_self u)
    have hkeep : (trace (next tab) s is (u + 1)).other = (trace (next tab) s is u).other := by
      rw [trace_succ]
      change (if (trace (next tab) s is u).start (is u) then _
        else if (trace (next tab) s is u).swap (is u) then _ else _) = _
      rw [hs, hw, if_neg Bool.false_ne_true, if_neg Bool.false_ne_true]
    rw [hkeep]
    exact ih fun v h1 h2 => hno v h1 (Nat.lt_succ_of_lt h2)

/-- Then the CPU has it. -/
theorem cpu_of_exchange (h : (s.start i || s.swap i) = true) : (next tab s i).cpu = s.other := if_pos h

/-- Until then the CPU's buffer changes by the stores of the CPU only. -/
theorem cpu_of_not_exchange (h : (s.start i || s.swap i) = false) : (next tab s i).cpu = stored i s.cpu := by
  change (if s.start i || s.swap i then s.other else stored i s.cpu) = _
  rw [h, if_neg Bool.false_ne_true]

end Run

end PingPong

namespace Fft

variable {m : Nat} {rom : BitVec m → Word} {q : Fft m} {i : RegAccess (BitVec 11) Unit} {j : FftJob m} {own : Bool}
  {s c : Nat} {frame : Nat → C16}

/-! ### The buffers change hands -/

/-- While no buffer changes hands, the CPU's is clocked with the CPU's port. -/
theorem cpuBuf_next (hown : (Fft.next rom q i).seq.cpuBufQ = q.seq.cpuBufQ) :
    (Fft.next rom q i).cpuBuf = q.cpuBuf.next (cpuA i) .off := by
  have hbuf : (Fft.next rom q i).buf0IsEng = q.buf0IsEng := hown
  unfold cpuBuf
  rw [hbuf]
  cases hb : q.buf0IsEng with
  | true =>
    change (if q.buf0IsEng then q.buf1.next (cpuA i) .off else q.buf1.next q.ebufA q.ebufB) = _
    rw [hb]
    rfl
  | false =>
    change (if q.buf0IsEng then q.buf0.next q.ebufA q.ebufB else q.buf0.next (cpuA i) .off) = _
    rw [hb]
    rfl

/-- Where they do, each goes on as the other's. -/
private theorem bufs_flip (hown : (Fft.next rom q i).seq.cpuBufQ = !q.seq.cpuBufQ) :
    (Fft.next rom q i).cpuBuf = q.engBuf.next q.ebufA q.ebufB ∧
      (Fft.next rom q i).engBuf = q.cpuBuf.next (cpuA i) .off := by
  unfold cpuBuf engBuf buf0IsEng
  rw [hown]
  cases hb : q.seq.cpuBufQ with
  | true =>
    change (if q.seq.cpuBufQ then q.buf0.next q.ebufA q.ebufB else q.buf0.next (cpuA i) .off) = _ ∧
      (if q.seq.cpuBufQ then q.buf1.next (cpuA i) .off else q.buf1.next q.ebufA q.ebufB) = _
    rw [hb]
    exact ⟨rfl, rfl⟩
  | false =>
    change (if q.seq.cpuBufQ then q.buf1.next (cpuA i) .off else q.buf1.next q.ebufA q.ebufB) = _ ∧
      (if q.seq.cpuBufQ then q.buf0.next q.ebufA q.ebufB else q.buf0.next (cpuA i) .off) = _
    rw [hb]
    exact ⟨rfl, rfl⟩

/-- The words behind the port of the CPU. -/
private theorem mem_cpuA (x : FftDpram (m + 1)) : (x.next (cpuA i) .off).mem = PingPong.stored i x.mem := by
  rw [FftDpram.mem_next, FftDpram.putWord_off]
  unfold cpuA PingPong.stored FftDpram.putWord
  cases dataWr i with
  | some w => rfl
  | none =>
    cases dataRd i with
    | some a => rfl
    | none => rfl

private theorem stored_none (h : dataWr i = none) (x : BitVec (m + 1) → Word) : PingPong.stored i x = x := by
  unfold PingPong.stored
  rw [h]

/-- The engine drives no port at rest. -/
private theorem AtRest.engBuf_mem (h : AtRest q) : (q.engBuf.next q.ebufA q.ebufB).mem = q.engBuf.mem := by
  have hport : ∀ src a wa w, q.port src a wa w = .off := by
    intro src a wa w
    have hfire : q.wrFire = false := by
      unfold wrFire
      rw [h.vld]
      rfl
    have hissue : q.issue = false := by
      unfold issue
      rw [h.state]
      rfl
    unfold port
    rw [hfire, hissue]
    rfl
  unfold ebufA ebufB
  rw [hport, hport, FftDpram.mem_next, FftDpram.putWord_off, FftDpram.putWord_off]

/-- A transform leaves the samples beyond its own alone. -/
private theorem JobAt.engBuf_mem (h : JobAt rom j own frame s c q) {k : BitVec (m + 1)} (hk : 2 ^ j.n ≤ k.toNat) :
    (q.engBuf.next q.ebufA q.ebufB).mem k = q.engBuf.mem k := by
  rw [FftDpram.mem_next]
  unfold ebufA ebufB
  cases hsrc : q.srcIsScr with
  | false => rw [Bool.not_false, src_putWord]
  | true =>
    rw [Bool.not_true, dst_putWord]
    cases hfire : q.wrFire with
    | false => rw [if_neg Bool.false_ne_true]
    | true =>
      have hvld : q.wrFire = decide (3 + 1 ≤ c ∧ c < j.half + (3 + 1)) := h.seq.vld 3 (by omega)
      rw [hfire] at hvld
      obtain ⟨h4, hlt⟩ := of_decide_eq_true hvld.symm
      obtain ⟨x, d, -, hpass⟩ := h.pass
      have ht : c - 4 < j.half := by omega
      have hslot := hpass.slot4 (c - 4) ht (by omega)
      have haddrs : (j.slot4 rom x s (c - 4)).wa = j.wrAddr s (lo (2 ^ j.bit s) (c - 4)) ∧
          (j.slot4 rom x s (c - 4)).wb = j.wrAddr s (hi (2 ^ j.bit s) (c - 4)) := FftJob.slot4_addr x ht
      have hne : ∀ i < 2 ^ j.n, k ≠ j.wrAddr s i := by
        intro i hi he
        have hlt := FftJob.wrAddr_lt (j := j) s hi
        rw [← he] at hlt
        omega
      rw [if_pos rfl, hslot, haddrs.1, haddrs.2, Function.update_of_ne (hne _ (hi_lt (j.bit_lt s) ht)),
        Function.update_of_ne (hne _ (lo_lt (j.bit_lt s) ht))]

/-! ### Who has which buffer -/

/-- The buffers change hands at an accepted START or SWAP, and at no other time. -/
theorem cpuBufQ_next (q : Fft m) (i : RegAccess (BitVec 11) Unit) :
    (Fft.next rom q i).seq.cpuBufQ = (q.seq.cpuBufQ ^^ (q.startPulse i || q.swapPulse i)) := by
  have hbusy : q.seq.stateQ ≠ .idle → (q.startPulse i || q.swapPulse i) = false := by
    intro hst
    have hb : q.busy = true := bne_iff_ne.mpr hst
    rw [startPulse, swapPulse, hb, Bool.not_true, Bool.and_false, Bool.and_false, Bool.or_false]
  change (q.seqNext i).cpuBufQ = _
  unfold seqNext
  cases hst : q.seq.stateQ with
  | idle =>
    cases q.startPulse i with
    | true => simp only [hst, if_true, Bool.true_or, Bool.xor_true]
    | false => simp only [hst, if_false, Bool.false_eq_true, Bool.false_or]
  | run =>
    rw [hbusy (by rw [hst]; exact FftState.noConfusion)]
    simp only [hst, Bool.xor_false]
  | drain =>
    rw [hbusy (by rw [hst]; exact FftState.noConfusion)]
    by_cases hv : q.seq.vldQ = 0
    · by_cases hf : q.isFinalStage = true
      · simp only [hst, hv, hf, if_true, Bool.xor_false]
      · simp only [hst, hv, hf, if_true, if_false, Bool.false_eq_true, Bool.xor_false]
    · simp only [hst, hv, if_false, Bool.xor_false]

/-- One buffer is clocked with the port of the CPU, the other with those of the engine, and they change places at an
accepted START or SWAP. -/
structure Owned (rom : BitVec m → Word) (q : Fft m) (i : RegAccess (BitVec 11) Unit) : Prop where
  low : q.seq.cpuBufQ = false →
    (Fft.next rom q i).buf0 = q.buf0.next (cpuA i) .off ∧ (Fft.next rom q i).buf1 = q.buf1.next q.ebufA q.ebufB
  high : q.seq.cpuBufQ = true →
    (Fft.next rom q i).buf1 = q.buf1.next (cpuA i) .off ∧ (Fft.next rom q i).buf0 = q.buf0.next q.ebufA q.ebufB
  exchange : (Fft.next rom q i).seq.cpuBufQ = (q.seq.cpuBufQ ^^ (q.startPulse i || q.swapPulse i))

theorem owned (q : Fft m) (i : RegAccess (BitVec 11) Unit) : Owned rom q i := by
  refine ⟨fun hq => ?_, fun hq => ?_, cpuBufQ_next q i⟩
  · have hb : q.buf0IsEng = false := hq
    unfold Fft.next
    rw [hb]
    exact ⟨rfl, rfl⟩
  · have hb : q.buf0IsEng = true := hq
    unfold Fft.next
    rw [hb]
    exact ⟨rfl, rfl⟩

/-! ### A busy device -/

/-- What is left of a write on a busy device: CONF and SCALE go, and so do START and SWAP. -/
def quietWr (w : RegWrite (BitVec 11)) : Option (RegWrite (BitVec 11)) :=
  if w.addr.getLsbD 10 then some w
  else if w.addr.setWidth 3 == REG_CTRL then some { w with data := w.data &&& 0xFFFFFFF6#32 }
  else if w.addr.setWidth 3 == REG_CONF || w.addr.setWidth 3 == REG_SCALE then none
  else some w

def quiet (i : RegAccess (BitVec 11) Unit) : RegAccess (BitVec 11) Unit := { i with wr := i.wr.bind quietWr }

private theorem wrTo0_eq (i : RegAccess (BitVec 11) Unit) (r : BitVec 3) : wrTo0 i r =
    i.wr.filter fun w => !w.addr.getLsbD 10 && w.addr.setWidth 3 == r && w.strb.getLsbD 0 := by
  unfold wrTo0 wrTo csrWr
  rw [Option.filter_filter, Option.filter_filter]
  simp only [Bool.and_assoc]

private theorem dataWr_quiet (i : RegAccess (BitVec 11) Unit) : dataWr (quiet i) = dataWr i := by
  unfold dataWr quiet
  dsimp only
  cases i.wr with
  | none => rfl
  | some w =>
    rw [Option.bind_some, Option.filter_some]
    unfold quietWr
    cases hp : w.addr.getLsbD 10 with
    | true =>
      rw [if_pos rfl, Option.filter_some, hp]
    | false =>
      rw [if_neg Bool.false_ne_true, if_neg Bool.false_ne_true]
      split
      · rw [Option.filter_some, hp, if_neg Bool.false_ne_true]
      · split
        · rfl
        · rw [Option.filter_some, hp, if_neg Bool.false_ne_true]

private theorem wrTo0_quiet_ctrl (i : RegAccess (BitVec 11) Unit) : wrTo0 (quiet i) REG_CTRL =
    (wrTo0 i REG_CTRL).map fun w => { w with data := w.data &&& 0xFFFFFFF6#32 } := by
  rw [wrTo0_eq, wrTo0_eq]
  unfold quiet
  dsimp only
  cases i.wr with
  | none => rfl
  | some w =>
    rw [Option.bind_some, Option.filter_some]
    unfold quietWr
    cases hp : w.addr.getLsbD 10 with
    | true =>
      rw [if_pos rfl, Option.filter_some, hp]
      rfl
    | false =>
      rw [if_neg Bool.false_ne_true]
      cases hc : w.addr.setWidth 3 == REG_CTRL with
      | true =>
        rw [if_pos rfl, Option.filter_some]
        dsimp only
        rw [hp, hc]
        cases w.strb.getLsbD 0 with
        | true => rfl
        | false => rfl
      | false =>
        rw [if_neg Bool.false_ne_true, Bool.and_false, Bool.false_and, if_neg Bool.false_ne_true]
        split
        · rfl
        · rw [Option.filter_some, hc, Bool.and_false, Bool.false_and, if_neg Bool.false_ne_true]
          rfl

private theorem wrTo0_quiet_irq (i : RegAccess (BitVec 11) Unit) : wrTo0 (quiet i) REG_IRQ = wrTo0 i REG_IRQ := by
  rw [wrTo0_eq, wrTo0_eq]
  unfold quiet
  dsimp only
  cases i.wr with
  | none => rfl
  | some w =>
    rw [Option.bind_some, Option.filter_some]
    unfold quietWr
    cases hp : w.addr.getLsbD 10 with
    | true =>
      rw [if_pos rfl, Option.filter_some, hp]
    | false =>
      rw [if_neg Bool.false_ne_true]
      split
      · rename_i hc
        rw [Option.filter_some]
        dsimp only
        rw [beq_iff_eq.mp hc, hp]
        rfl
      · split
        · rename_i hc
          rw [Bool.or_eq_true, beq_iff_eq, beq_iff_eq] at hc
          rcases hc with hc | hc
          · rw [hc]
            rfl
          · rw [hc]
            rfl
        · rw [Option.filter_some, hp]

/-- A busy device does not tell a write from what is left of it. -/
theorem next_quiet (h : q.busy = true) (i : RegAccess (BitVec 11) Unit) :
    Fft.next rom q (quiet i) = Fft.next rom q i := by
  have hstart : ∀ i, q.startPulse i = false := by
    intro i
    rw [startPulse, h, Bool.not_true, Bool.and_false]
  have hswap : ∀ i, q.swapPulse i = false := by
    intro i
    rw [swapPulse, h, Bool.not_true, Bool.and_false]
  have hctrl : ∀ k : Nat, (k = 1 ∨ k = 2) → ∀ d : Bool,
      ((wrTo0 (quiet i) REG_CTRL).map fun w => w.data.getLsbD k).getD d =
        ((wrTo0 i REG_CTRL).map fun w => w.data.getLsbD k).getD d := by
    intro k hk d
    rw [wrTo0_quiet_ctrl, Option.map_map]
    have hbit : ((fun w : RegWrite (BitVec 11) => w.data.getLsbD k) ∘
        fun w : RegWrite (BitVec 11) => { w with data := w.data &&& 0xFFFFFFF6#32 }) = fun w => w.data.getLsbD k := by
      funext w
      change (w.data &&& 0xFFFFFFF6#32).getLsbD k = _
      rcases hk with rfl | rfl
      · rw [BitVec.getLsbD_and]
        exact Bool.and_true _
      · rw [BitVec.getLsbD_and]
        exact Bool.and_true _
    rw [hbit]
  have hregs : q.regsNext (quiet i) = q.regsNext i := by
    unfold regsNext
    rw [hctrl 1 (Or.inl rfl), hctrl 2 (Or.inr rfl), h]
    rfl
  have hdone : q.doneD (quiet i) = q.doneD i := by
    unfold doneD w1cIrq
    rw [wrTo0_quiet_irq]
  have hseq : q.seqNext (quiet i) = q.seqNext i := by
    unfold seqNext
    rw [hstart, hstart, hswap, hswap, hdone]
  have hcpu : cpuA (m := m) (quiet i) = cpuA i := by
    unfold cpuA
    rw [dataWr_quiet]
    rfl
  unfold Fft.next
  rw [hregs, hseq, hcpu]

end Fft

namespace FftJob

variable {m : Nat} (j : FftJob m) (rom : BitVec m → Word)

/-- What the transform of `x` leaves in its buffer. -/
def result (x : BitVec (m + 1) → Word) : BitVec (m + 1) → Word :=
  PingPong.transformed (tab rom) ⟨false, j.inverse, BitVec.ofNat 4 j.n, j.scale⟩ x

variable {j rom}

private theorem result_eq (x : BitVec (m + 1) → Word) (a : BitVec (m + 1)) : j.result rom x a =
    if a.toNat < 2 ^ j.n then
      FftTb.pack (FftTb.dif (2 ^ (m + 1)) j.n (j.scale.setWidth 32) j.inverse (tab rom)
        (fun k => FftTb.unpack (x (BitVec.ofNat (m + 1) k))) a.toNat)
    else x a := by
  have hn : (BitVec.ofNat 4 j.n).toNat = j.n := by
    have h1 := j.le_max
    have h2 := j.small
    rw [BitVec.toNat_ofNat, Nat.mod_eq_of_lt (by omega)]
  unfold result PingPong.transformed
  dsimp only
  rw [hn]
  by_cases ha : a.toNat < 2 ^ j.n
  · rw [if_pos ha, if_pos ha, FftTb.modelFft_eq (lt_of_lt_of_le Nat.two_pos j.two_le) _ ha]
  · rw [if_neg ha, if_neg ha]

end FftJob

namespace PingPong

open Fft

variable {m : Nat} {rom : BitVec m → Word} {q : Fft m} {a : PingPong m} {i : RegAccess (BitVec 11) Unit}

/-- Cycle `k` of the transform of `x`. -/
structure Running (rom : BitVec m → Word) (j : FftJob m) (x : BitVec (m + 1) → Word) (k : Nat)
    (q : Fft m) : Prop where
  job : ∃ s c, k = s * (j.half + 5) + c ∧
    JobAt rom j q.seq.cpuBufQ (fun k => FftTb.unpack (x (BitVec.ofNat (m + 1) k))) s c q
  beyond : ∀ b : BitVec (m + 1), 2 ^ j.n ≤ b.toNat → q.engBuf.mem b = x b

/-- The engine at rest, with the other buffer in its hands, or in a transform that leaves it there. -/
inductive Engine (rom : BitVec m → Word) (q : Fft m) (a : PingPong m) : Prop
  | rest (h : AtRest q) (left : a.left = 0) (mem : q.engBuf.mem = a.other)
  | run (j : FftJob m) (x : BitVec (m + 1) → Word) (k : Nat) (h : Running rom j x k q) (left : k + a.left = j.cycles)
      (pos : 0 < a.left) (mem : a.other = j.result rom x)

/-- The device shows the sample store. -/
structure Shows (rom : BitVec m → Word) (q : Fft m) (a : PingPong m) : Prop where
  regs : q.regs = a.regs
  done : q.seq.doneQ = a.done
  cpu : q.cpuBuf.mem = a.cpu
  engine : Engine rom q a

private theorem Shows.busy (h : Shows rom q a) : q.busy = !a.atRest := by
  unfold atRest
  cases h.engine with
  | rest hrest left mem =>
    unfold Fft.busy
    rw [hrest.state, left]
    rfl
  | run j x k hrun left pos mem =>
    obtain ⟨s, c, -, hjob⟩ := hrun.job
    rw [hjob.seq.busy, beq_eq_false_iff_ne.mpr (Nat.ne_of_gt pos)]
    rfl

theorem Shows.start (h : Shows rom q a) (i : RegAccess (BitVec 11) Unit) : a.start i = q.startPulse i := by
  rw [PingPong.start, Fft.startPulse, h.busy, Bool.not_not, Bool.and_comm]

theorem Shows.swap (h : Shows rom q a) (i : RegAccess (BitVec 11) Unit) : a.swap i = q.swapPulse i := by
  rw [PingPong.swap, Fft.swapPulse, h.busy, Bool.not_not, Bool.and_comm]

private theorem Shows.regs_next (h : Shows rom q a) (i : RegAccess (BitVec 11) Unit) :
    (Fft.next rom q i).regs = a.regsNext i := by
  change q.regsNext i = _
  unfold Fft.regsNext PingPong.regsNext
  rw [h.busy, h.regs]
  cases a.atRest with
  | true => rfl
  | false => rfl

/-- What software can tell of the device is what it can tell of the store. -/
structure Seen (q : Fft m) (a : PingPong m) : Prop where
  regs : q.regs = a.regs
  done : q.seq.doneQ = a.done
  busy : q.busy = !a.atRest
  cpu : q.cpuBuf.mem = a.cpu
  other : q.busy = false → q.engBuf.mem = a.other

theorem Shows.seen (h : Shows rom q a) : Seen q a := by
  refine ⟨h.regs, h.done, h.busy, h.cpu, fun hidle => ?_⟩
  cases h.engine with
  | rest hrest left mem => exact mem
  | run j x k hrun left pos mem =>
    obtain ⟨s, c, -, hjob⟩ := hrun.job
    have hbusy := hjob.seq.busy
    rw [hidle] at hbusy
    cases hbusy

/-- A control write stores no sample. -/
private theorem dataWr_of_ctrl (h : (wrTo0 i REG_CTRL).isSome = true) : dataWr i = none := by
  obtain ⟨w, hw⟩ := Option.isSome_iff_exists.mp h
  unfold wrTo0 wrTo csrWr at hw
  rw [Option.filter_eq_some_iff, Option.filter_eq_some_iff, Option.filter_eq_some_iff] at hw
  obtain ⟨⟨⟨hwr, hpage⟩, -⟩, -⟩ := hw
  rw [Bool.not_eq_true'] at hpage
  unfold dataWr
  rw [hwr, Option.filter_some, hpage]
  rfl

private theorem dataWr_of_swap (h : q.swapPulse i = true) : dataWr i = none := by
  apply dataWr_of_ctrl
  unfold swapPulse at h
  rw [Bool.and_eq_true] at h
  cases hw : wrTo0 i REG_CTRL with
  | none =>
    rw [hw] at h
    cases h.1
  | some w => rfl

/-! ### One cycle -/

/-- At rest, without a START. -/
private theorem Shows.rest_next (h1 : 1 ≤ m) (hm : m < 10) (h : Shows rom q a) (hrest : AtRest q) (hleft : a.left = 0)
    (hmem : q.engBuf.mem = a.other) (hstart : q.startPulse i = false) :
    Shows rom (Fft.next rom q i) (a.next (FftJob.tab rom) i) := by
  have hidle : AtRest (Fft.next rom q i) ∧ (Fft.next rom q i).seq.doneQ = q.doneD i ∧
      (Fft.next rom q i).seq.cpuBufQ = (q.seq.cpuBufQ ^^ q.swapPulse i) := hrest.next h1 hm hstart
  obtain ⟨hnext, hdone, hown⟩ := hidle
  have ha : a.start i = false := (h.start i).trans hstart
  have hleft' : (a.next (FftJob.tab rom) i).left = 0 := by
    change (if a.start i then _ else a.left - 1) = 0
    rw [ha, if_neg Bool.false_ne_true, hleft]
  have hdone' : (a.next (FftJob.tab rom) i).done = (a.done && !w1cIrq i) := by
    change (if a.start i then false else a.left == 1 || _) = _
    rw [ha, if_neg Bool.false_ne_true, hleft]
    rfl
  have hcpu : (a.next (FftJob.tab rom) i).cpu = if q.swapPulse i then a.other else stored i a.cpu := by
    change (if a.start i || a.swap i then a.other else stored i a.cpu) = _
    rw [ha, h.swap, Bool.false_or]
  have hother : (a.next (FftJob.tab rom) i).other = if q.swapPulse i then a.cpu else a.other := by
    change (if a.start i then _ else if a.swap i then a.cpu else a.other) = _
    rw [ha, if_neg Bool.false_ne_true, h.swap]
  have hq : (Fft.next rom q i).seq.doneQ = (a.next (FftJob.tab rom) i).done := by
    rw [hdone, hdone', doneD, h.done]
  cases hswap : q.swapPulse i with
  | false =>
    rw [hswap] at hcpu hother hown
    rw [if_neg Bool.false_ne_true] at hcpu hother
    rw [Bool.xor_false] at hown
    refine ⟨h.regs_next i, hq, ?_, .rest hnext hleft' ?_⟩
    · rw [hcpu, cpuBuf_next hown, mem_cpuA, h.cpu]
    · rw [hother, engBuf_next i hown, hrest.engBuf_mem, hmem]
  | true =>
    rw [hswap] at hcpu hother hown
    rw [if_pos rfl] at hcpu hother
    rw [Bool.xor_true] at hown
    obtain ⟨hc, he⟩ := bufs_flip hown
    refine ⟨h.regs_next i, hq, ?_, .rest hnext hleft' ?_⟩
    · rw [hcpu, hc, hrest.engBuf_mem, hmem]
    · rw [hother, he, mem_cpuA, stored_none (dataWr_of_swap hswap), h.cpu]

/-- A START that is taken. -/
private theorem Shows.start_next (hm : m < 10) (h : Shows rom q a) (hrest : AtRest q) (hmem : q.engBuf.mem = a.other)
    (hstart : q.startPulse i = true) : Shows rom (Fft.next rom q i) (a.next (FftJob.tab rom) i) := by
  have hjob : JobAt rom (hrest.job hm) (!q.seq.cpuBufQ) q.cpuFrame 0 0 (Fft.next rom q i) :=
    JobAt.start hm hrest hstart
  have hown : (Fft.next rom q i).seq.cpuBufQ = !q.seq.cpuBufQ := hjob.seq.own
  have ha : a.start i = true := (h.start i).trans hstart
  obtain ⟨hc, he⟩ := bufs_flip hown
  have hbuf : (Fft.next rom q i).engBuf.mem = q.cpuBuf.mem := by
    rw [he, mem_cpuA, stored_none (startPulse_wr hstart).1]
  refine ⟨h.regs_next i, ?_, ?_, .run (hrest.job hm) q.cpuBuf.mem 0 ⟨⟨0, 0, (Nat.zero_mul _).symm, ?_⟩, ?_⟩ ?_ ?_ ?_⟩
  · rw [hjob.seq.done]
    change false = if a.start i then false else _
    rw [ha, if_pos rfl]
  · rw [hc, hrest.engBuf_mem, hmem]
    change a.other = if a.start i || a.swap i then a.other else _
    rw [ha, Bool.true_or, if_pos rfl]
  · rw [hown]
    exact hjob
  · intro b _
    rw [hbuf]
  · change 0 + (if a.start i then cycles a.regs.log2nQ.toNat else a.left - 1) = _
    rw [ha, if_pos rfl, Nat.zero_add, ← h.regs]
    rfl
  · change 0 < if a.start i then cycles a.regs.log2nQ.toNat else a.left - 1
    rw [ha, if_pos rfl, cycles]
    have h2 := hrest.two_le
    rw [h.regs] at h2
    exact Nat.mul_pos (by omega) (Nat.add_pos_right _ (by decide))
  · change (if a.start i then transformed (FftJob.tab rom) a.regs a.cpu else _) = _
    have hself : BitVec.ofNat 4 q.regs.log2nQ.toNat = q.regs.log2nQ := by rw [BitVec.ofNat_toNat, BitVec.setWidth_eq]
    rw [ha, if_pos rfl, ← h.regs, ← h.cpu]
    unfold FftJob.result AtRest.job
    rw [hself]
    rfl

/-- A cycle of a transform. -/
private theorem Shows.run_next (h : Shows rom q a) {j : FftJob m} {x : BitVec (m + 1) → Word} {k : Nat}
    (hrun : Running rom j x k q) (hleft : k + a.left = j.cycles) (hpos : 0 < a.left)
    (hmem : a.other = j.result rom x) :
    Shows rom (Fft.next rom q i) (a.next (FftJob.tab rom) i) := by
  obtain ⟨⟨s, c, rfl, hjob⟩, hbeyond⟩ := hrun
  have hbusy : q.busy = true := hjob.seq.busy
  have hstart : q.startPulse i = false := by rw [startPulse, hbusy, Bool.not_true, Bool.and_false]
  have hswap : q.swapPulse i = false := by rw [swapPulse, hbusy, Bool.not_true, Bool.and_false]
  have ha : a.start i = false := (h.start i).trans hstart
  have hleft' : (a.next (FftJob.tab rom) i).left = a.left - 1 := by
    change (if a.start i then _ else a.left - 1) = _
    rw [ha, if_neg Bool.false_ne_true]
  have hdone' : (a.next (FftJob.tab rom) i).done = (a.left == 1 || (a.done && !w1cIrq i)) := by
    change (if a.start i then false else a.left == 1 || _) = _
    rw [ha, if_neg Bool.false_ne_true]
  have hcpu : (a.next (FftJob.tab rom) i).cpu = stored i a.cpu := by
    change (if a.start i || a.swap i then a.other else stored i a.cpu) = _
    rw [ha, h.swap, hswap, Bool.or_false, if_neg Bool.false_ne_true]
  have hother : (a.next (FftJob.tab rom) i).other = a.other := by
    change (if a.start i then _ else if a.swap i then a.cpu else a.other) = _
    rw [ha, if_neg Bool.false_ne_true, h.swap, hswap, if_neg Bool.false_ne_true]
  have hdoneq : a.done = false := by rw [← h.done, hjob.seq.done]
  have hbuf : ∀ hown : (Fft.next rom q i).seq.cpuBufQ = q.seq.cpuBufQ,
      (Fft.next rom q i).cpuBuf.mem = (a.next (FftJob.tab rom) i).cpu ∧
        ∀ b : BitVec (m + 1), 2 ^ j.n ≤ b.toNat → (Fft.next rom q i).engBuf.mem b = x b := by
    intro hown
    refine ⟨?_, fun b hb => ?_⟩
    · rw [hcpu, cpuBuf_next hown, mem_cpuA, h.cpu]
    · rw [engBuf_next i hown, hjob.engBuf_mem hb, hbeyond b hb]
  -- inside a transform: the same, one cycle on
  have hgo : ∀ {s' c' : Nat}, s' * (j.half + 5) + c' = s * (j.half + 5) + c + 1 → 2 ≤ a.left →
      JobAt rom j q.seq.cpuBufQ (fun k => FftTb.unpack (x (BitVec.ofNat (m + 1) k))) s' c' (Fft.next rom q i) →
        Shows rom (Fft.next rom q i) (a.next (FftJob.tab rom) i) := by
    intro s' c' hk h2 hnext
    have hown : (Fft.next rom q i).seq.cpuBufQ = q.seq.cpuBufQ := hnext.seq.own
    obtain ⟨hc, hb⟩ := hbuf hown
    refine ⟨h.regs_next i, ?_, hc, .run j x (s * (j.half + 5) + c + 1) ⟨⟨s', c', hk.symm, ?_⟩, hb⟩ ?_ ?_ ?_⟩
    · rw [hnext.seq.done, hdone', hdoneq, Bool.false_and, Bool.or_false, beq_eq_false_iff_ne.mpr (by omega)]
    · rw [hown]
      exact hnext
    · rw [hleft']
      omega
    · rw [hleft']
      omega
    · rw [hother, hmem]
  have htotal : (s + 1) * (j.half + 5) ≤ j.cycles := Nat.mul_le_mul_right _ hjob.lt
  rw [Nat.succ_mul] at htotal
  by_cases hc : c < j.half + 4
  · exact hgo rfl (by omega) (hjob.next hc i)
  · have hce : c = j.half + 4 := by
      have := hjob.le
      omega
    subst hce
    by_cases hs : s + 1 < j.total
    · have hlater : (s + 1 + 1) * (j.half + 5) ≤ j.cycles := Nat.mul_le_mul_right _ hs
      rw [Nat.succ_mul, Nat.succ_mul] at hlater
      exact hgo (by rw [Nat.succ_mul]; rfl) (by omega) (hjob.pass_next hs i)
    · have hse : s + 1 = j.total := by
        have := hjob.lt
        omega
      obtain ⟨hrest, hdone, hown, hres⟩ := hjob.finish hse i
      obtain ⟨hcb, hb⟩ := hbuf hown
      have hcycles : j.cycles = s * (j.half + 5) + (j.half + 5) := by
        unfold FftJob.cycles
        rw [← hse, Nat.succ_mul]
      have hone : a.left = 1 := by omega
      refine ⟨h.regs_next i, ?_, hcb, .rest hrest ?_ ?_⟩
      · rw [hdone, hdone', hone]
        rfl
      · rw [hleft', hone]
      · rw [hother, hmem]
        funext b
        rw [FftJob.result_eq]
        by_cases hbn : b.toNat < 2 ^ j.n
        · have hself : BitVec.ofNat (m + 1) b.toNat = b := by rw [BitVec.ofNat_toNat, BitVec.setWidth_eq]
          have hr := hres b.toNat hbn
          unfold engFrame at hr
          rw [hself] at hr
          rw [if_pos hbn, ← hr, pack_unpack]
        · rw [if_neg hbn, hb b (Nat.le_of_not_lt hbn)]

/-- The store that is empty of transforms, over the buffers of `q`. -/
def boot (q : Fft m) : PingPong m := ⟨q.cpuBuf.mem, q.engBuf.mem, 0, q.regs, false⟩

private theorem shows_boot (h1 : 1 ≤ m) (hm : m < 10) (h : q.IsReset) : Shows rom q (boot q) := by
  have hrest : AtRest q := by
    have hlive : Live rom q := live_of_reset h1 hm h
    refine hlive.resolve_right ?_
    rintro ⟨j, own, frame, s, c, hjob⟩
    have hbusy := hjob.seq.busy
    unfold Fft.busy at hbusy
    rw [h.seq] at hbusy
    cases hbusy
  exact ⟨rfl, by rw [h.seq]; rfl, rfl, .rest hrest rfl rfl⟩

/-- The device goes on showing the sample store. -/
private theorem Shows.next (h1 : 1 ≤ m) (hm : m < 10) (h : Shows rom q a) (i : RegAccess (BitVec 11) Unit) :
    Shows rom (Fft.next rom q i) (a.next (FftJob.tab rom) i) := by
  cases h.engine with
  | rest hrest left mem =>
    cases hs : q.startPulse i with
    | true => exact h.start_next hm hrest mem hs
    | false => exact h.rest_next h1 hm hrest left mem hs
  | run j x k hrun left pos mem => exact h.run_next hrun left pos mem

/-- In every run it shows the run of the store. -/
theorem shows_run (h1 : 1 ≤ m) (hm : m < 10) (h : q.IsReset) (is : Nat → RegAccess (BitVec 11) Unit) (t : Nat) :
    Shows rom (trace (Fft.next rom) q is t) (trace (PingPong.next (FftJob.tab rom)) (boot q) is t) := by
  induction t with
  | zero => exact shows_boot h1 hm h
  | succ t ih => exact ih.next h1 hm (is t)

end PingPong

end Yarv
