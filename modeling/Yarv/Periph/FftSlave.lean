import Yarv.Periph.FftAddr
import Yarv.Periph.PingPong

/-!
# `axi4_lite_fft` on its bus

The bus flops of the FFT and the device behind them.  A CSR read is sampled in the cycle its address is taken; a DATA
read comes from the output register of the buffer the CPU owned in that cycle.  Reads give way to a write that
commits.

A master with one transaction outstanding finds the word it has asked for, however long it waits.
-/

namespace Yarv

open Clocked

/-- The device with its bus flops. -/
structure FftSlave (m : Nat) where
  port : SlavePort (BitVec 11)
  rdIsDataQ : Bool
  rdBufQ : Bool
  core : Fft m

namespace FftSlave

variable {m : Nat} (rom : BitVec m → Word) (s : FftSlave m) (i : AxiM)

/-- `addr[12:2]`. -/
def sel (a : Word) : BitVec 11 := a.extractLsb' 2 11

def awHs : Bool := i.awvalid && (!s.port.awSeenQ && !s.port.bvalidQ)

def wHs : Bool := i.wvalid && (!s.port.wSeenQ && !s.port.bvalidQ)

def doWrite : Bool := (s.port.awSeenQ || s.awHs i) && (s.port.wSeenQ || s.wHs i) && !s.port.bvalidQ

def cpuRdData : Word := if s.rdBufQ then s.core.buf1.aRdata else s.core.buf0.aRdata

/-- What the slave drives. -/
def axi : AxiS where
  awready := !s.port.awSeenQ && !s.port.bvalidQ
  wready := !s.port.wSeenQ && !s.port.bvalidQ
  bresp := 0b00#2
  bvalid := s.port.bvalidQ
  arready := (!s.port.rvalidQ || i.rready) && !s.doWrite i
  rdata := if s.rdIsDataQ then s.cpuRdData else s.port.rdataQ
  rresp := 0b00#2
  rvalid := s.port.rvalidQ

def bHs : Bool := Axi.bHs i (s.axi i)

def arHs : Bool := Axi.arHs i (s.axi i)

def rHs : Bool := Axi.rHs i (s.axi i)

def waddrEff : BitVec 11 := if s.awHs i then sel i.awaddr else s.port.awaddrWordQ

def wdataEff : Word := if s.wHs i then i.wdata else s.port.wdataQ

def wstrbEff : BitVec 4 := if s.wHs i then i.wstrb else s.port.wstrbQ

/-- What the device sees. -/
def access : RegAccess (BitVec 11) Unit where
  wr := if s.doWrite i then some ⟨s.waddrEff i, s.wdataEff i, s.wstrbEff i⟩ else none
  rd := if s.arHs i then some (sel i.araddr) else none
  ext := ()

/-- One clock edge of the bus flops. -/
def portNext : SlavePort (BitVec 11) where
  awSeenQ := if s.doWrite i then false else s.port.awSeenQ || s.awHs i
  wSeenQ := if s.doWrite i then false else s.port.wSeenQ || s.wHs i
  awaddrWordQ := if s.awHs i then sel i.awaddr else s.port.awaddrWordQ
  wdataQ := if s.wHs i then i.wdata else s.port.wdataQ
  wstrbQ := if s.wHs i then i.wstrb else s.port.wstrbQ
  bvalidQ := if s.bHs i then false else s.port.bvalidQ || s.doWrite i
  rvalidQ := if s.arHs i then true else if s.port.rvalidQ && i.rready then false else s.port.rvalidQ
  rdataQ := if s.arHs i then s.core.regRead ((sel i.araddr).setWidth 3) else s.port.rdataQ

/-- One clock edge. -/
def next : FftSlave m where
  port := s.portNext i
  rdIsDataQ := if s.arHs i then (sel i.araddr).getLsbD 10 else s.rdIsDataQ
  rdBufQ := if s.arHs i then s.core.seq.cpuBufQ else s.rdBufQ
  core := s.core.next rom (s.access i)

/-- The flops at their reset values. -/
structure IsReset (s : FftSlave m) : Prop where
  port : s.port = ⟨false, false, 0, 0, 0, false, false, 0⟩
  rdIsData : s.rdIsDataQ = false
  rdBuf : s.rdBufQ = false
  core : s.core.IsReset

/-! ### One transaction outstanding -/

/-- The phases of a transaction that have been taken and not been answered. -/
structure Outstanding where
  aw : Bool
  w : Bool
  rd : Bool
  deriving DecidableEq, Repr

/-- What a cycle makes of them. -/
def Outstanding.next (o : Outstanding) (s : FftSlave m) (i : AxiM) : Outstanding where
  aw := if s.bHs i then false else o.aw || Axi.awHs i (s.axi i)
  w := if s.bHs i then false else o.w || Axi.wHs i (s.axi i)
  rd := s.arHs i || (o.rd && !s.rHs i)

/-- The master offers a transaction only if no other is outstanding or offered; one that ends in this cycle does not
count. -/
structure Single (o : Outstanding) (s : FftSlave m) (i : AxiM) : Prop where
  ar : i.arvalid = true →
    i.awvalid = false ∧ i.wvalid = false ∧ ((o.aw || o.w) = true → s.bHs i = true) ∧ (o.rd = true → s.rHs i = true)
  aw : i.awvalid = true → (o.rd = true → s.rHs i = true) ∧ (o.aw = true → s.bHs i = true)
  w : i.wvalid = true → (o.rd = true → s.rHs i = true) ∧ (o.w = true → s.bHs i = true)

variable {rom s i} {o : Outstanding} {v : Word}

/-- The bus flops hold what is outstanding, and a read is outstanding alone. -/
structure Tracks (o : Outstanding) (s : FftSlave m) : Prop where
  rd : o.rd = s.port.rvalidQ
  aw : o.aw = (s.port.awSeenQ || s.port.bvalidQ)
  w : o.w = (s.port.wSeenQ || s.port.bvalidQ)
  answered : s.port.bvalidQ = true → s.port.awSeenQ = false ∧ s.port.wSeenQ = false
  alone : o.rd = true → o.aw = false ∧ o.w = false

private theorem bHs_eq : s.bHs i = (s.port.bvalidQ && i.bready) := rfl

theorem rHs_eq : s.rHs i = (s.port.rvalidQ && i.rready) := rfl

/-- Nothing is taken from a write channel that is not offered. -/
theorem awHs_false (h : i.awvalid = false) : s.awHs i = false := by rw [awHs, h, Bool.false_and]

private theorem wHs_false (h : i.wvalid = false) : s.wHs i = false := by rw [wHs, h, Bool.false_and]

/-- A write phase that is outstanding stays so until its answer is taken. -/
private theorem phase_next {seen hs b wr bh x : Bool} (hx : x = (seen || b)) (hb : b = true → seen = false)
    (hhs : hs = true → b = false) (hwr : wr = true → b = false ∧ (seen || hs) = true) (hbh : bh = true → b = true) :
    (if bh then false else x || hs) = ((if wr then false else seen || hs) || if bh then false else b || wr) := by
  subst hx
  cases bh with
  | true =>
    have hbt := hbh rfl
    have hs0 := hb hbt
    have hh : hs = false := by
      cases hs with
      | false => rfl
      | true => exact absurd (hhs rfl) (by rw [hbt]; exact Bool.noConfusion)
    rw [hs0, hh]
    cases wr <;> rfl
  | false =>
    cases wr with
    | true =>
      obtain ⟨hbf, hor⟩ := hwr rfl
      rw [hbf, Bool.or_false]
      change (seen || hs) = _
      rw [hor]
      rfl
    | false =>
      cases seen <;> cases hs <;> cases b <;> rfl

private theorem doWrite_parts (h : s.doWrite i = true) :
    s.port.bvalidQ = false ∧ (s.port.awSeenQ || s.awHs i) = true ∧ (s.port.wSeenQ || s.wHs i) = true := by
  unfold doWrite at h
  rw [Bool.and_eq_true, Bool.and_eq_true, Bool.not_eq_true'] at h
  exact ⟨h.2, h.1.1, h.1.2⟩

private theorem awHs_parts (h : s.awHs i = true) : i.awvalid = true ∧ s.port.bvalidQ = false := by
  unfold awHs at h
  rw [Bool.and_eq_true, Bool.and_eq_true, Bool.not_eq_true', Bool.not_eq_true'] at h
  exact ⟨h.1, h.2.2⟩

private theorem wHs_parts (h : s.wHs i = true) : i.wvalid = true ∧ s.port.bvalidQ = false := by
  unfold wHs at h
  rw [Bool.and_eq_true, Bool.and_eq_true, Bool.not_eq_true', Bool.not_eq_true'] at h
  exact ⟨h.1, h.2.2⟩

private theorem arHs_parts (h : s.arHs i = true) : i.arvalid = true ∧ s.doWrite i = false := by
  unfold arHs Axi.arHs axi at h
  rw [Bool.and_eq_true, Bool.and_eq_true, Bool.not_eq_true'] at h
  exact ⟨h.1, h.2.2⟩

private theorem Tracks.next (h : Tracks o s) (hs : Single o s i) : Tracks (o.next s i) (s.next rom i) := by
  have hb : s.bHs i = true → s.port.bvalidQ = true := by
    intro hb
    rw [bHs_eq, Bool.and_eq_true] at hb
    exact hb.1
  refine ⟨?_, ?_, ?_, ?_, ?_⟩
  · change (s.arHs i || (o.rd && !s.rHs i)) =
      if s.arHs i then true else if s.port.rvalidQ && i.rready then false else s.port.rvalidQ
    rw [h.rd, rHs_eq]
    cases s.arHs i <;> cases s.port.rvalidQ <;> cases i.rready <;> rfl
  · exact phase_next h.aw (fun hv => (h.answered hv).1) (fun hh => (awHs_parts hh).2)
      (fun hw => ⟨(doWrite_parts hw).1, (doWrite_parts hw).2.1⟩) hb
  · exact phase_next h.w (fun hv => (h.answered hv).2) (fun hh => (wHs_parts hh).2)
      (fun hw => ⟨(doWrite_parts hw).1, (doWrite_parts hw).2.2⟩) hb
  · change (if s.bHs i then false else s.port.bvalidQ || s.doWrite i) = true →
      (if s.doWrite i then false else s.port.awSeenQ || s.awHs i) = false ∧
        (if s.doWrite i then false else s.port.wSeenQ || s.wHs i) = false
    intro hv
    cases hw : s.doWrite i with
    | true => exact ⟨rfl, rfl⟩
    | false =>
      have hbv : s.port.bvalidQ = true := by
        rw [hw, Bool.or_false] at hv
        cases hbh : s.bHs i with
        | true => exact hb hbh
        | false => rwa [hbh, if_neg Bool.false_ne_true] at hv
      obtain ⟨ha, hd⟩ := h.answered hbv
      have haw : s.awHs i = false := by rw [awHs, hbv, Bool.not_true, Bool.and_false, Bool.and_false]
      have hwh : s.wHs i = false := by rw [wHs, hbv, Bool.not_true, Bool.and_false, Bool.and_false]
      rw [if_neg Bool.false_ne_true, if_neg Bool.false_ne_true, ha, haw, hd, hwh]
      exact ⟨rfl, rfl⟩
  · change (s.arHs i || (o.rd && !s.rHs i)) = true →
      (if s.bHs i then false else o.aw || s.awHs i) = false ∧ (if s.bHs i then false else o.w || s.wHs i) = false
    intro hrd
    cases hbh : s.bHs i with
    | true => exact ⟨rfl, rfl⟩
    | false =>
      rw [if_neg Bool.false_ne_true, if_neg Bool.false_ne_true]
      cases har : s.arHs i with
      | true =>
        -- the read that is taken now is offered alone
        obtain ⟨haw, hwv, hout, -⟩ := hs.ar (arHs_parts har).1
        have hnone : (o.aw || o.w) = false := by
          cases ho : (o.aw || o.w) with
          | false => rfl
          | true =>
            rw [hout ho] at hbh
            cases hbh
        rw [Bool.or_eq_false_iff] at hnone
        rw [hnone.1, hnone.2, awHs_false haw, wHs_false hwv]
        exact ⟨rfl, rfl⟩
      | false =>
        -- the read that waits keeps the master from offering a write
        rw [har, Bool.false_or, Bool.and_eq_true, Bool.not_eq_true'] at hrd
        obtain ⟨ha, hd⟩ := h.alone hrd.1
        have haw : i.awvalid = false := by
          cases hv : i.awvalid with
          | false => rfl
          | true =>
            have := (hs.aw hv).1 hrd.1
            rw [hrd.2] at this
            cases this
        have hwv : i.wvalid = false := by
          cases hv : i.wvalid with
          | false => rfl
          | true =>
            have := (hs.w hv).1 hrd.1
            rw [hrd.2] at this
            cases this
        rw [ha, hd, awHs_false haw, wHs_false hwv]
        exact ⟨rfl, rfl⟩

/-! ### The answer to a read -/

/-- A DATA read is answered with `v`. -/
structure Answers (v : Word) (s : FftSlave m) : Prop where
  valid : s.port.rvalidQ = true
  isData : s.rdIsDataQ = true
  buf : s.rdBufQ = s.core.seq.cpuBufQ
  word : s.core.cpuBuf.aRdata = v

theorem Answers.axi (h : Answers v s) : (s.axi i).rvalid = true ∧ (s.axi i).rdata = v := by
  refine ⟨h.valid, ?_⟩
  change (if s.rdIsDataQ then s.cpuRdData else s.port.rdataQ) = v
  rw [h.isData, if_pos rfl, ← h.word]
  unfold cpuRdData Fft.cpuBuf Fft.buf0IsEng
  rw [h.buf]
  cases s.core.seq.cpuBufQ with
  | true => rfl
  | false => rfl

/-- Without a write no buffer changes hands. -/
private theorem cpuBufQ_keep {q : Fft m} {a : RegAccess (BitVec 11) Unit} (h : a.wr = none) :
    (Fft.next rom q a).seq.cpuBufQ = q.seq.cpuBufQ := by
  have hctrl : Fft.wrTo0 a Fft.REG_CTRL = none := by
    unfold Fft.wrTo0 Fft.wrTo Fft.csrWr
    rw [h]
    rfl
  rw [Fft.cpuBufQ_next, Fft.startPulse, Fft.swapPulse, hctrl]
  exact Bool.xor_false _

/-- The read that is taken is answered with the word the CPU sees. -/
theorem answers_of_arHs (har : s.arHs i = true) (hdata : (sel i.araddr).getLsbD 10 = true) :
    Answers (s.core.cpuBuf.mem ((sel i.araddr).setWidth (m + 1))) (s.next rom i) := by
  have hwr : (s.access i).wr = none := by
    unfold access
    rw [(arHs_parts har).2]
    rfl
  have hrd : (s.access i).rd = some (sel i.araddr) := by
    unfold access
    rw [har]
    rfl
  have hport : Fft.cpuA (m := m) (s.access i) = .read ((sel i.araddr).setWidth (m + 1)) := by
    have h1 : Fft.dataWr (s.access i) = none := by
      unfold Fft.dataWr
      rw [hwr]
      rfl
    have h2 : Fft.dataRd (s.access i) = some (sel i.araddr) := by
      unfold Fft.dataRd
      rw [hrd, Option.filter_some, if_pos hdata]
    unfold Fft.cpuA
    rw [h1, h2]
  have hown : (Fft.next rom s.core (s.access i)).seq.cpuBufQ = s.core.seq.cpuBufQ := cpuBufQ_keep hwr
  refine ⟨?_, ?_, ?_, ?_⟩
  · change (if s.arHs i then true else _) = true
    rw [har, if_pos rfl]
  · change (if s.arHs i then (sel i.araddr).getLsbD 10 else _) = true
    rw [har, if_pos rfl, hdata]
  · change (if s.arHs i then s.core.seq.cpuBufQ else _) = (Fft.next rom s.core (s.access i)).seq.cpuBufQ
    rw [har, if_pos rfl, hown]
  · change (Fft.next rom s.core (s.access i)).cpuBuf.aRdata = _
    rw [Fft.cpuBuf_next hown, hport]
    exact FftDpram.aRdata_read rfl rfl

/-- An answer that waits keeps its word, while nothing is accessed. -/
theorem Answers.wait (h : Answers v s) (hwrite : s.doWrite i = false) (hread : s.arHs i = false)
    (hr : s.rHs i = false) :
    Answers v (s.next rom i) := by
  have hacc : s.access i = ⟨none, none, ()⟩ := by
    unfold access
    rw [hwrite, hread]
    rfl
  have hown : (Fft.next rom s.core (s.access i)).seq.cpuBufQ = s.core.seq.cpuBufQ := cpuBufQ_keep (by rw [hacc])
  have hstay : (s.port.rvalidQ && i.rready) = false := hr
  refine ⟨?_, ?_, ?_, ?_⟩
  · change (if s.arHs i then true else if s.port.rvalidQ && i.rready then false else s.port.rvalidQ) = true
    rw [hread, if_neg Bool.false_ne_true, hstay, if_neg Bool.false_ne_true, h.valid]
  · change (if s.arHs i then _ else s.rdIsDataQ) = true
    rw [hread, if_neg Bool.false_ne_true, h.isData]
  · change (if s.arHs i then _ else s.rdBufQ) = (Fft.next rom s.core (s.access i)).seq.cpuBufQ
    rw [hread, if_neg Bool.false_ne_true, h.buf, hown]
  · change (Fft.next rom s.core (s.access i)).cpuBuf.aRdata = v
    rw [Fft.cpuBuf_next hown, hacc]
    exact (FftDpram.aRdata_off rfl).trans h.word

/-- A master with one transaction outstanding accesses nothing meanwhile. -/
private theorem Answers.next (h : Answers v s) (ht : Tracks o s) (hs : Single o s i) (hr : s.rHs i = false) :
    Answers v (s.next rom i) := by
  have hrd : o.rd = true := ht.rd.trans h.valid
  have hwait : ∀ {x : Bool}, (x = true → s.rHs i = true) → x = false := by
    intro x hx
    cases x with
    | false => rfl
    | true =>
      rw [hr] at hx
      exact absurd (hx rfl) Bool.false_ne_true
  have haw : i.awvalid = false := hwait fun hv => (hs.aw hv).1 hrd
  have har : i.arvalid = false := hwait fun hv => (hs.ar hv).2.2.2 hrd
  have hseen : s.port.awSeenQ = false := by
    have hout := (ht.alone hrd).1
    rw [ht.aw, Bool.or_eq_false_iff] at hout
    exact hout.1
  refine h.wait ?_ ?_ hr
  · unfold doWrite
    rw [awHs_false haw, hseen, Bool.or_false, Bool.false_and, Bool.false_and]
  · unfold arHs Axi.arHs
    rw [har, Bool.false_and]

/-! ### Runs -/

section Run

variable (rom : BitVec m → Word) (s : FftSlave m) (inp : Nat → AxiM)

/-- The device before cycle `t`. -/
def run (t : Nat) : FftSlave m := trace (FftSlave.next rom) s inp t

/-- What is outstanding before cycle `t`. -/
def outstanding (t : Nat) : Outstanding :=
  companion Outstanding.next (FftSlave.next rom) ⟨false, false, false⟩ s inp t

/-- The master has one transaction outstanding at a time. -/
def SingleOutstanding : Prop := ∀ t, Single (outstanding rom s inp t) (run rom s inp t) (inp t)

/-- The accesses that reach the device. -/
def accessAt (t : Nat) : RegAccess (BitVec 11) Unit := (run rom s inp t).access (inp t)

/-- The sample store under these accesses, from the buffers as they are found. -/
def storeAt (t : Nat) : PingPong m :=
  trace (PingPong.next (FftJob.tab rom)) (PingPong.boot s.core) (accessAt rom s inp) t

/-- START is taken in cycle `t`. -/
def startAt (t : Nat) : Bool := (run rom s inp t).core.startPulse (accessAt rom s inp t)

/-- SWAP is. -/
def swapAt (t : Nat) : Bool := (run rom s inp t).core.swapPulse (accessAt rom s inp t)

/-- What a single-outstanding master finds in every run. -/
structure Streams : Prop where
  owned : ∀ t, Fft.Owned rom (run rom s inp t).core (accessAt rom s inp t)
  seen : ∀ t, PingPong.Seen (run rom s inp t).core (storeAt rom s inp t)
  stored : ∀ t, (startAt rom s inp t || swapAt rom s inp t) = false →
    (run rom s inp (t + 1)).core.cpuBuf.mem = PingPong.stored (accessAt rom s inp t) (run rom s inp t).core.cpuBuf.mem
  result : ∀ t u, t < u → startAt rom s inp t = true →
    (∀ v, t < v → v < u → (startAt rom s inp v || swapAt rom s inp v) = false) →
      (startAt rom s inp u || swapAt rom s inp u) = true →
        (run rom s inp (u + 1)).core.cpuBuf.mem =
          PingPong.transformed (FftJob.tab rom) (run rom s inp t).core.regs (run rom s inp t).core.cpuBuf.mem
  ignored : ∀ t, (run rom s inp t).core.busy = true →
    ∀ a, Fft.next rom (run rom s inp t).core (Fft.quiet a) = Fft.next rom (run rom s inp t).core a
  reads : ∀ t u, t < u → (run rom s inp t).arHs (inp t) = true → (sel (inp t).araddr).getLsbD 10 = true →
    (∀ v, t < v → v < u → (run rom s inp v).rHs (inp v) = false) →
      ((run rom s inp u).axi (inp u)).rvalid = true ∧
        ((run rom s inp u).axi (inp u)).rdata = (storeAt rom s inp t).cpu ((sel (inp t).araddr).setWidth (m + 1))
  done : ∀ t, (run rom s inp t).core.finish = true → (run rom s inp (t + 1)).core.seq.doneQ = true

variable {rom s inp}

/-- The device behind the flops runs under the accesses. -/
private theorem core_run (t : Nat) : (run rom s inp t).core = trace (Fft.next rom) s.core (accessAt rom s inp) t := by
  induction t with
  | zero => rfl
  | succ t ih =>
    rw [trace_succ, ← ih]
    rfl

private theorem tracks_run (h : s.IsReset) (hone : SingleOutstanding rom s inp) (t : Nat) :
    Tracks (outstanding rom s inp t) (run rom s inp t) := by
  have h0 : Tracks ⟨false, false, false⟩ s := by
    refine ⟨?_, ?_, ?_, ?_, fun hrd => absurd hrd Bool.false_ne_true⟩
    · rw [h.port]
    · rw [h.port]
      rfl
    · rw [h.port]
      rfl
    · rw [h.port]
      exact fun hv => absurd hv Bool.false_ne_true
  have hstep : ∀ o q i, Tracks o q → Single o q i → Tracks (Outstanding.next o q i) (FftSlave.next rom q i) :=
    fun o q i ht hs => ht.next hs
  exact companion_invariant h0 hstep t fun u _ => hone u

/-- The last pass ends in DONE, whatever is written. -/
private theorem doneQ_of_finish {q : Fft m} {a : RegAccess (BitVec 11) Unit} (h : q.finish = true) :
    (Fft.next rom q a).seq.doneQ = true := by
  unfold Fft.finish at h
  rw [Bool.and_eq_true, Bool.and_eq_true, beq_iff_eq, beq_iff_eq] at h
  obtain ⟨⟨hst, hv⟩, hf⟩ := h
  change (q.seqNext a).doneQ = true
  unfold Fft.seqNext
  simp only [hst, hv, hf, if_true]

private theorem shows_run (h1 : 1 ≤ m) (hm : m < 10) (h : s.IsReset) (t : Nat) :
    PingPong.Shows rom (run rom s inp t).core (storeAt rom s inp t) := by
  rw [core_run]
  exact PingPong.shows_run h1 hm h.core _ t

/-- Ping-pong ownership and streaming, for every master with one transaction outstanding. -/
theorem streams (h1 : 1 ≤ m) (hm : m < 10) (h : s.IsReset) (hone : SingleOutstanding rom s inp) :
    Streams rom s inp := by
  have hshows : ∀ t, PingPong.Shows rom (run rom s inp t).core (storeAt rom s inp t) := shows_run h1 hm h
  have hstart : ∀ t, (storeAt rom s inp t).start (accessAt rom s inp t) = startAt rom s inp t := fun t =>
    (hshows t).start _
  have hswap : ∀ t, (storeAt rom s inp t).swap (accessAt rom s inp t) = swapAt rom s inp t := fun t =>
    (hshows t).swap _
  refine ⟨fun t => Fft.owned _ _, fun t => (hshows t).seen, fun t hno => ?_, fun t u htu hst hno hex => ?_,
    fun t hbusy a => Fft.next_quiet hbusy a, fun t u htu har hdata hwait => ?_, fun t => doneQ_of_finish⟩
  · rw [(hshows (t + 1)).cpu, (hshows t).cpu]
    have hsame : ((storeAt rom s inp t).start (accessAt rom s inp t) ||
        (storeAt rom s inp t).swap (accessAt rom s inp t)) = false := by rw [hstart, hswap, hno]
    exact PingPong.cpu_of_not_exchange hsame
  · have hflip : ((storeAt rom s inp u).start (accessAt rom s inp u) ||
        (storeAt rom s inp u).swap (accessAt rom s inp u)) = true := by rw [hstart, hswap, hex]
    have hcpu : (storeAt rom s inp (u + 1)).cpu = (storeAt rom s inp u).other := PingPong.cpu_of_exchange hflip
    rw [(hshows (u + 1)).cpu, (hshows t).cpu, (hshows t).regs, hcpu]
    refine PingPong.other_of_start ((hstart t).trans hst) htu fun v hv1 hv2 => ?_
    have hv := hno v hv1 hv2
    rw [Bool.or_eq_false_iff] at hv
    exact ⟨(hstart v).trans hv.1, (hswap v).trans hv.2⟩
  · rw [← (hshows t).cpu]
    refine Answers.axi ?_
    induction u, htu using Nat.le_induction with
    | base => exact answers_of_arHs har hdata
    | succ u htu ih =>
      have hstill := ih fun v h1 h2 => hwait v h1 (Nat.lt_succ_of_lt h2)
      exact hstill.next (tracks_run h hone u) (hone u) (hwait u htu (Nat.lt_succ_self u))

/-- The device out of reset, over cleared memories. -/
def outOfReset (m : Nat) : FftSlave m := ⟨⟨false, false, 0, 0, 0, false, false, 0⟩, false, false, Fft.outOfReset m⟩

/-- START is stored in cycle 0, and nothing after it. -/
def startOnce (t : Nat) : AxiM := ⟨0, t == 0, 1, 0xF, t == 0, true, 0, false, true⟩

private theorem singleOutstanding_startOnce : SingleOutstanding rom (outOfReset m) startOnce := by
  intro t
  cases t with
  | zero =>
    refine ⟨fun h => absurd h Bool.false_ne_true, fun _ => ⟨?_, ?_⟩, fun _ => ⟨?_, ?_⟩⟩
    · exact fun h => absurd h Bool.false_ne_true
    · exact fun h => absurd h Bool.false_ne_true
    · exact fun h => absurd h Bool.false_ne_true
    · exact fun h => absurd h Bool.false_ne_true
  | succ t =>
    exact ⟨fun h => absurd h Bool.false_ne_true, fun h => absurd h Bool.false_ne_true,
      fun h => absurd h Bool.false_ne_true⟩

/-- The device out of reset takes the START of such a master. -/
theorem streams_reset : startAt (fun _ => 0) (outOfReset 9) startOnce 0 = true ∧
    Streams (fun _ => 0) (outOfReset 9) startOnce :=
  ⟨rfl, streams (by decide) (by decide) ⟨rfl, rfl, rfl, rfl, rfl⟩ singleOutstanding_startOnce⟩

end Run

end FftSlave

end Yarv
