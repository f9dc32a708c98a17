import Yarv.Periph.SpiExchange

/-!
# What an SPI exchange carries

`phase_run` follows a run byte by byte, the two FIFO lemmas tie the bytes to the register port, and `exchanges_iff`
says exactly when the engine and the ideal slave of its mode understand each other.
-/

namespace Yarv.SpiExchange

open ShiftReg Clocked

variable {e : SpiExchange} {wt wr : Nat}

/-- An exchange starts with an idle engine and SCK at its idle level; the FIFOs may hold something already. -/
structure Start (e : SpiExchange) (l : SpiLink wt wr) (tx rx : List Byte) : Prop where
  idle : l.spi.stateQ = .idle
  sck : l.spi.sckQ = e.cpol
  bits : l.tgt.bits = []
  moved : l.tgt.moved = 0
  tx : l.spi.tx.Holds tx
  rx : l.spi.rx.Holds rx

section Run

variable (e) (l : SpiLink wt wr) (acc : Nat → RegAccess (BitVec 3) Unit)

/-- The run under the accesses of the port. -/
abbrev linkAt (t : Nat) : SpiLink wt wr := trace e.next l acc t

/-- The bytes to send: those queued at the start and those pushed before cycle `t`. -/
def given (tx : List Byte) (t : Nat) : List Byte := tx ++ logFrom (fun l i => l.spi.txPush i) e.next l acc 0 t

def launchedLog (t : Nat) : List Byte := logFrom (fun l _ => launched l) e.next l acc 0 t

def finishedLog (t : Nat) : List Byte := logFrom (fun l _ => finished l) e.next l acc 0 t

/-- The bytes pushed into the RX FIFO before cycle `t`. -/
def rxPushes (t : Nat) : List Byte := logFrom (fun l _ => l.spi.rxPush) e.next l acc 0 t

/-- The bytes RXDATA reads have popped before cycle `t`. -/
def rxPops (t : Nat) : List Byte :=
  logFrom (Fifo.popped (fun l => l.spi.rx) fun l i => l.spi.rxPop i) e.next l acc 0 t

/-- The exchange as its two ends see it. -/
structure Exchanges (tx rx : List Byte) : Prop where
  /-- The slave captures nothing but the pushed bytes, in order, -/
  captured : ∀ t, (linkAt e l acc t).tgt.bits <+: (given e l acc tx t).flatMap msbBits
  /-- and all of them in the end. -/
  captured_all : ∀ t, ∃ u, t ≤ u ∧ (given e l acc tx t).flatMap msbBits <+: (linkAt e l acc u).tgt.bits
  /-- The engine receives the bytes of the slave, in order, -/
  received : ∀ t, finishedLog e l acc t = (List.range (finishedLog e l acc t).length).map e.resp
  /-- one for each byte sent. -/
  received_all : ∀ t, ∃ u, t ≤ u ∧ (given e l acc tx t).length ≤ (finishedLog e l acc u).length
  /-- A received byte is pushed unless the FIFO is full, which sets RX_OVERRUN, -/
  dropped : ∀ t b, finished (linkAt e l acc t) = some b → (linkAt e l acc t).spi.rxPush = some b ∨
    ((linkAt e l acc t).spi.rx.full = true ∧ (linkAt e l acc (t + 1)).spi.irqOvrQ = true)
  /-- and nothing else is pushed. -/
  pushed : ∀ t b, (linkAt e l acc t).spi.rxPush = some b → finished (linkAt e l acc t) = some b
  /-- The RX FIFO keeps what is pushed into it, -/
  queued : ∀ t, ∃ q, (linkAt e l acc t).spi.rx.Holds q ∧ rx ++ rxPushes e l acc t = rxPops e l acc t ++ q
  /-- until an RXDATA read pops it: a read of an empty FIFO pops nothing, -/
  popped : ∀ t, (linkAt e l acc t).spi.rxPop (acc t) = true ↔
    (acc t).rd = some Spi.REG_RXDATA ∧ (linkAt e l acc t).spi.rx.empty = false
  /-- and a read of a FIFO that is not empty returns its oldest byte. -/
  read : ∀ t q, (linkAt e l acc t).spi.rx.Holds q → ∀ b ∈ q.head?,
    (linkAt e l acc t).spi.read Spi.REG_RXDATA = b.setWidth 32

end Run

variable {l : SpiLink wt wr} {tx rx : List Byte} {acc : Nat → RegAccess (BitVec 3) Unit}

/-- Where the engine is, cycle by cycle. -/
private theorem phase_run (hs : Start e l tx rx) (hdiv : e.clkdiv ≠ 0)
    (hh : ∀ t, Held e (linkAt e l acc t)) (t : Nat) :
    Phase e (linkAt e l acc t) (launchedLog e l acc t) (finishedLog e l acc t) := by
  induction t with
  | zero => exact .idle hs.idle ⟨hs.moved, fun _ => hs.bits, fun h => absurd hs.sck h⟩
  | succ t ih =>
    have := ih.next (acc t) (hh t) hdiv
    rw [linkAt, trace_succ, launchedLog, finishedLog, logFrom_succ, logFrom_succ, Nat.zero_add]
    exact this

/-- The TX FIFO holds what has been given and not launched. -/
private theorem tx_run (hs : Start e l tx rx) (acc : Nat → RegAccess (BitVec 3) Unit) (t : Nat) :
    ∃ q, (linkAt e l acc t).spi.tx.Holds q ∧ given e l acc tx t = launchedLog e l acc t ++ q := by
  refine Fifo.Holds.run (fun l : SpiLink wt wr => l.spi.tx) (fun l i => l.spi.txPush i) (fun l _ => l.spi.launch)
    hs.tx (fun s i => rfl) ?_ ?_ t
  · intro s i h
    rw [Spi.launch, Bool.and_eq_true, Bool.not_eq_true'] at h
    exact h.2
  · intro s i h
    left
    cases hf : s.spi.tx.full with
    | false => rfl
    | true => simp [Spi.txPush, hf] at h

private theorem rx_run (hs : Start e l tx rx) (t : Nat) :
    ∃ q, (linkAt e l acc t).spi.rx.Holds q ∧ rx ++ rxPushes e l acc t = rxPops e l acc t ++ q := by
  refine Fifo.Holds.run (fun l : SpiLink wt wr => l.spi.rx) (fun l _ => l.spi.rxPush) (fun l i => l.spi.rxPop i) hs.rx
    (fun s i => rfl) ?_ ?_ t
  · intro s i h
    rw [Spi.rxPop, Bool.and_eq_true, Bool.not_eq_true'] at h
    exact h.2
  · intro s i h
    left
    cases hf : s.spi.rx.full with
    | false => rfl
    | true => simp [Spi.rxPush, hf] at h

/-- A byte that is not pushed has found the FIFO full, and leaves RX_OVERRUN set. -/
private theorem dropped_overrun (l : SpiLink wt wr) (a : RegAccess (BitVec 3) Unit) {b : Byte}
    (hf : finished l = some b) :
    l.spi.rxPush = some b ∨ (l.spi.rx.full = true ∧ (e.next l a).spi.irqOvrQ = true) := by
  have hd : l.spi.byteDone = true := by
    by_contra h
    simp [finished, h] at hf
  have hb : l.spi.rxQ = b := by simpa [finished, hd] using hf
  cases hfull : l.spi.rx.full with
  | false => exact .inl (by simp [Spi.rxPush, hd, hfull, hb])
  | true =>
    refine .inr ⟨rfl, ?_⟩
    have hov : l.spi.rxOverrun = true := by
      rw [Spi.byteDone] at hd
      rw [Spi.rxOverrun, hd, hfull]
      rfl
    simp [next, Spi.next, RegAccess.sticky, hov]

/-- What is pushed is a byte that is done. -/
private theorem finished_of_push {l : SpiLink wt wr} {b : Byte} (h : l.spi.rxPush = some b) :
    finished l = some b := by
  rw [Spi.rxPush] at h
  split at h
  · rename_i hd
    rw [Bool.and_eq_true] at hd
    rw [finished, if_pos hd.1, h]
  · cases h

/-- RXDATA returns the oldest byte. -/
private theorem read_oldest {s : Spi wt wr} {q : List Byte} (h : s.rx.Holds q) {b : Byte} (hb : b ∈ q.head?) :
    s.read Spi.REG_RXDATA = b.setWidth 32 := by
  obtain ⟨he, hhead⟩ := h.oldest hb
  have hmux : s.read Spi.REG_RXDATA = if s.rx.empty then 0 else s.rx.head.setWidth 32 := rfl
  rw [hmux, he, hhead, if_neg Bool.false_ne_true]

/-! ### The engine comes back to idle -/

private theorem idle_of_shifting (hdiv : e.clkdiv ≠ 0) (hh : ∀ t, Held e (linkAt e l acc t)) (n : Nat) :
    ∀ {t : Nat} {ps : List Byte} {b : Byte} {i : Nat} {h : Bool}, Shifting e ps b i h (linkAt e l acc t) →
      (16 - (2 * i + h.toNat)) * 65536 + (linkAt e l acc t).spi.divCntQ.toNat < n →
      ∃ u, t ≤ u ∧ (linkAt e l acc u).spi.stateQ = .idle := by
  induction n with
  | zero => intro t ps b i h _ hn; omega
  | succ n ih =>
    intro t ps b i h hs hn
    have hnext : linkAt e l acc (t + 1) = e.next (linkAt e l acc t) (acc t) := trace_succ t
    have hlt := (linkAt e l acc (t + 1)).spi.divCntQ.isLt
    cases ht : (linkAt e l acc t).spi.divTick with
    | false =>
      have h1 : (linkAt e l acc (t + 1)).spi.divCntQ = (linkAt e l acc t).spi.divCntQ - 1 := by
        rw [hnext]
        simp [next, Spi.next, (hh t).enable, hs.state, ht]
      have hne : (linkAt e l acc t).spi.divCntQ.toNat ≠ 0 := by
        intro h0
        rw [Spi.divTick, beq_eq_false_iff_ne] at ht
        exact ht (BitVec.eq_of_toNat_eq h0)
      have h2 : (linkAt e l acc (t + 1)).spi.divCntQ.toNat = (linkAt e l acc t).spi.divCntQ.toNat - 1 := by
        have h1n : (1 : BitVec 16).toNat = 1 := rfl
        have hwide := (linkAt e l acc t).spi.divCntQ.isLt
        rw [h1, BitVec.toNat_sub, h1n]
        omega
      have hs' := hs.hold (acc t) (hh t) ht
      rw [← hnext] at hs'
      obtain ⟨u, hu, hi⟩ := ih hs' (by omega)
      exact ⟨u, by omega, hi⟩
    | true =>
      have hbound : 2 * i + h.toNat ≤ 15 := by
        have := hs.bound
        simp only [sampled] at this
        cases hc : e.cpha <;> cases h <;> simp [hc] at this ⊢ <;> omega
      obtain ⟨m, hm⟩ : ∃ m, 16 - (2 * i + h.toNat) = m + 1 := ⟨15 - (2 * i + h.toNat), by omega⟩
      have hprog : 16 - (2 * (i + h.toNat) + (!h).toNat) = m := by cases h <;> simp at hm ⊢ <;> omega
      rw [hm, Nat.succ_mul] at hn
      have hgo : Shifting e ps b (i + h.toNat) (!h) (linkAt e l acc (t + 1)) →
          ∃ u, t ≤ u ∧ (linkAt e l acc u).spi.stateQ = .idle := by
        intro hs'
        have hrank : m * 65536 + (linkAt e l acc (t + 1)).spi.divCntQ.toNat < n := by linarith only [hn, hlt]
        rw [← hprog] at hrank
        obtain ⟨u, hu, hi⟩ := ih hs' hrank
        exact ⟨u, by omega, hi⟩
      cases hx : e.cpha ^^ h with
      | false => exact hgo (hnext ▸ hs.tick_change (acc t) (hh t) ht hx)
      | true =>
        rcases Nat.lt_or_eq_of_le hs.bound with hlt7 | heq
        · exact hgo (hnext ▸ hs.tick_sample (acc t) (hh t) ht hx hlt7)
        · obtain ⟨h1, h2, -, hr⟩ := hs.tick_last (acc t) (hh t) ht hx heq
          rw [← hnext] at h1 h2 hr
          have h3 := hr.next_done (acc (t + 1)) (hh _) h1 (by rw [Spi.divTick, h2, beq_eq_false_iff_ne]; exact hdiv)
          exact ⟨t + 2, by omega, h3.1⟩

private theorem exists_idle (hs : Start e l tx rx) (hdiv : e.clkdiv ≠ 0)
    (hh : ∀ t, Held e (linkAt e l acc t)) (t : Nat) :
    ∃ u, t ≤ u ∧ (linkAt e l acc u).spi.stateQ = .idle := by
  have hp := phase_run hs hdiv hh t
  generalize launchedLog e l acc t = ls, finishedLog e l acc t = fs at hp
  cases hp with
  | idle hi _ => exact ⟨t, le_rfl, hi⟩
  | shift hsh => exact idle_of_shifting hdiv hh _ hsh (Nat.lt_succ_self _)
  | done hd ht _ hr =>
    have h3 := hr.next_done (acc t) (hh t) hd (by rw [Spi.divTick, ht, beq_eq_false_iff_ne]; exact hdiv)
    exact ⟨t + 1, by omega, h3.1⟩

private theorem given_mono {t u : Nat} (h : t ≤ u) : given e l acc tx t <+: given e l acc tx u :=
  (List.prefix_append_right_inj tx).mpr <| logFrom_prefix 0 h

/-- Every byte given is launched, and the engine then idle again. -/
private theorem exists_launched (hs : Start e l tx rx) (hdiv : e.clkdiv ≠ 0)
    (hh : ∀ t, Held e (linkAt e l acc t)) (t n : Nat) (hn : n ≤ (given e l acc tx t).length) :
    ∃ u, t ≤ u ∧ n ≤ (launchedLog e l acc u).length ∧ (linkAt e l acc u).spi.stateQ = .idle := by
  induction n with
  | zero =>
    obtain ⟨u, hu, hi⟩ := exists_idle hs hdiv hh t
    exact ⟨u, hu, Nat.zero_le _, hi⟩
  | succ n ih =>
    obtain ⟨u, hu, hl, hi⟩ := ih (by omega)
    rcases Nat.lt_or_ge n (launchedLog e l acc u).length with h | h
    · exact ⟨u, hu, h, hi⟩
    · obtain ⟨q, hq, hg⟩ := tx_run hs acc u
      have hlen := (given_mono hu : given e l acc tx t <+: given e l acc tx u).length_le
      have hne : (linkAt e l acc u).spi.tx.empty = false := by
        rw [← Bool.not_eq_true, hq.empty_iff]
        rintro rfl
        rw [hg, List.append_nil] at hlen
        omega
      have hlaunch : launched (linkAt e l acc u) = some (linkAt e l acc u).spi.tx.head := by
        simp [launched, Spi.launch, hi, (hh u).enable, hne]
      have hgrow : n + 1 ≤ (launchedLog e l acc (u + 1)).length := by
        rw [launchedLog, logFrom_succ, Nat.zero_add, hlaunch, List.length_append]
        have : (logFrom (fun l _ => launched l) e.next l acc 0 u).length = (launchedLog e l acc u).length := rfl
        simp
        omega
      obtain ⟨v, hv, hvi⟩ := exists_idle hs hdiv hh (u + 1)
      have hmono : launchedLog e l acc (u + 1) <+: launchedLog e l acc v := logFrom_prefix 0 hv
      exact ⟨v, by omega, le_trans hgrow hmono.length_le, hvi⟩

/-! ### What the two sides make of the bytes -/

/-- A byte whose eight bits are one level. -/
def flat (x : Bool) : Byte := if x then 0xFF#8 else 0x00#8

private theorem seen_eq_iff (b : Byte) (hc : e.cpha = false) : e.seen b = msbBits b ↔ b = 0x00#8 ∨ b = 0xFF#8 := by
  rw [seen, hc, if_neg Bool.false_ne_true]
  revert b
  decide +kernel

private theorem seen_eq (b : Byte) (hc : e.cpha = true) : e.seen b = msbBits b := by rw [seen, hc, if_pos rfl]

private theorem miso_first (k : Nat) (hc : e.cpha = false) : e.miso k = e.stream k := by simp [miso, hc]

private theorem miso_zero (hc : e.cpha = true) : e.miso 0 = e.level := by simp [miso, hc]

private theorem miso_succ (k : Nat) (hc : e.cpha = true) : e.miso (k + 1) = e.stream k := by simp [miso, hc]

private theorem stream_at (e : SpiExchange) (j : Nat) {i : Nat} (hi : i < 8) :
    e.stream (8 * j + i) = (e.resp j).getMsbD i := by
  rw [stream, show (8 * j + i) / 8 = j by omega, show (8 * j + i) % 8 = i by omega]

/-- With `CPHA = 0` the engine takes every bit before the slave replaces it. -/
private theorem got_eq (j : Nat) (hc : e.cpha = false) : e.got j = e.resp j := by
  refine run_eq _ _ _ ?_
  rw [samples, msbBits]
  refine List.map_congr_left fun i hi => ?_
  rw [miso_first _ hc, e.stream_at j (List.mem_range.mp hi)]

/-- With `CPHA = 1` it takes every bit one edge too early. -/
private theorem samples_eq (j : Nat) (hc : e.cpha = true) :
    e.samples j = e.miso (8 * j) :: (msbBits (e.resp j)).take 7 := by
  have hm : ∀ i < 7, e.miso (8 * j + (i + 1)) = (e.resp j).getMsbD i := by
    intro i hi
    rw [← Nat.add_assoc, miso_succ _ hc, e.stream_at j (by omega)]
  have hr : List.range 8 = 0 :: (List.range 7).map Nat.succ := List.range_succ_eq_map
  rw [samples, hr, List.map_cons, List.map_map, msbBits, ← List.map_take, List.take_range, Nat.add_zero]
  refine congrArg _ (List.map_congr_left fun i hi => ?_)
  exact hm i (by simpa using hi)

private theorem got_eq_iff (j : Nat) (hc : e.cpha = true) :
    e.got j = e.resp j ↔ e.resp j = flat (e.miso (8 * j)) := by
  have h : ∀ (x : Bool) (b : Byte), ShiftReg.run (0 : Byte) (x :: (msbBits b).take 7) = b ↔ b = flat x := by
    decide +kernel
  rw [got, samples_eq j hc]
  exact h _ _

/-- So it understands a row of bytes only if none of them moves MISO. -/
private theorem all_got_iff (n : Nat) (hc : e.cpha = true) :
    (∀ j < n, e.got j = e.resp j) ↔ ∀ j < n, e.resp j = flat e.level := by
  have hlast : ∀ x : Bool, (flat x).getMsbD 7 = x := by decide
  have hlevel : ∀ n, (∀ j < n, e.resp j = flat e.level) → e.miso (8 * n) = e.level := by
    intro n hn
    rcases n with _ | n
    · exact miso_zero hc
    · rw [show 8 * (n + 1) = 8 * n + 7 + 1 by omega, miso_succ _ hc, e.stream_at n (by decide),
        hn n (by omega), hlast]
  induction n with
  | zero => simp
  | succ n ih =>
    constructor
    · intro h j hj
      have hbelow := ih.mp fun j hj => h j (by omega)
      rcases Nat.lt_succ_iff_lt_or_eq.mp hj with hlt | rfl
      · exact hbelow j hlt
      · rw [(got_eq_iff j hc).mp (h j hj), hlevel j hbelow]
    · intro h j hj
      rw [got_eq_iff j hc, h j hj, hlevel j fun k hk => h k (by omega)]

/-! ### The exchange -/

private theorem Phase.bits_initial {l : SpiLink wt wr} {ls fs : List Byte} (hp : Phase e l ls fs) :
    l.tgt.bits <+: ls.flatMap e.seen := by
  have hrest : ∀ {ls}, Rest e ls l → l.tgt.bits <+: ls.flatMap e.seen := by
    intro ls hr
    by_cases h0 : l.spi.sckQ = e.cpol
    · rw [hr.settled h0]
    · rw [← (hr.pending h0).2]
      exact List.prefix_append _ _
  cases hp with
  | idle _ hr => exact hrest hr
  | shift hs =>
    rw [hs.bits, List.flatMap_append, List.flatMap_singleton]
    exact (List.prefix_append_right_inj _).mpr (List.take_prefix _ _)
  | done _ _ _ hr => exact hrest hr

private theorem Phase.finished_eq {l : SpiLink wt wr} {ls fs : List Byte} (hp : Phase e l ls fs) :
    fs = (List.range fs.length).map e.got ∧ fs.length ≤ ls.length := by
  cases hp <;> simp

/-- The moment from which on everything given before cycle `t` is across. -/
private theorem exists_across (hs : Start e l tx rx) (hdiv : e.clkdiv ≠ 0)
    (hh : ∀ t, Held e (linkAt e l acc t)) (t : Nat) :
    ∃ u ls, t ≤ u ∧ given e l acc tx t <+: ls ∧ ls <+: given e l acc tx (u + 1) ∧
      (linkAt e l acc (u + 1)).tgt.bits = ls.flatMap e.seen ∧
      finishedLog e l acc u = (List.range ls.length).map e.got := by
  obtain ⟨u, hu, hlen, hi⟩ := exists_launched hs hdiv hh t _ le_rfl
  obtain ⟨q, -, hg⟩ := tx_run hs acc u
  have hpre : launchedLog e l acc u <+: given e l acc tx u := hg ▸ List.prefix_append _ _
  have hp := phase_run hs hdiv hh u
  generalize hls : launchedLog e l acc u = ls, hfs : finishedLog e l acc u = fs at hp
  rw [hls] at hlen hpre
  cases hp with
  | idle _ hr =>
    refine ⟨u, ls, hu, List.prefix_of_prefix_length_le (given_mono hu) hpre hlen,
      hpre.trans (given_mono (by omega)), ?_, hfs⟩
    rw [linkAt, trace_succ, (hr.idle (acc u) (hh u) hi).2]
  | shift hsh => exact absurd (hsh.state.symm.trans hi) (by decide)
  | done hd => exact absurd (hd.symm.trans hi) (by decide)

private theorem flatMap_inj {α β : Type} {f g : α → List β} (hlen : ∀ a, (f a).length = (g a).length) {l : List α}
    (h : l.flatMap f = l.flatMap g) : ∀ a ∈ l, f a = g a := by
  induction l with
  | nil => simp
  | cons b l ih =>
    rw [List.flatMap_cons, List.flatMap_cons] at h
    obtain ⟨h1, h2⟩ := List.append_inj h (hlen b)
    intro a ha
    rcases List.mem_cons.mp ha with rfl | ha
    · exact h1
    · exact ih h2 a ha

/-- The exchange works as soon as both sides read every byte right. -/
private theorem exchanges_of (hs : Start e l tx rx) (hdiv : e.clkdiv ≠ 0) (hh : ∀ t, Held e (linkAt e l acc t))
    (hseen : ∀ t, ∀ b ∈ given e l acc tx t, e.seen b = msbBits b)
    (hgot : ∀ t, ∀ j < (given e l acc tx t).length, e.got j = e.resp j) : Exchanges e l acc tx rx := by
  have hflat : ∀ {t ls}, ls <+: given e l acc tx t → ls.flatMap e.seen = ls.flatMap msbBits := by
    intro t ls hl
    exact List.flatMap_congr fun b hb => hseen t b (hl.subset hb)
  have hlaunch : ∀ t, launchedLog e l acc t <+: given e l acc tx t := by
    intro t
    obtain ⟨q, -, hg⟩ := tx_run hs acc t
    exact hg ▸ List.prefix_append _ _
  refine ⟨fun t => ?_, fun t => ?_, fun t => ?_, fun t => ?_, fun t b hf => dropped_overrun _ _ hf,
    fun t b => finished_of_push, rx_run hs, fun t => ?_, fun t q hq b => read_oldest hq⟩
  · have hp := (phase_run hs hdiv hh t).bits_initial
    rw [hflat (hlaunch t)] at hp
    exact hp.trans ((hlaunch t).flatMap _)
  · obtain ⟨u, ls, hu, hg, hl, hb, -⟩ := exists_across hs hdiv hh t
    exact ⟨u + 1, by omega, by rw [hb, hflat hl]; exact hg.flatMap _⟩
  · obtain ⟨h1, h2⟩ := (phase_run hs hdiv hh t).finished_eq
    rw [h1, List.length_map, List.length_range]
    refine List.map_congr_left fun j hj => hgot t j ?_
    have := (hlaunch t).length_le
    have := List.mem_range.mp hj
    omega
  · obtain ⟨u, ls, hu, hg, -, -, hf⟩ := exists_across hs hdiv hh t
    refine ⟨u, hu, ?_⟩
    rw [hf, List.length_map, List.length_range]
    exact hg.length_le
  · rw [Spi.rxPop, Bool.and_eq_true, beq_iff_eq, Bool.not_eq_true']

/-- If it works, both sides read every byte right. -/
private theorem Exchanges.reads (hx : Exchanges e l acc tx rx) (hs : Start e l tx rx) (hdiv : e.clkdiv ≠ 0)
    (hh : ∀ t, Held e (linkAt e l acc t)) (t : Nat) :
    (∀ b ∈ given e l acc tx t, e.seen b = msbBits b) ∧ ∀ j < (given e l acc tx t).length, e.got j = e.resp j := by
  obtain ⟨u, ls, hu, hg, hl, hb, hf⟩ := exists_across hs hdiv hh t
  constructor
  · intro b hbt
    have h1 := hx.captured (u + 1)
    rw [hb] at h1
    have h2 : ls.flatMap msbBits <+: (given e l acc tx (u + 1)).flatMap msbBits := hl.flatMap _
    have hlen : (ls.flatMap e.seen).length = (ls.flatMap msbBits).length := by simp [List.length_flatMap]
    have heq : ls.flatMap e.seen = ls.flatMap msbBits :=
      (List.prefix_of_prefix_length_le h1 h2 hlen.le).eq_of_length hlen
    exact flatMap_inj (fun b => by simp) heq b (hg.subset hbt)
  · intro j hj
    have h1 := hx.received u
    rw [hf, List.length_map, List.length_range] at h1
    exact List.map_inj_left.mp h1 j (List.mem_range.mpr (lt_of_lt_of_le hj hg.length_le))

/-- The exchanges in which the misplaced edges do not show. -/
structure Suited (e : SpiExchange) (l : SpiLink wt wr) (acc : Nat → RegAccess (BitVec 3) Unit) (tx : List Byte) :
    Prop where
  /-- `CPHA = 0`: MOSI does not move within a byte. -/
  mosi_still : e.cpha = false → ∀ t, ∀ b ∈ given e l acc tx t, b = 0x00#8 ∨ b = 0xFF#8
  /-- `CPHA = 1`: MISO does not move at all. -/
  miso_still : e.cpha = true → ∀ t, ∀ j < (given e l acc tx t).length, e.resp j = flat e.level

/-- The exchange of a run of the slave works if and only if no data bit has to move against the edges. -/
theorem exchanges_iff (s : RegSlave (BitVec 3) (SpiLink wt wr)) (inp : Nat → SlaveIn Unit) (tx rx : List Byte)
    (hs : Start e s.core tx rx) (hdiv : 2 ≤ e.clkdiv.toNat)
    (hh : ∀ t, Held e (trace (RegSlave.next e.device) s inp t).core) :
    Exchanges e s.core (s.accesses e.device inp) tx rx ↔ Suited e s.core (s.accesses e.device inp) tx := by
  have hdiv' : e.clkdiv ≠ 0 := by
    intro h0
    rw [h0] at hdiv
    exact absurd hdiv (by decide)
  have hh' : ∀ t, Held e (linkAt e s.core (s.accesses e.device inp) t) := fun t => by
    have := hh t
    rwa [RegSlave.core_trace] at this
  constructor
  · intro hx
    refine ⟨fun hc t b hb => ?_, fun hc t => ?_⟩
    · exact (seen_eq_iff b hc).mp ((hx.reads hs hdiv' hh' t).1 b hb)
    · exact (all_got_iff _ hc).mp (hx.reads hs hdiv' hh' t).2
  · intro hx
    cases hc : e.cpha with
    | false =>
      exact exchanges_of hs hdiv' hh' (fun t b hb => (seen_eq_iff b hc).mpr (hx.mosi_still hc t b hb))
        fun _ j _ => got_eq j hc
    | true => exact exchanges_of hs hdiv' hh' (fun t b _ => seen_eq b hc) fun t =>
        (all_got_iff _ hc).mpr (hx.miso_still hc t)

/-! ### One byte from reset

The engine is enabled at `CLKDIV = 2`, `CPOL = 0`, and one byte is written to TXDATA in the first cycle. -/

/-- The exchange in which the slave answers `r` throughout. -/
def single (cpha : Bool) (r : Byte) : SpiExchange := ⟨false, cpha, 2, fun _ => r, false⟩

def singleStart (cpha : Bool) : RegSlave (BitVec 3) (SpiLink 1 1) where
  port := ⟨false, false, 0, 0, 0, false, false, 0⟩
  core :=
    { spi :=
        { enableQ := true, cpolQ := false, cphaQ := cpha, ieTxQ := false, ieRxQ := false, ieDoneQ := false,
          ieOvrQ := false, clkdivQ := 2, csNQ := false, irqTxQ := false, irqRxQ := false, irqDoneQ := false,
          irqOvrQ := false, txEmptyDQ := false, rxNeDQ := false, tx := Fifo.reset fun _ => 0,
          rx := Fifo.reset fun _ => 0, stateQ := .idle, shiftQ := 0, rxQ := 0, bitCntQ := 0, firstEdgeQ := false,
          divCntQ := 0, sckQ := false }
      tgt := ⟨[], 0⟩ }

def singleIn (b : Byte) (t : Nat) : SlaveIn Unit where
  m :=
    { awaddr := 0x10, awvalid := t == 0, wdata := b.setWidth 32, wstrb := 1, wvalid := t == 0, bready := true,
      araddr := 0, arvalid := false, rready := true }
  ext := ()

private theorem single_start (cpha : Bool) (r : Byte) : Start (single cpha r) (singleStart cpha).core [] [] :=
  ⟨rfl, rfl, rfl, rfl, Fifo.holds_reset _, Fifo.holds_reset _⟩

private theorem single_accesses (cpha : Bool) (r b : Byte) (t : Nat) :
    (singleStart cpha).accesses (single cpha r).device (singleIn b) t =
      if t = 0 then ⟨some ⟨Spi.REG_TXDATA, b.setWidth 32, 1⟩, none, ()⟩ else ⟨none, none, ()⟩ := by
  have hq : ∀ t, 0 < t →
      (trace (RegSlave.next (single cpha r).device) (singleStart cpha) (singleIn b) t).port.awSeenQ = false := by
    intro t ht
    induction t, ht using Nat.le_induction with
    | base => rfl
    | succ t ht ih =>
      rw [trace_succ]
      have h0 : (singleIn b t).m.awvalid = false := by simp [singleIn]; omega
      exact (RegSlave.access_quiet _ _ _ _ h0 rfl ih).2
  rcases Nat.eq_zero_or_pos t with rfl | ht
  · simp [RegSlave.accesses, RegSlave.access, RegSlave.doWrite, RegSlave.awPresent, RegSlave.wPresent, RegSlave.awHs,
      RegSlave.wHs, RegSlave.arHs, RegSlave.waddrEff, RegSlave.wdataEff, RegSlave.wstrbEff, RegSlave.axi, Axi.awHs,
      Axi.wHs, Axi.arHs, singleStart, singleIn, device]
    rfl
  · have h0 : (singleIn b t).m.awvalid = false := by simp [singleIn]; omega
    rw [if_neg (by omega)]
    exact (RegSlave.access_quiet _ _ _ _ h0 rfl (hq t ht)).1

private theorem single_held (cpha : Bool) (r b : Byte) (t : Nat) :
    Held (single cpha r) (trace (RegSlave.next (single cpha r).device) (singleStart cpha) (singleIn b) t).core := by
  rw [RegSlave.core_trace]
  induction t with
  | zero => exact ⟨rfl, rfl, rfl, rfl⟩
  | succ t ih =>
    rw [trace_succ, single_accesses]
    split
    · exact ih.next _ (RegAccess.wrAt_eq_none (by decide) _ _ _ _) (RegAccess.wrAt_eq_none (by decide) _ _ _ _)
    · exact ih.next _ rfl rfl

private theorem single_given (cpha : Bool) (r b : Byte) (t : Nat) :
    given (single cpha r) (singleStart cpha).core
      ((singleStart cpha).accesses (single cpha r).device (singleIn b)) [] t = if t = 0 then [] else [b] := by
  induction t with
  | zero => rfl
  | succ t ih =>
    rw [given, logFrom_succ, ← List.append_assoc, ← given, ih, Nat.zero_add, single_accesses]
    rcases Nat.eq_zero_or_pos t with rfl | ht
    · have hf : (singleStart cpha).core.spi.tx.full = false := by cases cpha <;> decide
      simp [Spi.txPush, RegAccess.wrAt, hf]
    · have : t ≠ 0 := by omega
      simp [this, Spi.txPush, RegAccess.wrAt]

private theorem single_link_held (cpha : Bool) (r b : Byte) (t : Nat) :
    Held (single cpha r) (linkAt (single cpha r) (singleStart cpha).core
      ((singleStart cpha).accesses (single cpha r).device (singleIn b)) t) := by
  have := single_held cpha r b t
  rwa [RegSlave.core_trace] at this

/-- Mode 0 loses the last bit of 0x01; mode 1 receives the byte of a 0x01 slave as 0x00. -/
theorem single_fails :
    (Start (single false 0) (singleStart false).core [] [] ∧ ¬Exchanges (single false 0) (singleStart false).core
      ((singleStart false).accesses (single false 0).device (singleIn 0x01)) [] []) ∧
    (Start (single true 0x01) (singleStart true).core [] [] ∧ ¬Exchanges (single true 0x01) (singleStart true).core
      ((singleStart true).accesses (single true 0x01).device (singleIn 0)) [] []) := by
  refine ⟨⟨single_start _ _, fun hx => ?_⟩, ⟨single_start _ _, fun hx => ?_⟩⟩
  · have h :=
      (hx.reads (single_start _ _) (by decide) (single_link_held _ _ _) 1).1 0x01 (by rw [single_given]; decide)
    exact absurd h (by decide)
  · have h := (hx.reads (single_start _ _) (by decide) (single_link_held _ _ _) 1).2 0 (by rw [single_given]; decide)
    exact absurd h (by decide)

/-- Mode 0 carries 0xFF, and reads the slave's 0xA5 right. -/
theorem exchanges_iff_ff :
    Exchanges (single false 0xA5) (singleStart false).core
      ((singleStart false).accesses (single false 0xA5).device (singleIn 0xFF)) [] [] := by
  refine (exchanges_iff (singleStart false) (singleIn 0xFF) [] [] (single_start _ _) (by decide)
    (single_held _ _ _)).mpr ⟨fun _ t b hb => ?_, fun hc => absurd hc (by decide)⟩
  rw [single_given] at hb
  split at hb
  · exact absurd hb (by simp)
  · exact .inr (by simpa using hb)

end Yarv.SpiExchange
