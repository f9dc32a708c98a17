import Yarv.Periph.SpiClock
import Yarv.Periph.StickyFlags
import Yarv.Sw.Port

/-!
# `spi_transfer_buf`

The buffered exchange of the C driver.  It pushes while fewer than sixteen bytes are under way, waits for a received
byte and pops it.  The driver and the shift engine meet in the two FIFOs only; what keeps them in step is that the
bytes pushed and not yet popped stand in the TX FIFO, in the shift register and in the RX FIFO, and are never more
than sixteen.
-/

namespace Yarv

open Driver Clocked Spi Spi.SckMode ShiftReg

namespace SpiDriver

abbrev SpiProg (τ : Type) := Prog (BitVec 3) Word τ

def SPI_STATUS_TX_FULL : Word := 0x2
def SPI_STATUS_RX_EMPTY : Word := 0x4

/-- The flag is clear in a STATUS word. -/
def clear (flag st : Word) : Bool := st &&& flag == 0

/-- A count below a bound does not wrap. -/
private theorem toNat_succ {a b : Word} (h : a < b) : (a + 1).toNat = a.toNat + 1 := by
  have hlt : a.toNat < b.toNat := h
  have hb := b.isLt
  have h1 : (1 : Word).toNat = 1 := rfl
  rw [BitVec.toNat_add, h1, Nat.mod_eq_of_lt (by omega)]

section Program

variable {τ : Type} (tx : Option (Word → Byte)) (rx : Bool) (len : Word)

/-- The byte sent at an index; without a buffer it is the filler. -/
def txByte (k : Word) : Byte := (tx.map fun b => b k).getD 0xFF

/-- The inner loop; `k` is what follows it. -/
def fill (popped : Word) (k : Word → SpiProg τ) (pushed : Word) : SpiProg τ :=
  if _h : pushed < len ∧ pushed - popped < 16 then
    .load REG_STATUS fun st =>
      if clear SPI_STATUS_TX_FULL st then
        .store REG_TXDATA ((txByte tx pushed).setWidth 32) (fill popped k (pushed + 1))
      else k pushed
  else k pushed
termination_by len.toNat - pushed.toNat
decreasing_by
  have hlt : pushed.toNat < len.toNat := _h.1
  have hsucc := toNat_succ _h.1
  omega

/-- What a pop adds to the received bytes. -/
def keep (v : Word) : List Byte := if rx then [(v &&& 0xFF).setWidth 8] else []

/-- The outer loop, with the bytes received so far. -/
def transfer (popped pushed : Word) (buf : List Byte) : SpiProg (List Byte) :=
  if _h : popped < len then
    fill tx len popped (fun pushed =>
      .poll REG_STATUS (clear SPI_STATUS_RX_EMPTY) <|
      .load REG_RXDATA fun v => transfer (popped + 1) pushed (buf ++ keep rx v)) pushed
  else .ret buf
termination_by len.toNat - popped.toNat
decreasing_by
  have hlt : popped.toNat < len.toNat := _h
  have hsucc := toNat_succ _h
  omega

/-- `spi_transfer_buf`: `tx` is none for a null pointer, `rx` false for a null pointer.  It returns what it has stored
through `rx`. -/
def spi_transfer_buf : SpiProg (List Byte) := transfer tx rx len 0 0 []

/-- The busy-wait and the pop behind the inner loop. -/
def drain (popped : Word) (buf : List Byte) (pushed : Word) : SpiProg (List Byte) :=
  .poll REG_STATUS (clear SPI_STATUS_RX_EMPTY) <|
  .load REG_RXDATA fun v => transfer tx rx len (popped + 1) pushed (buf ++ keep rx v)

variable {tx rx len} {popped pushed : Word} {buf : List Byte} {k : Word → SpiProg τ}

private theorem fill_push (h : pushed < len ∧ pushed - popped < 16) : fill tx len popped k pushed =
    .load REG_STATUS fun st =>
      if clear SPI_STATUS_TX_FULL st then
        .store REG_TXDATA ((txByte tx pushed).setWidth 32) (fill tx len popped k (pushed + 1))
      else k pushed := by
  rw [fill, dif_pos h]

private theorem fill_end (h : ¬(pushed < len ∧ pushed - popped < 16)) : fill tx len popped k pushed = k pushed := by
  rw [fill, dif_neg h]

private theorem transfer_more (h : popped < len) :
    transfer tx rx len popped pushed buf = fill tx len popped (drain tx rx len popped buf) pushed := by
  rw [transfer, dif_pos h]
  rfl

private theorem transfer_end (h : ¬popped < len) : transfer tx rx len popped pushed buf = .ret buf := by
  rw [transfer, dif_neg h]

end Program

/-! ### The wires -/

/-- A byte and the MISO samples taken for it. -/
abbrev Frame := Byte × List Bool

/-- What has gone over the wires: the bytes that are over, and the one being shifted. -/
structure Wires where
  arrived : List Frame
  flight : Option Frame

namespace Wires

def start : Wires := ⟨[], none⟩

/-- The engine begins a byte with the head of the TX FIFO, samples MISO into it, and ends it. -/
def next (f : Wires) (q : Spi 4 4) (miso : Bool) : Wires :=
  match q.stateQ with
  | .idle => if q.launch then { f with flight := some (q.tx.head, []) } else f
  | .shift => if q.sampleEdge then { f with flight := f.flight.map fun x => (x.1, x.2 ++ [miso]) } else f
  | .done => ⟨f.arrived ++ f.flight.toList, none⟩

/-- The bytes begun. -/
def begun (f : Wires) : List Frame := f.arrived ++ f.flight.toList

end Wires

/-- The byte assembled from the samples, the first one on top. -/
def Frame.assembled (x : Frame) : Byte := run 0 x.2

/-! ### Driver and engine in step -/

section Engine

/-- The samples of a byte before its tick `j`. -/
def taken (c : SckMode) (j : Nat) : Nat := if c.cpha then (j + 1) / 2 else j / 2

private theorem taken_zero (c : SckMode) : taken c 0 = 0 := by
  unfold taken
  split <;> rfl

private theorem taken_succ (c : SckMode) (j : Nat) :
    taken c (j + 1) = taken c j + (c.cpha ^^ decide (j % 2 = 1)).toNat := by
  unfold taken
  by_cases hj : j % 2 = 1
  · rw [decide_eq_true hj]
    cases c.cpha <;> simp <;> omega
  · rw [decide_eq_false hj]
    cases c.cpha <;> simp <;> omega

private theorem taken_last (c : SckMode) : taken c c.last = 7 ∧ (c.cpha ^^ decide (c.last % 2 = 1)) = true := by
  unfold taken SckMode.last
  cases c.cpha <;> decide

/-- The engine and the byte in flight. -/
inductive Phase (c : SckMode) : Option Frame → Spi 4 4 → Prop
  | idle {q} : q.stateQ = .idle → Phase c none q
  | shift {b bits j r q} : Beat c j q → j ≤ c.last → bits.length = taken c j → q.rxQ = run r bits →
      Phase c (some (b, bits)) q
  | done {b bits q} : q.stateQ = .done → bits.length = 8 → q.rxQ = run 0 bits → Phase c (some (b, bits)) q

private theorem Phase.of_idle {c : SckMode} {o : Option Frame} {q : Spi 4 4} (h : Phase c o q)
    (hi : q.stateQ = .idle) :
    o = none := by
  cases h with
  | idle => rfl
  | shift hb => exact absurd (hb.state.symm.trans hi) (by decide)
  | done hd => exact absurd (hd.symm.trans hi) (by decide)

private theorem Phase.of_shift {c : SckMode} {o : Option Frame} {q : Spi 4 4} (h : Phase c o q)
    (hi : q.stateQ = .shift) :
    ∃ b bits j r, o = some (b, bits) ∧ Beat c j q ∧ j ≤ c.last ∧ bits.length = taken c j ∧ q.rxQ = run r bits := by
  cases h with
  | idle hd => exact absurd (hd.symm.trans hi) (by decide)
  | shift hb hj hl hr => exact ⟨_, _, _, _, rfl, hb, hj, hl, hr⟩
  | done hd => exact absurd (hd.symm.trans hi) (by decide)

private theorem Phase.of_done {c : SckMode} {o : Option Frame} {q : Spi 4 4} (h : Phase c o q)
    (hi : q.stateQ = .done) :
    ∃ x, o = some x ∧ x.2.length = 8 ∧ q.rxQ = x.assembled := by
  cases h with
  | idle hd => exact absurd (hd.symm.trans hi) (by decide)
  | shift hb => exact absurd (hb.state.symm.trans hi) (by decide)
  | done _ hl hr => exact ⟨_, rfl, hl, hr⟩

/-- The bytes of `D` from `m` up to `p`. -/
def queued (D : Nat → Byte) (m p : Nat) : List Byte := (List.range' m (p - m)).map D

@[simp] theorem length_queued (D : Nat → Byte) (m p : Nat) : (queued D m p).length = p - m := by simp [queued]

private theorem queued_tail (D : Nat → Byte) (m p : Nat) : (queued D m p).tail = queued D (m + 1) p := by
  rw [queued, ← List.map_tail, List.tail_range', Nat.sub_sub]
  rfl

private theorem queued_push (D : Nat → Byte) {m p : Nat} (h : m ≤ p) :
    queued D m p ++ [D p] = queued D m (p + 1) := by
  rw [queued, queued, Nat.succ_sub h, List.range'_concat, List.map_append, Nat.one_mul, Nat.add_sub_cancel' h]
  rfl

/-- `p` bytes of `D` have been pushed and `n` popped. -/
structure Sync (c : SckMode) (D : Nat → Byte) (p n : Nat) (f : Wires) (q : Spi 4 4) : Prop where
  held : Held c q
  phase : Phase c f.flight q
  sent : f.begun.map Prod.fst = (List.range f.begun.length).map D
  full : ∀ x ∈ f.arrived, x.2.length = 8
  begun_le : f.begun.length ≤ p
  window : p ≤ n + 16
  tx : q.tx.Holds (queued D f.begun.length p)
  popped_le : n ≤ f.arrived.length
  rx : q.rx.Holds ((f.arrived.drop n).map Frame.assembled)

variable {c : SckMode} {D : Nat → Byte} {p n : Nat} {f : Wires} {q : Spi 4 4} {i : RegAccess (BitVec 3) Bool}

private theorem begun_length (f : Wires) : f.begun.length = f.arrived.length + f.flight.toList.length :=
  List.length_append

/-- A byte that ends finds room: it is itself one of the sixteen. -/
private theorem Sync.room (hs : Sync c D p n f q) (hd : q.stateQ = .done) : q.rx.full = false := by
  obtain ⟨x, hx, -⟩ := hs.phase.of_done hd
  have hflight : f.flight.toList.length = 1 := by rw [hx]; rfl
  have hlen := begun_length f
  have h1 := hs.begun_le
  have h2 := hs.window
  rw [← Bool.not_eq_true, hs.rx.full_iff, List.length_map, List.length_drop]
  omega

/-- A push finds room while fewer than sixteen bytes are under way. -/
private theorem Sync.tx_room (hs : Sync c D p n f q) (hp : p < n + 16) : q.tx.full = false := by
  have hlen := begun_length f
  have h1 := hs.begun_le
  have h2 := hs.popped_le
  rw [← Bool.not_eq_true, hs.tx.full_iff, length_queued]
  omega

/-- The TX FIFO at a clock edge. -/
private theorem tx_next {m : Nat} (h : q.tx.Holds (queued D m p)) (hm : m + q.launch.toNat ≤ p) {a : Option Byte}
    (ha : ∀ x, a = some x → x = D p ∧ p - m < 16) :
    (q.tx.step a q.launch).Holds (queued D (m + q.launch.toNat) (p + a.toList.length)) := by
  have hsome : q.launch = true → 0 < (queued D m p).length := by
    intro hq
    rw [hq, Bool.toNat_true] at hm
    rw [length_queued]
    omega
  have hfree : a.isSome = true → (queued D m p).length < 2 ^ 4 ∨ q.launch = true := by
    intro hpush
    obtain ⟨x, rfl⟩ := Option.isSome_iff_exists.mp hpush
    left
    rw [length_queued]
    exact (ha x rfl).2
  have hstep := h.step hsome hfree
  have hpop : (if q.launch then (queued D m p).tail else queued D m p) = queued D (m + q.launch.toNat) p := by
    cases q.launch with
    | false => rfl
    | true => exact queued_tail D m p
  rw [hpop] at hstep
  cases a with
  | none =>
    rw [Option.toList_none, List.append_nil] at hstep
    exact hstep
  | some x =>
    obtain ⟨rfl, -⟩ := ha x rfl
    rw [Option.toList_some, queued_push D hm] at hstep
    exact hstep

/-- The engine samples MISO in this cycle. -/
def samples (q : Spi 4 4) : Bool := q.stateQ == .shift && q.sampleEdge

private theorem next_rxQ (q : Spi 4 4) (i : RegAccess (BitVec 3) Bool) :
    (q.next i).rxQ = if samples q then shiftIn q.rxQ i.ext else q.rxQ := rfl

/-- The byte in flight at a clock edge of `ST_SHIFT`. -/
private theorem phase_shift (h : Phase c f.flight q) (hh : Held c q) (hst : q.stateQ = .shift) :
    Phase c (f.flight.map fun x => (x.1, x.2 ++ if q.sampleEdge then [i.ext] else [])) (q.next i) := by
  obtain ⟨b, bits, j, r, hfl, hb, hj, hlen, hr⟩ := h.of_shift hst
  rw [hfl, Option.map_some]
  have hrx : (q.next i).rxQ = run r (bits ++ if q.sampleEdge then [i.ext] else []) := by
    rw [next_rxQ, samples, hst, hr]
    cases q.sampleEdge with
    | false => simp
    | true =>
      rw [if_pos rfl, run_concat]
      rfl
  by_cases hd : q.divCntQ = 0
  · have hsamp := hb.sampleEdge hh hd
    have hcount : (bits ++ if q.sampleEdge then [i.ext] else []).length = taken c (j + 1) := by
      rw [List.length_append, hlen, taken_succ, hsamp]
      cases c.cpha ^^ decide (j % 2 = 1) <;> rfl
    rcases Nat.lt_or_eq_of_le hj with hlt | rfl
    · exact .shift (hb.tick hh hd hlt) hlt hcount hrx
    · have height : (bits ++ if q.sampleEdge then [i.ext] else []).length = 8 := by
        obtain ⟨h7, hodd⟩ := taken_last c
        rw [hcount, taken_succ, h7, hodd]
        rfl
      refine .done (hb.tick_last hh hd) height ?_
      rw [hrx]
      exact run_congr r 0 height
  · have hsamp : q.sampleEdge = false := by
      rw [sampleEdge, divTick, beq_eq_false_iff_ne.mpr hd, Bool.false_and]
    rw [hsamp, if_neg Bool.false_ne_true, List.append_nil] at hrx ⊢
    exact .shift (hb.count hh hd).1 hj hlen hrx

/-- One clock edge of the engine. -/
private theorem phase_next (h : Phase c f.flight q) (hh : Held c q) : Phase c (f.next q i.ext).flight (q.next i) := by
  cases hst : q.stateQ with
  | idle =>
    have hnone := h.of_idle hst
    cases hl : q.launch with
    | false =>
      have hstay : (q.next i).stateQ = .idle := by simp [Spi.next, stateD, hst, hl]
      rw [Wires.next, hst, hl, if_neg Bool.false_ne_true, hnone]
      exact .idle hstay
    | true =>
      rw [Wires.next, hst, hl]
      exact .shift (next_launch hh hl) (Nat.zero_le _) (taken_zero c).symm rfl
  | shift =>
    have hsh := phase_shift (i := i) h hh hst
    rw [Wires.next, hst]
    cases hs : q.sampleEdge with
    | false =>
      rw [hs] at hsh
      simpa using hsh
    | true =>
      rw [hs] at hsh
      exact hsh
  | done =>
    have hidle : (q.next i).stateQ = .idle := by simp [Spi.next, stateD, hst]
    rw [Wires.next, hst]
    exact .idle hidle

private theorem begun_next (h : Phase c f.flight q) (miso : Bool) :
    (f.next q miso).begun.map Prod.fst = f.begun.map Prod.fst ++ if q.launch then [q.tx.head] else [] := by
  unfold Wires.next Wires.begun
  cases hst : q.stateQ with
  | idle =>
    have hnone := h.of_idle hst
    cases hl : q.launch with
    | false => simp
    | true => simp [hnone]
  | shift =>
    have hl : q.launch = false := by simp [launch, hst]
    obtain ⟨b, bits, j, r, hfl, -⟩ := h.of_shift hst
    rw [hl]
    cases q.sampleEdge with
    | false => simp
    | true => simp [hfl]
  | done =>
    have hl : q.launch = false := by simp [launch, hst]
    simp [hl]

private theorem arrived_next (f : Wires) (q : Spi 4 4) (miso : Bool) :
    (f.next q miso).arrived = f.arrived ++ if q.byteDone then f.flight.toList else [] := by
  unfold Wires.next byteDone
  cases hst : q.stateQ with
  | idle => cases q.launch <;> simp
  | shift => cases q.sampleEdge <;> simp
  | done => simp

/-- The byte begun is the next one of `D`. -/
private theorem Sync.launched (hs : Sync c D p n f q) (hl : q.launch = true) :
    f.begun.length < p ∧ q.tx.head = D f.begun.length := by
  have hne : q.tx.empty ≠ true := by
    intro he
    simp [launch, he] at hl
  rw [Ne, hs.tx.empty_iff] at hne
  have hpos := List.length_pos_of_ne_nil hne
  refine ⟨by simpa using hpos, ?_⟩
  rw [hs.tx.head hpos]
  simp [queued]

/-- The byte that arrives is pushed. -/
private theorem Sync.rxPush (hs : Sync c D p n f q) :
    q.rxPush.toList = (if q.byteDone then f.flight.toList else []).map Frame.assembled := by
  unfold Spi.rxPush
  cases hd : q.byteDone with
  | false => rfl
  | true =>
    have hst : q.stateQ = .done := beq_iff_eq.mp hd
    obtain ⟨x, hx, -, hrx⟩ := hs.phase.of_done hst
    rw [hs.room hst, hx, hrx]
    rfl

/-- One clock edge of driver and engine. -/
private theorem Sync.next (hs : Sync c D p n f q) (hh : Held c (q.next i))
    (hpush : ∀ x, q.txPush i = some x → x = D p ∧ p < n + 16) (hpop : q.rxPop i = true → n < f.arrived.length) :
    Sync c D (p + (q.txPush i).toList.length) (n + (q.rxPop i).toNat) (f.next q i.ext) (q.next i) := by
  have hbegun := begun_next hs.phase i.ext
  have harrived := arrived_next f q i.ext
  have hcount : (f.next q i.ext).begun.length = f.begun.length + q.launch.toNat := by
    rw [← List.length_map (f := Prod.fst), hbegun, List.length_append, List.length_map]
    cases q.launch <;> rfl
  have hroom : f.begun.length + q.launch.toNat ≤ p := by
    cases hl : q.launch with
    | false => exact hs.begun_le
    | true => exact (hs.launched hl).1
  have hone : ∀ x, q.txPush i = some x → (q.txPush i).toList.length = 1 := by
    intro x hx
    rw [hx]
    rfl
  have hflight := begun_length f
  have hle := hs.popped_le
  refine ⟨hh, phase_next hs.phase hs.held, ?_, ?_, ?_, ?_, ?_, ?_, ?_⟩
  · rw [hbegun, hcount, hs.sent]
    cases hl : q.launch with
    | false => simp
    | true => simp [(hs.launched hl).2, List.range_succ]
  · rw [harrived]
    intro x hx
    rcases List.mem_append.mp hx with hx | hx
    · exact hs.full x hx
    · cases hd : q.byteDone with
      | false => simp [hd] at hx
      | true =>
        obtain ⟨y, hy, hlen, -⟩ := hs.phase.of_done (beq_iff_eq.mp hd)
        rw [hd, hy] at hx
        obtain rfl : x = y := by simpa using hx
        exact hlen
  · rw [hcount]
    omega
  · have hw := hs.window
    cases hx : q.txPush i with
    | none =>
      rw [Option.toList_none, List.length_nil]
      omega
    | some x =>
      have := (hpush x hx).2
      rw [Option.toList_some, List.length_singleton]
      omega
  · rw [hcount]
    exact tx_next hs.tx hroom fun x hx => ⟨(hpush x hx).1, by have := (hpush x hx).2; omega⟩
  · rw [harrived, List.length_append]
    cases hp : q.rxPop i with
    | false =>
      rw [Bool.toNat_false]
      omega
    | true =>
      have := hpop hp
      rw [Bool.toNat_true]
      omega
  · have hsome : q.rxPop i = true → 0 < ((f.arrived.drop n).map Frame.assembled).length := by
      intro hp
      have := hpop hp
      rw [List.length_map, List.length_drop]
      omega
    have hfree : q.rxPush.isSome = true →
        ((f.arrived.drop n).map Frame.assembled).length < 2 ^ 4 ∨ q.rxPop i = true := by
      intro hpush
      left
      unfold Spi.rxPush at hpush
      cases hfull : q.rx.full with
      | true => simp [hfull] at hpush
      | false =>
        rw [← Bool.not_eq_true, hs.rx.full_iff] at hfull
        exact Nat.lt_of_le_of_ne hs.rx.length_le hfull
    have hstep := hs.rx.step hsome hfree
    have hlist : ((f.next q i.ext).arrived.drop (n + (q.rxPop i).toNat)).map Frame.assembled =
        (if q.rxPop i then ((f.arrived.drop n).map Frame.assembled).tail
          else (f.arrived.drop n).map Frame.assembled) ++ q.rxPush.toList := by
      rw [harrived, hs.rxPush]
      cases hp : q.rxPop i with
      | false =>
        rw [Bool.toNat_false, Nat.add_zero, List.drop_append_of_le_length hle, List.map_append,
          if_neg Bool.false_ne_true]
      | true =>
        rw [Bool.toNat_true, List.drop_append_of_le_length (hpop hp), List.map_append, if_pos rfl, ← List.map_tail,
          List.tail_drop]
    rw [hlist]
    exact hstep

/-- The last tick of a byte comes. -/
private theorem exists_done {s : Spi 4 4} {acc : Nat → RegAccess (BitVec 3) Bool}
    (hh : ∀ u, Held c (spiAt s acc u)) (m : Nat) :
    ∀ {t j : Nat}, Beat c j (spiAt s acc t) → j ≤ c.last →
      (c.last - j) * 65536 + (spiAt s acc t).divCntQ.toNat < m → ∃ u, t ≤ u ∧ (spiAt s acc u).stateQ = .done := by
  induction m with
  | zero => intro t j _ _ hm; omega
  | succ m ih =>
    intro t j hb hj hm
    by_cases hd : (spiAt s acc t).divCntQ = 0
    · rcases Nat.lt_or_eq_of_le hj with hlt | rfl
      · have hlow := (spiAt s acc (t + 1)).divCntQ.isLt
        obtain ⟨k, hk⟩ : ∃ k, c.last - j = k + 1 := ⟨c.last - j - 1, by omega⟩
        have hk' : c.last - (j + 1) = k := by omega
        rw [hk, Nat.succ_mul] at hm
        have hrank : (c.last - (j + 1)) * 65536 + (spiAt s acc (t + 1)).divCntQ.toNat < m := by
          rw [hk']
          linarith only [hm, hlow]
        obtain ⟨u, hu, hdone⟩ := ih (t := t + 1) (hb.tick (hh t) hd hlt) hlt hrank
        exact ⟨u, by omega, hdone⟩
      · exact ⟨t + 1, by omega, hb.tick_last (hh t) hd⟩
    · obtain ⟨hb', hd'⟩ := hb.count (i := acc t) (hh t) hd
      have hfall : (spiAt s acc (t + 1)).divCntQ.toNat < (spiAt s acc t).divCntQ.toNat := by
        have h1 : (1 : BitVec 16).toNat = 1 := rfl
        have hwide := (spiAt s acc t).divCntQ.isLt
        have hne : (spiAt s acc t).divCntQ.toNat ≠ 0 := by
          intro hz
          exact hd (BitVec.eq_of_toNat_eq hz)
        rw [spiAt_succ, hd', BitVec.toNat_sub, h1]
        omega
      obtain ⟨u, hu, hdone⟩ := ih (t := t + 1) hb' hj (by omega)
      exact ⟨u, by omega, hdone⟩

end Engine

/-! ### Runs -/

section Run

variable (tx : Option (Word → Byte)) (rx : Bool) (len : Word) (s : PortDev (Spi 4 4)) (inp : Nat → HostIn Bool)

/-- The call and its device. -/
abbrev start : Host (BitVec 3) Word (List Byte) (PortDev (Spi 4 4)) := ⟨spi_transfer_buf tx rx len, s⟩

/-- The call before cycle `t`. -/
abbrev callAt (t : Nat) : SpiProg (List Byte) := progAt (portTarget device) (start tx rx len s) inp t

/-- The SPI block before cycle `t`. -/
abbrev blockAt (t : Nat) : Spi 4 4 := coreAt device (start tx rx len s) inp t

/-- What has gone over the wires before cycle `t`. -/
def wiresAt (t : Nat) : Wires :=
  companion (fun f h i => f.next h.dev.core i.ext) (Host.next (portTarget device)) Wires.start
    (start tx rx len s) inp t

/-- The access of cycle `t`. -/
abbrev issuedAt (t : Nat) : Option (Access (BitVec 3) Word) := issued (portTarget device) (start tx rx len s) inp t

/-- The stores before cycle `t`. -/
abbrev storesAt (t : Nat) : List (BitVec 3 × Word) := storeLog (portTarget device) (start tx rx len s) inp t

/-- The mode the transfer is made under. -/
def mode : SckMode := ⟨s.core.cpolQ, s.core.cphaQ, s.core.clkdivQ⟩

/-- The byte sent at an index. -/
def sentAt (k : Nat) : Byte := txByte tx (BitVec.ofNat 32 k)

/-- The store of the byte at an index. -/
def storeAt (k : Nat) : BitVec 3 × Word := (REG_TXDATA, (sentAt tx k).setWidth 32)

/-- `p` bytes pushed and `n` popped, in step with the engine. -/
structure InStep (p n : Word) (b : List Byte) (t : Nat) : Prop where
  popped_le : n.toNat ≤ p.toNat
  pushed_le : p.toNat ≤ len.toNat
  sync : Sync (mode s) (sentAt tx) p.toNat n.toNat (wiresAt tx rx len s inp t) (blockAt tx rx len s inp t)
  buf : b = if rx then ((wiresAt tx rx len s inp t).arrived.take n.toNat).map Frame.assembled else []
  log : storesAt tx rx len s inp t = (List.range p.toNat).map (storeAt tx)

variable {tx rx len s inp} {p n : Word} {b : List Byte} {t : Nat}

private theorem wiresAt_succ (t : Nat) : wiresAt tx rx len s inp (t + 1) =
    (wiresAt tx rx len s inp t).next (blockAt tx rx len s inp t) (inp t).ext := rfl

private theorem storesAt_succ (t : Nat) : storesAt tx rx len s inp (t + 1) =
    storesAt tx rx len s inp t ++ ((issuedAt tx rx len s inp t).bind Access.stored).toList := storeLog_succ t

private theorem blockAt_succ (t : Nat) : blockAt tx rx len s inp (t + 1) =
    (blockAt tx rx len s inp t).next (regAccess (inp t).ext (issuedAt tx rx len s inp t)) := rfl

/-- The settings survive every access but a store to CTRL or CLKDIV. -/
private theorem held_next {c : SckMode} {q : Spi 4 4} (hh : Held c q) (e : Bool) {a : Option (Access (BitVec 3) Word)}
    (ha : ∀ r v, a = some (.store r v) → r = REG_TXDATA) : Held c (q.next (regAccess e a)) := by
  cases a with
  | none => exact ⟨hh.enable, hh.cpol, hh.cpha, hh.clkdiv⟩
  | some a =>
    cases a with
    | load r => exact ⟨hh.enable, hh.cpol, hh.cpha, hh.clkdiv⟩
    | store r v =>
      obtain rfl := ha r v rfl
      have hctrl : (regAccess e (some (.store REG_TXDATA v))).wrAt REG_CTRL = none :=
        RegAccess.wrAt_eq_none (by decide) v 0xF none e
      have hdiv : (regAccess e (some (.store REG_TXDATA v))).wrAt REG_CLKDIV = none :=
        RegAccess.wrAt_eq_none (by decide) v 0xF none e
      have hbit : ∀ k x, (regAccess e (some (.store REG_TXDATA v))).ctrlBit REG_CTRL k x = x := by
        intro k x
        rw [RegAccess.ctrlBit, hctrl]
        rfl
      refine ⟨(hbit 0 _).trans hh.enable, (hbit 1 _).trans hh.cpol, (hbit 2 _).trans hh.cpha, ?_⟩
      change (((regAccess e (some (.store REG_TXDATA v))).wrAt REG_CLKDIV).map _).getD _ = _
      rw [hdiv]
      exact hh.clkdiv

private theorem take_arrived (f : Wires) (q : Spi 4 4) (miso : Bool) {m : Nat} (hm : m ≤ f.arrived.length) :
    (f.next q miso).arrived.take m = f.arrived.take m := by
  rw [arrived_next, List.take_append_of_le_length hm]

/-- Driver and engine stay in step under the access of a cycle. -/
private theorem sync_succ {m k : Nat} {a : Option (Access (BitVec 3) Word)} {x : Option Byte} {strobe : Bool}
    (hs : Sync (mode s) (sentAt tx) m k (wiresAt tx rx len s inp t) (blockAt tx rx len s inp t))
    (ha : issuedAt tx rx len s inp t = a) (hr : ∀ r v, a = some (.store r v) → r = REG_TXDATA)
    (hx : (blockAt tx rx len s inp t).txPush (regAccess (inp t).ext a) = x)
    (hpush : ∀ y, x = some y → y = sentAt tx m ∧ m < k + 16)
    (hstrobe : (blockAt tx rx len s inp t).rxPop (regAccess (inp t).ext a) = strobe)
    (hpop : strobe = true → k < (wiresAt tx rx len s inp t).arrived.length) :
    Sync (mode s) (sentAt tx) (m + x.toList.length) (k + strobe.toNat) (wiresAt tx rx len s inp (t + 1))
      (blockAt tx rx len s inp (t + 1)) := by
  subst hx hstrobe
  have hnext := hs.next (held_next hs.held (inp t).ext hr) hpush hpop
  rw [regAccess_ext] at hnext
  rw [wiresAt_succ, blockAt_succ, ha]
  exact hnext

/-- A cycle without a push and a pop. -/
private theorem InStep.stay (h : InStep tx rx len s inp p n b t)
    (ha : issuedAt tx rx len s inp t = none ∨ issuedAt tx rx len s inp t = some (.load REG_STATUS)) :
    InStep tx rx len s inp p n b (t + 1) := by
  have hsync : Sync (mode s) (sentAt tx) p.toNat n.toNat (wiresAt tx rx len s inp (t + 1))
      (blockAt tx rx len s inp (t + 1)) := by
    rcases ha with ha | ha
    · exact @sync_succ tx rx len s inp t _ _ _ _ false h.sync ha (by simp) (ite_self none) (by simp) rfl (by simp)
    · exact @sync_succ tx rx len s inp t _ _ _ _ false h.sync ha (by simp) (ite_self none) (by simp) rfl (by simp)
  refine ⟨h.popped_le, h.pushed_le, hsync, ?_, ?_⟩
  · rw [wiresAt_succ, take_arrived _ _ _ h.sync.popped_le]
    exact h.buf
  · rw [storesAt_succ, h.log]
    rcases ha with ha | ha
    · rw [ha]
      exact List.append_nil _
    · rw [ha]
      exact List.append_nil _

private theorem sentAt_toNat (tx : Option (Word → Byte)) (p : Word) : sentAt tx p.toNat = txByte tx p := by
  unfold sentAt
  rw [BitVec.ofNat_toNat, BitVec.setWidth_eq]

private theorem narrow_widen (x : Byte) : (x.setWidth 32).setWidth 8 = x := by
  rw [BitVec.setWidth_setWidth_of_le _ (by decide), BitVec.setWidth_eq]

/-- A push. -/
private theorem InStep.push (h : InStep tx rx len s inp p n b t) (hp : p < len) (hw : p.toNat < n.toNat + 16)
    (ha : issuedAt tx rx len s inp t = some (.store REG_TXDATA ((txByte tx p).setWidth 32))) :
    InStep tx rx len s inp (p + 1) n b (t + 1) := by
  have hpush : (blockAt tx rx len s inp t).txPush
      (regAccess (inp t).ext (some (.store REG_TXDATA ((txByte tx p).setWidth 32)))) = some (sentAt tx p.toNat) := by
    rw [txPush, h.sync.tx_room hw, sentAt_toNat, if_neg Bool.false_ne_true, wrAt_store]
    exact congrArg some (narrow_widen _)
  have hsync : Sync (mode s) (sentAt tx) (p.toNat + 1) n.toNat (wiresAt tx rx len s inp (t + 1))
      (blockAt tx rx len s inp (t + 1)) := by
    refine @sync_succ tx rx len s inp t _ _ _ _ false h.sync ha ?_ hpush ?_ rfl (by simp)
    · intro r v hv
      cases hv
      rfl
    · intro y hy
      cases hy
      exact ⟨rfl, hw⟩
  have hsucc := toNat_succ hp
  have hlt : p.toNat < len.toNat := hp
  have hle := h.popped_le
  refine ⟨?_, ?_, ?_, ?_, ?_⟩
  · omega
  · omega
  · rw [hsucc]
    exact hsync
  · rw [wiresAt_succ, take_arrived _ _ _ h.sync.popped_le]
    exact h.buf
  · rw [storesAt_succ, h.log, hsucc, List.range_succ, List.map_append, ha]
    congr 1
    rw [List.map_singleton, storeAt, sentAt_toNat]
    rfl

/-- A pop. -/
private theorem InStep.pop (h : InStep tx rx len s inp p n b t) (hn : n < p)
    (hgot : n.toNat < (wiresAt tx rx len s inp t).arrived.length)
    (ha : issuedAt tx rx len s inp t = some (.load REG_RXDATA)) :
    InStep tx rx len s inp p (n + 1) (b ++ keep rx ((blockAt tx rx len s inp t).read REG_RXDATA)) (t + 1) := by
  have hdrop : 0 < (((wiresAt tx rx len s inp t).arrived.drop n.toNat).map Frame.assembled).length := by
    rw [List.length_map, List.length_drop]
    omega
  have hne : (blockAt tx rx len s inp t).rx.empty = false := by
    rw [← Bool.not_eq_true, h.sync.rx.empty_iff, ← List.length_eq_zero_iff]
    omega
  have hpop : (blockAt tx rx len s inp t).rxPop (regAccess (inp t).ext (some (.load REG_RXDATA))) = true := by
    rw [rxPop, hne]
    rfl
  have hsync := sync_succ h.sync ha (by simp) (ite_self none) (by simp) hpop (fun _ => hgot)
  have hsucc := toNat_succ hn
  have hlt : n.toNat < p.toNat := hn
  refine ⟨?_, h.pushed_le, ?_, ?_, ?_⟩
  · omega
  · rw [hsucc]
    exact hsync
  · have hread : (blockAt tx rx len s inp t).read REG_RXDATA = (blockAt tx rx len s inp t).rx.head.setWidth 32 := by
      change (if (blockAt tx rx len s inp t).rx.empty then 0 else _) = _
      rw [hne]
      rfl
    have hmask : ∀ x : Byte, ((x.setWidth 32 &&& (0xFF : Word)).setWidth 8) = x := by decide +kernel
    rw [hread, h.sync.rx.head hdrop, wiresAt_succ, hsucc, take_arrived _ _ _ hgot, h.buf, keep]
    cases rx with
    | false => rfl
    | true =>
      simp only [if_true, List.getElem_map, List.getElem_drop, Nat.add_zero, hmask]
      rw [← List.take_concat_get' _ _ hgot, List.map_append]
      rfl
  · rw [storesAt_succ, h.log, ha]
    exact List.append_nil _

/-! ### The way through the call -/

/-- What the call does next. -/
inductive Leg
  | status | store | wait | pop | ret
  deriving DecidableEq

/-- Where the call is. -/
structure Spot where
  leg : Leg
  popped : Word
  pushed : Word
  buf : List Byte

variable (tx rx len) in
/-- The call from a spot on. -/
def Spot.prog (x : Spot) : SpiProg (List Byte) :=
  match x.leg with
  | .status => .load REG_STATUS fun st =>
      if clear SPI_STATUS_TX_FULL st then
        .store REG_TXDATA ((txByte tx x.pushed).setWidth 32)
          (fill tx len x.popped (drain tx rx len x.popped x.buf) (x.pushed + 1))
      else drain tx rx len x.popped x.buf x.pushed
  | .store => .store REG_TXDATA ((txByte tx x.pushed).setWidth 32)
      (fill tx len x.popped (drain tx rx len x.popped x.buf) (x.pushed + 1))
  | .wait => drain tx rx len x.popped x.buf x.pushed
  | .pop => .load REG_RXDATA fun v => transfer tx rx len (x.popped + 1) x.pushed (x.buf ++ keep rx v)
  | .ret => .ret x.buf

/-- What the call knows at a spot, when `m` bytes have arrived. -/
def Spot.Knows (len : Word) (m : Nat) (x : Spot) : Prop :=
  match x.leg with
  | .status | .store => x.pushed < len ∧ x.pushed.toNat < x.popped.toNat + 16
  | .wait => x.popped < x.pushed
  | .pop => x.popped < x.pushed ∧ x.popped.toNat < m
  | .ret => x.popped = len

/-- The steps before the next push or pop. -/
def Leg.rank : Leg → Nat
  | .status => 3
  | .store => 2
  | .wait => 1
  | .pop => 0
  | .ret => 0

private theorem Leg.rank_le (l : Leg) : l.rank ≤ 3 := by cases l <;> decide

/-- The pushes and pops still to come, and the steps before the next one. -/
def Spot.rank (len : Word) (x : Spot) : Nat :=
  4 * (2 * len.toNat - x.popped.toNat - x.pushed.toNat) + x.leg.rank

/-- The window test, on counts that do not wrap. -/
private theorem window_iff (h : n.toNat ≤ p.toNat) : p - n < 16 ↔ p.toNat < n.toNat + 16 := by
  have h16 : (16 : Word).toNat = 16 := rfl
  rw [BitVec.lt_def, BitVec.toNat_sub_of_le h, h16]
  omega

/-- The inner loop goes on to a push or to the busy-wait. -/
private theorem exists_spot_fill (h : n.toNat ≤ p.toNat) (hn : n < len) (m : Nat) (b : List Byte) :
    ∃ x : Spot, x.prog tx rx len = fill tx len n (drain tx rx len n b) p ∧ x.popped = n ∧ x.pushed = p ∧ x.buf = b ∧
      x.Knows len m := by
  have hlt : n.toNat < len.toNat := hn
  by_cases hpush : p < len ∧ p - n < 16
  · refine ⟨⟨.status, n, p, b⟩, ?_, rfl, rfl, rfl, ⟨hpush.1, (window_iff h).mp hpush.2⟩⟩
    rw [fill_push hpush]
    rfl
  · refine ⟨⟨.wait, n, p, b⟩, ?_, rfl, rfl, rfl, ?_⟩
    · rw [fill_end hpush]
      rfl
    · rw [window_iff h, BitVec.lt_def] at hpush
      change n.toNat < p.toNat
      omega

private theorem exists_spot (h : n.toNat ≤ p.toNat) (hp : p.toNat ≤ len.toNat) (m : Nat) (b : List Byte) :
    ∃ x : Spot, x.prog tx rx len = transfer tx rx len n p b ∧ x.popped = n ∧ x.pushed = p ∧ x.buf = b ∧
      x.Knows len m := by
  by_cases hn : n < len
  · rw [transfer_more hn]
    exact exists_spot_fill h hn m b
  · refine ⟨⟨.ret, n, p, b⟩, ?_, rfl, rfl, rfl, ?_⟩
    · rw [transfer_end hn]
      rfl
    · rw [BitVec.lt_def] at hn
      change n = len
      exact BitVec.eq_of_toNat_eq (by omega)

variable (tx rx len s inp) in
/-- The call is at a spot before cycle `t`. -/
structure At (t : Nat) (x : Spot) : Prop where
  prog : callAt tx rx len s inp t = x.prog tx rx len
  knows : x.Knows len (wiresAt tx rx len s inp t).arrived.length
  step : InStep tx rx len s inp x.pushed x.popped x.buf t

variable (tx rx len s inp) in
/-- Nothing happens at the spot in cycle `t`. -/
def Stalled (t : Nat) (x : Spot) : Prop :=
  issuedAt tx rx len s inp t = none ∨ (x.leg = .wait ∧ (blockAt tx rx len s inp t).rx.empty = true)

/-- A flag of STATUS as the driver tests it. -/
private theorem clear_status (q : Spi 4 4) :
    clear SPI_STATUS_TX_FULL (q.read REG_STATUS) = !q.tx.full ∧
      clear SPI_STATUS_RX_EMPTY (q.read REG_STATUS) = !q.rx.empty := by
  change clear SPI_STATUS_TX_FULL q.status = _ ∧ clear SPI_STATUS_RX_EMPTY q.status = _
  unfold status clear
  generalize q.irqOvrQ = a, q.rx.full = b, q.tx.empty = c, q.rx.empty = d, q.tx.full = e, q.busy = f
  revert a b c d e f
  decide

private theorem Spot.Knows.mono {x : Spot} {m m' : Nat} (h : x.Knows len m) (hm : m ≤ m') : x.Knows len m' := by
  unfold Spot.Knows at h ⊢
  cases hl : x.leg with
  | pop =>
    rw [hl] at h
    exact ⟨h.1, h.2.trans_le hm⟩
  | status | store | wait | ret =>
    rw [hl] at h
    exact h

private theorem arrived_mono (t : Nat) :
    (wiresAt tx rx len s inp t).arrived.length ≤ (wiresAt tx rx len s inp (t + 1)).arrived.length := by
  rw [wiresAt_succ, arrived_next, List.length_append]
  omega

/-- A received byte waits in the RX FIFO. -/
private theorem Sync.arrived_of {c : SckMode} {D : Nat → Byte} {m k : Nat} {f : Wires} {q : Spi 4 4}
    (h : Sync c D m k f q) :
    k < f.arrived.length ↔ q.rx.empty = false := by
  rw [← Bool.not_eq_true, h.rx.empty_iff, ← List.length_eq_zero_iff, List.length_map, List.length_drop]
  omega

/-- One cycle of the call: it stays where it is, or comes nearer to its end. -/
private theorem At.next {x : Spot} (h : At tx rx len s inp t x) :
    ∃ y, At tx rx len s inp (t + 1) y ∧ (y = x ∧ Stalled tx rx len s inp t x ∨ y.rank len < x.rank len) := by
  obtain ⟨hprog, hknows, hstep⟩ := h
  have hle := hstep.popped_le
  have hlen := hstep.pushed_le
  cases hi : issuedAt tx rx len s inp t with
  | none =>
    exact ⟨x, ⟨(progAt_of_none hi).trans hprog, hknows.mono (arrived_mono t), hstep.stay (.inl hi)⟩,
      .inl ⟨rfl, .inl hi⟩⟩
  | some a =>
    obtain ⟨leg, n, p, b⟩ := x
    cases leg with
    | status =>
      obtain ⟨rfl, hp⟩ := of_issued_load hi hprog
      have hclear : clear SPI_STATUS_TX_FULL
          (Driver.answer (portTarget device) (start tx rx len s) inp t REG_STATUS) = true := by
        refine (clear_status (blockAt tx rx len s inp t)).1.trans ?_
        rw [hstep.sync.tx_room hknows.2]
        rfl
      rw [hclear, if_pos rfl] at hp
      exact ⟨⟨.store, n, p, b⟩, ⟨hp, hknows, hstep.stay (.inr hi)⟩, .inr (Nat.lt_succ_self _)⟩
    | store =>
      obtain ⟨rfl, hp⟩ := of_issued_store hi hprog
      have hpush := hstep.push hknows.1 hknows.2 hi
      have hlt : p.toNat < len.toNat := hknows.1
      have hsucc : (p + 1).toNat = p.toNat + 1 := toNat_succ hknows.1
      have hn : n < len := Nat.lt_of_le_of_lt hle hlt
      obtain ⟨y, hy, rfl, hyp, rfl, hyk⟩ := @exists_spot_fill tx rx len (p + 1) n hpush.popped_le hn _ b
      refine ⟨y, ⟨hp.trans hy.symm, hyk, hyp ▸ hpush⟩, .inr ?_⟩
      have hrank := y.leg.rank_le
      change y.popped.toNat ≤ p.toNat at hle
      rw [Spot.rank, hyp, hsucc]
      change _ < 4 * (2 * len.toNat - y.popped.toNat - p.toNat) + 2
      omega
    | wait =>
      obtain ⟨rfl, hp⟩ := of_issued_poll hi hprog
      have hans := (clear_status (blockAt tx rx len s inp t)).2
      change clear SPI_STATUS_RX_EMPTY (Driver.answer (portTarget device) (start tx rx len s) inp t REG_STATUS) =
        _ at hans
      rw [hans] at hp
      cases he : (blockAt tx rx len s inp t).rx.empty with
      | true =>
        rw [he] at hp
        exact ⟨⟨.wait, n, p, b⟩, ⟨hp, hknows, hstep.stay (.inr hi)⟩, .inl ⟨rfl, .inr ⟨rfl, he⟩⟩⟩
      | false =>
        rw [he] at hp
        have hgot := (hstep.sync.arrived_of.mpr he).trans_le (arrived_mono t)
        exact ⟨⟨.pop, n, p, b⟩, ⟨hp, ⟨hknows, hgot⟩, hstep.stay (.inr hi)⟩, .inr (Nat.lt_succ_self _)⟩
    | pop =>
      obtain ⟨rfl, hp⟩ := of_issued_load hi hprog
      have hpop := hstep.pop hknows.1 hknows.2 hi
      have hlt : n.toNat < p.toNat := hknows.1
      have hsucc : (n + 1).toNat = n.toNat + 1 := toNat_succ hknows.1
      obtain ⟨y, hy, hyn, rfl, hyb, hyk⟩ := @exists_spot tx rx len p (n + 1) hpop.popped_le hpop.pushed_le _
        (b ++ keep rx ((blockAt tx rx len s inp t).read REG_RXDATA))
      refine ⟨y, ⟨hp.trans hy.symm, hyk, hyn ▸ hyb ▸ hpop⟩, .inr ?_⟩
      have hrank := y.leg.rank_le
      change y.pushed.toNat ≤ len.toNat at hlen
      rw [Spot.rank, hyn, hsucc]
      change _ < 4 * (2 * len.toNat - n.toNat - y.pushed.toNat) + 0
      omega
    | ret =>
      rw [issuedAt, issued, Host.issue_ret hprog] at hi
      cases hi

private theorem at_start (hen : s.core.enableQ = true) (hidle : s.core.stateQ = .idle) (htx : s.core.tx.empty = true)
    (hrx : s.core.rx.empty = true) : ∃ x, At tx rx len s inp 0 x := by
  have hsync : Sync (mode s) (sentAt tx) 0 0 Wires.start s.core := by
    refine ⟨⟨hen, rfl, rfl, rfl⟩, .idle hidle, rfl, ?_, le_rfl, by
      decide, Fifo.holds_nil htx, le_rfl, Fifo.holds_nil hrx⟩
    intro x hx
    cases hx
  have hstep : InStep tx rx len s inp 0 0 [] 0 := by
    refine ⟨le_rfl, Nat.zero_le _, hsync, ?_, rfl⟩
    cases rx <;> rfl
  obtain ⟨x, hx, hn, hp, hb, hk⟩ := @exists_spot tx rx len 0 0 le_rfl (Nat.zero_le _) 0 []
  refine ⟨x, hx.symm, hk, ?_⟩
  rw [hn, hp, hb]
  exact hstep

private theorem at_run (h0 : ∃ x, At tx rx len s inp 0 x) (t : Nat) : ∃ x, At tx rx len s inp t x := by
  induction t with
  | zero => exact h0
  | succ t ih =>
    obtain ⟨x, hx⟩ := ih
    obtain ⟨y, hy, -⟩ := hx.next
    exact ⟨y, hy⟩

/-- While a byte is pushed and not popped, one arrives. -/
private theorem exists_arrival (h0 : ∃ x, At tx rx len s inp 0 x) (hnp : n.toNat < p.toNat)
    (hall : ∀ u, t ≤ u → InStep tx rx len s inp p n b u) :
    ∃ u, t ≤ u ∧ n.toNat < (wiresAt tx rx len s inp u).arrived.length := by
  have htrace : ∀ u, blockAt tx rx len s inp u = spiAt s.core (accessAt device (start tx rx len s) inp) u :=
    coreAt_eq_trace
  have hheld : ∀ u, Held (mode s) (spiAt s.core (accessAt device (start tx rx len s) inp) u) := by
    intro u
    obtain ⟨x, hx⟩ := at_run h0 u
    rw [← htrace]
    exact hx.step.sync.held
  have hshift : ∀ u j, t ≤ u → Beat (mode s) j (blockAt tx rx len s inp u) → j ≤ (mode s).last →
      ∃ v, t ≤ v ∧ (blockAt tx rx len s inp v).stateQ = .done := by
    intro u j hu hb hj
    rw [htrace] at hb
    obtain ⟨v, hv, hdone⟩ := exists_done hheld _ hb hj (Nat.lt_succ_self _)
    exact ⟨v, by omega, by rw [htrace]; exact hdone⟩
  by_contra hno
  push Not at hno
  obtain ⟨v, hv, hdone⟩ : ∃ v, t ≤ v ∧ (blockAt tx rx len s inp v).stateQ = .done := by
    have hs := (hall t le_rfl).sync
    cases hst : (blockAt tx rx len s inp t).stateQ with
    | idle =>
      have hfew := hno t le_rfl
      have hbegun := begun_length (wiresAt tx rx len s inp t)
      rw [hs.phase.of_idle hst, Option.toList_none, List.length_nil, Nat.add_zero] at hbegun
      have hne : (blockAt tx rx len s inp t).tx.empty = false := by
        rw [← Bool.not_eq_true, hs.tx.empty_iff, ← List.length_eq_zero_iff, length_queued]
        omega
      have hl : (blockAt tx rx len s inp t).launch = true := by
        rw [launch, hst, hs.held.enable, hne]
        rfl
      exact hshift (t + 1) 0 (by omega) (next_launch hs.held hl) (Nat.zero_le _)
    | shift =>
      obtain ⟨_, _, j, _, _, hb, hj, -⟩ := hs.phase.of_shift hst
      exact hshift t j le_rfl hb hj
    | done => exact ⟨t, le_rfl, hst⟩
  have hs := (hall v hv).sync
  obtain ⟨x, hx, -⟩ := hs.phase.of_done hdone
  have hover := hno (v + 1) (by omega)
  have hd : (blockAt tx rx len s inp v).byteDone = true := beq_iff_eq.mpr hdone
  rw [wiresAt_succ, arrived_next, hd, hx, if_pos rfl, List.length_append, Option.toList_some, List.length_singleton]
    at hover
  have := hs.popped_le
  omega

/-- The call is not stalled for ever. -/
private theorem not_stalled (h0 : ∃ x, At tx rx len s inp 0 x) (hgo : ∀ t, ∃ u, t ≤ u ∧ (inp u).go = true) {x : Spot}
    (hret : x.leg ≠ .ret) (hall : ∀ u, t ≤ u → At tx rx len s inp u x) :
    ∃ u, t ≤ u ∧ ¬Stalled tx rx len s inp u x := by
  have hfair : Fair (portTarget device) (start tx rx len s) inp := fair_of_go (fun _ _ => rfl) hgo
  have hmore : ∀ a, x.prog tx rx len ≠ .ret a := by
    intro a
    unfold Spot.prog
    cases hl : x.leg with
    | ret => exact absurd hl hret
    | status | store | wait | pop => simp [drain]
  obtain ⟨v, hv, hfull⟩ : ∃ v, t ≤ v ∧ ∀ u, v ≤ u → x.leg = .wait → (blockAt tx rx len s inp u).rx.empty = false := by
    by_cases hw : x.leg = .wait
    · have hknows := (hall t le_rfl).knows
      unfold Spot.Knows at hknows
      rw [hw] at hknows
      obtain ⟨v, hv, hgot⟩ := exists_arrival h0 hknows fun u hu => (hall u hu).step
      refine ⟨v, hv, fun u hu _ => (hall u (by omega)).step.sync.arrived_of.mp (hgot.trans_le ?_)⟩
      exact monotone_nat_of_le_succ arrived_mono hu
    · exact ⟨t, le_rfl, fun _ _ h => absurd h hw⟩
  obtain ⟨u, hu, hi⟩ := hfair v fun a ha => hmore a ((hall v hv).prog.symm.trans ha)
  refine ⟨u, by omega, ?_⟩
  rintro (hnone | ⟨hw, he⟩)
  · exact hi hnone
  · rw [hfull u hu hw] at he
    cases he

/-- A call that has returned has popped every byte. -/
private theorem InStep.ended (h : InStep tx rx len s inp p len b t) :
    p = len ∧ (wiresAt tx rx len s inp t).flight = none ∧ (wiresAt tx rx len s inp t).arrived.length = len.toNat ∧
      (blockAt tx rx len s inp t).stateQ = .idle ∧ (blockAt tx rx len s inp t).tx.empty = true ∧
      (blockAt tx rx len s inp t).rx.empty = true := by
  have h1 := h.popped_le
  have h2 := h.pushed_le
  have h3 := h.sync.popped_le
  have h4 := h.sync.begun_le
  have hbegun := begun_length (wiresAt tx rx len s inp t)
  have hflight : (wiresAt tx rx len s inp t).flight = none := by
    cases hf : (wiresAt tx rx len s inp t).flight with
    | none => rfl
    | some x =>
      rw [hf, Option.toList_some, List.length_singleton] at hbegun
      omega
  refine ⟨BitVec.eq_of_toNat_eq (by omega), hflight, by omega, ?_, ?_, ?_⟩
  · cases hst : (blockAt tx rx len s inp t).stateQ with
    | idle => rfl
    | shift =>
      obtain ⟨_, _, _, _, hx, -⟩ := h.sync.phase.of_shift hst
      rw [hflight] at hx
      cases hx
    | done =>
      obtain ⟨_, hx, -⟩ := h.sync.phase.of_done hst
      rw [hflight] at hx
      cases hx
  · rw [h.sync.tx.empty_iff, ← List.length_eq_zero_iff, length_queued]
    omega
  · rw [h.sync.rx.empty_iff, ← List.length_eq_zero_iff, List.length_map, List.length_drop]
    omega

variable (tx rx len s inp) in
/-- The transfer is over before cycle `t`, and `buf` is what it has stored. -/
structure Exchanged (t : Nat) (buf : List Byte) : Prop where
  returned : callAt tx rx len s inp t = .ret buf
  /-- The stores of the whole call are the pushes of the bytes in order. -/
  stores : storesAt tx rx len s inp t = (List.range len.toNat).map (storeAt tx)
  sent : (wiresAt tx rx len s inp t).arrived.map Prod.fst = (List.range len.toNat).map (sentAt tx)
  samples : ∀ x ∈ (wiresAt tx rx len s inp t).arrived, x.2.length = 8
  /-- A received byte is made of the samples taken for it, the first one on top. -/
  received : rx = true → buf.map msbBits = (wiresAt tx rx len s inp t).arrived.map Prod.snd
  discarded : rx = false → buf = []
  quiet : ∀ u, t ≤ u → (blockAt tx rx len s inp u).tx.empty = true ∧ (blockAt tx rx len s inp u).rx.empty = true ∧
    (blockAt tx rx len s inp u).stateQ = .idle

private theorem At.exchanged {x : Spot} (h : At tx rx len s inp t x) (hret : x.leg = .ret) :
    Exchanged tx rx len s inp t x.buf := by
  obtain ⟨leg, n, p, b⟩ := x
  obtain rfl : leg = .ret := hret
  obtain rfl : n = len := h.knows
  have hstep : InStep tx rx n s inp p n b t := h.step
  obtain ⟨rfl, hflight, hcount, -⟩ := hstep.ended
  have hbegun : (wiresAt tx rx p s inp t).begun = (wiresAt tx rx p s inp t).arrived := by
    rw [Wires.begun, hflight]
    exact List.append_nil _
  have hbuf : b = if rx then (wiresAt tx rx p s inp t).arrived.map Frame.assembled else [] := by
    rw [hstep.buf, ← hcount, List.take_length]
  refine ⟨h.prog, hstep.log, ?_, hstep.sync.full, ?_, ?_, ?_⟩
  · rw [← hbegun, hstep.sync.sent, hbegun, hcount]
  · rintro rfl
    change b.map msbBits = _
    rw [hbuf, if_pos rfl, List.map_map]
    exact List.map_congr_left fun x hx => msbBits_run 0 (hstep.sync.full x hx)
  · rintro rfl
    exact hbuf
  · intro u hu
    have hlater : InStep tx rx p s inp p p b u := by
      induction u, hu using Nat.le_induction with
      | base => exact hstep
      | succ u hu ih => exact ih.stay (.inl (Host.issue_ret (ret_stays h.prog hu)))
    obtain ⟨-, -, -, h1, h2, h3⟩ := hlater.ended
    exact ⟨h2, h3, h1⟩

end Run

/-! ### The transfer -/

/-- From an enabled idle engine and empty FIFOs, under any settings and at any speed of the processor, the transfer
ends. It has pushed its bytes in order and received a byte for each, and a byte that ended has always found room. -/
theorem transfer_buf (tx : Option (Word → Byte)) (rx : Bool) (len : Word) (s : PortDev (Spi 4 4))
    (inp : Nat → HostIn Bool) (hen : s.core.enableQ = true) (hidle : s.core.stateQ = .idle)
    (htx : s.core.tx.empty = true) (hrx : s.core.rx.empty = true) (hgo : ∀ t, ∃ u, t ≤ u ∧ (inp u).go = true) :
    (∃ t buf, Exchanged tx rx len s inp t buf) ∧
      ∀ u, ((blockAt tx rx len s inp u).byteDone = true → (blockAt tx rx len s inp u).rx.full = false) ∧
        ((blockAt tx rx len s inp u).irqOvrQ = true → s.core.irqOvrQ = true) := by
  have h0 : ∃ x, At tx rx len s inp 0 x := at_start hen hidle htx hrx
  have hroom : ∀ u, (blockAt tx rx len s inp u).byteDone = true → (blockAt tx rx len s inp u).rx.full = false := by
    intro u hd
    obtain ⟨x, hx⟩ := at_run h0 u
    exact hx.step.sync.room (beq_iff_eq.mp hd)
  constructor
  · obtain ⟨t, y, -, hy, hret⟩ := exists_final (Spot.rank len) (fun _ _ hx => At.next hx)
      (fun _ _ _ hne hall => not_stalled h0 hgo hne hall) h0.choose_spec
    exact ⟨t, y.buf, hy.exchanged hret⟩
  · intro u
    refine ⟨hroom u, ?_⟩
    induction u with
    | zero => exact id
    | succ u ih =>
      intro hset
      have hov : (blockAt tx rx len s inp u).rxOverrun = false := by
        rw [rxOverrun]
        cases hd : (blockAt tx rx len s inp u).stateQ == .done with
        | false => rfl
        | true => rw [hroom u hd]; rfl
      have hsticky : (blockAt tx rx len s inp (u + 1)).irqOvrQ =
          ((blockAt tx rx len s inp u).rxOverrun || ((blockAt tx rx len s inp u).irqOvrQ && _)) := rfl
      rw [hsticky, hov, Bool.false_or, Bool.and_eq_true] at hset
      exact ih hset.1

/-- The engine from reset, enabled. -/
def enabled : PortDev (Spi 4 4) := ⟨{ Spi.reset (fun _ => 0) (fun _ => 0) with enableQ := true }, false⟩

/-- Two bytes read with a processor that comes to an access in every third cycle, from a slave that holds MISO
high. -/
theorem transfer_buf_reads : ∃ t buf, Exchanged none true 2 enabled (fun t => ⟨t % 3 == 0, true⟩) t buf :=
  (transfer_buf none true 2 enabled (fun t => ⟨t % 3 == 0, true⟩) rfl rfl rfl rfl fun t =>
    ⟨3 * t, by omega, by simp⟩).1

end SpiDriver

end Yarv
