import Yarv.Periph.Uart
import Yarv.Lib.Serial

/-!
# The UART transmitter

`flight` is the frame under way: its divisor, its byte and the cycles it has been on the line.  `TxAt` is the state of
the engine at each of its cycles, `InFlight.next` one clock edge, and `wire_run` reads the whole line as frames.
-/

namespace Yarv.Uart

open Clocked Serial

/-! ### Counters -/

theorem toNat_succ {w : Nat} {x : BitVec w} (h : x.toNat + 1 < 2 ^ w) : (x + 1).toNat = x.toNat + 1 := by
  have h1 : (1 : BitVec w).toNat = 1 := Nat.mod_eq_of_lt (lt_of_le_of_lt (Nat.le_add_left 1 _) h)
  rw [BitVec.toNat_add, h1, Nat.mod_eq_of_lt h]

/-- A counter that has not come to its bound goes on. -/
theorem count_step {x y : BitVec 16} {r : Nat} (hx : x.toNat = r) (hle : r ≤ y.toNat) (hne : x ≠ y) :
    (x + 1).toNat = r + 1 ∧ r + 1 ≤ y.toNat := by
  have h1 := y.isLt
  have h2 : x.toNat ≠ y.toNat := fun h => hne (BitVec.eq_of_toNat_eq h)
  exact ⟨by rw [toNat_succ (by omega), hx], by omega⟩

/-! ### One frame -/

/-- The engine, `e` cycles into a frame. -/
inductive TxAt (div : BitVec 16) (b : Byte) : Nat → UartTx → Prop
  | start {r g} : r ≤ div.toNat → g.stateQ = .start → g.baudCntQ.toNat = r → g.shiftQ = b → g.txdQ = false →
      TxAt div b r g
  | data {k r g} : k < 8 → r ≤ div.toNat → g.stateQ = .data → g.baudCntQ.toNat = r → g.bitCntQ.toNat = k →
      g.shiftQ = b >>> k → g.txdQ = b.getLsbD k → TxAt div b ((k + 1) * (div.toNat + 1) + r) g
  | stop {r g} : r ≤ div.toNat → g.stateQ = .stop → g.baudCntQ.toNat = r → g.txdQ = true →
      TxAt div b (9 * (div.toNat + 1) + r) g

variable {div : BitVec 16} {b : Byte} {e : Nat} {g : UartTx}

private theorem TxAt.busy (h : TxAt div b e g) : g.stateQ ≠ .idle := by
  cases h with
  | start _ hs => simp [hs]
  | data _ _ hs => simp [hs]
  | stop _ hs => simp [hs]

private theorem TxAt.txd (h : TxAt div b e g) : g.txdQ = level (div.toNat + 1) b e := by
  cases h with
  | start hr _ _ _ ht => rw [ht, level_start b (by omega)]
  | data hk hr _ _ _ _ ht => rw [ht, level_data b hk (by omega)]
  | stop hr _ _ ht => rw [ht, level_stop b (by omega)]

/-- Within a symbol only the counter moves. -/
private theorem tx_count (hs : g.stateQ ≠ .idle) (hc : g.baudCntQ ≠ div) (pop : Option Byte) :
    g.next div pop = { g with baudCntQ := g.baudCntQ + 1 } := by
  have ht : g.baudTick div = false := by simp [UartTx.baudTick, hc]
  cases hst : g.stateQ with
  | idle => exact absurd hst hs
  | start => simp [UartTx.next, hst, ht]
  | data => simp [UartTx.next, hst, ht]
  | stop => simp [UartTx.next, hst, ht]

/-- One cycle further into the frame. -/
private theorem TxAt.next (h : TxAt div b e g) (pop : Option Byte) :
    if e + 1 < 10 * (div.toNat + 1) then TxAt div b (e + 1) (g.next div pop)
    else (g.next div pop).stateQ = .idle ∧ (g.next div pop).txdQ = true := by
  have hbusy := h.busy
  by_cases htick : g.baudCntQ = div
  · have ht : g.baudTick div = true := by simp [UartTx.baudTick, htick]
    cases h with
    | start hr hs hc hb _ =>
      have he : e + 1 = (0 + 1) * (div.toNat + 1) + 0 := by
        rw [← hc, htick]
        omega
      rw [if_pos (by omega), he]
      simp only [UartTx.next, hs, ht, if_true]
      exact .data (by decide) (Nat.zero_le _) rfl rfl rfl (by simp [hb]) (by simp [hb])
    | @data k r _ hk hr hs hc hbit hb _ =>
      have hrd : r = div.toNat := by rw [← hc, htick]
      by_cases hlast : k = 7
      · have hbit7 : g.bitCntQ = 7 := BitVec.eq_of_toNat_eq (by rw [hbit, hlast]; rfl)
        have he : (k + 1) * (div.toNat + 1) + r + 1 = 9 * (div.toNat + 1) + 0 := by
          rw [hrd, hlast]
          omega
        rw [he, if_pos (by omega)]
        simp only [UartTx.next, hs, ht, hbit7, if_true]
        exact .stop (Nat.zero_le _) rfl rfl rfl
      · have hbit7 : g.bitCntQ ≠ 7 := by
          intro h
          rw [h] at hbit
          exact hlast hbit.symm
        have he : (k + 1) * (div.toNat + 1) + r + 1 = (k + 1 + 1) * (div.toNat + 1) + 0 := by
          rw [hrd, Nat.succ_mul (k + 1)]
          omega
        have hmul := Nat.mul_le_mul_right (div.toNat + 1) (show k + 1 + 1 ≤ 9 by omega)
        rw [he, if_pos (by omega)]
        simp only [UartTx.next, hs, ht, if_true]
        rw [if_neg hbit7]
        refine .data (by omega) (Nat.zero_le _) rfl rfl ?_ ?_ ?_
        · exact (toNat_succ (by omega)).trans (by rw [hbit])
        · rw [hb, BitVec.shiftRight_add]
        · rw [hb, BitVec.getLsbD_ushiftRight]
    | @stop r _ hr hs hc hl =>
      have hrd : r = div.toNat := by rw [← hc, htick]
      rw [if_neg (by omega)]
      simp only [UartTx.next, hs, ht, if_true]
      exact ⟨trivial, hl⟩
  · rw [tx_count hbusy htick pop]
    cases h with
    | start hr hs hc hb hl =>
      obtain ⟨h1, h2⟩ := count_step hc hr htick
      rw [if_pos (by omega)]
      exact .start h2 hs h1 hb hl
    | @data k r _ hk hr hs hc hbit hb hl =>
      obtain ⟨h1, h2⟩ := count_step hc hr htick
      have hmul := Nat.mul_le_mul_right (div.toNat + 1) (show k + 1 ≤ 8 by omega)
      rw [if_pos (by omega)]
      exact .data hk h2 hs h1 hbit hb hl
    | @stop r _ hr hs hc hl =>
      obtain ⟨h1, h2⟩ := count_step hc hr htick
      rw [if_pos (by omega)]
      exact .stop h2 hs h1 hl

/-! ### The frame under way -/

/-- A frame on the line: its divisor, its byte and the cycles it has been there. -/
abbrev Flight := Option (BitVec 16 × Byte × Nat)

variable {wt wr : Nat}

def flightNext (f : Flight) (q : Uart wt wr) : Flight :=
  match f with
  | none => q.txHead.map fun b => (q.divD, b, 0)
  | some (div, b, e) => if e + 1 < 10 * (div.toNat + 1) then some (div, b, e + 1) else none

/-- What the transmitter does while the frame is under way. -/
def InFlight (f : Flight) (q : Uart wt wr) : Prop :=
  match f with
  | none => q.txEng.stateQ = .idle ∧ q.txd = true
  | some (div, b, e) => q.divQ = div ∧ e < 10 * (div.toNat + 1) ∧ TxAt div b e q.txEng

variable {q : Uart wt wr} {f : Flight}

/-- A frame keeps its divisor. -/
theorem divD_eq (h : q.txEng.stateQ ≠ .idle ∨ q.rxEng.stateQ ≠ .idle) : q.divD = q.divQ := by
  have : q.divApply = false := by
    rcases h with h | h
    · simp [divApply, txIdle, h]
    · simp [divApply, rxIdle, h]
  rw [divD, this, if_neg Bool.false_ne_true]

/-- One clock edge of the transmitter, whatever the line says. -/
private theorem InFlight.next (h : InFlight f q) (i : RegAccess (BitVec 3) Bool) :
    InFlight (flightNext f q) (q.next i) := by
  match f, h with
  | none, ⟨hs, ht⟩ =>
    cases hp : q.txHead with
    | none =>
      have hn : (q.next i).txEng = { q.txEng with baudCntQ := 0 } := by simp [Uart.next, UartTx.next, hs, hp]
      rw [flightNext, hp]
      exact ⟨by rw [hn]; exact hs, by rw [txd, hn]; exact ht⟩
    | some b =>
      have hn : (q.next i).txEng = { q.txEng with baudCntQ := 0, shiftQ := b, stateQ := .start, txdQ := false } := by
        simp [Uart.next, UartTx.next, hs, hp]
      rw [flightNext, hp]
      refine ⟨rfl, by omega, ?_⟩
      rw [hn]
      exact .start (Nat.zero_le _) rfl rfl rfl rfl
  | some (div, b, e), ⟨hd, he, ha⟩ =>
    have hstep := ha.next q.txHead
    have heng : (q.next i).txEng = q.txEng.next div q.txHead := by rw [← hd]; rfl
    have hdiv : (q.next i).divQ = div := (divD_eq (.inl ha.busy)).trans hd
    rw [flightNext]
    split at hstep
    · rename_i hlt
      rw [if_pos hlt]
      exact ⟨hdiv, hlt, by rw [heng]; exact hstep⟩
    · rename_i hlt
      rw [if_neg hlt]
      exact ⟨by rw [heng]; exact hstep.1, by rw [txd, heng]; exact hstep.2⟩

/-- The line during a frame, or idle. -/
def flightLevel (f : Flight) : Bool :=
  match f with
  | none => true
  | some (div, b, e) => level (div.toNat + 1) b e

theorem InFlight.txd (h : InFlight f q) : q.txd = flightLevel f := by
  match f, h with
  | none, ⟨_, ht⟩ => exact ht
  | some (_, _, _), ⟨_, _, ha⟩ => exact ha.txd

/-! ### The whole line -/

/-- The line so far, made of the frames launched so far. -/
inductive Wired : Flight → List (Nat × Byte) → List Bool → Prop
  | idle segs k : Wired none (segs.map Prod.snd) (line segs ++ List.replicate k true)
  | frame segs k {div b e} : Wired (some (div, b, e)) (segs.map Prod.snd ++ [(div.toNat + 1, b)])
      (line segs ++ List.replicate k true ++ (Serial.frame (div.toNat + 1) b).take e)

/-- The frame a clock edge launches: its bit time and its byte. -/
def launch (q : Uart wt wr) : Option (Nat × Byte) := q.txHead.map fun b => (q.divD.toNat + 1, b)

private theorem Wired.next {fs : List (Nat × Byte)} {ls : List Bool} (h : Wired f fs ls) (hf : InFlight f q) :
    Wired (flightNext f q) (fs ++ (if f = none then launch q else none).toList) (ls ++ [q.txd]) := by
  rw [hf.txd]
  cases h with
  | idle segs k =>
    have hgrow : line segs ++ List.replicate k true ++ [true] = line segs ++ List.replicate (k + 1) true := by
      rw [List.append_assoc, ← List.replicate_succ']
    rw [flightLevel, hgrow, if_pos rfl, flightNext, launch]
    cases q.txHead with
    | none =>
      rw [Option.map_none, Option.map_none, Option.toList_none, List.append_nil]
      exact .idle segs (k + 1)
    | some b =>
      have : Wired (some (q.divD, b, 0)) _ _ := Wired.frame segs (k + 1)
      rwa [List.take_zero, List.append_nil] at this
  | @frame segs k div b e =>
    have hlt := hf.2.1
    rw [if_neg (by simp), Option.toList_none, List.append_nil, flightLevel, flightNext, List.append_assoc,
      ← frame_take_succ b (by omega)]
    split
    · exact .frame segs k
    · have := Wired.idle (segs ++ [(k, div.toNat + 1, b)]) 0
      have hall : (Serial.frame (div.toNat + 1) b).take (e + 1) = Serial.frame (div.toNat + 1) b :=
        List.take_of_length_le (by rw [length_frame]; omega)
      rw [hall]
      simpa [line] using this

/-! ### A run -/

section Run

variable (q : Uart wt wr) (acc : Nat → RegAccess (BitVec 3) Bool)

abbrev coreAt (t : Nat) : Uart wt wr := trace Uart.next q acc t

/-- The frame under way before cycle `t` of a run that starts with an idle transmitter. -/
def flight (t : Nat) : Flight := companion (fun f q _ => flightNext f q) Uart.next none q acc t

/-- The line in the first `t` cycles. -/
def txdLog (t : Nat) : List Bool := (List.range t).map fun u => (coreAt q acc u).txd

/-- The frames launched before cycle `t`. -/
def launches (t : Nat) : List (Nat × Byte) := logFrom (fun q _ => launch q) Uart.next q acc 0 t

/-- The bytes TXDATA writes bring in. -/
def pushes (t : Nat) : List Byte := logFrom (fun _ i => txPush i) Uart.next q acc 0 t

/-- The transmitter at rest, with a queue to send. -/
structure Quiet (tx rx : List Byte) : Prop where
  txIdle : q.txEng.stateQ = .idle
  txd : q.txd = true
  rxIdle : q.rxEng.stateQ = .idle
  tx : q.tx.Holds tx
  rx : q.rx.Holds rx

/-- TXDATA writes commit only while there is room. -/
def Gated : Prop := ∀ t, (txPush (acc t)).isSome = true → (coreAt q acc t).tx.full = false

/-- The line as the far end sees it. -/
structure Transmits (tx : List Byte) : Prop where
  /-- The line is the row of the frames launched so far, with idle stretches between them and the last one perhaps
  under way. -/
  framed : ∀ t, Carries (launches q acc t) (txdLog q acc t)
  /-- Each frame has one bit time, at least a cycle. -/
  timed : ∀ t, ∀ f ∈ launches q acc t, 0 < f.1
  /-- Their bytes are those of the TX FIFO, in order, -/
  queued : ∀ t, ∃ l, (coreAt q acc t).tx.Holds l ∧ tx ++ pushes q acc t = (launches q acc t).map Prod.snd ++ l
  /-- and all of them are across in the end. -/
  sent : ∀ t, ∃ u segs k, t ≤ u ∧ txdLog q acc u = line segs ++ List.replicate k true ∧
    segs.map Prod.snd = launches q acc u ∧ tx ++ pushes q acc t <+: (launches q acc u).map Prod.snd

end Run

variable {acc : Nat → RegAccess (BitVec 3) Bool} {tx rx : List Byte}

theorem flight_succ (t : Nat) : flight q acc (t + 1) = flightNext (flight q acc t) (coreAt q acc t) := rfl

variable (acc) in
theorem inFlight_run (h0 : Quiet q tx rx) (t : Nat) : InFlight (flight q acc t) (coreAt q acc t) := by
  induction t with
  | zero => exact ⟨h0.txIdle, h0.txd⟩
  | succ t ih => exact ih.next (acc t)

/-- The engine only launches while no frame is under way. -/
theorem launch_idle (h : InFlight f q) : (if f = none then launch q else none) = launch q := by
  match f, h with
  | none, _ => rfl
  | some (_, _, _), ⟨_, _, ha⟩ =>
    have hp : q.txHead = none := by simp [txHead, txFifoPop, txIdle, ha.busy]
    simp [launch, hp]

variable (acc) in
private theorem wire_run (h0 : Quiet q tx rx) (t : Nat) :
    Wired (flight q acc t) (launches q acc t) (txdLog q acc t) := by
  induction t with
  | zero => exact .idle [] 0
  | succ t ih =>
    have hf := inFlight_run acc h0 t
    have := ih.next hf
    rw [launch_idle hf] at this
    rw [flight_succ, launches, logFrom_succ, Nat.zero_add, txdLog, List.range_succ, List.map_append]
    exact this

private theorem tx_run (h0 : Quiet q tx rx) (hg : Gated q acc) (t : Nat) :
    ∃ l, (coreAt q acc t).tx.Holds l ∧ tx ++ pushes q acc t =
      logFrom (Fifo.popped (fun q => q.tx) fun q _ => q.txFifoPop) Uart.next q acc 0 t ++ l := by
  refine Fifo.Holds.run_of (fun q : Uart wt wr => q.tx) (fun _ i => txPush i) (fun q _ => q.txFifoPop)
    h0.tx ?_ ?_ ?_ t
  · intro t
    rfl
  · intro t h
    rw [txFifoPop, Bool.and_eq_true, Bool.not_eq_true'] at h
    exact h.2
  · intro t h
    exact .inl (hg t h)

private theorem launches_bytes (t : Nat) :
    (launches q acc t).map Prod.snd =
      logFrom (Fifo.popped (fun q => q.tx) fun q _ => q.txFifoPop) Uart.next q acc 0 t := by
  rw [launches, ← logFrom_map]
  congr 1
  funext q i
  simp only [launch, txHead, Fifo.popped]
  split <;> rfl

variable (acc) in
theorem exists_landed (h0 : Quiet q tx rx) (t : Nat) : ∃ u, t ≤ u ∧ flight q acc u = none := by
  cases hf : flight q acc t with
  | none => exact ⟨t, le_rfl, hf⟩
  | some x =>
    obtain ⟨div, b, e⟩ := x
    by_contra hno
    push Not at hno
    have hall : ∀ k, flight q acc (t + k) = some (div, b, e + k) := by
      intro k
      induction k with
      | zero => exact hf
      | succ k ih =>
        have hne := hno (t + (k + 1)) (by omega)
        rw [← Nat.add_assoc, flight_succ, ih, flightNext] at hne ⊢
        split at hne
        · rw [if_pos ‹_›]
          rfl
        · exact absurd rfl hne
    have hlt := inFlight_run acc h0 (t + 10 * (div.toNat + 1))
    rw [hall] at hlt
    have := hlt.2.1
    omega

/-- A full TX FIFO gets room. -/
theorem exists_room (h0 : Quiet q tx rx) (hg : Gated q acc) (t : Nat) :
    ∃ u, t ≤ u ∧ (coreAt q acc u).tx.full = false := by
  obtain ⟨u, hu, hf⟩ := exists_landed acc h0 t
  cases hfull : (coreAt q acc u).tx.full with
  | false => exact ⟨u, hu, hfull⟩
  | true =>
    -- the transmitter is idle and takes the head, and nothing comes in
    obtain ⟨l, hl, -⟩ := tx_run h0 hg u
    have hlen := hl.full_iff.mp hfull
    have hpos : 0 < l.length := by
      rw [hlen]
      exact Nat.two_pow_pos wt
    have hi := inFlight_run acc h0 u
    rw [hf] at hi
    have hpop : (coreAt q acc u).txFifoPop = true := by
      have hne : (coreAt q acc u).tx.empty = false := by
        rw [← Bool.not_eq_true, hl.empty_iff]
        exact List.ne_nil_of_length_pos hpos
      simp [txFifoPop, txIdle, hi.1, hne]
    have hpush : txPush (acc u) = none := by
      cases hp : txPush (acc u) with
      | none => rfl
      | some b =>
        rw [hg u (by rw [hp]; rfl)] at hfull
        cases hfull
    have hnext : (coreAt q acc (u + 1)).tx = (coreAt q acc u).tx.step none true := by
      change ((coreAt q acc u).next (acc u)).tx = _
      rw [← hpush, ← hpop]
      rfl
    have hstep : ((coreAt q acc u).tx.step none true).Holds l.tail := by
      rw [← List.append_nil l.tail]
      exact hl.step (fun _ => hpos) fun h => absurd h Bool.false_ne_true
    refine ⟨u + 1, by omega, ?_⟩
    rw [hnext, ← Bool.not_eq_true, hstep.full_iff, List.length_tail]
    omega

private theorem Wired.carries {fs : List (Nat × Byte)} {ls : List Bool} (h : Wired f fs ls) (hf : InFlight f q) :
    Carries fs ls := by
  cases h with
  | idle segs k => exact .idle segs k
  | frame segs k => exact .underway segs k hf.2.1

private theorem launches_timed {t : Nat} {f : Nat × Byte} (hf : f ∈ launches q acc t) : 0 < f.1 := by
  obtain ⟨k, -, hk⟩ := mem_logFrom hf
  rw [launch, Option.map_eq_some_iff] at hk
  obtain ⟨b, -, rfl⟩ := hk
  exact Nat.succ_pos _

theorem transmits (h0 : Quiet q tx rx) (hg : Gated q acc) : Transmits q acc tx where
  framed t := (wire_run acc h0 t).carries (inFlight_run acc h0 t)
  timed _ _ hf := launches_timed hf
  queued t := by
    rw [launches_bytes]
    exact tx_run h0 hg t
  sent t := by
    obtain ⟨u, hu, hf, hp⟩ := Fifo.exists_drained (fun q : Uart wt wr => q.tx) (fun _ i => txPush i)
      (fun q _ => q.txFifoPop) (fun u => flight q acc u = none) (tx_run h0 hg) (exists_landed acc h0) (by
        intro u hf hne
        have hi := inFlight_run acc h0 u
        rw [hf] at hi
        simp [txFifoPop, txIdle, hi.1, hne]) t
    rw [← launches_bytes] at hp
    have hw := wire_run acc h0 u
    rw [hf] at hw
    generalize hl : launches q acc u = fs, hls : txdLog q acc u = ls at hw
    cases hw with
    | idle segs k => exact ⟨u, segs, k, hu, hls, hl.symm, hp⟩

end Yarv.Uart
