import Yarv.Periph.UartFacts

/-!
# The UART in a loop

The receiver sees the line of its own transmitter some cycles late.  `RxAt` is the receiver `e` cycles into the frame
it sees; `hears_run` says that it mirrors the frame that was under way `δ` cycles ago, `heard_run` that it completes
every frame with its byte.  The samples fall into the middle of their symbols because half the divisor is below the
divisor.
-/

namespace Yarv.Uart

open Clocked Serial

/-- The last cycle of a frame the receiver looks at: the middle of the stop bit. -/
def lastCycle (div : BitVec 16) : Nat := 1 + div.toNat / 2 + 9 * (div.toNat + 1)

/-- The receiver, `e` cycles into the frame it sees. -/
inductive RxAt (div : BitVec 16) (b : Byte) : Nat → UartRx → Prop
  | before {g} : g.stateQ = .idle → RxAt div b 0 g
  | start {r g} : r ≤ div.toNat / 2 → g.stateQ = .start → g.cntQ.toNat = r → RxAt div b (1 + r) g
  | data {k r g} : k < 8 → r ≤ div.toNat → g.stateQ = .data → g.cntQ.toNat = r → g.bitCntQ.toNat = k →
      (∀ j < k, g.shiftQ.getLsbD (8 - k + j) = b.getLsbD j) →
      RxAt div b (2 + div.toNat / 2 + k * (div.toNat + 1) + r) g
  | stop {r g} : r ≤ div.toNat → g.stateQ = .stop → g.cntQ.toNat = r → g.shiftQ = b →
      RxAt div b (2 + div.toNat / 2 + 8 * (div.toNat + 1) + r) g
  | after {e g} : lastCycle div < e → g.stateQ = .idle → RxAt div b e g

variable {div d : BitVec 16} {b : Byte} {e : Nat} {g : UartRx}

private theorem toNat_halfDiv (div : BitVec 16) : (UartRx.halfDiv div).toNat = div.toNat / 2 := by
  rw [UartRx.halfDiv, BitVec.toNat_ushiftRight, Nat.shiftRight_eq_div_pow, pow_one]

private theorem getLsbD_shiftNew (g : UartRx) (rxd : Bool) (i : Nat) (hi : i < 8) :
    (g.shiftNew rxd).getLsbD i = if i = 7 then rxd else g.shiftQ.getLsbD (i + 1) := by
  rw [UartRx.shiftNew, BitVec.getLsbD_append]
  by_cases h7 : i = 7
  · simp [h7]
  · have h : i < 7 := by omega
    simp [h7, h, Nat.add_comm]

/-- The bits of a byte come in from the top. -/
private theorem shift_data {k : Nat} (hk : k < 8) (hb : ∀ j < k, g.shiftQ.getLsbD (8 - k + j) = b.getLsbD j) {j : Nat}
    (hj : j < k + 1) : (g.shiftNew (b.getLsbD k)).getLsbD (8 - (k + 1) + j) = b.getLsbD j := by
  rw [getLsbD_shiftNew _ _ _ (by omega)]
  by_cases hjk : j = k
  · rw [if_pos (by omega), hjk]
  · have h := hb j (by omega)
    have hpos : 8 - (k + 1) + j + 1 = 8 - k + j := by omega
    rw [if_neg (by omega), hpos, h]

/-- One cycle further into the frame. -/
private theorem RxAt.next (h : RxAt div b e g) (hdiv : 1 ≤ div.toNat) (he : e < 10 * (div.toNat + 1))
    (hd : g.stateQ ≠ .idle → d = div) :
    if e + 1 < 10 * (div.toNat + 1) then RxAt div b (e + 1) (g.next d (level (div.toNat + 1) b e))
    else (g.next d (level (div.toNat + 1) b e)).stateQ = .idle := by
  have hhalf : div.toNat / 2 < div.toNat := Nat.div_lt_self hdiv (by decide)
  cases h with
  | before hs =>
    have hl := level_start (n := div.toNat + 1) b (r := 0) (by omega)
    have hn : g.next d false = { g with cntQ := 0, stateQ := .start } := by simp [UartRx.next, hs]
    rw [hl, hn, if_pos (by omega)]
    exact .start (Nat.zero_le _) rfl rfl
  | @start r _ hr hs hc =>
    have hdd := hd (by simp [hs])
    have hl := level_start (n := div.toNat + 1) b (r := 1 + r) (by omega)
    rw [hl, hdd, if_pos (by omega)]
    by_cases htick : g.cntQ = UartRx.halfDiv div
    · have hn : g.next div false = { g with cntQ := 0, stateQ := .data, bitCntQ := 0 } := by
        simp [UartRx.next, hs, htick]
      have hrh : r = div.toNat / 2 := by rw [← hc, htick, toNat_halfDiv]
      have hpos : 1 + r + 1 = 2 + div.toNat / 2 + 0 * (div.toNat + 1) + 0 := by omega
      rw [hn, hpos]
      exact .data (by decide) (Nat.zero_le _) rfl rfl rfl (fun j hj => absurd hj (by omega))
    · have hn : g.next div false = { g with cntQ := g.cntQ + 1 } := by simp [UartRx.next, hs, htick]
      have hr' : r ≤ (UartRx.halfDiv div).toNat := by rw [toNat_halfDiv]; exact hr
      obtain ⟨h1, h2⟩ := count_step hc hr' htick
      rw [toNat_halfDiv] at h2
      rw [hn, Nat.add_assoc]
      exact .start h2 hs h1
  | @data k r _ hk hr hs hc hbit hb =>
    have hdd := hd (by simp [hs])
    have hmul := Nat.mul_le_mul_right (div.toNat + 1) (show k ≤ 7 by omega)
    rw [hdd, if_pos (by omega)]
    by_cases htick : g.cntQ = div
    · have hrd : r = div.toNat := by rw [← hc, htick]
      have hpos : 2 + div.toNat / 2 + k * (div.toNat + 1) + r = (k + 1) * (div.toNat + 1) + (1 + div.toNat / 2) := by
        rw [Nat.succ_mul]
        omega
      rw [hpos, level_data b hk (by omega)]
      by_cases hlast : k = 7
      · have hbit7 : g.bitCntQ = 7 := BitVec.eq_of_toNat_eq (by rw [hbit, hlast]; rfl)
        have hn : g.next div (b.getLsbD k) = { g with
            cntQ := 0, shiftQ := g.shiftNew (b.getLsbD k), stateQ := .stop } := by
          simp [UartRx.next, hs, htick, hbit7]
        have hpos' : (k + 1) * (div.toNat + 1) + (1 + div.toNat / 2) + 1 =
            2 + div.toNat / 2 + 8 * (div.toNat + 1) + 0 := by
          rw [hlast]
          omega
        rw [hn, hpos']
        refine .stop (Nat.zero_le _) rfl rfl ?_
        apply BitVec.eq_of_getLsbD_eq
        intro j hj
        have := shift_data hk hb (j := j) (by omega)
        rwa [hlast, Nat.sub_self, Nat.zero_add, ← hlast] at this
      · have hbit7 : g.bitCntQ ≠ 7 := by
          intro h
          rw [h] at hbit
          exact hlast hbit.symm
        have hn : g.next div (b.getLsbD k) =
            { g with cntQ := 0, shiftQ := g.shiftNew (b.getLsbD k), bitCntQ := g.bitCntQ + 1 } := by
          simp only [UartRx.next, hs, htick, if_true]
          rw [if_neg hbit7]
        have hpos' : (k + 1) * (div.toNat + 1) + (1 + div.toNat / 2) + 1 =
            2 + div.toNat / 2 + (k + 1) * (div.toNat + 1) + 0 := by omega
        rw [hn, hpos']
        exact .data (by omega) (Nat.zero_le _) hs rfl ((toNat_succ (by omega)).trans (by rw [hbit]))
          (fun j hj => shift_data hk hb hj)
    · obtain ⟨h1, h2⟩ := count_step hc hr htick
      have hn : ∀ rxd, g.next div rxd = { g with cntQ := g.cntQ + 1 } := fun rxd => by simp [UartRx.next, hs, htick]
      rw [hn, Nat.add_assoc]
      exact .data hk h2 hs h1 hbit hb
  | @stop r _ hr hs hc hb =>
    have hdd := hd (by simp [hs])
    rw [hdd]
    by_cases htick : g.cntQ = div
    · have hrd : r = div.toNat := by rw [← hc, htick]
      have hn : ∀ rxd, g.next div rxd = { g with cntQ := 0, stateQ := .idle } := fun rxd => by
        simp [UartRx.next, hs, htick]
      rw [hn]
      split
      · exact .after (by rw [lastCycle]; omega) rfl
      · rfl
    · obtain ⟨h1, h2⟩ := count_step hc hr htick
      have hn : ∀ rxd, g.next div rxd = { g with cntQ := g.cntQ + 1 } := fun rxd => by simp [UartRx.next, hs, htick]
      rw [hn, Nat.add_assoc, if_pos (by omega)]
      exact .stop h2 hs h1 hb
  | after hlast hs =>
    rw [lastCycle] at hlast
    obtain ⟨r, hr⟩ := Nat.exists_eq_add_of_le (show 9 * (div.toNat + 1) ≤ e by omega)
    have hl := level_stop (n := div.toNat + 1) b (r := r) (by omega)
    have hn : g.next d true = { g with cntQ := 0 } := by simp [UartRx.next, hs]
    rw [hr, hl, hn]
    split
    · exact .after (by rw [lastCycle]; omega) hs
    · exact hs

/-- A frame is completed in its last cycle, with its byte. -/
private theorem RxAt.heard (h : RxAt div b e g) (hd : g.stateQ ≠ .idle → d = div) :
    (if g.frameDone d then some g.shiftQ else none) = if e = lastCycle div then some b else none := by
  have hhalf : div.toNat / 2 ≤ div.toNat := Nat.div_le_self _ _
  cases h with
  | before hs =>
    have : 0 ≠ lastCycle div := by rw [lastCycle]; omega
    simp [UartRx.frameDone, hs, this]
  | @start r _ hr hs hc =>
    have : 1 + r ≠ lastCycle div := by rw [lastCycle]; omega
    simp [UartRx.frameDone, hs, this]
  | @data k r _ hk hr hs =>
    have hmul := Nat.mul_le_mul_right (div.toNat + 1) (show k ≤ 7 by omega)
    have : 2 + div.toNat / 2 + k * (div.toNat + 1) + r ≠ lastCycle div := by rw [lastCycle]; omega
    simp [UartRx.frameDone, hs, this]
  | @stop r _ hr hs hc hb =>
    have hdd := hd (by simp [hs])
    have hiff : 2 + div.toNat / 2 + 8 * (div.toNat + 1) + r = lastCycle div ↔ g.cntQ = div := by
      rw [lastCycle]
      constructor
      · intro h
        exact BitVec.eq_of_toNat_eq (by omega)
      · intro h
        have : r = div.toNat := by rw [← hc, h]
        omega
    simp [UartRx.frameDone, hs, hdd, hiff, hb]
  | after hlast hs =>
    have : e ≠ lastCycle div := by omega
    simp [UartRx.frameDone, hs, this]

/-- The receiver looks at the line between the first and the last cycle. -/
private theorem RxAt.idle_iff (h : RxAt div b e g) : g.stateQ = .idle ↔ e = 0 ∨ lastCycle div < e := by
  cases h with
  | before hs => simp [hs]
  | start hr hs => simp [hs, lastCycle]; omega
  | @data k r _ hk hr hs =>
    have hmul := Nat.mul_le_mul_right (div.toNat + 1) (show k ≤ 7 by omega)
    simp [hs, lastCycle]
    omega
  | stop hr hs => simp [hs, lastCycle]; omega
  | after hlast hs => simp [hs, hlast]

variable {wt wr : Nat} {q : Uart wt wr} {f : Flight} {acc : Nat → RegAccess (BitVec 3) Bool} {tx rx : List Byte}

/-! ### The receiver behind its own transmitter -/

/-- The receiver mirrors the frame it sees. -/
def Hears (f : Flight) (g : UartRx) : Prop :=
  match f with
  | none => g.stateQ = .idle
  | some (div, b, e) => RxAt div b e g

/-- What of the frame under way has still to be completed. -/
def unheard (f : Flight) : List Byte :=
  match f with
  | none => []
  | some (div, b, e) => if e ≤ lastCycle div then [b] else []

section Run

variable (q acc)

/-- `rxd_i` is the line, `δ` cycles late. -/
def Looped (δ : Nat) : Prop := ∀ t, (acc t).ext = if t < δ then true else (coreAt q acc (t - δ)).txd

/-- BAUDDIV is never 0. -/
structure Timed : Prop where
  live : q.divQ ≠ 0
  pending : q.divPendingValidQ = true → q.divPendingQ ≠ 0
  written : ∀ t x, (acc t).wrAt REG_BAUDDIV = some x → x.data.setWidth 16 ≠ (0 : BitVec 16)

/-- The frame the receiver sees. -/
def seen (δ t : Nat) : Flight := if t < δ then none else flight q acc (t - δ)

/-- The bytes launched where the receiver looks. -/
def seenBytes (δ t : Nat) : List Byte := if t < δ then [] else (launches q acc (t - δ)).map Prod.snd

/-- The frames the receiver has completed before cycle `t`. -/
def heard (t : Nat) : List Byte :=
  logFrom (fun q _ => if q.rxFrameDone then some q.rxEng.shiftQ else none) Uart.next q acc 0 t

/-- The bytes that come into the RX FIFO. -/
def rxPushes (t : Nat) : List Byte := logFrom (fun q i => q.rxFifoPush i) Uart.next q acc 0 t

/-- The bytes RXDATA reads pop. -/
def rxPops (t : Nat) : List Byte :=
  logFrom (Fifo.popped (fun q => q.rx) fun q i => q.rxFifoPop i) Uart.next q acc 0 t

/-- The looped line as software sees it. -/
structure Receives (rx : List Byte) : Prop where
  /-- The completed frames are the transmitted ones, in order, -/
  heard : ∀ t, heard q acc t <+: (launches q acc t).map Prod.snd
  /-- and all of them in the end. -/
  heard_all : ∀ t, ∃ u, t ≤ u ∧ (launches q acc t).map Prod.snd <+: Uart.heard q acc u
  /-- A completed frame is queued, unless the FIFO is full and not popped: then RX_OVERRUN is set and nothing queued
  moves. -/
  dropped : ∀ t, (coreAt q acc t).rxFrameDone = true →
    (coreAt q acc t).rxFifoPush (acc t) = some (coreAt q acc t).rxEng.shiftQ ∨
      ((coreAt q acc t).rx.full = true ∧ (coreAt q acc t).rxFifoPop (acc t) = false ∧
        (coreAt q acc (t + 1)).rxOverrunQ = true ∧ (coreAt q acc (t + 1)).rx = (coreAt q acc t).rx)
  /-- Nothing else is queued. -/
  pushed : ∀ t b, (coreAt q acc t).rxFifoPush (acc t) = some b →
    (coreAt q acc t).rxFrameDone = true ∧ b = (coreAt q acc t).rxEng.shiftQ
  /-- What is queued is popped once, in order, -/
  queued : ∀ t, ∃ l, (coreAt q acc t).rx.Holds l ∧ rx ++ rxPushes q acc t = rxPops q acc t ++ l
  /-- by the RXDATA read that returns it: a read of an empty FIFO pops nothing, -/
  popped : ∀ t, (coreAt q acc t).rxFifoPop (acc t) = true ↔
    (acc t).rd = some REG_RXDATA ∧ (coreAt q acc t).rx.empty = false
  /-- and a read of a FIFO that is not empty returns its oldest byte. -/
  read : ∀ t l, (coreAt q acc t).rx.Holds l → ∀ b ∈ l.head?, (coreAt q acc t).read REG_RXDATA = b.setWidth 32

end Run

/-- No frame is timed with a divisor of 0. -/
private theorem Timed.run (h : Timed q acc) (t : Nat) : (coreAt q acc t).divQ ≠ 0 ∧
    ((coreAt q acc t).divPendingValidQ = true → (coreAt q acc t).divPendingQ ≠ 0) := by
  induction t with
  | zero => exact ⟨h.live, h.pending⟩
  | succ t ih =>
    constructor
    · change (coreAt q acc t).divD ≠ 0
      rw [divD]
      split
      · rename_i ha
        rw [divApply, Bool.and_assoc, Bool.and_eq_true] at ha
        exact ih.2 ha.1
      · exact ih.1
    · intro hv
      change ((((acc t).wrAt REG_BAUDDIV).map fun x => x.data.setWidth 16).getD (coreAt q acc t).divPendingQ) ≠ 0
      cases hw : (acc t).wrAt REG_BAUDDIV with
      | none =>
        have hv' : (coreAt q acc t).divPendingValidQ = true := by
          have :
            (!(coreAt q acc t).divApply && ((coreAt q acc t).divPendingValidQ || ((acc t).wrAt REG_BAUDDIV).isSome)) =
              true := hv
          rw [hw, Option.isSome_none, Bool.or_false, Bool.and_eq_true] at this
          exact this.2
        exact ih.2 hv'
      | some x => exact h.written t x hw

private theorem one_le_of_ne_zero {x : BitVec 16} (h : x ≠ 0) : 1 ≤ x.toNat :=
  Nat.one_le_iff_ne_zero.mpr fun h0 => h (BitVec.eq_of_toNat_eq h0)

/-- A frame that has just been launched stays under way. -/
private theorem flight_ahead {t e : Nat} (h : flight q acc t = some (div, b, e)) (k : Nat)
    (hk : e + k < 10 * (div.toNat + 1)) : flight q acc (t + k) = some (div, b, e + k) := by
  induction k with
  | zero => exact h
  | succ k ih =>
    rw [← Nat.add_assoc, flight_succ, ih (by omega), flightNext, if_pos (by omega), Nat.add_assoc]

private theorem seen_succ {δ t : Nat} (h : δ ≤ t) :
    seen q acc δ (t + 1) = flightNext (seen q acc δ t) (coreAt q acc (t - δ)) := by
  have hsub : t + 1 - δ = t - δ + 1 := by omega
  rw [seen, seen, if_neg (by omega), if_neg (by omega), hsub, flight_succ]

variable (q acc) in
private theorem seen_early {δ t : Nat} (h : t ≤ δ) : seen q acc δ t = none := by
  rw [seen]
  split
  · rfl
  · have : t - δ = 0 := by omega
    rw [this]
    rfl

private theorem rxd_eq {δ : Nat} (h0 : Quiet q tx rx) (hl : Looped q acc δ) (t : Nat) :
    (acc t).ext = flightLevel (seen q acc δ t) := by
  rw [hl t, seen]
  split
  · rfl
  · exact (inFlight_run acc h0 _).txd

private theorem inFlight_seen {δ t : Nat} (h0 : Quiet q tx rx) (hs : seen q acc δ t = some (div, b, e)) :
    InFlight (some (div, b, e)) (coreAt q acc (t - δ)) ∧ δ ≤ t ∧ flight q acc (t - δ) = some (div, b, e) := by
  rw [seen] at hs
  split at hs
  · exact absurd hs (by simp)
  · have := inFlight_run acc h0 (t - δ)
    rw [hs] at this
    exact ⟨this, by omega, hs⟩

/-- Where the receiver is, and that its divisor is the one of the frame it sees. -/
private theorem hears_run {δ : Nat} (h0 : Quiet q tx rx) (hb : Timed q acc) (hδ : δ ≤ 2)
    (hl : Looped q acc δ) (t : Nat) :
    Hears (seen q acc δ t) (coreAt q acc t).rxEng ∧ ∀ div b e, seen q acc δ t = some (div, b, e) →
      (coreAt q acc t).rxEng.stateQ ≠ .idle → (coreAt q acc t).divQ = div := by
  induction t with
  | zero =>
    have hs : seen q acc δ 0 = none := seen_early q acc (Nat.zero_le _)
    rw [hs]
    exact ⟨h0.rxIdle, fun _ _ _ h => absurd h (by simp)⟩
  | succ t ih =>
    obtain ⟨h1, h2⟩ := ih
    have hrxd := rxd_eq h0 hl t
    have heng : (coreAt q acc (t + 1)).rxEng = (coreAt q acc t).rxEng.next (coreAt q acc t).divQ (acc t).ext := rfl
    rcases Nat.lt_or_ge t δ with hlt | hge
    · have hs := seen_early q acc (Nat.succ_le_of_lt hlt)
      have hs0 := seen_early q acc hlt.le
      rw [hs0] at h1 hrxd
      rw [hs]
      refine ⟨?_, fun _ _ _ h => absurd h (by simp)⟩
      change (coreAt q acc (t + 1)).rxEng.stateQ = .idle
      have hidle : (coreAt q acc t).rxEng.stateQ = .idle := h1
      rw [heng, hrxd]
      simp [UartRx.next, hidle, flightLevel]
    · rw [seen_succ hge]
      cases hs : seen q acc δ t with
      | none =>
        rw [hs] at h1 hrxd
        have hidle : (coreAt q acc t).rxEng.stateQ = .idle := h1
        have hidle' : (coreAt q acc (t + 1)).rxEng.stateQ = .idle := by
          rw [heng, hrxd]
          simp [UartRx.next, hidle, flightLevel]
        refine ⟨?_, fun _ _ _ _ h => absurd hidle' h⟩
        rw [flightNext]
        cases (coreAt q acc (t - δ)).txHead with
        | none => exact hidle'
        | some b => exact .before hidle'
      | some x =>
        obtain ⟨div, b, e⟩ := x
        obtain ⟨hf, -, hfl⟩ := inFlight_seen h0 hs
        rw [hs] at h1 hrxd
        have h1' : RxAt div b e (coreAt q acc t).rxEng := h1
        have hdiv : 1 ≤ div.toNat := one_le_of_ne_zero (hf.1 ▸ (hb.run (t - δ)).1)
        have hstep := h1'.next hdiv hf.2.1 (h2 div b e hs)
        rw [heng, hrxd, flightNext]
        change (if e + 1 < _ then RxAt div b (e + 1) (UartRx.next _ _ (flightLevel (some (div, b, e)))) else
          (UartRx.next _ _ (flightLevel (some (div, b, e)))).stateQ = .idle) at hstep
        split at hstep
        · rename_i hlt
          rw [if_pos hlt]
          refine ⟨hstep, fun div' b' e' he hbusy => ?_⟩
          simp only [Option.some.injEq, Prod.mk.injEq] at he
          obtain ⟨rfl, rfl, rfl⟩ := he
          by_cases hidle : (coreAt q acc t).rxEng.stateQ = .idle
          · -- the frame has only just begun for the receiver, so it is still on the line
            have hle : ¬(e + 1 = 0 ∨ lastCycle div < e + 1) := fun h => hbusy (hstep.idle_iff.mpr h)
            have he0 : e = 0 := by
              rcases h1'.idle_iff.mp hidle with h | h
              · exact h
              · omega
            subst he0
            have hahead := flight_ahead hfl (δ + 1) (by omega)
            have hpos : t - δ + (δ + 1) = t + 1 := by omega
            rw [hpos] at hahead
            have hi := inFlight_run acc h0 (t + 1)
            rw [hahead] at hi
            exact hi.1
          · exact (divD_eq (.inr hidle)).trans (h2 div b e hs hidle)
        · rename_i hlt
          rw [if_neg hlt]
          exact ⟨hstep, fun _ _ _ h => absurd h (by simp)⟩

private theorem seenBytes_early {δ t : Nat} (h : t ≤ δ) : seenBytes q acc δ t = [] := by
  rw [seenBytes]
  split
  · rfl
  · have : t - δ = 0 := by omega
    rw [this]
    rfl

private theorem seenBytes_succ {δ t : Nat} (h0 : Quiet q tx rx) (h : δ ≤ t) :
    seenBytes q acc δ (t + 1) = seenBytes q acc δ t ++
      ((if seen q acc δ t = none then launch (coreAt q acc (t - δ)) else none).map Prod.snd).toList := by
  have hsub : t + 1 - δ = t - δ + 1 := by omega
  have hs : seen q acc δ t = flight q acc (t - δ) := by rw [seen, if_neg (by omega)]
  rw [hs, launch_idle (inFlight_run acc h0 (t - δ)), seenBytes, seenBytes, if_neg (by omega), if_neg (by omega), hsub,
    launches, logFrom_succ, Nat.zero_add, List.map_append]
  cases launch (coreAt q acc (t - δ)) <;> rfl

/-- The receiver completes what it sees, frame by frame. -/
private theorem heard_run {δ : Nat} (h0 : Quiet q tx rx) (hb : Timed q acc) (hδ : δ ≤ 2)
    (hl : Looped q acc δ) (t : Nat) :
    seenBytes q acc δ t = heard q acc t ++ unheard (seen q acc δ t) := by
  induction t with
  | zero =>
    rw [seenBytes_early (Nat.zero_le _), seen_early q acc (Nat.zero_le _)]
    rfl
  | succ t ih =>
    obtain ⟨h1, h2⟩ := hears_run h0 hb hδ hl t
    rw [heard, logFrom_succ, Nat.zero_add, ← heard]
    have hidle : ∀ {q : Uart wt wr}, q.rxEng.stateQ = .idle →
        (if q.rxFrameDone then some q.rxEng.shiftQ else none) = none := by
      intro q h
      simp [rxFrameDone, UartRx.frameDone, h]
    rcases Nat.lt_or_ge t δ with hlt | hge
    · rw [seen_early q acc hlt.le] at ih h1
      rw [seenBytes_early hlt, seen_early q acc (Nat.succ_le_of_lt hlt), hidle h1]
      rw [seenBytes_early hlt.le] at ih
      rw [← List.append_nil (heard q acc t)] at ih
      simpa [unheard] using ih
    · rw [seenBytes_succ h0 hge, seen_succ hge, ih]
      cases hs : seen q acc δ t with
      | none =>
        rw [hs] at h1
        rw [hidle h1, if_pos rfl, flightNext, launch]
        cases (coreAt q acc (t - δ)).txHead with
        | none => simp [unheard]
        | some b => simp [unheard]
      | some x =>
        obtain ⟨div, b, e⟩ := x
        obtain ⟨hf, -, -⟩ := inFlight_seen h0 hs
        rw [hs] at h1
        have hdiv : 1 ≤ div.toNat := one_le_of_ne_zero (hf.1 ▸ (hb.run (t - δ)).1)
        have hhalf : div.toNat / 2 < div.toNat := Nat.div_lt_self hdiv (by decide)
        have hev := RxAt.heard h1 (h2 div b e hs)
        have hlt10 := hf.2.1
        have hlast : lastCycle div < 10 * (div.toNat + 1) := by rw [lastCycle]; omega
        rw [if_neg (by simp), flightNext, rxFrameDone, hev]
        rcases Nat.lt_trichotomy e (lastCycle div) with hlt | heq | hgt
        · simp [unheard, hlt.le, hlt.ne, show e + 1 < 10 * (div.toNat + 1) by omega, hlt]
        · have hnot : ¬e + 1 ≤ lastCycle div := by omega
          rw [if_pos heq]
          split <;> simp [unheard, heq]
        · have hnot : ¬e ≤ lastCycle div := by omega
          have hnot' : ¬e + 1 ≤ lastCycle div := by omega
          have hne : e ≠ lastCycle div := by omega
          rw [if_neg hne]
          split <;> simp [unheard, hnot, hnot']

theorem rx_run (h0 : Quiet q tx rx) (t : Nat) :
    ∃ l, (coreAt q acc t).rx.Holds l ∧ rx ++ rxPushes q acc t = rxPops q acc t ++ l := by
  refine Fifo.Holds.run (fun q : Uart wt wr => q.rx) (fun q i => q.rxFifoPush i) (fun q i => q.rxFifoPop i)
    h0.rx ?_ ?_ ?_ t
  · intro s i
    rfl
  · intro s i h
    rw [rxFifoPop, Bool.and_eq_true, rxReady, Bool.not_eq_true'] at h
    exact h.2
  · intro s i h
    cases hf : s.rx.full with
    | false => exact .inl rfl
    | true =>
      cases hp : s.rxFifoPop i with
      | true => exact .inr rfl
      | false => simp [rxFifoPush, hf, hp] at h

theorem dropped_overrun (q : Uart wt wr) (i : RegAccess (BitVec 3) Bool) (h : q.rxFrameDone = true) :
    q.rxFifoPush i = some q.rxEng.shiftQ ∨
      (q.rx.full = true ∧ q.rxFifoPop i = false ∧ (q.next i).rxOverrunQ = true ∧ (q.next i).rx = q.rx) := by
  by_cases hroom : (!q.rx.full || q.rxFifoPop i) = true
  · exact .inl (by simp [rxFifoPush, h, hroom])
  · rw [Bool.not_eq_true, Bool.or_eq_false_iff, Bool.not_eq_false'] at hroom
    obtain ⟨hf, hp⟩ := hroom
    refine .inr ⟨hf, hp, by simp [Uart.next, rxOverrunEv, h, hf, hp], ?_⟩
    simp [Uart.next, rxFifoPush, hf, hp, Fifo.step]

private theorem receives {δ : Nat} (h0 : Quiet q tx rx) (hb : Timed q acc) (hδ : δ ≤ 2) (hl : Looped q acc δ) :
    Receives q acc rx where
  heard t := by
    have hrun := heard_run h0 hb hδ hl t
    have hpre : heard q acc t <+: seenBytes q acc δ t := hrun ▸ List.prefix_append _ _
    refine hpre.trans ?_
    rw [seenBytes]
    split
    · exact List.nil_prefix
    · have : launches q acc (t - δ) <+: launches q acc t := logFrom_prefix 0 (Nat.sub_le t δ)
      exact this.map _
  heard_all t := by
    obtain ⟨v, hv, hf⟩ := exists_landed acc h0 t
    have hrun := heard_run h0 hb hδ hl (v + δ)
    have hseen : seen q acc δ (v + δ) = none := by rw [seen, if_neg (by omega), Nat.add_sub_cancel, hf]
    rw [hseen, unheard, List.append_nil, seenBytes, if_neg (by omega), Nat.add_sub_cancel] at hrun
    have : launches q acc t <+: launches q acc v := logFrom_prefix 0 hv
    exact ⟨v + δ, by omega, hrun ▸ this.map _⟩
  dropped t h := dropped_overrun _ _ h
  pushed t b h := by
    rw [rxFifoPush] at h
    split at h
    · rename_i hc
      rw [Bool.and_eq_true] at hc
      exact ⟨hc.1, (Option.some.inj h).symm⟩
    · exact absurd h (by simp)
  queued := rx_run h0
  popped t := by
    rw [rxFifoPop, rxRead, rxReady, Bool.and_eq_true, beq_iff_eq, Bool.not_eq_true']
  read t l hl b hb := congrArg (BitVec.setWidth 32) (hl.oldest hb).2

/-- The byte stream of the UART: whatever is on `rxd_i`, the line carries the bytes written to TXDATA as 8N1 frames;
and when the line comes back within two cycles, the receiver delivers them. -/
theorem byte_stream (s : RegSlave (BitVec 3) (Uart wt wr)) (inp : Nat → SlaveIn Bool) (tx rx : List Byte)
    (h0 : Quiet s.core tx rx) (hb : Timed s.core (s.accesses device inp)) :
    Transmits s.core (s.accesses device inp) tx ∧
      ∀ δ ≤ 2, (∀ t, (inp t).ext = if t < δ then true else (trace (RegSlave.next device) s inp (t - δ)).core.txd) →
        Receives s.core (s.accesses device inp) rx := by
  have hg : Gated s.core (s.accesses device inp) := by
    intro t ht
    rw [txPush, Option.isSome_map] at ht
    obtain ⟨x, hx⟩ := Option.isSome_iff_exists.mp ht
    rw [RegAccess.wrAt, Option.filter_eq_some_iff, Bool.and_eq_true, beq_iff_eq] at hx
    have hold := RegSlave.hold_of_write _ _ _ hx.1
    rw [RegSlave.core_trace, hx.2.2] at hold
    simpa [device] using hold
  refine ⟨transmits h0 hg, fun δ hδ hl => receives h0 hb hδ fun t => ?_⟩
  have := hl t
  rwa [RegSlave.core_trace] at this

/-! ### One byte from reset

BAUDDIV resets to 1, 0xA5 is written to TXDATA in cycle 0, and the line comes back one cycle late. -/

def singleStart : RegSlave (BitVec 3) (Uart 1 1) where
  port := ⟨false, false, 0, 0, 0, false, false, 0⟩
  core := reset 1 (fun _ => 0) (fun _ => 0)

/-- The line, cycle by cycle. -/
def singleLine (t : Nat) : Bool := if t < 2 then true else level 2 (0xA5#8) (t - 2)

def singleIn (t : Nat) : SlaveIn Bool where
  m :=
    { awaddr := 0x00, awvalid := t == 0, wdata := 0xA5, wstrb := 1, wvalid := t == 0, bready := true, araddr := 0,
      arvalid := false, rready := true }
  ext := singleLine (t - 1)

private theorem single_quiet {t : Nat} (ht : 0 < t) :
    singleStart.accesses device singleIn t = ⟨none, none, singleLine (t - 1)⟩ := by
  have hm : ∀ u, 1 ≤ u → (singleIn u).m.awvalid = false ∧ (singleIn u).m.arvalid = false := by
    intro u hu
    refine ⟨?_, rfl⟩
    simp [singleIn]
    omega
  exact RegSlave.accesses_quiet device singleStart rfl hm ht

/-- A transmitter with nothing to send. -/
structure Rests (q : Uart wt wr) : Prop where
  idle : q.txEng.stateQ = .idle
  txd : q.txd = true
  empty : q.tx.empty = true

private theorem Rests.next (h : Rests q) (rxd : Bool) : Rests (q.next ⟨none, none, rxd⟩) := by
  have hp : q.txFifoPop = false := by simp [txFifoPop, h.empty]
  have hh : q.txHead = none := by simp [txHead, hp]
  have hn : (q.next ⟨none, none, rxd⟩).txEng = { q.txEng with baudCntQ := 0 } := by
    simp [Uart.next, UartTx.next, h.idle, hh]
  refine ⟨by rw [hn]; exact h.idle, by rw [Uart.txd, hn]; exact h.txd, ?_⟩
  have := h.empty
  simpa [Uart.next, Fifo.step, Fifo.empty, txPush, RegAccess.wrAt, hp] using this

private theorem single_txd (t : Nat) : (trace (RegSlave.next device) singleStart singleIn t).core.txd =
    singleLine t := by
  rcases Nat.lt_or_ge t 24 with ht | ht
  · revert t
    decide +kernel
  · have hrest : Rests (trace (RegSlave.next device) singleStart singleIn t).core := by
      induction t, ht using Nat.le_induction with
      | base => exact ⟨by decide +kernel, by decide +kernel, by decide +kernel⟩
      | succ t ht ih =>
        rw [trace_succ]
        have hacc := single_quiet (t := t) (by omega)
        rw [RegSlave.accesses] at hacc
        change Rests (Uart.next _ _)
        rw [hacc]
        exact ih.next _
    have hdiv : 10 ≤ (t - 2) / 2 := by omega
    rw [hrest.txd, singleLine, if_neg (by omega), level, List.getD_eq_getElem?_getD,
      List.getElem?_eq_none (by simpa using hdiv)]
    rfl

private theorem single_timed : Timed singleStart.core (singleStart.accesses device singleIn) := by
  refine ⟨by decide, fun h => absurd h (by decide), fun t x hx => ?_⟩
  rcases Nat.eq_zero_or_pos t with rfl | ht
  · have : (singleStart.accesses device singleIn 0).wrAt REG_BAUDDIV = none := by decide +kernel
    rw [this] at hx
    exact absurd hx (by simp)
  · rw [single_quiet ht] at hx
    exact absurd hx (by simp [RegAccess.wrAt])

/-- 0xA5 goes out and comes back. -/
theorem byte_stream_single :
    Transmits singleStart.core (singleStart.accesses device singleIn) [] ∧
      Receives singleStart.core (singleStart.accesses device singleIn) [] := by
  have h := byte_stream singleStart singleIn [] []
    ⟨rfl, rfl, rfl, Fifo.holds_reset _, Fifo.holds_reset _⟩ single_timed
  refine ⟨h.1, h.2 1 (by decide) fun t => ?_⟩
  rw [single_txd]
  change singleLine (t - 1) = _
  split
  · rename_i ht
    obtain rfl : t = 0 := by omega
    rfl
  · rfl

end Yarv.Uart
