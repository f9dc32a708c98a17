import Yarv.Periph.I2s

/-!
# What the I2S receiver makes of a transmission

An `I2sTransmitter` moves WS and SD on falling BCLK edges.  `Phase` says what the engine knows before the rising edge
of bit `n`, `Phase.edge` follows it over one rising edge, and `phase_run` over a run.  A word is requested exactly
when its slot leaves room for its last bit, which is what `received_iff` rests on.
-/

namespace Yarv

open Clocked

/-- A transmission: the setting the receiver is enabled with, the slots with their words, and BCLK cycle by cycle.
Cycle 0, in which `phase` bits are over, is the last one before ENABLE is set. -/
structure I2sTransmitter where
  ctrl : I2sCtrl
  slot : Nat
  word : Nat → Word
  /-- The channel of the even words. -/
  even : Bool
  phase : Nat
  bclk : Nat → Bool
  pad : Nat → Bool

namespace I2sTransmitter

variable (x : I2sTransmitter)

/-! ### The lines -/

/-- The word length in bits. -/
def len : Nat := x.ctrl.wlen.toNat

/-- The bits between the WS transition of a word and its MSB. -/
def lead : Nat := if x.ctrl.formatLjQ then 0 else 1

/-- The bit on the line: one more after each falling edge. -/
def bit : Nat → Nat
  | 0 => x.phase
  | t + 1 => bit t + (x.bclk t && !x.bclk (t + 1)).toNat

def ch (j : Nat) : Bool := x.even ^^ decide (j % 2 = 1)

/-- WS during bit `k`. -/
def ws (k : Nat) : Bool := x.ch (k / x.slot)

/-- SD during bit `k`: MSB first, and padding behind the word. -/
def sd (k : Nat) : Bool :=
  if x.lead ≤ k ∧ (k - x.lead) % x.slot < x.len then
    (x.word ((k - x.lead) / x.slot)).getLsbD (x.len - 1 - (k - x.lead) % x.slot)
  else x.pad k

/-- The synchronized lines in cycle `t`.  BCLK half-periods of any length will do. -/
def pins (t : Nat) : I2sPins := ⟨x.bclk t, x.ws (x.bit t), x.sd (x.bit t)⟩

/-- The bits whose rising edge is over after cycle `t`. -/
def risen (t : Nat) : Nat := x.bit t + (x.bclk t).toNat

/-! ### What is to be received -/

/-- The word of the slot behind the one in which ENABLE is set. -/
def first : Nat := x.phase / x.slot + 1

/-- The number of words whose last bit is among the first `n`. -/
def completed (n : Nat) : Nat := (n + x.slot - (x.len + x.lead)) / x.slot

/-- A word as software is to see it: sign-extended, with its channel. -/
def sample (j : Nat) : Word × Bool := (((x.word j).setWidth x.len).signExtend 32, x.ch j)

/-- The same when it is to be received at all. -/
def accepted (j : Nat) : Option (Word × Bool) :=
  if x.first ≤ j ∧ x.ctrl.chAccept (x.ch j) = true then some (x.sample j) else none

/-- The words to be received from the first `n` bits. -/
def delivered (n : Nat) : List (Word × Bool) := (List.range (x.completed n)).filterMap x.accepted

/-- The word that bit `n` completes. -/
def ending (n : Nat) : Option (Word × Bool) :=
  if x.slot ∣ n + 1 + x.slot - (x.len + x.lead) then x.accepted (x.completed n) else none

/-- Every slot leaves room for the last bit of its word. -/
def Roomy : Prop := x.len + x.lead ≤ x.slot

instance : Decidable x.Roomy := inferInstanceAs (Decidable (_ ≤ _))

/-- The link is enabled, and a word fits its slot. -/
structure Valid : Prop where
  enable : x.ctrl.enableQ = true
  slot : x.len ≤ x.slot

variable {x}

private theorem len_mem (x : I2sTransmitter) : 8 ≤ x.len ∧ x.len ≤ 32 := by
  have : ∀ s : BitVec 2, 8 ≤ (I2sCtrl.wlen ⟨true, 0, true, s⟩).toNat ∧
      (I2sCtrl.wlen ⟨true, 0, true, s⟩).toNat ≤ 32 := by
    decide
  exact this x.ctrl.wlenSelQ

private theorem lead_le (x : I2sTransmitter) : x.lead ≤ 1 := by
  rw [lead]
  split <;> omega

private theorem Valid.slot_pos (h : x.Valid) : 0 < x.slot := by
  have := x.len_mem
  have := h.slot
  omega

private theorem ch_succ (x : I2sTransmitter) (j : Nat) : x.ch (j + 1) = !x.ch j := by
  rw [ch, ch]
  rcases Nat.mod_two_eq_zero_or_one j with h | h
  · simp [h, Nat.add_mod]
  · simp [h, Nat.add_mod]

private theorem lt_completed (hr : x.Roomy) (hp : 0 < x.slot) (j n : Nat) :
    j < x.completed n ↔ j * x.slot + x.len + x.lead ≤ n := by
  have := hr
  rw [Roomy] at this
  rw [completed, Nat.lt_div_iff_mul_lt hp]
  constructor
  · intro h
    omega
  · intro h
    omega

private theorem delivered_succ (hr : x.Roomy) (n : Nat) :
    x.delivered (n + 1) = x.delivered n ++ (x.ending n).toList := by
  have hsub : n + 1 + x.slot - (x.len + x.lead) = n + x.slot - (x.len + x.lead) + 1 := by
    have := hr
    rw [Roomy] at this
    omega
  rw [delivered, delivered, ending, completed, hsub, Nat.succ_div]
  split
  · rw [List.range_succ, List.filterMap_append, ← completed]
    cases h : x.accepted (x.completed n) <;> simp [h]
  · simp [completed]

/-- The word bit `n` completes is the one whose slot says so. -/
private theorem ending_eq (hr : x.Roomy) (hp : 0 < x.slot) {j n : Nat} (hn : n + 1 = j * x.slot + x.len + x.lead) :
    x.ending n = x.accepted j := by
  have hr' := hr
  rw [Roomy] at hr'
  have h1 : n + 1 + x.slot - (x.len + x.lead) = (j + 1) * x.slot := by
    rw [Nat.succ_mul]
    omega
  have h2 : x.completed n = j := by
    have h3 := (lt_completed hr hp j n).not
    have h4 := lt_completed hr hp (j - 1) n
    rcases Nat.eq_zero_or_pos j with rfl | hj
    · omega
    · have h5 : (j - 1) * x.slot + x.slot = j * x.slot := by
        rw [← Nat.succ_mul]
        congr 1
        omega
      omega
  rw [ending, h1, h2, if_pos (Dvd.intro_left _ rfl)]

private theorem ending_eq_none (hr : x.Roomy) (hp : 0 < x.slot) {n : Nat}
    (hn : ∀ j, x.first ≤ j → n + 1 ≠ j * x.slot + x.len + x.lead) : x.ending n = none := by
  rw [ending]
  split
  · rename_i hd
    obtain ⟨k, hk⟩ := hd
    have hr' := hr
    rw [Roomy] at hr'
    rw [accepted, if_neg]
    rintro ⟨hf, -⟩
    have hover : x.completed n + 1 = k := by
      have h1 : n + x.slot - (x.len + x.lead) + 1 = x.slot * k := by omega
      have h2 : (n + x.slot - (x.len + x.lead) + 1) / x.slot = k := by rw [h1, Nat.mul_div_cancel_left _ hp]
      rw [Nat.succ_div, if_pos ⟨k, h1⟩] at h2
      exact h2
    refine hn _ hf ?_
    rw [← hover, Nat.mul_succ, Nat.mul_comm] at hk
    omega
  · rfl

/-! ### The lines bit by bit -/

private theorem ws_slot {j k : Nat} (h1 : j * x.slot ≤ k) (h2 : k < (j + 1) * x.slot) : x.ws k = x.ch j := by
  rw [ws, Nat.div_eq_of_lt_le h1 h2]

/-- Bit `i` of word `j`, most significant bit first. -/
private theorem sd_word (hp : 0 < x.slot) {j i : Nat} (hi : i < x.len) (hs : i < x.slot) :
    x.sd (j * x.slot + x.lead + i) = (x.word j).getLsbD (x.len - 1 - i) := by
  have h1 : j * x.slot + x.lead + i - x.lead = x.slot * j + i := by
    rw [Nat.mul_comm]
    omega
  have h2 : (x.slot * j + i) / x.slot = j := by
    rw [Nat.mul_add_div hp, Nat.div_eq_of_lt hs, Nat.add_zero]
  have h3 : (x.slot * j + i) % x.slot = i := by rw [Nat.mul_add_mod, Nat.mod_eq_of_lt hs]
  rw [sd, h1, h2, h3, if_pos ⟨by omega, hi⟩]

private theorem sampleExt_len (c : I2sCtrl) (r : Word) : c.sampleExt r = (r.setWidth c.wlen.toNat).signExtend 32 := by
  obtain ⟨e, ch, lj, s⟩ := c
  have hs : s = 0 ∨ s = 1 ∨ s = 2 ∨ s = 3 := by
    revert s
    decide
  rcases hs with rfl | rfl | rfl | rfl
  · rfl
  · rfl
  · change r = (r.setWidth 32).signExtend 32
    rw [BitVec.setWidth_eq, BitVec.signExtend_eq]
  · rfl

/-- The sign extension of the engine looks at the low bits only. -/
private theorem sampleExt_eq (x : I2sTransmitter) {r : Word} {j : Nat}
    (h : ∀ e < x.len, r.getLsbD e = (x.word j).getLsbD e) : x.ctrl.sampleExt r = (x.sample j).1 := by
  have hlow : r.setWidth x.len = (x.word j).setWidth x.len := by
    apply BitVec.eq_of_getLsbD_eq
    intro e he
    rw [BitVec.getLsbD_setWidth, BitVec.getLsbD_setWidth, h e he]
  rw [sampleExt_len, sample]
  exact congrArg _ hlow

/-! ### The engine -/

/-- The bits of its word the engine has taken after `i + 1` bits of a slot. -/
def taken (i : Nat) : Nat := i + 1 - x.lead

/-- After `i + 1` bits of slot `j`. -/
structure InSlot (x : I2sTransmitter) (j i : Nat) (g : I2sEngine) : Prop where
  bound : i < x.slot
  ws : g.wsPrevQ = x.ch j
  cur : g.curChQ = x.ch j
  collecting : g.collectingQ = decide (x.taken i < x.len)
  cnt : x.taken i < x.len → g.bitCntQ.toNat = x.taken i
  shift : ∀ e < x.taken i, x.taken i < x.len → g.shiftQ.getLsbD e = (x.word j).getLsbD (x.len - x.taken i + e)

/-- What the engine knows before the rising edge of bit `n`. -/
inductive Phase (x : I2sTransmitter) : Nat → I2sEngine → Prop
  /-- No WS transition has been seen since ENABLE was set. -/
  | waiting {n g} : (x.first - 1) * x.slot ≤ n → n ≤ x.first * x.slot → g.wsPrevQ = x.ch (x.first - 1) →
      g.collectingQ = false → Phase x n g
  | slot {n j i g} : x.first ≤ j → n = j * x.slot + i + 1 → InSlot x j i g → Phase x n g

variable {g : I2sEngine}

/-- The lines on the rising edge of bit `n`. -/
def edgePins (x : I2sTransmitter) (n : Nat) : I2sPins := ⟨true, x.ws n, x.sd n⟩

private theorem lastBit_iff (g : I2sEngine) : g.lastBit x.ctrl = true ↔ g.bitCntQ.toNat + 1 = x.len := by
  have h : ∀ s : BitVec 2, ∀ b : BitVec 6, b = I2sCtrl.wlen ⟨true, 0, true, s⟩ - 1 ↔
      b.toNat + 1 = (I2sCtrl.wlen ⟨true, 0, true, s⟩).toNat := by
    decide +kernel
  rw [I2sEngine.lastBit, beq_iff_eq]
  exact h x.ctrl.wlenSelQ g.bitCntQ

private theorem next_rise {c : I2sCtrl} {p : I2sPins} (he : c.enableQ = true) (hr : g.bclkRise p = true) :
    g.next c p =
      if g.wsChange p then g.start c p
      else if g.collectingQ then g.capture c p
      else { g with bclkQ := p.bclk, wsPrevQ := p.lrck } := by
  simp [I2sEngine.next, he, hr]

/-- A new slot: the word of the last one is left behind, whether it was over or not. -/
private theorem edge_start (hv : x.Valid) (hb : g.bclkQ = false) (j : Nat) (hw : g.wsPrevQ ≠ x.ch j) :
    InSlot x j 0 (g.next x.ctrl (x.edgePins (j * x.slot))) ∧ g.rxPushReq x.ctrl (x.edgePins (j * x.slot)) = none := by
  have hp := hv.slot_pos
  have hws : x.ws (j * x.slot) = x.ch j := ws_slot le_rfl (by rw [Nat.succ_mul]; omega)
  have hr : g.bclkRise (x.edgePins (j * x.slot)) = true := by simp [I2sEngine.bclkRise, edgePins, hb]
  have hch : g.wsChange (x.edgePins (j * x.slot)) = true := by
    rw [I2sEngine.wsChange, hr]
    simp [edgePins, hws, Ne.symm hw]
  have hn : g.next x.ctrl (x.edgePins (j * x.slot)) = g.start x.ctrl (x.edgePins (j * x.slot)) := by
    rw [next_rise hv.enable hr, if_pos hch]
  have hlen := x.len_mem
  refine ⟨?_, by simp [I2sEngine.rxPushReq, I2sEngine.wordDone, hch]⟩
  rw [hn]
  cases hf : x.ctrl.formatLjQ with
  | true =>
    have hl : x.lead = 0 := by rw [lead, hf, if_pos rfl]
    have ht : x.taken 0 = 1 := by rw [taken, hl]
    refine ⟨hp, hws, hws, ?_, ?_, ?_⟩
    · rw [ht, I2sEngine.start]
      simp
      omega
    · intro _
      rw [ht, I2sEngine.start, hf]
      rfl
    · intro e he _
      rw [ht] at he ⊢
      have hz : e = 0 := by omega
      have hsd := sd_word hp (j := j) (i := 0) (by omega) hp
      simp only [hl, Nat.add_zero, Nat.sub_zero] at hsd
      subst hz
      rw [I2sEngine.start, hf, I2sEngine.shiftNew, edgePins]
      simp only [if_pos, ShiftReg.getLsbD_shiftIn, hsd]
      simp
  | false =>
    have hl : x.lead = 1 := by simp [lead, hf]
    have ht : x.taken 0 = 0 := by rw [taken, hl]
    refine ⟨hp, hws, hws, ?_, ?_, ?_⟩
    · rw [ht, I2sEngine.start]
      simp
      omega
    · intro _
      rw [ht, I2sEngine.start, hf]
      rfl
    · intro e he _
      omega

private theorem taken_succ (x : I2sTransmitter) (i : Nat) : x.taken (i + 1) = x.taken i + 1 := by
  have := x.lead_le
  rw [taken, taken]
  omega

/-- A bit in the middle of a slot. -/
private theorem InSlot.edge {j i : Nat} (h : InSlot x j i g) (hv : x.Valid) (hb : g.bclkQ = false)
    (hi : i + 1 < x.slot) :
    InSlot x j (i + 1) (g.next x.ctrl (x.edgePins (j * x.slot + i + 1))) ∧
      g.rxPushReq x.ctrl (x.edgePins (j * x.slot + i + 1)) =
        if x.taken i + 1 = x.len ∧ x.ctrl.chAccept (x.ch j) = true then some (x.sample j) else none := by
  have hws : x.ws (j * x.slot + i + 1) = x.ch j := ws_slot (by omega) (by rw [Nat.succ_mul]; omega)
  have hr : g.bclkRise (x.edgePins (j * x.slot + i + 1)) = true := by simp [I2sEngine.bclkRise, edgePins, hb]
  have hch : g.wsChange (x.edgePins (j * x.slot + i + 1)) = false := by
    simp [I2sEngine.wsChange, edgePins, hws, h.ws]
  have hnext := next_rise hv.enable hr
  rw [if_neg (by simp [hch])] at hnext
  rw [hnext]
  by_cases ht : x.taken i < x.len
  · -- the bit belongs to the word
    have hc : g.collectingQ = true := by simp [h.collecting, ht]
    have hsd : x.sd (j * x.slot + i + 1) = (x.word j).getLsbD (x.len - 1 - x.taken i) := by
      have hle := x.lead_le
      have hpos : j * x.slot + i + 1 = j * x.slot + x.lead + x.taken i := by
        rw [taken]
        omega
      rw [hpos]
      exact sd_word hv.slot_pos ht (by have := hv.slot; omega)
    have hshift : ∀ e < x.taken i + 1, (g.shiftNew (x.edgePins (j * x.slot + i + 1))).getLsbD e =
        (x.word j).getLsbD (x.len - (x.taken i + 1) + e) := by
      intro e he
      have h32 := x.len_mem
      rw [I2sEngine.shiftNew, edgePins, ShiftReg.getLsbD_shiftIn, hsd]
      rcases Nat.eq_zero_or_pos e with rfl | hpos
      · simp [Nat.sub_sub, Nat.add_comm]
      · have hw : x.len - x.taken i + (e - 1) = x.len - (x.taken i + 1) + e := by omega
        rw [if_neg (by omega), h.shift (e - 1) (by omega) ht, hw]
        simp
        omega
    have hlast : g.lastBit x.ctrl = decide (x.taken i + 1 = x.len) := by
      rw [Bool.eq_iff_iff, lastBit_iff, h.cnt ht, decide_eq_true_iff]
    rw [if_pos hc]
    refine ⟨⟨hi, hws, h.cur, ?_, ?_, ?_⟩, ?_⟩
    · change (!g.lastBit x.ctrl) = _
      rw [taken_succ, hlast, ← decide_not, decide_eq_decide]
      omega
    · intro hlt
      rw [taken_succ] at hlt ⊢
      have hne : x.taken i + 1 ≠ x.len := by omega
      have h32 := x.len_mem
      have hcnt := h.cnt ht
      simp only [I2sEngine.capture, hlast, hne, decide_false, Bool.false_eq_true, if_false]
      have h1 : (1 : BitVec 6).toNat = 1 := rfl
      rw [BitVec.toNat_add, hcnt, h1]
      exact Nat.mod_eq_of_lt (by omega)
    · intro e he _
      rw [taken_succ] at he ⊢
      exact hshift e he
    · rw [I2sEngine.rxPushReq, I2sEngine.wordDone, hr, hv.enable, hc, hch, hlast, h.cur]
      by_cases hd : x.taken i + 1 = x.len
      · have hext := sampleExt_eq x (j := j) (r := g.shiftNew (x.edgePins (j * x.slot + i + 1))) (by
          intro e he
          rw [hshift e (by omega), hd, Nat.sub_self, Nat.zero_add])
        simp [hd, hext, sample]
      · simp [hd]
  · -- padding
    have hc : g.collectingQ = false := by simp [h.collecting, ht]
    rw [if_neg (by simp [hc])]
    refine ⟨⟨hi, hws, h.cur, ?_, ?_, ?_⟩, ?_⟩
    · rw [taken_succ]
      simp [hc]
      omega
    · intro hlt
      rw [taken_succ] at hlt
      omega
    · intro e _ hlt
      rw [taken_succ] at hlt
      omega
    · rw [if_neg (by omega)]
      simp [I2sEngine.rxPushReq, I2sEngine.wordDone, hc]

/-- A position is in one slot only. -/
private theorem slot_unique {a b j k : Nat} (ha : 0 < a) (ha' : a ≤ x.slot) (hb : 0 < b) (hb' : b ≤ x.slot)
    (h : j * x.slot + a = k * x.slot + b) : j = k := by
  rcases Nat.lt_trichotomy j k with hlt | heq | hlt
  · have := Nat.mul_le_mul_right x.slot (Nat.succ_le_of_lt hlt)
    rw [Nat.succ_mul] at this
    omega
  · exact heq
  · have := Nat.mul_le_mul_right x.slot (Nat.succ_le_of_lt hlt)
    rw [Nat.succ_mul] at this
    omega

private theorem mul_first_le {j : Nat} (h : x.first ≤ j) : x.first * x.slot ≤ j * x.slot := Nat.mul_le_mul_right _ h

/-- What is requested on the rising edge of bit `n`: nothing at all when the slots are too tight. -/
def request (x : I2sTransmitter) (n : Nat) : Option (Word × Bool) := if x.Roomy then x.ending n else none

private theorem request_eq_none {n : Nat} (hv : x.Valid)
    (hn : ∀ j, x.first ≤ j → n + 1 ≠ j * x.slot + x.len + x.lead) :
    x.request n = none := by
  rw [request]
  split
  · exact ending_eq_none ‹_› hv.slot_pos hn
  · rfl

/-- One rising edge. -/
private theorem Phase.edge {n : Nat} (h : Phase x n g) (hv : x.Valid) (hb : g.bclkQ = false) :
    Phase x (n + 1) (g.next x.ctrl (x.edgePins n)) ∧ g.rxPushReq x.ctrl (x.edgePins n) = x.request n := by
  have hlen := x.len_mem
  have hlead := x.lead_le
  have hslot := hv.slot
  cases h with
  | waiting hlo hhi hw hc =>
    rcases Nat.lt_or_eq_of_le hhi with hlt | rfl
    · -- still the slot in which ENABLE was set
      have hsucc : x.first - 1 + 1 = x.first := by rw [first, Nat.add_sub_cancel]
      have hws : x.ws n = x.ch (x.first - 1) := ws_slot hlo (by rwa [hsucc])
      have hr : g.bclkRise (x.edgePins n) = true := by simp [I2sEngine.bclkRise, edgePins, hb]
      have hch : g.wsChange (x.edgePins n) = false := by simp [I2sEngine.wsChange, edgePins, hws, hw]
      rw [next_rise hv.enable hr, if_neg (by simp [hch]), if_neg (by simp [hc])]
      refine ⟨.waiting (by omega) hlt hws hc, ?_⟩
      rw [request_eq_none hv fun j hj => by have := mul_first_le hj; omega]
      simp [I2sEngine.rxPushReq, I2sEngine.wordDone, hc]
    · -- the first WS transition the engine sees
      have hne : g.wsPrevQ ≠ x.ch x.first := by
        have hsucc := x.ch_succ (x.first - 1)
        rw [first, Nat.add_sub_cancel] at hsucc
        rw [hw, first, Nat.add_sub_cancel, hsucc]
        cases x.ch (x.phase / x.slot) <;> simp
      obtain ⟨h1, h2⟩ := edge_start hv hb x.first hne
      refine ⟨.slot le_rfl rfl h1, ?_⟩
      rw [h2, request_eq_none hv fun j hj => by have := mul_first_le hj; omega]
  | @slot j i _ hj hn hs =>
    subst hn
    rcases Nat.lt_or_eq_of_le (Nat.succ_le_of_lt hs.bound) with hi | hi
    · obtain ⟨h1, h2⟩ := hs.edge hv hb hi
      refine ⟨.slot hj rfl h1, ?_⟩
      have hpos : x.taken i + 1 = x.len ↔ i + 2 = x.len + x.lead := by
        rw [taken]
        omega
      rw [h2]
      by_cases hd : x.taken i + 1 = x.len
      · have hlast := hpos.mp hd
        have hroom : x.Roomy := by
          rw [Roomy]
          omega
        rw [request, if_pos hroom, ending_eq hroom hv.slot_pos (j := j) (by omega), accepted]
        simp [hd, hj]
      · rw [if_neg fun hx => hd hx.1, request]
        split
        · rename_i hroom
          refine (ending_eq_none hroom hv.slot_pos fun k hk he => hd (hpos.mpr ?_)).symm
          have hjk : j = k :=
            slot_unique (a := i + 2) (b := x.len + x.lead) (by omega) (by omega) (by omega) hroom (by omega)
          subst hjk
          omega
        · rfl
    · have hne : g.wsPrevQ ≠ x.ch (j + 1) := by
        rw [hs.ws, ch_succ]
        cases x.ch j <;> simp
      have hn : j * x.slot + i + 1 = (j + 1) * x.slot := by
        rw [Nat.succ_mul]
        omega
      rw [hn]
      obtain ⟨h1, h2⟩ := edge_start hv hb (j + 1) hne
      refine ⟨.slot (by omega) rfl h1, ?_⟩
      rw [h2, request]
      split
      · rename_i hroom
        refine (ending_eq_none hroom hv.slot_pos fun k hk he => ?_).symm
        have hjk : j + 1 = k := by
          refine slot_unique (a := 1) (b := x.len + x.lead) (by omega) (by omega) (by omega) hroom (by omega)
        subst hjk
        omega
      · rfl

/-! ### A run -/

private theorem Phase.setBclk {n : Nat} (h : Phase x n g) (b : Bool) : Phase x n { g with bclkQ := b } := by
  cases h with
  | waiting hlo hhi hw hc => exact .waiting hlo hhi hw hc
  | slot hj hn hs => exact .slot hj hn ⟨hs.bound, hs.ws, hs.cur, hs.collecting, hs.cnt, hs.shift⟩

/-- Only a rising edge brings another bit. -/
private theorem risen_succ (x : I2sTransmitter) (t : Nat) :
    x.risen (t + 1) = x.risen t + (!x.bclk t && x.bclk (t + 1)).toNat := by
  rw [risen, risen, bit]
  cases x.bclk t <;> cases x.bclk (t + 1) <;> simp

private theorem pins_rise {t : Nat} (h0 : x.bclk t = false) (h1 : x.bclk (t + 1) = true) :
    x.pins (t + 1) = x.edgePins (x.risen t) := by
  simp [pins, edgePins, risen, bit, h0, h1]

private theorem first_mul (hv : x.Valid) : (x.first - 1) * x.slot ≤ x.phase ∧ x.phase < x.first * x.slot := by
  have hp := hv.slot_pos
  constructor
  · rw [first, Nat.add_sub_cancel]
    exact Nat.div_mul_le_self _ _
  · rw [first, Nat.succ_mul]
    have := Nat.lt_div_mul_add hp (a := x.phase)
    omega

private theorem delivered_phase (hv : x.Valid) (hr : x.Roomy) : x.delivered (x.risen 0) = [] := by
  have hlen := x.len_mem
  have hfirst := (first_mul hv).2
  have hb : (x.bclk 0).toNat ≤ 1 := Bool.toNat_le _
  rw [delivered, List.filterMap_eq_nil_iff]
  intro j hj
  rw [List.mem_range, lt_completed hr hv.slot_pos, risen, bit] at hj
  rw [accepted, if_neg]
  rintro ⟨hf, -⟩
  have := mul_first_le hf
  omega

section Run

variable {wr : Nat} (q : I2s wr) (acc : Nat → RegAccess (BitVec 3) I2sPins)

abbrev coreAt (t : Nat) : I2s wr := trace I2s.next q acc t

/-- The words the engine wants to push before cycle `t`. -/
def requests (t : Nat) : List (Word × Bool) := logFrom (fun q i => q.rxPushReq i.ext) I2s.next q acc 0 t

/-- The words that come into the FIFO. -/
def pushes (t : Nat) : List (Word × Bool) := logFrom (fun q i => q.rxPush i.ext) I2s.next q acc 0 t

/-- The words RXDATA reads pop. -/
def pops (t : Nat) : List (Word × Bool) :=
  logFrom (Fifo.popped (fun q => q.rx) fun q i => q.rxPop i) I2s.next q acc 0 t

/-- The receiver and the transmitter in one run: the lines are those of the transmitter, and CTRL has its setting from
cycle 1 on. -/
structure Listens (x : I2sTransmitter) : Prop where
  off : q.ctrl.enableQ = false
  held : ∀ t, (coreAt q acc (t + 1)).ctrl = x.ctrl
  pins : ∀ t, (acc t).ext = x.pins t

/-- The reception as software sees it. -/
structure Received (x : I2sTransmitter) (rx : List (Word × Bool)) : Prop where
  /-- At most one of the words that end after ENABLE is set is missed. -/
  missed : ∀ j, x.risen 0 < j * x.slot + x.len + x.lead → x.first ≤ j + 1
  /-- The words that end before cycle `t`, in order, are those the engine wants to push, -/
  requested : ∀ t, requests q acc (t + 1) = x.delivered (x.risen t)
  /-- and each is pushed unless the FIFO is full, which sets RX_OVERRUN. -/
  dropped : ∀ t w, (coreAt q acc t).rxPushReq (acc t).ext = some w → (coreAt q acc t).rxPush (acc t).ext = some w ∨
    ((coreAt q acc t).rx.full = true ∧ (coreAt q acc (t + 1)).irqOvrQ = true)
  /-- Nothing else sets RX_OVERRUN. -/
  overrun : ∀ t, (coreAt q acc (t + 1)).irqOvrQ = true → (coreAt q acc t).irqOvrQ = true ∨
    (((coreAt q acc t).rxPushReq (acc t).ext).isSome = true ∧ (coreAt q acc t).rx.full = true)
  /-- Nothing else is pushed, -/
  pushed : ∀ t w, (coreAt q acc t).rxPush (acc t).ext = some w → (coreAt q acc t).rxPushReq (acc t).ext = some w
  /-- and what is pushed is popped once, in order, -/
  queued : ∀ t, ∃ l, (coreAt q acc t).rx.Holds l ∧ rx ++ pushes q acc t = pops q acc t ++ l
  /-- by the RXDATA read that returns it: a read of an empty FIFO pops nothing, -/
  popped : ∀ t, (coreAt q acc t).rxPop (acc t) = true ↔
    (acc t).rd = some I2s.REG_RXDATA ∧ (coreAt q acc t).rx.empty = false
  /-- and a read of a FIFO that is not empty returns its oldest word, with its channel in STATUS. -/
  read : ∀ t l, (coreAt q acc t).rx.Holds l → ∀ w ∈ l.head?,
    (coreAt q acc t).read (acc t).ext I2s.REG_RXDATA = w.1 ∧
      ((coreAt q acc t).read (acc t).ext I2s.REG_STATUS).getLsbD 3 = w.2

end Run

variable {wr : Nat} {q : I2s wr} {acc : Nat → RegAccess (BitVec 3) I2sPins}

/-- Where the engine is, cycle by cycle, and what it has requested. -/
private theorem phase_run (hl : Listens q acc x) (hv : x.Valid) (t : Nat) :
    Phase x (x.risen t) (coreAt q acc (t + 1)).eng ∧ (coreAt q acc (t + 1)).eng.bclkQ = x.bclk t ∧
      requests q acc (t + 1) = if x.Roomy then x.delivered (x.risen t) else [] := by
  induction t with
  | zero =>
    have hpins := hl.pins 0
    have heng : (coreAt q acc 1).eng =
        { q.eng with bclkQ := x.bclk 0, wsPrevQ := x.ws x.phase, collectingQ := false, bitCntQ := 0 } := by
      change q.eng.next q.ctrl (acc 0).ext = _
      rw [hpins, I2sEngine.next, hl.off]
      rfl
    have hreq : q.rxPushReq (acc 0).ext = none := by
      simp [I2s.rxPushReq, I2sEngine.rxPushReq, I2sEngine.wordDone, hl.off]
    obtain ⟨h1, h2⟩ := first_mul hv
    have hb : (x.bclk 0).toNat ≤ 1 := Bool.toNat_le _
    rw [heng]
    refine ⟨.waiting ?_ ?_ ?_ rfl, rfl, ?_⟩
    · rw [risen, bit]
      omega
    · rw [risen, bit]
      omega
    · rw [first, Nat.add_sub_cancel]
      rfl
    · have hnil : requests q acc 1 = [] := by
        rw [requests, logFrom_succ, Nat.add_zero, trace_zero, hreq]
        rfl
      rw [hnil]
      split
      · exact (delivered_phase hv ‹_›).symm
      · rfl
  | succ t ih =>
    obtain ⟨h1, h2, h3⟩ := ih
    have heng : (coreAt q acc (t + 2)).eng = (coreAt q acc (t + 1)).eng.next x.ctrl (x.pins (t + 1)) := by
      have := hl.pins (t + 1)
      rw [← this, ← hl.held t]
      rfl
    have hreq : (coreAt q acc (t + 1)).rxPushReq (acc (t + 1)).ext =
        (coreAt q acc (t + 1)).eng.rxPushReq x.ctrl (x.pins (t + 1)) := by
      rw [I2s.rxPushReq, hl.held t, hl.pins (t + 1)]
    rw [requests, logFrom_succ, Nat.zero_add, ← requests, h3, hreq, heng, risen_succ]
    by_cases hrise : x.bclk t = false ∧ x.bclk (t + 1) = true
    · obtain ⟨hr0, hr1⟩ := hrise
      obtain ⟨he1, he2⟩ := h1.edge hv (h2.trans hr0)
      rw [pins_rise hr0 hr1, he2, hr0, hr1]
      refine ⟨he1, ?_, ?_⟩
      · rw [I2sEngine.next]
        split
        · rfl
        · split
          · split
            · rfl
            · split <;> rfl
          · rfl
      · rw [request]
        split
        · exact (delivered_succ ‹_› _).symm
        · rfl
    · have hr : (coreAt q acc (t + 1)).eng.bclkRise (x.pins (t + 1)) = false := by
        rw [I2sEngine.bclkRise, h2, pins]
        cases h0 : x.bclk t <;> cases h1 : x.bclk (t + 1) <;> simp_all
      have hz : (!x.bclk t && x.bclk (t + 1)).toNat = 0 := by
        cases h0 : x.bclk t <;> cases h1 : x.bclk (t + 1) <;> simp_all
      have hn : (coreAt q acc (t + 1)).eng.next x.ctrl (x.pins (t + 1)) =
          { (coreAt q acc (t + 1)).eng with bclkQ := x.bclk (t + 1) } := by
        rw [I2sEngine.next, hr, hv.enable]
        rfl
      rw [hn, hz, Nat.add_zero]
      refine ⟨h1.setBclk _, rfl, ?_⟩
      simp [I2sEngine.rxPushReq, I2sEngine.wordDone, hr]

private theorem rx_run {rx : List (Word × Bool)} (h0 : q.rx.Holds rx) (t : Nat) :
    ∃ l, (coreAt q acc t).rx.Holds l ∧ rx ++ pushes q acc t = pops q acc t ++ l := by
  refine Fifo.Holds.run (fun q : I2s wr => q.rx) (fun q i => q.rxPush i.ext) (fun q i => q.rxPop i) h0 ?_ ?_ ?_ t
  · intro s i
    rfl
  · intro s i h
    rw [I2s.rxPop, Bool.and_eq_true, Bool.not_eq_true'] at h
    exact h.2
  · intro s i h
    left
    cases hf : s.rx.full with
    | false => rfl
    | true => simp [I2s.rxPush, hf] at h

private theorem dropped_overrun (q : I2s wr) (i : RegAccess (BitVec 3) I2sPins) {w : Word × Bool}
    (h : q.rxPushReq i.ext = some w) :
    q.rxPush i.ext = some w ∨ (q.rx.full = true ∧ (q.next i).irqOvrQ = true) := by
  cases hf : q.rx.full with
  | false => exact .inl (by simp [I2s.rxPush, hf, h])
  | true => exact .inr ⟨rfl, by simp [I2s.next, RegAccess.sticky, I2s.rxOverrunEv, h, hf]⟩

private theorem overrun_of_set (q : I2s wr) (i : RegAccess (BitVec 3) I2sPins) (h : (q.next i).irqOvrQ = true) :
    q.irqOvrQ = true ∨ ((q.rxPushReq i.ext).isSome = true ∧ q.rx.full = true) := by
  simp only [I2s.next, RegAccess.sticky, I2s.rxOverrunEv, Bool.or_eq_true, Bool.and_eq_true] at h
  rcases h with h | ⟨h, -⟩
  · exact .inr h
  · exact .inl h

/-- RXDATA and STATUS show the oldest word. -/
private theorem read_oldest {q : I2s wr} {l : List (Word × Bool)} (h : q.rx.Holds l) (p : I2sPins) {w : Word × Bool}
    (hw : w ∈ l.head?) :
    q.read p I2s.REG_RXDATA = w.1 ∧ (q.read p I2s.REG_STATUS).getLsbD 3 = w.2 := by
  obtain ⟨he, rfl⟩ := h.oldest hw
  constructor
  · simp [I2s.read, I2s.REG_STATUS, I2s.REG_CTRL, I2s.REG_WATER, I2s.REG_RXDATA, he]
  · rw [I2s.read, if_pos rfl, I2s.status]
    have hbits : ∀ a b c d e f : Bool, (0#26 ++ BitVec.ofBool a ++ BitVec.ofBool b ++ BitVec.ofBool c ++
        BitVec.ofBool d ++ BitVec.ofBool e ++ BitVec.ofBool f).getLsbD 3 = c := by decide
    rw [BitVec.getLsbD_or, hbits, he, BitVec.getLsbD_shiftLeft]
    simp

/-- What is pushed is a word the engine wants to push. -/
private theorem req_of_push {q : I2s wr} {p : I2sPins} {w : Word × Bool} (h : q.rxPush p = some w) :
    q.rxPushReq p = some w := by
  rw [I2s.rxPush] at h
  split at h
  · cases h
  · exact h

/-! ### The reception -/

/-- BCLK runs on. -/
def Runs (x : I2sTransmitter) : Prop := ∀ t, ∃ u, t ≤ u ∧ x.bclk u = false ∧ x.bclk (u + 1) = true

private theorem risen_mono (x : I2sTransmitter) {t u : Nat} (h : t ≤ u) : x.risen t ≤ x.risen u := by
  induction u, h using Nat.le_induction with
  | base => exact le_rfl
  | succ u _ ih =>
    rw [risen_succ]
    omega

private theorem Runs.exists_risen (h : x.Runs) (n : Nat) : ∃ t, n ≤ x.risen t := by
  induction n with
  | zero => exact ⟨0, Nat.zero_le _⟩
  | succ n ih =>
    obtain ⟨t, ht⟩ := ih
    obtain ⟨u, hu, h0, h1⟩ := h t
    have hm := x.risen_mono hu
    refine ⟨u + 1, ?_⟩
    rw [risen_succ, h0, h1]
    simp
    omega

/-- With enough room in the slots at most the word under way is missed. -/
private theorem missed_of_roomy (hv : x.Valid) (hr : x.Roomy) {j : Nat}
    (h : x.risen 0 < j * x.slot + x.len + x.lead) :
    x.first ≤ j + 1 := by
  have hr' := hr
  rw [Roomy] at hr'
  by_contra hlt
  have h1 := Nat.mul_le_mul_right x.slot (show j + 1 ≤ x.first - 1 by omega)
  have h2 := (first_mul hv).1
  rw [Nat.succ_mul] at h1
  rw [risen, bit] at h
  omega

/-- One of two words in a row passes every channel filter. -/
private theorem exists_accepted (x : I2sTransmitter) : ∃ j, x.accepted j ≠ none := by
  by_cases h : x.ctrl.chAccept (x.ch x.first) = true
  · exact ⟨x.first, by simp [accepted, h]⟩
  · refine ⟨x.first + 1, ?_⟩
    have : x.ctrl.chAccept (x.ch (x.first + 1)) = true := by
      rw [ch_succ]
      revert h
      rw [I2sCtrl.chAccept, I2sCtrl.chAccept]
      cases x.ch x.first <;> split <;> simp
    simp [accepted, this]

private theorem received_of_roomy {rx : List (Word × Bool)} (hl : Listens q acc x) (hv : x.Valid) (h0 : q.rx.Holds rx)
    (hr : x.Roomy) : Received q acc x rx where
  missed _ h := missed_of_roomy hv hr h
  requested t := by
    have := (phase_run hl hv t).2.2
    rwa [if_pos hr] at this
  dropped _ _ h := dropped_overrun _ _ h
  overrun _ h := overrun_of_set _ _ h
  pushed _ _ := req_of_push
  queued := rx_run h0
  popped _ := by rw [I2s.rxPop, Bool.and_eq_true, beq_iff_eq, Bool.not_eq_true']
  read _ _ hl _ := read_oldest hl _

/-- A slot too tight for the last bit of its word costs every word. -/
private theorem Received.roomy {rx : List (Word × Bool)} (h : Received q acc x rx) (hl : Listens q acc x)
    (hv : x.Valid) (hx : x.Runs) : x.Roomy := by
  by_contra hr
  obtain ⟨j, hj⟩ := x.exists_accepted
  obtain ⟨t, ht⟩ := hx.exists_risen ((j + 2) * x.slot)
  have hreq := (phase_run hl hv t).2.2
  rw [if_neg hr, h.requested t, delivered, List.filterMap_eq_nil_iff] at hreq
  refine hj (hreq j ?_)
  have hlead := x.lead_le
  have hslot := hv.slot
  have hp := hv.slot_pos
  rw [Nat.add_mul] at ht
  rw [List.mem_range, completed, Nat.lt_div_iff_mul_lt hp]
  omega

private theorem roomy_iff (hv : x.Valid) : x.Roomy ↔ x.ctrl.formatLjQ = true ∨ x.len < x.slot := by
  have := hv.slot
  rw [Roomy, lead]
  cases x.ctrl.formatLjQ with
  | true => simp [this]
  | false => simp

/-- A receiver enabled while a transmission runs gets its words right if the format is left-justified or the slots are
longer than the words; when BCLK does not stop, only then. -/
theorem received_iff (s : RegSlave (BitVec 3) (I2s wr)) (inp : Nat → SlaveIn I2sPins) (rx : List (Word × Bool))
    (h0 : s.core.rx.Holds rx) (hv : x.Valid) (hoff : s.core.ctrl.enableQ = false)
    (hheld : ∀ t, (trace (RegSlave.next I2s.device) s inp (t + 1)).core.ctrl = x.ctrl)
    (hpins : ∀ t, (inp t).ext = x.pins t) :
    (x.ctrl.formatLjQ = true ∨ x.len < x.slot → Received s.core (s.accesses I2s.device inp) x rx) ∧
      (x.Runs → Received s.core (s.accesses I2s.device inp) x rx → x.ctrl.formatLjQ = true ∨ x.len < x.slot) := by
  have hl : Listens s.core (s.accesses I2s.device inp) x := by
    refine ⟨hoff, fun t => ?_, hpins⟩
    have := hheld t
    rwa [RegSlave.core_trace] at this
  rw [← roomy_iff hv]
  exact ⟨received_of_roomy hl hv h0, fun hx h => h.roomy hl hv hx⟩

/-! ### Eight-bit slots from reset

The words are 0xA5, BCLK has half-periods of two cycles, and CTRL is written in cycle 0. -/

def tight (lj : Bool) : I2sTransmitter :=
  ⟨⟨true, I2sCtrl.CHAN_STEREO, lj, 3⟩, 8, fun _ => 0xA5, false, 0, fun t => t / 2 % 2 == 1, fun _ => false⟩

def tightStart : RegSlave (BitVec 3) (I2s 1) where
  port := ⟨false, false, 0, 0, 0, false, false, 0⟩
  core := I2s.reset fun _ => (0, false)

def tightIn (lj : Bool) (t : Nat) : SlaveIn I2sPins where
  m :=
    { awaddr := 0x04, awvalid := t == 0, wdata := if lj then 0x309 else 0x301, wstrb := 3, wvalid := t == 0,
      bready := true, araddr := 0, arvalid := false, rready := true }
  ext := (tight lj).pins t

private theorem tight_valid (lj : Bool) : (tight lj).Valid := ⟨rfl, by cases lj <;> decide⟩

private theorem tight_quiet (lj : Bool) {t : Nat} (ht : 0 < t) :
    tightStart.accesses I2s.device (tightIn lj) t = ⟨none, none, (tight lj).pins t⟩ := by
  have hm : ∀ t, 0 < t → (tightIn lj t).m.awvalid = false := fun t ht => by simp [tightIn]; omega
  have hq : (trace (RegSlave.next I2s.device) tightStart (tightIn lj) t).port.awSeenQ = false := by
    induction t, ht using Nat.le_induction with
    | base => cases lj <;> rfl
    | succ t ht ih =>
      rw [trace_succ]
      exact (RegSlave.access_quiet _ _ _ _ (hm t ht) rfl ih).2
  exact (RegSlave.access_quiet _ _ _ _ (hm t ht) rfl hq).1

private theorem tight_held (lj : Bool) (t : Nat) :
    (trace (RegSlave.next I2s.device) tightStart (tightIn lj) (t + 1)).core.ctrl = (tight lj).ctrl := by
  rw [RegSlave.core_trace]
  induction t with
  | zero => cases lj <;> rfl
  | succ t ih =>
    rw [trace_succ, tight_quiet lj (Nat.succ_pos t), ← ih]
    rfl

private theorem tight_listens (lj : Bool) :
    Listens tightStart.core (tightStart.accesses I2s.device (tightIn lj)) (tight lj) := by
  refine ⟨rfl, fun t => ?_, fun t => rfl⟩
  have := tight_held lj t
  rwa [RegSlave.core_trace] at this

private theorem tight_runs (lj : Bool) : (tight lj).Runs := by
  intro t
  refine ⟨4 * t + 1, by omega, ?_, ?_⟩
  · simp [tight]
    omega
  · simp [tight]
    omega

/-- In I2S format not a single word arrives. -/
theorem tight_i2s_fails :
    (tight false).Valid ∧ (tight false).Runs ∧
      Listens tightStart.core (tightStart.accesses I2s.device (tightIn false)) (tight false) ∧
      ¬Received tightStart.core (tightStart.accesses I2s.device (tightIn false)) (tight false) [] := by
  refine ⟨tight_valid _, tight_runs _, tight_listens _, fun h => ?_⟩
  have hroom := h.roomy (tight_listens _) (tight_valid _) (tight_runs _)
  exact absurd hroom (by decide)

/-- In left-justified format all but the first one do. -/
theorem received_iff_tight :
    Received tightStart.core (tightStart.accesses I2s.device (tightIn true)) (tight true) [] :=
  (received_iff tightStart (tightIn true) [] (Fifo.holds_reset _) (tight_valid true) rfl (tight_held true)
    fun _ => rfl).1 (.inl rfl)

end I2sTransmitter

end Yarv
