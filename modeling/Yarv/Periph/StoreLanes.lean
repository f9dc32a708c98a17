import Yarv.Periph.FftControl
import Yarv.Periph.I2cBus
import Yarv.Periph.I2s
import Yarv.Periph.Registers
import Yarv.Periph.StickyFlags
import Yarv.Periph.UartBaud

/-!
# Store lanes

A store strobes the byte lanes it means and leaves rubbish in the others.  `BitRule` says what this asks of one
register bit; `store_lanes` is the result for the nine slaves: which of them keep the rule for every store, and for
which stores the others do.  The reference for what a write does is the same cycle without the write.
-/

namespace Yarv

/-- The mask of a strobe pattern, bit by bit. -/
private theorem getLsbD_wrMask (strb : BitVec 4) (k : Nat) : (wrMask strb).getLsbD k = strb.getLsbD (k / 8) := by
  by_cases hk : k < 32
  · have htable : ∀ s : BitVec 4, ∀ k < 32, (wrMask s).getLsbD k = s.getLsbD (k / 8) := by decide +kernel
    exact htable strb k hk
  · rw [BitVec.getLsbD_of_ge _ _ (by omega), BitVec.getLsbD_of_ge _ _ (by omega)]

private theorem getLsbD_mergeWr {n : Nat} (old : BitVec n) (data : Word) (strb : BitVec 4) {k : Nat} (hk : k < n) :
    (mergeWr old data strb).getLsbD k = if strb.getLsbD (k / 8) then data.getLsbD k else old.getLsbD k := by
  simp only [mergeWr, BitVec.getLsbD_or, BitVec.getLsbD_and, BitVec.getLsbD_not, BitVec.getLsbD_setWidth,
    getLsbD_wrMask, hk, decide_true, Bool.true_and]
  cases strb.getLsbD (k / 8) <;> simp

private theorem mergeWr_zero {n : Nat} (old : BitVec n) (d : Word) : mergeWr old d 0 = old := by
  apply BitVec.eq_of_getLsbD_eq
  intro k hk
  rw [getLsbD_mergeWr _ _ _ hk]
  simp

section Rules

variable {α σ ι : Type} {n : Nat}

/-- A cycle without its write. -/
def RegAccess.quiet (i : RegAccess α ι) : RegAccess α ι := { i with wr := none }

/-- A cycle in which `x` commits. -/
def RegAccess.write (i : RegAccess α ι) (x : RegWrite α) : RegAccess α ι := { i with wr := some x }

variable (next : σ → RegAccess α ι → σ) (q : σ) (i : RegAccess α ι) (x : RegWrite α)

/-- Bit `k` of a register word, held in the flop `g`: a write that addresses the register and strobes the lane of the
bit puts its value there, every other write leaves the bit alone. -/
structure BitRule (hit : Prop) (k : Nat) (g : σ → Bool) : Prop where
  taken : hit → x.strb.getLsbD (k / 8) = true → g (next q (i.write x)) = x.data.getLsbD k
  kept : ¬hit ∨ x.strb.getLsbD (k / 8) = false → g (next q (i.write x)) = g (next q i.quiet)

/-- The same for the field of `n` bits that begins at bit `off`. -/
def FieldRule (hit : Prop) (off : Nat) (f : σ → BitVec n) : Prop :=
  ∀ k < n, BitRule next q i x hit (off + k) fun q => (f q).getLsbD k

/-- The write does nothing at all. -/
def Ignored : Prop := next q (i.write x) = next q i.quiet

/-- The bits of a field at `off` are strobed together with the lane `b`, or written with what they hold. -/
def RegWrite.Fits (x : RegWrite α) (b off : Nat) (old : BitVec n) : Prop :=
  ∀ k < n, x.strb.getLsbD ((off + k) / 8) = x.strb.getLsbD b ∨ x.data.getLsbD (off + k) = old.getLsbD k

variable {next q i x} {hit : Prop} {off b k : Nat} {f : σ → BitVec n} {g : σ → Bool}

/-- A bit that looks at the strobe of lane `b` only. -/
private theorem bitRule_iff (hhit : hit → x.strb.getLsbD b = true → g (next q (i.write x)) = x.data.getLsbD k)
    (hmiss : ¬hit ∨ x.strb.getLsbD b = false → g (next q (i.write x)) = g (next q i.quiet)) :
    BitRule next q i x hit k g ↔
      (hit → x.strb.getLsbD (k / 8) = x.strb.getLsbD b ∨ x.data.getLsbD k = g (next q i.quiet)) := by
  constructor
  · rintro ⟨ht, hk⟩ h
    cases hl : x.strb.getLsbD (k / 8) with
    | true =>
      cases hb : x.strb.getLsbD b with
      | true => exact .inl rfl
      | false => exact .inr ((ht h hl).symm.trans (hmiss (.inr hb)))
    | false =>
      cases hb : x.strb.getLsbD b with
      | true => exact .inr ((hhit h hb).symm.trans (hk (.inr hl)))
      | false => exact .inl rfl
  · intro hfit
    refine ⟨fun h hl => ?_, fun hor => ?_⟩
    · rcases hfit h with heq | heq
      · exact hhit h (heq ▸ hl)
      · cases hb : x.strb.getLsbD b with
        | true => exact hhit h hb
        | false => rw [hmiss (.inr hb), heq]
    · by_cases h : hit
      · have hl : x.strb.getLsbD (k / 8) = false := hor.resolve_left (not_not_intro h)
        rcases hfit h with heq | heq
        · exact hmiss (.inr (heq ▸ hl))
        · cases hb : x.strb.getLsbD b with
          | true => rw [hhit h hb, heq]
          | false => exact hmiss (.inr hb)
      · exact hmiss (.inl h)

/-- A bit of the lane its device looks at. -/
private theorem bitRule_of_lane (hk : k / 8 = b)
    (hhit : hit → x.strb.getLsbD b = true → g (next q (i.write x)) = x.data.getLsbD k)
    (hmiss : ¬hit ∨ x.strb.getLsbD b = false → g (next q (i.write x)) = g (next q i.quiet)) :
    BitRule next q i x hit k g := ⟨hk ▸ hhit, hk ▸ hmiss⟩

/-- A field that is loaded as a whole when lane `b` is strobed. -/
private theorem fieldRule_iff
    (hhit : hit → x.strb.getLsbD b = true → ∀ k < n, (f (next q (i.write x))).getLsbD k = x.data.getLsbD (off + k))
    (hmiss : ¬hit ∨ x.strb.getLsbD b = false → f (next q (i.write x)) = f (next q i.quiet)) :
    FieldRule next q i x hit off f ↔ (hit → x.Fits b off (f (next q i.quiet))) := by
  have hbit : ∀ k < n, BitRule next q i x hit (off + k) (fun q => (f q).getLsbD k) ↔
      (hit → x.strb.getLsbD ((off + k) / 8) = x.strb.getLsbD b ∨
        x.data.getLsbD (off + k) = (f (next q i.quiet)).getLsbD k) := by
    intro k hk
    refine bitRule_iff (fun h hb => ?_) fun h => ?_
    · exact hhit h hb k hk
    · rw [hmiss h]
  constructor
  · exact fun h hh k hk => (hbit k hk).mp (h k hk) hh
  · exact fun h k hk => (hbit k hk).mpr fun hh => h hh k hk

/-- A field that lies in one lane fits every write. -/
private theorem RegWrite.fits_of_lane {old : BitVec n} (h : ∀ k < n, (off + k) / 8 = b) : x.Fits b off old :=
  fun k hk => .inl (by rw [h k hk])

/-- A field that is loaded whatever is strobed. -/
private theorem fieldRule_always_iff
    (hhit : hit → ∀ k < n, (f (next q (i.write x))).getLsbD k = x.data.getLsbD (off + k))
    (hmiss : ¬hit → f (next q (i.write x)) = f (next q i.quiet)) :
    FieldRule next q i x hit off f ↔ (hit → ∀ k < n, x.strb.getLsbD ((off + k) / 8) = true ∨
      x.data.getLsbD (off + k) = (f (next q i.quiet)).getLsbD k) := by
  constructor
  · intro h hh k hk
    cases hl : x.strb.getLsbD ((off + k) / 8) with
    | true => exact .inl rfl
    | false => exact .inr ((hhit hh k hk).symm.trans ((h k hk).kept (.inr hl)))
  · intro h k hk
    refine ⟨fun hh _ => hhit hh k hk, fun hor => ?_⟩
    by_cases hh : hit
    · have hl : x.strb.getLsbD ((off + k) / 8) = false := hor.resolve_left (not_not_intro hh)
      rcases h hh k hk with heq | heq
      · rw [hl] at heq
        exact absurd heq Bool.false_ne_true
      · exact (hhit hh k hk).trans heq
    · exact congrArg (fun v => v.getLsbD k) (hmiss hh)

/-- A register that is merged by strobes. -/
private theorem fieldRule_of_merge (hhit : hit → f (next q (i.write x)) = mergeWr (f (next q i.quiet)) x.data x.strb)
    (hmiss : ¬hit → f (next q (i.write x)) = f (next q i.quiet)) : FieldRule next q i x hit 0 f := by
  intro k hk
  rw [Nat.zero_add]
  refine ⟨fun h hl => ?_, fun hor => ?_⟩
  · rw [hhit h, getLsbD_mergeWr _ _ _ hk, hl, if_pos rfl]
  · by_cases h : hit
    · rw [hhit h, getLsbD_mergeWr _ _ _ hk, hor.resolve_left (not_not_intro h), if_neg Bool.false_ne_true]
    · rw [hmiss h]

end Rules

/-! ### The gates of a write -/

section Gates

variable {σ ι : Type} {n : Nat} {next : σ → RegAccess (BitVec 3) ι → σ} {q : σ} {i : RegAccess (BitVec 3) ι}
  {x : RegWrite (BitVec 3)} {r : BitVec 3} {off b k : Nat} {f : σ → BitVec n} {g : σ → Bool}

private theorem wrLane_quiet : i.quiet.wrLane r b = none := rfl

private theorem wrLane_hit (ha : x.addr = r) (hb : x.strb.getLsbD b = true) : (i.write x).wrLane r b = some x := by
  simp [RegAccess.wrLane, RegAccess.write, Option.filter, ha, hb]

private theorem wrLane_miss (h : ¬x.addr = r ∨ x.strb.getLsbD b = false) : (i.write x).wrLane r b = none := by
  rcases h with h | h <;> simp [RegAccess.wrLane, RegAccess.write, h]

private theorem wrAt_hit (ha : x.addr = r) (h0 : x.strb.getLsbD 0 = true) :
    (i.write x).wrAt r = some x := wrLane_hit ha h0

private theorem wrAt_miss (h : ¬x.addr = r ∨ x.strb.getLsbD 0 = false) : (i.write x).wrAt r = none := wrLane_miss h

/-- A control bit in the low byte keeps the rule. -/
private theorem bitRule_ctrlBit (hk : k / 8 = 0) (hg : ∀ j, g (next q j) = j.ctrlBit r k (g q)) :
    BitRule next q i x (x.addr = r) k g := by
  refine bitRule_of_lane hk (fun ha hb => ?_) fun h => ?_
  · rw [hg, RegAccess.ctrlBit, wrAt_hit ha hb]
    rfl
  · rw [hg, hg, RegAccess.ctrlBit, RegAccess.ctrlBit, wrAt_miss h]
    rfl

/-- A field behind the strobe of lane `b` keeps the rule for the writes that fit. -/
private theorem fieldRule_load_iff {v : Word → BitVec n} (hv : ∀ d, ∀ k < n, (v d).getLsbD k = d.getLsbD (off + k))
    (hf : ∀ j, f (next q j) = ((j.wrLane r b).map fun x => v x.data).getD (f q)) :
    FieldRule next q i x (x.addr = r) off f ↔ (x.addr = r → x.Fits b off (f q)) := by
  have hq : f (next q i.quiet) = f q := by rw [hf, wrLane_quiet]; rfl
  rw [fieldRule_iff (b := b) (fun ha hb k hk => ?_) fun h => ?_, hq]
  · rw [hf, wrLane_hit ha hb]
    exact hv x.data k hk
  · rw [hf, wrLane_miss h, hq]
    rfl

/-- A field at the bottom of its word. -/
private theorem getLsbD_setWidth_low {d : Word} {k : Nat} (hk : k < n) :
    (d.setWidth n).getLsbD k = d.getLsbD (0 + k) := by
  rw [BitVec.getLsbD_setWidth, Nat.zero_add]
  simp [hk]

end Gates

/-! ### `axi4_lite_i2c` -/

namespace I2c

variable {wt wr : Nat} (q : I2c wt wr) (i : RegAccess (BitVec 3) I2cPins) (x : RegWrite (BitVec 3))

/-- The store `x` in this cycle keeps to its lanes. -/
structure LaneRule : Prop where
  ctrl : ∀ p ∈ [(0, enableQ), (1, ieTxQ), (2, ieRxQ), (3, ieDoneQ), (4, ieNackQ), (5, ieArbQ), (6, ieOvrQ)],
    BitRule next q i x (x.addr = REG_CTRL) p.1 p.2
  clkdiv : FieldRule next q i x (x.addr = REG_CLKDIV) 0 clkdivQ
  /-- CMD, TXDATA and the write-one-to-clear bits live in the low byte. -/
  command : x.addr ≠ REG_CTRL → x.addr ≠ REG_CLKDIV → x.strb.getLsbD 0 = false → Ignored next q i x
  zero : x.strb = 0 → Ignored next q i x

variable {q i x}

/-- A write that misses the low byte. -/
private theorem ignored_of_low (h : x.strb.getLsbD 0 = false) : Ignored next q i x := by
  have hw : ∀ r, (i.write x).wrAt r = none := fun r => wrAt_miss (.inr h)
  have hq : ∀ r, i.quiet.wrAt r = none := fun r => rfl
  simp only [Ignored, next, RegAccess.ctrlBit, RegAccess.sticky, cmdWrite, txPush, hw, hq]
  rfl

private theorem laneRule_iff : LaneRule q i x ↔ (x.addr = REG_CLKDIV → x.Fits 0 0 q.clkdivQ) := by
  have hdiv : FieldRule next q i x (x.addr = REG_CLKDIV) 0 clkdivQ ↔ (x.addr = REG_CLKDIV → x.Fits 0 0 q.clkdivQ) :=
    fieldRule_load_iff (fun _ _ hk => getLsbD_setWidth_low hk) fun _ => rfl
  constructor
  · exact fun h => hdiv.mp h.clkdiv
  · intro h
    refine ⟨fun p hp => ?_, hdiv.mpr h, fun _ _ h0 => ignored_of_low h0, fun h0 => ignored_of_low (by rw [h0]; rfl)⟩
    simp only [List.mem_cons, List.not_mem_nil, or_false] at hp
    rcases hp with rfl | rfl | rfl | rfl | rfl | rfl | rfl <;> exact bitRule_ctrlBit (by simp) fun _ => rfl

end I2c

/-! ### `axi4_lite_spi` -/

namespace Spi

variable {wt wr : Nat} (q : Spi wt wr) (i : RegAccess (BitVec 3) Bool) (x : RegWrite (BitVec 3))

/-- The store `x` in this cycle keeps to its lanes. -/
structure LaneRule : Prop where
  ctrl : ∀ p ∈ [(0, enableQ), (1, cpolQ), (2, cphaQ), (3, ieTxQ), (4, ieRxQ), (5, ieDoneQ), (6, ieOvrQ)],
    BitRule next q i x (x.addr = REG_CTRL) p.1 p.2
  clkdiv : FieldRule next q i x (x.addr = REG_CLKDIV) 0 clkdivQ
  cs : BitRule next q i x (x.addr = REG_CS) 0 csNQ
  /-- TXDATA and the write-one-to-clear bits live in the low byte. -/
  command : x.addr ≠ REG_CTRL → x.addr ≠ REG_CLKDIV → x.addr ≠ REG_CS → x.strb.getLsbD 0 = false → Ignored next q i x
  zero : x.strb = 0 → Ignored next q i x

variable {q i x}

/-- A write that misses the low byte. -/
private theorem ignored_of_low (h : x.strb.getLsbD 0 = false) : Ignored next q i x := by
  have hw : ∀ r, (i.write x).wrAt r = none := fun r => wrAt_miss (.inr h)
  have hq : ∀ r, i.quiet.wrAt r = none := fun r => rfl
  simp only [Ignored, next, RegAccess.ctrlBit, RegAccess.sticky, txPush, hw, hq]
  rfl

private theorem laneRule_iff : LaneRule q i x ↔ (x.addr = REG_CLKDIV → x.Fits 0 0 q.clkdivQ) := by
  have hdiv : FieldRule next q i x (x.addr = REG_CLKDIV) 0 clkdivQ ↔ (x.addr = REG_CLKDIV → x.Fits 0 0 q.clkdivQ) :=
    fieldRule_load_iff (fun _ _ hk => getLsbD_setWidth_low hk) fun _ => rfl
  constructor
  · exact fun h => hdiv.mp h.clkdiv
  · intro h
    refine ⟨fun p hp => ?_, hdiv.mpr h, bitRule_ctrlBit (by simp) fun _ => rfl, fun _ _ _ h0 => ignored_of_low h0,
      fun h0 => ignored_of_low (by rw [h0]; rfl)⟩
    simp only [List.mem_cons, List.not_mem_nil, or_false] at hp
    rcases hp with rfl | rfl | rfl | rfl | rfl | rfl | rfl <;> exact bitRule_ctrlBit (by simp) fun _ => rfl

end Spi

/-! ### `axi4_lite_uart` -/

namespace Uart

variable {wt wr : Nat} (q : Uart wt wr) (i : RegAccess (BitVec 3) Bool) (x : RegWrite (BitVec 3))

/-- BAUDDIV: the divisor that waits for the engines, or the one in force. -/
def baudDiv : BitVec 16 := if q.divPendingValidQ then q.divPendingQ else q.divQ

/-- The store `x` in this cycle keeps to its lanes. -/
structure LaneRule : Prop where
  ctrl : ∀ p ∈ [(0, txIeQ), (1, rxIeQ)], BitRule next q i x (x.addr = REG_CTRL) p.1 p.2
  bauddiv : FieldRule next q i x (x.addr = REG_BAUDDIV) 0 baudDiv
  /-- TXDATA lives in the low byte. -/
  command : x.addr ≠ REG_CTRL → x.addr ≠ REG_BAUDDIV → x.strb.getLsbD 0 = false → Ignored next q i x
  zero : x.strb = 0 → Ignored next q i x

/-- What BAUDDIV asks of a store: in the cycle in which a pending divisor is applied it says nothing new, in every
other one it fits the low byte. -/
def BaudFits : Prop :=
  if q.divApply then ∀ k < 16, x.strb.getLsbD (k / 8) = true → x.data.getLsbD k = q.baudDiv.getLsbD k
  else x.Fits 0 0 q.baudDiv

variable {q i x}

private theorem baudDiv_next (j : RegAccess (BitVec 3) Bool) :
    (q.next j).baudDiv =
      if q.divApply then q.baudDiv else ((j.wrAt REG_BAUDDIV).map fun x => x.data.setWidth 16).getD q.baudDiv := by
  have hv : (q.next j).divPendingValidQ = (!q.divApply && (q.divPendingValidQ || (j.wrAt REG_BAUDDIV).isSome)) := rfl
  have hp : (q.next j).divPendingQ = ((j.wrAt REG_BAUDDIV).map fun x => x.data.setWidth 16).getD q.divPendingQ := rfl
  have hd : (q.next j).divQ = q.divD := rfl
  rw [baudDiv, hv, hp, hd, divD, baudDiv]
  cases hap : q.divApply with
  | true =>
    have hpend : q.divPendingValidQ = true := divApply_pending hap
    simp [hpend]
  | false => cases j.wrAt REG_BAUDDIV <;> simp

/-- A write that misses the low byte. -/
private theorem ignored_of_low (h : x.strb.getLsbD 0 = false) : Ignored next q i x := by
  have hw : ∀ r, (i.write x).wrAt r = none := fun r => wrAt_miss (.inr h)
  have hq : ∀ r, i.quiet.wrAt r = none := fun r => rfl
  simp only [Ignored, next, RegAccess.ctrlBit, txPush, hw, hq]
  rfl

private theorem bauddiv_iff :
    FieldRule next q i x (x.addr = REG_BAUDDIV) 0 baudDiv ↔ (x.addr = REG_BAUDDIV → BaudFits q x) := by
  rw [BaudFits]
  cases hap : q.divApply with
  | false =>
    have hstay : (q.next i.quiet).baudDiv = q.baudDiv := by rw [baudDiv_next, hap]; rfl
    rw [if_neg Bool.false_ne_true, fieldRule_iff (b := 0) (fun ha hb k hk => ?_) fun h => ?_, hstay]
    · rw [baudDiv_next, hap, wrAt_hit ha hb]
      exact getLsbD_setWidth_low hk
    · rw [baudDiv_next, hap, hstay, wrAt_miss h]
      rfl
  | true =>
    -- the write is lost: the bits stay, whatever is strobed
    have hstay : ∀ j, (q.next j).baudDiv = q.baudDiv := fun j => by rw [baudDiv_next, hap, if_pos rfl]
    rw [if_pos rfl]
    constructor
    · intro h ha k hk hl
      have := (h k hk).taken ha (by rwa [Nat.zero_add])
      rw [hstay, Nat.zero_add] at this
      exact this.symm
    · intro h k hk
      rw [Nat.zero_add]
      exact ⟨fun ha hl => by rw [hstay, h ha k hk hl], fun _ => by rw [hstay, hstay]⟩

private theorem laneRule_iff : LaneRule q i x ↔ (x.addr = REG_BAUDDIV → BaudFits q x) := by
  constructor
  · exact fun h => bauddiv_iff.mp h.bauddiv
  · intro h
    refine ⟨fun p hp => ?_, bauddiv_iff.mpr h, fun _ _ h0 => ignored_of_low h0,
      fun h0 => ignored_of_low (by rw [h0]; rfl)⟩
    simp only [List.mem_cons, List.not_mem_nil, or_false] at hp
    rcases hp with rfl | rfl <;> exact bitRule_ctrlBit (by simp) fun _ => rfl

end Uart

/-! ### `axi4_lite_i2s` -/

namespace I2s

variable {wr : Nat} (q : I2s wr) (i : RegAccess (BitVec 3) I2sPins) (x : RegWrite (BitVec 3))

/-- The store `x` in this cycle keeps to its lanes. -/
structure LaneRule : Prop where
  ctrl : ∀ p ∈ [(0, fun q => q.ctrl.enableQ), (3, fun q => q.ctrl.formatLjQ), (4, ieRxQ), (5, ieOvrQ), (6, masterQ)],
    BitRule next q i x (x.addr = REG_CTRL) p.1 p.2
  chan : FieldRule next q i x (x.addr = REG_CTRL) 1 fun q => q.ctrl.chanQ
  wlen : FieldRule next q i x (x.addr = REG_CTRL) 8 fun q => q.ctrl.wlenSelQ
  water : FieldRule next q i x (x.addr = REG_WATER) 0 waterQ
  clkdiv : FieldRule next q i x (x.addr = REG_CLKDIV) 0 clkdivQ
  slot : FieldRule next q i x (x.addr = REG_CLKDIV) 16 slotQ
  /-- The write-one-to-clear bit lives in the low byte. -/
  command : x.addr ≠ REG_CTRL → x.addr ≠ REG_WATER → x.addr ≠ REG_CLKDIV → x.strb.getLsbD 0 = false →
    Ignored next q i x
  zero : x.strb = 0 → Ignored next q i x

variable {q i x}

private theorem ignored_of_lanes (h0 : x.strb.getLsbD 0 = false) (h1 : ¬x.addr = REG_CTRL ∨ x.strb.getLsbD 1 = false)
    (h2 : ¬x.addr = REG_CLKDIV ∨ x.strb.getLsbD 2 = false) : Ignored next q i x := by
  have hw : ∀ r, (i.write x).wrAt r = none := fun r => wrAt_miss (.inr h0)
  have hq : ∀ r, i.quiet.wrAt r = none := fun r => rfl
  have hw1 : (i.write x).wrLane REG_CTRL 1 = none := wrLane_miss h1
  have hw2 : (i.write x).wrLane REG_CLKDIV 2 = none := wrLane_miss h2
  simp only [Ignored, next, ctrlNext, RegAccess.ctrlBit, RegAccess.sticky, hw, hq, hw1, hw2, wrLane_quiet]
  rfl

private theorem laneRule_iff :
    LaneRule q i x ↔
      (x.addr = REG_CLKDIV → x.Fits 0 0 q.clkdivQ) ∧ (x.addr = REG_WATER → x.Fits 0 0 q.waterQ) := by
  have hdiv : FieldRule next q i x (x.addr = REG_CLKDIV) 0 clkdivQ ↔ (x.addr = REG_CLKDIV → x.Fits 0 0 q.clkdivQ) :=
    fieldRule_load_iff (fun _ _ hk => getLsbD_setWidth_low hk) fun _ => rfl
  have hwater : FieldRule next q i x (x.addr = REG_WATER) 0 waterQ ↔ (x.addr = REG_WATER → x.Fits 0 0 q.waterQ) :=
    fieldRule_load_iff (fun _ _ hk => getLsbD_setWidth_low hk) fun _ => rfl
  have hextract : ∀ {off n : Nat} (d : Word), ∀ k < n, (d.extractLsb' off n).getLsbD k = d.getLsbD (off + k) := by
    intro off n d k hk
    rw [BitVec.getLsbD_extractLsb']
    simp [hk]
  constructor
  · exact fun h => ⟨hdiv.mp h.clkdiv, hwater.mp h.water⟩
  · intro ⟨h1, h2⟩
    refine ⟨fun p hp => ?_, ?_, ?_, hwater.mpr h2, hdiv.mpr h1, ?_, fun hc _ hd h0 => ?_, fun h0 => ?_⟩
    · simp only [List.mem_cons, List.not_mem_nil, or_false] at hp
      rcases hp with rfl | rfl | rfl | rfl | rfl <;> exact bitRule_ctrlBit (by simp) fun _ => rfl
    · exact (fieldRule_load_iff (b := 0) hextract fun _ => rfl).mpr fun _ =>
        RegWrite.fits_of_lane fun k hk => by omega
    · exact (fieldRule_load_iff (b := 1) hextract fun _ => rfl).mpr fun _ =>
        RegWrite.fits_of_lane fun k hk => by omega
    · exact (fieldRule_load_iff (b := 2) hextract fun _ => rfl).mpr fun _ =>
        RegWrite.fits_of_lane fun k hk => by omega
    · exact ignored_of_lanes h0 (.inl hc) (.inl hd)
    · exact ignored_of_lanes (by rw [h0]; rfl) (.inr (by rw [h0]; rfl)) (.inr (by rw [h0]; rfl))

end I2s

/-! ### `axi4_lite_gpio` -/

namespace Gpio

variable {w : Nat} (q : Gpio w) (i : RegAccess (BitVec 3) (BitVec w)) (x : RegWrite (BitVec 3))

/-- The store `x` in this cycle keeps to its lanes. -/
structure LaneRule : Prop where
  out : FieldRule next q i x (x.addr = REG_OUT) 0 outQ
  dir : FieldRule next q i x (x.addr = REG_DIR) 0 dirQ
  intType : FieldRule next q i x (x.addr = REG_INT_TYPE) 0 intTypeQ
  intEn : FieldRule next q i x (x.addr = REG_INT_EN) 0 intEnQ
  /-- A pending bit is cleared through its own lane. -/
  pend : ∀ k < w, x.addr ≠ REG_INT_STATUS ∨ x.strb.getLsbD (k / 8) = false →
    (q.next (i.write x)).pendQ.getLsbD k = (q.next i.quiet).pendQ.getLsbD k
  zero : x.strb = 0 → Ignored next q i x

variable {q i x}

private theorem merge_rule {n : Nat} {r : BitVec 3} {f : Gpio w → BitVec n}
    (hf : ∀ j, f (next q j) = merge j r (f q)) : FieldRule next q i x (x.addr = r) 0 f := by
  have hq : f (next q i.quiet) = f q := hf i.quiet
  refine fieldRule_of_merge (fun ha => ?_) fun ha => ?_
  · rw [hf, hq]
    exact if_pos ha
  · rw [hf, hq]
    exact if_neg ha

private theorem getLsbD_pendClr {k : Nat} (hk : k < w) :
    (pendClr (i.write x)).getLsbD k =
      (x.addr == REG_INT_STATUS && x.strb.getLsbD (k / 8) && x.data.getLsbD k) := by
  change (if x.addr = REG_INT_STATUS then x.data.setWidth w &&& (wrMask x.strb).setWidth w else 0).getLsbD k = _
  by_cases ha : x.addr = REG_INT_STATUS
  · rw [if_pos ha, BitVec.getLsbD_and, BitVec.getLsbD_setWidth, BitVec.getLsbD_setWidth, getLsbD_wrMask]
    simp [hk, ha, Bool.and_comm]
  · rw [if_neg ha]
    simp [ha]

private theorem laneRule : LaneRule q i x := by
  refine ⟨merge_rule fun _ => rfl, merge_rule fun _ => rfl, merge_rule fun _ => rfl, merge_rule fun _ => rfl,
    fun k hk h => ?_, fun h0 => ?_⟩
  · have hclr : (pendClr (i.write x)).getLsbD k = false := by
      rw [getLsbD_pendClr hk]
      rcases h with h | h <;> simp [h]
    change ((q.pendQ &&& ~~~pendClr (i.write x)) ||| q.pendSet i.ext).getLsbD k =
      ((q.pendQ &&& ~~~(0 : BitVec w)) ||| q.pendSet i.ext).getLsbD k
    rw [BitVec.getLsbD_or, BitVec.getLsbD_or, BitVec.getLsbD_and, BitVec.getLsbD_and, BitVec.getLsbD_not,
      BitVec.getLsbD_not, hclr]
    simp
  · have hm : ∀ {n : Nat} (r : BitVec 3) (old : BitVec n), merge (i.write x) r old = merge i.quiet r old := by
      intro n r old
      change (if x.addr = r then mergeWr old x.data x.strb else old) = old
      rw [h0, mergeWr_zero, ite_self]
    have hclr : pendClr (i.write x) = pendClr i.quiet := by
      apply BitVec.eq_of_getLsbD_eq
      intro k hk
      rw [getLsbD_pendClr hk, h0]
      change _ = (0 : BitVec w).getLsbD k
      simp
    simp only [Ignored, next, hm, hclr]
    rfl

end Gpio

/-! ### `axi4_lite_plic` -/

namespace Plic

variable {n : Nat} (q : Plic n) (i : RegAccess (BitVec 3) (BitVec n)) (x : RegWrite (BitVec 3))

/-- The store `x` in this cycle keeps to its lanes. -/
structure LaneRule : Prop where
  enable : FieldRule next q i x (x.addr = REG_ENABLE) 0 enableQ
  other : x.addr ≠ REG_ENABLE → Ignored next q i x
  zero : x.strb = 0 → Ignored next q i x

variable {q i x}

private theorem laneRule : LaneRule q i x := by
  refine ⟨fieldRule_of_merge (fun ha => if_pos ha) fun ha => if_neg ha, fun ha => ?_, fun h0 => ?_⟩
  · exact congrArg Plic.mk (if_neg ha)
  · refine congrArg Plic.mk ?_
    change (if x.addr = REG_ENABLE then mergeWr q.enableQ x.data x.strb else q.enableQ) = q.enableQ
    rw [h0, mergeWr_zero, ite_self]

end Plic

/-! ### `clint_timer` -/

namespace ClintTimer

variable (q : ClintTimer) (i : RegAccess (BitVec 2) Unit) (x : RegWrite (BitVec 2))

/-- The store `x` in this cycle keeps to its lanes. -/
structure LaneRule : Prop where
  cmpLo : FieldRule next q i x (x.addr = REG_MTIMECMP_LO) 0 fun q => lo q.mtimecmpQ
  cmpHi : FieldRule next q i x (x.addr = REG_MTIMECMP_HI) 0 fun q => hi q.mtimecmpQ
  other : x.addr ≠ REG_MTIMECMP_LO → x.addr ≠ REG_MTIMECMP_HI → Ignored next q i x
  zero : x.strb = 0 → Ignored next q i x

/-- The lanes of `x` that are not strobed hold what the half `old` holds. -/
def Covers (old : Word) : Prop := ∀ k < 32, x.strb.getLsbD (k / 8) = true ∨ x.data.getLsbD k = old.getLsbD k

variable {q i x}

private theorem lo_append (a b : Word) : lo (a ++ b) = b := BitVec.extractLsb'_append_eq_right

private theorem hi_append (a b : Word) : hi (a ++ b) = a := BitVec.extractLsb'_append_eq_left

private theorem append_halves (v : BitVec 64) : hi v ++ lo v = v := by
  apply BitVec.eq_of_getLsbD_eq
  intro k hk
  rw [BitVec.getLsbD_append, hi, lo, BitVec.getLsbD_extractLsb', BitVec.getLsbD_extractLsb']
  by_cases hk32 : k < 32
  · simp [hk32]
  · have hk' : k - 32 < 32 := by omega
    simp [hk32, hk', Nat.add_sub_cancel' (Nat.not_lt.mp hk32)]

/-- Only `mtimecmp` looks at the write. -/
private theorem ignored_iff : Ignored next q i x ↔ q.mtimecmpD (some x) = q.mtimecmpQ := by
  constructor
  · exact fun h => congrArg mtimecmpQ h
  · intro h
    have hq : q.mtimecmpD none = q.mtimecmpQ := rfl
    simp only [Ignored, next, RegAccess.write, RegAccess.quiet, h, hq]

/-- The strobes are not looked at, so the unstrobed lanes have to hold what is there. -/
private theorem laneRule_iff :
    LaneRule q i x ↔
      (x.addr = REG_MTIMECMP_LO → Covers x (lo q.mtimecmpQ)) ∧
        (x.addr = REG_MTIMECMP_HI → Covers x (hi q.mtimecmpQ)) := by
  have hd : (q.next (i.write x)).mtimecmpQ =
      if x.addr = REG_MTIMECMP_LO then hi q.mtimecmpQ ++ x.data
      else if x.addr = REG_MTIMECMP_HI then x.data ++ lo q.mtimecmpQ else q.mtimecmpQ := rfl
  have hlo : FieldRule next q i x (x.addr = REG_MTIMECMP_LO) 0 (fun q => lo q.mtimecmpQ) ↔
      (x.addr = REG_MTIMECMP_LO → Covers x (lo q.mtimecmpQ)) := by
    rw [fieldRule_always_iff (fun ha k hk => ?_) fun ha => ?_]
    · simp only [Nat.zero_add]
      rfl
    · rw [hd, if_pos ha, lo_append, Nat.zero_add]
    · rw [hd, if_neg ha]
      split_ifs
      · exact lo_append _ _
      · rfl
  have hhi : FieldRule next q i x (x.addr = REG_MTIMECMP_HI) 0 (fun q => hi q.mtimecmpQ) ↔
      (x.addr = REG_MTIMECMP_HI → Covers x (hi q.mtimecmpQ)) := by
    have hne : x.addr = REG_MTIMECMP_HI → ¬x.addr = REG_MTIMECMP_LO := by
      intro ha
      rw [ha]
      decide
    rw [fieldRule_always_iff (fun ha k hk => ?_) fun ha => ?_]
    · simp only [Nat.zero_add]
      rfl
    · rw [hd, if_neg (hne ha), if_pos ha, hi_append, Nat.zero_add]
    · rw [hd, if_neg ha]
      split_ifs
      · exact hi_append _ _
      · rfl
  constructor
  · exact fun h => ⟨hlo.mp h.cmpLo, hhi.mp h.cmpHi⟩
  · intro ⟨h1, h2⟩
    refine ⟨hlo.mpr h1, hhi.mpr h2, fun hl hh => ignored_iff.mpr ?_, fun h0 => ignored_iff.mpr ?_⟩
    · exact (if_neg hl).trans (if_neg hh)
    · have hall : ∀ {old : Word}, Covers x old → x.data = old := by
        intro old hc
        apply BitVec.eq_of_getLsbD_eq
        intro k hk
        rcases hc k hk with h | h
        · rw [h0] at h
          simp at h
        · exact h
      unfold mtimecmpD
      by_cases hl : x.addr = REG_MTIMECMP_LO
      · simp only [hl, if_true]
        rw [hall (h1 hl), append_halves]
      · by_cases hh : x.addr = REG_MTIMECMP_HI
        · simp only [if_neg hl, if_pos hh]
          rw [hall (h2 hh), append_halves]
        · simp only [if_neg hl, if_neg hh]

end ClintTimer

/-! ### `msip_peri` -/

namespace MsipPeri

variable (q : MsipPeri) (i : RegAccess Unit Unit) (x : RegWrite Unit)

/-- The store `x` in this cycle keeps to its lanes. -/
structure LaneRule : Prop where
  msip : BitRule next q i x True 0 msipQ
  zero : x.strb = 0 → Ignored next q i x

variable {q i x}

private theorem laneRule_iff : LaneRule q i x ↔ x.strb.getLsbD 0 = true ∨ x.data.getLsbD 0 = q.msipQ := by
  constructor
  · intro h
    cases hl : x.strb.getLsbD 0 with
    | true => exact .inl rfl
    | false => exact .inr (h.msip.kept (.inr hl))
  · intro h
    refine ⟨⟨fun _ _ => rfl, fun hor => ?_⟩, fun h0 => ?_⟩
    · rcases h with h | h
      · rcases hor with hor | hor
        · exact absurd trivial hor
        · rw [Nat.zero_div, h] at hor
          exact absurd hor (by decide)
      · exact h
    · rcases h with h | h
      · rw [h0] at h
        simp at h
      · exact congrArg MsipPeri.mk h

end MsipPeri

/-! ### `axi4_lite_fft` -/

namespace Fft

variable {m : Nat} (rom : BitVec m → Word) (q : Fft m) (i : RegAccess (BitVec 11) Unit) (x : RegWrite (BitVec 11))

/-- A write to register `r` of the CSR page. -/
def Csr (r : BitVec 3) : Prop := x.addr.getLsbD 10 = false ∧ x.addr.setWidth 3 = r

instance (r : BitVec 3) : Decidable (Csr x r) := inferInstanceAs (Decidable (_ ∧ _))

/-- The store `x` to the CSR page keeps to its lanes.  CONF and SCALE take no writes while a transform runs, and CONF
clamps what it takes. -/
structure LaneRule : Prop where
  irqEn : BitRule (next rom) q i x (Csr x REG_CTRL) 1 fun q => q.regs.irqEnQ
  inverse : BitRule (next rom) q i x (Csr x REG_CTRL) 2 fun q => q.regs.inverseQ
  conf : (q.next rom (i.write x)).regs.log2nQ =
    if q.busy = false ∧ Csr x REG_CONF ∧ x.strb.getLsbD 0 = true then clamp m (x.data.setWidth 4)
    else (q.next rom i.quiet).regs.log2nQ
  scale : FieldRule (next rom) q i x (q.busy = false ∧ Csr x REG_SCALE) 0 fun q => q.regs.scaleQ
  /-- START, SWAP and the write-one-to-clear bit live in the low byte. -/
  command : x.addr.getLsbD 10 = false → x.addr.setWidth 3 ≠ REG_SCALE → x.strb.getLsbD 0 = false →
    Ignored (next rom) q i x
  zero : x.addr.getLsbD 10 = false → x.strb = 0 → Ignored (next rom) q i x

variable {rom q i x}

private theorem wrTo_write (r : BitVec 3) : wrTo (i.write x) r = if Csr x r then some x else none := by
  have hcsr : csrWr (i.write x) = if !x.addr.getLsbD 10 then some x else none := Option.filter_some
  rw [wrTo, hcsr]
  by_cases ha : x.addr.getLsbD 10 = false
  · rw [ha, Bool.not_false, if_pos rfl, Option.filter_some]
    by_cases hr : x.addr.setWidth 3 = r
    · rw [if_pos (beq_iff_eq.mpr hr), if_pos ⟨ha, hr⟩]
    · rw [if_neg (fun h => hr (eq_of_beq h)), if_neg fun h => hr h.2]
  · rw [if_neg (by simpa using ha), if_neg fun h => ha h.1]
    rfl

private theorem wrTo0_write (r : BitVec 3) :
    wrTo0 (i.write x) r = if Csr x r ∧ x.strb.getLsbD 0 = true then some x else none := by
  rw [wrTo0, wrTo_write]
  by_cases hc : Csr x r
  · rw [if_pos hc, Option.filter_some]
    cases x.strb.getLsbD 0 <;> simp [hc]
  · rw [if_neg hc, if_neg fun h => hc h.1]
    rfl

/-- A bit of CTRL. -/
private theorem ctrl_rule {k : Nat} (hk : k / 8 = 0) {g : Fft m → Bool}
    (hg : ∀ j, g (next rom q j) = ((wrTo0 j REG_CTRL).map fun w => w.data.getLsbD k).getD (g q)) :
    BitRule (next rom) q i x (Csr x REG_CTRL) k g := by
  refine bitRule_of_lane hk (fun ha hb => ?_) fun h => ?_
  · rw [hg, wrTo0_write, if_pos ⟨ha, hb⟩]
    rfl
  · have hno : ¬(Csr x REG_CTRL ∧ x.strb.getLsbD 0 = true) := by
      rintro ⟨h1, h2⟩
      rcases h with h | h
      · exact h h1
      · rw [h2] at h
        exact absurd h (by decide)
    rw [hg, hg, wrTo0_write, if_neg hno]
    rfl

/-- A write to the CSR page that reaches neither the low byte nor SCALE. -/
private theorem ignored_of_low (hp : x.addr.getLsbD 10 = false) (h0 : x.strb.getLsbD 0 = false)
    (hs : x.addr.setWidth 3 ≠ REG_SCALE ∨ x.strb = 0) : Ignored (next rom) q i x := by
  have hw0 : ∀ r, wrTo0 (i.write x) r = none := fun r => by
    rw [wrTo0_write, if_neg fun h => by rw [h.2] at h0; exact absurd h0 (by decide)]
  have hq0 : ∀ r, wrTo0 i.quiet r = none := fun r => rfl
  have hdata : cpuA (m := m) (i.write x) = cpuA i.quiet := by
    have hd : dataWr (i.write x) = none := (Option.filter_some).trans (by rw [hp]; rfl)
    have hd' : dataWr i.quiet = none := rfl
    rw [cpuA, cpuA, hd, hd']
    rfl
  have hscale : ((wrTo (i.write x) REG_SCALE).map fun w => mergeWr q.regs.scaleQ w.data w.strb).getD q.regs.scaleQ =
      ((wrTo i.quiet REG_SCALE).map fun w => mergeWr q.regs.scaleQ w.data w.strb).getD q.regs.scaleQ := by
    rw [wrTo_write]
    by_cases hc : Csr x REG_SCALE
    · rw [if_pos hc]
      change mergeWr q.regs.scaleQ x.data x.strb = q.regs.scaleQ
      rw [hs.resolve_left (not_not_intro hc.2), mergeWr_zero]
    · rw [if_neg hc]
      rfl
  have hseq : q.seqNext (i.write x) = q.seqNext i.quiet := by
    simp only [seqNext, startPulse, swapPulse, doneD, w1cIrq, hw0, hq0]
  have hregs : q.regsNext (i.write x) = q.regsNext i.quiet := by
    simp only [regsNext, hw0, hq0, hscale]
  simp only [Ignored, next, hseq, hregs, hdata]

private theorem laneRule : LaneRule rom q i x := by
  refine ⟨ctrl_rule (by decide) fun _ => rfl, ctrl_rule (by decide) fun _ => rfl, ?_, ?_,
    fun hp hs h0 => ignored_of_low hp h0 (.inl hs), fun hp h0 => ignored_of_low hp (by rw [h0]; rfl) (.inr h0)⟩
  · change (if q.busy then q.regs.log2nQ else
      ((wrTo0 (i.write x) REG_CONF).map fun w => clamp m (w.data.setWidth 4)).getD q.regs.log2nQ) =
        if q.busy = false ∧ Csr x REG_CONF ∧ x.strb.getLsbD 0 = true then clamp m (x.data.setWidth 4)
        else (if q.busy then q.regs.log2nQ else q.regs.log2nQ)
    rw [ite_self, wrTo0_write]
    cases q.busy with
    | true => simp
    | false =>
      rw [if_neg Bool.false_ne_true]
      by_cases hc : Csr x REG_CONF ∧ x.strb.getLsbD 0 = true
      · rw [if_pos hc, if_pos ⟨rfl, hc⟩]
        rfl
      · rw [if_neg hc, if_neg fun h => hc h.2]
        rfl
  · have hn : ∀ j, (next rom q j).regs.scaleQ = if q.busy then q.regs.scaleQ else
        ((wrTo j REG_SCALE).map fun w => mergeWr q.regs.scaleQ w.data w.strb).getD q.regs.scaleQ := fun _ => rfl
    have hq : (next rom q i.quiet).regs.scaleQ = q.regs.scaleQ := by
      rw [hn]
      exact ite_self _
    refine fieldRule_of_merge (fun ⟨hb, hc⟩ => ?_) fun hno => ?_
    · rw [hn, hb, hq, wrTo_write, if_pos hc]
      rfl
    · rw [hn, hq]
      cases hb : q.busy with
      | true => rfl
      | false =>
        rw [wrTo_write, if_neg fun hc => hno ⟨hb, hc⟩]
        rfl

end Fft

/-! ### The nine slaves -/

/-- A store that commits at one of the slaves: the state it finds, the cycle and the write. -/
inductive SlaveStore where
  | gpio {w : Nat} (q : Gpio w) (i : RegAccess (BitVec 3) (BitVec w)) (x : RegWrite (BitVec 3))
  | plic {n : Nat} (q : Plic n) (i : RegAccess (BitVec 3) (BitVec n)) (x : RegWrite (BitVec 3))
  | fft {m : Nat} (rom : BitVec m → Word) (q : Fft m) (i : RegAccess (BitVec 11) Unit) (x : RegWrite (BitVec 11))
  | i2s {wr : Nat} (q : I2s wr) (i : RegAccess (BitVec 3) I2sPins) (x : RegWrite (BitVec 3))
  | uart {wt wr : Nat} (q : Uart wt wr) (i : RegAccess (BitVec 3) Bool) (x : RegWrite (BitVec 3))
  | i2c {wt wr : Nat} (q : I2c wt wr) (i : RegAccess (BitVec 3) I2cPins) (x : RegWrite (BitVec 3))
  | spi {wt wr : Nat} (q : Spi wt wr) (i : RegAccess (BitVec 3) Bool) (x : RegWrite (BitVec 3))
  | timer (q : ClintTimer) (i : RegAccess (BitVec 2) Unit) (x : RegWrite (BitVec 2))
  | msip (q : MsipPeri) (i : RegAccess Unit Unit) (x : RegWrite Unit)

namespace SlaveStore

/-- The store keeps to its lanes. -/
def Keeps : SlaveStore → Prop
  | gpio q i x => q.LaneRule i x
  | plic q i x => q.LaneRule i x
  | fft rom q i x => q.LaneRule rom i x
  | i2s q i x => q.LaneRule i x
  | uart q i x => q.LaneRule i x
  | i2c q i x => q.LaneRule i x
  | spi q i x => q.LaneRule i x
  | timer q i x => q.LaneRule i x
  | msip q i x => q.LaneRule i x

/-- The wide fields of the slave fit the store: the low byte gates the divisors and WATER, and the timer and MSIP look
at no strobe. -/
def Fits : SlaveStore → Prop
  | gpio _ _ _ => True
  | plic _ _ _ => True
  | fft _ _ _ _ => True
  | i2s q _ x => (x.addr = I2s.REG_CLKDIV → x.Fits 0 0 q.clkdivQ) ∧ (x.addr = I2s.REG_WATER → x.Fits 0 0 q.waterQ)
  | uart q _ x => x.addr = Uart.REG_BAUDDIV → q.BaudFits x
  | i2c q _ x => x.addr = I2c.REG_CLKDIV → x.Fits 0 0 q.clkdivQ
  | spi q _ x => x.addr = Spi.REG_CLKDIV → x.Fits 0 0 q.clkdivQ
  | timer q _ x =>
    (x.addr = ClintTimer.REG_MTIMECMP_LO → ClintTimer.Covers x (ClintTimer.lo q.mtimecmpQ)) ∧
      (x.addr = ClintTimer.REG_MTIMECMP_HI → ClintTimer.Covers x (ClintTimer.hi q.mtimecmpQ))
  | msip q _ x => x.strb.getLsbD 0 = true ∨ x.data.getLsbD 0 = q.msipQ

end SlaveStore

/-- A store keeps to its lanes exactly if the wide fields of its slave fit it; GPIO, PLIC and the CSR page of the FFT
have none that do not. -/
theorem store_lanes (s : SlaveStore) : s.Keeps ↔ s.Fits := by
  cases s with
  | gpio q i x => exact iff_of_true Gpio.laneRule trivial
  | plic q i x => exact iff_of_true Plic.laneRule trivial
  | fft rom q i x => exact iff_of_true Fft.laneRule trivial
  | i2s q i x => exact I2s.laneRule_iff
  | uart q i x => exact Uart.laneRule_iff
  | i2c q i x => exact I2c.laneRule_iff
  | spi q i x => exact Spi.laneRule_iff
  | timer q i x => exact ClintTimer.laneRule_iff
  | msip q i x => exact MsipPeri.laneRule_iff

/-- A byte store of zero to the low byte of `mtimecmp` after reset clears the whole low half. -/
theorem byte_store_leaks : ¬ ∀ s : SlaveStore, s.Keeps := by
  intro h
  have hrule : ClintTimer.reset.LaneRule ⟨none, none, ()⟩ ⟨ClintTimer.REG_MTIMECMP_LO, 0, 0b0001#4⟩ :=
    h (.timer ClintTimer.reset ⟨none, none, ()⟩ ⟨ClintTimer.REG_MTIMECMP_LO, 0, 0b0001#4⟩)
  have hk := hrule.cmpLo 8 (by decide)
  exact absurd (hk.kept (.inr (by decide))) (by decide)

end Yarv
