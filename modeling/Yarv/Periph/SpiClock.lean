import Yarv.Lib.Clocked
import Yarv.Lib.Wave
import Yarv.Periph.Spi

/-!
# SCK

SCK of a byte, cycle by cycle.  The divider toggles SCK at the end of each level; the shift engine leaves at the
eighth sample, one tick before the sixteenth edge when `CPHA = 1` and behind it when `CPHA = 0`.  What SCK does in
`ST_DONE` depends on the divider, and the idle engine restores the idle level.
-/

namespace Yarv.Spi

open Clocked Wave

variable {wt wr : Nat}

/-- The settings of CTRL and CLKDIV a byte is sent under. -/
structure SckMode where
  cpol : Bool
  cpha : Bool
  clkdiv : BitVec 16

namespace SckMode

variable (c : SckMode)

/-- The number of the tick that takes the eighth sample. -/
def last : Nat := if c.cpha then 14 else 15

/-- The shifts of a byte before its tick `j`; the first one of a `CPHA = 0` byte is suppressed. -/
def shifted (j : Nat) : Nat := if c.cpha then j / 2 else (j - 1) / 2

/-- The cycles of an SCK level. -/
def half : Nat := c.clkdiv.toNat + 1

/-- The engine is enabled under these settings. -/
structure Held (c : SckMode) (q : Spi wt wr) : Prop where
  enable : q.enableQ = true
  cpol : q.cpolQ = c.cpol
  cpha : q.cphaQ = c.cpha
  clkdiv : q.clkdivQ = c.clkdiv

/-- The engine between tick `j - 1` and tick `j` of a byte. -/
structure Beat (c : SckMode) (j : Nat) (q : Spi wt wr) : Prop where
  state : q.stateQ = .shift
  sck : q.sckQ = (c.cpol ^^ decide (j % 2 = 1))
  first : q.firstEdgeQ = decide (j = 0)
  cnt : q.bitCntQ = BitVec.ofNat 3 (7 - c.shifted j)

variable {c} {q : Spi wt wr} {i : RegAccess (BitVec 3) Bool} {j : Nat}

/-! ### One clock edge -/

private theorem launch_idle (hl : q.launch = true) : q.stateQ = .idle := by
  unfold launch at hl
  rw [Bool.and_eq_true, Bool.and_eq_true, beq_iff_eq] at hl
  exact hl.1.1

/-- The idle engine restores SCK and loads the divider. -/
private theorem next_idle (hh : Held c q) (hi : q.stateQ = .idle) :
    (q.next i).sckQ = c.cpol ∧ (q.next i).divCntQ = c.clkdiv := by
  constructor
  · simp [Spi.next, hi, hh.cpol]
  · simp [Spi.next, hi, hh.clkdiv]

theorem next_launch (hh : Held c q) (hl : q.launch = true) : Beat c 0 (q.next i) := by
  have hi := launch_idle hl
  refine ⟨?_, ?_, ?_, ?_⟩
  · simp [Spi.next, stateD, hi, hl]
  · rw [(next_idle hh hi).1]
    simp
  · simp [Spi.next, hi, hl]
  · have h0 : c.shifted 0 = 0 := by
      unfold shifted
      split <;> rfl
    rw [h0]
    simp [Spi.next, hi, hl]

/-- Between two ticks only the divider moves. -/
theorem Beat.count (hb : Beat c j q) (hh : Held c q) (hd : q.divCntQ ≠ 0) :
    Beat c j (q.next i) ∧ (q.next i).divCntQ = q.divCntQ - 1 := by
  have ht : q.divTick = false := beq_eq_false_iff_ne.mpr hd
  refine ⟨⟨?_, ?_, ?_, ?_⟩, ?_⟩
  · simp [Spi.next, stateD, Spi.sampleEdge, hb.state, ht]
  · simpa [Spi.next, hb.state, hh.enable, ht] using hb.sck
  · simpa [Spi.next, hb.state, ht] using hb.first
  · simpa [Spi.next, Spi.shifts, Spi.changeEdge, hb.state, ht] using hb.cnt
  · simp [Spi.next, hb.state, hh.enable, ht]

private theorem Beat.tick_sck (hb : Beat c j q) (hh : Held c q) (hd : q.divCntQ = 0) :
    (q.next i).sckQ = (c.cpol ^^ decide ((j + 1) % 2 = 1)) ∧ (q.next i).divCntQ = c.clkdiv := by
  have ht : q.divTick = true := beq_iff_eq.mpr hd
  have hpar : decide ((j + 1) % 2 = 1) = !decide (j % 2 = 1) := by
    rw [← decide_not, decide_eq_decide]
    omega
  constructor
  · rw [hpar]
    simp only [Spi.next, hh.enable, hb.state, ht, hb.sck]
    cases c.cpol <;> cases decide (j % 2 = 1) <;> rfl
  · simp [Spi.next, hh.clkdiv, ht]

/-- The engine samples on the odd ticks of a `CPHA = 0` byte and on the even ones of a `CPHA = 1` byte. -/
theorem Beat.sampleEdge (hb : Beat c j q) (hh : Held c q) (hd : q.divCntQ = 0) :
    q.sampleEdge = (c.cpha ^^ decide (j % 2 = 1)) := by
  have ht : q.divTick = true := beq_iff_eq.mpr hd
  rw [Spi.sampleEdge, ht, hh.cpha, hh.cpol, hb.sck]
  cases c.cpha <;> cases c.cpol <;> cases decide (j % 2 = 1) <;> rfl

private theorem Beat.changeEdge (hb : Beat c j q) (hh : Held c q) (hd : q.divCntQ = 0) :
    q.changeEdge = !(c.cpha ^^ decide (j % 2 = 1)) := by
  have ht : q.divTick = true := beq_iff_eq.mpr hd
  rw [Spi.changeEdge, ht, hh.cpha, hh.cpol, hb.sck]
  cases c.cpha <;> cases c.cpol <;> cases decide (j % 2 = 1) <;> rfl

/-- The bit counter comes to zero before the last tick and not earlier. -/
private theorem cnt_eq_zero (hj : j ≤ c.last) (hs : (c.cpha ^^ decide (j % 2 = 1)) = true) :
    BitVec.ofNat 3 (7 - c.shifted j) = 0#3 ↔ j = c.last := by
  have htab : ∀ cpha : Bool, ∀ j < 16, (cpha ^^ decide (j % 2 = 1)) = true → j ≤ (if cpha then 14 else 15) →
      (BitVec.ofNat 3 (7 - (if cpha then j / 2 else (j - 1) / 2)) = 0#3 ↔ j = if cpha then 14 else 15) := by decide
  have h16 : j < 16 := by
    unfold last at hj
    split at hj <;> omega
  exact htab c.cpha j h16 hs hj

/-- A change tick counts a bit, the suppressed one excepted. -/
private theorem cnt_shift (hj : j < c.last) (hs : (c.cpha ^^ decide (j % 2 = 1)) = false) :
    (if (BitVec.ofNat 3 (7 - c.shifted j) != 0#3 && !(decide (j = 0) && !c.cpha)) = true then
      BitVec.ofNat 3 (7 - c.shifted j) - 1#3 else BitVec.ofNat 3 (7 - c.shifted j)) =
      BitVec.ofNat 3 (7 - c.shifted (j + 1)) := by
  have htab : ∀ cpha : Bool, ∀ j < 15, (cpha ^^ decide (j % 2 = 1)) = false →
      (if (BitVec.ofNat 3 (7 - (if cpha then j / 2 else (j - 1) / 2)) != 0#3 && !(decide (j = 0) && !cpha)) =
        true then
        BitVec.ofNat 3 (7 - (if cpha then j / 2 else (j - 1) / 2)) - 1#3
      else BitVec.ofNat 3 (7 - (if cpha then j / 2 else (j - 1) / 2))) =
        BitVec.ofNat 3 (7 - (if cpha then (j + 1) / 2 else (j + 1 - 1) / 2)) := by decide
  have h15 : j < 15 := by
    unfold last at hj
    split at hj <;> omega
  exact htab c.cpha j h15 hs

private theorem shifted_sample (hs : (c.cpha ^^ decide (j % 2 = 1)) = true) : c.shifted (j + 1) = c.shifted j := by
  unfold shifted
  cases hc : c.cpha with
  | false =>
    rw [hc, Bool.false_xor, decide_eq_true_eq] at hs
    simp only [Bool.false_eq_true, if_false]
    omega
  | true =>
    rw [hc, Bool.true_xor, Bool.not_eq_true', decide_eq_false_iff_not] at hs
    simp only [if_true]
    omega

/-- A tick before the last one goes on to the next level. -/
theorem Beat.tick (hb : Beat c j q) (hh : Held c q) (hd : q.divCntQ = 0) (hj : j < c.last) :
    Beat c (j + 1) (q.next i) := by
  have ht : q.divTick = true := beq_iff_eq.mpr hd
  have hsamp := hb.sampleEdge hh hd
  have hchg := hb.changeEdge hh hd
  refine ⟨?_, (hb.tick_sck hh hd).1, ?_, ?_⟩
  · have hstay : (q.sampleEdge && q.bitCntQ == 0) = false := by
      cases hs : c.cpha ^^ decide (j % 2 = 1) with
      | false => rw [hsamp, hs, Bool.false_and]
      | true =>
        have hne : q.bitCntQ ≠ 0 := by
          rw [hb.cnt]
          intro h0
          have := (cnt_eq_zero (Nat.le_of_lt hj) hs).mp h0
          omega
        rw [beq_eq_false_iff_ne.mpr hne, Bool.and_false]
    change q.stateD = _
    unfold stateD
    rw [hb.state]
    simp only [hstay, Bool.false_eq_true, if_false]
  · simp [Spi.next, hb.state, ht]
  · have hcnt : (q.next i).bitCntQ = if q.shifts then q.bitCntQ - 1 else q.bitCntQ := by simp [Spi.next, hb.state]
    rw [hcnt]
    unfold Spi.shifts
    rw [hchg, hb.first, hh.cpha, hb.cnt]
    cases hs : c.cpha ^^ decide (j % 2 = 1) with
    | false => exact cnt_shift hj hs
    | true => rw [shifted_sample hs, Bool.not_true, Bool.false_and, Bool.false_and, if_neg Bool.false_ne_true]

/-- The last tick ends the byte. -/
theorem Beat.tick_last (hb : Beat c c.last q) (hh : Held c q) (hd : q.divCntQ = 0) : (q.next i).stateQ = .done := by
  have hs : (c.cpha ^^ decide (c.last % 2 = 1)) = true := by
    unfold last
    cases c.cpha <;> rfl
  have hz : q.bitCntQ = 0#3 := by rw [hb.cnt, (cnt_eq_zero le_rfl hs).mpr rfl]
  change q.stateD = _
  unfold stateD
  rw [hb.state]
  simp only [hb.sampleEdge hh hd, hs, hz]
  rfl

/-- In `ST_DONE` the divider may tick once more. -/
private theorem next_done (hh : Held c q) (hs : q.stateQ = .done) (hd : q.divCntQ = c.clkdiv) :
    (q.next i).stateQ = .idle ∧ (q.next i).sckQ = (q.sckQ ^^ decide (c.clkdiv = 0)) := by
  constructor
  · simp [Spi.next, stateD, hs]
  · by_cases hz : c.clkdiv = 0
    · have ht : q.divTick = true := beq_iff_eq.mpr (hd.trans hz)
      simp [Spi.next, hs, hh.enable, ht, hz]
    · have ht : q.divTick = false := beq_eq_false_iff_ne.mpr (by rwa [hd])
      rw [decide_eq_false hz]
      simp [Spi.next, hs, hh.enable, ht]

/-! ### A byte -/

section Run

variable (s : Spi wt wr) (acc : Nat → RegAccess (BitVec 3) Bool)

/-- The engine before cycle `t`. -/
def spiAt (t : Nat) : Spi wt wr := trace Spi.next s acc t

/-- `spi_sck_o`. -/
def sckO (t : Nat) : Bool := (spiAt s acc t).sckQ

/-- In cycle `v` the engine is idle behind the byte launched in cycle `t`, and no byte has been launched since. -/
structure Ended (t v : Nat) : Prop where
  later : t < v
  idle : (spiAt s acc v).stateQ = .idle
  none : ∀ u, t < u → u < v → (spiAt s acc u).launch = false

variable (c)

/-- SCK from the launch in cycle `t` up to the idle cycle `v`. -/
structure Framed (t v : Nat) : Prop where
  /-- Eight pulses: sixteen edges, and none between the byte and the cycle `v`. -/
  edges : count (edge (sckO s acc)) (t + 1) (v - t) = 16
  /-- SCK is at its idle level. -/
  rests : sckO s acc (v + 1) = c.cpol
  /-- Two edges of the byte are at least `CLKDIV + 1` cycles apart. -/
  spacing : ∀ u w, t < u → u < w → w ≤ v → edge (sckO s acc) u = true → edge (sckO s acc) w = true →
    c.clkdiv.toNat + 1 ≤ w - u

/-- The byte launched in cycle `t` ends, and SCK is as documented up to the next launch. -/
def ByteFramed (t V : Nat) : Prop :=
  (∃ v, v ≤ V ∧ Ended s acc t v) ∧ ∀ v, v ≤ V → Ended s acc t v → Framed c s acc t v

variable {c s acc} {t V a : Nat}

theorem spiAt_succ (t : Nat) : spiAt s acc (t + 1) = (spiAt s acc t).next (acc t) := rfl

/-- A level of a byte, from its first cycle on. -/
private theorem beat_run (hh : ∀ u, t ≤ u → u ≤ V → Held c (spiAt s acc u)) (ha : t ≤ a)
    (hb : Beat c j (spiAt s acc a)) (hd : (spiAt s acc a).divCntQ = c.clkdiv) (k : Nat) (hk : k ≤ c.clkdiv.toNat)
    (hV : a + k ≤ V) :
    Beat c j (spiAt s acc (a + k)) ∧ (spiAt s acc (a + k)).divCntQ.toNat = c.clkdiv.toNat - k := by
  induction k with
  | zero => exact ⟨hb, by rw [Nat.add_zero, hd, Nat.sub_zero]⟩
  | succ k ih =>
    obtain ⟨hbk, hdk⟩ := ih (by omega) (by omega)
    have hne : (spiAt s acc (a + k)).divCntQ ≠ 0 := by
      intro hz
      rw [hz] at hdk
      change 0 = _ at hdk
      omega
    obtain ⟨hb', hd'⟩ := hbk.count (i := acc (a + k)) (hh (a + k) (by omega) (by omega)) hne
    have hone : (1 : BitVec 16).toNat = 1 := rfl
    have hlt := c.clkdiv.isLt
    rw [← Nat.add_assoc, spiAt_succ]
    refine ⟨hb', ?_⟩
    rw [hd', BitVec.toNat_sub, hone, hdk]
    omega

/-- The cycle in which the divider of a level runs out. -/
private theorem beat_end (hh : ∀ u, t ≤ u → u ≤ V → Held c (spiAt s acc u)) (ha : t ≤ a)
    (hb : Beat c j (spiAt s acc a)) (hd : (spiAt s acc a).divCntQ = c.clkdiv) (hV : a + c.clkdiv.toNat ≤ V) :
    Beat c j (spiAt s acc (a + c.clkdiv.toNat)) ∧ (spiAt s acc (a + c.clkdiv.toNat)).divCntQ = 0 := by
  obtain ⟨hbe, hde⟩ := beat_run hh ha hb hd _ le_rfl hV
  refine ⟨hbe, BitVec.eq_of_toNat_eq ?_⟩
  rw [hde, Nat.sub_self]
  rfl

/-- A level lasts `CLKDIV + 1` cycles. -/
private theorem beat_lasts (hh : ∀ u, t ≤ u → u ≤ V → Held c (spiAt s acc u)) (ha : t ≤ a)
    (hb : Beat c j (spiAt s acc a)) (hd : (spiAt s acc a).divCntQ = c.clkdiv) (hV : a + c.clkdiv.toNat ≤ V) :
    Lasts (sckO s acc) a c.half := by
  constructor
  · intro k hk
    have hbk := (beat_run hh ha hb hd k (Nat.lt_succ_iff.mp hk) (by unfold half at hk; omega)).1
    exact hbk.sck.trans hb.sck.symm
  · obtain ⟨hbe, hde⟩ := beat_end hh ha hb hd hV
    have hnext := (hbe.tick_sck (i := acc (a + c.clkdiv.toNat)) (hh _ (by omega) hV) hde).1
    have hnow := hb.sck
    unfold half sckO
    rw [← Nat.add_assoc, spiAt_succ, hnext, hnow]
    have hpar : decide ((j + 1) % 2 = 1) = !decide (j % 2 = 1) := by
      rw [← decide_not, decide_eq_decide]
      omega
    rw [hpar]
    cases c.cpol <;> cases decide (j % 2 = 1) <;> decide

/-- The engine at the beginning of each level of a byte. -/
private theorem beat_start (hh : ∀ u, t ≤ u → u ≤ V → Held c (spiAt s acc u))
    (hl : (spiAt s acc t).launch = true) (j : Nat) (hj : j ≤ c.last) (hV : t + 1 + j * c.half ≤ V) :
    Beat c j (spiAt s acc (t + 1 + j * c.half)) ∧ (spiAt s acc (t + 1 + j * c.half)).divCntQ = c.clkdiv := by
  induction j with
  | zero =>
    have hht := hh t le_rfl (by omega)
    rw [Nat.zero_mul, Nat.add_zero, spiAt_succ]
    exact ⟨next_launch hht hl, (next_idle hht (launch_idle hl)).2⟩
  | succ j ih =>
    rw [Nat.succ_mul] at hV ⊢
    obtain ⟨hb, hd⟩ := ih (by omega) (by omega)
    have hV' : t + 1 + j * c.half + c.clkdiv.toNat ≤ V := by
      unfold half at hV ⊢
      omega
    obtain ⟨hbe, hde⟩ := beat_end hh (by omega) hb hd hV'
    have hhe := hh (t + 1 + j * c.half + c.clkdiv.toNat) (by omega) hV'
    have hend : t + 1 + (j * c.half + c.half) = t + 1 + j * c.half + c.clkdiv.toNat + 1 := by
      unfold half
      omega
    rw [hend, spiAt_succ]
    exact ⟨hbe.tick hhe hde (by omega), (hbe.tick_sck hhe hde).2⟩

/-- The first cycle behind the levels the divider makes. -/
def doneAt (c : SckMode) (t : Nat) : Nat := t + 1 + (c.last + 1) * c.half

private theorem row (hh : ∀ u, t ≤ u → u ≤ V → Held c (spiAt s acc u)) (hl : (spiAt s acc t).launch = true)
    (hV : doneAt c t ≤ V) : Row (sckO s acc) (t + 1) c.half (c.last + 1) := by
  intro j hj
  have hle : (j + 1) * c.half ≤ (c.last + 1) * c.half := Nat.mul_le_mul_right c.half hj
  unfold doneAt at hV
  rw [Nat.succ_mul] at hle
  obtain ⟨hb, hd⟩ := beat_start hh hl j (by omega) (by omega)
  refine beat_lasts hh (by omega) hb hd ?_
  unfold half at hle hV ⊢
  omega

/-- The last tick leaves the engine in `ST_DONE`, with the parity of SCK that the number of ticks gives. -/
private theorem done_state (hh : ∀ u, t ≤ u → u ≤ V → Held c (spiAt s acc u)) (hl : (spiAt s acc t).launch = true)
    (hV : doneAt c t ≤ V) :
    (spiAt s acc (doneAt c t)).stateQ = .done ∧ (spiAt s acc (doneAt c t)).divCntQ = c.clkdiv ∧
      sckO s acc (doneAt c t) = (c.cpol ^^ c.cpha) := by
  have hend : doneAt c t = t + 1 + c.last * c.half + c.clkdiv.toNat + 1 := by
    unfold doneAt
    rw [Nat.succ_mul]
    unfold half
    omega
  rw [hend] at hV ⊢
  obtain ⟨hb, hd⟩ := beat_start hh hl c.last le_rfl (by omega)
  obtain ⟨hbe, hde⟩ := beat_end hh (by omega) hb hd (by omega)
  have hhe := hh (t + 1 + c.last * c.half + c.clkdiv.toNat) (by omega) (by omega)
  obtain ⟨hsck, hdiv⟩ := hbe.tick_sck (i := acc (t + 1 + c.last * c.half + c.clkdiv.toNat)) hhe hde
  refine ⟨hbe.tick_last hhe hde, hdiv, ?_⟩
  have hpar : decide ((c.last + 1) % 2 = 1) = c.cpha := by
    unfold last
    cases c.cpha <;> rfl
  rw [hpar] at hsck
  exact hsck

/-- While a byte is sent the engine is not idle. -/
private theorem busy_run (hh : ∀ u, t ≤ u → u ≤ V → Held c (spiAt s acc u)) (hl : (spiAt s acc t).launch = true)
    (hV : doneAt c t ≤ V) {u : Nat} (hu : t < u) (huV : u ≤ doneAt c t) : (spiAt s acc u).stateQ ≠ .idle := by
  rcases Nat.lt_or_eq_of_le huV with hlt | rfl
  · have hpos : 0 < c.half := Nat.succ_pos _
    unfold doneAt at hlt hV
    have hj : (u - (t + 1)) / c.half < c.last + 1 := Nat.div_lt_of_lt_mul (by rw [Nat.mul_comm]; omega)
    have hdm := Nat.div_add_mod' (u - (t + 1)) c.half
    have hmod := Nat.mod_lt (u - (t + 1)) hpos
    have hu' : u = t + 1 + (u - (t + 1)) / c.half * c.half + (u - (t + 1)) % c.half := by omega
    obtain ⟨hb, hd⟩ := beat_start hh hl _ (Nat.lt_succ_iff.mp hj) (by omega)
    have hbk := (beat_run hh (by omega) hb hd ((u - (t + 1)) % c.half) (Nat.lt_succ_iff.mp hmod) (by omega)).1
    rw [← hu'] at hbk
    rw [hbk.state]
    decide
  · rw [(done_state hh hl hV).1]
    decide

/-! ### Behind the byte -/

private theorem half_le (c : SckMode) (t : Nat) : doneAt c t ≤ t + 1 + 16 * c.half := by
  have hlast : c.last + 1 ≤ 16 := by
    unfold last
    split <;> omega
  have := Nat.mul_le_mul_right c.half hlast
  unfold doneAt
  omega

private theorem idle_state (hh : ∀ u, t ≤ u → u ≤ V → Held c (spiAt s acc u)) (hl : (spiAt s acc t).launch = true)
    (hV : doneAt c t ≤ V) :
    (spiAt s acc (doneAt c t + 1)).stateQ = .idle ∧
      sckO s acc (doneAt c t + 1) = ((c.cpol ^^ c.cpha) ^^ decide (c.clkdiv = 0)) := by
  obtain ⟨hs, hd, hsck⟩ := done_state hh hl hV
  have hle : t ≤ doneAt c t := by
    unfold doneAt
    omega
  obtain ⟨hidle, hnext⟩ := next_done (i := acc (doneAt c t)) (hh _ hle hV) hs hd
  refine ⟨hidle, ?_⟩
  rw [← hsck]
  exact hnext

/-- The byte ends: the first idle cycle. -/
private theorem ended_first (hh : ∀ u, t ≤ u → u ≤ V → Held c (spiAt s acc u)) (hl : (spiAt s acc t).launch = true)
    (hV : doneAt c t ≤ V) : Ended s acc t (doneAt c t + 1) := by
  refine ⟨?_, (idle_state hh hl hV).1, ?_⟩
  · unfold doneAt
    omega
  · intro u hu hlt
    rw [Bool.eq_false_iff]
    intro hlu
    exact busy_run hh hl hV hu (Nat.lt_succ_iff.mp hlt) (launch_idle hlu)

/-- Up to the next launch the engine stays idle. -/
private theorem ended_idle (hh : ∀ u, t ≤ u → u ≤ V → Held c (spiAt s acc u)) (hl : (spiAt s acc t).launch = true)
    (hV : doneAt c t ≤ V) {v : Nat} (he : Ended s acc t v) :
    doneAt c t + 1 ≤ v ∧ ∀ u, doneAt c t + 1 ≤ u → u ≤ v → (spiAt s acc u).stateQ = .idle := by
  constructor
  · by_contra hlt
    exact busy_run hh hl hV he.later (by omega) he.idle
  · intro u hu huv
    induction u, hu using Nat.le_induction with
    | base => exact (idle_state hh hl hV).1
    | succ u hu ih =>
      have hidle := ih (by omega)
      have hle : t < u := by
        unfold doneAt at hu
        omega
      have hnone := he.none u hle (by omega)
      rw [spiAt_succ]
      change (spiAt s acc u).stateD = _
      unfold stateD
      rw [hidle, hnone]
      rfl

/-- The idle engine holds SCK at the idle level. -/
private theorem ended_sck (hh : ∀ u, t ≤ u → u ≤ V → Held c (spiAt s acc u)) (hl : (spiAt s acc t).launch = true)
    (hV : doneAt c t ≤ V) {v : Nat} (he : Ended s acc t v) (hvV : v ≤ V) {u : Nat} (hu : doneAt c t + 1 ≤ u)
    (huv : u ≤ v) :
    sckO s acc (u + 1) = c.cpol := by
  have hle : t ≤ u := by
    unfold doneAt at hu
    omega
  exact (next_idle (i := acc u) (hh u hle (by omega)) ((ended_idle hh hl hV he).2 u hu huv)).1

/-- The edge of `ST_DONE`: the divider ticks there only if it is zero. -/
private theorem edge_done (hh : ∀ u, t ≤ u → u ≤ V → Held c (spiAt s acc u)) (hl : (spiAt s acc t).launch = true)
    (hV : doneAt c t ≤ V) : edge (sckO s acc) (doneAt c t) = decide (c.clkdiv = 0) := by
  unfold edge
  rw [(done_state hh hl hV).2.2, (idle_state hh hl hV).2]
  cases c.cpol <;> cases c.cpha <;> cases decide (c.clkdiv = 0) <;> rfl

/-- The edge of the first idle cycle: SCK has to come back. -/
private theorem edge_idle (hh : ∀ u, t ≤ u → u ≤ V → Held c (spiAt s acc u)) (hl : (spiAt s acc t).launch = true)
    (hV : doneAt c t ≤ V) {v : Nat} (he : Ended s acc t v) (hvV : v ≤ V) :
    edge (sckO s acc) (doneAt c t + 1) = (c.cpha ^^ decide (c.clkdiv = 0)) := by
  unfold edge
  rw [(idle_state hh hl hV).2, ended_sck hh hl hV he hvV le_rfl (ended_idle hh hl hV he).1]
  cases c.cpol <;> cases c.cpha <;> cases decide (c.clkdiv = 0) <;> rfl

/-- From then on SCK stands still. -/
private theorem edge_rest (hh : ∀ u, t ≤ u → u ≤ V → Held c (spiAt s acc u)) (hl : (spiAt s acc t).launch = true)
    (hV : doneAt c t ≤ V) {v : Nat} (he : Ended s acc t v) (hvV : v ≤ V) {u : Nat} (hu : doneAt c t + 1 < u)
    (huv : u ≤ v) :
    edge (sckO s acc) u = false := by
  obtain ⟨w, rfl⟩ : ∃ w, u = w + 1 := ⟨u - 1, by omega⟩
  rw [edge_eq_false, ended_sck hh hl hV he hvV (by omega) huv, ended_sck hh hl hV he hvV (by omega) (by omega)]

/-- The edges of a byte. -/
private theorem count_frame (hh : ∀ u, t ≤ u → u ≤ V → Held c (spiAt s acc u)) (hl : (spiAt s acc t).launch = true)
    (hV : doneAt c t ≤ V) {v : Nat} (he : Ended s acc t v) (hvV : v ≤ V) :
    count (edge (sckO s acc)) (t + 1) (v - t) =
      c.last + 1 + (decide (c.clkdiv = 0)).toNat + (c.cpha ^^ decide (c.clkdiv = 0)).toNat := by
  have hle := (ended_idle hh hl hV he).1
  have hn : v - t = (c.last + 1) * c.half + (2 + (v - (doneAt c t + 1))) := by
    unfold doneAt at hle ⊢
    omega
  have hrow := (row hh hl hV).count_edge (Nat.succ_pos _)
  have hrest : count (edge (sckO s acc)) (doneAt c t + 2) (v - (doneAt c t + 1)) = 0 := by
    apply count_eq_zero
    intro k hk
    exact edge_rest hh hl hV he hvV (by omega) (by omega)
  have htwo : count (edge (sckO s acc)) (doneAt c t) 2 =
      (decide (c.clkdiv = 0)).toNat + (c.cpha ^^ decide (c.clkdiv = 0)).toNat := by
    rw [count_succ, count_succ, count_zero, Nat.zero_add, Nat.add_zero, edge_done hh hl hV, edge_idle hh hl hV he hvV]
  rw [hn, count_add, hrow]
  change c.last + 1 + count (edge (sckO s acc)) (doneAt c t) (2 + (v - (doneAt c t + 1))) = _
  rw [count_add, htwo, hrest]
  omega

/-- Where the edges of a byte are. -/
private theorem edge_cases (hh : ∀ u, t ≤ u → u ≤ V → Held c (spiAt s acc u)) (hl : (spiAt s acc t).launch = true)
    (hV : doneAt c t ≤ V) {v : Nat} (he : Ended s acc t v) (hvV : v ≤ V) {u : Nat} (huv : u ≤ v)
    (hu : edge (sckO s acc) u = true) :
    u < doneAt c t ∨ u = doneAt c t ∧ c.clkdiv = 0 ∨ u = doneAt c t + 1 ∧
      (c.cpha ^^ decide (c.clkdiv = 0)) = true := by
  rcases Nat.lt_trichotomy u (doneAt c t) with hlt | heq | hgt
  · exact .inl hlt
  · subst heq
    rw [edge_done hh hl hV, decide_eq_true_eq] at hu
    exact .inr (.inl ⟨rfl, hu⟩)
  · by_cases h1 : u = doneAt c t + 1
    · subst h1
      rw [edge_idle hh hl hV he hvV] at hu
      exact .inr (.inr ⟨rfl, hu⟩)
    · rw [edge_rest hh hl hV he hvV (by omega) huv] at hu
      cases hu

/-- Two edges of the levels the divider makes. -/
private theorem row_spacing (hh : ∀ u, t ≤ u → u ≤ V → Held c (spiAt s acc u)) (hl : (spiAt s acc t).launch = true)
    (hV : doneAt c t ≤ V) {u w : Nat} (htu : t < u) (huw : u < w) (hw : w < doneAt c t)
    (heu : edge (sckO s acc) u = true) (hew : edge (sckO s acc) w = true) : c.half ≤ w - u := by
  have hu' : t + 1 + (u - (t + 1)) = u := by omega
  have hw' : t + 1 + (w - (t + 1)) = w := by omega
  unfold doneAt at hw
  have := (row hh hl hV).spacing (u := u - (t + 1)) (v := w - (t + 1)) (by omega) (by omega) (by rw [hu']; exact heu)
    (by rw [hw']; exact hew)
  omega

/-! ### When SCK is framed -/

/-- The modes in which `ST_DONE` does no harm. -/
def Clean (c : SckMode) : Prop := c.cpha = false ∧ c.clkdiv ≠ 0 ∨ c.cpha = true ∧ c.clkdiv.toNat ≤ 1

private theorem framed_of_clean (hh : ∀ u, t ≤ u → u ≤ V → Held c (spiAt s acc u))
    (hl : (spiAt s acc t).launch = true) (hV : doneAt c t ≤ V) (hc : Clean c) {v : Nat} (he : Ended s acc t v)
    (hvV : v ≤ V) : Framed c s acc t v := by
  refine ⟨?_, ended_sck hh hl hV he hvV (ended_idle hh hl hV he).1 le_rfl, ?_⟩
  · rw [count_frame hh hl hV he hvV]
    rcases hc with ⟨hcpha, hdiv⟩ | ⟨hcpha, -⟩
    · unfold last
      rw [hcpha, decide_eq_false hdiv]
      rfl
    · unfold last
      rw [hcpha]
      cases decide (c.clkdiv = 0) <;> rfl
  · intro u w htu huw hwv heu hew
    rcases hc with ⟨hcpha, hdiv⟩ | ⟨hcpha, hdiv⟩
    · -- all edges are edges of the divider
      have hw : w < doneAt c t := by
        rcases edge_cases hh hl hV he hvV hwv hew with h | ⟨-, h⟩ | ⟨-, h⟩
        · exact h
        · exact absurd h hdiv
        · rw [hcpha, decide_eq_false hdiv] at h
          cases h
      exact row_spacing hh hl hV htu huw hw heu hew
    · rcases edge_cases hh hl hV he hvV hwv hew with h | ⟨-, h⟩ | ⟨h, hx⟩
      · exact row_spacing hh hl hV htu huw h heu hew
      · rw [h]
        change 0 + 1 ≤ w - u
        omega
      · -- the last edge comes two cycles behind the last tick
        have hne : c.clkdiv ≠ 0 := by
          intro hz
          rw [hcpha, decide_eq_true hz] at hx
          cases hx
        have hu : u < doneAt c t := by
          rcases edge_cases hh hl hV he hvV (by omega) heu with h' | ⟨-, h'⟩ | ⟨h', -⟩
          · exact h'
          · exact absurd h' hne
          · omega
        omega

/-- A byte ends, and its SCK is as documented, exactly in the modes with `CPHA = 0` and a divider that is not zero or
with `CPHA = 1` and a divider of at most one. -/
theorem framed_iff (hh : ∀ u, t ≤ u → u ≤ V → Held c (spiAt s acc u)) (hV : t + 1 + 16 * c.half + 1 ≤ V)
    (hl : (spiAt s acc t).launch = true) :
    ByteFramed c s acc t V ↔ Clean c := by
  have hle := half_le c t
  have hdone : doneAt c t ≤ V := by omega
  have hfirst := ended_first hh hl hdone
  constructor
  · rintro ⟨-, hall⟩
    have hf := hall (doneAt c t + 1) (by omega) hfirst
    cases hcpha : c.cpha with
    | false =>
      left
      refine ⟨hcpha, ?_⟩
      intro hz
      have hcount := hf.edges
      rw [count_frame hh hl hdone hfirst (by omega)] at hcount
      unfold last at hcount
      rw [hcpha, decide_eq_true hz] at hcount
      exact absurd hcount (by decide)
    | true =>
      right
      refine ⟨hcpha, ?_⟩
      by_contra hgt
      -- the last tick and the return to the idle level are two cycles apart
      have hpos : 0 < (c.last + 1) * c.half := Nat.mul_pos (Nat.succ_pos _) (Nat.succ_pos _)
      have hne : c.clkdiv ≠ 0 := by
        intro hz
        rw [hz] at hgt
        exact hgt (by decide)
      have hlast : edge (sckO s acc) (t + 1 + ((c.last + 1) * c.half - 1)) = true := by
        rw [(row hh hl hdone).edge_iff (by omega)]
        have hback : (c.last + 1) * c.half - 1 + 1 = (c.last + 1) * c.half := by omega
        rw [hback, Nat.mul_mod_left]
      have hback : edge (sckO s acc) (doneAt c t + 1) = true := by
        rw [edge_idle hh hl hdone hfirst (by omega), hcpha, decide_eq_false hne]
        rfl
      have hgap := hf.spacing _ _ (by omega) (by unfold doneAt; omega) le_rfl hlast hback
      unfold doneAt at hgap
      omega
  · intro hc
    exact ⟨⟨doneAt c t + 1, by omega, hfirst⟩, fun v hv he => framed_of_clean hh hl hdone hc he hv⟩

end Run

/-! ### One byte

The engine is enabled with `CPOL = 0`, and 0xA5 is written to TXDATA in cycle 0. -/

def byteStart (c : SckMode) : Spi 1 1 where
  enableQ := true
  cpolQ := c.cpol
  cphaQ := c.cpha
  ieTxQ := false
  ieRxQ := false
  ieDoneQ := false
  ieOvrQ := false
  clkdivQ := c.clkdiv
  csNQ := false
  irqTxQ := false
  irqRxQ := false
  irqDoneQ := false
  irqOvrQ := false
  txEmptyDQ := false
  rxNeDQ := false
  tx := Fifo.reset fun _ => 0
  rx := Fifo.reset fun _ => 0
  stateQ := .idle
  shiftQ := 0
  rxQ := 0
  bitCntQ := 0
  firstEdgeQ := false
  divCntQ := c.clkdiv
  sckQ := c.cpol

def byteAcc (t : Nat) : RegAccess (BitVec 3) Bool := ⟨if t = 0 then some ⟨REG_TXDATA, 0xA5, 1⟩ else none, none, false⟩

private theorem byte_held (c : SckMode) (u : Nat) : Held c (spiAt (byteStart c) byteAcc u) := by
  induction u with
  | zero => exact ⟨rfl, rfl, rfl, rfl⟩
  | succ u ih =>
    have hctrl : (byteAcc u).wrAt REG_CTRL = none := by
      unfold byteAcc
      split
      · exact RegAccess.wrAt_eq_none (by decide) _ _ _ _
      · rfl
    have hdiv : (byteAcc u).wrAt REG_CLKDIV = none := by
      unfold byteAcc
      split
      · exact RegAccess.wrAt_eq_none (by decide) _ _ _ _
      · rfl
    rw [spiAt_succ]
    refine ⟨?_, ?_, ?_, ?_⟩
    · simp [Spi.next, RegAccess.ctrlBit, hctrl, ih.enable]
    · simp [Spi.next, RegAccess.ctrlBit, hctrl, ih.cpol]
    · simp [Spi.next, RegAccess.ctrlBit, hctrl, ih.cpha]
    · simp [Spi.next, hdiv, ih.clkdiv]

/-- A byte in mode 0 at `CLKDIV = 2`. -/
theorem framed_iff_mode0 :
    ByteFramed ⟨false, false, 2⟩ (byteStart ⟨false, false, 2⟩) byteAcc 1 51 ↔ Clean ⟨false, false, 2⟩ :=
  framed_iff (fun u _ _ => byte_held _ u) (by decide) (by decide +kernel)

/-- `CPHA = 0` and `CLKDIV = 0` gives nine pulses; with `CPHA = 1` and `CLKDIV = 2` the last level is cut to two
cycles. -/
theorem byte_misframed :
    (spiAt (byteStart ⟨false, false, 0⟩) byteAcc 1).launch = true ∧
      Ended (byteStart ⟨false, false, 0⟩) byteAcc 1 19 ∧
      count (edge (sckO (byteStart ⟨false, false, 0⟩) byteAcc)) 2 18 = 18 ∧
      (spiAt (byteStart ⟨false, true, 2⟩) byteAcc 1).launch = true ∧
      Ended (byteStart ⟨false, true, 2⟩) byteAcc 1 48 ∧
      edge (sckO (byteStart ⟨false, true, 2⟩) byteAcc) 46 = true ∧
      edge (sckO (byteStart ⟨false, true, 2⟩) byteAcc) 48 = true := by
  have h0 : ∀ u < 19, 1 < u → (spiAt (byteStart ⟨false, false, 0⟩) byteAcc u).launch = false := by decide +kernel
  have h1 : ∀ u < 48, 1 < u → (spiAt (byteStart ⟨false, true, 2⟩) byteAcc u).launch = false := by decide +kernel
  refine ⟨by decide +kernel, ⟨by decide, by decide +kernel, fun u hu hlt => h0 u hlt hu⟩, by decide +kernel,
    by decide +kernel, ⟨by decide, by decide +kernel, fun u hu hlt => h1 u hlt hu⟩, by decide +kernel, by
      decide +kernel⟩

end SckMode

end Yarv.Spi
