import Yarv.Lib.Clocked
import Yarv.Lib.Wave
import Yarv.Periph.I2s

/-!
# The I2S clock generator

The two clock lines in master mode, over any run of the block.  `gen_div_q` counts a BCLK level down, `gen_slot_q`
counts the BCLK periods of an LRCK level up to an equality, so a slot ends in time only while its count stays below
SLOT.
-/

namespace Yarv.I2s

open Clocked Wave

variable {wr : Nat}

/-! ### One clock edge -/

section Step

variable {q : I2s wr} {i : RegAccess (BitVec 3) I2sPins}

/-- SLOT as the generator reads it. -/
def effOf (slot : BitVec 8) : BitVec 8 := if slot = 0 then 32 else slot

/-- The generator ends a BCLK period in this cycle. -/
def periodEnds (q : I2s wr) : Bool := q.gen.divQ == 0 && q.gen.bclkQ

/-- The BCLK periods of the running LRCK level that are over behind the edge. -/
def periodsDone (q : I2s wr) : BitVec 8 :=
  if q.periodEnds then if q.gen.slotQ = q.slotEff - 1 then 0 else q.gen.slotQ + 1 else q.gen.slotQ

/-- A rewrite of SLOT to no more than the periods that are over. -/
def Overtakes (q : I2s wr) (i : RegAccess (BitVec 3) I2sPins) : Prop :=
  ∃ x, i.wrLane REG_CLKDIV 2 = some x ∧ (effOf (x.data.extractLsb' 16 8)).ule q.periodsDone = true

private theorem effOf_pos (v : BitVec 8) : 0 < (effOf v).toNat := by
  unfold effOf
  by_cases hv : v = 0
  · rw [if_pos hv]
    decide
  · rw [if_neg hv]
    exact Nat.pos_of_ne_zero fun h => hv (BitVec.eq_of_toNat_eq h)

/-- The parked generator. -/
private theorem gen_parked (hm : q.masterQ = false) : (q.next i).gen = ⟨q.clkdivQ, false, 0, false⟩ := by
  change q.genNext = _
  unfold genNext
  rw [hm]
  rfl

/-- Within a BCLK level only the divider moves. -/
private theorem gen_count (hm : q.masterQ = true) (hd : q.gen.divQ ≠ 0) :
    (q.next i).gen = { q.gen with divQ := q.gen.divQ - 1 } := by
  change q.genNext = _
  unfold genNext
  simp only [hm, hd, Bool.not_true, Bool.false_eq_true, if_false]

/-- The end of a low BCLK level. -/
private theorem gen_rise (hm : q.masterQ = true) (hd : q.gen.divQ = 0) (hb : q.gen.bclkQ = false) :
    (q.next i).gen = ⟨q.clkdivQ, true, q.gen.slotQ, q.gen.wsQ⟩ := by
  change q.genNext = _
  unfold genNext
  simp only [hm, hd, hb, Bool.not_true, Bool.false_eq_true, if_false, if_true]

/-- The end of a high BCLK level. -/
private theorem gen_fall (hm : q.masterQ = true) (hd : q.gen.divQ = 0) (hb : q.gen.bclkQ = true) :
    (q.next i).gen =
      if q.gen.slotQ = q.slotEff - 1 then ⟨q.clkdivQ, false, 0, !q.gen.wsQ⟩
      else ⟨q.clkdivQ, false, q.gen.slotQ + 1, q.gen.wsQ⟩ := by
  change q.genNext = _
  unfold genNext
  simp only [hm, hd, hb, Bool.not_true, Bool.false_eq_true, if_false, if_true]

/-- A BCLK level ends only where the divider has run out, and the divider is loaded there. -/
private theorem gen_edge (hm : q.masterQ = true) (he : (q.next i).gen.bclkQ ≠ q.gen.bclkQ) :
    q.gen.divQ = 0 ∧ (q.next i).gen.divQ = q.clkdivQ := by
  by_cases hd : q.gen.divQ = 0
  · refine ⟨hd, ?_⟩
    cases hb : q.gen.bclkQ with
    | false => rw [gen_rise hm hd hb]
    | true =>
      rw [gen_fall hm hd hb]
      split <;> rfl
  · rw [gen_count hm hd] at he
    exact absurd rfl he

/-- LRCK moves only where BCLK falls, and a slot count starts there. -/
private theorem gen_ws (hm : q.masterQ = true) (he : (q.next i).gen.wsQ ≠ q.gen.wsQ) :
    q.gen.bclkQ = true ∧ (q.next i).gen = ⟨q.clkdivQ, false, 0, !q.gen.wsQ⟩ := by
  by_cases hd : q.gen.divQ = 0
  · cases hb : q.gen.bclkQ with
    | false =>
      rw [gen_rise hm hd hb] at he
      exact absurd rfl he
    | true =>
      rw [gen_fall hm hd hb] at he ⊢
      by_cases hs : q.gen.slotQ = q.slotEff - 1
      · rw [if_pos hs]
        exact ⟨rfl, rfl⟩
      · rw [if_neg hs] at he
        exact absurd rfl he
  · rw [gen_count hm hd] at he
    exact absurd rfl he

/-- A BCLK period that ends within an LRCK level is counted. -/
private theorem gen_period (hm : q.masterQ = true) (hs : (q.next i).gen.wsQ = q.gen.wsQ) :
    (q.next i).gen.slotQ = if q.gen.bclkQ && !(q.next i).gen.bclkQ then q.gen.slotQ + 1 else q.gen.slotQ := by
  by_cases hd : q.gen.divQ = 0
  · cases hb : q.gen.bclkQ with
    | false =>
      rw [gen_rise hm hd hb]
      rfl
    | true =>
      rw [gen_fall hm hd hb] at hs ⊢
      by_cases hl : q.gen.slotQ = q.slotEff - 1
      · rw [if_pos hl] at hs
        cases hw : q.gen.wsQ <;> simp [hw] at hs
      · rw [if_neg hl]
        rfl
  · rw [gen_count hm hd]
    cases q.gen.bclkQ <;> rfl

private theorem gen_slotQ (hm : q.masterQ = true) : (q.next i).gen.slotQ = q.periodsDone := by
  unfold periodsDone
  by_cases hd : q.gen.divQ = 0
  · cases hb : q.gen.bclkQ with
    | false =>
      have hp : q.periodEnds = false := by
        unfold periodEnds
        rw [hb, Bool.and_false]
      rw [hp, gen_rise hm hd hb]
      rfl
    | true =>
      have hp : q.periodEnds = true := by
        unfold periodEnds
        rw [hb, hd]
        rfl
      rw [hp, gen_fall hm hd hb, if_pos rfl]
      by_cases hl : q.gen.slotQ = q.slotEff - 1
      · rw [if_pos hl, if_pos hl]
      · rw [if_neg hl, if_neg hl]
  · have hp : q.periodEnds = false := by
      unfold periodEnds
      rw [beq_eq_false_iff_ne.mpr hd, Bool.false_and]
    rw [hp, gen_count hm hd]
    rfl

/-- The write that sets MASTER leaves CLKDIV alone. -/
private theorem clkdiv_of_master (hm : q.masterQ = false) (hm' : (q.next i).masterQ = true) :
    (q.next i).clkdivQ = q.clkdivQ ∧ (q.next i).slotQ = q.slotQ := by
  change i.ctrlBit REG_CTRL 6 q.masterQ = true at hm'
  change ((i.wrAt REG_CLKDIV).map fun x => x.data.setWidth 16).getD q.clkdivQ = _ ∧
    ((i.wrLane REG_CLKDIV 2).map fun x => x.data.extractLsb' 16 8).getD q.slotQ = _
  unfold RegAccess.ctrlBit at hm'
  cases hw : i.wrAt REG_CTRL with
  | none =>
    rw [hw, hm] at hm'
    cases hm'
  | some x =>
    unfold RegAccess.wrAt at hw
    rw [Option.filter_eq_some_iff] at hw
    obtain ⟨hx, hsel⟩ := hw
    have hadr : x.addr = REG_CTRL := by
      rw [Bool.and_eq_true] at hsel
      exact eq_of_beq hsel.2
    have hne : x.addr ≠ REG_CLKDIV := by
      rw [hadr]
      decide
    have h1 : i.wrAt REG_CLKDIV = none := by simp [RegAccess.wrAt, hx, hne]
    have h2 : i.wrLane REG_CLKDIV 2 = none := by simp [RegAccess.wrLane, hx, hne]
    rw [h1, h2]
    exact ⟨rfl, rfl⟩

/-- The slot count stays below SLOT unless a rewrite overtakes it. -/
private theorem slot_lt_next (hm : q.masterQ = true) (hs : q.gen.slotQ.toNat < q.slotEff.toNat)
    (ho : ¬Overtakes q i) :
    (q.next i).gen.slotQ.toNat < (q.next i).slotEff.toNat := by
  rw [gen_slotQ hm]
  cases hw : i.wrLane REG_CLKDIV 2 with
  | some x =>
    have hnew : (q.next i).slotEff = effOf (x.data.extractLsb' 16 8) := by
      change effOf (((i.wrLane REG_CLKDIV 2).map fun x => x.data.extractLsb' 16 8).getD q.slotQ) = _
      rw [hw]
      rfl
    rw [hnew]
    by_contra hge
    apply ho
    refine ⟨x, hw, ?_⟩
    rw [BitVec.ule_eq_decide, decide_eq_true_eq]
    exact not_lt.mp hge
  | none =>
    have hsame : (q.next i).slotEff = q.slotEff := by
      change effOf (((i.wrLane REG_CLKDIV 2).map fun x => x.data.extractLsb' 16 8).getD q.slotQ) = _
      rw [hw]
      rfl
    rw [hsame]
    unfold periodsDone
    have hpos : 0 < q.slotEff.toNat := effOf_pos q.slotQ
    have hone : (1 : BitVec 8).toNat = 1 := rfl
    by_cases hp : q.periodEnds = true
    · rw [if_pos hp]
      by_cases hl : q.gen.slotQ = q.slotEff - 1
      · rw [if_pos hl]
        exact hpos
      · rw [if_neg hl]
        have hne : q.gen.slotQ.toNat ≠ q.slotEff.toNat - 1 := by
          intro he
          apply hl
          apply BitVec.eq_of_toNat_eq
          have hlt := q.slotEff.isLt
          rw [he, BitVec.toNat_sub, hone]
          omega
        have hlt := q.slotEff.isLt
        rw [BitVec.toNat_add, hone]
        omega
    · rw [if_neg hp]
      exact hs

end Step

/-! ### Runs -/

section Run

variable (s : I2s wr) (acc : Nat → RegAccess (BitVec 3) I2sPins)

/-- The block before cycle `t`. -/
def i2sAt (t : Nat) : I2s wr := trace I2s.next s acc t

/-- `i2s_bclk_o`. -/
def bclkO (t : Nat) : Bool := (i2sAt s acc t).gen.bclkQ

/-- `i2s_lrck_o`. -/
def lrckO (t : Nat) : Bool := (i2sAt s acc t).gen.wsQ

/-- The write of cycle `t₀` sets MASTER, and MASTER stays set up to cycle `T`. -/
structure MasterFrom (t₀ T : Nat) : Prop where
  off : (i2sAt s acc t₀).masterQ = false
  on : ∀ u, t₀ < u → u ≤ T → (i2sAt s acc u).masterQ = true

/-- A level of `x` begins in cycle `a` of the master mode set in cycle `t₀`. -/
def Begins (x : Nat → Bool) (t₀ a : Nat) : Prop := a = t₀ + 1 ∨ ∃ u, t₀ < u ∧ a = u + 1 ∧ edge x u = true

variable {s acc} {t₀ T a : Nat}

private theorem i2sAt_succ (t : Nat) : i2sAt s acc (t + 1) = (i2sAt s acc t).next (acc t) := rfl

/-- The generator starts low, low, with a full BCLK level ahead. -/
private theorem gen_start (hm : MasterFrom s acc t₀ T) (hT : t₀ < T) :
    (i2sAt s acc (t₀ + 1)).gen = ⟨(i2sAt s acc (t₀ + 1)).clkdivQ, false, 0, false⟩ := by
  have hset := clkdiv_of_master hm.off (hm.on (t₀ + 1) (Nat.lt_succ_self t₀) hT)
  have hkeep : (i2sAt s acc (t₀ + 1)).clkdivQ = (i2sAt s acc t₀).clkdivQ := hset.1
  rw [hkeep, i2sAt_succ, gen_parked hm.off]

/-- Where a BCLK level begins the divider holds a CLKDIV in force. -/
private theorem div_at_begin (hm : MasterFrom s acc t₀ T) (haT : a ≤ T) (hb : Begins (bclkO s acc) t₀ a) :
    ∃ u, t₀ < u ∧ u ≤ T ∧ (i2sAt s acc a).gen.divQ = (i2sAt s acc u).clkdivQ := by
  rcases hb with rfl | ⟨u, hu, rfl, he⟩
  · exact ⟨t₀ + 1, by omega, haT, by rw [gen_start hm haT]⟩
  · rw [edge_eq_true] at he
    exact ⟨u, hu, by omega, (gen_edge (hm.on u hu (by omega)) he).2⟩

/-- A level counts down. -/
private theorem gen_run (hm : MasterFrom s acc t₀ T) (ha : t₀ < a) (k : Nat) (hk : k ≤ (i2sAt s acc a).gen.divQ.toNat)
    (haT : a + k ≤ T) :
    (i2sAt s acc (a + k)).gen = { (i2sAt s acc a).gen with
      divQ := (i2sAt s acc a).gen.divQ - BitVec.ofNat 16 k } := by
  induction k with
  | zero =>
    rw [Nat.add_zero, BitVec.sub_zero]
  | succ k ih =>
    have hprev := ih (by omega) (by omega)
    have hlt := (i2sAt s acc a).gen.divQ.isLt
    have hne : (i2sAt s acc (a + k)).gen.divQ ≠ 0 := by
      rw [hprev]
      intro hz
      have hval := congrArg BitVec.toNat hz
      rw [BitVec.toNat_sub, BitVec.toNat_ofNat] at hval
      change _ = 0 at hval
      omega
    rw [← Nat.add_assoc, i2sAt_succ, gen_count (hm.on (a + k) (by omega) (by omega)) hne, hprev]
    have hsub : (i2sAt s acc a).gen.divQ - BitVec.ofNat 16 k - 1 =
        (i2sAt s acc a).gen.divQ - BitVec.ofNat 16 (k + 1) := by
      rw [BitVec.ofNat_add, BitVec.sub_sub]
      rfl
    simp only [hsub]

/-- The last cycle of a level. -/
private theorem gen_run_out (hm : MasterFrom s acc t₀ T) (ha : t₀ < a) {d : Nat}
    (hd : (i2sAt s acc a).gen.divQ.toNat = d) (haT : a + d ≤ T) :
    (i2sAt s acc (a + d)).gen = { (i2sAt s acc a).gen with divQ := 0 } := by
  rw [gen_run hm ha d (by omega) haT, ← hd, BitVec.ofNat_toNat, BitVec.setWidth_eq, BitVec.sub_self]
  rfl

/-- A BCLK level lasts as long as the divider it begins with says. -/
private theorem bclk_lasts (hm : MasterFrom s acc t₀ T) (ha : t₀ < a) {d : Nat}
    (hd : (i2sAt s acc a).gen.divQ.toNat = d) (haT : a + d < T) : Lasts (bclkO s acc) a (d + 1) := by
  constructor
  · intro k hk
    unfold bclkO
    rw [gen_run hm ha k (by omega) (by omega)]
  · have hlast := gen_run_out hm ha hd (by omega)
    have hmast := hm.on (a + d) (by omega) (by omega)
    have hz : (i2sAt s acc (a + d)).gen.divQ = 0 := by rw [hlast]
    have hb : (i2sAt s acc (a + d)).gen.bclkQ = (i2sAt s acc a).gen.bclkQ := by rw [hlast]
    unfold bclkO
    rw [← Nat.add_assoc, i2sAt_succ]
    cases hlev : (i2sAt s acc a).gen.bclkQ with
    | false =>
      rw [gen_rise hmast hz (hb.trans hlev)]
      exact Bool.false_ne_true.symm
    | true =>
      rw [gen_fall hmast hz (hb.trans hlev)]
      split
      · exact Bool.false_ne_true
      · exact Bool.false_ne_true

/-! ### A constant CLKDIV -/

/-- CLKDIV stands still from the setting of MASTER up to cycle `T`. -/
def Steady (s : I2s wr) (acc : Nat → RegAccess (BitVec 3) I2sPins) (t₀ T : Nat) (div : BitVec 16)
    (slot : BitVec 8) : Prop := ∀ u, t₀ < u → u ≤ T → (i2sAt s acc u).clkdivQ = div ∧ (i2sAt s acc u).slotEff = slot

variable {div : BitVec 16} {slot v : BitVec 8} {w : Bool}

/-- Every BCLK level lasts `DIV + 1` cycles. -/
private theorem half_period (hm : MasterFrom s acc t₀ T) (hc : Steady s acc t₀ T div slot)
    (hb : Begins (bclkO s acc) t₀ a) (haT : a + (div.toNat + 1) ≤ T) : Lasts (bclkO s acc) a (div.toNat + 1) := by
  have ha : t₀ < a := by
    rcases hb with rfl | ⟨u, hu, rfl, -⟩
    · omega
    · omega
  obtain ⟨u, hu, huT, hdiv⟩ := div_at_begin hm (by omega) hb
  have hd : (i2sAt s acc a).gen.divQ.toNat = div.toNat := by rw [hdiv, (hc u hu huT).1]
  exact bclk_lasts hm ha hd (by omega)

/-- One BCLK period of a slot: LRCK stands still, and the period is counted or ends the slot. -/
private theorem period (hm : MasterFrom s acc t₀ T) (hc : Steady s acc t₀ T div slot) (ha : t₀ < a)
    (hg : (i2sAt s acc a).gen = ⟨div, false, v, w⟩) (haT : a + 2 * (div.toNat + 1) ≤ T) :
    (∀ k < 2 * (div.toNat + 1), lrckO s acc (a + k) = w) ∧
      (i2sAt s acc (a + 2 * (div.toNat + 1))).gen = if v = slot - 1 then ⟨div, false, 0, !w⟩
        else ⟨div, false, v + 1, w⟩ := by
  have hd : (i2sAt s acc a).gen.divQ.toNat = div.toNat := by rw [hg]
  have hlow : (i2sAt s acc (a + div.toNat)).gen = ⟨0, false, v, w⟩ := by
    rw [gen_run_out hm ha hd (by omega), hg]
  have hmid : (i2sAt s acc (a + (div.toNat + 1))).gen = ⟨div, true, v, w⟩ := by
    rw [← Nat.add_assoc, i2sAt_succ, gen_rise (hm.on _ (by omega) (by omega)) (by rw [hlow]) (by rw [hlow]), hlow,
      (hc _ (by omega) (by omega)).1]
  have hd' : (i2sAt s acc (a + (div.toNat + 1))).gen.divQ.toNat = div.toNat := by rw [hmid]
  have hhigh : (i2sAt s acc (a + (div.toNat + 1) + div.toNat)).gen = ⟨0, true, v, w⟩ := by
    rw [gen_run_out hm (by omega) hd' (by omega), hmid]
  constructor
  · intro k hk
    unfold lrckO
    by_cases hlo : k ≤ div.toNat
    · rw [gen_run hm ha k (by omega) (by omega), hg]
    · have hk' : a + k = a + (div.toNat + 1) + (k - (div.toNat + 1)) := by omega
      rw [hk', gen_run hm (by omega) _ (by omega) (by omega), hmid]
  · have hend : a + 2 * (div.toNat + 1) = a + (div.toNat + 1) + div.toNat + 1 := by omega
    have hcl := hc (a + (div.toNat + 1) + div.toNat) (by omega) (by omega)
    rw [hend, i2sAt_succ, gen_fall (hm.on _ (by omega) (by omega)) (by rw [hhigh]) (by rw [hhigh]),
      hhigh, hcl.1, hcl.2]

/-- The first `n` BCLK periods of a slot. -/
private theorem periods (hm : MasterFrom s acc t₀ T) (hc : Steady s acc t₀ T div slot) (ha : t₀ < a)
    (hg : (i2sAt s acc a).gen = ⟨div, false, 0, w⟩) (n : Nat) (hn : n < slot.toNat)
    (haT : a + n * (2 * (div.toNat + 1)) ≤ T) :
    (∀ k < n * (2 * (div.toNat + 1)), lrckO s acc (a + k) = w) ∧
      (i2sAt s acc (a + n * (2 * (div.toNat + 1)))).gen = ⟨div, false, BitVec.ofNat 8 n, w⟩ := by
  induction n with
  | zero =>
    rw [Nat.zero_mul, Nat.add_zero]
    exact ⟨fun k hk => absurd hk (Nat.not_lt_zero k), hg⟩
  | succ n ih =>
    rw [Nat.succ_mul] at haT ⊢
    obtain ⟨hws, hend⟩ := ih (by omega) (by omega)
    obtain ⟨hws', hend'⟩ := period hm hc (by omega) hend (by omega)
    constructor
    · intro k hk
      by_cases hlo : k < n * (2 * (div.toNat + 1))
      · exact hws k hlo
      · have hk' : a + k = a + n * (2 * (div.toNat + 1)) + (k - n * (2 * (div.toNat + 1))) := by omega
        rw [hk']
        exact hws' _ (by omega)
    · have hne : BitVec.ofNat 8 n ≠ slot - 1 := by
        intro he
        have hval := congrArg BitVec.toNat he
        have hlt := slot.isLt
        have hone : (1 : BitVec 8).toNat = 1 := rfl
        rw [BitVec.toNat_ofNat, BitVec.toNat_sub, hone] at hval
        omega
      rw [← Nat.add_assoc, hend', if_neg hne, BitVec.ofNat_add]
      rfl

/-- Every LRCK level lasts SLOT BCLK periods. -/
private theorem slot_period (hm : MasterFrom s acc t₀ T) (hc : Steady s acc t₀ T div slot)
    (hb : Begins (lrckO s acc) t₀ a) (haT : a + slot.toNat * (2 * (div.toNat + 1)) ≤ T) :
    Lasts (lrckO s acc) a (slot.toNat * (2 * (div.toNat + 1))) := by
  have hpos : 0 < slot.toNat := by
    have hslot := (hc (t₀ + 1) (by omega) (by rcases hb with rfl | ⟨u, hu, rfl, -⟩ <;> omega)).2
    rw [← hslot]
    exact effOf_pos _
  obtain ⟨ha, hg⟩ : t₀ < a ∧ (i2sAt s acc a).gen = ⟨div, false, 0, lrckO s acc a⟩ := by
    rcases hb with rfl | ⟨u, hu, rfl, he⟩
    · refine ⟨Nat.lt_succ_self t₀, ?_⟩
      unfold lrckO
      rw [gen_start hm (by omega), (hc (t₀ + 1) (by omega) (by omega)).1]
    · refine ⟨by omega, ?_⟩
      rw [edge_eq_true] at he
      have hgen := (gen_ws (i := acc u) (hm.on u hu (by omega)) he).2
      unfold lrckO
      rw [i2sAt_succ, hgen, (hc u hu (by omega)).1]
  obtain ⟨n, hn⟩ : ∃ n, slot.toNat = n + 1 := ⟨slot.toNat - 1, by omega⟩
  rw [hn, Nat.succ_mul] at haT ⊢
  obtain ⟨hws, hend⟩ := periods hm hc ha hg n (by omega) (by omega)
  obtain ⟨hws', hend'⟩ := period hm hc (by omega) hend (by omega)
  have hlast : BitVec.ofNat 8 n = slot - 1 := by
    apply BitVec.eq_of_toNat_eq
    have hlt := slot.isLt
    have hone : (1 : BitVec 8).toNat = 1 := rfl
    rw [BitVec.toNat_ofNat, BitVec.toNat_sub, hone]
    omega
  constructor
  · intro k hk
    by_cases hlo : k < n * (2 * (div.toNat + 1))
    · exact hws k hlo
    · have hk' : a + k = a + n * (2 * (div.toNat + 1)) + (k - n * (2 * (div.toNat + 1))) := by omega
      rw [hk']
      exact hws' _ (by omega)
  · have hend'' : (i2sAt s acc (a + (n * (2 * (div.toNat + 1)) + 2 * (div.toNat + 1)))).gen.wsQ = !lrckO s acc a := by
      rw [← Nat.add_assoc, hend', if_pos hlast]
    change (i2sAt s acc _).gen.wsQ ≠ _
    rw [hend'']
    exact Bool.not_ne_self _

/-- A frame is a left and a right slot of one length. -/
theorem frame_period (hm : MasterFrom s acc t₀ T) (hc : Steady s acc t₀ T div slot) (hb : Begins (lrckO s acc) t₀ a)
    (haT : a + 2 * (slot.toNat * (2 * (div.toNat + 1))) ≤ T) :
    Lasts (lrckO s acc) a (slot.toNat * (2 * (div.toNat + 1))) ∧
      Lasts (lrckO s acc) (a + slot.toNat * (2 * (div.toNat + 1))) (slot.toNat * (2 * (div.toNat + 1))) := by
  have hfirst := slot_period hm hc hb (by omega)
  have ha : t₀ < a := by
    rcases hb with rfl | ⟨u, hu, rfl, -⟩
    · omega
    · omega
  refine ⟨hfirst, slot_period hm hc ?_ (by omega)⟩
  obtain ⟨n, hn⟩ : ∃ n, slot.toNat * (2 * (div.toNat + 1)) = n + 1 := by
    apply Nat.exists_eq_add_one.mpr
    by_contra h0
    have hend := hfirst.ends
    rw [Nat.eq_zero_of_not_pos h0] at hend
    exact hend rfl
  rw [hn] at hfirst ⊢
  refine Or.inr ⟨a + n, by omega, rfl, ?_⟩
  rw [edge_eq_true, hfirst.holds n (Nat.lt_succ_self n)]
  exact hfirst.ends

/-! ### CLKDIV rewritten -/

/-- While no rewrite overtakes the count, the slot count stays below SLOT. -/
private theorem slot_lt (hm : MasterFrom s acc t₀ T)
    (ho : ∀ u, t₀ < u → u < T → ¬Overtakes (i2sAt s acc u) (acc u)) {u : Nat}
    (hu : t₀ < u) (huT : u ≤ T) : (i2sAt s acc u).gen.slotQ.toNat < (i2sAt s acc u).slotEff.toNat := by
  induction u, hu using Nat.le_induction with
  | base =>
    rw [gen_start hm huT]
    exact effOf_pos _
  | succ u hu ih =>
    rw [i2sAt_succ]
    exact slot_lt_next (hm.on u hu (by omega)) (ih (by omega)) (ho u hu (by omega))

/-- While LRCK stands still the slot count counts the BCLK periods. -/
private theorem count_fall_le (hm : MasterFrom s acc t₀ T)
    (ho : ∀ u, t₀ < u → u < T → ¬Overtakes (i2sAt s acc u) (acc u))
    (ha : t₀ < a) (n : Nat) (haT : a + n ≤ T) (hws : ∀ k ≤ n, lrckO s acc (a + k) = lrckO s acc a) :
    count (fall (bclkO s acc)) a n ≤ (i2sAt s acc (a + n)).gen.slotQ.toNat := by
  induction n with
  | zero => exact Nat.zero_le _
  | succ n ih =>
    have hprev := ih (by omega) fun k hk => hws k (by omega)
    have hmast := hm.on (a + n) (by omega) (by omega)
    have hsame : (i2sAt s acc (a + n + 1)).gen.wsQ = (i2sAt s acc (a + n)).gen.wsQ :=
      (hws (n + 1) le_rfl).trans (hws n (by omega)).symm
    have hslot := gen_period (i := acc (a + n)) hmast hsame
    have hlt := slot_lt hm ho (u := a + n) (by omega) (by omega)
    have hlt' := (i2sAt s acc (a + n)).slotEff.isLt
    change (i2sAt s acc (a + n + 1)).gen.slotQ = if fall (bclkO s acc) (a + n) then _ else _ at hslot
    rw [count_succ, ← Nat.add_assoc, hslot]
    cases fall (bclkO s acc) (a + n) with
    | false => exact hprev
    | true =>
      have hone : (1 : BitVec 8).toNat = 1 := rfl
      rw [if_pos rfl, BitVec.toNat_add, hone, Bool.toNat_true]
      omega

/-- No LRCK level lasts longer than the largest SLOT in force during it. -/
private theorem slot_bounded (hm : MasterFrom s acc t₀ T)
    (ho : ∀ u, t₀ < u → u < T → ¬Overtakes (i2sAt s acc u) (acc u))
    (ha : t₀ < a) (n M : Nat) (haT : a + n ≤ T) (hws : ∀ k < n, lrckO s acc (a + k) = lrckO s acc a)
    (hM : ∀ k < n, (i2sAt s acc (a + k)).slotEff.toNat ≤ M) : count (fall (bclkO s acc)) a n ≤ M := by
  cases n with
  | zero => exact Nat.zero_le M
  | succ n =>
    have hle := count_fall_le hm ho ha n (by omega) fun k hk => hws k (by omega)
    have hlt := slot_lt hm ho (u := a + n) (by omega) (by omega)
    have hslot := hM n (Nat.lt_succ_self n)
    have hlast := Bool.toNat_le (fall (bclkO s acc) (a + n))
    rw [count_succ]
    omega

/-! ### The two clock lines -/

/-- The clock lines from the setting of MASTER in cycle `t₀` up to cycle `T`. -/
structure MasterClocks (s : I2s wr) (acc : Nat → RegAccess (BitVec 3) I2sPins) (t₀ T : Nat) : Prop where
  /-- LRCK starts in the left slot. -/
  left : lrckO s acc (t₀ + 1) = false
  /-- No BCLK level is shorter than the two cycles the sampler needs. -/
  sampled : ∀ a, Begins (bclkO s acc) t₀ a → a + 1 ≤ T → bclkO s acc (a + 1) = bclkO s acc a
  /-- LRCK changes only together with a falling BCLK edge. -/
  falling : ∀ u, t₀ < u → u < T → edge (lrckO s acc) u = true → fall (bclkO s acc) u = true
  /-- Under a constant CLKDIV every BCLK level lasts `DIV + 1` cycles. -/
  half : ∀ div slot, Steady s acc t₀ T div slot → ∀ a, Begins (bclkO s acc) t₀ a → a + (div.toNat + 1) ≤ T →
    Lasts (bclkO s acc) a (div.toNat + 1)
  /-- Under a constant CLKDIV every LRCK level lasts SLOT periods of two BCLK levels. -/
  slots : ∀ div slot, Steady s acc t₀ T div slot → ∀ a, Begins (lrckO s acc) t₀ a →
    a + slot.toNat * (2 * (div.toNat + 1)) ≤ T → Lasts (lrckO s acc) a (slot.toNat * (2 * (div.toNat + 1)))
  /-- Under any rewrites no LRCK level has more BCLK periods than the largest SLOT in force during it. -/
  bounded : ∀ a n M, t₀ < a → a + n ≤ T → (∀ k < n, lrckO s acc (a + k) = lrckO s acc a) →
    (∀ k < n, (i2sAt s acc (a + k)).slotEff.toNat ≤ M) → count (fall (bclkO s acc)) a n ≤ M

/-- With a divider of at least one and no rewrite that overtakes the slot count, the clock lines are as documented. -/
theorem master_clocks (hm : MasterFrom s acc t₀ T) (hdiv : ∀ u, t₀ < u → u ≤ T → (i2sAt s acc u).clkdivQ ≠ 0)
    (ho : ∀ u, t₀ < u → u < T → ¬Overtakes (i2sAt s acc u) (acc u)) : MasterClocks s acc t₀ T where
  left := by
    unfold lrckO
    rw [i2sAt_succ, gen_parked hm.off]
  sampled := by
    intro a hb haT
    obtain ⟨u, hu, huT, hd⟩ := div_at_begin hm (by omega) hb
    have ha : t₀ < a := by
      rcases hb with rfl | ⟨v, hv, rfl, -⟩
      · omega
      · omega
    have hne : (i2sAt s acc a).gen.divQ ≠ 0 := by
      rw [hd]
      exact hdiv u hu huT
    unfold bclkO
    rw [i2sAt_succ, gen_count (hm.on a ha (by omega)) hne]
  falling := by
    intro u hu huT he
    rw [edge_eq_true] at he
    obtain ⟨hhigh, hnext⟩ := gen_ws (i := acc u) (hm.on u hu (by omega)) he
    unfold fall bclkO
    rw [i2sAt_succ, hhigh, hnext]
    rfl
  half := fun _ _ hc _ hb haT => half_period hm hc hb haT
  slots := fun _ _ hc _ hb haT => slot_period hm hc hb haT
  bounded := fun _ n M ha haT hws hM => slot_bounded hm ho ha n M haT hws hM

end Run

/-! ### Two ways to miss -/

/-- CLKDIV written in cycle 0, MASTER set in cycle 2, CLKDIV written once more in cycle `again`. -/
def masterAcc (clkdiv clkdiv' : Word) (again t : Nat) : RegAccess (BitVec 3) I2sPins where
  wr :=
    if t = 0 then some ⟨REG_CLKDIV, clkdiv, 0xF⟩
    else if t = 2 then some ⟨REG_CTRL, 0x40, 0xF⟩
    else if t = again then some ⟨REG_CLKDIV, clkdiv', 0xF⟩
    else none
  rd := none
  ext := ⟨false, false, false⟩

/-- The block out of reset. -/
def outOfReset : I2s 4 := reset fun _ => (0, false)

/-- A divider of one, and a rewrite to a longer slot. -/
theorem master_clocks_longer : MasterClocks outOfReset (masterAcc 0x200001 0x400002 6) 2 9 := by
  have hon : ∀ k < 7, (i2sAt outOfReset (masterAcc 0x200001 0x400002 6) (3 + k)).masterQ = true := by decide +kernel
  have hdiv : ∀ k < 7, (i2sAt outOfReset (masterAcc 0x200001 0x400002 6) (3 + k)).clkdivQ ≠ 0 := by decide +kernel
  refine master_clocks ⟨by decide +kernel, ?_⟩ ?_ ?_
  · intro u hu huT
    obtain ⟨k, rfl⟩ := Nat.exists_eq_add_of_le hu
    exact hon k (by omega)
  · intro u hu huT
    obtain ⟨k, rfl⟩ := Nat.exists_eq_add_of_le hu
    exact hdiv k (by omega)
  · rintro u hu huT ⟨x, hx, hle⟩
    by_cases h6 : u = 6
    · subst h6
      obtain rfl : (⟨REG_CLKDIV, 0x400002, 0xF⟩ : RegWrite (BitVec 3)) = x := Option.some.inj hx
      revert hle
      decide +kernel
    · have hnone : (masterAcc 0x200001 0x400002 6 u).wr = none := by
        unfold masterAcc
        rw [if_neg (by omega), if_neg (by omega), if_neg h6]
      unfold RegAccess.wrLane at hx
      rw [hnone] at hx
      cases hx

/-- With a divider of zero BCLK levels last one cycle.  With 16 periods a slot and 8 of them over, a rewrite to 8
leaves LRCK where it is for 18 periods. -/
theorem master_clocks_fail :
    ((i2sAt outOfReset (masterAcc 0x200000 0 0) 3).masterQ = true ∧
      (i2sAt outOfReset (masterAcc 0x200000 0 0) 4).masterQ = true ∧
      edge (bclkO outOfReset (masterAcc 0x200000 0 0)) 3 = true ∧
        edge (bclkO outOfReset (masterAcc 0x200000 0 0)) 4 = true) ∧
      (∀ k < 73, (i2sAt outOfReset (masterAcc 0x100001 0x80001 36) (3 + k)).masterQ = true ∧
        (i2sAt outOfReset (masterAcc 0x100001 0x80001 36) (3 + k)).slotEff.toNat ≤ 16 ∧
        lrckO outOfReset (masterAcc 0x100001 0x80001 36) (3 + k) = false) ∧
      count (fall (bclkO outOfReset (masterAcc 0x100001 0x80001 36))) 3 72 = 18 := by
  decide +kernel

end Yarv.I2s
