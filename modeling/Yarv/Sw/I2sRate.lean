import Yarv.Periph.I2sClock
import Yarv.Sw.Port

/-!
# `i2s_master_hz`

The driver call that makes the I2S block a clock master and reports the sample rate.  It works in 32 bits: the product
of the request may wrap, and the divider loses its upper half on the way into CLKDIV but not in the report.
-/

namespace Yarv

open Driver Clocked I2s Wave

namespace I2sDriver

abbrev I2sProg (τ : Type) := Prog (BitVec 3) Word τ

def I2S_CTRL_MASTER : Word := 1 <<< 6

/-- An unsigned division of the C code; it has no value for a zero divisor. -/
def divU (a b : Word) : Option Word := if b = 0 then none else some (a / b)

/-- `per`, core cycles per frame. -/
def per (fs_hz slot : Word) : Word := 4 * slot * fs_hz

/-- `slot` behind its replacement. -/
def slotInForce (slot : Word) : Word := if slot = 0 then 32 else slot

/-- `div`: the second half of the test and the quotient divide by a `per` that is not zero. -/
def divFor (core fs_hz slot : Word) : Option Word :=
  if per fs_hz slot = 0 then some 0
  else (divU core (per fs_hz slot)).map fun n => if n = 0 then 0 else n - 1

/-- The word stored to CLKDIV. -/
def clkdivWord (slot div : Word) : Word := (slot &&& 0xFF) <<< 16 ||| (div &&& 0xFFFF)

/-- `i2s_master_hz` at the core clock `core`; it returns nothing where it would divide by zero. -/
def i2s_master_hz (core fs_hz slot : Word) : I2sProg (Option Word) :=
  match divFor core fs_hz slot with
  | none => .ret none
  | some div =>
    let slot := slotInForce slot
    .store REG_CLKDIV (clkdivWord slot div) <|
    .load REG_CTRL fun ctrl =>
    .store REG_CTRL (ctrl ||| I2S_CTRL_MASTER) <|
    .ret (divU core (4 * slot * (div + 1)))

/-! ### The arithmetic -/

section Arithmetic

variable {core fs_hz slot div : Word}

private theorem slotInForce_bounds (h : slot.toNat ≤ 64) :
    1 ≤ (slotInForce slot).toNat ∧ (slotInForce slot).toNat ≤ 64 := by
  unfold slotInForce
  by_cases h0 : slot = 0
  · rw [if_pos h0]
    decide
  · rw [if_neg h0]
    have hne : slot.toNat ≠ 0 := fun hz => h0 (BitVec.eq_of_toNat_eq hz)
    omega

private theorem clkdiv_field (slot div : Word) : (clkdivWord slot div).setWidth 16 = div.setWidth 16 := by
  unfold clkdivWord
  apply BitVec.eq_of_getLsbD_eq
  intro k hk
  have hmask : (0xFFFF : Word).getLsbD k = true := by
    have htable : ∀ k < 16, (0xFFFF : Word).getLsbD k = true := by decide
    exact htable k hk
  simp only [BitVec.getLsbD_setWidth, hk, decide_true, Bool.true_and, BitVec.getLsbD_or, BitVec.getLsbD_shiftLeft,
    BitVec.getLsbD_and, hmask, Bool.and_true, Bool.not_true, Bool.and_false, Bool.false_and, Bool.false_or]

private theorem slot_field (h : slot.toNat ≤ 64) (div : Word) :
    ((clkdivWord slot div).extractLsb' 16 8).toNat = slot.toNat := by
  have hmask : ∀ k, 16 ≤ k → (0xFFFF : Word).getLsbD k = false := by
    intro k hk
    by_cases h32 : k < 32
    · have htable : ∀ k < 32, 16 ≤ k → (0xFFFF : Word).getLsbD k = false := by decide
      exact htable k h32 hk
    · exact BitVec.getLsbD_of_ge _ _ (by omega)
  have hmask8 : ∀ k < 8, (0xFF : Word).getLsbD k = true := by decide
  have hfield : (clkdivWord slot div).extractLsb' 16 8 = slot.setWidth 8 := by
    unfold clkdivWord
    apply BitVec.eq_of_getLsbD_eq
    intro k hk
    have hge : ¬16 + k < 16 := by omega
    have hlt : 16 + k < 32 := by omega
    have hsub : 16 + k - 16 = k := by omega
    simp only [BitVec.getLsbD_extractLsb', hk, decide_true, Bool.true_and, BitVec.getLsbD_or,
      BitVec.getLsbD_shiftLeft, BitVec.getLsbD_and, hmask (16 + k) (by omega), Bool.and_false, Bool.or_false, hlt,
      hge, decide_false, Bool.not_false, hsub, hmask8 k hk, Bool.and_true, BitVec.getLsbD_setWidth]
  rw [hfield, BitVec.toNat_setWidth]
  exact Nat.mod_eq_of_lt (by omega)

private theorem per_toNat (fs_hz slot : Word) : (per fs_hz slot).toNat = 4 * slot.toNat * fs_hz.toNat % 2 ^ 32 := by
  have h4 : (4 : Word).toNat = 4 := rfl
  unfold per
  rw [BitVec.toNat_mul, BitVec.toNat_mul, h4, Nat.mod_mul_mod]

/-- `div + 1`, the core cycles of a BCLK level. -/
def halfBclk (core fs_hz slot : Word) : Nat := max 1 (core.toNat / (per fs_hz slot).toNat)

private theorem halfBclk_lt (hcore : core.toNat ≤ 2 ^ 31) : halfBclk core fs_hz slot ≤ 2 ^ 31 := by
  have hle := Nat.div_le_self core.toNat (per fs_hz slot).toNat
  unfold halfBclk
  omega

private theorem divFor_eq (core fs_hz slot : Word) :
    divFor core fs_hz slot = some (BitVec.ofNat 32 (halfBclk core fs_hz slot - 1)) := by
  unfold divFor divU halfBclk
  by_cases h0 : per fs_hz slot = 0
  · have hz : core.toNat / (per fs_hz slot).toNat = 0 := by
      rw [h0]
      exact Nat.div_zero _
    rw [if_pos h0, hz]
    rfl
  · rw [if_neg h0, if_neg h0, Option.map_some]
    congr 1
    apply BitVec.eq_of_toNat_eq
    have hlt := (core / per fs_hz slot).isLt
    have hdiv : (core / per fs_hz slot).toNat = core.toNat / (per fs_hz slot).toNat := BitVec.toNat_udiv
    by_cases hn : core / per fs_hz slot = 0
    · rw [if_pos hn, ← hdiv, hn]
      rfl
    · have hpos : (core / per fs_hz slot).toNat ≠ 0 := fun hz => hn (BitVec.eq_of_toNat_eq hz)
      rw [if_neg hn, BitVec.toNat_ofNat, ← hdiv, Nat.max_eq_right (by omega), Nat.mod_eq_of_lt (by omega)]
      exact BitVec.toNat_sub_of_le (by rw [BitVec.le_def]; exact Nat.one_le_iff_ne_zero.mpr hpos)

/-- The divisor of the report. -/
private theorem frame_toNat (hcore : core.toNat ≤ 2 ^ 31) :
    (4 * slotInForce slot * (BitVec.ofNat 32 (halfBclk core fs_hz slot - 1) + 1)).toNat =
      4 * (slotInForce slot).toNat * halfBclk core fs_hz slot % 2 ^ 32 := by
  have h4 : (4 : Word).toNat = 4 := rfl
  have h1 : (1 : Word).toNat = 1 := rfl
  have hlt : halfBclk core fs_hz slot ≤ 2 ^ 31 := halfBclk_lt hcore
  have hpos : 1 ≤ halfBclk core fs_hz slot := Nat.le_max_left _ _
  have hsucc : (BitVec.ofNat 32 (halfBclk core fs_hz slot - 1) + 1).toNat = halfBclk core fs_hz slot := by
    rw [BitVec.toNat_add, BitVec.toNat_ofNat, h1]
    omega
  rw [BitVec.toNat_mul, BitVec.toNat_mul, h4, hsucc, Nat.mod_mul_mod]

/-- The divisor never wraps to zero: it is a multiple of `2 ^ 32` only if the divider times `per` is, which is at most
the core clock. -/
private theorem frame_ne_zero (hcore : core.toNat ≤ 2 ^ 31) (hslot : slot.toNat ≤ 64) :
    4 * (slotInForce slot).toNat * halfBclk core fs_hz slot % 2 ^ 32 ≠ 0 := by
  obtain ⟨h1, h64⟩ := slotInForce_bounds hslot
  intro hz
  by_cases hn : core.toNat / (per fs_hz slot).toNat ≤ 1
  · have hone : halfBclk core fs_hz slot = 1 := Nat.max_eq_left hn
    rw [hone, Nat.mod_eq_of_lt (by omega)] at hz
    omega
  · have hn' : halfBclk core fs_hz slot = core.toNat / (per fs_hz slot).toNat := Nat.max_eq_right (by omega)
    have hs : slotInForce slot = slot := by
      unfold slotInForce
      rw [if_neg]
      rintro rfl
      exact hn (by simp [per])
    have hle : core.toNat / (per fs_hz slot).toNat * (per fs_hz slot).toNat ≤ core.toNat := Nat.div_mul_le_self _ _
    have hpos : 0 < (per fs_hz slot).toNat := by
      by_contra h0
      rw [Nat.eq_zero_of_not_pos h0, Nat.div_zero] at hn
      exact hn (Nat.zero_le 1)
    rw [hn', hs] at hz
    have hmul : ∀ n, 4 * slot.toNat * n % 2 ^ 32 = 0 → n * (per fs_hz slot).toNat % 2 ^ 32 = 0 := by
      intro n hz
      have hform : n * (4 * slot.toNat * fs_hz.toNat) = 4 * slot.toNat * n * fs_hz.toNat := by ring
      rw [per_toNat, Nat.mul_mod_mod, hform, Nat.mul_mod, hz, Nat.zero_mul, Nat.zero_mod]
    have hdvd := Nat.dvd_of_mod_eq_zero (hmul _ hz)
    have hge := Nat.le_of_dvd (Nat.mul_pos (by omega) hpos) hdvd
    omega

/-- A divisor more than doubled makes a smaller quotient, while the quotient is not zero. -/
private theorem div_gap {c y e : Nat} (hy : 0 < y) (he : y ≤ e) (hle : y + e ≤ c) : c / (y + e) < c / y := by
  have hpos : 1 ≤ c / (y + e) := (Nat.one_le_div_iff (by omega)).mpr hle
  have hmul := Nat.div_mul_le_self c (y + e)
  have hge : y ≤ c / (y + e) * e := he.trans (Nat.le_mul_of_pos_left e hpos)
  rw [Nat.mul_add] at hmul
  rw [Nat.lt_iff_add_one_le, Nat.le_div_iff_mul_le hy, Nat.succ_mul]
  omega

/-- The rate a frame of `cycles` core cycles has. -/
def rate (core : Word) (cycles : Nat) : Nat := core.toNat / cycles

/-- The divider of CLKDIV after the truncation. -/
def divKept (core fs_hz slot : Word) : Nat := (halfBclk core fs_hz slot - 1) % 2 ^ 16

variable (core fs_hz slot) in
/-- The core cycles of a frame by the computed divider. -/
def frame : Nat := 4 * (slotInForce slot).toNat * halfBclk core fs_hz slot

variable (core fs_hz slot) in
/-- The core cycles of a frame by the kept divider. -/
def frameKept : Nat := 4 * (slotInForce slot).toNat * (divKept core fs_hz slot + 1)

variable (core fs_hz slot) in
/-- The computed and the kept divider make the same rate. -/
def Truthful : Prop := rate core (frame core fs_hz slot % 2 ^ 32) = rate core (frameKept core fs_hz slot)

private theorem frameKept_pos (hslot : slot.toNat ≤ 64) : 0 < frameKept core fs_hz slot := by
  obtain ⟨h1, -⟩ := slotInForce_bounds hslot
  unfold frameKept
  apply Nat.mul_pos
  · omega
  · omega

/-- A divider of 16 bits is kept, and its frame does not wrap. -/
private theorem truthful_of_fits (hslot : slot.toNat ≤ 64) (h : halfBclk core fs_hz slot ≤ 2 ^ 16) :
    Truthful core fs_hz slot := by
  obtain ⟨h1, h64⟩ := slotInForce_bounds hslot
  have hpos : 1 ≤ halfBclk core fs_hz slot := Nat.le_max_left _ _
  have hkept : divKept core fs_hz slot + 1 = halfBclk core fs_hz slot := by
    unfold divKept
    omega
  have hle : 4 * (slotInForce slot).toNat * halfBclk core fs_hz slot ≤ 4 * 64 * 2 ^ 16 :=
    Nat.mul_le_mul (Nat.mul_le_mul_left 4 h64) h
  unfold Truthful frame frameKept
  rw [hkept, Nat.mod_eq_of_lt (by omega)]

/-- The frame of a longer divider is the kept one and a multiple of `2 ^ 16` BCLK levels. -/
private theorem frame_of_long (h : 2 ^ 16 < halfBclk core fs_hz slot) :
    ∃ e, frame core fs_hz slot = frameKept core fs_hz slot + e ∧ frameKept core fs_hz slot ≤ e := by
  refine ⟨4 * (slotInForce slot).toNat * (2 ^ 16 * ((halfBclk core fs_hz slot - 1) / 2 ^ 16)), ?_, ?_⟩
  · unfold frame frameKept divKept
    rw [← Nat.mul_add]
    congr 1
    omega
  · unfold frameKept divKept
    apply Nat.mul_le_mul_left
    omega

/-- A longer divider makes a report that is too low, unless there is less than one frame a second. -/
private theorem truthful_of_long (hslot : slot.toNat ≤ 64) (h : 2 ^ 16 < halfBclk core fs_hz slot)
    (hframe : frame core fs_hz slot < 2 ^ 32) :
    Truthful core fs_hz slot ↔ core.toNat < frameKept core fs_hz slot := by
  obtain ⟨e, hsplit, hgap⟩ := frame_of_long h
  have hpos : 0 < frameKept core fs_hz slot := frameKept_pos hslot
  unfold Truthful rate
  rw [Nat.mod_eq_of_lt hframe, hsplit]
  constructor
  · intro heq
    by_contra hle
    rcases Nat.lt_or_ge core.toNat (frameKept core fs_hz slot + e) with hlt | hge
    · rw [Nat.div_eq_of_lt hlt] at heq
      have hone : 1 ≤ core.toNat / frameKept core fs_hz slot := (Nat.one_le_div_iff hpos).mpr (Nat.not_lt.mp hle)
      omega
    · exact absurd heq (Nat.ne_of_lt (div_gap hpos hgap hge))
  · intro hlt
    rw [Nat.div_eq_of_lt hlt, Nat.div_eq_of_lt (by omega)]

variable (core fs_hz slot) in
/-- The divider fits into CLKDIV; or it makes less than one frame a second; or the frame has wrapped in the report,
and the two quotients fall together all the same. -/
def Kept : Prop :=
  halfBclk core fs_hz slot ≤ 2 ^ 16 ∨
    (frame core fs_hz slot < 2 ^ 32 ∧ core.toNat < frameKept core fs_hz slot) ∨
    (2 ^ 32 ≤ frame core fs_hz slot ∧
      core.toNat / (frame core fs_hz slot % 2 ^ 32) = core.toNat / frameKept core fs_hz slot)

private theorem truthful_iff (hslot : slot.toNat ≤ 64) : Truthful core fs_hz slot ↔ Kept core fs_hz slot := by
  constructor
  · intro h
    by_cases hfits : halfBclk core fs_hz slot ≤ 2 ^ 16
    · exact Or.inl hfits
    · right
      rcases Nat.lt_or_ge (frame core fs_hz slot) (2 ^ 32) with hlt | hge
      · exact Or.inl ⟨hlt, (truthful_of_long hslot (by omega) hlt).mp h⟩
      · exact Or.inr ⟨hge, h⟩
  · rintro (hfits | ⟨hlt, hcore⟩ | ⟨-, h⟩)
    · exact truthful_of_fits hslot hfits
    · by_cases hfits : halfBclk core fs_hz slot ≤ 2 ^ 16
      · exact truthful_of_fits hslot hfits
      · exact (truthful_of_long hslot (by omega) hlt).mpr hcore
    · exact h

/-- A request that does not wrap asks for at least one frame a second. -/
private theorem frame_le_of_fits (hwrap : 4 * slot.toNat * fs_hz.toNat < 2 ^ 32) (h : 1 < halfBclk core fs_hz slot) :
    frame core fs_hz slot ≤ core.toNat := by
  have hper : (per fs_hz slot).toNat = 4 * slot.toNat * fs_hz.toNat := by
    rw [per_toNat, Nat.mod_eq_of_lt hwrap]
  have hn : halfBclk core fs_hz slot = core.toNat / (per fs_hz slot).toNat := by
    unfold halfBclk at h ⊢
    omega
  rw [hn] at h
  have hpos : (per fs_hz slot).toNat ≠ 0 := by
    intro h0
    rw [h0, Nat.div_zero] at h
    omega
  rw [hper] at hpos
  have hs : slotInForce slot = slot := by
    unfold slotInForce
    rw [if_neg]
    rintro rfl
    simp at hpos
  have hf0 : 0 < fs_hz.toNat := by
    by_contra h0
    rw [Nat.eq_zero_of_not_pos h0] at hpos
    exact hpos (Nat.mul_zero _)
  calc frame core fs_hz slot = 4 * slot.toNat * halfBclk core fs_hz slot := by rw [frame, hs]
    _ ≤ 4 * slot.toNat * halfBclk core fs_hz slot * fs_hz.toNat := Nat.le_mul_of_pos_right _ hf0
    _ = core.toNat / (per fs_hz slot).toNat * (per fs_hz slot).toNat := by
      rw [hn, hper]
      ring
    _ ≤ core.toNat := Nat.div_mul_le_self _ _

/-- For a request that does not wrap the divider has to fit. -/
private theorem kept_iff_fits (hcore : core.toNat ≤ 2 ^ 31) (hwrap : 4 * slot.toNat * fs_hz.toNat < 2 ^ 32) :
    Kept core fs_hz slot ↔ halfBclk core fs_hz slot ≤ 2 ^ 16 := by
  constructor
  · intro h
    by_contra hlong
    have hle : frame core fs_hz slot ≤ core.toNat := frame_le_of_fits hwrap (by omega)
    obtain ⟨e, hsplit, -⟩ := @frame_of_long core fs_hz slot (by omega)
    rcases h with h | ⟨-, h⟩ | ⟨h, -⟩
    · exact hlong h
    · omega
    · omega
  · intro h
    exact Or.inl h

end Arithmetic

/-! ### Runs -/

section Run

variable {wr : Nat} (core fs_hz slot : Word) (s : PortDev (I2s wr)) (inp : Nat → HostIn I2sPins)

/-- The call before cycle `t`. -/
abbrev callAt (t : Nat) : I2sProg (Option Word) := progAt (portTarget device) ⟨i2s_master_hz core fs_hz slot, s⟩ inp t

/-- The block before cycle `t`. -/
abbrev blockAt (t : Nat) : I2s wr := coreAt device ⟨i2s_master_hz core fs_hz slot, s⟩ inp t

/-- The processor comes to its next access again and again. -/
abbrev CallFair : Prop :=
  Fair (portTarget device) (⟨i2s_master_hz core fs_hz slot, s⟩ : Host _ _ _ (PortDev (I2s wr))) inp

/-- CLKDIV holds a word. -/
def Holds (q : I2s wr) (w : Word) : Prop := q.clkdivQ = w.setWidth 16 ∧ q.slotQ = w.extractLsb' 16 8

/-- The call returns, with SLOT the slot in force. -/
def Ends : Prop :=
  ∃ t hz, callAt core fs_hz slot s inp t = .ret (some hz) ∧
    (blockAt core fs_hz slot s inp t).slotEff.toNat = (slotInForce slot).toNat

/-- The call returns the frame rate that SLOT and DIV make, as CLKDIV then holds them. -/
def Reports : Prop :=
  ∃ t hz, callAt core fs_hz slot s inp t = .ret (some hz) ∧
    hz.toNat = rate core (4 * (blockAt core fs_hz slot s inp t).slotEff.toNat *
      ((blockAt core fs_hz slot s inp t).clkdivQ.toNat + 1))

variable {core fs_hz slot s inp} {t : Nat}

/-- Only a store to CLKDIV changes what it holds. -/
private theorem Holds.next {q : I2s wr} {w : Word} (h : Holds q w) (e : I2sPins) {a : Option (Access (BitVec 3) Word)}
    (ha : ∀ v, a ≠ some (.store REG_CLKDIV v)) : Holds (q.next (regAccess e a)) w := by
  have hother : (regAccess e a).wrAt REG_CLKDIV = none ∧ (regAccess e a).wrLane REG_CLKDIV 2 = none := by
    cases a with
    | none => exact ⟨rfl, rfl⟩
    | some a =>
      cases a with
      | load r => exact ⟨rfl, rfl⟩
      | store r v =>
        have hr : r ≠ REG_CLKDIV := fun hr => ha v (by rw [hr])
        constructor
        · simp [regAccess, RegAccess.wrAt, hr]
        · simp [regAccess, RegAccess.wrLane, hr]
  have hclk : (q.next (regAccess e a)).clkdivQ =
      (((regAccess e a).wrAt REG_CLKDIV).map fun x => x.data.setWidth 16).getD q.clkdivQ := rfl
  have hslot : (q.next (regAccess e a)).slotQ =
      (((regAccess e a).wrLane REG_CLKDIV 2).map fun x => x.data.extractLsb' 16 8).getD q.slotQ := rfl
  rw [hother.1] at hclk
  rw [hother.2] at hslot
  exact ⟨hclk.trans h.1, hslot.trans h.2⟩

/-- A store to CLKDIV. -/
private theorem holds_store (q : I2s wr) (e : I2sPins) (w : Word) :
    Holds (q.next (regAccess e (some (.store REG_CLKDIV w)))) w := by
  have hwr : (regAccess e (some (.store REG_CLKDIV w))).wrAt REG_CLKDIV =
      some ({ addr := REG_CLKDIV, data := w, strb := 0xF } : RegWrite (BitVec 3)) := by
    simp [regAccess, RegAccess.wrAt]
  have hlane : (regAccess e (some (.store REG_CLKDIV w))).wrLane REG_CLKDIV 2 =
      some ({ addr := REG_CLKDIV, data := w, strb := 0xF } : RegWrite (BitVec 3)) := by
    simp [regAccess, RegAccess.wrLane]
  have hclk : (q.next (regAccess e (some (.store REG_CLKDIV w)))).clkdivQ =
      (((regAccess e (some (.store REG_CLKDIV w))).wrAt REG_CLKDIV).map fun x => x.data.setWidth 16).getD
        q.clkdivQ := rfl
  have hslot : (q.next (regAccess e (some (.store REG_CLKDIV w)))).slotQ =
      (((regAccess e (some (.store REG_CLKDIV w))).wrLane REG_CLKDIV 2).map fun x => x.data.extractLsb' 16 8).getD
        q.slotQ := rfl
  rw [hwr] at hclk
  rw [hlane] at hslot
  exact ⟨hclk, hslot⟩

/-- What CLKDIV holds is a word. -/
private theorem exists_holds (q : I2s wr) : ∃ w, Holds q w := by
  refine ⟨q.slotQ.setWidth 32 <<< 16 ||| q.clkdivQ.setWidth 32, ?_, ?_⟩
  · apply BitVec.eq_of_getLsbD_eq
    intro k hk
    have h32 : k < 32 := by omega
    simp only [BitVec.getLsbD_setWidth, BitVec.getLsbD_or, BitVec.getLsbD_shiftLeft, hk, h32, decide_true,
      Bool.not_true, Bool.and_false, Bool.false_and, Bool.false_or, Bool.true_and]
  · apply BitVec.eq_of_getLsbD_eq
    intro k hk
    have h32 : k < 32 := by omega
    have hge : ¬16 + k < 16 := by omega
    have hlt : 16 + k < 32 := by omega
    have hsub : 16 + k - 16 = k := by omega
    have hfar : q.clkdivQ.getLsbD (16 + k) = false := BitVec.getLsbD_of_ge _ _ (by omega)
    simp only [BitVec.getLsbD_extractLsb', BitVec.getLsbD_setWidth, BitVec.getLsbD_or,
      BitVec.getLsbD_shiftLeft, hk, h32, hlt, hge, hsub, hfar, decide_true, decide_false, Bool.not_false,
      Bool.true_and, Bool.and_false, Bool.or_false]

private theorem holds_succ {w : Word} (h : Holds (blockAt core fs_hz slot s inp t) w)
    (ha : ∀ v, issued (portTarget device) ⟨i2s_master_hz core fs_hz slot, s⟩ inp t ≠ some (.store REG_CLKDIV v)) :
    Holds (blockAt core fs_hz slot s inp (t + 1)) w :=
  h.next _ ha

/-- A returned call stores nothing more. -/
private theorem holds_stays {r : Option Word} (hp : callAt core fs_hz slot s inp t = .ret r) {w : Word}
    (h : Holds (blockAt core fs_hz slot s inp t) w) {u : Nat} (hu : t ≤ u) :
    Holds (blockAt core fs_hz slot s inp u) w := by
  induction u, hu using Nat.le_induction with
  | base => exact h
  | succ u hu ih =>
    have hret := ret_stays hp hu
    apply holds_succ ih
    intro v hv
    rw [issued, Host.issue_ret hret] at hv
    cases hv

/-- Behind the return CLKDIV holds one word for ever. -/
private theorem holds_unique {r : Option Word} {u : Nat} (hp : callAt core fs_hz slot s inp t = .ret r)
    (hq : callAt core fs_hz slot s inp u = .ret r) {w : Word} (h : Holds (blockAt core fs_hz slot s inp u) w) :
    Holds (blockAt core fs_hz slot s inp t) w := by
  rcases Nat.le_total u t with hut | htu
  · exact holds_stays hq h hut
  · obtain ⟨w', h'⟩ := exists_holds (blockAt core fs_hz slot s inp t)
    have hu := holds_stays hp h' htu
    exact ⟨h'.1.trans (hu.1.symm.trans h.1), h'.2.trans (hu.2.symm.trans h.2)⟩

/-- The divider the call computes. -/
def divWord (core fs_hz slot : Word) : Word := BitVec.ofNat 32 (halfBclk core fs_hz slot - 1)

/-- What the call returns. -/
def report (core fs_hz slot : Word) : Option Word :=
  divU core (4 * slotInForce slot * (divWord core fs_hz slot + 1))

private theorem call_eq (core fs_hz slot : Word) : i2s_master_hz core fs_hz slot =
    .store REG_CLKDIV (clkdivWord (slotInForce slot) (divWord core fs_hz slot)) (.load REG_CTRL fun ctrl =>
      .store REG_CTRL (ctrl ||| I2S_CTRL_MASTER) (.ret (report core fs_hz slot))) := by
  unfold i2s_master_hz
  rw [divFor_eq]
  rfl

/-- A fair call returns, and leaves its word in CLKDIV. -/
private theorem call_ends (hf : CallFair core fs_hz slot s inp) :
    ∃ t, callAt core fs_hz slot s inp t = .ret (report core fs_hz slot) ∧
      Holds (blockAt core fs_hz slot s inp t) (clkdivWord (slotInForce slot) (divWord core fs_hz slot)) := by
  obtain ⟨a, x, _, _, hpa, hia⟩ := hf.access (A := fun _ => True) (t := 0) (call_eq core fs_hz slot) (by simp) trivial
    fun _ _ _ _ _ => trivial
  obtain ⟨rfl, hp1⟩ := of_issued_store hia hpa
  have hset : Holds (blockAt core fs_hz slot s inp (a + 1))
      (clkdivWord (slotInForce slot) (divWord core fs_hz slot)) := by
    have hacc : accessAt device ⟨i2s_master_hz core fs_hz slot, s⟩ inp a =
        regAccess (inp a).ext
          (some (.store REG_CLKDIV (clkdivWord (slotInForce slot) (divWord core fs_hz slot)))) := by
      rw [accessAt, hia]
    rw [blockAt, coreAt_succ, hacc]
    exact holds_store _ _ _
  obtain ⟨b, y, _, hb, hpb, hib⟩ := hf.access
    (A := fun u => Holds (blockAt core fs_hz slot s inp u) (clkdivWord (slotInForce slot) (divWord core fs_hz slot)))
    hp1 (by simp) hset (by
      intro u _ _ hu hnone
      exact holds_succ hu (by rw [hnone]; simp))
  obtain ⟨rfl, hp2⟩ := of_issued_load hib hpb
  have hload := holds_succ hb (by rw [hib]; simp)
  obtain ⟨c, z, _, hc, hpc, hic⟩ := hf.access
    (A := fun u => Holds (blockAt core fs_hz slot s inp u) (clkdivWord (slotInForce slot) (divWord core fs_hz slot)))
    hp2 (by simp) hload (by
      intro u _ _ hu hnone
      exact holds_succ hu (by rw [hnone]; simp))
  obtain ⟨rfl, hp3⟩ := of_issued_store hic hpc
  refine ⟨c + 1, hp3, holds_succ hc ?_⟩
  rw [hic]
  intro v hv
  have hreg : REG_CTRL = REG_CLKDIV := (Access.store.inj (Option.some.inj hv)).1
  exact absurd hreg (by decide)

/-- The SLOT in force behind the call, and the divider it kept. -/
private theorem held_frame {q : I2s wr} (hslot : slot.toNat ≤ 64)
    (h : Holds q (clkdivWord (slotInForce slot) (divWord core fs_hz slot))) :
    q.slotEff.toNat = (slotInForce slot).toNat ∧ q.clkdivQ.toNat = divKept core fs_hz slot := by
  obtain ⟨h1, h64⟩ := slotInForce_bounds hslot
  have hfield : q.slotQ.toNat = (slotInForce slot).toNat := by rw [h.2, slot_field h64]
  have hne : q.slotQ ≠ 0 := by
    intro hz
    rw [hz] at hfield
    have h0 : (0 : BitVec 8).toNat = 0 := rfl
    omega
  constructor
  · unfold slotEff
    rw [if_neg hne, hfield]
  · rw [h.1, clkdiv_field, BitVec.toNat_setWidth, divWord, BitVec.toNat_ofNat, divKept]
    omega

/-- The report is a division by the computed frame. -/
private theorem report_eq (hcore : core.toNat ≤ 2 ^ 31) (hslot : slot.toNat ≤ 64) :
    ∃ hz, report core fs_hz slot = some hz ∧ hz.toNat = rate core (frame core fs_hz slot % 2 ^ 32) := by
  have hframe : (4 * slotInForce slot * (divWord core fs_hz slot + 1)).toNat = _ := frame_toNat hcore
  have hne : 4 * slotInForce slot * (divWord core fs_hz slot + 1) ≠ 0 := by
    intro hz
    rw [hz] at hframe
    exact frame_ne_zero hcore hslot hframe.symm
  unfold report divU
  rw [if_neg hne]
  refine ⟨_, rfl, ?_⟩
  rw [BitVec.toNat_udiv, hframe]
  rfl

/-- A fair call that reports the rate of CLKDIV has kept its divider. -/
private theorem truthful_of_reports (hcore : core.toNat ≤ 2 ^ 31) (hslot : slot.toNat ≤ 64)
    (hf : CallFair core fs_hz slot s inp) (h : Reports core fs_hz slot s inp) : Truthful core fs_hz slot := by
  obtain ⟨hz, hreport, hrate⟩ := @report_eq core fs_hz slot hcore hslot
  obtain ⟨t, hz', hp, hrep⟩ := h
  obtain ⟨u, hq, hheld⟩ := call_ends hf
  rw [hreport] at hq
  obtain rfl : hz' = hz := by
    have hpu := ret_stays hp (Nat.le_max_left t u)
    have hqu := ret_stays hq (Nat.le_max_right t u)
    exact Option.some.inj (Prog.ret.inj (hpu.symm.trans hqu))
  obtain ⟨hs, hd⟩ := held_frame hslot (holds_unique hp hq hheld)
  unfold Truthful
  rw [← hrate, hrep, hs, hd]
  rfl

/-- A run that never pauses is fair. -/
private theorem fair_always (core fs_hz slot : Word) (s : PortDev (I2s wr)) (e : I2sPins) :
    CallFair core fs_hz slot s fun _ => ⟨true, e⟩ :=
  fair_of_go (fun _ _ => rfl) fun t => ⟨t, le_rfl, rfl⟩

end Run

/-! ### The report -/

/-- Every call ends, without a division by zero and with the slot in force in SLOT.  It reports the frame rate of
CLKDIV exactly for a divider that CLKDIV keeps, which for a request that does not wrap is one of at most 16 bits; and
the clock generator makes frames of that rate. -/
theorem rate_report {core fs_hz slot : Word} (hcore : core.toNat ≤ 2 ^ 31) (hslot : slot.toNat ≤ 64) (wr : Nat) :
    (∀ (s : PortDev (I2s wr)) inp, CallFair core fs_hz slot s inp → Ends core fs_hz slot s inp) ∧
      ((∀ (s : PortDev (I2s wr)) inp, CallFair core fs_hz slot s inp → Reports core fs_hz slot s inp) ↔
        Kept core fs_hz slot) ∧
      (4 * slot.toNat * fs_hz.toNat < 2 ^ 32 → (Kept core fs_hz slot ↔ halfBclk core fs_hz slot ≤ 2 ^ 16)) ∧
      ∀ (q : I2s wr) acc t₀ T a div sl, MasterFrom q acc t₀ T → Steady q acc t₀ T div sl → Begins (lrckO q acc) t₀ a →
        a + 4 * sl.toNat * (div.toNat + 1) ≤ T →
        ∃ h, Lasts (lrckO q acc) a h ∧ Lasts (lrckO q acc) (a + h) h ∧ 2 * h = 4 * sl.toNat * (div.toNat + 1) := by
  obtain ⟨hz, hreport, hrate⟩ := @report_eq core fs_hz slot hcore hslot
  refine ⟨?_, ?_, kept_iff_fits hcore, ?_⟩
  · intro s inp hf
    obtain ⟨t, hp, hheld⟩ := call_ends hf
    rw [hreport] at hp
    exact ⟨t, hz, hp, (held_frame hslot hheld).1⟩
  · rw [← truthful_iff hslot]
    constructor
    · intro h
      -- one run is enough: the block from reset, with a processor that never pauses
      have hf := fair_always core fs_hz slot (⟨I2s.reset fun _ => (0, false), false⟩ : PortDev (I2s wr))
        ⟨false, false, false⟩
      exact truthful_of_reports hcore hslot hf (h _ _ hf)
    · intro h s inp hf
      obtain ⟨t, hp, hheld⟩ := call_ends hf
      rw [hreport] at hp
      obtain ⟨hs, hd⟩ := held_frame hslot hheld
      refine ⟨t, hz, hp, ?_⟩
      rw [hs, hd, hrate]
      exact h
  · intro q acc t₀ T a div sl hm hc hb haT
    have htwo : 2 * (sl.toNat * (2 * (div.toNat + 1))) = 4 * sl.toNat * (div.toNat + 1) := by ring
    obtain ⟨hfirst, hsecond⟩ := frame_period hm hc hb (by omega)
    exact ⟨_, hfirst, hsecond, htwo⟩

/-- One sample a second with one BCLK period a slot, from 50 MHz: a divider of 12499999 is reported as 1 Hz, and
CLKDIV keeps 48159 of it, which makes 259 Hz. -/
theorem rate_report_truncated : ¬∀ (core fs_hz slot : Word), core.toNat ≤ 2 ^ 31 → slot.toNat ≤ 64 →
    ∀ (s : PortDev (I2s 0)) inp, CallFair core fs_hz slot s inp → Reports core fs_hz slot s inp := by
  intro h
  have hf := fair_always 50000000 1 1 (⟨I2s.reset fun _ => (0, false), false⟩ : PortDev (I2s 0)) ⟨false, false, false⟩
  have hrate := truthful_of_reports (by decide) (by decide) hf (h 50000000 1 1 (by decide) (by decide) _ _ hf)
  revert hrate
  unfold Truthful
  decide +kernel

/-- The request of the board: 15625 Hz with 32 BCLK periods a slot, from 50 MHz. -/
theorem rate_report_board :
    Reports 50000000 15625 32 (⟨I2s.reset fun _ => (0, false), false⟩ : PortDev (I2s 0))
      fun _ => ⟨true, ⟨false, false, false⟩⟩ :=
  (rate_report (by decide) (by decide) 0).2.1.mpr (Or.inl (by decide)) _ _ (fair_always _ _ _ _ _)

end I2sDriver

end Yarv
