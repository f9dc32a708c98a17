import Mathlib.Data.BitVec
import Yarv.Lib.Division

/-!
# The 64-bit arithmetic of `bmp280.h`

The firmware is linked without a runtime library, so the pressure formula multiplies and divides with four functions
of its own: two on magnitudes, and two that put the sign on afterwards.  `long long` wraps.
-/

namespace Yarv

/-- `bmp_u64` and `bmp_s64`. -/
abbrev BmpWord := BitVec 64

/-- The product from the 32-bit halves; the product of the two upper halves is a multiple of `2 ^ 64`. -/
def bmp_u64_mul (a b : BmpWord) : BmpWord :=
  let a0 := a.setWidth 32
  let a1 := (a >>> 32).setWidth 32
  let b0 := b.setWidth 32
  let b1 := (b >>> 32).setWidth 32
  a0.setWidth 64 * b0.setWidth 64 + (a0.setWidth 64 * b1.setWidth 64 + a1.setWidth 64 * b0.setWidth 64) <<< 32

/-- The quotient and the partial remainder of the division. -/
structure BmpDiv where
  q : BmpWord
  r : BmpWord
  deriving DecidableEq, Repr

/-- The loop body, at bit `i`. -/
def BmpDiv.step (n d : BmpWord) (i : Nat) (s : BmpDiv) : BmpDiv :=
  let r := s.r <<< 1 ||| (n >>> i &&& 1)
  if d.ule r then ⟨s.q ||| 1 <<< i, r - d⟩ else ⟨s.q, r⟩

/-- The loop from bit `i - 1` down to bit 0. -/
def BmpDiv.loop (n d : BmpWord) : Nat → BmpDiv → BmpDiv
  | 0, s => s
  | i + 1, s => BmpDiv.loop n d i (s.step n d i)

def bmp_u64_div (n d : BmpWord) : BmpWord := (BmpDiv.loop n d 64 ⟨0, 0⟩).q

/-- `ma` and `mb`. -/
def bmpMag (a : BmpWord) : BmpWord := if a.slt 0 then -(a + 1) + 1 else a

/-- An operation on magnitudes under the sign of two factors. -/
def bmpSigned (op : BmpWord → BmpWord → BmpWord) (a b : BmpWord) : BmpWord :=
  if a.slt 0 ^^ b.slt 0 then -op (bmpMag a) (bmpMag b) else op (bmpMag a) (bmpMag b)

def bmp_s64_mul : BmpWord → BmpWord → BmpWord := bmpSigned bmp_u64_mul

def bmp_s64_div : BmpWord → BmpWord → BmpWord := bmpSigned bmp_u64_div

/-! ### Products -/

/-- A word from its halves. -/
private theorem bmp_halves (a : BmpWord) :
    (a.setWidth 32).setWidth 64 + ((a >>> 32).setWidth 32).setWidth 64 * 4294967296#64 = a := by
  have ha := a.isLt
  apply BitVec.eq_of_toNat_eq
  rw [BitVec.toNat_add, BitVec.toNat_mul, BitVec.toNat_setWidth, BitVec.toNat_setWidth, BitVec.toNat_setWidth,
    BitVec.toNat_setWidth, BitVec.toNat_ushiftRight, Nat.shiftRight_eq_div_pow]
  simp only [BitVec.toNat_ofNat]
  omega

private theorem bmp_u64_mul_eq (a b : BmpWord) : bmp_u64_mul a b = a * b := by
  have hsq : (4294967296#64 * 4294967296#64 : BmpWord) = 0 := by decide
  have hshift : ∀ x : BmpWord, x <<< 32 = x * 4294967296#64 := by
    intro x
    rw [BitVec.shiftLeft_eq_mul_twoPow]
    rfl
  unfold bmp_u64_mul
  set a0 : BmpWord := (a.setWidth 32).setWidth 64 with ha0
  set a1 : BmpWord := ((a >>> 32).setWidth 32).setWidth 64 with ha1
  set b0 : BmpWord := (b.setWidth 32).setWidth 64 with hb0
  set b1 : BmpWord := ((b >>> 32).setWidth 32).setWidth 64 with hb1
  have ha : a0 + a1 * 4294967296#64 = a := bmp_halves a
  have hb : b0 + b1 * 4294967296#64 = b := bmp_halves b
  change a0 * b0 + (a0 * b1 + a1 * b0) <<< 32 = a * b
  rw [hshift]
  calc a0 * b0 + (a0 * b1 + a1 * b0) * 4294967296#64
      = (a0 + a1 * 4294967296#64) * (b0 + b1 * 4294967296#64) - a1 * b1 * (4294967296#64 * 4294967296#64) := by ring
    _ = a * b := by rw [ha, hb, hsq, mul_zero, sub_zero]

/-! ### Quotients -/

private theorem bit_toNat (n : BmpWord) (i : Nat) : (n >>> i &&& 1).toNat = n.toNat / 2 ^ i % 2 := by
  rw [BitVec.toNat_and, BitVec.toNat_ushiftRight, Nat.shiftRight_eq_div_pow]
  exact Nat.and_one_is_mod _

/-- What the loop holds when bit `i - 1` is next: the quotient of the bits it has consumed, in place, and their
remainder. -/
structure BmpDiv.At (n d : BmpWord) (i : Nat) (s : BmpDiv) : Prop where
  q : s.q.toNat = n.toNat / 2 ^ i / d.toNat * 2 ^ i
  r : s.r.toNat = n.toNat / 2 ^ i % d.toNat

/-- The divisor is at most `2 ^ 63`, so the doubled remainder keeps its top bit. -/
private theorem BmpDiv.At.double {n d : BmpWord} {i : Nat} {s : BmpDiv} (h : BmpDiv.At n d (i + 1) s)
    (h0 : 0 < d.toNat) (hd : d.toNat ≤ 2 ^ 63) :
    (s.r <<< 1 ||| (n >>> i &&& 1)).toNat = 2 * (n.toNat / 2 ^ (i + 1) % d.toNat) + n.toNat / 2 ^ i % 2 := by
  have hr := Nat.mod_lt (n.toNat / 2 ^ (i + 1)) h0
  have hbit : n.toNat / 2 ^ i % 2 < 2 ^ 1 := Nat.mod_lt _ Nat.two_pos
  have hshift : s.r.toNat <<< 1 % 2 ^ 64 = s.r.toNat <<< 1 := by
    rw [Nat.shiftLeft_eq, h.r]
    exact Nat.mod_eq_of_lt (by omega)
  rw [BitVec.toNat_or, BitVec.toNat_shiftLeft, bit_toNat, hshift, ← Nat.shiftLeft_add_eq_or_of_lt hbit,
    Nat.shiftLeft_eq, h.r]
  omega

private theorem BmpDiv.At.step {n d : BmpWord} {i : Nat} {s : BmpDiv} (h : BmpDiv.At n d (i + 1) s) (hi : i < 64)
    (h0 : 0 < d.toNat) (hd : d.toNat ≤ 2 ^ 63) : BmpDiv.At n d i (s.step n d i) := by
  have hbit : n.toNat / 2 ^ i % 2 < 2 := Nat.mod_lt _ Nat.two_pos
  have hconsumed : n.toNat / 2 ^ i = 2 * (n.toNat / 2 ^ (i + 1)) + n.toNat / 2 ^ i % 2 := by
    rw [pow_succ, ← Nat.div_div_eq_div_mul]
    omega
  obtain ⟨hdiv, hmod⟩ := Division.div_mod_bit (T := n.toNat / 2 ^ (i + 1)) h0 hbit
  rw [← hconsumed] at hdiv hmod
  have hdouble := h.double h0 hd
  have hle : d.ule (s.r <<< 1 ||| (n >>> i &&& 1)) =
      decide (d.toNat ≤ 2 * (n.toNat / 2 ^ (i + 1) % d.toNat) + n.toNat / 2 ^ i % 2) := by
    rw [BitVec.ule_eq_decide, hdouble]
  have hq : s.q.toNat = 2 * (n.toNat / 2 ^ (i + 1) / d.toNat) * 2 ^ i := by
    rw [h.q, pow_succ]
    ring
  unfold BmpDiv.step
  by_cases hge : d.toNat ≤ 2 * (n.toNat / 2 ^ (i + 1) % d.toNat) + n.toNat / 2 ^ i % 2
  · rw [if_pos hge] at hdiv hmod
    simp only [hle, decide_eq_true hge, if_true]
    constructor
    · -- bit `i` of the quotient is still clear
      have hone : (1#64 <<< i).toNat = 2 ^ i := by
        rw [BitVec.toNat_shiftLeft, BitVec.toNat_ofNat, Nat.one_mod_two_pow (by decide), Nat.one_shiftLeft]
        exact Nat.mod_eq_of_lt (Nat.pow_lt_pow_right Nat.one_lt_two hi)
      have hclear : s.q.toNat = (n.toNat / 2 ^ (i + 1) / d.toNat) <<< (i + 1) := by rw [h.q, Nat.shiftLeft_eq]
      have hlt : 2 ^ i < 2 ^ (i + 1) := Nat.pow_lt_pow_right Nat.one_lt_two (Nat.lt_succ_self i)
      change (s.q ||| 1#64 <<< i).toNat = _
      rw [BitVec.toNat_or, hone, hclear, ← Nat.shiftLeft_add_eq_or_of_lt hlt, ← hclear, hq, hdiv]
      ring
    · rw [BitVec.toNat_sub_of_le (by rw [BitVec.le_def, hdouble]; exact hge), hdouble, hmod]
  · simp only [hge, if_false, add_zero] at hdiv hmod
    simp only [hle, decide_eq_false hge, Bool.false_eq_true, if_false]
    constructor
    · rw [hq, hdiv]
    · rw [hdouble, hmod]

/-- The loop from bit `i - 1` on. -/
private theorem BmpDiv.At.loop {n d : BmpWord} (h0 : 0 < d.toNat) (hd : d.toNat ≤ 2 ^ 63) {i : Nat}
    (hi : i ≤ 64) {s : BmpDiv} (h : BmpDiv.At n d i s) : BmpDiv.At n d 0 (BmpDiv.loop n d i s) := by
  induction i generalizing s with
  | zero => exact h
  | succ i ih => exact ih (by omega) (h.step hi h0 hd)

private theorem bmp_u64_div_toNat {n d : BmpWord} (h0 : 0 < d.toNat) (hd : d.toNat ≤ 2 ^ 63) :
    (bmp_u64_div n d).toNat = n.toNat / d.toNat := by
  have hstart : BmpDiv.At n d 64 ⟨0, 0⟩ := by
    have hn : n.toNat / 2 ^ 64 = 0 := Nat.div_eq_of_lt n.isLt
    constructor
    · rw [hn, Nat.zero_div, Nat.zero_mul]
      rfl
    · rw [hn, Nat.zero_mod]
      rfl
  have hq := (hstart.loop h0 hd le_rfl).q
  rw [pow_zero, Nat.div_one, Nat.mul_one] at hq
  exact hq

/-! ### Signs -/

private theorem slt_zero_iff (a : BmpWord) : a.slt 0 = true ↔ a.toInt < 0 := by
  rw [BitVec.slt_iff_toInt_lt]
  rfl

private theorem bmpMag_eq (a : BmpWord) : bmpMag a = if a.slt 0 then -a else a := by
  have hform : -(a + 1) + 1 = -a := by ring
  unfold bmpMag
  rw [hform]

/-- The magnitude of the least word is a word too. -/
private theorem bmpMag_toNat (a : BmpWord) : (bmpMag a).toNat = a.toInt.natAbs := by
  have ha := a.isLt
  have hint := BitVec.toInt_eq_toNat_cond a
  rw [bmpMag_eq]
  by_cases h : a.slt 0 = true
  · have hneg := (slt_zero_iff a).mp h
    rw [if_pos h, BitVec.toNat_neg]
    omega
  · have hpos := mt (slt_zero_iff a).mpr h
    rw [if_neg h]
    omega

private theorem bmp_s64_mul_eq (a b : BmpWord) : bmp_s64_mul a b = a * b := by
  unfold bmp_s64_mul bmpSigned
  rw [bmp_u64_mul_eq, bmpMag_eq, bmpMag_eq]
  cases a.slt 0 with
  | true =>
    cases b.slt 0 with
    | true => exact neg_mul_neg a b
    | false => exact (neg_mul_eq_neg_mul (-a) b).trans (by rw [neg_neg])
  | false =>
    cases b.slt 0 with
    | true => exact (neg_mul_eq_mul_neg a (-b)).trans (by rw [neg_neg])
    | false => rfl

/-- A magnitude under a sign. -/
private theorem toInt_signed {x : BmpWord} (neg : Bool) (h : x.toNat ≤ 2 ^ 63)
    (hlt : neg = false → x.toNat < 2 ^ 63) :
    (if neg then -x else x).toInt = if neg then -(x.toNat : Int) else x.toNat := by
  have hx := x.isLt
  cases neg with
  | true =>
    rw [if_pos rfl, if_pos rfl, BitVec.toInt_eq_toNat_cond, BitVec.toNat_neg]
    split
    · omega
    · omega
  | false =>
    have h63 := hlt rfl
    rw [if_neg Bool.false_ne_true, if_neg Bool.false_ne_true, BitVec.toInt_eq_toNat_cond, if_pos (by omega)]

/-- Truncated division by magnitudes and signs. -/
private theorem tdiv_eq_signed (a b : Int) :
    a.tdiv b = if decide (a < 0) ^^ decide (b < 0) then -((a.natAbs / b.natAbs : Nat) : Int)
      else (a.natAbs / b.natAbs : Nat) := by
  by_cases ha : a < 0
  · have h1 : a = -(a.natAbs : Int) := by omega
    by_cases hb : b < 0
    · have h2 : b = -(b.natAbs : Int) := by omega
      rw [decide_eq_true ha, decide_eq_true hb]
      conv_lhs => rw [h1, h2, Int.neg_tdiv, Int.tdiv_neg, neg_neg]
      rfl
    · have h2 : b = (b.natAbs : Int) := by omega
      rw [decide_eq_true ha, decide_eq_false hb]
      conv_lhs => rw [h1, h2, Int.neg_tdiv]
      rfl
  · have h1 : a = (a.natAbs : Int) := by omega
    by_cases hb : b < 0
    · have h2 : b = -(b.natAbs : Int) := by omega
      rw [decide_eq_false ha, decide_eq_true hb]
      conv_lhs => rw [h1, h2, Int.tdiv_neg]
      rfl
    · have h2 : b = (b.natAbs : Int) := by omega
      rw [decide_eq_false ha, decide_eq_false hb]
      conv_lhs => rw [h1, h2]
      rfl

private theorem bmp_s64_div_toInt {a b : BmpWord} (h0 : b ≠ 0) (h : ¬(a = BitVec.intMin 64 ∧ b = -1)) :
    (bmp_s64_div a b).toInt = a.toInt.tdiv b.toInt := by
  have hb0 : b.toInt ≠ 0 := fun hz => h0 (BitVec.eq_of_toInt_eq hz)
  have hbound : ∀ c : BmpWord, c.toInt.natAbs ≤ 2 ^ 63 := by
    intro c
    have hlow := BitVec.le_toInt c
    have hhigh := BitVec.toInt_lt (x := c)
    omega
  have hsign : ∀ c : BmpWord, c.slt 0 = decide (c.toInt < 0) := by
    intro c
    rw [Bool.eq_iff_iff, decide_eq_true_iff, slt_zero_iff]
  have hmagb := bmpMag_toNat b
  have hquot : (bmp_u64_div (bmpMag a) (bmpMag b)).toNat = a.toInt.natAbs / b.toInt.natAbs := by
    rw [bmp_u64_div_toNat (by omega) (by rw [hmagb]; exact hbound b), hmagb, bmpMag_toNat]
  have hle : a.toInt.natAbs / b.toInt.natAbs ≤ 2 ^ 63 := (Nat.div_le_self _ _).trans (hbound a)
  have hlt : (a.slt 0 ^^ b.slt 0) = false → a.toInt.natAbs / b.toInt.natAbs < 2 ^ 63 := by
    intro hs
    by_cases hmin : a.toInt.natAbs < 2 ^ 63
    · exact (Nat.div_le_self _ _).trans_lt hmin
    · -- the dividend is the least word, so the divisor is negative and not `-1`
      have hlow := BitVec.le_toInt a
      have ha : a.toInt = -2 ^ 63 := by
        have hhigh := BitVec.toInt_lt (x := a)
        omega
      have haw : a = BitVec.intMin 64 := BitVec.eq_of_toInt_eq (by rw [ha]; decide)
      rw [hsign, hsign, ha] at hs
      have hb : b.toInt < 0 := by
        by_contra hge
        rw [decide_eq_false hge] at hs
        exact absurd hs (by decide)
      have hne : b.toInt ≠ -1 := fun hm => h ⟨haw, BitVec.eq_of_toInt_eq (by rw [hm]; decide)⟩
      have h2 : 2 ≤ b.toInt.natAbs := by omega
      have hhalf := Nat.div_le_div_left h2 Nat.two_pos (a := a.toInt.natAbs)
      have ha' := hbound a
      omega
  have hform : bmp_s64_div a b =
      if a.slt 0 ^^ b.slt 0 then -bmp_u64_div (bmpMag a) (bmpMag b) else bmp_u64_div (bmpMag a) (bmpMag b) := rfl
  rw [hform, toInt_signed _ (by rw [hquot]; exact hle) (by rw [hquot]; exact hlt), hquot,
    tdiv_eq_signed, hsign, hsign]

/-- The four functions compute what their names say, `2 ^ 63` as a divisor and the least word as an operand
included. -/
theorem bmp_arith :
    (∀ a b, bmp_u64_mul a b = a * b) ∧
      (∀ a b, (bmp_s64_mul a b).toInt = (a.toInt * b.toInt).bmod (2 ^ 64)) ∧
      (∀ n d, 0 < d.toNat → d.toNat ≤ 2 ^ 63 → (bmp_u64_div n d).toNat = n.toNat / d.toNat) ∧
      ∀ a b, b ≠ 0 → ¬(a = BitVec.intMin 64 ∧ b = -1) → (bmp_s64_div a b).toInt = a.toInt.tdiv b.toInt := by
  refine ⟨bmp_u64_mul_eq, ?_, ?_, ?_⟩
  · intro a b
    rw [bmp_s64_mul_eq, BitVec.toInt_mul]
  · intro n d
    exact bmp_u64_div_toNat
  · intro a b
    exact bmp_s64_div_toInt

/-- The least word by itself, and by 3. -/
theorem bmp_arith_least :
    (bmp_u64_div (BitVec.allOnes 64) (BitVec.intMin 64)).toNat = 1 ∧
      (bmp_s64_div (BitVec.intMin 64) (BitVec.intMin 64)).toInt = 1 ∧
      (bmp_s64_div (BitVec.intMin 64) 3).toInt = -3074457345618258602 :=
  ⟨bmp_arith.2.2.1 _ _ (by decide) (by decide), bmp_arith.2.2.2 _ _ (by decide) (by decide),
    bmp_arith.2.2.2 _ _ (by decide) (by decide)⟩

end Yarv
