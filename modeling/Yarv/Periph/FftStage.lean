import Yarv.Periph.Fft
import Yarv.Periph.FftModel

/-!
# One pass of the engine

What a butterfly of the pipeline computes, and where its addresses and its twiddle come from: the slots agree with the
integer arithmetic of the reference, the address generator with the pairs of a pass.
-/

namespace Yarv.Fft

open Radix2

/-! ### The datapath -/

theorem toInt_bounds {w : Nat} (x : BitVec (w + 1)) : -2 ^ w ≤ x.toInt ∧ x.toInt < 2 ^ w :=
  ⟨by simpa using BitVec.le_toInt x, by simpa using BitVec.toInt_lt (x := x)⟩

theorem sat16_toInt (v : BitVec 21) : sat16 v = FftTb.sat16 v.toInt := by
  have h1 : (32767#21).slt v = decide (32767 < v.toInt) := rfl
  have h2 : v.slt (-32768#21) = decide (v.toInt < -32768) := rfl
  rw [sat16, FftTb.sat16, h1, h2]
  simp only [decide_eq_true_eq]
  split
  · rfl
  · split
    · rfl
    · apply BitVec.eq_of_toInt_eq
      rw [BitVec.toInt_setWidth, BitVec.toInt_ofInt, BitVec.toInt_eq_toNat_bmod v, Int.bmod_bmod_of_dvd (by decide)]

private theorem scaleRnd_toInt {v : BitVec 21} (h : v.toInt < 2 ^ 20 - 1) (en : Bool) :
    (scaleRnd v en).toInt = FftTb.scaleRnd v.toInt en := by
  have hb := toInt_bounds v
  rw [scaleRnd, FftTb.scaleRnd]
  cases en with
  | false => rfl
  | true =>
    have h1 : (v + 1).toInt = v.toInt + 1 := by
      rw [BitVec.toInt_add]
      exact Int.bmod_eq_of_le_mul_two (by change _ ≤ (v.toInt + 1) * 2; omega)
        (by change (v.toInt + 1) * 2 < _; omega)
    rw [if_pos rfl, if_pos rfl, BitVec.toInt_sshiftRight, h1]

/-- A sum and a difference of two halfwords fit in 17 bits. -/
private theorem sum_toInt (x y : BitVec 16) : (x.signExtend 17 + y.signExtend 17).toInt = x.toInt + y.toInt := by
  have hx := toInt_bounds x
  have hy := toInt_bounds y
  rw [BitVec.toInt_add, BitVec.toInt_signExtend_of_le (by decide), BitVec.toInt_signExtend_of_le (by decide)]
  exact Int.bmod_eq_of_le_mul_two (by omega) (by omega)

private theorem dif_toInt (x y : BitVec 16) : (x.signExtend 17 - y.signExtend 17).toInt = x.toInt - y.toInt := by
  have hx := toInt_bounds x
  have hy := toInt_bounds y
  rw [BitVec.toInt_sub, BitVec.toInt_signExtend_of_le (by decide), BitVec.toInt_signExtend_of_le (by decide)]
  exact Int.bmod_eq_of_le_mul_two (by omega) (by omega)

/-- A difference of two halfwords times a twiddle. -/
private theorem product_bound {d w : Int} (hd : |d| ≤ 65535) (hw : |w| ≤ 32768) : |d * w| ≤ 2147450880 := by
  rw [abs_mul]
  exact mul_le_mul hd hw (abs_nonneg w) (by decide)

private theorem abs_toInt (x : BitVec 16) : |x.toInt| ≤ 32768 := by
  have hx := toInt_bounds x
  rw [abs_le]
  omega

private theorem product_toInt {d : BitVec 17} (hd : |d.toInt| ≤ 65535) (w : BitVec 16) :
    (d.signExtend 33 * w.signExtend 33).toInt = d.toInt * w.toInt := by
  have h := abs_le.mp (product_bound hd (abs_toInt w))
  rw [BitVec.toInt_mul, BitVec.toInt_signExtend_of_le (by decide), BitVec.toInt_signExtend_of_le (by decide)]
  exact Int.bmod_eq_of_le_mul_two (by omega) (by omega)

/-- The upper bits of a word, as a number. -/
private theorem extract_toInt (x : BitVec 34) : (x.extractLsb' 15 19).toInt = x.toInt >>> (15 : Nat) := by
  have hx : x.extractLsb' 15 19 ++ x.extractLsb' 0 15 = x := BitVec.extractLsb'_append_extractLsb'
  have hlo : (x.extractLsb' 0 15).toNat < 2 ^ 15 := (x.extractLsb' 0 15).isLt
  have h := congrArg BitVec.toInt hx
  rw [BitVec.toInt_append] at h
  simp only [Nat.reduceBEq, Bool.false_eq_true, if_false] at h
  rw [← h, Int.shiftRight_eq_div_pow]
  omega

private theorem norm_toInt {v : BitVec 34} (h : |v.toInt| ≤ 4294901760) :
    (norm v).toInt = (v.toInt + 16384) >>> (15 : Nat) := by
  have hv := abs_le.mp h
  have h1 : (v + 16384).toInt = v.toInt + 16384 := by
    rw [BitVec.toInt_add]
    exact Int.bmod_eq_of_le_mul_two (by change _ ≤ (v.toInt + 16384) * 2; omega)
      (by change (v.toInt + 16384) * 2 < _; omega)
  rw [norm, BitVec.toInt_signExtend_of_le (by decide), extract_toInt, h1]

/-- A sum on its way to the saturation. -/
theorem scaled_sum_toInt (x y : BitVec 16) (sc : Bool) :
    (scaleRnd ((x.signExtend 17 + y.signExtend 17).signExtend 21) sc).toInt =
      FftTb.scaleRnd (x.toInt + y.toInt) sc := by
  have hx := toInt_bounds x
  have hy := toInt_bounds y
  have h : ((x.signExtend 17 + y.signExtend 17).signExtend 21).toInt = x.toInt + y.toInt := by
    rw [BitVec.toInt_signExtend_of_le (by decide), sum_toInt]
  rw [scaleRnd_toInt (by omega), h]

/-- A product on its way to the saturation; what is left of it fits in 20 bits. -/
theorem scaled_norm_toInt {v : BitVec 34} (h : |v.toInt| ≤ 4294901760) (sc : Bool) :
    (scaleRnd (norm v) sc).toInt = FftTb.scaleRnd ((v.toInt + 16384) >>> (15 : Nat)) sc := by
  have hn := norm_toInt h
  have hlt : (norm v).toInt < 2 ^ 20 - 1 := by
    have := abs_le.mp h
    rw [hn, Int.shiftRight_eq_div_pow]
    omega
  rw [scaleRnd_toInt hlt, hn]

theorem outA_eq (sc inv : Bool) (ra rb tw : Word) : outA sc (slot3D (slot2D false inv ra rb tw)) =
    FftTb.pack (FftTb.butterfly sc (FftTb.unpack ra) (FftTb.unpack rb) (FftTb.twiddle inv (FftTb.unpack tw))).1 := by
  simp only [outA, slot3D, slot2D, Bool.false_eq_true, if_false, sat16_toInt, scaled_sum_toInt]
  rfl

/-- The sum and the difference of two products fit in 34 bits. -/
private theorem product_pair_toInt {d e : BitVec 17} (hd : |d.toInt| ≤ 65535) (he : |e.toInt| ≤ 65535)
    (u v : BitVec 16) :
    (((d.signExtend 33 * u.signExtend 33).signExtend 34 - (e.signExtend 33 * v.signExtend 33).signExtend 34).toInt =
        d.toInt * u.toInt - e.toInt * v.toInt ∧ |d.toInt * u.toInt - e.toInt * v.toInt| ≤ 4294901760) ∧
      ((d.signExtend 33 * u.signExtend 33).signExtend 34 + (e.signExtend 33 * v.signExtend 33).signExtend 34).toInt =
        d.toInt * u.toInt + e.toInt * v.toInt ∧ |d.toInt * u.toInt + e.toInt * v.toInt| ≤ 4294901760 := by
  have h1 := abs_le.mp (product_bound hd (abs_toInt u))
  have h2 := abs_le.mp (product_bound he (abs_toInt v))
  have e1 : ((d.signExtend 33 * u.signExtend 33).signExtend 34).toInt = d.toInt * u.toInt := by
    rw [BitVec.toInt_signExtend_of_le (by decide), product_toInt hd]
  have e2 : ((e.signExtend 33 * v.signExtend 33).signExtend 34).toInt = e.toInt * v.toInt := by
    rw [BitVec.toInt_signExtend_of_le (by decide), product_toInt he]
  refine ⟨⟨?_, abs_le.mpr (by omega)⟩, ?_, abs_le.mpr (by omega)⟩
  · rw [BitVec.toInt_sub, e1, e2]
    exact Int.bmod_eq_of_le_mul_two (by omega) (by omega)
  · rw [BitVec.toInt_add, e1, e2]
    exact Int.bmod_eq_of_le_mul_two (by omega) (by omega)

/-- The twiddled difference in slot 3 is that of the reference. -/
theorem mul_toInt (inv : Bool) (ra rb tw : Word) :
    ((mulR (slot3D (slot2D false inv ra rb tw))).toInt =
        (FftTb.twiddled (FftTb.unpack ra) (FftTb.unpack rb) (FftTb.twiddle inv (FftTb.unpack tw))).1 ∧
      |(mulR (slot3D (slot2D false inv ra rb tw))).toInt| ≤ 4294901760) ∧
      (mulI (slot3D (slot2D false inv ra rb tw))).toInt =
        (FftTb.twiddled (FftTb.unpack ra) (FftTb.unpack rb) (FftTb.twiddle inv (FftTb.unpack tw))).2 ∧
      |(mulI (slot3D (slot2D false inv ra rb tw))).toInt| ≤ 4294901760 := by
  have hdif : ∀ x y : BitVec 16, |(x.signExtend 17 - y.signExtend 17).toInt| ≤ 65535 := by
    intro x y
    have hx := toInt_bounds x
    have hy := toInt_bounds y
    rw [dif_toInt, abs_le]
    omega
  have htw : twIm inv tw = (FftTb.twiddle inv (FftTb.unpack tw)).im ∧
      re tw = (FftTb.twiddle inv (FftTb.unpack tw)).re := by
    cases inv with
    | false => exact ⟨rfl, rfl⟩
    | true => exact ⟨rfl, rfl⟩
  have hr := (product_pair_toInt (hdif (re ra) (re rb)) (hdif (im ra) (im rb)) (re tw) (twIm inv tw)).1
  have hi := (product_pair_toInt (hdif (re ra) (re rb)) (hdif (im ra) (im rb)) (twIm inv tw) (re tw)).2
  simp only [mulR, mulI, slot3D, slot2D, Bool.false_eq_true, if_false, hr.1, hi.1]
  refine ⟨⟨?_, hr.2⟩, ?_, hi.2⟩
  · rw [dif_toInt, dif_toInt, htw.1, htw.2]
    rfl
  · rw [dif_toInt, dif_toInt, htw.1, htw.2]
    rfl

theorem outB_eq (sc inv : Bool) (ra rb tw : Word) : outB false sc (slot3D (slot2D false inv ra rb tw)) =
    FftTb.pack (FftTb.butterfly sc (FftTb.unpack ra) (FftTb.unpack rb) (FftTb.twiddle inv (FftTb.unpack tw))).2 := by
  obtain ⟨⟨hr, hrb⟩, hi, hib⟩ := mul_toInt inv ra rb tw
  unfold outB
  rw [if_neg Bool.false_ne_true, if_neg Bool.false_ne_true, sat16_toInt, sat16_toInt, scaled_norm_toInt hrb,
    scaled_norm_toInt hib, hr, hi]
  rfl

theorem sat16_signExtend (x : BitVec 16) : sat16 ((x.signExtend 17).signExtend 21) = x := by
  have hx := toInt_bounds x
  have h : ((x.signExtend 17).signExtend 21).toInt = x.toInt := by
    rw [BitVec.toInt_signExtend_of_le (by decide), BitVec.toInt_signExtend_of_le (by decide)]
  rw [sat16_toInt, h, FftTb.sat16, if_neg (by omega), if_neg (by omega), BitVec.ofInt_toInt]

theorem pack_unpack (w : Word) : FftTb.pack (FftTb.unpack w) = w := BitVec.extractLsb'_append_extractLsb'

theorem unpack_pack (c : C16) : FftTb.unpack (FftTb.pack c) = c := by
  rw [FftTb.unpack, FftTb.pack, FftDpram.extract_lo, FftDpram.extract_hi]

/-- The copy pass leaves both words alone. -/
theorem out_copy (inv : Bool) (ra rb tw : Word) : outA false (slot3D (slot2D true inv ra rb tw)) = ra ∧
    outB true false (slot3D (slot2D true inv ra rb tw)) = rb := by
  have hscale : ∀ v : BitVec 21, scaleRnd v false = v := fun v => rfl
  constructor
  · simp only [outA, slot3D, slot2D, if_true, hscale, sat16_signExtend]
    exact pack_unpack ra
  · simp only [outB, slot3D, slot2D, if_true, sat16_signExtend]
    exact pack_unpack rb

/-! ### The address generator -/

section Addresses

variable {m : Nat} {q : Fft m} {k c : Nat}

/-- A power of two less one; the power itself may be out of range. -/
theorem pred_pow_toNat (hk : k ≤ m) : (BitVec.ofNat m (2 ^ k) - 1).toNat = 2 ^ k - 1 := by
  have hpos : 0 < 2 ^ k := Nat.two_pow_pos k
  rw [BitVec.toNat_sub, BitVec.toNat_ofNat]
  rcases Nat.lt_or_eq_of_le hk with h | rfl
  · have hkm : 2 ^ k < 2 ^ m := Nat.pow_lt_pow_right Nat.one_lt_two h
    have h1 : (1 : BitVec m).toNat = 1 := Nat.mod_eq_of_lt (Nat.one_lt_two_pow (by omega))
    rw [h1, Nat.mod_eq_of_lt hkm, show 2 ^ m - 1 + 2 ^ k = 2 ^ k - 1 + 2 ^ m by omega, Nat.add_mod_right,
      Nat.mod_eq_of_lt (by omega)]
  · rw [Nat.mod_self, Nat.add_zero]
    rcases Nat.eq_zero_or_pos k with rfl | h0
    · rfl
    · have h1 : (1 : BitVec k).toNat = 1 := Nat.mod_eq_of_lt (Nat.one_lt_two_pow (by omega))
      rw [h1, Nat.mod_eq_of_lt (by omega)]

private theorem lowMask_toNat (hk : k ≤ m) (hh : q.seq.halfQ = BitVec.ofNat (m + 1) (2 ^ k)) :
    q.lowMask.toNat = 2 ^ k - 1 := by
  have hw : (BitVec.ofNat (m + 1) (2 ^ k)).setWidth m = BitVec.ofNat m (2 ^ k) :=
    BitVec.setWidth_ofNat_of_le (Nat.le_succ m) _
  rw [lowMask, hh, hw, pred_pow_toNat hk]

variable (hk : k ≤ m) (hh : q.seq.halfQ = BitVec.ofNat (m + 1) (2 ^ k)) (hc : c < 2 ^ m)
  (hb : q.seq.bfQ = BitVec.ofNat m c)
include hk hh hc hb

theorem bfJ_toNat : q.bfJ.toNat = c % 2 ^ k := by
  rw [bfJ, BitVec.toNat_and, lowMask_toNat hk hh, hb, BitVec.toNat_ofNat, Nat.mod_eq_of_lt hc,
    Nat.and_two_pow_sub_one_eq_mod]

private theorem bfHi_toNat : q.bfHi.toNat = c.ldiff (2 ^ k - 1) := by
  apply Nat.eq_of_testBit_eq
  intro i
  rw [Nat.testBit_ldiff, BitVec.testBit_toNat, bfHi, BitVec.getLsbD_and, BitVec.getLsbD_not, ← BitVec.testBit_toNat,
    ← BitVec.testBit_toNat, lowMask_toNat hk hh, hb, BitVec.toNat_ofNat, Nat.mod_eq_of_lt hc]
  by_cases hi : i < m
  · rw [decide_eq_true hi, Bool.true_and]
  · have h0 : c.testBit i = false :=
      Nat.testBit_lt_two_pow (lt_of_lt_of_le hc (Nat.pow_le_pow_right Nat.two_pos (Nat.le_of_not_lt hi)))
    rw [h0, Bool.false_and, Bool.false_and]

theorem issA_toNat : q.issA.toNat = lo (2 ^ k) c := by
  have hj := bfJ_toNat hk hh hc hb
  rw [issA, BitVec.toNat_or, BitVec.toNat_append, bfHi_toNat hk hh hc hb,
    BitVec.toNat_setWidth_of_le (Nat.le_succ m), hj, ← lo_eq_or, Nat.and_two_pow_sub_one_eq_mod]
  simp

theorem issB_toNat : q.issB.toNat = hi (2 ^ k) c := by
  have hlt : 2 ^ k < 2 ^ (m + 1) := Nat.pow_lt_pow_right Nat.one_lt_two (by omega)
  rw [issB, BitVec.toNat_or, issA_toNat hk hh hc hb, hh, BitVec.toNat_ofNat, Nat.mod_eq_of_lt hlt, hi_eq_or]

theorem jLast_eq : q.jLast = decide (c % 2 ^ k = 2 ^ k - 1) := by
  rw [jLast, ← lowMask_toNat hk hh, ← bfJ_toNat hk hh hc hb]
  by_cases h : q.bfJ = q.lowMask
  · rw [h]
    simp
  · have hne : q.bfJ.toNat ≠ q.lowMask.toNat := fun he => h (BitVec.eq_of_toNat_eq he)
    rw [decide_eq_false hne]
    exact beq_eq_false_iff_ne.mpr h

end Addresses

/-- Reversing an index of `n` bits: all bits reversed, then shifted down. -/
theorem rev_toNat {m n : Nat} (hn : n ≤ m + 1) (hm : m < 10) (a : BitVec (m + 1)) :
    (rev a (BitVec.ofNat 4 (m + 1 - n))).toNat = brev a.toNat n := by
  have hs : (BitVec.ofNat 4 (m + 1 - n)).toNat = m + 1 - n := by
    rw [BitVec.toNat_ofNat, Nat.mod_eq_of_lt (by omega)]
  apply Nat.eq_of_testBit_eq
  intro i
  rw [testBit_brev, BitVec.testBit_toNat, rev, BitVec.ushiftRight_eq', hs, BitVec.getLsbD_ushiftRight,
    BitVec.getLsbD_reverse, BitVec.getMsbD, BitVec.testBit_toNat]
  by_cases hi : i < n
  · have h1 : m + 1 - n + i < m + 1 := by omega
    have h2 : m + 1 - 1 - (m + 1 - n + i) = n - 1 - i := by omega
    rw [decide_eq_true h1, decide_eq_true hi, h2]
  · have h1 : ¬m + 1 - n + i < m + 1 := by omega
    rw [decide_eq_false h1, decide_eq_false hi, Bool.false_and, Bool.false_and]

end Yarv.Fft
