import Yarv.Lib.HalfUp
import Yarv.Periph.FftRun
import Yarv.Periph.FftTwiddleRom

/-!
# Full scaling

With every SCALE bit set a butterfly halves both of its results.  The halved sum of two halfwords is a halfword, so
the sum path never saturates.  The halved twiddled difference is one just in case it `Fits` before the rounding; as a
complex number it is hardly longer than the longer of the two samples, so a frame that stays a little inside the
circle of radius 32767 never leaves it.
-/

namespace Yarv

open Clocked Radix2

namespace FftTb

variable {y : Int} {A B w : C16} {R : ℝ}

/-- The products that the normalisation and the scaling bring back into 16 bits. -/
def Fits (y : Int) : Prop := -2147532800 ≤ y ∧ y < 2147434496

instance : Decidable (Fits y) := inferInstanceAs (Decidable (_ ∧ _))

private theorem sat16_exact_iff {v : Int} : (sat16 v).toInt = v ↔ -32768 ≤ v ∧ v ≤ 32767 := by
  constructor
  · intro h
    have hb := (sat16 v).toInt_lt
    have hb' := (sat16 v).le_toInt
    rw [h] at hb hb'
    norm_num at hb hb'
    omega
  · rintro ⟨h1, h2⟩
    unfold sat16
    rw [if_neg (by omega), if_neg (by omega), BitVec.toInt_ofInt]
    exact Int.bmod_eq_of_le_mul_two (by omega) (by omega)

private theorem scaleRnd_eq (v : Int) : scaleRnd v true = halfUp 0 v := rfl

private theorem norm_eq (v : Int) : (v + 16384) >>> (15 : Nat) = halfUp 14 v := by
  unfold halfUp
  norm_num

/-- The sum path never saturates. -/
private theorem sum_exact (x z : BitVec 16) :
    (sat16 (scaleRnd (x.toInt + z.toInt) true)).toInt = scaleRnd (x.toInt + z.toInt) true := by
  have hx := Fft.toInt_bounds x
  have hz := Fft.toInt_bounds z
  rw [sat16_exact_iff, scaleRnd_eq]
  constructor
  · rw [le_halfUp_iff]
    omega
  · apply Int.le_of_lt_add_one
    rw [halfUp_lt_iff]
    omega

/-- The difference path saturates just outside of `Fits`. -/
private theorem dif_exact_iff : (sat16 (scaleRnd ((y + 16384) >>> (15 : Nat)) true)).toInt =
    scaleRnd ((y + 16384) >>> (15 : Nat)) true ↔ Fits y := by
  have hup : halfUp 0 (halfUp 14 y) ≤ 32767 ↔ y < 2147434496 := by
    rw [← Int.lt_add_one_iff, halfUp_lt_iff, halfUp_lt_iff]
    norm_num
  have hlo : -32768 ≤ halfUp 0 (halfUp 14 y) ↔ -2147532800 ≤ y := by
    rw [le_halfUp_iff, le_halfUp_iff]
    norm_num
  rw [sat16_exact_iff, scaleRnd_eq, norm_eq, hup, hlo]
  rfl

/-! ### Moduli -/

/-- A sample as a complex number. -/
noncomputable def toComplex (c : C16) : ℂ := ⟨c.re.toInt, c.im.toInt⟩

private theorem norm_sq_toComplex (c : C16) : ‖toComplex c‖ ^ 2 = (c.re.toInt : ℝ) ^ 2 + (c.im.toInt : ℝ) ^ 2 := by
  rw [Complex.sq_norm, Complex.normSq_apply]
  change (c.re.toInt : ℝ) * c.re.toInt + (c.im.toInt : ℝ) * c.im.toInt = _
  ring

private theorem twiddled_eq (A B w : C16) :
    (toComplex A - toComplex B) * toComplex w = ⟨((twiddled A B w).1 : ℝ), ((twiddled A B w).2 : ℝ)⟩ := by
  apply Complex.ext
  · rw [Complex.mul_re]
    change ((A.re.toInt : ℝ) - B.re.toInt) * w.re.toInt - ((A.im.toInt : ℝ) - B.im.toInt) * w.im.toInt = _
    unfold twiddled
    push_cast
    ring
  · rw [Complex.mul_im]
    change ((A.re.toInt : ℝ) - B.re.toInt) * w.im.toInt + ((A.im.toInt : ℝ) - B.im.toInt) * w.re.toInt = _
    unfold twiddled
    push_cast
    ring

/-- The twiddled difference of two samples inside a circle. -/
private theorem twiddled_norm_le (hA : ‖toComplex A‖ ≤ R) (hB : ‖toComplex B‖ ≤ R) (hw : ‖toComplex w‖ ≤ 32768.6) :
    ‖(toComplex A - toComplex B) * toComplex w‖ ≤ 2 * R * 32768.6 := by
  have hR : 0 ≤ R := le_trans (norm_nonneg _) hA
  have hsub : ‖toComplex A - toComplex B‖ ≤ 2 * R := by
    calc ‖toComplex A - toComplex B‖ ≤ ‖toComplex A‖ + ‖toComplex B‖ := norm_sub_le _ _
      _ ≤ 2 * R := by linarith
  rw [norm_mul]
  exact mul_le_mul hsub hw (norm_nonneg _) (by linarith)

private theorem fits_of_norm_le (hA : ‖toComplex A‖ ≤ R) (hB : ‖toComplex B‖ ≤ R) (hw : ‖toComplex w‖ ≤ 32768.6)
    (hR : R ≤ 32765) :
    Fits (twiddled A B w).1 ∧ Fits (twiddled A B w).2 := by
  have hnorm := twiddled_norm_le hA hB hw
  have hfits : ∀ v : Int, |(v : ℝ)| ≤ ‖(toComplex A - toComplex B) * toComplex w‖ → Fits v := by
    intro v hv
    have hbound : |(v : ℝ)| ≤ 2147400000 := by
      calc |(v : ℝ)| ≤ 2 * R * 32768.6 := le_trans hv hnorm
        _ ≤ 2 * 32765 * 32768.6 := by
          apply mul_le_mul_of_nonneg_right _ (by norm_num)
          linarith
        _ ≤ 2147400000 := by norm_num
    have hint : |v| ≤ 2147400000 := by exact_mod_cast hbound
    have := abs_le.mp hint
    unfold Fits
    omega
  have hre := Complex.abs_re_le_norm ((toComplex A - toComplex B) * toComplex w)
  have him := Complex.abs_im_le_norm ((toComplex A - toComplex B) * toComplex w)
  rw [twiddled_eq] at hre him
  exact ⟨hfits _ (hre.trans_eq (by rw [twiddled_eq])), hfits _ (him.trans_eq (by rw [twiddled_eq]))⟩

/-- A result that is a rounded complex number is little longer than that number. -/
private theorem norm_le_of_rounded {z : ℂ} {c : C16} {r : ℝ} (hz : ‖z‖ ≤ r) (hre : |(c.re.toInt : ℝ) - z.re| ≤ 3 / 4)
    (him : |(c.im.toInt : ℝ) - z.im| ≤ 3 / 4) : ‖toComplex c‖ ≤ r + 1.1 := by
  have herr : ‖toComplex c - z‖ ≤ 1.4143 * (3 / 4) := norm_le_of_parts hre him
  have hsum : toComplex c = z + (toComplex c - z) := by ring
  rw [hsum]
  calc ‖z + (toComplex c - z)‖ ≤ ‖z‖ + ‖toComplex c - z‖ := norm_add_le _ _
    _ ≤ r + 1.1 := by linarith

private theorem sum_norm_le (hA : ‖toComplex A‖ ≤ R) (hB : ‖toComplex B‖ ≤ R) :
    ‖toComplex (butterfly true A B w).1‖ ≤ R + 2 := by
  have hpart : ∀ x z : BitVec 16,
      |((sat16 (scaleRnd (x.toInt + z.toInt) true)).toInt : ℝ) - ((x.toInt : ℝ) + z.toInt) / 2| ≤ 3 / 4 := by
    intro x z
    have herr := halfUp_error 0 (x.toInt + z.toInt)
    rw [sum_exact, scaleRnd_eq]
    push_cast at herr
    rw [pow_one] at herr
    linarith
  have hz : ‖(toComplex A + toComplex B) / 2‖ ≤ R := by
    rw [norm_div, Complex.norm_ofNat, div_le_iff₀ (by norm_num)]
    calc ‖toComplex A + toComplex B‖ ≤ ‖toComplex A‖ + ‖toComplex B‖ := norm_add_le _ _
      _ ≤ R * 2 := by linarith
  have h := norm_le_of_rounded hz (c := (butterfly true A B w).1) ?_ ?_
  · linarith
  · have hre : ((toComplex A + toComplex B) / 2).re = ((A.re.toInt : ℝ) + B.re.toInt) / 2 := Complex.div_ofNat_re _ 2
    rw [hre]
    exact hpart A.re B.re
  · have him : ((toComplex A + toComplex B) / 2).im = ((A.im.toInt : ℝ) + B.im.toInt) / 2 := Complex.div_ofNat_im _ 2
    rw [him]
    exact hpart A.im B.im

private theorem dif_norm_le (hA : ‖toComplex A‖ ≤ R) (hB : ‖toComplex B‖ ≤ R) (hw : ‖toComplex w‖ ≤ 32768.6)
    (hR : R ≤ 32765) :
    ‖toComplex (butterfly true A B w).2‖ ≤ R + 2 := by
  have hfit := fits_of_norm_le hA hB hw hR
  have hpart : ∀ v : Int, Fits v →
      |((sat16 (scaleRnd ((v + 16384) >>> (15 : Nat)) true)).toInt : ℝ) - (v : ℝ) / 65536| ≤ 3 / 4 := by
    intro v hv
    have h1 := halfUp_error 14 v
    have h2 := halfUp_error 0 (halfUp 14 v)
    rw [dif_exact_iff.mpr hv, scaleRnd_eq, norm_eq]
    norm_num at h1 h2
    have h1' := abs_le.mp h1
    have h2' := abs_le.mp h2
    rw [abs_le]
    constructor
    · linarith
    · linarith
  have hz : ‖(toComplex A - toComplex B) * toComplex w / 65536‖ ≤ R + 0.6 := by
    have hnorm := twiddled_norm_le hA hB hw
    rw [norm_div, Complex.norm_ofNat, div_le_iff₀ (by norm_num)]
    linarith
  have h := norm_le_of_rounded hz (c := (butterfly true A B w).2) ?_ ?_
  · linarith
  · have hre : (butterfly true A B w).2.re =
        sat16 (scaleRnd (((twiddled A B w).1 + 16384) >>> (15 : Nat)) true) := rfl
    rw [Complex.div_ofNat_re, twiddled_eq, hre]
    exact hpart _ hfit.1
  · have him : (butterfly true A B w).2.im =
        sat16 (scaleRnd (((twiddled A B w).2 + 16384) >>> (15 : Nat)) true) := rfl
    rw [Complex.div_ofNat_im, twiddled_eq, him]
    exact hpart _ hfit.2

/-! ### Stage after stage -/

section Stages

variable {nmax n : Nat} {scale : Word} {inverse : Bool} {tab : Nat → C16} {frame : Nat → C16}

/-- Every pair of every stage leaves a twiddled difference that fits. -/
def Headroom (nmax n : Nat) (scale : Word) (inverse : Bool) (tab : Nat → C16) (frame : Nat → C16) : Prop :=
  ∀ s < n, ∀ t < 2 ^ (n - 1),
    let A := stages nmax n scale inverse tab frame s (lo (2 ^ (n - 1 - s)) t)
    let B := stages nmax n scale inverse tab frame s (hi (2 ^ (n - 1 - s)) t)
    let w := twiddle inverse (tab (t % 2 ^ (n - 1 - s) * (2 ^ s * (nmax / 2 ^ n))))
    Fits (twiddled A B w).1 ∧ Fits (twiddled A B w).2

/-- Each stage lets the samples grow by two units at most. -/
private theorem stages_norm_le (hscale : ∀ s < n, scale.getLsbD s = true)
    (htab : ∀ k, ‖toComplex (twiddle inverse (tab k))‖ ≤ 32768.6)
    (hframe : ∀ i < 2 ^ n, ‖toComplex (frame i)‖ ≤ 32767 - 2 * n) {s : Nat} (hs : s ≤ n) :
    ∀ i < 2 ^ n, ‖toComplex (stages nmax n scale inverse tab frame s i)‖ ≤ 32767 - 2 * n + 2 * s := by
  induction s with
  | zero =>
    intro i hi
    have h := hframe i hi
    rw [Nat.cast_zero, mul_zero, add_zero]
    exact h
  | succ s ih =>
    have hsn : (s : ℝ) + 1 ≤ n := by exact_mod_cast hs
    intro i hi
    refine pass_forall (P := fun c => ‖toComplex c‖ ≤ 32767 - 2 * n + 2 * s)
      (Q := fun c => ‖toComplex c‖ ≤ 32767 - 2 * n + 2 * (s + 1 : Nat)) (by omega) (ih (by omega)) ?_ hi
    intro t A B hA hB
    have hR : 32767 - 2 * (n : ℝ) + 2 * s ≤ 32765 := by linarith
    have hsum := sum_norm_le (w := twiddle inverse (tab (t % 2 ^ (n - 1 - s) * (2 ^ s * (nmax / 2 ^ n))))) hA hB
    have hdif := dif_norm_le hA hB (htab (t % 2 ^ (n - 1 - s) * (2 ^ s * (nmax / 2 ^ n)))) hR
    unfold difOp
    rw [hscale s (by omega)]
    push_cast
    constructor
    · linarith
    · linarith

/-- Samples inside the circle leave headroom. -/
private theorem headroom_of_norm_le (hscale : ∀ s < n, scale.getLsbD s = true)
    (htab : ∀ k, ‖toComplex (twiddle inverse (tab k))‖ ≤ 32768.6)
    (hframe : ∀ i < 2 ^ n, ‖toComplex (frame i)‖ ≤ 32767 - 2 * n) : Headroom nmax n scale inverse tab frame := by
  intro s hs t ht
  have hsn : (s : ℝ) + 1 ≤ n := by exact_mod_cast hs
  have hk : n - 1 - s < n := by omega
  have hA := @stages_norm_le nmax _ _ _ _ _ hscale htab hframe s (Nat.le_of_lt hs) _ (lo_lt hk ht)
  have hB := @stages_norm_le nmax _ _ _ _ _ hscale htab hframe s (Nat.le_of_lt hs) _ (hi_lt hk ht)
  exact fits_of_norm_le hA hB (htab _) (by linarith)

/-- A circle, in whole numbers. -/
private theorem norm_le_of_sq_le {c : C16} {r : Nat} (h : c.re.toInt ^ 2 + c.im.toInt ^ 2 ≤ (r : Int) ^ 2) :
    ‖toComplex c‖ ≤ r := by
  apply le_of_sq_le_sq _ (Nat.cast_nonneg r)
  rw [norm_sq_toComplex]
  exact_mod_cast h

private theorem twiddle_norm_le (inverse : Bool) (addr : BitVec 9) :
    ‖toComplex (twiddle inverse (unpack (FftTwiddleRom.data addr)))‖ ≤ 32768.6 := by
  have h := FftTwiddleRom.twiddle_lengthSq_le inverse addr
  have hreal : ((FftTwiddleRom.lengthSq (twiddle inverse (unpack (FftTwiddleRom.data addr))) : Int) : ℝ) ≤
      1073778733 := by
    exact_mod_cast h
  unfold FftTwiddleRom.lengthSq at hreal
  push_cast at hreal
  apply le_of_sq_le_sq _ (by norm_num)
  rw [norm_sq_toComplex]
  nlinarith

end Stages

end FftTb

namespace Fft

/-! ### The engine -/

variable {m : Nat} {rom : BitVec m → Word} {s : Fft m} {j : FftJob m} {frame : Nat → C16}
  {is : Nat → RegAccess (BitVec 11) Unit}

/-- `sat16` does not change `v`. -/
def Exact (v : BitVec 21) : Prop := (sat16 v).toInt = v.toInt

/-- The four saturations in front of slot 4 change nothing. -/
structure Unclipped (t : FftTag m) (q : FftSlot3) : Prop where
  aRe : Exact (scaleRnd (q.sumR.signExtend 21) t.scale)
  aIm : Exact (scaleRnd (q.sumI.signExtend 21) t.scale)
  bRe : Exact (if t.copy then q.difR.signExtend 21 else scaleRnd (norm (mulR q)) t.scale)
  bIm : Exact (if t.copy then q.difI.signExtend 21 else scaleRnd (norm (mulI q)) t.scale)

/-- No butterfly of the transform begun in cycle `t` is clipped. -/
def NeverClips (rom : BitVec m → Word) (s : Fft m) (is : Nat → RegAccess (BitVec 11) Unit) (t cycles : Nat) : Prop :=
  ∀ u, t < u → u ≤ t + cycles → (run rom s is u).seq.vldQ.getLsbD 2 = true →
    Unclipped (run rom s is u).s3Tag (run rom s is u).s3

private theorem exact_iff {v : BitVec 21} {y : Int} (hv : v.toInt = y) : Exact v ↔ (FftTb.sat16 y).toInt = y := by
  unfold Exact
  rw [sat16_toInt, hv]

private theorem exact_signExtend (x : BitVec 16) : Exact ((x.signExtend 17).signExtend 21) := by
  unfold Exact
  rw [sat16_signExtend, BitVec.toInt_signExtend_of_le (by decide), BitVec.toInt_signExtend_of_le (by decide)]

private theorem exact_sum (x y : BitVec 16) :
    Exact (scaleRnd ((x.signExtend 17 + y.signExtend 17).signExtend 21) true) :=
  (exact_iff (scaled_sum_toInt x y true)).mpr (FftTb.sum_exact x y)

/-- A butterfly of a fully scaled transform. -/
private theorem unclipped_iff (hscale : j.scale = BitVec.allOnes (m + 1)) (x : Nat → Word) {p t : Nat} :
    Unclipped (j.tag p t) (j.slot3 rom x p t) ↔ (p < j.n →
      FftTb.Fits (FftTb.twiddled (FftTb.unpack (x (lo (2 ^ j.bit p) t))) (FftTb.unpack (x (hi (2 ^ j.bit p) t)))
        (FftTb.twiddle j.inverse (FftTb.unpack (j.tw rom p t)))).1 ∧
      FftTb.Fits (FftTb.twiddled (FftTb.unpack (x (lo (2 ^ j.bit p) t))) (FftTb.unpack (x (hi (2 ^ j.bit p) t)))
        (FftTb.twiddle j.inverse (FftTb.unpack (j.tw rom p t)))).2) := by
  unfold FftJob.slot3 FftJob.slot2
  by_cases hp : j.n ≤ p
  · have hcopy : j.copy p = true := decide_eq_true hp
    have hsc : (j.tag p t).scale = false := by
      change (!j.copy p && _) = false
      rw [hcopy]
      rfl
    have hct : (j.tag p t).copy = true := hcopy
    have hnone : ∀ v : BitVec 21, scaleRnd v false = v := fun v => rfl
    constructor
    · intro _ hlt
      omega
    · intro _
      refine ⟨?_, ?_, ?_, ?_⟩
      · rw [hsc, hnone, hcopy]
        exact exact_signExtend _
      · rw [hsc, hnone, hcopy]
        exact exact_signExtend _
      · rw [hct, if_pos rfl, hcopy]
        exact exact_signExtend _
      · rw [hct, if_pos rfl, hcopy]
        exact exact_signExtend _
  · have hcopy : j.copy p = false := decide_eq_false hp
    have h1 := j.le_max
    have hsc : (j.tag p t).scale = true := by
      change (!j.copy p && j.scale.getLsbD p) = true
      rw [hcopy, hscale, BitVec.getLsbD_allOnes, decide_eq_true (by omega)]
      rfl
    have hct : (j.tag p t).copy = false := hcopy
    obtain ⟨⟨hr, hrb⟩, hi, hib⟩ :=
      mul_toInt j.inverse (x (lo (2 ^ j.bit p) t)) (x (hi (2 ^ j.bit p) t)) (j.tw rom p t)
    have er := scaled_norm_toInt hrb true
    have ei := scaled_norm_toInt hib true
    rw [hr] at er
    rw [hi] at ei
    rw [hcopy]
    constructor
    · rintro ⟨_, _, hre, him⟩ _
      rw [hct, hsc, if_neg Bool.false_ne_true, exact_iff er] at hre
      rw [hct, hsc, if_neg Bool.false_ne_true, exact_iff ei] at him
      exact ⟨FftTb.dif_exact_iff.mp hre, FftTb.dif_exact_iff.mp him⟩
    · intro hfits
      obtain ⟨hfr, hfi⟩ := hfits (Nat.lt_of_not_le hp)
      refine ⟨?_, ?_, ?_, ?_⟩
      · rw [hsc]
        exact exact_sum _ _
      · rw [hsc]
        exact exact_sum _ _
      · rw [hct, hsc, if_neg Bool.false_ne_true, exact_iff er]
        exact FftTb.dif_exact_iff.mpr hfr
      · rw [hct, hsc, if_neg Bool.false_ne_true, exact_iff ei]
        exact FftTb.dif_exact_iff.mpr hfi

/-- What slot 3 holds when it is read, and where its operands come from. -/
private theorem JobAt.slot3_job {own : Bool} {p c : Nat} {q : Fft m} (h : JobAt rom j own frame p c q)
    (hscale : j.scale = BitVec.allOnes (m + 1)) {t : Nat} (ht : t < j.half) (hc : c = t + 3) :
    Unclipped q.s3Tag q.s3 ↔ (p < j.n →
      let A := j.stage rom frame p (lo (2 ^ (j.n - 1 - p)) t)
      let B := j.stage rom frame p (hi (2 ^ (j.n - 1 - p)) t)
      let w := FftTb.twiddle j.inverse (FftJob.tab rom (t % 2 ^ (j.n - 1 - p) * (2 ^ p * (2 ^ (m + 1) / 2 ^ j.n))))
      FftTb.Fits (FftTb.twiddled A B w).1 ∧ FftTb.Fits (FftTb.twiddled A B w).2) := by
  obtain ⟨x, d, hx, hpass⟩ := h.pass
  obtain ⟨htag, hslot⟩ := hpass.slot3 t ht hc
  rw [htag, hslot, unclipped_iff hscale]
  apply imp_congr_right
  intro hp
  have hnp : ¬j.n ≤ p := Nat.not_le_of_lt hp
  have hbit : j.bit p = j.n - 1 - p := by
    unfold FftJob.bit FftTb.passBit
    rw [if_neg hnp]
  have hmin : min p j.n = p := min_eq_left (Nat.le_of_lt hp)
  have htw : FftTb.unpack (j.tw rom p t) =
      FftJob.tab rom (t % 2 ^ (j.n - 1 - p) * (2 ^ p * (2 ^ (m + 1) / 2 ^ j.n))) := by
    rw [← FftJob.twIdx_eq hnp]
    rfl
  rw [hx _ (lo_lt (j.bit_lt p) ht), hx _ (hi_lt (j.bit_lt p) ht), htw, hbit, hmin]

/-- A fully scaled transform is clipped nowhere if and only if every stage leaves headroom. -/
private theorem neverClips_iff {own : Bool} {t : Nat} (h : JobAt rom j own frame 0 0 (run rom s is (t + 1)))
    (hscale : j.scale = BitVec.allOnes (m + 1)) :
    NeverClips rom s is t j.cycles ↔
      FftTb.Headroom (2 ^ (m + 1)) j.n (j.scale.setWidth 32) j.inverse (FftJob.tab rom) frame := by
  constructor
  · intro hnever p hp k hk
    have hkh : k < j.half := hk
    have hlt : k + 3 < j.half + 5 := by omega
    have hdiv : (p * (j.half + 5) + (k + 3)) / (j.half + 5) = p := by
      rw [Nat.mul_comm, Nat.mul_add_div (by omega), Nat.div_eq_of_lt hlt, Nat.add_zero]
    have hmod : (p * (j.half + 5) + (k + 3)) % (j.half + 5) = k + 3 := by
      rw [Nat.mul_comm, Nat.mul_add_mod, Nat.mod_eq_of_lt hlt]
    have hcycles : p * (j.half + 5) + (k + 3) < j.cycles := by
      have hpt : p + 1 ≤ j.total := by
        unfold FftJob.total
        omega
      have hmul := Nat.mul_le_mul_right (j.half + 5) hpt
      rw [Nat.succ_mul] at hmul
      unfold FftJob.cycles
      omega
    have hjob := cycle_of_job h hcycles
    rw [hdiv, hmod] at hjob
    have hvld := hjob.seq.vld_slot (i := 2) hkh (by omega) rfl
    have hun := hnever (t + 1 + (p * (j.half + 5) + (k + 3))) (by omega) (by omega) hvld
    exact (hjob.slot3_job hscale hkh rfl).mp hun hp
  · intro hroom u hlt hle hvld
    obtain ⟨k, rfl⟩ : ∃ k, u = t + 1 + k := ⟨u - (t + 1), by omega⟩
    have hk : k < j.cycles := by omega
    have hjob := cycle_of_job h hk
    rw [hjob.seq.vld 2 (by omega)] at hvld
    have hc := of_decide_eq_true hvld
    have hkh : k % (j.half + 5) - 3 < j.half := by omega
    rw [hjob.slot3_job hscale hkh (by omega)]
    intro hp
    exact hroom _ hp _ hkh

/-- The frame has room inside the circle of radius 32767, two units a stage. -/
def InCircle (n : Nat) (frame : Nat → C16) : Prop :=
  ∀ i < 2 ^ n, (frame i).re.toInt ^ 2 + (frame i).im.toInt ^ 2 ≤ ((32767 - 2 * n : Nat) : Int) ^ 2

/-- The engine with its twiddle table, every SCALE bit set: it is clipped nowhere if and only if every stage leaves
headroom, and it is clipped nowhere for a frame in the circle. -/
theorem full_scale_iff {s : Fft 9} {is : Nat → RegAccess (BitVec 11) Unit} (h : s.IsReset) {t : Nat}
    (hstart : (run FftTwiddleRom.data s is t).startPulse (is t) = true)
    (hscale : (run FftTwiddleRom.data s is t).regs.scaleQ = BitVec.allOnes 10) :
    let n := (run FftTwiddleRom.data s is t).regs.log2nQ.toNat
    let cycles := (n + n % 2) * (2 ^ (n - 1) + 5)
    let frame := (run FftTwiddleRom.data s is t).cpuFrame
    (NeverClips FftTwiddleRom.data s is t cycles ↔
        FftTb.Headroom 1024 n ((run FftTwiddleRom.data s is t).regs.scaleQ.setWidth 32)
          (run FftTwiddleRom.data s is t).regs.inverseQ (FftJob.tab FftTwiddleRom.data) frame) ∧
      (InCircle n frame → NeverClips FftTwiddleRom.data s is t cycles) := by
  obtain ⟨hrest, hjob⟩ := job_of_start (by decide) (by decide) h hstart
  refine ⟨neverClips_iff hjob hscale, ?_⟩
  intro hcircle
  have hmax : (run FftTwiddleRom.data s is t).regs.log2nQ.toNat ≤ 10 := hrest.le_max
  apply (neverClips_iff hjob hscale).mpr
  apply FftTb.headroom_of_norm_le
  · intro p hp
    have hp10 : p < 10 := lt_of_lt_of_le hp hmax
    change ((run FftTwiddleRom.data s is t).regs.scaleQ.setWidth 32).getLsbD p = true
    rw [hscale, BitVec.getLsbD_setWidth, BitVec.getLsbD_allOnes, decide_eq_true (by omega), decide_eq_true (by omega)]
    rfl
  · intro k
    exact FftTb.twiddle_norm_le _ _
  · intro i hi
    have hnorm := FftTb.norm_le_of_sq_le (hcircle i hi)
    rw [Nat.cast_sub (by omega)] at hnorm
    push_cast at hnorm
    exact hnorm

/-- LOG2N is set to 3, the samples 1, 5 and 6 well inside the circle, and the transform is started. -/
def circleStores : Nat → RegAccess (BitVec 11) Unit
  | 0 => ⟨some ⟨3, 3, 0xF⟩, none, ()⟩
  | 1 => ⟨some ⟨1025, 0xD8F04E20, 0xF⟩, none, ()⟩
  | 2 => ⟨some ⟨1029, 0x2710B1E0, 0xF⟩, none, ()⟩
  | 3 => ⟨some ⟨1030, 0x7D005DC, 0xF⟩, none, ()⟩
  | 4 => ⟨some (ctrlStore 1), none, ()⟩
  | _ => ⟨none, none, ()⟩

/-- Nothing of them is clipped, and every stage has headroom. -/
theorem full_scale_circle :
    let start := run FftTwiddleRom.data (outOfReset 9) circleStores 4
    (start.cpuFrame 1 = ⟨20000, -10000⟩ ∧ start.cpuFrame 5 = ⟨-20000, 10000⟩ ∧ start.cpuFrame 6 = ⟨1500, 2000⟩) ∧
      InCircle 3 start.cpuFrame ∧ NeverClips FftTwiddleRom.data (outOfReset 9) circleStores 4 36 ∧
      FftTb.Headroom 1024 3 ((BitVec.allOnes 10).setWidth 32) false (FftJob.tab FftTwiddleRom.data)
        start.cpuFrame := by
  have hn : (run FftTwiddleRom.data (outOfReset 9) circleStores 4).regs.log2nQ = 3 := by decide +kernel
  have hscale : (run FftTwiddleRom.data (outOfReset 9) circleStores 4).regs.scaleQ = BitVec.allOnes 10 := by
    decide +kernel
  have hinv : (run FftTwiddleRom.data (outOfReset 9) circleStores 4).regs.inverseQ = false := by decide +kernel
  have hcircle : InCircle 3 (run FftTwiddleRom.data (outOfReset 9) circleStores 4).cpuFrame := by
    unfold InCircle
    decide +kernel
  have h := @full_scale_iff (outOfReset 9) circleStores ⟨rfl, rfl⟩ 4 (by decide +kernel) hscale
  simp only [hn, hscale, hinv] at h
  have hnever : NeverClips FftTwiddleRom.data (outOfReset 9) circleStores 4 36 := h.2 hcircle
  exact ⟨by decide +kernel, hcircle, hnever, h.1.mp hnever⟩

instance (v : BitVec 21) : Decidable (Exact v) := inferInstanceAs (Decidable (_ = _))

/-- LOG2N is set to 3, the samples 1 and 5 to opposite corners, and the transform is started. -/
def cornerStores : Nat → RegAccess (BitVec 11) Unit
  | 0 => ⟨some ⟨3, 3, 0xF⟩, none, ()⟩
  | 1 => ⟨some ⟨1025, 0x7FFF7FFF, 0xF⟩, none, ()⟩
  | 2 => ⟨some ⟨1029, 0x80008000, 0xF⟩, none, ()⟩
  | 3 => ⟨some (ctrlStore 1), none, ()⟩
  | _ => ⟨none, none, ()⟩

/-- The difference of the corners, turned by 45 degrees, is half as long again as fits. -/
theorem full_scale_clips :
    (run FftTwiddleRom.data (outOfReset 9) cornerStores 3).startPulse (cornerStores 3) = true ∧
      (run FftTwiddleRom.data (outOfReset 9) cornerStores 3).regs.scaleQ = BitVec.allOnes 10 ∧
      (run FftTwiddleRom.data (outOfReset 9) cornerStores 3).regs.log2nQ = 3 ∧
      (run FftTwiddleRom.data (outOfReset 9) cornerStores 3).cpuFrame 1 = ⟨32767, 32767⟩ ∧
      (run FftTwiddleRom.data (outOfReset 9) cornerStores 3).cpuFrame 5 = ⟨-32768, -32768⟩ ∧
      ¬NeverClips FftTwiddleRom.data (outOfReset 9) cornerStores 3 36 := by
  refine ⟨by decide +kernel, by decide +kernel, by decide +kernel, by decide +kernel, by decide +kernel, ?_⟩
  intro h
  have hclip := (h 8 (by decide) (by decide) (by decide +kernel)).bRe
  revert hclip
  decide +kernel

end Fft

end Yarv
