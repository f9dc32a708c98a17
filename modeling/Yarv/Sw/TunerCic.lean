import Mathlib.Data.BitVec
import Yarv.Lib.Cic
import Yarv.Lib.Signed
import Yarv.Sw.Tuner

/-!
# The decimator of the tuner

`tuner_push_input` for every decimation that `tuner_set_decim` can set up, and the two loops that call it.  The
integrators of the CIC wrap again and again; the value it puts out is exact all the same.
-/

namespace Yarv.Tuner

open Cic Signed

/-! ### The code -/

/-- `tuner_decim` and `tuner_cic_shift`. -/
structure Decim where
  decim : Word
  cicShift : Word

/-- The loop of `tuner_set_decim`. -/
def setDecimLoop (r sh : Word) : Word := if h : (1#32).ult r then setDecimLoop (r >>> 1) (sh + 2) else sh
termination_by r.toNat
decreasing_by
  rw [BitVec.ult, decide_eq_true_eq] at h
  rw [BitVec.toNat_ushiftRight, Nat.shiftRight_one]
  exact Nat.div_lt_self (by omega) (by decide)

def tuner_set_decim (r : Word) : Decim := ⟨r, setDecimLoop r 0⟩

/-- `tuner_push_input` at a decimation. -/
def pushInput (b : Decim) (v : Vars) (x : Word) : Vars :=
  let v : Vars :=
    { v with
      rawMin := if x.slt v.rawMin then x else v.rawMin
      rawMax := if v.rawMax.slt x then x else v.rawMax
      cicI1 := v.cicI1 + x
      cicI2 := v.cicI2 + (v.cicI1 + x) }
  if (v.cicPhase + 1).ult b.decim then { v with cicPhase := v.cicPhase + 1 }
  else
    let c1 := v.cicI2 - v.cicD1
    let s := (c1 - v.cicD2).sshiftRight b.cicShift.toNat
    let y := v.dcY + (s - v.dcX1) - v.dcY.sshiftRight TUNER_DC_SHIFT
    { v with
      cicPhase := 0
      cicD1 := v.cicI2
      cicD2 := c1
      dcX1 := s
      dcY := y
      ring := Function.update v.ring v.ringPos (clip y)
      ringPos := v.ringPos + 1
      ringCount := v.ringCount + 1
      dirty := if v.dirty ≠ 0 then v.dirty - 1 else v.dirty }

/-- A word of the microphone, and whether the overrun flag is found set behind it. -/
structure Delivery where
  word : BitVec 24
  ovr : Bool
  deriving Repr

/-- What the chain is given: the word `i2s_read` extends, on the scale of 16 bits. -/
def Delivery.input (d : Delivery) : Word := (d.word.signExtend 32).sshiftRight TUNER_IN_SHIFT

/-- The loop of `tuner_pump`; it blocks where no word comes any more. -/
def pumpLoop (b : Decim) (target : Word) : Vars → List Delivery → Vars × List Delivery
  | v, [] => (v, [])
  | v, d :: ds =>
    if v.ringCount.ult target then
      let v := pushInput b v d.input
      pumpLoop b target (if d.ovr then v.overrun else v) ds
    else (v, d :: ds)

def tuner_pump (b : Decim) (n : Word) (v : Vars) (ds : List Delivery) : Vars × List Delivery :=
  pumpLoop b (v.ringCount + n) v ds

/-- The loop of `tuner_drain` over the `k` words it finds. -/
def drainLoop (b : Decim) : Nat → Vars → List Delivery → Vars × List Delivery
  | 0, v, ds => (v, ds)
  | _ + 1, v, [] => (v, [])
  | k + 1, v, d :: ds => drainLoop b k (pushInput b v d.input) ds

def tuner_drain (b : Decim) (k : Nat) (ovr : Bool) (v : Vars) (ds : List Delivery) : Vars × List Delivery :=
  let (v, ds) := drainLoop b k v ds
  (if ovr then v.overrun else v, ds)

/-- A call of the chain: a `tuner_pump` of `n` samples, or a `tuner_drain` that finds `k` words and perhaps an
overrun. -/
inductive Call
  | pump (n : Word)
  | drain (k : Nat) (ovr : Bool)

def Call.run (b : Decim) : Call → Vars × List Delivery → Vars × List Delivery
  | .pump n, s => tuner_pump b n s.1 s.2
  | .drain k ovr, s => tuner_drain b k ovr s.1 s.2

/-- The static variables at the start. -/
def statics : Vars where
  ring := fun _ => 0
  ringPos := 0
  ringCount := 0
  cicI1 := 0
  cicI2 := 0
  cicD1 := 0
  cicD2 := 0
  cicPhase := 0
  dcX1 := 0
  dcY := 0
  dirty := BitVec.ofNat 32 TUNER_N
  rawMin := 0
  rawMax := 0
  frameOvr := false
  ovrCount := 0

/-- The chain behind a number of calls, and the words it has not taken. -/
def calls (b : Decim) (ds : List Delivery) (cs : List Call) : Vars × List Delivery :=
  cs.foldl (fun s c => c.run b s) (statics, ds)

/-! ### What the chain is to compute -/

/-- How many of `len` words have been taken behind a call that finds `n` taken.  `tuner_pump` goes on to the `m`-th
output from here, unless its target wraps; `tuner_drain` takes the words it finds; and neither takes a word that does
not come. -/
def Call.taken (r len n : ℕ) : Call → ℕ
  | .pump m =>
    if n / 2 ^ r % 2 ^ 32 + m.toNat < 2 ^ 32 then min len (max n ((n / 2 ^ r + m.toNat) * 2 ^ r)) else n
  | .drain k _ => min len (n + k)

/-- How many words the calls take. -/
def taken (r len : ℕ) (cs : List Call) : ℕ := cs.foldl (Call.taken r len) 0

/-- The samples of a sequence of words. -/
def samples (ds : List Delivery) (i : ℕ) : ℤ := ((ds[i]?).map fun d => d.word.toInt / 2 ^ TUNER_IN_SHIFT).getD 0

/-- The `k`-th decimated value. -/
def decimated (r : ℕ) (x : ℕ → ℤ) (k : ℕ) : ℤ := triangle (2 ^ r) x (k * 2 ^ r) / ((2 ^ r : ℕ) : ℤ) ^ 2

/-- The state of the DC blocker behind `k` decimated values. -/
def unbiased (r : ℕ) (x : ℕ → ℤ) (k : ℕ) : ℤ := blocked TUNER_DC_SHIFT (decimated r x) k

/-- The clamp to 16 bits. -/
def clamp (z : ℤ) : ℤ := max (-32768) (min 32767 z)

/-- No value on the way to the next state leaves the 32 bits. -/
structure NoOverflow (r : ℕ) (x : ℕ → ℤ) (k : ℕ) : Prop where
  change : Fits 31 (decimated r x (k + 1) - decimated r x k)
  sum : Fits 31 (unbiased r x k + (decimated r x (k + 1) - decimated r x k))
  state : Fits 31 (unbiased r x (k + 1))

/-- The chain behind `n` samples. -/
structure Exact (r : ℕ) (x : ℕ → ℤ) (n : ℕ) (v : Vars) : Prop where
  value : v.dcX1.toInt = decimated r x (n / 2 ^ r)
  state : v.dcY.toInt = unbiased r x (n / 2 ^ r)
  ringPos : v.ringPos = BitVec.ofNat 10 (n / 2 ^ r)
  ring : ∀ k < n / 2 ^ r, n / 2 ^ r ≤ k + TUNER_N → (v.ring (BitVec.ofNat 10 k)).toInt = clamp (unbiased r x (k + 1))

/-! ### Words as integers -/

section Words

private theorem clip_toInt (y : Word) : (clip y).toInt = clamp y.toInt := by
  have hmax : (32767#32).toInt = 32767 := rfl
  have hmin : (-32768 : Word).toInt = -32768 := rfl
  unfold clip clamp
  rw [BitVec.slt, BitVec.slt, hmax, hmin]
  by_cases hhi : 32767 < y.toInt
  · rw [decide_eq_true hhi, if_pos rfl, min_eq_left hhi.le]
    rfl
  rw [decide_eq_false hhi, if_neg Bool.false_ne_true, min_eq_right (by omega)]
  by_cases hlo : y.toInt < -32768
  · rw [decide_eq_true hlo, if_pos rfl, max_eq_left hlo.le]
    rfl
  · rw [decide_eq_false hlo, if_neg Bool.false_ne_true, max_eq_right (by omega), BitVec.toInt_setWidth]
    have hlow : Int.bmod y.toNat (2 ^ 16) = Int.bmod y.toInt (2 ^ 16) := by
      rw [BitVec.toInt_eq_toNat_bmod, Int.bmod_bmod_of_dvd (by decide)]
    rw [hlow]
    exact Int.bmod_eq_of_le (by omega) (by omega)

private theorem input_eq (d : Delivery) : d.input = ((d.word.toInt / 2 ^ TUNER_IN_SHIFT : ℤ) : Word) := by
  have hlo := BitVec.le_toInt d.word
  have hhi := BitVec.toInt_lt (x := d.word)
  apply BitVec.eq_of_toInt_eq
  rw [Delivery.input, toInt_sshiftRight, BitVec.toInt_signExtend_of_le (by decide), toInt_cast]
  unfold Fits TUNER_IN_SHIFT
  omega

/-- The loop of `tuner_set_decim` takes the logarithm twice. -/
private theorem setDecimLoop_pow (k : ℕ) (hk : k < 32) (sh : Word) :
    setDecimLoop (BitVec.ofNat 32 (2 ^ k)) sh = sh + BitVec.ofNat 32 (2 * k) := by
  induction k generalizing sh with
  | zero =>
    rw [setDecimLoop, dif_neg (by decide)]
    simp
  | succ k ih =>
    have hlt : 2 ^ (k + 1) < 2 ^ 32 := Nat.pow_lt_pow_right (by decide) hk
    have hpos : 0 < 2 ^ k := Nat.two_pow_pos k
    have hcond : (1#32).ult (BitVec.ofNat 32 (2 ^ (k + 1))) = true := by
      rw [BitVec.ult, decide_eq_true_eq, BitVec.toNat_ofNat, BitVec.toNat_ofNat, Nat.mod_eq_of_lt hlt]
      omega
    have hhalf : BitVec.ofNat 32 (2 ^ (k + 1)) >>> 1 = BitVec.ofNat 32 (2 ^ k) := by
      apply BitVec.eq_of_toNat_eq
      rw [BitVec.toNat_ushiftRight, BitVec.toNat_ofNat, BitVec.toNat_ofNat, Nat.mod_eq_of_lt hlt,
        Nat.mod_eq_of_lt (by omega), Nat.shiftRight_one, Nat.pow_succ, Nat.mul_div_cancel _ (by decide)]
    have htwo : (2 : Word) = BitVec.ofNat 32 2 := rfl
    rw [setDecimLoop, dif_pos hcond, hhalf, ih (by omega), htwo, add_assoc, ← BitVec.ofNat_add]
    congr 2
    omega

end Words

/-! ### Sizes -/

section Sizes

variable {r : ℕ} {x : ℕ → ℤ}

theorem samples_bounds (ds : List Delivery) (i : ℕ) : -2 ^ 15 ≤ samples ds i ∧ samples ds i ≤ 2 ^ 15 - 1 := by
  unfold samples
  cases ds[i]? with
  | none => exact ⟨by decide, by decide⟩
  | some d =>
    have hlo := BitVec.le_toInt d.word
    have hhi := BitVec.toInt_lt (x := d.word)
    change -2 ^ 15 ≤ d.word.toInt / 2 ^ TUNER_IN_SHIFT ∧ d.word.toInt / 2 ^ TUNER_IN_SHIFT ≤ 2 ^ 15 - 1
    unfold TUNER_IN_SHIFT
    omega

/-- The output of the combs fits into the 32 bits. -/
private theorem triangle_fits (hr : r ≤ 7) (hx : ∀ i, -2 ^ 15 ≤ x i ∧ x i ≤ 2 ^ 15 - 1) (n : ℕ) :
    Fits 31 (triangle (2 ^ r) x n) := by
  obtain ⟨hlo, hhi⟩ := triangle_bounds hx (by decide) (by decide) (2 ^ r) n
  have hgain : ((2 ^ r : ℕ) : ℤ) ^ 2 ≤ 2 ^ 14 := by
    have hle : 2 ^ r ≤ 2 ^ 7 := Nat.pow_le_pow_right (by decide) hr
    calc ((2 ^ r : ℕ) : ℤ) ^ 2 ≤ ((2 ^ 7 : ℕ) : ℤ) ^ 2 := by gcongr
      _ = 2 ^ 14 := by norm_num
  unfold Fits
  constructor
  · linarith
  · linarith

/-- A decimated value has 16 bits again. -/
private theorem decimated_bounds (hx : ∀ i, -2 ^ 15 ≤ x i ∧ x i ≤ 2 ^ 15 - 1) (k : ℕ) :
    -2 ^ 15 ≤ decimated r x k ∧ decimated r x k ≤ 2 ^ 15 - 1 := by
  obtain ⟨hlo, hhi⟩ := triangle_bounds hx (by decide) (by decide) (2 ^ r) (k * 2 ^ r)
  have hpos : (0 : ℤ) < ((2 ^ r : ℕ) : ℤ) ^ 2 := by positivity
  unfold decimated
  constructor
  · rw [Int.le_ediv_iff_mul_le hpos, mul_comm]
    exact hlo
  · rw [← Int.lt_add_one_iff, Int.ediv_lt_iff_lt_mul hpos]
    linarith

private theorem decimated_zero (r : ℕ) (x : ℕ → ℤ) : decimated r x 0 = 0 := by
  have hzero : triangle (2 ^ r) x (0 * 2 ^ r) = 0 := by
    apply Finset.sum_eq_zero
    intro j _
    rw [past_of_le (by omega), mul_zero]
  rw [decimated, hzero, Int.zero_ediv]

private theorem unbiased_bounds (hx : ∀ i, -2 ^ 15 ≤ x i ∧ x i ≤ 2 ^ 15 - 1) (k : ℕ) :
    -2 ^ 16 ≤ unbiased r x k ∧ unbiased r x k ≤ 2 ^ 16 := by
  have hs : ∀ k, -2 ^ 15 ≤ decimated r x k ∧ decimated r x k ≤ 2 ^ 15 := by
    intro k
    obtain ⟨hlo, hhi⟩ := decimated_bounds (r := r) hx k
    exact ⟨hlo, by linarith⟩
  exact blocked_bounds (decimated_zero r x) hs k

private theorem no_overflow (hx : ∀ i, -2 ^ 15 ≤ x i ∧ x i ≤ 2 ^ 15 - 1) (k : ℕ) : NoOverflow r x k := by
  have hs := decimated_bounds (r := r) hx k
  have hs' := decimated_bounds (r := r) hx (k + 1)
  have hy := unbiased_bounds (r := r) hx k
  have hy' := unbiased_bounds (r := r) hx (k + 1)
  constructor
  · unfold Fits
    omega
  · unfold Fits
    omega
  · unfold Fits
    omega

end Sizes

/-! ### One sample -/

section Push

variable {r n : ℕ} {x : ℕ → ℤ} {v : Vars} {z : ℤ}

def Vars.filter (v : Vars) : Cic.Filter Word := ⟨v.cicI1, v.cicI2, v.cicD1, v.cicD2⟩

/-- The integers as the words the filter works on. -/
def words (x : ℕ → ℤ) (i : ℕ) : Word := (x i : Word)

/-- The chain behind `n` samples, with its filter and its counters. -/
structure Chained (r : ℕ) (x : ℕ → ℤ) (n : ℕ) (v : Vars) : Prop extends Exact r x n v where
  filter : v.filter.Holds (2 ^ r) (words x) n (n / 2 ^ r * 2 ^ r)
  phase : v.cicPhase = BitVec.ofNat 32 (n % 2 ^ r)
  count : v.ringCount = BitVec.ofNat 32 (n / 2 ^ r)

theorem chained_statics (r : ℕ) (x : ℕ → ℤ) : Chained r x 0 statics where
  value := by
    rw [Nat.zero_div, decimated_zero]
    rfl
  state := by
    rw [Nat.zero_div]
    rfl
  ringPos := by
    rw [Nat.zero_div]
    rfl
  ring := by
    intro k hk
    rw [Nat.zero_div] at hk
    exact absurd hk (Nat.not_lt_zero k)
  filter := by
    rw [Nat.zero_div, Nat.zero_mul]
    exact Cic.Filter.Holds.start
  phase := by
    rw [Nat.zero_mod]
    rfl
  count := by
    rw [Nat.zero_div]
    rfl

/-- The decimation by `2 ^ r`. -/
abbrev decimBy (r : ℕ) : Decim := tuner_set_decim (BitVec.ofNat 32 (2 ^ r))

private theorem decimBy_shift (hr : r ≤ 7) : (decimBy r).cicShift.toNat = 2 * r := by
  have h : (decimBy r).cicShift = 0 + BitVec.ofNat 32 (2 * r) := setDecimLoop_pow r (by omega) 0
  rw [h, zero_add, BitVec.toNat_ofNat]
  omega

/-- The board's chain is the one of its decimation. -/
theorem push_input_board (v : Vars) (x : Word) : tuner_push_input v x = pushInput (decimBy 3) v x := by
  have hb : decimBy 3 = ⟨BitVec.ofNat 32 TUNER_DECIM, BitVec.ofNat 32 TUNER_CIC_SHIFT⟩ := by
    unfold decimBy tuner_set_decim
    rw [setDecimLoop_pow 3 (by decide)]
    rfl
  rw [hb]
  unfold tuner_push_input pushInput Vars.emits
  cases h : (v.cicPhase + 1).ult (BitVec.ofNat 32 TUNER_DECIM) with
  | false =>
    simp only [h, Bool.not_false, if_true, Bool.false_eq_true, if_false]
    rfl
  | true => simp only [h, Bool.not_true, Bool.false_eq_true, if_false, if_true]

/-- The comparison of the phase. -/
private theorem phase_lt (hr : r ≤ 7) (n : ℕ) :
    (BitVec.ofNat 32 (n % 2 ^ r) + 1).ult (decimBy r).decim = decide (n % 2 ^ r + 1 < 2 ^ r) := by
  have hle : 2 ^ r ≤ 2 ^ 7 := Nat.pow_le_pow_right (by decide) hr
  have hlt : n % 2 ^ r < 2 ^ r := Nat.mod_lt n (Nat.two_pow_pos r)
  have hone : (1 : Word).toNat = 1 := rfl
  have hdecim : (decimBy r).decim.toNat = 2 ^ r := by
    change (BitVec.ofNat 32 (2 ^ r)).toNat = 2 ^ r
    rw [BitVec.toNat_ofNat]
    omega
  rw [BitVec.ult, hdecim, BitVec.toNat_add, BitVec.toNat_ofNat, hone]
  congr 2
  omega

private theorem div_succ_open {R : ℕ} (h : n % R + 1 < R) : (n + 1) / R = n / R ∧ (n + 1) % R = n % R + 1 := by
  have hn := Nat.mod_add_div n R
  rw [Nat.div_mod_unique (by omega)]
  exact ⟨by omega, h⟩

private theorem div_succ_full {R : ℕ} (hR : 0 < R) (h : n % R + 1 = R) :
    (n + 1) / R = n / R + 1 ∧ (n + 1) % R = 0 ∧ n + 1 = n / R * R + R := by
  have hn := Nat.mod_add_div n R
  have hsum : n + 1 = n / R * R + R := by
    rw [Nat.mul_comm (n / R) R]
    omega
  refine ⟨?_, ?_, hsum⟩
  · rw [hsum, Nat.add_div_right _ hR, Nat.mul_div_cancel _ hR]
  · rw [hsum, Nat.add_mod_right, Nat.mul_mod_left]

/-- A sample that does not fill its group. -/
private theorem Chained.push_open (hr : r ≤ 7) (h : Chained r x n v) (ho : n % 2 ^ r + 1 < 2 ^ r) :
    Chained r x (n + 1) (pushInput (decimBy r) v (words x n)) := by
  obtain ⟨hdiv, hmod⟩ := div_succ_open ho
  have hpush : pushInput (decimBy r) v (words x n) =
      { v with
        rawMin := if (words x n).slt v.rawMin then words x n else v.rawMin
        rawMax := if v.rawMax.slt (words x n) then words x n else v.rawMax
        cicI1 := v.cicI1 + words x n
        cicI2 := v.cicI2 + (v.cicI1 + words x n)
        cicPhase := v.cicPhase + 1 } := by
    unfold pushInput
    simp only [h.phase, phase_lt hr, decide_eq_true ho, if_true]
  rw [hpush]
  constructor
  · constructor
    · rw [hdiv]
      exact h.value
    · rw [hdiv]
      exact h.state
    · rw [hdiv]
      exact h.ringPos
    · rw [hdiv]
      exact h.ring
  · rw [hdiv]
    exact h.filter.push
  · rw [hmod, BitVec.ofNat_add, ← h.phase]
    rfl
  · rw [hdiv]
    exact h.count

/-- The combs' output behind a full group. -/
private theorem Chained.out (h : Chained r x n v) (hf : n % 2 ^ r + 1 = 2 ^ r) :
    (v.filter.push (words x n)).out = ((triangle (2 ^ r) x (n + 1) : ℤ) : Word) := by
  obtain ⟨-, -, hsum⟩ := div_succ_full (Nat.two_pow_pos r) hf
  have hpush := h.filter.push
  rw [hsum] at hpush ⊢
  rw [hpush.out, ← triangle_cast]
  rfl

/-- The next decimated value. -/
private theorem Chained.value_full (hr : r ≤ 7) (hx : ∀ i, -2 ^ 15 ≤ x i ∧ x i ≤ 2 ^ 15 - 1) (h : Chained r x n v)
    (hf : n % 2 ^ r + 1 = 2 ^ r) :
    ((v.filter.push (words x n)).out.sshiftRight (decimBy r).cicShift.toNat).toInt =
      decimated r x (n / 2 ^ r + 1) := by
  obtain ⟨-, -, hsum⟩ := div_succ_full (Nat.two_pow_pos r) hf
  have hgroup : (n / 2 ^ r + 1) * 2 ^ r = n + 1 := by rw [hsum, Nat.succ_mul]
  have hgain : ((2 ^ r : ℕ) : ℤ) ^ 2 = 2 ^ (2 * r) := by
    push_cast
    ring
  rw [h.out hf, decimBy_shift hr, toInt_sshiftRight, toInt_cast (triangle_fits hr hx (n + 1)), decimated, hgroup,
    hgain]

/-- The next state of the DC blocker, for the next decimated value `s`. -/
private theorem Chained.state_full (hx : ∀ i, -2 ^ 15 ≤ x i ∧ x i ≤ 2 ^ 15 - 1) (h : Chained r x n v) {s : Word}
    (hs : s.toInt = decimated r x (n / 2 ^ r + 1)) :
    (v.dcY + (s - v.dcX1) - v.dcY.sshiftRight TUNER_DC_SHIFT).toInt = unbiased r x (n / 2 ^ r + 1) := by
  have hno : NoOverflow r x (n / 2 ^ r) := no_overflow hx (n / 2 ^ r)
  have hchange : (s - v.dcX1).toInt = decimated r x (n / 2 ^ r + 1) - decimated r x (n / 2 ^ r) := by
    rw [← hs, ← h.value]
    apply toInt_sub
    rw [hs, h.value]
    exact hno.change
  have hsum : (v.dcY + (s - v.dcX1)).toInt =
      unbiased r x (n / 2 ^ r) + (decimated r x (n / 2 ^ r + 1) - decimated r x (n / 2 ^ r)) := by
    rw [← hchange, ← h.state]
    apply toInt_add
    rw [hchange, h.state]
    exact hno.sum
  have hleak : (v.dcY.sshiftRight TUNER_DC_SHIFT).toInt = unbiased r x (n / 2 ^ r) / 2 ^ TUNER_DC_SHIFT := by
    rw [toInt_sshiftRight, h.state]
  have hnext : unbiased r x (n / 2 ^ r + 1) = unbiased r x (n / 2 ^ r) +
      (decimated r x (n / 2 ^ r + 1) - decimated r x (n / 2 ^ r)) -
        unbiased r x (n / 2 ^ r) / 2 ^ TUNER_DC_SHIFT := rfl
  rw [hnext, ← hsum, ← hleak]
  apply toInt_sub
  rw [hsum, hleak, ← hnext]
  exact hno.state

/-- A sample that fills its group. -/
private theorem Chained.push_full (hr : r ≤ 7) (hx : ∀ i, -2 ^ 15 ≤ x i ∧ x i ≤ 2 ^ 15 - 1) (h : Chained r x n v)
    (hf : n % 2 ^ r + 1 = 2 ^ r) : Chained r x (n + 1) (pushInput (decimBy r) v (words x n)) := by
  obtain ⟨hdiv, hmod, hsum⟩ := div_succ_full (Nat.two_pow_pos r) hf
  have hgroup : (n / 2 ^ r + 1) * 2 ^ r = n / 2 ^ r * 2 ^ r + 2 ^ r := Nat.succ_mul _ _
  set c := v.filter.push (words x n) with hc
  set s := c.out.sshiftRight (decimBy r).cicShift.toNat with hs
  set y := v.dcY + (s - v.dcX1) - v.dcY.sshiftRight TUNER_DC_SHIFT with hy
  have hvalue : s.toInt = decimated r x (n / 2 ^ r + 1) := h.value_full hr hx hf
  have hstate : y.toInt = unbiased r x (n / 2 ^ r + 1) := h.state_full hx hvalue
  have hpush : pushInput (decimBy r) v (words x n) =
      { v with
        rawMin := if (words x n).slt v.rawMin then words x n else v.rawMin
        rawMax := if v.rawMax.slt (words x n) then words x n else v.rawMax
        cicI1 := c.dump.i1
        cicI2 := c.dump.i2
        cicD1 := c.dump.d1
        cicD2 := c.dump.d2
        cicPhase := 0
        dcX1 := s
        dcY := y
        ring := Function.update v.ring v.ringPos (clip y)
        ringPos := v.ringPos + 1
        ringCount := v.ringCount + 1
        dirty := if v.dirty ≠ 0 then v.dirty - 1 else v.dirty } := by
    unfold pushInput
    simp only [h.phase, phase_lt hr, decide_eq_false (Nat.not_lt.mpr hf.ge), Bool.false_eq_true, if_false]
    rfl
  rw [hpush]
  constructor
  · constructor
    · rw [hdiv]
      exact hvalue
    · rw [hdiv]
      exact hstate
    · rw [hdiv, BitVec.ofNat_add, ← h.ringPos]
      rfl
    · rw [hdiv]
      intro k hk hnear
      change (Function.update v.ring v.ringPos (clip y) (BitVec.ofNat 10 k)).toInt = _
      rcases Nat.lt_succ_iff_lt_or_eq.mp hk with hlt | rfl
      · have hne : BitVec.ofNat 10 k ≠ v.ringPos := by
          intro he
          have hpos := congrArg BitVec.toNat (he.trans h.ringPos)
          rw [BitVec.toNat_ofNat, BitVec.toNat_ofNat] at hpos
          unfold TUNER_N at hnear
          omega
        rw [Function.update_of_ne hne]
        exact h.ring k hlt (by omega)
      · rw [← h.ringPos, Function.update_self, clip_toInt, hstate]
  · rw [hdiv, hgroup, hsum]
    exact (hsum ▸ h.filter.push).dump
  · rw [hmod]
    rfl
  · rw [hdiv, BitVec.ofNat_add, ← h.count]
    rfl

/-- One sample. -/
theorem Chained.push (hr : r ≤ 7) (hx : ∀ i, -2 ^ 15 ≤ x i ∧ x i ≤ 2 ^ 15 - 1) (h : Chained r x n v) :
    Chained r x (n + 1) (pushInput (decimBy r) v (words x n)) := by
  have hlt := Nat.mod_lt n (Nat.two_pow_pos r)
  rcases Nat.lt_or_eq_of_le (Nat.succ_le_of_lt hlt) with ho | hf
  · exact h.push_open hr ho
  · exact h.push_full hr hx hf

/-- What is done about an overrun leaves the chain alone. -/
private theorem Chained.overrun (h : Chained r x n v) : Chained r x n v.overrun :=
  { value := h.value, state := h.state, ringPos := h.ringPos, ring := h.ring, filter := h.filter, phase := h.phase,
    count := h.count }

end Push

/-! ### The calls -/

section Calls

variable {r n k : ℕ} {all ds : List Delivery} {d : Delivery} {v : Vars} {s : Vars × List Delivery}

/-- The chain behind the `n` words that are no longer to come. -/
structure Along (r : ℕ) (all : List Delivery) (n : ℕ) (s : Vars × List Delivery) : Prop where
  le : n ≤ all.length
  rest : s.2 = all.drop n
  chained : Chained r (samples all) n s.1

/-- The next word is the next sample. -/
theorem next_word (h : d :: ds = all.drop n) :
    n < all.length ∧ ds = all.drop (n + 1) ∧ d.input = words (samples all) n := by
  have hlt : n < all.length := by
    by_contra hge
    rw [List.drop_eq_nil_of_le (Nat.not_lt.mp hge)] at h
    cases h
  rw [List.drop_eq_getElem_cons hlt] at h
  obtain ⟨hd, hds⟩ := List.cons.inj h
  refine ⟨hlt, hds, ?_⟩
  rw [input_eq, words, samples, List.getElem?_eq_getElem hlt, ← hd]
  rfl

/-- The push of the next word. -/
private theorem along_push (hr : r ≤ 7) (hds : d :: ds = all.drop n) (h : Chained r (samples all) n v) :
    ds = all.drop (n + 1) ∧ n + 1 ≤ all.length ∧
      Chained r (samples all) (n + 1) (pushInput (decimBy r) v d.input) := by
  obtain ⟨hlt, htail, hinput⟩ := next_word hds
  refine ⟨htail, hlt, ?_⟩
  rw [hinput]
  exact h.push hr (samples_bounds all)

/-- The comparison of the loop, of counters that stay in one turn of the 32 bits. -/
private theorem ult_counter {a i j : ℕ} (h : a % 2 ^ 32 + j < 2 ^ 32) (hij : i ≤ j) :
    (BitVec.ofNat 32 (a + i)).ult (BitVec.ofNat 32 (a + j)) = decide (i < j) := by
  rw [BitVec.ult, BitVec.toNat_ofNat, BitVec.toNat_ofNat, decide_eq_decide]
  omega

/-- The loop of a pump from output `a` to output `a + m`. -/
private theorem along_pumpLoop {a m i : ℕ} (hr : r ≤ 7) (hm : a % 2 ^ 32 + m < 2 ^ 32)
    (hi : n / 2 ^ r = a + i) (him : i ≤ m) (h : Along r all n (v, ds)) :
    Along r all (min all.length (max n ((a + m) * 2 ^ r))) (pumpLoop (decimBy r) (BitVec.ofNat 32 (a + m)) v ds) := by
  have hpos := Nat.two_pow_pos r
  induction ds generalizing n v i with
  | nil =>
    have hlen : all.length ≤ n := List.drop_eq_nil_iff.mp h.rest.symm
    rw [min_eq_left (le_trans hlen (le_max_left _ _)), ← le_antisymm h.le hlen]
    exact h
  | cons d ds ih =>
    have hult : v.ringCount.ult (BitVec.ofNat 32 (a + m)) = decide (i < m) := by
      rw [h.chained.count, hi]
      exact ult_counter hm him
    rw [pumpLoop, hult]
    by_cases hc : i < m
    · have hbefore : n < (a + m) * 2 ^ r := by
        rw [← Nat.div_lt_iff_lt_mul hpos, hi]
        omega
      obtain ⟨htail, hlt, hpush⟩ := along_push hr h.rest h.chained
      obtain ⟨j, hj, hjm⟩ : ∃ j, (n + 1) / 2 ^ r = a + j ∧ j ≤ m := by
        have hlow : a + i ≤ (n + 1) / 2 ^ r := hi ▸ Nat.div_le_div_right (Nat.le_succ n)
        have hhigh : (n + 1) / 2 ^ r ≤ a + m := Nat.div_le_of_le_mul (by rw [Nat.mul_comm]; exact hbefore)
        exact ⟨(n + 1) / 2 ^ r - a, by omega, by omega⟩
      have hgoal : max n ((a + m) * 2 ^ r) = max (n + 1) ((a + m) * 2 ^ r) := by omega
      rw [if_pos (decide_eq_true hc), hgoal]
      dsimp only
      by_cases ho : d.ovr = true
      · rw [if_pos ho]
        exact ih hj hjm ⟨hlt, htail, hpush.overrun⟩
      · rw [if_neg ho]
        exact ih hj hjm ⟨hlt, htail, hpush⟩
    · -- the output the pump waits for is there
      have hthere : (a + m) * 2 ^ r ≤ n := by
        rw [← Nat.le_div_iff_mul_le hpos, hi]
        omega
      rw [if_neg (by simpa using hc), max_eq_left hthere, min_eq_right h.le]
      exact h

private theorem along_drainLoop (hr : r ≤ 7) (h : Along r all n (v, ds)) :
    Along r all (min all.length (n + k)) (drainLoop (decimBy r) k v ds) := by
  induction k generalizing n v ds with
  | zero =>
    rw [Nat.add_zero, min_eq_right h.le]
    exact h
  | succ k ih =>
    cases ds with
    | nil =>
      have hlen : all.length ≤ n := List.drop_eq_nil_iff.mp h.rest.symm
      rw [min_eq_left (by omega), ← le_antisymm h.le hlen]
      exact h
    | cons d ds =>
      obtain ⟨htail, hlt, hpush⟩ := along_push hr h.rest h.chained
      have hsum : n + (k + 1) = n + 1 + k := by omega
      rw [hsum]
      exact ih ⟨hlt, htail, hpush⟩

/-- A pump whose target has wrapped takes nothing. -/
private theorem pump_wrapped {m : Word} (h : Along r all n s) (hm : ¬n / 2 ^ r % 2 ^ 32 + m.toNat < 2 ^ 32) :
    pumpLoop (decimBy r) (s.1.ringCount + m) s.1 s.2 = s := by
  have hult : s.1.ringCount.ult (s.1.ringCount + m) = false := by
    rw [h.chained.count, BitVec.ult, BitVec.toNat_add, BitVec.toNat_ofNat, decide_eq_false_iff_not]
    have hlt := m.isLt
    omega
  obtain ⟨v, ds⟩ := s
  cases ds with
  | nil => rfl
  | cons d ds => rw [pumpLoop, hult, if_neg Bool.false_ne_true]

/-- Every call goes on with the chain where the one before has left it. -/
private theorem along_run (hr : r ≤ 7) (c : Call) (h : Along r all n s) :
    Along r all (c.taken r all.length n) (c.run (decimBy r) s) := by
  cases c with
  | pump m =>
    rw [Call.taken, Call.run, tuner_pump]
    by_cases hm : n / 2 ^ r % 2 ^ 32 + m.toNat < 2 ^ 32
    · have htarget : s.1.ringCount + m = BitVec.ofNat 32 (n / 2 ^ r + m.toNat) := by
        rw [BitVec.ofNat_add, ← h.chained.count, BitVec.ofNat_toNat, BitVec.setWidth_eq]
      rw [if_pos hm, htarget]
      exact along_pumpLoop hr hm rfl (Nat.zero_le _) h
    · rw [if_neg hm, pump_wrapped h hm]
      exact h
  | drain k ovr =>
    have hdrain := along_drainLoop (k := k) hr h
    cases ovr with
    | false => exact hdrain
    | true => exact ⟨hdrain.le, hdrain.rest, hdrain.chained.overrun⟩

private theorem along_calls (hr : r ≤ 7) (cs : List Call) (h : Along r all n s) :
    Along r all (cs.foldl (Call.taken r all.length) n) (cs.foldl (fun s c => c.run (decimBy r) s) s) := by
  induction cs generalizing n s with
  | nil => exact h
  | cons c cs ih => exact ih (along_run hr c h)

end Calls

/-- However the words are split among the calls, which take `n` of them, behind the `n`-th the decimated value is the
rounded triangular mean of the samples, the DC blocker has followed its recurrence, and the ring holds its last
states, clamped; and nothing but the integrators ever leaves the 32 bits. -/
theorem decimation_exact {r : ℕ} (hr : r ≤ 7) (ds : List Delivery) (cs : List Call) :
    let n := taken r ds.length cs
    (n ≤ ds.length ∧ (calls (tuner_set_decim (BitVec.ofNat 32 (2 ^ r))) ds cs).2 = ds.drop n ∧
        Exact r (samples ds) n (calls (tuner_set_decim (BitVec.ofNat 32 (2 ^ r))) ds cs).1) ∧
    ∀ k, Fits 31 (triangle (2 ^ r) (samples ds) k) ∧ NoOverflow r (samples ds) k := by
  have hchain : Along r ds (taken r ds.length cs) (calls (decimBy r) ds cs) :=
    along_calls hr cs ⟨Nat.zero_le _, rfl, chained_statics r (samples ds)⟩
  exact ⟨⟨hchain.le, hchain.rest, hchain.chained.toExact⟩,
    fun k => ⟨triangle_fits hr (samples_bounds ds) k, no_overflow (samples_bounds ds) k⟩⟩

/-- The decimation of the board, on words at full scale that a drain and a pump share: the pump takes what the drain
has left of the first eight. -/
theorem decimation_exact_board :
    (calls (tuner_set_decim (BitVec.ofNat 32 (2 ^ 3))) (List.replicate 20 ⟨0x7FFFFF, false⟩)
      [.drain 5 true, .pump 1]).2 = (List.replicate 20 (⟨0x7FFFFF, false⟩ : Delivery)).drop 8 ∧
    Exact 3 (samples (List.replicate 20 ⟨0x7FFFFF, false⟩)) 8
      (calls (tuner_set_decim (BitVec.ofNat 32 (2 ^ 3))) (List.replicate 20 ⟨0x7FFFFF, false⟩)
        [.drain 5 true, .pump 1]).1 :=
  (decimation_exact (r := 3) (by decide) (List.replicate 20 ⟨0x7FFFFF, false⟩) [.drain 5 true, .pump 1]).1.2

end Yarv.Tuner
