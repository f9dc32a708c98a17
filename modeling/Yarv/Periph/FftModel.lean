import Yarv.Lib.Radix2
import Yarv.Pkg

/-!
# The reference transform

`modelFft` is `model_fft` of the test bench: pass by pass between a buffer and a scratch array, the copy pass for an
odd `log2n` and the bit-reversed addresses of the last pass included.  `dif` is what it computes: the
decimation-in-frequency stages one after another on the whole array, read in bit-reversed order.  `modelFft_eq`
connects the two.
-/

namespace Yarv

/-- A complex Q15 sample. -/
structure C16 where
  re : BitVec 16
  im : BitVec 16
  deriving DecidableEq, Repr

namespace FftTb

open Radix2

def pack (c : C16) : Word := c.im ++ c.re

def unpack (w : Word) : C16 := ⟨w.extractLsb' 0 16, w.extractLsb' 16 16⟩

def sat16 (v : Int) : BitVec 16 := if 32767 < v then 32767#16 else if v < -32768 then -32768#16 else BitVec.ofInt 16 v

def scaleRnd (v : Int) (en : Bool) : Int := if en then (v + 1) >>> (1 : Nat) else v

/-- The twiddle of the direction. -/
def twiddle (inverse : Bool) (w : C16) : C16 :=
  if inverse then ⟨w.re, if w.im = -32768#16 then 32767#16 else -w.im⟩ else w

/-- `oa` and `ob`. -/
def butterfly (sc : Bool) (A B w : C16) : C16 × C16 :=
  let sumR := A.re.toInt + B.re.toInt
  let sumI := A.im.toInt + B.im.toInt
  let difR := A.re.toInt - B.re.toInt
  let difI := A.im.toInt - B.im.toInt
  let mulR := difR * w.re.toInt - difI * w.im.toInt
  let mulI := difR * w.im.toInt + difI * w.re.toInt
  let normR := (mulR + 16384) >>> (15 : Nat)
  let normI := (mulI + 16384) >>> (15 : Nat)
  (⟨sat16 (scaleRnd sumR sc), sat16 (scaleRnd sumI sc)⟩, ⟨sat16 (scaleRnd normR sc), sat16 (scaleRnd normI sc)⟩)

/-- The difference of a pair times its twiddle, before any rounding. -/
def twiddled (A B w : C16) : Int × Int :=
  ((A.re.toInt - B.re.toInt) * w.re.toInt - (A.im.toInt - B.im.toInt) * w.im.toInt,
    (A.re.toInt - B.re.toInt) * w.im.toInt + (A.im.toInt - B.im.toInt) * w.re.toInt)

/-- `buf` and `scr`. -/
structure Arrays where
  buf : Nat → C16
  scr : Nat → C16

variable (nmax log2n : Nat) (scale : Word) (inverse : Bool) (tab : Nat → C16)

/-- The loop over the butterflies of pass `st`, from `src` into `dst`. -/
def butterflies (st : Nat) (src dst : Nat → C16) : Nat → C16 :=
  let n := 1 <<< log2n
  let total := log2n + (log2n &&& 1)
  let copy := log2n ≤ st
  let half := if copy then 1 else n >>> (st + 1)
  let step := if copy then 0 else (1 <<< st) * (nmax / n)
  let sc := if copy then false else scale.getLsbD st
  let last := st = total - 1
  (List.range (n / 2)).foldl (fun d bf =>
    let low := half - 1
    let j := bf &&& low
    let hi := bf.ldiff low
    let ia := (hi <<< 1) ||| j
    let ib := ia ||| half
    let A := src ia
    let B := src ib
    let o := if copy then (A, B) else butterfly sc A B (twiddle inverse (tab (j * step)))
    let wa := if last then brev ia log2n else ia
    let wb := if last then brev ib log2n else ib
    Function.update (Function.update d wa o.1) wb o.2) dst

/-- The body of the loop over the passes. -/
def modelPass (m : Arrays) (st : Nat) : Arrays :=
  let fromScr := st &&& 1 ≠ 0
  let src := if fromScr then m.scr else m.buf
  let dst := if fromScr then m.buf else m.scr
  let out := butterflies nmax log2n scale inverse tab st src dst
  if fromScr then { m with buf := out } else { m with scr := out }

/-- `model_fft`. -/
def modelFft (buf : Nat → C16) : Nat → C16 :=
  ((List.range (log2n + (log2n &&& 1))).foldl (modelPass nmax log2n scale inverse tab) ⟨buf, fun _ => ⟨0, 0⟩⟩).buf

/-! ### Stage after stage -/

/-- The butterflies of stage `s`: the twiddle exponent counts in units of the table. -/
def difOp (s t : Nat) (A B : C16) : C16 × C16 :=
  butterfly (scale.getLsbD s) A B (twiddle inverse (tab (t % 2 ^ (log2n - 1 - s) * (2 ^ s * (nmax / 2 ^ log2n)))))

/-- The whole array after `s` stages. -/
def stages (x : Nat → C16) : Nat → Nat → C16
  | 0 => x
  | s + 1 => pass (2 ^ (log2n - 1 - s)) (difOp nmax log2n scale inverse tab s) (stages x s)

/-- The transform, in natural bin order. -/
def dif (x : Nat → C16) (i : Nat) : C16 := stages nmax log2n scale inverse tab x log2n (brev i log2n)

variable {nmax log2n scale inverse tab}

/-! ### The loops of the reference -/

/-- The addresses of a pass; only the last one reverses them. -/
def passAddr (log2n s i : Nat) : Nat := if s = log2n + log2n % 2 - 1 then brev i log2n else i

theorem passAddr_injOn (log2n s : Nat) : Set.InjOn (passAddr log2n s) (Set.Iio (2 ^ log2n)) := by
  unfold passAddr
  by_cases h : s = log2n + log2n % 2 - 1
  · simp only [h, if_true]
    exact brev_injOn log2n
  · simp only [h, if_false]
    exact fun _ _ _ _ e => e

private theorem foldl_sweep {ι α : Type*} [DecidableEq ι] (a b : Nat → ι) (va vb : Nat → α) (m : ι → α) (t : Nat) :
    (List.range t).foldl (fun d u => Function.update (Function.update d (a u) (va u)) (b u) (vb u)) m =
      sweep a b va vb m t := by
  induction t with
  | zero => rfl
  | succ t ih => rw [List.range_succ, List.foldl_append, ih, List.foldl_cons, List.foldl_nil, sweep_succ]

/-- The bit position a pass pairs at. -/
def passBit (log2n s : Nat) : Nat := if log2n ≤ s then 0 else log2n - 1 - s

/-- What a pass does to its pairs. -/
def passOp (nmax log2n : Nat) (scale : Word) (inverse : Bool) (tab : Nat → C16) (s t : Nat) (A B : C16) : C16 × C16 :=
  if log2n ≤ s then (A, B) else difOp nmax log2n scale inverse tab s t A B

theorem passBit_lt {s : Nat} (hn : 0 < log2n) : passBit log2n s < log2n := by
  rw [passBit]
  split <;> omega

private theorem half_eq (s : Nat) : (if log2n ≤ s then 1 else (1 <<< log2n) >>> (s + 1)) = 2 ^ passBit log2n s := by
  rw [passBit]
  by_cases h : log2n ≤ s
  · rw [if_pos h, if_pos h, pow_zero]
  · rw [if_neg h, if_neg h, Nat.one_shiftLeft, Nat.shiftRight_eq_div_pow, Nat.pow_div (by omega) Nat.two_pos]
    congr 1
    omega

/-- The loop over the butterflies writes a whole pass. -/
private theorem butterflies_eq (hn : 0 < log2n) (s : Nat) (src dst : Nat → C16) {i : Nat} (hi : i < 2 ^ log2n) :
    butterflies nmax log2n scale inverse tab s src dst (passAddr log2n s i) =
      pass (2 ^ passBit log2n s) (passOp nmax log2n scale inverse tab s) src i := by
  have hcount : (1 <<< log2n) / 2 = 2 ^ (log2n - 1) := by
    rw [Nat.one_shiftLeft, ← Nat.pow_div (by omega) Nat.two_pos, pow_one]
  rw [← sweep_pass (m := dst) (passBit_lt hn) (passAddr_injOn log2n s) hi, ← foldl_sweep]
  simp only [butterflies, half_eq, hcount, lo_eq_or, hi_eq_or]
  refine congrFun (congrArg (fun f => List.foldl f dst (List.range (2 ^ (log2n - 1)))) ?_) _
  funext d t
  have hop : (if log2n ≤ s then (src (lo (2 ^ passBit log2n s) t), src (Radix2.hi (2 ^ passBit log2n s) t))
      else butterfly (if log2n ≤ s then false else scale.getLsbD s) (src (lo (2 ^ passBit log2n s) t))
        (src (Radix2.hi (2 ^ passBit log2n s) t)) (twiddle inverse (tab ((t &&& 2 ^ passBit log2n s - 1) *
          if log2n ≤ s then 0 else 1 <<< s * (nmax / 1 <<< log2n))))) =
      passOp nmax log2n scale inverse tab s t (src (lo (2 ^ passBit log2n s) t))
        (src (Radix2.hi (2 ^ passBit log2n s) t)) := by
    rw [passOp]
    by_cases h : log2n ≤ s
    · rw [if_pos h, if_pos h]
    · rw [if_neg h, if_neg h, if_neg h, if_neg h, difOp, Nat.and_two_pow_sub_one_eq_mod, passBit, if_neg h,
        Nat.one_shiftLeft, Nat.one_shiftLeft]
  have hlast : (s = log2n + (log2n &&& 1) - 1) = (s = log2n + log2n % 2 - 1) := by rw [Nat.and_one_is_mod]
  simp only [hop, hlast, passAddr]

/-- A pass of the reference makes the next stage; the copy pass makes none. -/
theorem pass_stages (x : Nat → C16) (s i : Nat) :
    pass (2 ^ passBit log2n s) (passOp nmax log2n scale inverse tab s)
      (stages nmax log2n scale inverse tab x (min s log2n)) i =
        stages nmax log2n scale inverse tab x (min (s + 1) log2n) i := by
  by_cases h : log2n ≤ s
  · have hop : passOp nmax log2n scale inverse tab s = fun _ a b => (a, b) := by
      funext t a b
      rw [passOp, if_pos h]
    rw [hop, pass_id, min_eq_right h, min_eq_right (by omega)]
  · have hop : passOp nmax log2n scale inverse tab s = difOp nmax log2n scale inverse tab s := by
      funext t a b
      rw [passOp, if_neg h]
    rw [hop, passBit, if_neg h, min_eq_left (by omega), min_eq_left (by omega), stages]

/-- The arrays of the reference before pass `s`. -/
def modelPasses (nmax log2n : Nat) (scale : Word) (inverse : Bool) (tab : Nat → C16) (x : Nat → C16)
    (s : Nat) : Arrays := (List.range s).foldl (modelPass nmax log2n scale inverse tab) ⟨x, fun _ => ⟨0, 0⟩⟩

private theorem modelPasses_succ (x : Nat → C16) (s : Nat) : modelPasses nmax log2n scale inverse tab x (s + 1) =
    modelPass nmax log2n scale inverse tab (modelPasses nmax log2n scale inverse tab x s) s := by
  rw [modelPasses, List.range_succ, List.foldl_append, List.foldl_cons, List.foldl_nil, modelPasses]

/-- Pass `s` reads what `s` stages have made and writes what the next one makes. -/
private theorem modelPass_eq (hn : 0 < log2n) {x : Nat → C16} {m : Arrays} {s : Nat}
    (hm : ∀ i < 2 ^ log2n, (if s % 2 = 0 then m.buf else m.scr) i =
    stages nmax log2n scale inverse tab x (min s log2n) i)
    {i : Nat} (hi : i < 2 ^ log2n) :
    (if (s + 1) % 2 = 0 then (modelPass nmax log2n scale inverse tab m s).buf
      else (modelPass nmax log2n scale inverse tab m s).scr) (passAddr log2n s i) =
        stages nmax log2n scale inverse tab x (min (s + 1) log2n) i := by
  rw [← pass_stages, modelPass, Nat.and_one_is_mod]
  rcases Nat.mod_two_eq_zero_or_one s with h | h
  · have h' : (s + 1) % 2 ≠ 0 := by omega
    rw [if_pos h] at hm
    rw [if_neg h']
    simp only [h, ne_eq, not_true_eq_false, if_false]
    rw [butterflies_eq hn s _ _ hi]
    exact pass_congr (passBit_lt hn) hm hi
  · have h' : (s + 1) % 2 = 0 := by omega
    rw [if_neg (by omega)] at hm
    rw [if_pos h']
    simp only [h, ne_eq, Nat.one_ne_zero, not_false_eq_true, if_true]
    rw [butterflies_eq hn s _ _ hi]
    exact pass_congr (passBit_lt hn) hm hi

/-- The reference before each of its passes. -/
private theorem modelPasses_eq (hn : 0 < log2n) (x : Nat → C16) {s : Nat} (hs : s < log2n + log2n % 2) :
    ∀ i < 2 ^ log2n, (if s % 2 = 0 then (modelPasses nmax log2n scale inverse tab x s).buf
      else (modelPasses nmax log2n scale inverse tab x s).scr) i =
        stages nmax log2n scale inverse tab x (min s log2n) i := by
  induction s with
  | zero =>
    intro i _
    rw [Nat.zero_min]
    rfl
  | succ s ih =>
    intro i hi
    have haddr : passAddr log2n s i = i := by rw [passAddr, if_neg (by omega)]
    have h := modelPass_eq hn (ih (by omega)) hi
    rw [haddr] at h
    rw [modelPasses_succ, h]

/-- The passes of the reference are the stages one after another, read in natural order. -/
theorem modelFft_eq (hn : 0 < log2n) (x : Nat → C16) {i : Nat} (hi : i < 2 ^ log2n) :
    modelFft nmax log2n scale inverse tab x i = dif nmax log2n scale inverse tab x i := by
  have htotal : log2n + (log2n &&& 1) = log2n + log2n % 2 - 1 + 1 := by
    rw [Nat.and_one_is_mod]
    omega
  have hlast : log2n + log2n % 2 - 1 < log2n + log2n % 2 := by omega
  have h := modelPass_eq hn (@modelPasses_eq nmax log2n scale inverse tab hn x _ hlast) (brev_lt i log2n)
  rw [passAddr, if_pos rfl, brev_brev hi, if_pos (by omega), ← modelPasses_succ, ← htotal, Nat.and_one_is_mod,
    min_eq_right (by omega)] at h
  rw [modelFft, dif, ← h, Nat.and_one_is_mod]
  rfl

end FftTb

end Yarv
