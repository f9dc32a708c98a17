import Mathlib.Tactic

/-!
# Shift registers

A `w`-bit register that takes one bit per clock at its low end.  After `w` bits it holds exactly these bits, the first
one on top, whatever it held before; `msbBits` lists the bits of a word in that order.
-/

namespace ShiftReg

variable {w : Nat}

/-- `{r[w-2:0], b}`. -/
def shiftIn (r : BitVec w) (b : Bool) : BitVec w := (r ++ BitVec.ofBool b).setWidth w

/-- The register after a list of bits. -/
def run (r : BitVec w) (bs : List Bool) : BitVec w := bs.foldl shiftIn r

/-- The bits of a word, most significant first. -/
def msbBits (x : BitVec w) : List Bool := (List.range w).map x.getMsbD

@[simp] theorem run_nil (r : BitVec w) : run r [] = r := rfl

theorem run_append (r : BitVec w) (as bs : List Bool) : run r (as ++ bs) = run (run r as) bs :=
  List.foldl_append

theorem run_concat (r : BitVec w) (bs : List Bool) (b : Bool) : run r (bs ++ [b]) = shiftIn (run r bs) b := by
  rw [run_append]
  rfl

@[simp] theorem length_msbBits (x : BitVec w) : (msbBits x).length = w := by simp [msbBits]

theorem msbBits_get (x : BitVec w) {i : Nat} (hi : i < w) : (msbBits x)[i]? = some (x.getMsbD i) := by
  rw [msbBits, List.getElem?_map, List.getElem?_range hi]
  rfl

theorem getLsbD_shiftIn (r : BitVec w) (b : Bool) (i : Nat) :
    (shiftIn r b).getLsbD i = (decide (i < w) && if i = 0 then b else r.getLsbD (i - 1)) := by
  rw [shiftIn, BitVec.getLsbD_setWidth, BitVec.getLsbD_append]
  rcases Nat.eq_zero_or_pos i with rfl | hi
  · simp
  · simp [show ¬i < 1 by omega, show i ≠ 0 by omega]

/-- The bits taken last stand lowest. -/
theorem getLsbD_run (r : BitVec w) (bs : List Bool) {i : Nat} (hi : i < bs.length) (hw : i < w) :
    (run r bs).getLsbD i = bs[bs.length - 1 - i] := by
  induction bs using List.reverseRecOn generalizing i with
  | nil => simp at hi
  | append_singleton bs b ih =>
    rw [run_concat, getLsbD_shiftIn]
    rw [List.length_append, List.length_singleton] at hi
    rcases Nat.eq_zero_or_pos i with rfl | hp
    · simp [hw]
    · have hlt : bs.length - 1 - (i - 1) = bs.length - i := by omega
      rw [if_neg (by omega), ih (by omega) (by omega), List.getElem_append_left (by simp; omega)]
      simp [hw, hlt]

/-- The bits of the old contents move up. -/
theorem getLsbD_run_old (r : BitVec w) (bs : List Bool) {i : Nat} (hi : bs.length ≤ i) (hw : i < w) :
    (run r bs).getLsbD i = r.getLsbD (i - bs.length) := by
  induction bs using List.reverseRecOn generalizing i with
  | nil => rfl
  | append_singleton bs b ih =>
    rw [List.length_append, List.length_singleton] at hi
    rw [run_concat, getLsbD_shiftIn, if_neg (by omega), ih (by omega) (by omega), List.length_append,
      List.length_singleton, show i - 1 - bs.length = i - (bs.length + 1) by omega]
    simp [hw]

/-- After `w` bits nothing of the old contents is left. -/
theorem run_eq (r x : BitVec w) (bs : List Bool) (hb : bs = msbBits x) : run r bs = x := by
  subst hb
  apply BitVec.eq_of_getLsbD_eq
  intro i hi
  rw [getLsbD_run _ _ (by simpa using hi) hi]
  simp only [msbBits, List.getElem_map, List.getElem_range, List.length_map, List.length_range]
  rw [BitVec.getMsbD]
  have : w - 1 - (w - 1 - i) = i := by omega
  simp [this, show w - 1 - i < w by omega]

/-- After `w` bits it does not matter what the register held. -/
theorem run_congr (r r' : BitVec w) {bs : List Bool} (hb : bs.length = w) : run r bs = run r' bs := by
  apply BitVec.eq_of_getLsbD_eq
  intro i hi
  rw [getLsbD_run _ _ (by omega) hi, getLsbD_run _ _ (by omega) hi]

/-- The register lists the last `w` bits as they came. -/
theorem msbBits_run (r : BitVec w) {bs : List Bool} (hb : bs.length = w) : msbBits (run r bs) = bs := by
  refine List.ext_getElem (by rw [length_msbBits, hb]) fun i h1 h2 => ?_
  rw [length_msbBits] at h1
  have hlow := getLsbD_run r bs (i := w - 1 - i) (by omega) (by omega)
  have hat : bs.length - 1 - (w - 1 - i) = i := by omega
  simp only [hat] at hlow
  simp only [msbBits, List.getElem_map, List.getElem_range, BitVec.getMsbD, h1, decide_true, Bool.true_and]
  exact hlow

end ShiftReg
