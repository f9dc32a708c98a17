import Mathlib.Tactic

/-!
# Bytes of words

An array of words of `l` bytes, read byte by byte in little-endian order.  `put` writes the low bytes of a word from
an address on, `get` reads bytes back; `ofWords_update` turns a write to some lanes of one word into a `put`.
-/

namespace ByteMem

/-- Byte `k` of a word. -/
def byte {w : Nat} (v : BitVec w) (k : Nat) : BitVec 8 := v.extractLsb' (8 * k) 8

/-- The byte at address `a` of an array of words. -/
def ofWords {w : Nat} (l : Nat) (f : Nat → BitVec w) (a : Nat) : BitVec 8 := byte (f (a / l)) (a % l)

/-- The low `n` bytes of `v` are written from address `a` on. -/
def put {w : Nat} (x : Nat → BitVec 8) (a n : Nat) (v : BitVec w) (b : Nat) : BitVec 8 :=
  if a ≤ b ∧ b < a + n then byte v (b - a) else x b

/-- The two and the four bytes from address `a` on. -/
def get2 (x : Nat → BitVec 8) (a : Nat) : BitVec 16 := x (a + 1) ++ x a

def get4 (x : Nat → BitVec 8) (a : Nat) : BitVec 32 := get2 x (a + 2) ++ get2 x a

variable {w l : Nat} {f : Nat → BitVec w} {v : BitVec w} {a n : Nat}

/-- A write to some lanes of one word, of which the others keep their bytes. -/
theorem ofWords_update (hl : 0 < l) (hn : a % l + n ≤ l) {r : BitVec w}
    (hr : ∀ k < l, byte r k = if a % l ≤ k ∧ k < a % l + n then byte v (k - a % l) else byte (f (a / l)) k) :
    ofWords l (Function.update f (a / l) r) = put (ofWords l f) a n v := by
  funext b
  have ha := Nat.div_add_mod a l
  have hb := Nat.div_add_mod b l
  have hlt := Nat.mod_lt b hl
  change byte (Function.update f (a / l) r (b / l)) (b % l) =
    if a ≤ b ∧ b < a + n then byte v (b - a) else byte (f (b / l)) (b % l)
  by_cases hw : b / l = a / l
  · rw [hw] at hb ⊢
    rw [Function.update_self, hr _ hlt]
    by_cases hin : a ≤ b ∧ b < a + n
    · have hsub : b % l - a % l = b - a := by omega
      rw [if_pos hin, if_pos (by omega), hsub]
    · rw [if_neg hin, if_neg (by omega)]
  · have hout : ¬(a ≤ b ∧ b < a + n) := by
      rintro ⟨h1, h2⟩
      refine hw (le_antisymm (Nat.lt_succ_iff.mp ((Nat.div_lt_iff_lt_mul hl).mpr ?_)) (Nat.div_le_div_right h1))
      rw [Nat.succ_mul, Nat.mul_comm]
      omega
    rw [Function.update_of_ne hw, if_neg hout]

/-- Bytes of one word read back. -/
theorem get2_ofWords (h : a % l + 2 ≤ l) : get2 (ofWords l f) a = (f (a / l)).extractLsb' (8 * (a % l)) 16 := by
  have hl : 0 < l := by omega
  have ha := Nat.div_add_mod a l
  have hdiv : (a + 1) / l = a / l := by
    rw [Nat.div_eq_iff hl]
    rw [Nat.mul_comm] at ha
    omega
  have hmod : (a + 1) % l = a % l + 1 := by
    have h1 := Nat.div_add_mod (a + 1) l
    rw [hdiv] at h1
    omega
  rw [get2, ofWords, ofWords, hdiv, hmod, byte, byte]
  exact BitVec.extractLsb'_append_extractLsb'_eq_extractLsb' (by omega)

theorem get4_ofWords (h : a % l + 4 ≤ l) : get4 (ofWords l f) a = (f (a / l)).extractLsb' (8 * (a % l)) 32 := by
  have hl : 0 < l := by omega
  have ha := Nat.div_add_mod a l
  have hdiv : (a + 2) / l = a / l := by
    rw [Nat.div_eq_iff hl]
    rw [Nat.mul_comm] at ha
    omega
  have hmod : (a + 2) % l = a % l + 2 := by
    have h1 := Nat.div_add_mod (a + 2) l
    rw [hdiv] at h1
    omega
  rw [get4, get2_ofWords (by omega), get2_ofWords (by omega), hdiv, hmod]
  exact BitVec.extractLsb'_append_extractLsb'_eq_extractLsb' (by omega)

end ByteMem
