import Mathlib.Tactic

/-!
# Asynchronous serial frames

A frame carries a `w`-bit word behind a low start bit and in front of a high stop bit, least significant bit first;
every symbol is on the line for `n` cycles.  `level` is the line `e` cycles into a frame, `line` a row of frames with
idle stretches in front of them.
-/

namespace Serial

variable {w : Nat}

/-- Start bit, data bits, stop bit. -/
def symbols (x : BitVec w) : List Bool := false :: ((List.range w).map x.getLsbD ++ [true])

def frame (n : Nat) (x : BitVec w) : List Bool := (symbols x).flatMap (List.replicate n)

/-- The line `e` cycles into a frame. -/
def level (n : Nat) (x : BitVec w) (e : Nat) : Bool := (symbols x).getD (e / n) true

/-- Frames, each with the length of the idle stretch in front of it and its bit time. -/
def line (fs : List (Nat × Nat × BitVec w)) : List Bool :=
  fs.flatMap fun f => List.replicate f.1 true ++ frame f.2.1 f.2.2

/-- The line, from its beginning, carries these frames and no others, each with its bit time: all of them are complete
and the line is idle, or the last one is under way. -/
inductive Carries : List (Nat × BitVec w) → List Bool → Prop
  | idle (segs : List (Nat × Nat × BitVec w)) (k : Nat) :
      Carries (segs.map Prod.snd) (line segs ++ List.replicate k true)
  | underway (segs : List (Nat × Nat × BitVec w)) (k : Nat) {n e : Nat} {x : BitVec w} (he : e < (w + 2) * n) :
      Carries (segs.map Prod.snd ++ [(n, x)]) (line segs ++ List.replicate k true ++ (frame n x).take e)

@[simp] theorem length_symbols (x : BitVec w) : (symbols x).length = w + 2 := by simp [symbols]

theorem length_flatMap_replicate (n : Nat) (bs : List Bool) :
    (bs.flatMap (List.replicate n)).length = bs.length * n := by
  induction bs with
  | nil => simp
  | cons b bs ih => simp [ih, Nat.succ_mul, Nat.add_comm]

@[simp] theorem length_frame (n : Nat) (x : BitVec w) : (frame n x).length = (w + 2) * n := by
  rw [frame, length_flatMap_replicate, length_symbols]

theorem getElem?_flatMap_replicate {n : Nat} (hn : 0 < n) (bs : List Bool) (e : Nat) :
    (bs.flatMap (List.replicate n))[e]? = bs[e / n]? := by
  induction bs generalizing e with
  | nil => simp
  | cons b bs ih =>
    rw [List.flatMap_cons]
    rcases Nat.lt_or_ge e n with h | h
    · rw [List.getElem?_append_left (by simpa using h), Nat.div_eq_of_lt h]
      simp [h]
    · obtain ⟨d, rfl⟩ := Nat.exists_eq_add_of_le h
      rw [List.getElem?_append_right (by simp), List.length_replicate, Nat.add_sub_cancel_left, ih,
        Nat.add_div_left _ hn, List.getElem?_cons_succ]

/-- A frame is the level of its cycles. -/
theorem frame_take_succ {n e : Nat} (x : BitVec w) (he : e < (w + 2) * n) :
    (frame n x).take (e + 1) = (frame n x).take e ++ [level n x e] := by
  have hn : 0 < n := by
    rcases Nat.eq_zero_or_pos n with rfl | h
    · simp at he
    · exact h
  have hd : e / n < (symbols x).length := by
    rw [length_symbols]
    exact Nat.div_lt_of_lt_mul (by rwa [Nat.mul_comm])
  have hget : (frame n x)[e]? = some (level n x e) := by
    rw [frame, getElem?_flatMap_replicate hn, level, List.getD_eq_getElem?_getD, List.getElem?_eq_getElem hd]
    rfl
  rw [List.take_add_one, hget]
  rfl

/-! ### The level, symbol by symbol -/

variable {n r : Nat}

theorem symbol_div (s : Nat) (hr : r < n) : (s * n + r) / n = s := by
  rw [Nat.mul_comm, Nat.mul_add_div (by omega), Nat.div_eq_of_lt hr, Nat.add_zero]

theorem level_start (x : BitVec w) (hr : r < n) : level n x r = false := by
  have := symbol_div 0 hr
  rw [Nat.zero_mul, Nat.zero_add] at this
  rw [level, this]
  rfl

theorem level_data (x : BitVec w) {k : Nat} (hk : k < w) (hr : r < n) :
    level n x ((k + 1) * n + r) = x.getLsbD k := by
  rw [level, symbol_div _ hr, symbols, List.getD_cons_succ, List.getD_eq_getElem?_getD,
    List.getElem?_append_left (by simpa using hk)]
  simp [hk]

theorem level_stop (x : BitVec w) (hr : r < n) : level n x ((w + 1) * n + r) = true := by
  rw [level, symbol_div _ hr, symbols, List.getD_cons_succ, List.getD_eq_getElem?_getD]
  simp

end Serial
