import Mathlib.Tactic

/-!
# Ring buffers

A buffer of `2 ^ w` slots indexed by a `w`-bit pointer that wraps.  `Holds buf head l` says that the slots from `head`
on hold the queue `l`; pushing at `head + l.length` appends, advancing the head drops the oldest element.
-/

namespace Ring

variable {w : Nat} {α : Type*}

/-- The slots of `buf` from `head` on hold `l`. -/
structure Holds (buf : BitVec w → α) (head : BitVec w) (l : List α) : Prop where
  length_le : l.length ≤ 2 ^ w
  get : ∀ k (h : k < l.length), buf (head + BitVec.ofNat w k) = l[k]

variable {buf : BitVec w → α} {head : BitVec w} {l : List α}

theorem holds_nil (buf : BitVec w → α) (head : BitVec w) : Holds buf head [] :=
  ⟨by simp, fun k h => absurd h (by simp)⟩

/-- Two offsets below the capacity that reach the same slot are equal. -/
theorem offset_inj {a b : Nat} (ha : a < 2 ^ w) (hb : b < 2 ^ w)
    (h : head + BitVec.ofNat w a = head + BitVec.ofNat w b) : a = b := by
  have h1 : BitVec.ofNat w a = BitVec.ofNat w b := by
    have h2 := congrArg (fun x => x - head) h
    simpa [BitVec.add_comm head, BitVec.add_sub_cancel] using h2
  have h3 := congrArg BitVec.toNat h1
  rwa [BitVec.toNat_ofNat, BitVec.toNat_ofNat, Nat.mod_eq_of_lt ha, Nat.mod_eq_of_lt hb] at h3

/-- A write at the tail appends. -/
theorem Holds.push (hb : Holds buf head l) (hl : l.length < 2 ^ w) (a : α) :
    Holds (Function.update buf (head + BitVec.ofNat w l.length) a) head (l ++ [a]) := by
  refine ⟨by simpa using hl, fun k hk => ?_⟩
  rw [List.length_append, List.length_singleton] at hk
  rcases Nat.lt_succ_iff_lt_or_eq.mp hk with h | rfl
  · rw [List.getElem_append_left h, Function.update_of_ne, hb.get k h]
    intro he
    exact absurd (offset_inj (by omega) hl he) (by omega)
  · simp

/-- Two writes at the tail append two elements. -/
theorem Holds.push_two (hb : Holds buf head l) (hl : l.length + 1 < 2 ^ w) (a b : α) :
    Holds (Function.update (Function.update buf (head + BitVec.ofNat w l.length) a)
      (head + BitVec.ofNat w l.length + 1) b) head (l ++ [a, b]) := by
  have h := (hb.push (by omega) a).push (by simpa using hl) b
  have he : head + BitVec.ofNat w l.length + 1 = head + BitVec.ofNat w (l ++ [a]).length := by
    rw [List.length_append, List.length_singleton, BitVec.ofNat_add, ← BitVec.add_assoc]
    rfl
  rw [he]
  simpa using h

/-- Advancing the head drops the oldest elements. -/
theorem Holds.drop (hb : Holds buf head l) (k : Nat) :
    Holds buf (head + BitVec.ofNat w k) (l.drop k) := by
  refine ⟨le_trans (by simp) hb.length_le, fun j hj => ?_⟩
  rw [List.length_drop] at hj
  rw [List.getElem_drop, ← hb.get (k + j) (by omega), BitVec.ofNat_add, BitVec.add_assoc]

/-- The head slot holds the oldest element. -/
theorem Holds.at_head (hb : Holds buf head l) (hl : 0 < l.length) : buf head = l[0] := by
  have h := hb.get 0 hl
  rwa [show head + BitVec.ofNat w 0 = head by simp] at h

/-- The slot behind the head holds the second element. -/
theorem Holds.at_next (hb : Holds buf head l) (hl : 1 < l.length) : buf (head + 1) = l[1] :=
  hb.get 1 hl

/-! ### Stacks -/

/-- The slots below `top` hold `l`, its first element next to `top`. -/
structure Stacked (buf : BitVec w → α) (top : BitVec w) (l : List α) : Prop where
  length_le : l.length ≤ 2 ^ w
  get : ∀ k (h : k < l.length), buf (top - 1 - BitVec.ofNat w k) = l[k]

theorem stacked_nil (buf : BitVec w → α) (top : BitVec w) : Stacked buf top [] :=
  ⟨by simp, fun k h => absurd h (by simp)⟩

/-- A push on a full stack overwrites its last element. -/
theorem Stacked.push (hb : Stacked buf head l) (a : α) :
    Stacked (Function.update buf head a) (head + 1) ((a :: l).take (2 ^ w)) := by
  refine ⟨List.length_take_le _ _, fun k hk => ?_⟩
  rw [List.length_take, List.length_cons] at hk
  rw [List.getElem_take]
  cases k with
  | zero =>
    have h0 : head + 1 - 1 - BitVec.ofNat w 0 = head := by rw [BitVec.add_sub_cancel, BitVec.sub_zero]
    rw [h0, Function.update_self]
    rfl
  | succ k =>
    have hidx : head + 1 - 1 - BitVec.ofNat w (k + 1) = head - 1 - BitVec.ofNat w k := by
      rw [BitVec.add_sub_cancel, BitVec.ofNat_add, BitVec.sub_sub, BitVec.add_comm _ (BitVec.ofNat w 1)]
      rfl
    have hne : head + 1 - 1 - BitVec.ofNat w (k + 1) ≠ head := by
      intro he
      rw [BitVec.add_sub_cancel, BitVec.sub_eq_iff_eq_add] at he
      have h1 : head + BitVec.ofNat w 0 = head + BitVec.ofNat w (k + 1) := (BitVec.add_zero head).trans he
      have := offset_inj (Nat.two_pow_pos w) (by omega) h1
      omega
    rw [Function.update_of_ne hne, hidx, hb.get k (by omega)]
    rfl

/-- A pop moves the pointer only; on an empty stack it does nothing else. -/
theorem Stacked.pop (hb : Stacked buf head l) : Stacked buf (head - 1) l.tail := by
  refine ⟨le_trans (by simp) hb.length_le, fun k hk => ?_⟩
  rw [List.length_tail] at hk
  have hidx : head - 1 - 1 - BitVec.ofNat w k = head - 1 - BitVec.ofNat w (k + 1) := by
    rw [BitVec.ofNat_add, BitVec.sub_sub, BitVec.add_comm 1]
    rfl
  rw [List.getElem_tail, hidx, hb.get (k + 1) (by omega)]

theorem Stacked.top (hb : Stacked buf head l) (hl : 0 < l.length) : buf (head - 1) = l[0] := by
  have h := hb.get 0 hl
  rwa [show head - 1 - BitVec.ofNat w 0 = head - 1 by simp] at h

end Ring
