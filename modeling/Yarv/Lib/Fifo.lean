import Yarv.Lib.Clocked
import Yarv.Lib.Ring

/-!
# FIFOs with wrap bits

A FIFO of `2 ^ w` slots whose two pointers carry one bit more than the slot index: equal pointers mean empty, equal
indices under different top bits mean full.  `Holds f l` says that `f` queues `l`, oldest first; a push appends, a pop
drops the head, and the flags are those of the list.
-/

/-- The storage and the two pointers. -/
structure Fifo (w : Nat) (α : Type) where
  mem : BitVec w → α
  wptr : BitVec (w + 1)
  rptr : BitVec (w + 1)

namespace Fifo

variable {w : Nat} {α : Type}

/-- The slot a pointer addresses. -/
def slot (p : BitVec (w + 1)) : BitVec w := p.setWidth w

def empty (f : Fifo w α) : Bool := f.wptr == f.rptr

def full (f : Fifo w α) : Bool := f.wptr.getLsbD w != f.rptr.getLsbD w && slot f.wptr == slot f.rptr

/-- The oldest element, when there is one. -/
def head (f : Fifo w α) : α := f.mem (slot f.rptr)

def level (f : Fifo w α) : BitVec (w + 1) := f.wptr - f.rptr

def push (f : Fifo w α) (a : α) : Fifo w α :=
  { f with mem := Function.update f.mem (slot f.wptr) a, wptr := f.wptr + 1 }

def pop (f : Fifo w α) : Fifo w α := { f with rptr := f.rptr + 1 }

/-- One clock edge with an optional push and a pop strobe. -/
def step (f : Fifo w α) (a : Option α) (strobe : Bool) : Fifo w α where
  mem := match a with
    | some x => Function.update f.mem (slot f.wptr) x
    | none => f.mem
  wptr := if a.isSome then f.wptr + 1 else f.wptr
  rptr := if strobe then f.rptr + 1 else f.rptr

/-- Drop everything: the read pointer catches up. -/
def clear (f : Fifo w α) : Fifo w α := { f with rptr := f.wptr }

/-- The reset state over some storage. -/
def reset (mem : BitVec w → α) : Fifo w α := ⟨mem, 0, 0⟩

/-- The FIFO queues `l`, oldest first. -/
structure Holds (f : Fifo w α) (l : List α) : Prop where
  ring : Ring.Holds f.mem (slot f.rptr) l
  wptr : f.wptr = f.rptr + BitVec.ofNat (w + 1) l.length

variable {f : Fifo w α} {l : List α}

theorem slot_add (p : BitVec (w + 1)) (n : Nat) :
    slot (p + BitVec.ofNat (w + 1) n) = slot p + BitVec.ofNat w n := by
  rw [slot, slot, BitVec.setWidth_add _ _ (by omega)]
  congr 1
  apply BitVec.eq_of_toNat_eq
  rw [BitVec.toNat_setWidth, BitVec.toNat_ofNat, BitVec.toNat_ofNat, pow_succ, Nat.mod_mul_right_mod]

theorem holds_reset (mem : BitVec w → α) : Holds (reset mem) [] :=
  ⟨Ring.holds_nil _ _, by simp [reset]⟩

/-- Equal pointers queue nothing. -/
theorem holds_nil (h : f.empty = true) : Holds f [] := by
  rw [empty, beq_iff_eq] at h
  exact ⟨Ring.holds_nil _ _, by simp [h]⟩

theorem Holds.length_le (h : Holds f l) : l.length ≤ 2 ^ w := h.ring.length_le

theorem Holds.length_lt (h : Holds f l) : l.length < 2 ^ (w + 1) := by
  have h1 := h.length_le
  have h2 := Nat.two_pow_pos w
  rw [pow_succ]
  omega

theorem Holds.level (h : Holds f l) : f.level.toNat = l.length := by
  rw [Fifo.level, h.wptr, BitVec.add_comm, BitVec.add_sub_cancel, BitVec.toNat_ofNat, Nat.mod_eq_of_lt h.length_lt]

theorem Holds.empty_iff (h : Holds f l) : f.empty = true ↔ l = [] := by
  rw [Fifo.empty, beq_iff_eq, ← List.length_eq_zero_iff, ← h.level, Fifo.level]
  constructor
  · intro he
    rw [he, BitVec.sub_self]
    rfl
  · intro he
    have hz : f.wptr - f.rptr = 0#(w + 1) := BitVec.eq_of_toNat_eq (by simpa using he)
    have := congrArg (fun x => x + f.rptr) hz
    simpa [BitVec.sub_add_cancel] using this

theorem getLsbD_add_pow (p : BitVec (w + 1)) : (p + BitVec.ofNat (w + 1) (2 ^ w)).getLsbD w = !p.getLsbD w := by
  have h1 := p.isLt
  have h0 := Nat.two_pow_pos w
  have h4 : 2 ^ w % (2 ^ w * 2) = 2 ^ w := Nat.mod_eq_of_lt (by omega)
  rw [pow_succ] at h1
  rw [BitVec.getLsbD, BitVec.getLsbD, BitVec.toNat_add, BitVec.toNat_ofNat, Nat.testBit_eq_decide_div_mod_eq,
    Nat.testBit_eq_decide_div_mod_eq, pow_succ, h4]
  rcases Nat.lt_or_ge p.toNat (2 ^ w) with h | h
  · have h2 : (p.toNat + 2 ^ w) % (2 ^ w * 2) = p.toNat + 2 ^ w := Nat.mod_eq_of_lt (by omega)
    rw [h2, Nat.add_div_right _ h0, Nat.div_eq_of_lt h]
    rfl
  · have h2 : (p.toNat + 2 ^ w) % (2 ^ w * 2) = p.toNat - 2 ^ w := by
      rw [Nat.mod_eq_sub_mod (by omega), Nat.mod_eq_of_lt (by omega)]
      omega
    have h3 : p.toNat / 2 ^ w = 1 := Nat.div_eq_of_lt_le (by omega) (by omega)
    rw [h2, h3, Nat.div_eq_of_lt (by omega)]
    rfl

theorem Holds.full_iff (h : Holds f l) : f.full = true ↔ l.length = 2 ^ w := by
  have hle := h.length_le
  rw [full, Bool.and_eq_true, bne_iff_ne, beq_iff_eq, h.wptr, slot_add]
  constructor
  · rintro ⟨h1, h2⟩
    by_contra hne
    have hz : slot f.rptr = slot f.rptr + BitVec.ofNat w 0 := by simp
    have h3 : l.length = 0 := Ring.offset_inj (by omega) (Nat.two_pow_pos w) (h2.trans hz)
    exact h1 (by rw [h3, BitVec.add_zero])
  · intro he
    rw [he]
    have hz : BitVec.ofNat w (2 ^ w) = 0#w := by
      apply BitVec.eq_of_toNat_eq
      rw [BitVec.toNat_ofNat, Nat.mod_self]
      rfl
    exact ⟨by rw [getLsbD_add_pow]; simp, by rw [hz, BitVec.add_zero]⟩

theorem Holds.head (h : Holds f l) (hl : 0 < l.length) : f.head = l[0] := h.ring.at_head hl

/-- The oldest word is the one at the head. -/
theorem Holds.oldest (h : Holds f l) {a : α} (ha : a ∈ l.head?) : f.empty = false ∧ f.head = a := by
  cases l with
  | nil => exact absurd ha (by simp)
  | cons b l =>
    obtain rfl : b = a := by simpa using ha
    refine ⟨?_, h.head (Nat.succ_pos _)⟩
    rw [← Bool.not_eq_true, h.empty_iff]
    exact List.cons_ne_nil _ _

theorem Holds.push (h : Holds f l) (hl : l.length < 2 ^ w) (a : α) : Holds (f.push a) (l ++ [a]) := by
  refine ⟨?_, ?_⟩
  · have := h.ring.push hl a
    rwa [← slot_add, ← h.wptr] at this
  · rw [Fifo.push, h.wptr, List.length_append, List.length_singleton, BitVec.ofNat_add, ← BitVec.add_assoc]
    rfl

theorem Holds.pop (h : Holds f l) (hl : 0 < l.length) : Holds f.pop l.tail := by
  refine ⟨?_, ?_⟩
  · have := h.ring.drop 1
    rwa [← slot_add, List.drop_one] at this
  · rw [Fifo.pop, h.wptr, List.length_tail, BitVec.add_assoc]
    congr 1
    rw [show (1 : BitVec (w + 1)) = BitVec.ofNat (w + 1) 1 from rfl, ← BitVec.ofNat_add]
    congr 1
    omega

/-- The queue behind a clock edge: the head leaves under the strobe, the pushed element comes in behind. -/
theorem Holds.step (h : Holds f l) {a : Option α} {strobe : Bool} (hpop : strobe = true → 0 < l.length)
    (hpush : a.isSome = true → l.length < 2 ^ w ∨ strobe = true) :
    Holds (f.step a strobe) ((if strobe then l.tail else l) ++ a.toList) := by
  have hp : Holds (if strobe then f.pop else f) (if strobe then l.tail else l) := by
    cases strobe with
    | false => exact h
    | true => exact h.pop (hpop rfl)
  cases a with
  | none =>
    rw [Option.toList_none, List.append_nil]
    cases strobe <;> exact hp
  | some x =>
    have hlen : (if strobe then l.tail else l).length < 2 ^ w := by
      have hle := h.length_le
      cases strobe with
      | false => exact (hpush rfl).resolve_right Bool.false_ne_true
      | true =>
        have := hpop rfl
        rw [if_pos rfl, List.length_tail]
        omega
    have := hp.push hlen x
    cases strobe <;> exact this

theorem holds_clear (f : Fifo w α) : Holds f.clear [] :=
  ⟨Ring.holds_nil _ _, by simp [Fifo.clear]⟩

/-! ### A FIFO of a clocked machine -/

section Run

open Clocked

variable {σ ι : Type*} {next : σ → ι → σ} {s : σ} {inp : Nat → ι}

/-- The element a pop strobe takes. -/
def popped (q : σ → Fifo w α) (strobe : σ → ι → Bool) (s : σ) (i : ι) : Option α :=
  if strobe s i then some (q s).head else none

/-- A FIFO that is never popped empty and never pushed full loses and invents nothing. -/
theorem Holds.run_of (q : σ → Fifo w α) (push : σ → ι → Option α) (strobe : σ → ι → Bool) (h0 : (q s).Holds l)
    (hstep : ∀ t, q (trace next s inp (t + 1)) =
      (q (trace next s inp t)).step (push (trace next s inp t) (inp t)) (strobe (trace next s inp t) (inp t)))
    (hpop : ∀ t, strobe (trace next s inp t) (inp t) = true → (q (trace next s inp t)).empty = false)
    (hpush : ∀ t, (push (trace next s inp t) (inp t)).isSome = true →
      (q (trace next s inp t)).full = false ∨ strobe (trace next s inp t) (inp t) = true) (t : Nat) :
    ∃ l', (q (trace next s inp t)).Holds l' ∧
      l ++ logFrom push next s inp 0 t = logFrom (popped q strobe) next s inp 0 t ++ l' := by
  induction t with
  | zero => exact ⟨l, h0, by simp⟩
  | succ t ih =>
    obtain ⟨l', h1, h2⟩ := ih
    have hne : strobe (trace next s inp t) (inp t) = true → 0 < l'.length := by
      intro hp
      have := hpop _ hp
      rw [← Bool.not_eq_true, h1.empty_iff] at this
      exact List.length_pos_of_ne_nil this
    have h3 := h1.step (a := push (trace next s inp t) (inp t)) hne (by
      intro hp
      refine (hpush _ hp).imp_left fun hf => ?_
      rw [← Bool.not_eq_true, h1.full_iff] at hf
      exact Nat.lt_of_le_of_ne h1.length_le hf)
    have hl' : l' = (popped q strobe (trace next s inp t) (inp t)).toList ++
        if strobe (trace next s inp t) (inp t) then l'.tail else l' := by
      rw [popped]
      cases hs : strobe (trace next s inp t) (inp t) with
      | false => rfl
      | true =>
        rw [if_pos rfl, if_pos rfl, h1.head (hne hs)]
        cases l' with
        | nil => exact absurd (hne hs) (by simp)
        | cons x xs => rfl
    refine ⟨_, by rw [hstep]; exact h3, ?_⟩
    rw [logFrom_succ, logFrom_succ, Nat.zero_add, ← List.append_assoc, h2, List.append_assoc]
    conv_lhs => rw [hl']
    simp only [List.append_assoc]

/-- The same when every state keeps to it. -/
theorem Holds.run (q : σ → Fifo w α) (push : σ → ι → Option α) (strobe : σ → ι → Bool) (h0 : (q s).Holds l)
    (hstep : ∀ s i, q (next s i) = (q s).step (push s i) (strobe s i))
    (hpop : ∀ s i, strobe s i = true → (q s).empty = false)
    (hpush : ∀ s i, (push s i).isSome = true → (q s).full = false ∨ strobe s i = true) (t : Nat) :
    ∃ l', (q (trace next s inp t)).Holds l' ∧
      l ++ logFrom push next s inp 0 t = logFrom (popped q strobe) next s inp 0 t ++ l' :=
  Holds.run_of q push strobe h0 (fun _ => hstep _ _) (fun _ => hpop _ _) (fun _ => hpush _ _) t

/-- If a consumer comes to rest again and again, and pops whenever it rests in front of a queue, everything given to
the FIFO is popped in the end. -/
theorem exists_drained (q : σ → Fifo w α) (push : σ → ι → Option α) (strobe : σ → ι → Bool) (rest : Nat → Prop)
    (hrun : ∀ t, ∃ l', (q (trace next s inp t)).Holds l' ∧
      l ++ logFrom push next s inp 0 t = logFrom (popped q strobe) next s inp 0 t ++ l')
    (hrest : ∀ t, ∃ u, t ≤ u ∧ rest u)
    (hgo : ∀ u, rest u → (q (trace next s inp u)).empty = false → strobe (trace next s inp u) (inp u) = true)
    (t : Nat) :
    ∃ u, t ≤ u ∧ rest u ∧ l ++ logFrom push next s inp 0 t <+: logFrom (popped q strobe) next s inp 0 u := by
  have hgiven : ∀ u, t ≤ u → l ++ logFrom push next s inp 0 t <+: l ++ logFrom push next s inp 0 u := fun u hu =>
    (List.prefix_append_right_inj l).mpr <| logFrom_prefix 0 hu
  have hcount : ∀ n ≤ (l ++ logFrom push next s inp 0 t).length,
      ∃ u, t ≤ u ∧ rest u ∧ n ≤ (logFrom (popped q strobe) next s inp 0 u).length := by
    intro n
    induction n with
    | zero =>
      intro _
      obtain ⟨u, hu, hr⟩ := hrest t
      exact ⟨u, hu, hr, Nat.zero_le _⟩
    | succ n ih =>
      intro hn
      obtain ⟨u, hu, hr, hl⟩ := ih (by omega)
      rcases Nat.lt_or_ge n (logFrom (popped q strobe) next s inp 0 u).length with h | h
      · exact ⟨u, hu, hr, h⟩
      · obtain ⟨l', hq, hg⟩ := hrun u
        have hlen := (hgiven u hu).length_le
        have hne : (q (trace next s inp u)).empty = false := by
          rw [← Bool.not_eq_true, hq.empty_iff]
          rintro rfl
          rw [hg, List.append_nil] at hlen
          omega
        have hgrow : n + 1 ≤ (logFrom (popped q strobe) next s inp 0 (u + 1)).length := by
          rw [logFrom_succ, Nat.zero_add, popped, hgo u hr hne, List.length_append]
          simp
          omega
        obtain ⟨v, hv, hvr⟩ := hrest (u + 1)
        have hmono : logFrom (popped q strobe) next s inp 0 (u + 1) <+: logFrom (popped q strobe) next s inp 0 v :=
          logFrom_prefix 0 hv
        exact ⟨v, by omega, hvr, le_trans hgrow hmono.length_le⟩
  obtain ⟨u, hu, hr, hl⟩ := hcount _ le_rfl
  obtain ⟨l', -, hg⟩ := hrun u
  have hpre : logFrom (popped q strobe) next s inp 0 u <+: l ++ logFrom push next s inp 0 u :=
    hg ▸ List.prefix_append _ _
  exact ⟨u, hu, hr, List.prefix_of_prefix_length_le (hgiven u hu) hpre hl⟩

end Run

end Fifo
