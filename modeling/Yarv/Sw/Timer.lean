import Yarv.Periph.Registers
import Yarv.Sw.Port

/-!
# `timer.h`

The driver of the machine timer on `clint_timer`.  `mtimeQ` counts the cycles, so a run is dated by it: `timer_mtime`
reads a value the counter had during the call, and the three stores of `timer_arm_us` and `timer_cancel` bring the
compare register from the old value to the new one through values that only fire once the counter has reached
`2 ^ 64 - 2 ^ 32`.
-/

namespace Yarv

open Driver Clocked

namespace ClintTimer

/-! ### The halves and the counter -/

private theorem toNat_append (a b : Word) : (a ++ b).toNat = a.toNat * 2 ^ 32 + b.toNat := by
  have hb := b.isLt
  rw [BitVec.toNat_append, Nat.shiftLeft_eq, ← Nat.shiftLeft_eq, ← Nat.shiftLeft_add_eq_or_of_lt hb, Nat.shiftLeft_eq]

private theorem hi_append_lo (x : BitVec 64) : hi x ++ lo x = x := by
  apply BitVec.eq_of_toNat_eq
  rw [toNat_append, toNat_hi, toNat_lo]
  omega

/-- The counter counts every cycle. -/
private theorem mtime_trace (q : ClintTimer) (acc : Nat → RegAccess (BitVec 2) Unit) (t : Nat) :
    (trace next q acc t).mtimeQ = q.mtimeQ + BitVec.ofNat 64 t := by
  induction t with
  | zero => simp
  | succ t ih =>
    rw [trace_succ, next, ih, BitVec.add_assoc]
    apply BitVec.eq_of_toNat_eq
    simp

end ClintTimer

/-! ### The driver -/

namespace Timer

open ClintTimer

/-- `TIMER_CYCLES_PER_US` at the shipping `TIMER_CORE_HZ`. -/
def TIMER_CYCLES_PER_US : BitVec 64 := 50

abbrev TimerProg (τ : Type) := Prog (BitVec 2) Word τ

def timer_mtime : TimerProg (BitVec 64) :=
  .load REG_MTIME_HI fun hi =>
  .load REG_MTIME_LO fun lo =>
  .load REG_MTIME_HI fun hi2 =>
  if hi ≠ hi2 then .load REG_MTIME_LO fun lo => .ret (hi2.setWidth 64 <<< 32 ||| lo.setWidth 64)
  else .ret (hi.setWidth 64 <<< 32 ||| lo.setWidth 64)

def timer_arm_us (delta_us : Word) : TimerProg Unit :=
  timer_mtime.bind fun m =>
  let target := m + delta_us.setWidth 64 * TIMER_CYCLES_PER_US
  .store REG_MTIMECMP_HI 0xFFFFFFFF <|
  .store REG_MTIMECMP_LO ((target &&& 0xFFFFFFFF).setWidth 32) <|
  .store REG_MTIMECMP_HI ((target >>> 32).setWidth 32) <|
  .ret ()

def timer_cancel : TimerProg Unit :=
  .store REG_MTIMECMP_HI 0xFFFFFFFF <|
  .store REG_MTIMECMP_LO 0xFFFFFFFF <|
  .store REG_MTIMECMP_HI 0xFFFFFFFF <|
  .ret ()

/-! ### A run of the driver -/

section Run

variable {τ : Type} (p : TimerProg τ) (s : PortDev ClintTimer) (inp : Nat → HostIn Unit)

/-- The access of cycle `t`. -/
abbrev timerAccess (t : Nat) : Option (Access (BitVec 2) Word) := issued (portTarget device) ⟨p, s⟩ inp t

/-- The rest of the driver before cycle `t`. -/
abbrev timerProg (t : Nat) : TimerProg τ := progAt (portTarget device) ⟨p, s⟩ inp t

/-- The timer before cycle `t`. -/
abbrev timerAt (t : Nat) : ClintTimer := coreAt device ⟨p, s⟩ inp t

/-- The number of stores that have landed by cycle `t`. -/
def landed (t : Nat) : Nat := (storeLog (portTarget device) ⟨p, s⟩ inp t).length

/-- The accesses of the call fall in its first `2 ^ 32` cycles. -/
def Short : Prop := ∀ t, (timerAccess p s inp t).isSome = true → t < 2 ^ 32

/-- The loads before cycle `t`: the first in cycle `a`, the last in cycle `b`. -/
structure Reads (a b t : Nat) : Prop where
  first : timerAccess p s inp a = some (.load REG_MTIME_HI)
  fresh : ∀ x < a, timerAccess p s inp x = none
  last : ∃ r, timerAccess p s inp b = some (.load r)
  quiet : ∀ x, b < x → x < t → ∀ r, timerAccess p s inp x ≠ some (.load r)
  order : a ≤ b
  past : b < t

/-- `m` is a value between the counter at the first and at the last of the loads. -/
def ReadBetween (t : Nat) (m : BitVec 64) : Prop :=
  ∃ a b, Reads p s inp a b t ∧ (timerAt p s inp a).mtimeQ.toNat ≤ m.toNat ∧ m.toNat ≤ (timerAt p s inp b).mtimeQ.toNat

/-- If `mtip_o` is set two cycles behind cycle `t`, the counter has reached the old value in cycle `t`, before the
first store lands, or `target`, behind the last one; between them it is at `2 ^ 64 - 2 ^ 32` or beyond, and has
reached one of the two all the same. -/
def Fires (target : BitVec 64) (t : Nat) : Prop :=
  (timerAt p s inp (t + 2)).mtipQ = true →
    (landed p s inp t = 0 ∧ s.core.mtimecmpQ.toNat ≤ (timerAt p s inp t).mtimeQ.toNat) ∨
    (landed p s inp t = 3 ∧ target.toNat ≤ (timerAt p s inp t).mtimeQ.toNat) ∨
    (landed p s inp t = 1 ∧ 2 ^ 64 - 2 ^ 32 ≤ (timerAt p s inp t).mtimeQ.toNat ∧
      s.core.mtimecmpQ.toNat ≤ (timerAt p s inp t).mtimeQ.toNat) ∨
    (landed p s inp t = 2 ∧ 2 ^ 64 - 2 ^ 32 ≤ (timerAt p s inp t).mtimeQ.toNat ∧
      target.toNat ≤ (timerAt p s inp t).mtimeQ.toNat)

variable {p s inp} {a b t : Nat}

private theorem mtip_run (t : Nat) :
    (timerAt p s inp (t + 2)).mtipQ = (timerAt p s inp t).mtimecmpQ.ule (timerAt p s inp t).mtimeQ := by
  rw [timerAt, timerAt, coreAt_eq_trace, coreAt_eq_trace]
  exact mtip_trace _ _ t

variable (p inp) in
/-- Before it wraps the counter is its start and the cycles since. -/
private theorem mtime_run (hm : s.core.mtimeQ.toNat < 2 ^ 64 - 2 ^ 32) (ht : t < 2 ^ 32) :
    (timerAt p s inp t).mtimeQ.toNat = s.core.mtimeQ.toNat + t := by
  have hrun : timerAt p s inp t = trace device.next s.core (accessAt device ⟨p, s⟩ inp) t := coreAt_eq_trace t
  have h := mtime_trace s.core (accessAt device ⟨p, s⟩ inp) t
  rw [hrun]
  change (trace ClintTimer.next _ _ t).mtimeQ.toNat = _
  rw [h, BitVec.toNat_add, BitVec.toNat_ofNat]
  omega

private theorem Reads.stay (h : Reads p s inp a b t) (hi : ∀ r, timerAccess p s inp t ≠ some (.load r)) :
    Reads p s inp a b (t + 1) := by
  refine ⟨h.first, h.fresh, h.last, fun x hbx hxt => ?_, h.order, by have := h.past; omega⟩
  rcases Nat.lt_succ_iff_lt_or_eq.mp hxt with hx | rfl
  · exact h.quiet x hbx hx
  · exact hi

private theorem Reads.load (h : Reads p s inp a b t) {r : BitVec 2} (hi : timerAccess p s inp t = some (.load r)) :
    Reads p s inp a t (t + 1) :=
  ⟨h.first, h.fresh, ⟨r, hi⟩, fun x h1 h2 => by omega, by have := h.order; have := h.past; omega, by omega⟩

/-! ### Reading the counter -/

/-- `timer_mtime` behind its third load. -/
def mtimeRest (hi lo hi2 : Word) : TimerProg (BitVec 64) :=
  if hi ≠ hi2 then .load REG_MTIME_LO fun lo => .ret (hi2.setWidth 64 <<< 32 ||| lo.setWidth 64)
  else .ret (hi.setWidth 64 <<< 32 ||| lo.setWidth 64)

/-- The halves of the counter in a cycle. -/
def hiAt (p : TimerProg τ) (s : PortDev ClintTimer) (inp : Nat → HostIn Unit) (t : Nat) : Word :=
  hi (timerAt p s inp t).mtimeQ

def loAt (p : TimerProg τ) (s : PortDev ClintTimer) (inp : Nat → HostIn Unit) (t : Nat) : Word :=
  lo (timerAt p s inp t).mtimeQ

variable (p s inp) in
/-- A call of `timer_mtime` that goes on with `k`, between its loads. -/
inductive Reading (k : BitVec 64 → TimerProg τ) (t : Nat) : TimerProg τ → Prop
  | first (h : ∀ x < t, timerAccess p s inp x = none) : Reading k t (timer_mtime.bind k)
  | second (a : Nat) (h : Reads p s inp a a t) :
    Reading k t
      (.load REG_MTIME_LO fun lo => .load REG_MTIME_HI fun hi2 => (mtimeRest (hiAt p s inp a) lo hi2).bind k)
  | third (a b : Nat) (h : Reads p s inp a b t) :
    Reading k t (.load REG_MTIME_HI fun hi2 => (mtimeRest (hiAt p s inp a) (loAt p s inp b) hi2).bind k)
  | again (a c : Nat) (h : Reads p s inp a c t) (hne : hiAt p s inp a ≠ hiAt p s inp c) :
    Reading k t
      (.load REG_MTIME_LO fun lo => k ((hiAt p s inp c).setWidth 64 <<< 32 ||| lo.setWidth 64))

private theorem answer_hi (t : Nat) : Driver.answer (portTarget device) ⟨p, s⟩ inp t REG_MTIME_HI =
    hiAt p s inp t := rfl

private theorem answer_lo (t : Nat) : Driver.answer (portTarget device) ⟨p, s⟩ inp t REG_MTIME_LO =
    loAt p s inp t := rfl

/-- The shift and the or of the C code put two halves together. -/
private theorem join_halves (a b : Word) : a.setWidth 64 <<< 32 ||| b.setWidth 64 = a ++ b := by
  apply BitVec.eq_of_getLsbD_eq
  intro j hj
  rw [BitVec.getLsbD_append]
  rcases Nat.lt_or_ge j 32 with h | h
  · simp [h, show j < 64 by omega]
  · simp [show ¬j < 32 by omega, hj, BitVec.getLsbD_of_ge b j h]

private theorem toNat_hiAt (t : Nat) : (hiAt p s inp t).toNat =
    (timerAt p s inp t).mtimeQ.toNat / 2 ^ 32 := toNat_hi _

private theorem toNat_loAt (t : Nat) : (loAt p s inp t).toNat =
    (timerAt p s inp t).mtimeQ.toNat % 2 ^ 32 := toNat_lo _

/-- One cycle of `timer_mtime`. -/
private theorem Reading.next {k : BitVec 64 → TimerProg τ} (h : Reading p s inp k t (timerProg p s inp t))
    (hm : s.core.mtimeQ.toNat < 2 ^ 64 - 2 ^ 32) (hshort : Short p s inp) :
    Reading p s inp k (t + 1) (timerProg p s inp (t + 1)) ∨
      ∃ m, timerProg p s inp (t + 1) = k m ∧ ReadBetween p s inp (t + 1) m := by
  cases hi : timerAccess p s inp t with
  | none =>
    left
    have hload : ∀ r, timerAccess p s inp t ≠ some (.load r) := by simp [hi]
    have hp : timerProg p s inp (t + 1) = timerProg p s inp t := progAt_of_none hi
    rw [hp]
    generalize timerProg p s inp t = x at h
    cases h with
    | first h =>
      refine .first fun x hx => ?_
      rcases Nat.lt_succ_iff_lt_or_eq.mp hx with hx | rfl
      · exact h x hx
      · exact hi
    | second a h => exact .second a (h.stay hload)
    | third a b h => exact .third a b (h.stay hload)
    | again a c h hne => exact .again a c (h.stay hload) hne
  | some acc =>
    have ht : t < 2 ^ 32 := hshort t (by rw [hi]; rfl)
    generalize hx : timerProg p s inp t = x at h
    cases h with
    | first h =>
      obtain ⟨rfl, hp⟩ := of_issued_load hi hx
      left
      rw [timerProg, hp]
      exact .second t ⟨hi, h, ⟨_, hi⟩, fun x h1 h2 => by omega, le_rfl, by omega⟩
    | second a h =>
      obtain ⟨rfl, hp⟩ := of_issued_load hi hx
      left
      rw [timerProg, hp]
      exact .third a t (h.load hi)
    | third a b h =>
      obtain ⟨rfl, hp⟩ := of_issued_load hi hx
      have hr := h.load hi
      rw [answer_hi] at hp
      by_cases hne : hiAt p s inp a ≠ hiAt p s inp t
      · left
        rw [mtimeRest, if_pos hne] at hp
        rw [timerProg, hp]
        exact .again a t hr hne
      · right
        rw [mtimeRest, if_neg hne] at hp
        refine ⟨_, hp, a, t, hr, ?_⟩
        have ha := mtime_run p inp hm (t := a) (by have := h.order; have := h.past; omega)
        have hb := mtime_run p inp hm (t := b) (by have := h.past; omega)
        have hc := mtime_run p inp hm ht
        have heq := congrArg BitVec.toNat (not_not.mp hne)
        rw [toNat_hiAt, toNat_hiAt] at heq
        have h1 := h.order
        have h2 := h.past
        -- no carry between the two reads of the high half
        rw [join_halves, toNat_append, toNat_hiAt, toNat_loAt]
        omega
    | again a c h hne =>
      obtain ⟨rfl, hp⟩ := of_issued_load hi hx
      right
      rw [answer_lo] at hp
      refine ⟨_, hp, a, t, h.load hi, ?_⟩
      have ha := mtime_run p inp hm (t := a) (by have := h.order; have := h.past; omega)
      have hc := mtime_run p inp hm (t := c) (by have := h.past; omega)
      have hd := mtime_run p inp hm ht
      have hne' : (hiAt p s inp a).toNat ≠ (hiAt p s inp c).toNat := fun he => hne (BitVec.eq_of_toNat_eq he)
      rw [toNat_hiAt, toNat_hiAt] at hne'
      have h1 := h.order
      have h2 := h.past
      -- the carry lies before the second read of the high half, and there is only one in the call
      rw [join_halves, toNat_append, toNat_hiAt, toNat_loAt]
      omega

/-! ### Programming the compare register -/

/-- The three stores that bring the compare register to `target`, behind the first `n`. -/
def arming (target : BitVec 64) : Nat → TimerProg Unit
  | 0 => .store REG_MTIMECMP_HI 0xFFFFFFFF <| .store REG_MTIMECMP_LO (lo target) <|
    .store REG_MTIMECMP_HI (hi target) <| .ret ()
  | 1 => .store REG_MTIMECMP_LO (lo target) <| .store REG_MTIMECMP_HI (hi target) <| .ret ()
  | 2 => .store REG_MTIMECMP_HI (hi target) <| .ret ()
  | _ => .ret ()

/-- The compare register behind the first `n` of them. -/
def armed (old target : BitVec 64) : Nat → BitVec 64
  | 0 => old
  | 1 => 0xFFFFFFFF#32 ++ lo old
  | 2 => 0xFFFFFFFF#32 ++ lo target
  | _ => target

variable {c : TimerProg Unit}

variable (c s inp) in
/-- The call `c` has `n` of the stores for `target` behind it. -/
structure Arming (target : BitVec 64) (n t : Nat) : Prop where
  le : n ≤ 3
  prog : timerProg c s inp t = arming target n
  cmp : (timerAt c s inp t).mtimecmpQ = armed s.core.mtimecmpQ target n
  landed : landed c s inp t = n

private theorem landed_succ (t : Nat) :
    landed c s inp (t + 1) =
      landed c s inp t + ((timerAccess c s inp t).bind Access.stored).toList.length := by
  rw [Timer.landed, storeLog_succ, List.length_append]
  rfl

private theorem cmp_succ (t : Nat) :
    (timerAt c s inp (t + 1)).mtimecmpQ =
      (timerAt c s inp t).mtimecmpD (regAccess (inp t).ext (timerAccess c s inp t)).wr := rfl

/-- A cycle without an access leaves the compare register alone, and so does a load. -/
private theorem cmp_stay (hi : ∀ r v, timerAccess c s inp t ≠ some (.store r v)) :
    (timerAt c s inp (t + 1)).mtimecmpQ = (timerAt c s inp t).mtimecmpQ ∧
      landed c s inp (t + 1) = landed c s inp t := by
  rw [landed_succ, cmp_succ]
  cases ha : timerAccess c s inp t with
  | none => exact ⟨rfl, rfl⟩
  | some a =>
    cases a with
    | load r => exact ⟨rfl, rfl⟩
    | store r v => exact absurd ha (hi r v)

private theorem cmp_store {r : BitVec 2} {v : Word} (ha : timerAccess c s inp t = some (.store r v)) :
    (timerAt c s inp (t + 1)).mtimecmpQ = (timerAt c s inp t).mtimecmpD (some ⟨r, v, 0xF⟩) ∧
      landed c s inp (t + 1) = landed c s inp t + 1 := by
  rw [landed_succ, cmp_succ, ha]
  exact ⟨rfl, rfl⟩

private theorem mtimecmpD_lo (q : ClintTimer) (v : Word) :
    q.mtimecmpD (some ⟨REG_MTIMECMP_LO, v, 0xF⟩) = hi q.mtimecmpQ ++ v := rfl

private theorem mtimecmpD_hi (q : ClintTimer) (v : Word) :
    q.mtimecmpD (some ⟨REG_MTIMECMP_HI, v, 0xF⟩) = v ++ lo q.mtimecmpQ := rfl

private theorem hi_append (a b : Word) : hi (a ++ b) = a := by
  apply BitVec.eq_of_toNat_eq
  rw [toNat_hi, toNat_append]
  have := b.isLt
  omega

private theorem lo_append (a b : Word) : lo (a ++ b) = b := by
  apply BitVec.eq_of_toNat_eq
  rw [toNat_lo, toNat_append]
  have := b.isLt
  omega

/-- One cycle of the stores. -/
private theorem Arming.next {target : BitVec 64} {n : Nat} (h : Arming s inp c target n t) :
    ∃ n', Arming s inp c target n' (t + 1) := by
  cases ha : timerAccess c s inp t with
  | none =>
    have hno : ∀ r v, timerAccess c s inp t ≠ some (.store r v) := by simp [ha]
    obtain ⟨hcmp, hl⟩ := cmp_stay hno
    exact ⟨n, h.le, (progAt_of_none ha).trans h.prog, hcmp.trans h.cmp, hl.trans h.landed⟩
  | some a =>
    have hp := h.prog
    have hc := h.cmp
    refine ⟨n + 1, ?_⟩
    rcases show n = 0 ∨ n = 1 ∨ n = 2 ∨ n = 3 by have := h.le; omega with rfl | rfl | rfl | rfl
    · obtain ⟨rfl, hp'⟩ := of_issued_store ha hp
      obtain ⟨hcmp, hl⟩ := cmp_store ha
      rw [mtimecmpD_hi, hc] at hcmp
      exact ⟨by omega, hp', hcmp, by rw [hl, h.landed]⟩
    · obtain ⟨rfl, hp'⟩ := of_issued_store ha hp
      obtain ⟨hcmp, hl⟩ := cmp_store ha
      rw [mtimecmpD_lo, hc, armed, hi_append] at hcmp
      exact ⟨by omega, hp', hcmp, by rw [hl, h.landed]⟩
    · obtain ⟨rfl, hp'⟩ := of_issued_store ha hp
      obtain ⟨hcmp, hl⟩ := cmp_store ha
      rw [mtimecmpD_hi, hc, armed, lo_append, hi_append_lo] at hcmp
      exact ⟨by omega, hp', hcmp, by rw [hl, h.landed]⟩
    · exact absurd ha (by rw [timerAccess, issued, Host.issue_ret hp]; simp)

/-- What the compare register holds on the way decides when `mtip_o` can be set. -/
private theorem Arming.fires {target : BitVec 64} {n : Nat} (h : Arming s inp c target n t) :
    Fires c s inp target t := by
  intro hfire
  rw [mtip_run, h.cmp, BitVec.ule, decide_eq_true_eq] at hfire
  rw [h.landed]
  have hlo := (lo s.core.mtimecmpQ).isLt
  have hold := s.core.mtimecmpQ.isLt
  have htar := target.isLt
  have hall : (0xFFFFFFFF#32).toNat = 2 ^ 32 - 1 := rfl
  rcases show n = 0 ∨ n = 1 ∨ n = 2 ∨ n = 3 by have := h.le; omega with rfl | rfl | rfl | rfl
  · exact .inl ⟨rfl, hfire⟩
  · rw [armed, toNat_append, hall, toNat_lo] at hfire
    exact .inr (.inr (.inl ⟨rfl, by omega, by omega⟩))
  · rw [armed, toNat_append, hall, toNat_lo] at hfire
    exact .inr (.inr (.inr ⟨rfl, by omega, by omega⟩))
  · exact .inr (.inl ⟨rfl, hfire⟩)

/-- Before the first store only the old value counts. -/
private theorem fires_before {target : BitVec 64} (h0 : landed p s inp t = 0)
    (hc : (timerAt p s inp t).mtimecmpQ = s.core.mtimecmpQ) : Fires p s inp target t := by
  intro hfire
  rw [mtip_run, hc, BitVec.ule, decide_eq_true_eq] at hfire
  exact .inl ⟨h0, hfire⟩

/-! ### The calls -/

private theorem Reading.no_store {k : BitVec 64 → TimerProg τ} (h : Reading p s inp k t (timerProg p s inp t))
    (r : BitVec 2) (v : Word) : timerAccess p s inp t ≠ some (.store r v) := by
  intro hi
  generalize hx : timerProg p s inp t = x at h
  cases h with
  | first h => exact absurd (of_issued_load hi hx).1 (by simp)
  | second a h => exact absurd (of_issued_load hi hx).1 (by simp)
  | third a b h => exact absurd (of_issued_load hi hx).1 (by simp)
  | again a c h hne => exact absurd (of_issued_load hi hx).1 (by simp)

private theorem ReadBetween.stay {m : BitVec 64} (h : ReadBetween p s inp t m)
    (hi : ∀ r, timerAccess p s inp t ≠ some (.load r)) : ReadBetween p s inp (t + 1) m := by
  obtain ⟨a, b, hr, hm⟩ := h
  exact ⟨a, b, hr.stay hi, hm⟩

private theorem Arming.no_load {target : BitVec 64} {n : Nat} (h : Arming s inp c target n t) (r : BitVec 2) :
    timerAccess c s inp t ≠ some (.load r) := by
  intro hi
  have hp := h.prog
  rcases show n = 0 ∨ n = 1 ∨ n = 2 ∨ n = 3 by have := h.le; omega with rfl | rfl | rfl | rfl
  · exact absurd (of_issued_store hi hp).1 (by simp)
  · exact absurd (of_issued_store hi hp).1 (by simp)
  · exact absurd (of_issued_store hi hp).1 (by simp)
  · exact absurd hi (by rw [timerAccess, issued, Host.issue_ret hp]; simp)

/-- A call of `timer_mtime` is between its loads, or it has returned a value the counter had. -/
private theorem mtime_call {s : PortDev ClintTimer} {inp : Nat → HostIn Unit}
    (hm : s.core.mtimeQ.toNat < 2 ^ 64 - 2 ^ 32) (hshort : Short timer_mtime s inp) (t : Nat) :
    Reading timer_mtime s inp .ret t (timerProg timer_mtime s inp t) ∨
      ∃ m, timerProg timer_mtime s inp t = .ret m ∧ ReadBetween timer_mtime s inp t m := by
  induction t with
  | zero =>
    left
    have h : Reading timer_mtime s inp .ret 0 (timer_mtime.bind .ret) := .first (by simp)
    rw [Prog.bind_ret] at h
    exact h
  | succ t ih =>
    rcases ih with h | ⟨m, hp, hb⟩
    · exact h.next hm hshort
    · have hnone : timerAccess timer_mtime s inp t = none := Host.issue_ret hp
      exact .inr ⟨m, (progAt_of_none hnone).trans hp, hb.stay (by simp [hnone])⟩

private theorem target_lo (x : BitVec 64) : (x &&& 0xFFFFFFFF).setWidth 32 = lo x := by
  apply BitVec.eq_of_toNat_eq
  rw [BitVec.toNat_setWidth, BitVec.toNat_and, toNat_lo]
  have hand : x.toNat &&& (0xFFFFFFFF : BitVec 64).toNat = x.toNat % 2 ^ 32 :=
    Nat.and_two_pow_sub_one_eq_mod x.toNat 32
  rw [hand, Nat.mod_mod]

private theorem target_hi (x : BitVec 64) : (x >>> 32).setWidth 32 = hi x := by
  apply BitVec.eq_of_toNat_eq
  have hx := x.isLt
  rw [BitVec.toNat_setWidth, BitVec.toNat_ushiftRight, toNat_hi, Nat.shiftRight_eq_div_pow]
  omega

/-- `timer_arm_us` behind its `timer_mtime`. -/
private theorem timer_arm_us_eq (delta_us : Word) :
    timer_arm_us delta_us =
      timer_mtime.bind fun m => arming (m + delta_us.setWidth 64 * TIMER_CYCLES_PER_US) 0 := by
  rw [timer_arm_us]
  simp only [target_lo, target_hi]
  rfl

private theorem timer_cancel_eq : timer_cancel = arming (BitVec.allOnes 64) 0 := by
  rw [timer_cancel, arming]
  rfl

/-- A call of `timer_arm_us` reads the counter, or it is on its way to the target it has found. -/
private theorem arm_call {s : PortDev ClintTimer} {inp : Nat → HostIn Unit} {delta_us : Word}
    (hm : s.core.mtimeQ.toNat < 2 ^ 64 - 2 ^ 32) (hshort : Short (timer_arm_us delta_us) s inp) (t : Nat) :
    (landed (timer_arm_us delta_us) s inp t = 0 ∧
        (timerAt (timer_arm_us delta_us) s inp t).mtimecmpQ = s.core.mtimecmpQ ∧
        Reading (timer_arm_us delta_us) s inp
          (fun m => arming (m + delta_us.setWidth 64 * TIMER_CYCLES_PER_US) 0) t
          (timerProg (timer_arm_us delta_us) s inp t)) ∨
      ∃ m n, ReadBetween (timer_arm_us delta_us) s inp t m ∧
        Arming s inp (timer_arm_us delta_us) (m + delta_us.setWidth 64 * TIMER_CYCLES_PER_US) n t := by
  induction t with
  | zero =>
    left
    have h : Reading (timer_arm_us delta_us) s inp
        (fun m => arming (m + delta_us.setWidth 64 * TIMER_CYCLES_PER_US) 0) 0 (timer_mtime.bind _) :=
          .first (by simp)
    rw [← timer_arm_us_eq] at h
    exact ⟨rfl, rfl, h⟩
  | succ t ih =>
    rcases ih with ⟨h0, hc, h⟩ | ⟨m, n, hb, ha⟩
    · obtain ⟨hcmp, hl⟩ := cmp_stay h.no_store
      rcases h.next hm hshort with h' | ⟨m, hp, hb⟩
      · exact .inl ⟨hl.trans h0, hcmp.trans hc, h'⟩
      · exact .inr ⟨m, 0, hb, by omega, hp, hcmp.trans hc, hl.trans h0⟩
    · obtain ⟨n', ha'⟩ := ha.next
      exact .inr ⟨m, n', hb.stay ha.no_load, ha'⟩

private theorem cancel_call (s : PortDev ClintTimer) (inp : Nat → HostIn Unit) (t : Nat) :
    ∃ n, Arming s inp timer_cancel (BitVec.allOnes 64) n t := by
  induction t with
  | zero => exact ⟨0, by omega, timer_cancel_eq, rfl, rfl⟩
  | succ t ih =>
    obtain ⟨n, h⟩ := ih
    exact h.next

end Run

/-- What a target found by `timer_arm_us` is: a value the counter had during the call, and the delay in cycles. -/
def Target (delta_us : Word) (s : PortDev ClintTimer) (inp : Nat → HostIn Unit) (t : Nat)
    (target : BitVec 64) : Prop := ∃ m, ReadBetween (timer_arm_us delta_us) s inp t m ∧
    target = m + delta_us.setWidth 64 * TIMER_CYCLES_PER_US

/-- A call programs `target`: what it does to `mtip_o` on the way, and what it leaves in the compare register. -/
structure Programs (c : TimerProg Unit) (s : PortDev ClintTimer) (inp : Nat → HostIn Unit) (target : BitVec 64) :
    Prop where
  fires : ∀ t, Fires c s inp target t
  final : ∀ t, landed c s inp t = 3 → (timerAt c s inp t).mtimecmpQ = target

private theorem Arming.final {c : TimerProg Unit} {s : PortDev ClintTimer} {inp : Nat → HostIn Unit}
    {target : BitVec 64} {n t : Nat} (h : Arming s inp c target n t) (h3 : Timer.landed c s inp t = 3) :
    (timerAt c s inp t).mtimecmpQ = target := by
  have hn : n = 3 := h.landed.symm.trans h3
  rw [h.cmp, hn]
  rfl

/-- A call of `timer_arm_us` finds one target and programs it. -/
private theorem arm_programs {s : PortDev ClintTimer} {inp : Nat → HostIn Unit} {delta_us : Word}
    (hm : s.core.mtimeQ.toNat < 2 ^ 64 - 2 ^ 32) (hshort : Short (timer_arm_us delta_us) s inp) :
    ∃ target, (∀ t, 0 < landed (timer_arm_us delta_us) s inp t → Target delta_us s inp t target) ∧
      Programs (timer_arm_us delta_us) s inp target := by
  classical
  -- the first cycle in which the target is known, if there is one
  by_cases hex : ∃ t m n, ReadBetween (timer_arm_us delta_us) s inp t m ∧
      Arming s inp (timer_arm_us delta_us) (m + delta_us.setWidth 64 * TIMER_CYCLES_PER_US) n t
  · obtain ⟨m, n, hb, ha⟩ := Nat.find_spec hex
    have hlater : ∀ t, Nat.find hex ≤ t → ReadBetween (timer_arm_us delta_us) s inp t m ∧
        ∃ n, Arming s inp (timer_arm_us delta_us) (m + delta_us.setWidth 64 * TIMER_CYCLES_PER_US) n t := by
      intro t ht
      induction t, ht using Nat.le_induction with
      | base => exact ⟨hb, n, ha⟩
      | succ t _ ih =>
        obtain ⟨hb, n, ha⟩ := ih
        exact ⟨hb.stay ha.no_load, ha.next⟩
    have hbefore : ∀ t, t < Nat.find hex → landed (timer_arm_us delta_us) s inp t = 0 ∧
        (timerAt (timer_arm_us delta_us) s inp t).mtimecmpQ = s.core.mtimecmpQ := by
      intro t ht
      rcases arm_call hm hshort t with ⟨h0, hc, -⟩ | h
      · exact ⟨h0, hc⟩
      · exact absurd h (Nat.find_min hex ht)
    refine ⟨m + delta_us.setWidth 64 * TIMER_CYCLES_PER_US, fun t h0 => ?_, fun t => ?_, fun t h3 => ?_⟩
    · rcases Nat.lt_or_ge t (Nat.find hex) with ht | ht
      · have := (hbefore t ht).1
        omega
      · exact ⟨m, (hlater t ht).1, rfl⟩
    · rcases Nat.lt_or_ge t (Nat.find hex) with ht | ht
      · obtain ⟨h0, hc⟩ := hbefore t ht
        exact fires_before h0 hc
      · obtain ⟨-, n, ha⟩ := hlater t ht
        exact ha.fires
    · rcases Nat.lt_or_ge t (Nat.find hex) with ht | ht
      · have := (hbefore t ht).1
        omega
      · obtain ⟨-, n, ha⟩ := hlater t ht
        exact ha.final h3
  · have hall : ∀ t, landed (timer_arm_us delta_us) s inp t = 0 ∧
        (timerAt (timer_arm_us delta_us) s inp t).mtimecmpQ = s.core.mtimecmpQ := by
      intro t
      rcases arm_call hm hshort t with ⟨h0, hc, -⟩ | h
      · exact ⟨h0, hc⟩
      · exact absurd ⟨t, h⟩ hex
    refine ⟨0, fun t h0 => ?_, fun t => fires_before (hall t).1 (hall t).2, fun t h3 => ?_⟩
    · have := (hall t).1
      omega
    · have := (hall t).1
      omega

/-- `timer_mtime` returns a value the counter had during the call, `timer_arm_us` and `timer_cancel` set `mtip_o` on
the way only for the old and the new value and for a counter at `2 ^ 64 - 2 ^ 32` or beyond, and in every run of the
device `mtip_o` is the compare of two cycles before. -/
theorem timer_read_and_arm (s : PortDev ClintTimer) (inp : Nat → HostIn Unit)
    (hm : s.core.mtimeQ.toNat < 2 ^ 64 - 2 ^ 32) :
    (Short timer_mtime s inp → ∀ t v, timerProg timer_mtime s inp t = .ret v → ReadBetween timer_mtime s inp t v) ∧
    (∀ delta_us, Short (timer_arm_us delta_us) s inp → ∃ target,
      (∀ t, 0 < landed (timer_arm_us delta_us) s inp t → Target delta_us s inp t target) ∧
        Programs (timer_arm_us delta_us) s inp target) ∧
    Programs timer_cancel s inp (BitVec.allOnes 64) ∧
    ∀ (q : ClintTimer) (acc : Nat → RegAccess (BitVec 2) Unit) (t : Nat),
      (trace ClintTimer.next q acc (t + 2)).mtipQ = true ↔
        (trace ClintTimer.next q acc t).mtimecmpQ.toNat ≤ (trace ClintTimer.next q acc t).mtimeQ.toNat := by
  refine ⟨fun hshort t v hv => ?_, fun delta_us hshort => arm_programs hm hshort, ⟨fun t => ?_, fun t h3 => ?_⟩,
    fun q acc t => ?_⟩
  · rcases mtime_call hm hshort t with h | ⟨m, hp, hb⟩
    · generalize hx : timerProg timer_mtime s inp t = x at h
      rw [hx] at hv
      cases h <;> cases hv
    · obtain rfl : m = v := by
        rw [hp] at hv
        exact Prog.ret.inj hv
      exact hb
  · obtain ⟨n, h⟩ := cancel_call s inp t
    exact h.fires
  · obtain ⟨n, h⟩ := cancel_call s inp t
    exact h.final h3
  · rw [mtip_trace, BitVec.ule, decide_eq_true_eq]

/-- The counter reaches `2 ^ 64 - 2 ^ 32` while the high half of the compare register is parked and its low half is
still the old one. -/
theorem timer_cancel_transitional :
    ¬∀ (s : PortDev ClintTimer) (inp : Nat → HostIn Unit), s.core.mtimeQ.toNat < 2 ^ 64 - 2 ^ 32 →
      Short timer_cancel s inp → ∀ t, (timerAt timer_cancel s inp (t + 2)).mtipQ = true →
        (landed timer_cancel s inp t = 0 ∧ s.core.mtimecmpQ.toNat ≤ (timerAt timer_cancel s inp t).mtimeQ.toNat) ∨
        (landed timer_cancel s inp t = 3 ∧
          (BitVec.allOnes 64).toNat ≤ (timerAt timer_cancel s inp t).mtimeQ.toNat) := by
  intro h
  have h1 := h ⟨⟨0xFFFFFFFEFFFFFFFF, 0xFFFFFFFE00000000, false, true, true, true⟩, false⟩
    (fun t => ⟨t == 0 || t == 5 || t == 8, ()⟩) (by decide) (fun t ht => by
      obtain ⟨a, ha⟩ := Option.isSome_iff_exists.mp ht
      have hgo := (Host.issue_eq_some.mp ha).2.1
      simp at hgo
      omega) 1 (by decide +kernel)
  revert h1
  decide +kernel

/-- An instance of `timer_read_and_arm`: a call from the reset values without a pause. -/
theorem timer_read_and_arm_reset : ∃ v, ReadBetween timer_mtime ⟨ClintTimer.reset, false⟩ (fun _ => ⟨true, ()⟩) 6 v :=
  ⟨2, (timer_read_and_arm ⟨ClintTimer.reset, false⟩ (fun _ => ⟨true, ()⟩) (by decide)).1 (fun t ht => by
    by_contra hge
    have hret : timerProg timer_mtime ⟨ClintTimer.reset, false⟩ (fun _ => ⟨true, ()⟩) t = .ret 2 :=
      ret_stays (t := 6) rfl (by omega)
    rw [timerAccess, issued, Host.issue_ret hret] at ht
    exact absurd ht (by simp)) 6 2 rfl⟩

end Timer

end Yarv
