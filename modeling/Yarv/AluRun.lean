import Yarv.Lib.Clocked
import Yarv.AluFacts
import Yarv.Kinds

/-!
# The ALU against the ISA

`divider_run` follows one division from its launch to its answer, with the bound that lets the partial remainder lose
a bit; `alu_reference` is the result of the other operations, in both builds of the multiplier, with the address tap.
-/

namespace Yarv

/-- The answer of the ISA to a division, in integers. -/
def AluOp.Divides (o : AluOp) (a b r : Word) : Prop :=
  match o with
  | .div => r.toInt = if b = 0 then -1 else if a = BitVec.intMin 32 ∧ b = -1 then a.toInt else a.toInt.tdiv b.toInt
  | .divu => r.toNat = if b = 0 then 2 ^ 32 - 1 else a.toNat / b.toNat
  | .rem => r.toInt = if b = 0 then a.toInt else if a = BitVec.intMin 32 ∧ b = -1 then 0 else a.toInt.tmod b.toInt
  | .remu => r.toNat = if b = 0 then a.toNat else a.toNat % b.toNat
  | _ => False

/-- A signed quotient overflows only when the smallest word is divided by `-1`. -/
private theorem toInt_sdiv (a b : Word) :
    (a.sdiv b).toInt = if a = BitVec.intMin 32 ∧ b = -1 then a.toInt else a.toInt.tdiv b.toInt := by
  by_cases h : a = BitVec.intMin 32 ∧ b = -1
  · rw [if_pos h, h.1, h.2]
    decide
  · rw [if_neg h]
    apply BitVec.toInt_sdiv_of_ne_or_ne
    rw [← not_and_or]
    exact h

private theorem toInt_srem (a b : Word) :
    (a.srem b).toInt = if a = BitVec.intMin 32 ∧ b = -1 then 0 else a.toInt.tmod b.toInt := by
  by_cases h : a = BitVec.intMin 32 ∧ b = -1
  · rw [if_pos h, h.1, h.2]
    decide
  · rw [if_neg h, BitVec.toInt_srem]

/-- The words of `AluOp.eval` are the integers of the ISA. -/
private theorem eval_divides {o : AluOp} (ho : o.isDiv = true) (shamt : BitVec 2) (a b : Word) :
    o.Divides a b (o.eval shamt a b) := by
  by_cases hb : b = 0
  · cases o
    case div =>
      simp only [AluOp.Divides, AluOp.eval, if_pos hb]
      decide
    case divu =>
      simp only [AluOp.Divides, AluOp.eval, if_pos hb]
      decide
    case rem => simp only [AluOp.Divides, AluOp.eval, if_pos hb]
    case remu => simp only [AluOp.Divides, AluOp.eval, if_pos hb]
    all_goals exact absurd ho (by decide)
  · cases o
    case div =>
      simp only [AluOp.Divides, AluOp.eval, if_neg hb]
      exact toInt_sdiv a b
    case divu =>
      simp only [AluOp.Divides, AluOp.eval, if_neg hb]
      exact BitVec.toNat_udiv
    case rem =>
      simp only [AluOp.Divides, AluOp.eval, if_neg hb]
      exact toInt_srem a b
    case remu =>
      simp only [AluOp.Divides, AluOp.eval, if_neg hb]
      exact BitVec.toNat_umod
    all_goals exact absurd ho (by decide)

namespace Alu

open Clocked

variable {q : Alu} {i j : AluIn}

/-! ### The run of a division -/

/-- A division looks at the operands and at nothing else of its input. -/
private theorem DivPart.held {k : Nat} (h : DivPart q i k) (ho : j.op = i.op) (ha : j.a = i.a) (hb : j.b = i.b) :
    DivPart q j k := by
  obtain ⟨a, b, op, shamt, start⟩ := j
  simp only at ho ha hb
  subst ho ha hb
  exact ⟨h.op, h.a, h.divisor, h.neg, h.bz, h.acc⟩

/-- What the upper half of the register becomes: twice what it was and the next dividend bit. -/
private theorem remPart_toNat (h : q.divRemRaw.toNat < 2 ^ 31) :
    q.remPart.toNat = 2 * q.divRemRaw.toNat + (q.divRemQ.getLsbD 31).toNat := by
  have hq := q.divRemQ.isLt
  have hb : (q.divRemQ.getLsbD 31).toNat = q.divRemQ.toNat / 2 ^ 31 % 2 := by
    rw [BitVec.getLsbD, Nat.testBit_eq_decide_div_mod_eq]
    rcases Nat.mod_two_eq_zero_or_one (q.divRemQ.toNat / 2 ^ 31) with h0 | h1
    · rw [h0]
      rfl
    · rw [h1]
      rfl
  rw [divRemRaw, BitVec.extractLsb'_toNat, Nat.shiftRight_eq_div_pow] at h
  rw [hb, divRemRaw, remPart, shifted, BitVec.extractLsb'_toNat, BitVec.extractLsb'_toNat, BitVec.toNat_shiftLeft,
    Nat.shiftRight_eq_div_pow, Nat.shiftRight_eq_div_pow, Nat.shiftLeft_eq]
  omega

/-- An iteration at most doubles the partial remainder, for every divisor. -/
private theorem divRemStep_lt {k : Nat} (hk : k < 32) (h : q.divRemRaw.toNat < 2 ^ k) :
    ((divRemStep q).extractLsb' 32 32).toNat < 2 ^ (k + 1) := by
  have h31 : q.divRemRaw.toNat < 2 ^ 31 := lt_of_lt_of_le h (Nat.pow_le_pow_right Nat.two_pos (by omega))
  have hr := remPart_toNat h31
  have hbit := Bool.toNat_lt (q.divRemQ.getLsbD 31)
  have hlt : q.remPart.toNat < 2 ^ (k + 1) := by
    rw [pow_succ]
    omega
  unfold divRemStep
  by_cases hd : q.divDivisorQ.ule q.remPart = true
  · rw [if_pos hd]
    have hx : ((q.remPart - q.divDivisorQ) ++ q.shifted.extractLsb' 1 31 ++ 1#1 : BitVec 64).extractLsb' 32 32 =
        q.remPart - q.divDivisorQ := by
      apply BitVec.eq_of_toNat_eq
      have hlow := (q.shifted.extractLsb' 1 31).isLt
      have hone : (1#1).toNat = 1 := rfl
      have happ := toNat_append ((q.remPart - q.divDivisorQ) ++ q.shifted.extractLsb' 1 31) 1#1
      have hin := toNat_append (q.remPart - q.divDivisorQ) (q.shifted.extractLsb' 1 31)
      rw [hone] at happ
      rw [hin] at happ
      have hsub := (q.remPart - q.divDivisorQ).isLt
      rw [BitVec.extractLsb'_toNat, Nat.shiftRight_eq_div_pow, happ]
      omega
    rw [hx]
    have hle : q.divDivisorQ ≤ q.remPart := by
      rw [BitVec.le_def]
      exact BitVec.ule_iff_toNat_le.mp hd
    rw [BitVec.toNat_sub_of_le hle]
    omega
  · rw [if_neg hd]
    exact hlt

/-- One division, followed from its launch in cycle 0. -/
structure DivRun (p : Params) (q : Alu) (inp : Nat → AluIn) : Prop where
  /-- Thirty-two iterations. -/
  iterates : ∀ k < 32, (trace next q inp (k + 1)).divStateQ = .run
  /-- The partial remainder in front of an iteration. -/
  bounded : ∀ k < 32, (trace next q inp (k + 1)).divRemRaw.toNat < 2 ^ 31
  /-- The 32 bits of `rem_part` hold all of the doubled remainder. -/
  kept : ∀ k < 32, (trace next q inp (k + 1)).remPart.toNat =
    2 * (trace next q inp (k + 1)).divRemRaw.toNat + ((trace next q inp (k + 1)).divRemQ.getLsbD 31).toNat
  finished : (trace next q inp 33).divStateQ = .done
  valid : resultValid (trace next q inp 33) (inp 33) = true
  answer : (inp 0).op.Divides (inp 0).a (inp 0).b (result p (trace next q inp 33) (inp 33))

/-- The operands and the operation do not change in the first `n` cycles. -/
def Held (inp : Nat → AluIn) (n : Nat) : Prop :=
  ∀ t ≤ n, (inp t).op = (inp 0).op ∧ (inp t).a = (inp 0).a ∧ (inp t).b = (inp 0).b

/-- The divider after `k` iterations. -/
structure Iterated (q : Alu) (i : AluIn) (k : Nat) : Prop where
  state : q.divStateQ = .run
  cnt : q.divCntQ.toNat = k
  part : DivPart q i k
  bound : q.divRemRaw.toNat < 2 ^ k

private theorem Iterated.launch (hq : q.divStateQ = .idle) (hs : i.start = true) (ho : isDivOp i = true) :
    Iterated (next q i) i 0 := by
  have hst : divStart q i = true := by simp [divStart, hq, hs, ho]
  have hc : (next q i).divCntQ = 0 := by simp [next, divCntD, hq, hs, ho]
  have hr : (next q i).divRemRaw = 0 := by
    rw [divRemRaw, show (next q i).divRemQ = (0#32) ++ divAAbs i by simp [next, hst],
      BitVec.extractLsb'_append_eq_of_le (by decide)]
    rfl
  have hat := DivAt.start hq hs ho
  have hrun : (next q i).divStateQ = .run := by simp [next, divStateD, hq, hs, ho]
  refine ⟨hrun, by rw [hc]; rfl, ?_, by rw [hr]; decide⟩
  cases hat with
  | run _ part =>
    rw [hc] at part
    exact part
  | done state _ =>
    rw [hrun] at state
    exact absurd state (by decide)

/-- One iteration, before the last. -/
private theorem Iterated.next {k : Nat} (h : Iterated q i k) (hk : k < 31) : Iterated (next q i) i (k + 1) := by
  have hne : q.divCntQ ≠ 31#5 := by
    intro he
    have hc : k = 31 := by rw [← h.cnt, he]; rfl
    omega
  have hrun := run_next (i := i) h.state
  rw [if_neg hne, h.cnt] at hrun
  have hst : divStart q i = false := by simp [divStart, h.state]
  refine ⟨hrun.1, hrun.2, h.part.next h.state (by omega), ?_⟩
  rw [divRemRaw, show (Alu.next q i).divRemQ = divRemStep q by simp [Alu.next, hst, h.state]]
  exact divRemStep_lt (by omega) h.bound

private theorem Iterated.held {k : Nat} (h : Iterated q i k) (ho : j.op = i.op) (ha : j.a = i.a) (hb : j.b = i.b) :
    Iterated q j k :=
  ⟨h.state, h.cnt, h.part.held ho ha hb, h.bound⟩

private theorem iterated_run {inp : Nat → AluIn} (hq : q.divStateQ = .idle) (hs : (inp 0).start = true)
    (ho : isDivOp (inp 0) = true) (hh : Held inp 33) {k : Nat} (hk : k < 32) :
    Iterated (trace next q inp (k + 1)) (inp (k + 1)) k := by
  induction k with
  | zero =>
    obtain ⟨h1, h2, h3⟩ := hh 1 (by omega)
    exact (Iterated.launch hq hs ho).held h1 h2 h3
  | succ k ih =>
    obtain ⟨h1, h2, h3⟩ := hh (k + 1) (by omega)
    obtain ⟨h1', h2', h3'⟩ := hh (k + 2) (by omega)
    exact ((ih (by omega)).next (by omega)).held (h1'.trans h1.symm) (h2'.trans h2.symm) (h3'.trans h3.symm)

/-- **Division.**  A division launched from idle with its operands held iterates 32 times, never with a partial
remainder of `2 ^ 31` or more, and answers what the ISA asks for. -/
theorem divider_run (p : Params) (q : Alu) (inp : Nat → AluIn) (hq : q.divStateQ = .idle)
    (hs : (inp 0).start = true) (ho : isDivOp (inp 0) = true) (hh : Held inp 33) : DivRun p q inp := by
  have hrun : ∀ k < 32, Iterated (trace next q inp (k + 1)) (inp (k + 1)) k :=
    fun k hk => iterated_run hq hs ho hh hk
  have hbound : ∀ k < 32, (trace next q inp (k + 1)).divRemRaw.toNat < 2 ^ 31 := fun k hk =>
    lt_of_lt_of_le (hrun k hk).bound (Nat.pow_le_pow_right Nat.two_pos (by omega))
  have hlast := hrun 31 (by decide)
  have hdone := run_next (i := inp 32) hlast.state
  have hc31 : (trace next q inp (31 + 1)).divCntQ = 31#5 := BitVec.eq_of_toNat_eq hlast.cnt
  rw [if_pos hc31] at hdone
  obtain ⟨h1, h2, h3⟩ := hh 32 (by omega)
  obtain ⟨h1', h2', h3'⟩ := hh 33 le_rfl
  have hpart : DivPart (trace next q inp 33) (inp 33) 32 :=
    (hlast.part.next hlast.state (by decide)).held (h1'.trans h1.symm) (h2'.trans h2.symm) (h3'.trans h3.symm)
  refine ⟨fun k hk => (hrun k hk).state, hbound, fun k hk => remPart_toNat (hbound k hk), hdone, ?_, ?_⟩
  · rw [resultValid, hpart.op]
    exact beq_iff_eq.mpr hdone
  · rw [hpart.result (p := p), h1', h2', h3']
    exact eval_divides ho _ _ _

/-- `-7 / 2`, from reset. -/
theorem divider_run_neg : DivRun .pkg reset fun _ => ⟨-7, 2, .div, 0, true⟩ :=
  divider_run .pkg reset (fun _ => ⟨-7, 2, .div, 0, true⟩) rfl rfl rfl fun _ _ => ⟨rfl, rfl, rfl⟩

/-! ### The other operations -/

/-- The result of every operation but the divisions is the one of the ISA; the two builds of the multiplier agree; and
for the operation of a decoded load, store or indexed load the address tap is the result. -/
theorem alu_reference (p : Params) (q : Alu) (i : AluIn) (hd : isDivOp i = false) :
    result p q i = i.op.eval i.shamt i.a i.b ∧
      (isMulOp i = true → mulShared i = mulThree i) ∧
      (∀ w, (opcodeTree w).illegal = false → ((opcodeTree w).memRead || (opcodeTree w).memWrite) = true →
        i.op = (opcodeTree w).aluOp → ea i = result p q i) := by
  refine ⟨result_eq_of_not_div p q i hd, ?_, ?_⟩
  · intro hm
    have h1 : mulShared i = mulResult { Params.pkg with mulSharedDsp := true } i := rfl
    have h2 : mulThree i = mulResult { Params.pkg with mulSharedDsp := false } i := rfl
    rw [h1, h2, mulResult_eq _ i hm, mulResult_eq _ i hm]
  · intro w hi hm ho
    obtain ⟨k, hk⟩ := opcodeTree_hasKind w
    have hk' : k = .mem := by
      have := hk.mem
      rw [hi, hm] at this
      simpa using this.symm
    have hsel : isMulOp i = false ∧ selAdder i = true := by
      rcases hk.ea hk' with h | h <;> rw [h] at ho <;> simp [isMulOp, selAdder, opIsLx, ho]
    rw [result, hsel.1, hsel.2]
    rfl

/-- A multiplication of two negative words. -/
theorem alu_reference_mulh :
    result .pkg reset ⟨-3, -5, .mulh, 0, false⟩ = AluOp.eval .mulh 0 (-3) (-5) :=
  (alu_reference .pkg reset ⟨-3, -5, .mulh, 0, false⟩ rfl).1

end Alu

end Yarv
