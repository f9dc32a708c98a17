import Yarv.Alu
import Yarv.Lib.Division

/-!
# What the ALU computes

`AluOp.eval` is the operation as the ISA defines it.  The combinational operations answer it at once, in both builds
of the multiplier (`result_eq_of_not_div`); the divider answers it when its 32 iterations are over (`DivAt`).
-/

namespace Yarv

/-- The operation of the ISA behind an ALU code; `shamt` scales the index of an indexed load. -/
def AluOp.eval (o : AluOp) (shamt : BitVec 2) (a b : Word) : Word :=
  match o with
  | .add => a + b
  | .sub => a - b
  | .sll => a <<< (b.toNat % 32)
  | .slt => if a.slt b then 1 else 0
  | .sltu => if a.ult b then 1 else 0
  | .xor => a ^^^ b
  | .srl => a >>> (b.toNat % 32)
  | .sra => a.sshiftRight (b.toNat % 32)
  | .or => a ||| b
  | .and => a &&& b
  | .mul => a * b
  | .mulh => (a.signExtend 64 * b.signExtend 64).extractLsb' 32 32
  | .mulhsu => (a.signExtend 64 * b.setWidth 64).extractLsb' 32 32
  | .mulhu => (a.setWidth 64 * b.setWidth 64).extractLsb' 32 32
  | .div => if b = 0 then BitVec.allOnes 32 else a.sdiv b
  | .divu => if b = 0 then BitVec.allOnes 32 else a / b
  | .rem => if b = 0 then a else a.srem b
  | .remu => if b = 0 then a else a % b
  | .lx => a + b <<< shamt.toNat

namespace Alu

variable (p : Params) (q : Alu) (i : AluIn)

/-! ### Adder and comparator -/

private theorem ea_eq : ea i = i.a + addendB i + (BitVec.ofBool (opIsSub i)).setWidth 32 := by
  apply BitVec.eq_of_toNat_eq
  have ha := i.a.isLt
  have hb := (addendB i).isLt
  have hs := (BitVec.ofBool (opIsSub i)).isLt
  simp only [ea, adderSum, BitVec.toNat_setWidth, BitVec.toNat_add]
  omega

private theorem ea_sub (h : opIsSub i = true) : ea i = i.a - i.b := by
  rw [ea_eq, addendB, h, if_pos rfl]
  apply BitVec.eq_of_toNat_eq
  have ha := i.a.isLt
  have hb := i.b.isLt
  have h1 : ((BitVec.ofBool true).setWidth 32).toNat = 1 := rfl
  rw [BitVec.toNat_add, h1, BitVec.toNat_add, BitVec.toNat_sub, BitVec.toNat_not]
  omega

theorem ea_add (h : opIsSub i = false) : ea i = i.a + addendB i := by
  rw [ea_eq, h]
  simp

private theorem adderSum_toNat_sub (h : opIsSub i = true) :
    (adderSum i).toNat = i.a.toNat + (2 ^ 32 - 1 - i.b.toNat) + 1 := by
  have ha := i.a.isLt
  have hb := i.b.isLt
  have h1 : ((BitVec.ofBool true).setWidth 33).toNat = 1 := rfl
  rw [adderSum, addendB, h, if_pos rfl, BitVec.toNat_add, h1, BitVec.toNat_add, BitVec.toNat_setWidth,
    BitVec.toNat_setWidth, BitVec.toNat_not]
  omega

private theorem cmpLt_sltu (h : i.op = .sltu) : cmpLt i = i.a.ult i.b := by
  have hs : opIsSub i = true := by simp [opIsSub, h]
  have hn := adderSum_toNat_sub i hs
  have ha := i.a.isLt
  have hb := i.b.isLt
  have hc : (adderSum i).getLsbD 32 = decide (i.b.toNat ≤ i.a.toNat) := by
    rw [BitVec.getLsbD, hn, Nat.testBit_eq_decide_div_mod_eq]
    congr 1
    apply propext
    omega
  simp only [cmpLt, h, beq_self_eq_true, if_true, hc, BitVec.ult]
  rw [← decide_not]
  congr 1
  apply propext
  omega

private theorem cmpLt_slt (h : i.op = .slt) : cmpLt i = i.a.slt i.b := by
  have hs : opIsSub i = true := by simp [opIsSub, h]
  have hn := adderSum_toNat_sub i hs
  have ha := i.a.isLt
  have hb := i.b.isLt
  have hc : (adderSum i).getLsbD 31 = decide ((adderSum i).toNat / 2 ^ 31 % 2 = 1) := by
    rw [BitVec.getLsbD, Nat.testBit_eq_decide_div_mod_eq]
  rw [cmpLt, h, if_neg (by decide), hc, hn, BitVec.slt_eq_decide, BitVec.toInt_eq_toNat_cond,
    BitVec.toInt_eq_toNat_cond, BitVec.msb_eq_decide, BitVec.msb_eq_decide]
  -- The signs agree or they decide the comparison.
  by_cases h1 : 2147483648 ≤ i.a.toNat <;> by_cases h2 : 2147483648 ≤ i.b.toNat
  · rw [if_neg (by simp [h1, h2]), if_neg (by omega), if_neg (by omega), decide_eq_decide]
    omega
  · rw [if_pos (by simp [h1, h2]), if_neg (by omega), if_pos (by omega), decide_eq_decide]
    omega
  · rw [if_pos (by simp [h1, h2]), if_pos (by omega), if_neg (by omega), decide_eq_decide]
    omega
  · rw [if_neg (by simp [h1, h2]), if_pos (by omega), if_pos (by omega), decide_eq_decide]
    omega

/-! ### Multiplier -/

/-- A 33-bit operand of the shared multiplier, told by its bits. -/
private theorem extend_of_bits {c : Bool} {a : Word} {x : BitVec 33} (hlow : ∀ k < 32, x.getLsbD k = a.getLsbD k)
    (htop : x.getLsbD 32 = (c && a.msb)) :
    (x.signExtend 66).setWidth 64 = if c then a.signExtend 64 else a.setWidth 64 := by
  have hm : x.msb = (c && a.msb) := by rw [BitVec.msb_eq_getLsbD_last, htop]
  apply BitVec.eq_of_getLsbD_eq
  intro k hk
  rw [BitVec.getLsbD_setWidth, BitVec.getLsbD_signExtend, hm]
  rw [decide_eq_true hk, decide_eq_true (show k < 66 by omega), Bool.true_and, Bool.true_and]
  have hr : (if c then a.signExtend 64 else a.setWidth 64).getLsbD k =
      if k < 32 then a.getLsbD k else c && a.msb := by
    cases c
    · rw [if_neg (by decide), BitVec.getLsbD_setWidth, decide_eq_true hk, Bool.true_and]
      by_cases h1 : k < 32
      · rw [if_pos h1]
      · rw [if_neg h1, BitVec.getLsbD_of_ge _ _ (by omega), Bool.false_and]
    · rw [if_pos rfl, BitVec.getLsbD_signExtend, decide_eq_true hk, Bool.true_and, Bool.true_and]
  rw [hr]
  by_cases h1 : k < 32
  · rw [if_pos h1, if_pos (by omega), hlow k h1]
  · rw [if_neg h1]
    by_cases h2 : k < 33
    · obtain rfl : k = 32 := by omega
      rw [if_pos h2, htop]
    · rw [if_neg h2]

/-- The operand the shared multiplier extends by one bit. -/
private theorem extend_append (c : Bool) (a : Word) :
    ((BitVec.ofBool (c && a.msb) ++ a : BitVec 33).signExtend 66).setWidth 64 =
      if c then a.signExtend 64 else a.setWidth 64 := by
  refine extend_of_bits (fun k hk => ?_) ?_
  · exact (BitVec.getLsbD_append (x := BitVec.ofBool (c && a.msb)) (y := a)).trans (by simp [hk])
  · exact (BitVec.getLsbD_append (x := BitVec.ofBool (c && a.msb)) (y := a)).trans (by simp)

/-- The low 64 bits of a product need only the low 64 bits of its factors. -/
private theorem extract_product (x y : BitVec 66) :
    (x * y).extractLsb' 32 32 = (x.setWidth 64 * y.setWidth 64).extractLsb' 32 32 := by
  rw [← BitVec.setWidth_mul _ _ (by decide)]
  ext k hk
  simp
  omega

/-- The low word of a product needs only the low words of its factors. -/
private theorem extract_product_low {n : Nat} (hn : 32 ≤ n) (x y : BitVec n) :
    (x * y).extractLsb' 0 32 = x.setWidth 32 * y.setWidth 32 := by
  rw [← BitVec.setWidth_mul _ _ hn, BitVec.setWidth_eq_extractLsb' hn]

private theorem setWidth_signExtend (a : Word) {n : Nat} (hn : 32 ≤ n) : (a.signExtend n).setWidth 32 = a := by
  apply BitVec.eq_of_getLsbD_eq
  intro k hk
  rw [BitVec.getLsbD_setWidth, BitVec.getLsbD_signExtend, decide_eq_true hk, decide_eq_true (show k < n by omega),
    if_pos hk, Bool.true_and, Bool.true_and]

private theorem extend_low (c : Bool) (a : Word) :
    ((BitVec.ofBool (c && a.msb) ++ a : BitVec 33).signExtend 66).setWidth 32 = a := by
  have h := congrArg (BitVec.setWidth 32) (extend_append c a)
  rw [BitVec.setWidth_setWidth_of_le _ (by decide)] at h
  rw [h]
  cases c
  · simp
  · exact setWidth_signExtend a (by decide)

/-- The shared multiplier, for a signedness of its operands. -/
def sharedProduct (c d : Bool) : BitVec 66 :=
  (BitVec.ofBool (c && i.a.msb) ++ i.a : BitVec 33).signExtend 66 *
    (BitVec.ofBool (d && i.b.msb) ++ i.b : BitVec 33).signExtend 66

private theorem sharedProduct_high (c d : Bool) :
    (sharedProduct i c d).extractLsb' 32 32 =
      ((if c then i.a.signExtend 64 else i.a.setWidth 64) *
        (if d then i.b.signExtend 64 else i.b.setWidth 64)).extractLsb' 32 32 := by
  rw [sharedProduct, extract_product, extend_append, extend_append]

private theorem sharedProduct_low (c d : Bool) : (sharedProduct i c d).extractLsb' 0 32 = i.a * i.b := by
  rw [sharedProduct, extract_product_low (by decide), extend_low, extend_low]

private theorem mulShared_eq :
    mulShared i = if i.op != .mul then
      (sharedProduct i (i.op != .mulhu) (i.op == .mul || i.op == .mulh)).extractLsb' 32 32
      else (sharedProduct i (i.op != .mulhu) (i.op == .mul || i.op == .mulh)).extractLsb' 0 32 := rfl

/-- Both builds of the multiplier compute the product the ISA asks for. -/
theorem mulResult_eq (hm : isMulOp i = true) : mulResult p i = i.op.eval i.shamt i.a i.b := by
  have hop : i.op = .mul ∨ i.op = .mulh ∨ i.op = .mulhsu ∨ i.op = .mulhu := by
    simpa [isMulOp, or_assoc] using hm
  rw [mulResult, mulShared_eq, sharedProduct_high, sharedProduct_low]
  rcases hop with h | h | h | h
  · simp [h, mulThree, AluOp.eval, extract_product_low, setWidth_signExtend]
  · simp [h, mulThree, AluOp.eval]
  · simp [h, mulThree, AluOp.eval]
  · simp [h, mulThree, AluOp.eval]

/-! ### Combinational results -/

private theorem shamt_eq : (shamtRb i).toNat = i.b.toNat % 32 := by
  rw [shamtRb, BitVec.extractLsb'_toNat]
  rfl

/-- The operations that do not run in the divider answer at once. -/
theorem result_eq_of_not_div (hd : isDivOp i = false) : result p q i = i.op.eval i.shamt i.a i.b := by
  unfold result
  cases hm : isMulOp i with
  | true => rw [if_pos rfl, mulResult_eq p i hm]
  | false =>
    rw [if_neg (by decide)]
    cases ho : i.op
    case add => simp [selAdder, ho, ea_add i (by simp [opIsSub, ho]), addendB, opIsSub, opIsLx, AluOp.eval]
    case sub => simp [selAdder, ho, ea_sub i (by simp [opIsSub, ho]), AluOp.eval]
    case lx => simp [selAdder, ho, ea_add i (by simp [opIsSub, ho]), addendB, opIsSub, opIsLx, AluOp.eval]
    case slt =>
      simp only [selAdder, ho, opIsLx, earlyResult, hd, selCmp, cmpLt_slt i ho, AluOp.eval]
      cases i.a.slt i.b <;> rfl
    case sltu =>
      simp only [selAdder, ho, opIsLx, earlyResult, hd, selCmp, cmpLt_sltu i ho, AluOp.eval]
      cases i.a.ult i.b <;> rfl
    case sll => simp [selAdder, ho, opIsLx, earlyResult, hd, selCmp, logicShiftResult, AluOp.eval, shamt_eq]
    case srl => simp [selAdder, ho, opIsLx, earlyResult, hd, selCmp, logicShiftResult, AluOp.eval, shamt_eq]
    case sra => simp [selAdder, ho, opIsLx, earlyResult, hd, selCmp, logicShiftResult, AluOp.eval, shamt_eq]
    case xor => simp [selAdder, ho, opIsLx, earlyResult, hd, selCmp, logicShiftResult, AluOp.eval]
    case or => simp [selAdder, ho, opIsLx, earlyResult, hd, selCmp, logicShiftResult, AluOp.eval]
    case and => simp [selAdder, ho, opIsLx, earlyResult, hd, selCmp, logicShiftResult, AluOp.eval]
    all_goals simp [isMulOp, isDivOp, ho] at hm hd

/-! ### Divider -/

theorem toNat_append {m n : Nat} (x : BitVec m) (y : BitVec n) : (x ++ y).toNat = x.toNat * 2 ^ n + y.toNat := by
  rw [BitVec.toNat_append, ← Nat.shiftLeft_add_eq_or_of_lt y.isLt, Nat.shiftLeft_eq]

/-- The register of the divider does one iteration of the division. -/
private theorem divRemStep_toNat {A B k : Nat} (hA : A < 2 ^ 32) (hB : 0 < B) (hk : k < 32)
    (hd : q.divDivisorQ.toNat = B) (h : q.divRemQ.toNat = Division.acc 32 A B k) :
    (divRemStep q).toNat = Division.acc 32 A B (k + 1) := by
  have hdouble := Division.double_acc (A := A) (B := B) hk
  have hlow := Division.low_lt (B := B) hA hk
  have hhigh := Division.high_lt (B := B) hA hk
  have heven := Division.low_even (n := 32) (A := A) (B := B) (k := k)
  have hs : q.shifted.toNat = Division.high 32 A B k * 2 ^ 32 + Division.low 32 A B k := by
    rw [shifted, BitVec.toNat_shiftLeft, Nat.shiftLeft_eq, h]
    omega
  have hr : q.remPart.toNat = Division.high 32 A B k := by
    rw [remPart, BitVec.extractLsb'_toNat, Nat.shiftRight_eq_div_pow, hs]
    omega
  rw [Division.acc_succ hB hk, divRemStep, BitVec.ule, hd, hr]
  by_cases hle : B ≤ Division.high 32 A B k
  · have hsub : (q.remPart - q.divDivisorQ).toNat = Division.high 32 A B k - B := by
      rw [BitVec.toNat_sub_of_le (by rw [BitVec.le_def, hd, hr]; exact hle), hr, hd]
    have hmid : (q.shifted.extractLsb' 1 31).toNat = Division.low 32 A B k / 2 := by
      rw [BitVec.extractLsb'_toNat, Nat.shiftRight_eq_div_pow, hs]
      omega
    rw [if_pos (decide_eq_true hle), if_pos hle]
    refine (toNat_append ((q.remPart - q.divDivisorQ) ++ q.shifted.extractLsb' 1 31) 1#1).trans ?_
    rw [toNat_append, hsub, hmid]
    have h1 : (1#1).toNat = 1 := rfl
    omega
  · rw [if_neg (by simpa using hle), if_neg hle, hs]

/-- The divider is `k` iterations into the division its operands ask for. -/
structure DivPart (q : Alu) (i : AluIn) (k : Nat) : Prop where
  op : isDivOp i = true
  a : q.divAQ = divAAbs i
  divisor : q.divDivisorQ = divBAbs i
  neg : q.divNegQ = divNegD i
  bz : q.divBzQ = (i.b == 0)
  acc : i.b ≠ 0 → q.divRemQ.toNat = Division.acc 32 (divAAbs i).toNat (divBAbs i).toNat k

/-- The divider works on its operands, or holds their result. -/
inductive DivAt (q : Alu) (i : AluIn) : Prop
  | run (state : q.divStateQ = .run) (part : DivPart q i q.divCntQ.toNat)
  | done (state : q.divStateQ = .done) (part : DivPart q i 32)

variable {q i}

private theorem divBAbs_pos (h : i.b ≠ 0) : 0 < (divBAbs i).toNat := by
  have hb : divBAbs i ≠ 0 := by
    rw [divBAbs]
    split
    · simpa using h
    · exact h
  exact Nat.pos_of_ne_zero fun h0 => hb (BitVec.eq_of_toNat_eq h0)

/-- The start pulse is no operand. -/
theorem DivAt.operands {s : Bool} (h : DivAt q { i with start := s }) : DivAt q i := by
  cases h with
  | run state part => exact .run state ⟨part.op, part.a, part.divisor, part.neg, part.bz, part.acc⟩
  | done state part => exact .done state ⟨part.op, part.a, part.divisor, part.neg, part.bz, part.acc⟩

/-- A launch. -/
theorem DivAt.start (hq : q.divStateQ = .idle) (hs : i.start = true) (ho : isDivOp i = true) :
    DivAt (next q i) i := by
  have hst : divStart q i = true := by simp [divStart, hq, hs, ho]
  refine .run (by simp [next, divStateD, hq, hs, ho]) ?_
  have hc : (next q i).divCntQ = 0 := by simp [next, divCntD, hq, hs, ho]
  rw [hc]
  refine ⟨ho, by simp [next, hst], by simp [next, hst], by simp [next, hst], by simp [next, hst], fun _ => ?_⟩
  rw [show (next q i).divRemQ = (0#32) ++ divAAbs i by simp [next, hst]]
  refine (toNat_append 0#32 (divAAbs i)).trans ?_
  rw [show (0 : BitVec 5).toNat = 0 from rfl, Division.acc_zero (divAAbs i).isLt]
  simp

/-- One iteration. -/
theorem DivPart.next {k : Nat} (h : DivPart q i k) (hs : q.divStateQ = .run) (hk : k < 32) :
    DivPart (next q i) i (k + 1) := by
  have hst : divStart q i = false := by simp [divStart, hs]
  have hacc : i.b ≠ 0 → (Alu.next q i).divRemQ.toNat =
      Division.acc 32 (divAAbs i).toNat (divBAbs i).toNat (k + 1) := by
    intro hb
    rw [show (Alu.next q i).divRemQ = divRemStep q by simp [Alu.next, hst, hs]]
    exact divRemStep_toNat q (divAAbs i).isLt (divBAbs_pos hb) hk (by rw [h.divisor]) (h.acc hb)
  exact ⟨h.op, by simp [Alu.next, hst, h.a], by simp [Alu.next, hst, h.divisor], by simp [Alu.next, hst, h.neg],
    by simp [Alu.next, hst, h.bz], hacc⟩

/-- The counter runs to 31. -/
theorem run_next (hs : q.divStateQ = .run) :
    if q.divCntQ = 31#5 then (next q i).divStateQ = .done
    else (next q i).divStateQ = .run ∧ (next q i).divCntQ.toNat = q.divCntQ.toNat + 1 := by
  have hcnt := q.divCntQ.isLt
  by_cases hlast : q.divCntQ = 31#5
  · rw [if_pos hlast]
    simp [Alu.next, divStateD, hs, hlast]
  · rw [if_neg hlast]
    have hne : q.divCntQ.toNat ≠ 31 := fun he => hlast (BitVec.eq_of_toNat_eq he)
    refine ⟨by simp [Alu.next, divStateD, hs, hlast], ?_⟩
    rw [show (Alu.next q i).divCntQ = q.divCntQ + 1 by simp [Alu.next, divCntD, hs, hlast], BitVec.toNat_add]
    have : (1 : BitVec 5).toNat = 1 := rfl
    omega

/-- One clock edge before the answer. -/
theorem DivAt.next (h : DivAt q i) (hv : resultValid q i = false) : DivAt (next q i) i := by
  cases h with
  | done state part => simp [resultValid, part.op, state] at hv
  | run state part =>
    have hpart := part.next state q.divCntQ.isLt
    have hrun := run_next (i := i) state
    by_cases hlast : q.divCntQ = 31#5
    · rw [if_pos hlast] at hrun
      rw [hlast] at hpart
      exact .done hrun hpart
    · rw [if_neg hlast] at hrun
      rw [← hrun.2] at hpart
      exact .run hrun.1 hpart

/-- The finished division holds quotient and remainder. -/
private theorem DivPart.raw (h : DivPart q i 32) (hb : i.b ≠ 0) :
    q.divQuotRaw = divAAbs i / divBAbs i ∧ q.divRemRaw = divAAbs i % divBAbs i := by
  have hacc := h.acc hb
  rw [Division.acc_last] at hacc
  have ha := (divAAbs i).isLt
  have hq := Nat.div_le_self (divAAbs i).toNat (divBAbs i).toNat
  have hr := Nat.mod_le (divAAbs i).toNat (divBAbs i).toNat
  constructor
  · apply BitVec.eq_of_toNat_eq
    rw [divQuotRaw, BitVec.extractLsb'_toNat, Nat.shiftRight_zero, hacc, BitVec.toNat_udiv]
    generalize (divAAbs i).toNat % (divBAbs i).toNat = r at *
    generalize (divAAbs i).toNat / (divBAbs i).toNat = c at *
    omega
  · apply BitVec.eq_of_toNat_eq
    rw [divRemRaw, BitVec.extractLsb'_toNat, Nat.shiftRight_eq_div_pow, hacc, BitVec.toNat_umod]
    generalize (divAAbs i).toNat % (divBAbs i).toNat = r at *
    generalize (divAAbs i).toNat / (divBAbs i).toNat = c at *
    omega

/-- The finished division answers what the ISA asks for, division by zero and overflow included. -/
theorem DivPart.result (h : DivPart q i 32) : result p q i = i.op.eval i.shamt i.a i.b := by
  have hop : i.op = .div ∨ i.op = .divu ∨ i.op = .rem ∨ i.op = .remu := by
    simpa [isDivOp, or_assoc] using h.op
  have hr : Alu.result p q i = divResult q i := by
    rcases hop with ho | ho | ho | ho <;> simp [Alu.result, isMulOp, selAdder, opIsLx, earlyResult, isDivOp, ho]
  rw [hr, divResult, divMag, h.neg, h.bz]
  by_cases hb : i.b = 0
  · rcases hop with ho | ho | ho | ho
    · simp [ho, hb, divNegD, divTakeRem, AluOp.eval]
    · simp [ho, hb, divNegD, divTakeRem, AluOp.eval]
    · cases hm : i.a.msb <;> simp [ho, hb, divNegD, divTakeRem, AluOp.eval, h.a, divAAbs, divSigned, hm]
    · simp [ho, hb, divNegD, divTakeRem, AluOp.eval, h.a, divAAbs, divSigned]
  · obtain ⟨hquot, hrem⟩ := h.raw hb
    replace hb : i.b ≠ 0#32 := hb
    rcases hop with ho | ho | ho | ho
    · cases hm : i.a.msb <;> cases hn : i.b.msb <;>
        simp [ho, hb, divNegD, divTakeRem, AluOp.eval, hquot, divAAbs, divBAbs, divSigned, hm, hn, BitVec.sdiv]
    · simp [ho, hb, divNegD, divTakeRem, AluOp.eval, hquot, divAAbs, divBAbs, divSigned]
    · cases hm : i.a.msb <;> cases hn : i.b.msb <;>
        simp [ho, hb, divNegD, divTakeRem, AluOp.eval, hrem, divAAbs, divBAbs, divSigned, hm, hn, BitVec.srem]
    · simp [ho, hb, divNegD, divTakeRem, AluOp.eval, hrem, divAAbs, divBAbs, divSigned]

/-- A valid answer of a running divider is the result. -/
theorem DivAt.result (h : DivAt q i) (hv : resultValid q i = true) : result p q i = i.op.eval i.shamt i.a i.b := by
  cases h with
  | run state part => simp [resultValid, part.op, state] at hv
  | done _ part => exact part.result p

end Alu

end Yarv
