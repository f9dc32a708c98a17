import Yarv.Isa.Control

/-!
# The expander

`c_expand` against the table of compressed instructions.  It agrees with the table but for bit 12 of a halfword, which
it does not look at in three places (`settle`): the shifts by an immediate, the operations of the CA format, and the
halfword of `c.jr` with `x0`.
-/

namespace Yarv.Isa

/-! ### The fields of a halfword -/

section Fields

variable (f3 : BitVec 3) (m : BitVec 11) (q : BitVec 2)

private theorem cF3_half : cF3 (f3 ++ m ++ q) = f3 := (half_fields f3 m q).1

private theorem quadrant_half : (f3 ++ m ++ q).extractLsb' 0 2 = q := (half_fields f3 m q).2.2

private theorem cRd5_half : cRd5 (f3 ++ m ++ q) = gRd m := by
  unfold cRd5 gRd
  refine BitVec.eq_of_getLsbD_eq fun i hi => ?_
  simp only [BitVec.getLsbD_extractLsb', BitVec.getLsbD_append]
  interval_cases i <;> simp

private theorem cCrd_half : cCrd (f3 ++ m ++ q) = wide (gRd3 m) := by
  unfold cCrd gRd3 wide
  refine BitVec.eq_of_getLsbD_eq fun i hi => ?_
  simp only [BitVec.getLsbD_extractLsb', BitVec.getLsbD_append]
  interval_cases i <;> simp

private theorem cCrs1_half : cCrs1 (f3 ++ m ++ q) = wide (gRs1 m) := by
  unfold cCrs1 gRs1 wide
  refine BitVec.eq_of_getLsbD_eq fun i hi => ?_
  simp only [BitVec.getLsbD_extractLsb', BitVec.getLsbD_append]
  interval_cases i <;> simp

private theorem cRs2_half : cRs2 (f3 ++ m ++ q) = gRs2 m := by
  unfold cRs2 gRs2
  refine BitVec.eq_of_getLsbD_eq fun i hi => ?_
  simp only [BitVec.getLsbD_extractLsb', BitVec.getLsbD_append]
  interval_cases i <;> simp

private theorem cImm6_half : cImm6 (f3 ++ m ++ q) = gImm m := by
  unfold cImm6 gImm
  refine BitVec.eq_of_getLsbD_eq fun i hi => ?_
  simp only [BitVec.getLsbD_extractLsb', BitVec.getLsbD_append]
  interval_cases i <;> simp

private theorem top_half : (f3 ++ m ++ q).getLsbD 12 = decide (gTop m = 1#1) := by
  have h : (f3 ++ m ++ q).getLsbD 12 = (gTop m).getLsbD 0 := by
    unfold gTop
    simp only [BitVec.getLsbD_extractLsb', BitVec.getLsbD_append]
    simp
  rw [h]
  generalize gTop m = x
  revert x
  decide

private theorem fn_half : (f3 ++ m ++ q).extractLsb' 10 2 = gFn m := by
  unfold gFn
  refine BitVec.eq_of_getLsbD_eq fun i hi => ?_
  simp only [BitVec.getLsbD_extractLsb', BitVec.getLsbD_append]
  interval_cases i <;> simp

private theorem fn2_half : (f3 ++ m ++ q).extractLsb' 5 2 = gFn2 m := by
  unfold gFn2
  refine BitVec.eq_of_getLsbD_eq fun i hi => ?_
  simp only [BitVec.getLsbD_extractLsb', BitVec.getLsbD_append]
  interval_cases i <;> simp

private theorem cAddi4spnImm_half : cAddi4spnImm (f3 ++ m ++ q) = gCiw m ++ 0#2 := by
  unfold cAddi4spnImm gCiw
  refine BitVec.eq_of_getLsbD_eq fun i hi => ?_
  simp only [BitVec.getLsbD_extractLsb', BitVec.getLsbD_append]
  interval_cases i <;> simp

private theorem cLwOff_half : cLwOff (f3 ++ m ++ q) = gCl m ++ 0#2 := by
  unfold cLwOff gCl
  refine BitVec.eq_of_getLsbD_eq fun i hi => ?_
  simp only [BitVec.getLsbD_extractLsb', BitVec.getLsbD_append]
  interval_cases i <;> simp

private theorem cJOff_half : cJOff (f3 ++ m ++ q) = gCj m ++ 0#1 := by
  unfold cJOff gCj
  refine BitVec.eq_of_getLsbD_eq fun i hi => ?_
  simp only [BitVec.getLsbD_extractLsb', BitVec.getLsbD_append]
  interval_cases i <;> simp

private theorem cAddi16spImm_half : cAddi16spImm (f3 ++ m ++ q) = gCi16 m ++ 0#4 := by
  unfold cAddi16spImm gCi16
  refine BitVec.eq_of_getLsbD_eq fun i hi => ?_
  simp only [BitVec.getLsbD_extractLsb', BitVec.getLsbD_append]
  interval_cases i <;> simp

private theorem cBOff_half : cBOff (f3 ++ m ++ q) = gCb m ++ 0#1 := by
  unfold cBOff gCb
  refine BitVec.eq_of_getLsbD_eq fun i hi => ?_
  simp only [BitVec.getLsbD_extractLsb', BitVec.getLsbD_append]
  interval_cases i <;> simp

private theorem cLwspOff_half : cLwspOff (f3 ++ m ++ q) = gClsp m ++ 0#2 := by
  unfold cLwspOff gClsp
  refine BitVec.eq_of_getLsbD_eq fun i hi => ?_
  simp only [BitVec.getLsbD_extractLsb', BitVec.getLsbD_append]
  interval_cases i <;> simp

private theorem cSwspOff_half : cSwspOff (f3 ++ m ++ q) = gCssp m ++ 0#2 := by
  unfold cSwspOff gCssp
  refine BitVec.eq_of_getLsbD_eq fun i hi => ?_
  simp only [BitVec.getLsbD_extractLsb', BitVec.getLsbD_append]
  interval_cases i <;> simp

end Fields

/-! ### The builders -/

section Builders

variable (op : BitVec 7) (rd rs1 rs2 : Reg) (f3 : BitVec 3) {n : Nat} (x : BitVec n)

private theorem low12_setWidth : (x.setWidth 32).extractLsb' 0 12 = x.setWidth 12 := by
  refine BitVec.eq_of_getLsbD_eq fun i hi => ?_
  have h32 : i < 32 := by omega
  simp [hi, h32]

private theorem low12_signExtend : (x.signExtend 32).extractLsb' 0 12 = x.signExtend 12 := by
  refine BitVec.eq_of_getLsbD_eq fun i hi => ?_
  have h32 : i < 32 := by omega
  simp only [BitVec.getLsbD_extractLsb', BitVec.getLsbD_signExtend, Nat.zero_add, hi, h32, decide_true, Bool.true_and]

private theorem mkI_setWidth : mkI op rd rs1 f3 (x.setWidth 32) = iType (x.setWidth 12) rs1 f3 rd op := by
  rw [mkI, low12_setWidth]
  rfl

private theorem mkI_signExtend : mkI op rd rs1 f3 (x.signExtend 32) = iType (x.signExtend 12) rs1 f3 rd op := by
  rw [mkI, low12_signExtend]
  rfl

private theorem mkS_setWidth (y : BitVec 12) (hy : x.setWidth 12 = y) :
    mkS op rs1 rs2 f3 (x.setWidth 32) = sType y rs2 rs1 f3 op := by
  subst hy
  have h1 : (x.setWidth 32).extractLsb' 5 7 = (x.setWidth 12).extractLsb' 5 7 := by
    refine BitVec.eq_of_getLsbD_eq fun i hi => ?_
    have h12 : 5 + i < 12 := by omega
    have h32 : 5 + i < 32 := by omega
    simp [hi, h12, h32]
  have h2 : (x.setWidth 32).extractLsb' 0 5 = (x.setWidth 12).extractLsb' 0 5 := by
    refine BitVec.eq_of_getLsbD_eq fun i hi => ?_
    have h12 : i < 12 := by omega
    have h32 : i < 32 := by omega
    simp [hi, h12, h32]
  rw [mkS, h1, h2]
  rfl

private theorem mkU_signExtend (y : BitVec 6) :
    mkU op rd ((y ++ 0#12).signExtend 32) = uType (y.signExtend 20) rd op := by
  have h : ((y ++ 0#12).signExtend 32).extractLsb' 12 20 = y.signExtend 20 := by
    refine BitVec.eq_of_getLsbD_eq fun i hi => ?_
    simp only [BitVec.getLsbD_extractLsb', BitVec.getLsbD_signExtend, BitVec.getLsbD_append, BitVec.msb_append]
    interval_cases i <;> simp
  rw [mkU, h]
  rfl

private theorem mkJ_signExtend (y : BitVec 11) :
    mkJ op rd ((y ++ 0#1).signExtend 32) = jType (y.signExtend 20) rd op := by
  have hbit : ∀ i < 20, ((y ++ 0#1).signExtend 32).getLsbD (1 + i) = (y.signExtend 20).getLsbD i := by
    intro i hi
    simp only [BitVec.getLsbD_signExtend, BitVec.getLsbD_append, BitVec.msb_append]
    interval_cases i <;> simp
  have hpart : ∀ a n, a + n ≤ 20 → ((y ++ 0#1).signExtend 32).extractLsb' (1 + a) n =
      (y.signExtend 20).extractLsb' a n := by
    intro a n han
    refine BitVec.eq_of_getLsbD_eq fun i hi => ?_
    rw [BitVec.getLsbD_extractLsb', BitVec.getLsbD_extractLsb', Nat.add_assoc, hbit _ (by omega)]
  rw [mkJ, hpart 19 1 (by omega), hpart 0 10 (by omega), hpart 10 1 (by omega), hpart 11 8 (by omega)]
  rfl

private theorem mkB_signExtend (y : BitVec 8) :
    mkB op rs1 rs2 f3 ((y ++ 0#1).signExtend 32) = bType (y.signExtend 12) rs2 rs1 f3 op := by
  have hbit : ∀ i < 12, ((y ++ 0#1).signExtend 32).getLsbD (1 + i) = (y.signExtend 12).getLsbD i := by
    intro i hi
    simp only [BitVec.getLsbD_signExtend, BitVec.getLsbD_append, BitVec.msb_append]
    interval_cases i <;> simp
  have hpart : ∀ a n, a + n ≤ 12 → ((y ++ 0#1).signExtend 32).extractLsb' (1 + a) n =
      (y.signExtend 12).extractLsb' a n := by
    intro a n han
    refine BitVec.eq_of_getLsbD_eq fun i hi => ?_
    rw [BitVec.getLsbD_extractLsb', BitVec.getLsbD_extractLsb', Nat.add_assoc, hbit _ (by omega)]
  rw [mkB, hpart 11 1 (by omega), hpart 4 6 (by omega), hpart 0 4 (by omega), hpart 10 1 (by omega)]
  rfl

/-- A shift amount below `funct7`. -/
private theorem mkI_shift (sh : BitVec 5) : mkI op rd rs1 f3 (0#25 ++ 0b00#2 ++ sh) = rType 0#7 sh rs1 f3 rd op := by
  have h : (0#25 ++ 0b00#2 ++ sh).extractLsb' 0 12 = 0#7 ++ sh := by
    refine BitVec.eq_of_getLsbD_eq fun i hi => ?_
    simp only [BitVec.getLsbD_extractLsb', BitVec.getLsbD_append]
    interval_cases i <;> simp
  rw [mkI, h]
  rfl

private theorem mkI_shiftArith (sh : BitVec 5) :
    mkI op rd rs1 f3 (0#20 ++ 0b0100000#7 ++ sh) = rType 0b0100000#7 sh rs1 f3 rd op := by
  have h : (0#20 ++ 0b0100000#7 ++ sh).extractLsb' 0 12 = 0b0100000#7 ++ sh := by
    refine BitVec.eq_of_getLsbD_eq fun i hi => ?_
    simp only [BitVec.getLsbD_extractLsb', BitVec.getLsbD_append]
    interval_cases i <;> simp
  rw [mkI, h]
  rfl

end Builders

/-! ### The quadrants -/

/-- The word of what a table finds. -/
def wordOf (k : Option Rvc) : Word := ((k.filter Rvc.defined).map fun k => k.expand.encode).getD 0

private theorem wordOf_some {k : Rvc} (h : k.defined = true) : wordOf (some k) = k.expand.encode := by
  simp [wordOf, Option.filter_some, h]

private theorem wordOf_undefined {k : Rvc} (h : k.defined = false) : wordOf (some k) = 0 := by
  simp [wordOf, Option.filter_some, h]

section Quadrants

variable (f3 : BitVec 3) (m : BitVec 11)

private theorem append_zero_iff {n l : Nat} (x : BitVec n) : x ++ 0#l = 0#(n + l) ↔ x = 0#n := by
  constructor
  · intro h
    refine BitVec.eq_of_getLsbD_eq fun i hi => ?_
    have hb := congrArg (fun y => y.getLsbD (i + l)) h
    simpa [BitVec.getLsbD_append] using hb
  · rintro rfl
    simp

private theorem expand0 : cExpand0 (f3 ++ m ++ 0b00#2) = wordOf (rvc0 f3 m) := by
  rw [cExpand0, rvc0, cF3_half]
  by_cases h0 : f3 = 0b000#3
  · rw [if_pos h0, if_pos h0, cAddi4spnImm_half, cCrd_half, mkI_setWidth]
    by_cases hz : gCiw m = 0#8
    · have hd : (Rvc.addi4spn (gRd3 m) (gCiw m)).defined = false := by simp [Rvc.defined, hz]
      rw [if_neg (not_not.mpr ((append_zero_iff _).mpr hz)), wordOf_undefined hd]
    · have hd : (Rvc.addi4spn (gRd3 m) (gCiw m)).defined = true := by simpa [Rvc.defined] using hz
      rw [if_pos fun h => hz ((append_zero_iff _).mp h), wordOf_some hd]
      rfl
  rw [if_neg h0, if_neg h0]
  by_cases h2 : f3 = 0b010#3
  · rw [if_pos h2, if_pos h2, cLwOff_half, cCrd_half, cCrs1_half, mkI_setWidth, wordOf_some rfl]
    rfl
  rw [if_neg h2, if_neg h2]
  by_cases h6 : f3 = 0b110#3
  · rw [if_pos h6, if_pos h6, cLwOff_half, cCrd_half, cCrs1_half, mkS_setWidth _ _ _ _ _ _ rfl, wordOf_some rfl]
    rfl
  · rw [if_neg h6, if_neg h6]
    rfl

private theorem expandAlu (h : gFn m = 0b10#2 ∨ gTop m = 0#1) :
    cExpandAlu (0b100#3 ++ m ++ 0b01#2) = wordOf (rvcArith m) := by
  have hsh : (0b100#3 ++ m ++ 0b01#2).extractLsb' 2 5 = gRs2 m := cRs2_half _ _ _
  rw [cExpandAlu, rvcArith, fn_half, fn2_half, cCrs1_half, cCrd_half, cImm6_half, hsh]
  by_cases h2 : gFn m = 0b10#2
  · rw [if_neg (by rw [h2]; decide), if_neg (by rw [h2]; decide), if_pos h2, if_pos h2, mkI_signExtend,
      wordOf_some rfl]
    rfl
  have htop : gTop m ≠ 1#1 := by
    rw [h.resolve_left h2]
    decide
  rw [if_neg h2, if_neg h2, if_neg htop]
  by_cases h0 : gFn m = 0b00#2
  · rw [if_pos h0, if_pos h0, mkI_shift, wordOf_some rfl]
    rfl
  rw [if_neg h0, if_neg h0]
  by_cases h1 : gFn m = 0b01#2
  · rw [if_pos h1, if_pos h1, mkI_shiftArith, wordOf_some rfl]
    rfl
  rw [if_neg h1, if_neg h1]
  by_cases g0 : gFn2 m = 0b00#2
  · rw [if_pos g0, if_pos g0, wordOf_some rfl]
    rfl
  rw [if_neg g0, if_neg g0]
  by_cases g1 : gFn2 m = 0b01#2
  · rw [if_pos g1, if_pos g1, wordOf_some rfl]
    rfl
  rw [if_neg g1, if_neg g1]
  by_cases g2 : gFn2 m = 0b10#2
  · rw [if_pos g2, if_pos g2, wordOf_some rfl]
    rfl
  · rw [if_neg g2, if_neg g2, wordOf_some rfl]
    rfl

private theorem expand1 (h : f3 = 0b100#3 → gFn m = 0b10#2 ∨ gTop m = 0#1) :
    cExpand1 (f3 ++ m ++ 0b01#2) = wordOf (rvc1 f3 m) := by
  rw [cExpand1, rvc1, cF3_half, cRd5_half, cImm6_half, cCrs1_half, cJOff_half, cAddi16spImm_half, cBOff_half]
  by_cases h0 : f3 = 0b000#3
  · rw [if_pos h0, if_pos h0]
    by_cases hr : gRd m = 0#5
    · by_cases hi : gImm m = 0#6
      · have hd : (Rvc.addi (gRd m) (gImm m)).defined = true := by simp [Rvc.defined, hi]
        rw [if_pos ⟨hr, hi⟩, wordOf_some hd, hr, hi]
        decide
      · have hd : (Rvc.addi (gRd m) (gImm m)).defined = false := by simp [Rvc.defined, hr, hi]
        rw [if_neg fun hx => hi hx.2, if_neg (not_not.mpr hr), wordOf_undefined hd]
    · have hd : (Rvc.addi (gRd m) (gImm m)).defined = true := by simp [Rvc.defined, hr]
      rw [if_neg fun hx => hr hx.1, if_pos hr, mkI_signExtend, wordOf_some hd]
      rfl
  rw [if_neg h0, if_neg h0]
  by_cases h1 : f3 = 0b001#3
  · rw [if_pos h1, if_pos h1, mkJ_signExtend, wordOf_some rfl]
    rfl
  rw [if_neg h1, if_neg h1]
  by_cases h2 : f3 = 0b010#3
  · rw [if_pos h2, if_pos h2]
    by_cases hr : gRd m = 0#5
    · have hd : (Rvc.li (gRd m) (gImm m)).defined = false := by simp [Rvc.defined, hr]
      rw [if_neg (not_not.mpr hr), wordOf_undefined hd]
    · have hd : (Rvc.li (gRd m) (gImm m)).defined = true := by simp [Rvc.defined, hr]
      rw [if_pos hr, mkI_signExtend, wordOf_some hd]
      rfl
  rw [if_neg h2, if_neg h2]
  by_cases h3 : f3 = 0b011#3
  · rw [if_pos h3, if_pos h3]
    by_cases hr : gRd m = 2#5
    · rw [if_pos hr, if_pos hr]
      by_cases hi : gCi16 m = 0#6
      · have hd : (Rvc.addi16sp (gCi16 m)).defined = false := by simp [Rvc.defined, hi]
        rw [if_neg (not_not.mpr ((append_zero_iff _).mpr hi)), wordOf_undefined hd]
      · have hd : (Rvc.addi16sp (gCi16 m)).defined = true := by simp [Rvc.defined, hi]
        rw [if_pos fun hx => hi ((append_zero_iff _).mp hx), mkI_signExtend, wordOf_some hd]
        rfl
    · rw [if_neg hr, if_neg hr]
      by_cases hd : gRd m ≠ 0#5 ∧ gImm m ≠ 0#6
      · have hdef : (Rvc.lui (gRd m) (gImm m)).defined = true := by
          simp only [Rvc.defined, Bool.and_eq_true, bne_iff_ne]
          exact ⟨⟨hd.1, hr⟩, hd.2⟩
        rw [if_pos hd, mkU_signExtend, wordOf_some hdef]
        rfl
      · have hdef : (Rvc.lui (gRd m) (gImm m)).defined = false := by
          rw [Bool.eq_false_iff]
          intro hx
          simp only [Rvc.defined, Bool.and_eq_true, bne_iff_ne] at hx
          exact hd ⟨hx.1.1, hx.2⟩
        rw [if_neg hd, wordOf_undefined hdef]
  rw [if_neg h3, if_neg h3]
  by_cases h4 : f3 = 0b100#3
  · rw [if_pos h4, if_pos h4, h4]
    exact expandAlu m (h h4)
  rw [if_neg h4, if_neg h4]
  by_cases h5 : f3 = 0b101#3
  · rw [if_pos h5, if_pos h5, mkJ_signExtend, wordOf_some rfl]
    rfl
  rw [if_neg h5, if_neg h5]
  by_cases h6 : f3 = 0b110#3
  · rw [if_pos h6, if_pos h6, mkB_signExtend, wordOf_some rfl]
    rfl
  · rw [if_neg h6, if_neg h6, mkB_signExtend, wordOf_some rfl]
    rfl

/-- The jumps and register moves of quadrant 2. -/
private theorem expandJump (h : gTop m = 0#1 → gRs2 m = 0#5 → gRd m ≠ 0#5) :
    cExpand2 (0b100#3 ++ m ++ 0b10#2) = wordOf (rvcJump m) := by
  have hbit : gTop m ≠ 0#1 → gTop m = 1#1 := by
    generalize gTop m = x
    revert x
    decide
  rw [cExpand2, rvcJump, cF3_half, cRd5_half, cRs2_half, top_half]
  iterate 2 rw [if_neg (by decide)]
  rw [if_pos rfl]
  by_cases hs : gRs2 m = 0#5
  · rw [if_pos hs, if_pos hs, if_pos hs]
    by_cases ht : gTop m = 0#1
    · have hr := h ht hs
      have hd : (Rvc.jr (gRd m)).defined = true := by simpa [Rvc.defined] using hr
      rw [if_neg fun hx => hr hx.1, if_pos ht, wordOf_some hd, ht]
      rfl
    · rw [if_neg ht]
      by_cases hr : gRd m = 0#5
      · rw [if_pos ⟨hr, hs⟩, if_pos hr, wordOf_some rfl]
        decide
      · have hd : (Rvc.jalr (gRd m)).defined = true := by simpa [Rvc.defined] using hr
        rw [if_neg fun hx => hr hx.1, if_neg hr, wordOf_some hd, hbit ht]
        rfl
  · rw [if_neg fun hx => hs hx.2, if_neg hs, if_neg hs, if_neg hs]
    by_cases hr : gRd m = 0#5
    · rw [if_neg (not_not.mpr hr)]
      by_cases ht : gTop m = 0#1
      · have hd : (Rvc.mv (gRd m) (gRs2 m)).defined = false := by simp [Rvc.defined, hr]
        rw [if_pos ht, wordOf_undefined hd]
      · have hd : (Rvc.add (gRd m) (gRs2 m)).defined = false := by simp [Rvc.defined, hr]
        rw [if_neg ht, wordOf_undefined hd]
    · rw [if_pos hr]
      by_cases ht : gTop m = 0#1
      · have hd : (Rvc.mv (gRd m) (gRs2 m)).defined = true := by
          simp only [Rvc.defined, Bool.and_eq_true, bne_iff_ne]
          exact ⟨hr, hs⟩
        rw [if_pos ht, wordOf_some hd, ht]
        rfl
      · have hd : (Rvc.add (gRd m) (gRs2 m)).defined = true := by
          simp only [Rvc.defined, Bool.and_eq_true, bne_iff_ne]
          exact ⟨hr, hs⟩
        rw [if_neg ht, wordOf_some hd, hbit ht]
        rfl

private theorem expand2 (hsh : f3 = 0b000#3 → gTop m = 0#1)
    (hj : f3 = 0b100#3 → gTop m = 0#1 → gRs2 m = 0#5 → gRd m ≠ 0#5) :
    cExpand2 (f3 ++ m ++ 0b10#2) = wordOf (rvc2 f3 m) := by
  by_cases h4 : f3 = 0b100#3
  · rw [h4]
    exact expandJump m (hj h4)
  have hlow : (f3 ++ m ++ 0b10#2).extractLsb' 2 5 = gRs2 m := cRs2_half _ _ _
  rw [cExpand2, rvc2, cF3_half, cRd5_half, cRs2_half, cLwspOff_half, cSwspOff_half, hlow]
  by_cases h0 : f3 = 0b000#3
  · rw [if_pos h0, if_pos h0, if_pos (hsh h0)]
    by_cases hr : gRd m = 0#5
    · have hd : (Rvc.slli (gRd m) (gRs2 m)).defined = false := by simp [Rvc.defined, hr]
      rw [if_neg (not_not.mpr hr), wordOf_undefined hd]
    · have hd : (Rvc.slli (gRd m) (gRs2 m)).defined = true := by simpa [Rvc.defined] using hr
      rw [if_pos hr, mkI_shift, wordOf_some hd]
      rfl
  rw [if_neg h0, if_neg h0]
  by_cases h2 : f3 = 0b010#3
  · rw [if_pos h2, if_pos h2]
    by_cases hr : gRd m = 0#5
    · have hd : (Rvc.lwsp (gRd m) (gClsp m)).defined = false := by simp [Rvc.defined, hr]
      rw [if_neg (not_not.mpr hr), wordOf_undefined hd]
    · have hd : (Rvc.lwsp (gRd m) (gClsp m)).defined = true := by simpa [Rvc.defined] using hr
      rw [if_pos hr, mkI_setWidth, wordOf_some hd]
      rfl
  rw [if_neg h2, if_neg h2, if_neg h4, if_neg h4]
  by_cases h6 : f3 = 0b110#3
  · rw [if_pos h6, if_pos h6, mkS_setWidth _ _ _ _ _ _ rfl, wordOf_some rfl]
    rfl
  · rw [if_neg h6, if_neg h6]
    rfl

end Quadrants

/-! ### The expander -/

/-- The halfword with bit 12 as the table wants it, where the expander does not look at it. -/
def settle (c : BitVec 16) : BitVec 16 :=
  if c.extractLsb' 0 2 = 0b01#2 ∧ c.extractLsb' 13 3 = 0b100#3 ∧ c.extractLsb' 10 2 ≠ 0b10#2 then c &&& ~~~0x1000#16
  else if c.extractLsb' 0 2 = 0b10#2 ∧ c.extractLsb' 13 3 = 0b000#3 then c &&& ~~~0x1000#16
  else if c = 0x8002#16 then 0x9002#16
  else c

/-- Bit 12 is the top one of the middle bits. -/
def clearTop (m : BitVec 11) : BitVec 11 := 0#1 ++ m.extractLsb' 0 10

section Settle

variable (f3 : BitVec 3) (m : BitVec 11) (q : BitVec 2)

private theorem clear_half : (f3 ++ m ++ q) &&& ~~~0x1000#16 = f3 ++ clearTop m ++ q := by
  unfold clearTop
  refine BitVec.eq_of_getLsbD_eq fun i hi => ?_
  simp only [BitVec.getLsbD_and, BitVec.getLsbD_extractLsb', BitVec.getLsbD_append]
  interval_cases i <;> simp

variable {f3 m q}

private theorem clear_fields : gTop (clearTop m) = 0#1 ∧ gFn (clearTop m) = gFn m ∧
    gRs1 (clearTop m) = gRs1 m ∧ gRs2 (clearTop m) = gRs2 m ∧
    gRd (clearTop m) = gRd m ∧ gFn2 (clearTop m) = gFn2 m ∧
    gRd3 (clearTop m) = gRd3 m := by
  unfold clearTop gTop gFn gRs1 gRs2 gRd gFn2 gRd3
  refine ⟨?_, ?_, ?_, ?_, ?_, ?_, ?_⟩ <;> refine BitVec.eq_of_getLsbD_eq fun i hi => ?_
  all_goals simp only [BitVec.getLsbD_extractLsb', BitVec.getLsbD_append]
  all_goals interval_cases i <;> simp

/-- The expander reads bit 12 of an arithmetic halfword in `c.andi` only. -/
private theorem expandAlu_clear (h : gFn m ≠ 0b10#2) :
    cExpandAlu (0b100#3 ++ clearTop m ++ 0b01#2) = cExpandAlu (0b100#3 ++ m ++ 0b01#2) := by
  obtain ⟨-, hfn, hr1, hr2, -, hfn2, hr3⟩ := clear_fields (m := m)
  have hlow : ∀ m : BitVec 11, (0b100#3 ++ m ++ 0b01#2).extractLsb' 2 5 = gRs2 m := fun m => cRs2_half _ m _
  simp only [cExpandAlu, fn_half, fn2_half, cCrs1_half, cCrd_half, hlow, hfn, hr1, hr2, hfn2, hr3, if_neg h]

private theorem expand2_clear : cExpand2 (0b000#3 ++ clearTop m ++ 0b10#2) = cExpand2 (0b000#3 ++ m ++ 0b10#2) := by
  obtain ⟨-, -, -, hr2, hrd, -, -⟩ := clear_fields (m := m)
  have hlow : ∀ m : BitVec 11, (0b000#3 ++ m ++ 0b10#2).extractLsb' 2 5 = gRs2 m := fun m => cRs2_half _ m _
  simp only [cExpand2, cF3_half, cRd5_half, hlow, hr2, hrd, if_true]

end Settle

private theorem wordOf_decodeRvc (f3 : BitVec 3) (m : BitVec 11) (q : BitVec 2) :
    ((decodeRvc (f3 ++ m ++ q)).map fun k => k.expand.encode).getD 0 = wordOf (rvcTable q f3 m) := by
  obtain ⟨h3, hm, hq⟩ := half_fields f3 m q
  rw [decodeRvc, h3, hm, hq, wordOf]

/-- A halfword whose bit 12 the expander does not look at is not one of the table with the bit as it is. -/
private theorem cExpand_half (f3 : BitVec 3) (m : BitVec 11) (q : BitVec 2) :
    cExpand (f3 ++ m ++ q) = ((decodeRvc (settle (f3 ++ m ++ q))).map fun k => k.expand.encode).getD 0 := by
  have hf3 : (f3 ++ m ++ q).extractLsb' 13 3 = f3 := (half_fields f3 m q).1
  rw [cExpand, settle, quadrant_half, fn_half, hf3, clear_half]
  by_cases h0 : q = 0b00#2
  · have hne : f3 ++ m ++ q ≠ 0x8002#16 := by
      intro h
      have hq := congrArg (fun c => c.extractLsb' 0 2) h
      simp only [quadrant_half, h0] at hq
      exact absurd hq (by decide)
    rw [if_pos h0, if_neg (by rw [h0]; exact fun h => absurd h.1 (by decide)),
      if_neg (by rw [h0]; exact fun h => absurd h.1 (by decide)), if_neg hne, wordOf_decodeRvc, h0, expand0]
    rfl
  rw [if_neg h0]
  by_cases h1 : q = 0b01#2
  · have hne : f3 ++ m ++ q ≠ 0x8002#16 := by
      intro h
      have hq := congrArg (fun c => c.extractLsb' 0 2) h
      simp only [quadrant_half, h1] at hq
      exact absurd hq (by decide)
    rw [if_pos h1]
    by_cases hsh : f3 = 0b100#3 ∧ gFn m ≠ 0b10#2
    · have hclear := clear_fields (m := m)
      rw [if_pos ⟨h1, hsh⟩, wordOf_decodeRvc, h1, hsh.1]
      have ht : cExpand1 (0b100#3 ++ m ++ 0b01#2) = cExpand1 (0b100#3 ++ clearTop m ++ 0b01#2) := by
        simp only [cExpand1, cF3_half]
        exact (expandAlu_clear hsh.2).symm
      rw [ht, expand1 _ _ fun _ => .inr hclear.1]
      rfl
    · rw [if_neg fun h => hsh h.2, if_neg (by rw [h1]; exact fun h => absurd h.1 (by decide)), if_neg hne,
        wordOf_decodeRvc, h1, expand1 _ _ fun h4 => .inl (not_not.mp fun hx => hsh ⟨h4, hx⟩)]
      rfl
  rw [if_neg h1, if_neg (show ¬(q = 0b01#2 ∧ f3 = 0b100#3 ∧ gFn m ≠ 0b10#2) from fun h => h1 h.1)]
  by_cases h2 : q = 0b10#2
  · rw [if_pos h2]
    by_cases hz : f3 = 0b000#3
    · have hclear := clear_fields (m := m)
      rw [if_pos ⟨h2, hz⟩, wordOf_decodeRvc, h2, hz, ← expand2_clear,
        expand2 _ _ (fun _ => hclear.1) fun h => absurd h (by decide)]
      rfl
    rw [if_neg fun h => hz h.2]
    by_cases hj : f3 ++ m ++ q = 0x8002#16
    · rw [hj, if_pos rfl]
      decide
    rw [if_neg hj, wordOf_decodeRvc, h2, expand2 _ _ fun h => absurd h hz]
    · rfl
    · intro h4 ht hs hr
      refine hj ?_
      have hm := cr_gather m
      rw [ht, hs, hr] at hm
      rw [h4, h2, ← hm]
      rfl
  · have hne : f3 ++ m ++ q ≠ 0x8002#16 := by
      intro h
      have hq := congrArg (fun c => c.extractLsb' 0 2) h
      simp only [quadrant_half] at hq
      exact h2 (hq.trans (by decide))
    rw [if_neg h2, if_neg (show ¬(q = 0b10#2 ∧ f3 = 0b000#3) from fun h => h2 h.1), if_neg hne, wordOf_decodeRvc,
      rvcTable, if_neg h0, if_neg h1, if_neg h2]
    rfl

/-- The expansion of a halfword. -/
theorem cExpand_eq (c : BitVec 16) :
    cExpand c = ((decodeRvc (settle c)).map fun k => k.expand.encode).getD 0 := by
  have h := cExpand_half (c.extractLsb' 13 3) (c.extractLsb' 2 11) (c.extractLsb' 0 2)
  rwa [half_self] at h

private theorem encode_ne_zero (i : Instr) : i.encode ≠ 0 := by
  intro h
  have hd := decode_encode i
  rw [h] at hd
  have hz : decode 0 = none := by decide
  rw [hz] at hd
  cases hd

/-- Bit 12 of an instruction of the table is as the table wants it. -/
theorem settle_of_decode {c : BitVec 16} {k : Rvc} (h : decodeRvc c = some k) : settle c = c := by
  have hne : c ≠ 0x8002#16 := by
    rintro rfl
    have hz : decodeRvc 0x8002#16 = none := by decide
    rw [hz] at h
    cases h
  rw [decodeRvc, Option.filter_eq_some_iff] at h
  have hself := half_self c
  revert h hself
  generalize c.extractLsb' 13 3 = f3
  generalize c.extractLsb' 2 11 = m
  generalize c.extractLsb' 0 2 = q
  rintro ⟨ht, -⟩ rfl
  have hclear : gTop m = 0#1 → clearTop m = m := by
    intro h0
    have hm : gTop m ++ m.extractLsb' 0 10 = m := by
      unfold gTop
      refine BitVec.eq_of_getLsbD_eq fun i hi => ?_
      simp only [BitVec.getLsbD_extractLsb', BitVec.getLsbD_append]
      interval_cases i <;> simp
    rw [clearTop, ← h0, hm]
  have hbit : gTop m ≠ 1#1 → gTop m = 0#1 := by
    generalize gTop m = x
    revert x
    decide
  have hf3 : (f3 ++ m ++ q).extractLsb' 13 3 = f3 := (half_fields f3 m q).1
  rw [settle, quadrant_half, fn_half, hf3, clear_half]
  by_cases h1 : q = 0b01#2 ∧ f3 = 0b100#3 ∧ gFn m ≠ 0b10#2
  · have htop : gTop m ≠ 1#1 := by
      intro h
      have harith : rvcTable q f3 m = none := by
        rw [h1.1, h1.2.1]
        change rvcArith m = none
        rw [rvcArith, if_neg h1.2.2, if_pos h]
      rw [harith] at ht
      cases ht
    rw [if_pos h1, hclear (hbit htop)]
  rw [if_neg h1]
  by_cases h2 : q = 0b10#2 ∧ f3 = 0b000#3
  · have htop : gTop m = 0#1 := by
      by_contra h
      have hshift : rvcTable q f3 m = none := by
        rw [h2.1, h2.2]
        exact if_neg h
      rw [hshift] at ht
      cases ht
    rw [if_pos h2, hclear htop]
  · rw [if_neg h2, if_neg hne]

/-- The halfwords the expander takes for one with the other bit 12: the shifts by 32 and more and the operations of
the CA format that have the bit set, and the halfword of `c.jr` with `x0`. -/
def LooseHalf (c : BitVec 16) : Prop :=
  c.getLsbD 12 = true ∧
      (c.extractLsb' 0 2 = 0b01#2 ∧ c.extractLsb' 13 3 = 0b100#3 ∧ c.extractLsb' 10 2 ≠ 0b10#2 ∨
        c.extractLsb' 0 2 = 0b10#2 ∧ c.extractLsb' 13 3 = 0b000#3 ∧ c.extractLsb' 7 5 ≠ 0#5) ∨
    c = 0x8002#16

instance : DecidablePred LooseHalf := fun _ => inferInstanceAs (Decidable (_ ∨ _))

section LooseHalf

variable {m : BitVec 11} {c : BitVec 16}

/-- An arithmetic halfword with bit 12 clear is an instruction. -/
private theorem rvcArith_defined (h2 : gFn m ≠ 0b10#2) (ht : gTop m = 0#1) :
    ∃ k : Rvc, rvcArith m = some k ∧ k.defined = true := by
  have htop : gTop m ≠ 1#1 := by
    rw [ht]
    decide
  rw [rvcArith, if_neg h2, if_neg htop]
  split_ifs
  all_goals exact ⟨_, rfl, rfl⟩

private theorem decodeRvc_of_table {f3 : BitVec 3} {q : BitVec 2} {k : Rvc} (ht : rvcTable q f3 m = some k)
    (hk : k.defined = true) : decodeRvc (f3 ++ m ++ q) = some k := by
  obtain ⟨h3, hm, hq⟩ := half_fields f3 m q
  rw [decodeRvc, h3, hm, hq, ht, Option.filter_some, if_pos hk]

private theorem clear_ne (h : c.getLsbD 12 = true) : c &&& ~~~0x1000#16 ≠ c := by
  intro he
  have hbit : (c &&& ~~~0x1000#16).getLsbD 12 = false := by simp
  rw [he, h] at hbit
  cases hbit

private theorem clear_of_not (h : c.getLsbD 12 = false) : c &&& ~~~0x1000#16 = c := by
  refine BitVec.eq_of_getLsbD_eq fun i hi => ?_
  by_cases h12 : i = 12
  · have hbit : (c &&& ~~~0x1000#16).getLsbD 12 = false := by simp
    rw [h12, hbit, h]
  · simp only [BitVec.getLsbD_and]
    interval_cases i <;> first | exact absurd rfl h12 | simp

/-- A loose halfword is one of the instructions of the table once it is settled. -/
private theorem settle_of_loose (h : LooseHalf c) : settle c ≠ c ∧ ∃ k : Rvc, decodeRvc (settle c) = some k := by
  rcases h with ⟨h12, h⟩ | rfl
  · have hclear : settle c = c &&& ~~~0x1000#16 := by
      rw [settle]
      rcases h with h | h
      · rw [if_pos h]
      · rw [if_neg fun hx => absurd (h.1.symm.trans hx.1) (by decide), if_pos ⟨h.1, h.2.1⟩]
    refine ⟨by rw [hclear]; exact clear_ne h12, ?_⟩
    rw [hclear]
    have hself := half_self c
    revert h hself
    generalize c.extractLsb' 13 3 = f3
    generalize c.extractLsb' 2 11 = m
    generalize c.extractLsb' 0 2 = q
    rintro h rfl
    obtain ⟨htop, hfn, -, -, hrd, -, -⟩ := clear_fields (m := m)
    rw [clear_half]
    rcases h with ⟨rfl, rfl, hne⟩ | ⟨rfl, rfl, hne⟩
    · rw [fn_half, ← hfn] at hne
      obtain ⟨k, hk, hdef⟩ := rvcArith_defined hne htop
      exact ⟨k, decodeRvc_of_table hk hdef⟩
    · have hgrd : gRd (clearTop m) ≠ 0#5 := by
        rw [hrd, ← cRd5_half 0b000#3 m 0b10#2]
        exact hne
      refine ⟨.slli (gRd (clearTop m)) (gRs2 (clearTop m)), decodeRvc_of_table ?_ ?_⟩
      · exact if_pos htop
      · exact bne_iff_ne.mpr hgrd
  · exact ⟨by decide, .ebreak, by decide⟩

/-- There is no shift of `x0`. -/
private theorem decodeRvc_shift_zero (h : gRd m = 0#5) : decodeRvc (0b000#3 ++ m ++ 0b10#2) = none := by
  obtain ⟨h3, hm, hq⟩ := half_fields 0b000#3 m 0b10#2
  have htable : rvcTable 0b10#2 0b000#3 m = if gTop m = 0#1 then some (.slli (gRd m) (gRs2 m)) else none := rfl
  have hdef : (Rvc.slli (gRd m) (gRs2 m)).defined = false := by simp [Rvc.defined, h]
  rw [decodeRvc, h3, hm, hq, htable]
  split_ifs
  · rw [Option.filter_some, hdef]
    rfl
  · rfl

/-- The table finds the same in a halfword and in the settled one, unless it is loose. -/
theorem decodeRvc_settle_iff : decodeRvc (settle c) = decodeRvc c ↔ ¬LooseHalf c := by
  constructor
  · intro h hl
    obtain ⟨hne, k, hk⟩ := settle_of_loose hl
    rw [h] at hk
    exact hne (settle_of_decode hk)
  · intro hl
    by_cases hs : settle c = c
    · rw [hs]
    have h2 : c ≠ 0x8002#16 := fun h => hl (.inr h)
    have h12 : c.getLsbD 12 = true := by
      by_contra hno
      rw [Bool.not_eq_true] at hno
      apply hs
      rw [settle, clear_of_not hno, if_neg h2]
      split_ifs <;> rfl
    have h1 : ¬(c.extractLsb' 0 2 = 0b01#2 ∧ c.extractLsb' 13 3 = 0b100#3 ∧ c.extractLsb' 10 2 ≠ 0b10#2) :=
      fun h => hl (.inl ⟨h12, .inl h⟩)
    -- What is left is a shift of `x0`, which the table does not define, whatever bit 12 is.
    have hsh : c.extractLsb' 0 2 = 0b10#2 ∧ c.extractLsb' 13 3 = 0b000#3 := by
      by_contra hno
      apply hs
      rw [settle, if_neg h1, if_neg hno, if_neg h2]
    have hrd : c.extractLsb' 7 5 = 0#5 := by
      by_contra hno
      exact hl (.inl ⟨h12, .inr ⟨hsh.1, hsh.2, hno⟩⟩)
    have hclear : settle c = c &&& ~~~0x1000#16 := by
      rw [settle, if_neg h1, if_pos hsh]
    have hself := half_self c
    rw [hsh.1, hsh.2] at hself
    rw [hclear, ← hself, clear_half]
    rw [← hself] at hrd
    obtain ⟨-, -, -, -, hkeep, -, -⟩ := clear_fields (m := c.extractLsb' 2 11)
    have hgrd : gRd (c.extractLsb' 2 11) = 0#5 := (cRd5_half 0b000#3 _ 0b10#2).symm.trans hrd
    rw [decodeRvc_shift_zero hgrd, decodeRvc_shift_zero (hkeep.trans hgrd)]

/-- A loose halfword is no hint. -/
theorem not_hint_of_loose (h : LooseHalf c) : ¬Hint c := by
  rcases h with ⟨h12, h⟩ | rfl
  · rw [← half_self c, top_half, decide_eq_true_iff] at h12
    rcases h with ⟨hq, h3, hne⟩ | ⟨hq, h3, -⟩
    · rw [← half_self c, fn_half] at hne
      have hnone : rvcTable 0b01#2 0b100#3 (c.extractLsb' 2 11) = none := by
        change rvcArith (c.extractLsb' 2 11) = none
        rw [rvcArith, if_neg hne, if_pos h12]
      rw [Hint, hq, h3, hnone]
      exact Bool.false_ne_true
    · have hnone : rvcTable 0b10#2 0b000#3 (c.extractLsb' 2 11) = none := by
        refine if_neg (c := gTop (c.extractLsb' 2 11) = 0#1) ?_
        rw [h12]
        decide
      rw [Hint, hq, h3, hnone]
      exact Bool.false_ne_true
  · decide

end LooseHalf

/-- What a halfword expands to, zero aside. -/
private theorem cExpand_iff {c : BitVec 16} {w : Word} :
    cExpand c = w ∧ w ≠ 0 ↔ ∃ k : Rvc, k.defined = true ∧ k.encode = settle c ∧ k.expand.encode = w := by
  rw [cExpand_eq]
  constructor
  · rintro ⟨h, hw⟩
    cases hd : decodeRvc (settle c) with
    | none =>
      rw [hd] at h
      exact absurd h.symm hw
    | some k =>
      rw [hd] at h
      obtain ⟨he, hdef⟩ := decodeRvc_iff.mp hd
      exact ⟨k, hdef, he, h⟩
  · rintro ⟨k, hdef, he, rfl⟩
    rw [decodeRvc_iff.mpr ⟨he, hdef⟩]
    exact ⟨rfl, encode_ne_zero _⟩

/-- **Expansion.**  A halfword that encodes a defined instruction of RV32C expands to the word of the instruction it
abbreviates.  Any other halfword expands to zero, unless it differs from such a one in bit 12 and is a shift, an
operation of the CA format or `c.jr` with `x0`. -/
theorem expansion (c : BitVec 16) :
    (∀ k : Rvc, k.defined = true → k.encode = c → cExpand c = k.expand.encode) ∧
      (cExpand c ≠ 0 ↔ ∃ k : Rvc, k.defined = true ∧ k.encode = settle c) ∧
      ∀ k : Rvc, k.defined = true → k.encode = settle c → cExpand c = k.expand.encode := by
  have hlast : ∀ k : Rvc, k.defined = true → k.encode = settle c → cExpand c = k.expand.encode :=
    fun k hdef he => (cExpand_iff.mpr ⟨k, hdef, he, rfl⟩).1
  refine ⟨fun k hdef he => ?_, ⟨fun h => ?_, ?_⟩, hlast⟩
  · refine hlast k hdef ?_
    rw [settle_of_decode (decodeRvc_iff.mpr ⟨he, hdef⟩), he]
  · obtain ⟨k, hdef, he, -⟩ := cExpand_iff.mp ⟨rfl, h⟩
    exact ⟨k, hdef, he⟩
  · rintro ⟨k, hdef, he⟩
    rw [hlast k hdef he]
    exact encode_ne_zero _

end Yarv.Isa
