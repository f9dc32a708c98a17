import Yarv.FetchStream

/-!
# The instruction stream of the front end

Decode turns the entry stream into an instruction stream.  `itemAt` is the item at an address of the image, an
instruction or an access fault, and `afterItem` the address of the item behind it; `FeAt` says that the front end
stands at an address, with or without a stashed half.  `FeAt.step` is what one cycle does to the position: the item
decode emits is the item at the position, and the position moves over it or to the predicted target.

An odd PC is covered too: fetch drops bit 0 when it steps to the next word and decode keeps it when it stays within
one, which is what `afterItem` says.
-/

namespace Yarv

open FetchStage DecodeStage

variable {p : Params} {img : Nat → BitVec 64}

/-! ### Items of the image -/

/-- The halfword that holds the address `a`. -/
def halfAt (img : Nat → BitVec 64) (a : Word) : BitVec 16 := imgHalf img (a.toNat / 2 * 2)

/-- The halfword is a whole compressed instruction. -/
def isRvc (h : BitVec 16) : Bool := h.extractLsb' 0 2 != 0b11#2

/-- The address of the word behind the one that holds `a`. -/
def spanPc (a : Word) : Word := (a &&& ~~~3#32) + 4

/-- What decode emits for one position: an access fault or an instruction source. -/
structure Item where
  fault : Bool
  src : Src
  deriving DecidableEq, Repr

def Item.faultAt (a : Word) : Item := ⟨true, ⟨0, 0, a, false⟩⟩

/-- The item at the address `a`. -/
def itemAt (p : Params) (img : Nat → BitVec 64) (a : Word) : Item :=
  if outOfImem p a then Item.faultAt a
  else if isRvc (halfAt img a) then ⟨false, ⟨0, halfAt img a, a, true⟩⟩
  else if a.getLsbD 1 = false then ⟨false, ⟨imgWord img (a.toNat / 4 * 4), 0, a, false⟩⟩
  else if outOfImem p (spanPc a) then Item.faultAt (spanPc a)
  else ⟨false, ⟨halfAt img (spanPc a) ++ halfAt img a, 0, a, false⟩⟩

/-- The address of the item behind the one at `a`. -/
def afterItem (p : Params) (img : Nat → BitVec 64) (a : Word) : Word :=
  if outOfImem p a then blockNext a
  else if isRvc (halfAt img a) then (if a.getLsbD 1 then spanPc a else a + 2)
  else if a.getLsbD 1 = false then spanPc a
  else if outOfImem p (spanPc a) then blockNext (spanPc a)
  else spanPc a + 2

/-- A 32-bit instruction at `a` whose second half lies outside the I-mem. -/
structure SpanFault (p : Params) (img : Nat → BitVec 64) (a : Word) : Prop where
  inside : outOfImem p a = false
  upper : a.getLsbD 1 = true
  long : isRvc (halfAt img a) = false
  outside : outOfImem p (spanPc a) = true

/-! ### Halves of a word -/

private theorem low_imgWord (n : Nat) : (imgWord img n).extractLsb' 0 16 = imgHalf img n := by
  ext i hi
  simp only [imgWord, BitVec.getElem_extractLsb', BitVec.getLsbD_append]
  simp [hi]

private theorem high_imgWord (n : Nat) : (imgWord img n).extractLsb' 16 16 = imgHalf img (n + 2) := by
  ext i hi
  simp only [imgWord, BitVec.getElem_extractLsb', BitVec.getLsbD_append]
  simp [hi]

private theorem extract_low (w : Word) : w.extractLsb' 0 2 = (w.extractLsb' 0 16).extractLsb' 0 2 := by
  ext i hi
  interval_cases i <;> simp

private theorem extract_high (w : Word) : w.extractLsb' 16 2 = (w.extractLsb' 16 16).extractLsb' 0 2 := by
  ext i hi
  interval_cases i <;> simp

theorem halfAt_low {a : Word} (h : a.getLsbD 1 = false) : halfAt img a = imgHalf img (a.toNat / 4 * 4) := by
  rw [getLsbD_one_eq, decide_eq_false_iff_not] at h
  rw [halfAt]
  congr 1
  omega

theorem halfAt_high {a : Word} (h : a.getLsbD 1 = true) : halfAt img a = imgHalf img (a.toNat / 4 * 4 + 2) := by
  rw [getLsbD_one_eq, decide_eq_true_iff] at h
  rw [halfAt]
  congr 1
  omega

/-! ### Addresses of neighbouring halves -/

theorem toNat_spanPc (a : Word) : (spanPc a).toNat = (a.toNat / 4 * 4 + 4) % 2 ^ 32 := by
  rw [spanPc, BitVec.toNat_add, toNat_and_not3]
  rfl

theorem spanPc_bit (a : Word) : (spanPc a).getLsbD 1 = false := by
  rw [getLsbD_one_eq, toNat_spanPc, decide_eq_false_iff_not]
  omega

theorem toNat_add_two {a : Word} (h : a.getLsbD 1 = false) : (a + 2).toNat = a.toNat + 2 := by
  rw [getLsbD_one_eq, decide_eq_false_iff_not] at h
  have ha := a.isLt
  rw [BitVec.toNat_add]
  have : (2 : Word).toNat = 2 := rfl
  omega

theorem add_two_bit {a : Word} (h : a.getLsbD 1 = false) : (a + 2).getLsbD 1 = true := by
  have h1 := toNat_add_two h
  rw [getLsbD_one_eq, decide_eq_false_iff_not] at h
  rw [getLsbD_one_eq, h1, decide_eq_true_iff]
  omega

private theorem add_two_in {a : Word} (h : a.getLsbD 1 = false) (hin : outOfImem p a = false) :
    outOfImem p (a + 2) = false := by
  rw [outOfImem_eq_false_iff] at hin ⊢
  have h1 := toNat_add_two h
  rw [getLsbD_one_eq, decide_eq_false_iff_not] at h
  have h4 : 2 ^ 2 ∣ 2 ^ p.imemAddrW := Nat.pow_dvd_pow 2 (by have := p.imemAddrW_ge; omega)
  omega

private theorem spanPc_add_two {a : Word} (h : a.getLsbD 1 = false) : spanPc (a + 2) = spanPc a := by
  apply BitVec.eq_of_toNat_eq
  rw [toNat_spanPc, toNat_spanPc, toNat_add_two h]
  rw [getLsbD_one_eq, decide_eq_false_iff_not] at h
  omega

private theorem halfAt_add_two {a : Word} (h : a.getLsbD 1 = false) :
    halfAt img (a + 2) = imgHalf img (a.toNat / 4 * 4 + 2) := by
  rw [halfAt_high (add_two_bit h), toNat_add_two h]
  rw [getLsbD_one_eq, decide_eq_false_iff_not] at h
  congr 1
  omega

private theorem nextFetch_eq_spanPc {a : Word} (hin : outOfImem p a = false) : nextFetch p a = spanPc a :=
  nextFetch_of_in hin

/-- A fault swallows the half in front of it: the item at a span fault is the item at its second half. -/
private theorem SpanFault.item {a : Word} (h : SpanFault p img a) : itemAt p img a = itemAt p img (spanPc a) := by
  simp [itemAt, h.inside, h.upper, h.long, h.outside]

private theorem SpanFault.after {a : Word} (h : SpanFault p img a) :
    afterItem p img a = afterItem p img (spanPc a) := by
  simp [afterItem, h.inside, h.upper, h.long, h.outside]

/-! ### The position of the front end -/

/-- The front end stands at the address `a`: nothing is stashed, or the half at `a` is, or the half at `a` was stashed
and dropped in front of an access fault. -/
inductive FeAt (p : Params) (img : Nat → BitVec 64) (a : Word) (s : FrontEnd) : Prop
  | fresh (hold : s.decode.holdQ = false) (fetch : FetchAt p img a s.fetch s.imem)
  | held (hold : s.decode.holdQ = true) (pc : s.decode.holdPcQ = a) (upper : a.getLsbD 1 = true)
      (inside : outOfImem p a = false) (word : s.decode.holdWordQ = (halfAt img a).setWidth 32)
      (fetch : FetchAt p img (spanPc a) s.fetch s.imem)
  | dropped (hold : s.decode.holdQ = false) (span : SpanFault p img a)
      (fetch : FetchAt p img (spanPc a) s.fetch s.imem)

/-- The item decode presents this cycle. -/
def FrontEnd.item (s : FrontEnd) (i : FrontEndIn) : Item :=
  ⟨takeFault s.decode (s.decodeIn i), src s.decode (s.decodeIn i)⟩

namespace FrontEnd

variable {s : FrontEnd} {i : FrontEndIn}

@[simp] theorem decodeIn_fe : (s.decodeIn i).fe = s.fetch.fe := rfl
@[simp] theorem decodeIn_feValid : (s.decodeIn i).feValid = s.fetch.feValid := rfl
@[simp] theorem decodeIn_feNext : (s.decodeIn i).feNext = s.fetch.feNext := rfl
@[simp] theorem decodeIn_feNextValid : (s.decodeIn i).feNextValid = s.fetch.feNextValid := rfl
@[simp] theorem decodeIn_stall : (s.decodeIn i).stall = i.stall := rfl
@[simp] theorem decodeIn_flush : (s.decodeIn i).flush = i.branchValid := rfl

theorem wired (p : Params) (s : FrontEnd) (i : FrontEndIn) : FetchWired p s.fetch s.imem (s.fetchIn p i) := rfl

/-- Fetch redirects when execute does or when decode fires a prediction. -/
theorem redirect_eq (p : Params) (s : FrontEnd) (i : FrontEndIn) :
    FetchStage.redirect (s.fetchIn p i) = (i.branchValid || predRedirectFire p s.decode (s.decodeIn i)) := by
  change (i.branchValid || (predRedirectFire p s.decode (s.decodeIn i) && !i.branchValid)) = _
  cases i.branchValid <;> simp

theorem redirectAddr_eq (p : Params) (s : FrontEnd) (i : FrontEndIn) :
    FetchStage.redirectAddr (s.fetchIn p i) =
      if i.branchValid then i.branchAddr else cfTarget s.decode (s.decodeIn i) := rfl

private theorem pop_eq (p : Params) (s : FrontEnd) (i : FrontEndIn) :
    bufPopCnt s.fetch (s.fetchIn p i) =
      if s.fetch.feValid && !stallO s.decode (s.decodeIn i) then
        (if pop2 s.decode (s.decodeIn i) then 2 else 1)
      else 0 := rfl

/-- A redirect of fetch puts the front end at its target; it drops the stash whatever the case. -/
private theorem FetchAt_redirect {a : Word} (h : FetchAt p img a s.fetch s.imem)
    (hr : FetchStage.redirect (s.fetchIn p i) = true) :
    FeAt p img (FetchStage.redirectAddr (s.fetchIn p i)) (s.next p i) := by
  refine .fresh ?_ (h.redirect (wired p s i) hr)
  rw [redirect_eq] at hr
  change (holdD p s.decode (s.decodeIn i)).holdQ = false
  rw [holdD, decodeIn_flush]
  cases hb : i.branchValid with
  | true => rfl
  | false =>
    rw [hb, Bool.false_or] at hr
    rw [hr]
    rfl

/-! ### Pops -/

private theorem advance_by {a : Word} (h : FetchAt p img a s.fetch s.imem)
    (hr : FetchStage.redirect (s.fetchIn p i) = false)
    {k : Nat} (hk : bufPopCnt s.fetch (s.fetchIn p i) = k) (hle : k ≤ s.fetch.countQ) :
    FetchAt p img ((nextFetch p)^[k] a) (s.next p i).fetch (s.next p i).imem := by
  rw [← hk] at hle ⊢
  exact h.advance (wired p s i) hr hle

private theorem stay {a : Word} (h : FetchAt p img a s.fetch s.imem)
    (hr : FetchStage.redirect (s.fetchIn p i) = false)
    (hv : s.fetch.feValid = false ∨ stallO s.decode (s.decodeIn i) = true) :
    FetchAt p img a (s.next p i).fetch (s.next p i).imem := by
  refine advance_by h hr (k := 0) ?_ (Nat.zero_le _)
  rw [pop_eq]
  rcases hv with hv | hv <;> simp [hv]

private theorem pop_head {a : Word} (h : FetchAt p img a s.fetch s.imem)
    (hr : FetchStage.redirect (s.fetchIn p i) = false)
    (hv : s.fetch.feValid = true) (hst : stallO s.decode (s.decodeIn i) = false)
    (hp : pop2 s.decode (s.decodeIn i) = false) :
    FetchAt p img (nextFetch p a) (s.next p i).fetch (s.next p i).imem := by
  refine advance_by h hr (k := 1) ?_ ?_
  · rw [pop_eq]
    simp [hv, hst, hp]
  · simp only [feValid, bne_iff_ne, ne_eq] at hv
    omega

private theorem pop_both {a : Word} (h : FetchAt p img a s.fetch s.imem)
    (hr : FetchStage.redirect (s.fetchIn p i) = false)
    (hv : s.fetch.feNextValid = true) (hst : stallO s.decode (s.decodeIn i) = false)
    (hp : pop2 s.decode (s.decodeIn i) = true) :
    FetchAt p img (nextFetch p (nextFetch p a)) (s.next p i).fetch (s.next p i).imem := by
  have h2 : 2 ≤ s.fetch.countQ := of_decide_eq_true hv
  refine advance_by h hr (k := 2) ?_ h2
  have hv1 : s.fetch.feValid = true := by
    simp only [feValid, bne_iff_ne, ne_eq]
    omega
  rw [pop_eq]
  simp [hv1, hst, hp]

theorem fire_eq_false (h : decodedValid s.decode (s.decodeIn i) = false) :
    predRedirectFire p s.decode (s.decodeIn i) = false := by
  simp [predRedirectFire, isCf, h]

end FrontEnd

/-! ### The two entries decode sees -/

theorem FetchAt.head {a : Word} {q : FetchStage} {r : NativeRam 64} (h : FetchAt p img a q r)
    (hv : q.feValid = true) : q.fe.slot = slotAt p img a := by
  obtain ⟨l, hl, hs⟩ := h.buf
  simp only [feValid, bne_iff_ne, ne_eq] at hv
  have hlen : l.length = q.countQ := by
    have := congrArg List.length hs
    simpa using this
  have hpos : 0 < (l.map BufEntry.slot).length := by
    simp only [List.length_map]
    omega
  have h0 : (l.map BufEntry.slot)[0] = slotAt p img a := by
    simp only [hs, getElem_slotsFrom]
    rfl
  rw [fe, hl.at_head (by omega)]
  simpa using h0

theorem FetchAt.next {a : Word} {q : FetchStage} {r : NativeRam 64} (h : FetchAt p img a q r)
    (hv : q.feNextValid = true) : q.feNext.slot = slotAt p img (nextFetch p a) := by
  obtain ⟨l, hl, hs⟩ := h.buf
  have h2 : 2 ≤ q.countQ := of_decide_eq_true hv
  have hlen : l.length = q.countQ := by
    have := congrArg List.length hs
    simpa using this
  have hone : 1 < (l.map BufEntry.slot).length := by
    simp only [List.length_map]
    omega
  have h1 : (l.map BufEntry.slot)[1] = slotAt p img (nextFetch p a) := by
    simp only [hs, getElem_slotsFrom]
    rfl
  rw [feNext, hl.at_next (by omega)]
  simpa using h1

/-- The fields of a fetchable entry. -/
private theorem slot_in {e : BufEntry} {a : Word} (h : e.slot = slotAt p img a) (hin : outOfImem p a = false) :
    e.fault = false ∧ e.pc = a ∧ e.instr = imgWord img (a.toNat / 4 * 4) := by
  simp only [BufEntry.slot, slotAt, hin, Bool.false_eq_true, if_false, Slot.mk.injEq] at h
  exact ⟨h.2.2, h.2.1, h.1⟩

/-- The fields of a fault entry. -/
private theorem slot_out {e : BufEntry} {a : Word} (h : e.slot = slotAt p img a) (hout : outOfImem p a = true) :
    e.fault = true ∧ e.pc = a := by
  simp only [BufEntry.slot, slotAt, hout, if_true, Slot.mk.injEq] at h
  exact ⟨h.2.2, h.2.1⟩

/-! ### One cycle -/

/-- What one cycle of the front end does at the position `a`. -/
structure FeStep (p : Params) (img : Nat → BitVec 64) (a : Word) (s : FrontEnd) (i : FrontEndIn) : Prop where
  item : decodedValid s.decode (s.decodeIn i) = true → s.item i = itemAt p img a
  go : FetchStage.redirect (s.fetchIn p i) = false → i.stall = false →
    FeAt p img (if decodedValid s.decode (s.decodeIn i) then afterItem p img a else a) (s.next p i)
  wait : FetchStage.redirect (s.fetchIn p i) = false → i.stall = true → FeAt p img a (s.next p i)

section Cycle

variable {a : Word} {s : FrontEnd} {i : FrontEndIn}

theorem redirect_parts (hr : FetchStage.redirect (s.fetchIn p i) = false) :
    i.branchValid = false ∧ predRedirectFire p s.decode (s.decodeIn i) = false := by
  rw [FrontEnd.redirect_eq, Bool.or_eq_false_iff] at hr
  exact hr

theorem next_holdQ : (s.next p i).decode.holdQ = (holdD p s.decode (s.decodeIn i)).holdQ := rfl

private theorem next_holdPcQ : (s.next p i).decode.holdPcQ = (holdD p s.decode (s.decodeIn i)).holdPcQ := rfl

private theorem next_holdWordQ : (s.next p i).decode.holdWordQ = (holdD p s.decode (s.decodeIn i)).holdWordQ := rfl

/-- Without a stash nothing but execute stalls fetch. -/
private theorem stallO_of_no_hold (hold : s.decode.holdQ = false) : stallO s.decode (s.decodeIn i) = i.stall := by
  simp [stallO, resourceStall, holdPlainPending, hold]

private theorem no_hold_parts (hold : s.decode.holdQ = false) :
    s.decode.isHoldPlain = false ∧ spanComplete s.decode (s.decodeIn i) = false ∧
      spanWait s.decode (s.decodeIn i) = false ∧
      takeFault s.decode (s.decodeIn i) = (s.fetch.feValid && s.fetch.fe.fault) := by
  simp [isHoldPlain, spanComplete, spanWait, takeFault, fetchFault, holdPlainPending, spanPending, hold]

theorem no_hold_empty (hold : s.decode.holdQ = false) (hv : s.fetch.feValid = false)
    (hr : FetchStage.redirect (s.fetchIn p i) = false) : (s.next p i).decode.holdQ = false := by
  obtain ⟨h1, h2, h3, h4⟩ := no_hold_parts (i := i) hold
  have htf : takeFault s.decode (s.decodeIn i) = false := by rw [h4, hv, Bool.false_and]
  obtain ⟨hb, hf⟩ := redirect_parts hr
  rw [next_holdQ, holdD]
  cases hs : i.stall <;>
    simp [hb, hf, hs, htf, h1, h2, h3, targetSpanComplete, targetSpanWait, targetSpan, targetUpper, bufferUpper, hv,
      hold]

private theorem no_hold_wait (hold : s.decode.holdQ = false) (hs : i.stall = true)
    (hr : FetchStage.redirect (s.fetchIn p i) = false) : (s.next p i).decode.holdQ = false := by
  obtain ⟨hb, hf⟩ := redirect_parts hr
  rw [next_holdQ, holdD]
  cases takeFault s.decode (s.decodeIn i) <;> simp [hb, hf, hs, hold]

/-- An empty buffer and no stash: nothing is emitted. -/
private theorem step_empty (hold : s.decode.holdQ = false) (h : FetchAt p img a s.fetch s.imem)
    (hv : s.fetch.feValid = false) : FeStep p img a s i := by
  obtain ⟨h1, h2, -, h4⟩ := no_hold_parts (i := i) hold
  have htf : takeFault s.decode (s.decodeIn i) = false := by rw [h4, hv, Bool.false_and]
  have hdv : decodedValid s.decode (s.decodeIn i) = false := by simp [decodedValid, htf, h1, h2, hv]
  refine ⟨fun hd => absurd hd (by simp [hdv]), fun hr _ => ?_, fun hr _ => ?_⟩
  · rw [hdv]
    exact .fresh (no_hold_empty hold hv hr) (FrontEnd.stay h hr (.inl hv))
  · exact .fresh (no_hold_empty hold hv hr) (FrontEnd.stay h hr (.inl hv))

/-- A fault entry at the head and no stash: the fault is emitted. -/
private theorem step_fault (hold : s.decode.holdQ = false) (h : FetchAt p img a s.fetch s.imem)
    (hv : s.fetch.feValid = true) (hout : outOfImem p a = true) : FeStep p img a s i := by
  obtain ⟨hfault, hpc⟩ := slot_out (h.head hv) hout
  obtain ⟨-, -, -, h4⟩ := no_hold_parts (i := i) hold
  have htf : takeFault s.decode (s.decodeIn i) = true := by rw [h4, hv, hfault]; rfl
  have hdv : decodedValid s.decode (s.decodeIn i) = true := by simp [decodedValid, htf]
  have hp : pop2 s.decode (s.decodeIn i) = false := by simp [pop2, targetSpanComplete, targetSpan, targetUpper, htf]
  have hhold : FetchStage.redirect (s.fetchIn p i) = false → (s.next p i).decode.holdQ = false := by
    intro hr
    obtain ⟨hb, hf⟩ := redirect_parts hr
    rw [next_holdQ, holdD]
    simp [hb, hf, htf]
  refine ⟨fun _ => ?_, fun hr hs => ?_, fun hr hs => ?_⟩
  · simp [FrontEnd.item, htf, DecodeStage.src, hpc, itemAt, hout, Item.faultAt]
  · have hn := FrontEnd.pop_head h hr hv (by rw [stallO_of_no_hold hold, hs]) hp
    rw [nextFetch_of_out hout] at hn
    rw [hdv, if_pos rfl, afterItem, if_pos hout]
    exact .fresh (hhold hr) hn
  · exact .fresh (hhold hr) (FrontEnd.stay h hr (.inr (by rw [stallO_of_no_hold hold, hs])))

/-- Under a stall a front end without a stash stays where it is. -/
private theorem wait_fresh (hold : s.decode.holdQ = false) (h : FetchAt p img a s.fetch s.imem)
    (hr : FetchStage.redirect (s.fetchIn p i) = false) (hs : i.stall = true) : FeAt p img a (s.next p i) := by
  exact .fresh (no_hold_wait hold hs hr) (FrontEnd.stay h hr (.inr (by rw [stallO_of_no_hold hold, hs])))

/-- A target in the upper half of the head word: a compressed one is emitted, the low half of a 32-bit one is stitched
with the next entry or stashed until that arrives. -/
private theorem step_upper (hold : s.decode.holdQ = false) (h : FetchAt p img a s.fetch s.imem)
    (hv : s.fetch.feValid = true) (hin : outOfImem p a = false) (hup : a.getLsbD 1 = true) :
    FeStep p img a s i := by
  obtain ⟨hfault, hpc, hinstr⟩ := slot_in (h.head hv) hin
  obtain ⟨h1, h2, h3, h4⟩ := no_hold_parts (i := i) hold
  have htf : takeFault s.decode (s.decodeIn i) = false := by rw [h4, hv, hfault]; rfl
  have htu : targetUpper s.decode (s.decodeIn i) = true := by
    rw [targetUpper, htf, hold, FrontEnd.decodeIn_feValid, hv, FrontEnd.decodeIn_fe, hpc, hup]
    rfl
  have hhalf : s.fetch.fe.instr.extractLsb' 16 16 = halfAt img a := by
    rw [hinstr, high_imgWord, halfAt_high hup]
  have hts : targetSpan s.decode (s.decodeIn i) = !isRvc (halfAt img a) := by
    rw [targetSpan, htu, FrontEnd.decodeIn_fe, extract_high, hhalf, isRvc]
    cases h : (halfAt img a).extractLsb' 0 2 == 0b11#2 <;> simp_all
  have hbu : bufferUpper s.decode (s.decodeIn i) = false := by simp [bufferUpper, htu]
  have hstall := stallO_of_no_hold (i := i) hold
  cases hc : isRvc (halfAt img a) with
  | true =>
    rw [hc, Bool.not_true] at hts
    have hsc : targetSpanComplete s.decode (s.decodeIn i) = false := by simp [targetSpanComplete, hts]
    have hsw : targetSpanWait s.decode (s.decodeIn i) = false := by simp [targetSpanWait, hts]
    have hdv : decodedValid s.decode (s.decodeIn i) = true := by simp [decodedValid, hv, hold, htf, hsw]
    refine ⟨fun _ => ?_, fun hr hs => ?_, wait_fresh hold h⟩
    · simp [FrontEnd.item, DecodeStage.src, htf, h1, h2, h3, hsc, hsw, htu, hpc, hhalf, itemAt, hin, hc]
    · obtain ⟨hb, hf⟩ := redirect_parts hr
      have hn := FrontEnd.pop_head h hr hv (by rw [hstall, hs]) hsc
      rw [nextFetch_eq_spanPc hin] at hn
      rw [hdv, if_pos rfl, afterItem, hin, hc, hup]
      refine .fresh ?_ hn
      rw [next_holdQ, holdD]
      simp [hb, hf, htf, hs, h1, h2, h3, hsc, hsw, hbu]
  | false =>
    rw [hc, Bool.not_false] at hts
    cases hsc : targetSpanComplete s.decode (s.decodeIn i) with
    | true =>
      have hsw : targetSpanWait s.decode (s.decodeIn i) = false := by simp [targetSpanWait, hsc]
      have hdv : decodedValid s.decode (s.decodeIn i) = true := by simp [decodedValid, hv, hold, htf, hsw]
      have hnv : s.fetch.feNextValid = true ∧ s.fetch.feNext.fault = false := by
        simpa [targetSpanComplete, hts] using hsc
      have hslot := h.next hnv.1
      rw [nextFetch_eq_spanPc hin] at hslot
      have hin' : outOfImem p (spanPc a) = false := by
        cases ho : outOfImem p (spanPc a) with
        | false => rfl
        | true => exact absurd (slot_out hslot ho).1 (by simp [hnv.2])
      obtain ⟨-, hpc', hinstr'⟩ := slot_in hslot hin'
      have hlow : s.fetch.feNext.instr.extractLsb' 0 16 = halfAt img (spanPc a) := by
        rw [hinstr', low_imgWord, halfAt_low (spanPc_bit a)]
      have hhigh : s.fetch.feNext.instr.extractLsb' 16 16 = halfAt img (spanPc a + 2) := by
        rw [hinstr', high_imgWord, halfAt_add_two (spanPc_bit a)]
      refine ⟨fun _ => ?_, fun hr hs => ?_, wait_fresh hold h⟩
      · simp [FrontEnd.item, DecodeStage.src, htf, h1, h2, h3, hsc, hpc, hhalf, hlow, itemAt, hin, hc, hup, hin']
      · obtain ⟨hb, hf⟩ := redirect_parts hr
        have hn := FrontEnd.pop_both h hr hnv.1 (by rw [hstall, hs]) hsc
        rw [nextFetch_eq_spanPc hin, nextFetch_eq_spanPc hin'] at hn
        have hafter : afterItem p img a = spanPc a + 2 := by
          rw [afterItem, hin, hc, hup, hin']
          rfl
        have hd : holdD p s.decode (s.decodeIn i) =
            stashUpper s.decode s.fetch.feNext (s.fetch.feNext.pc + 2) := by
          simp [holdD, hb, hf, htf, hs, h1, h2, h3, hsc]
        rw [hdv, if_pos rfl, hafter]
        refine .held ?_ ?_ (add_two_bit (spanPc_bit a)) (add_two_in (spanPc_bit a) hin') ?_ ?_
        · rw [next_holdQ, hd]
          rfl
        · rw [next_holdPcQ, hd, stashUpper, hpc']
        · rw [next_holdWordQ, hd, stashUpper, hhigh]
        · rw [spanPc_add_two (spanPc_bit a)]
          exact hn
    | false =>
      have hsw : targetSpanWait s.decode (s.decodeIn i) = true := by simp [targetSpanWait, hts, hsc]
      have hdv : decodedValid s.decode (s.decodeIn i) = false := by simp [decodedValid, htf, h1, h2, hsw]
      refine ⟨fun hd => absurd hd (by simp [hdv]), fun hr hs => ?_, wait_fresh hold h⟩
      obtain ⟨hb, hf⟩ := redirect_parts hr
      have hn := FrontEnd.pop_head h hr hv (by rw [hstall, hs]) hsc
      rw [nextFetch_eq_spanPc hin] at hn
      have hd : holdD p s.decode (s.decodeIn i) = stashUpper s.decode s.fetch.fe s.fetch.fe.pc := by
        simp [holdD, hb, hf, htf, hs, h1, h2, h3, hsc, hsw]
      rw [hdv, if_neg (by simp)]
      refine .held ?_ ?_ hup hin ?_ hn
      · rw [next_holdQ, hd]
        rfl
      · rw [next_holdPcQ, hd, stashUpper, hpc]
      · rw [next_holdWordQ, hd, stashUpper, hhalf]

/-- A word whose low half is at the position: a compressed half stashes the other one, a 32-bit word is emitted
whole. -/
private theorem step_low (hold : s.decode.holdQ = false) (h : FetchAt p img a s.fetch s.imem)
    (hv : s.fetch.feValid = true) (hin : outOfImem p a = false) (hlo : a.getLsbD 1 = false) :
    FeStep p img a s i := by
  obtain ⟨hfault, hpc, hinstr⟩ := slot_in (h.head hv) hin
  obtain ⟨h1, h2, h3, h4⟩ := no_hold_parts (i := i) hold
  have htf : takeFault s.decode (s.decodeIn i) = false := by rw [h4, hv, hfault]; rfl
  have htu : targetUpper s.decode (s.decodeIn i) = false := by
    rw [targetUpper, htf, hold, FrontEnd.decodeIn_feValid, hv, FrontEnd.decodeIn_fe, hpc, hlo]
    rfl
  have hhalf : s.fetch.fe.instr.extractLsb' 0 16 = halfAt img a := by
    rw [hinstr, low_imgWord, halfAt_low hlo]
  have hts : targetSpan s.decode (s.decodeIn i) = false := by simp [targetSpan, htu]
  have hsc : targetSpanComplete s.decode (s.decodeIn i) = false := by simp [targetSpanComplete, hts]
  have hsw : targetSpanWait s.decode (s.decodeIn i) = false := by simp [targetSpanWait, hts]
  have hdv : decodedValid s.decode (s.decodeIn i) = true := by simp [decodedValid, hv, hold, htf, hsw]
  have hcomp : feIsCompressed (s.decodeIn i) = isRvc (halfAt img a) := by
    rw [feIsCompressed, FrontEnd.decodeIn_fe, extract_low, hhalf, isRvc]
  have hstall := stallO_of_no_hold (i := i) hold
  cases hc : isRvc (halfAt img a) with
  | true =>
    refine ⟨fun _ => ?_, fun hr hs => ?_, wait_fresh hold h⟩
    · simp [FrontEnd.item, DecodeStage.src, htf, h1, h2, h3, hsc, hsw, htu, hcomp, hpc, hhalf, itemAt, hin, hc]
    · obtain ⟨hb, hf⟩ := redirect_parts hr
      have hn := FrontEnd.pop_head h hr hv (by rw [hstall, hs]) hsc
      rw [nextFetch_eq_spanPc hin] at hn
      have hafter : afterItem p img a = a + 2 := by
        rw [afterItem, hin, hc, hlo]
        rfl
      have hbu : bufferUpper s.decode (s.decodeIn i) = true := by simp [bufferUpper, htu, hold, hv, hcomp, hc]
      have hd : holdD p s.decode (s.decodeIn i) = stashUpper s.decode s.fetch.fe (s.fetch.fe.pc + 2) := by
        simp [holdD, hb, hf, htf, hs, h1, h2, h3, hsc, hsw, hbu]
      have hhigh : s.fetch.fe.instr.extractLsb' 16 16 = halfAt img (a + 2) := by
        rw [hinstr, high_imgWord, halfAt_add_two hlo]
      rw [hdv, if_pos rfl, hafter]
      refine .held ?_ ?_ (add_two_bit hlo) (add_two_in hlo hin) ?_ ?_
      · rw [next_holdQ, hd]
        rfl
      · rw [next_holdPcQ, hd, stashUpper, hpc]
      · rw [next_holdWordQ, hd, stashUpper, hhigh]
      · rw [spanPc_add_two hlo]
        exact hn
  | false =>
    refine ⟨fun _ => ?_, fun hr hs => ?_, wait_fresh hold h⟩
    · rw [itemAt, hin, hc, hlo]
      simp [FrontEnd.item, DecodeStage.src, htf, h1, h2, h3, hsc, hsw, htu, hcomp, hpc, hinstr, hc]
    · obtain ⟨hb, hf⟩ := redirect_parts hr
      have hn := FrontEnd.pop_head h hr hv (by rw [hstall, hs]) hsc
      rw [nextFetch_eq_spanPc hin] at hn
      rw [hdv, if_pos rfl, afterItem, hin, hc, hlo]
      refine .fresh ?_ hn
      rw [next_holdQ, holdD]
      simp [hb, hf, htf, hs, h1, h2, h3, hsc, hsw, bufferUpper, htu, hold, hv, hcomp, hc]

/-- One cycle without a stash. -/
private theorem step_fresh (hold : s.decode.holdQ = false) (h : FetchAt p img a s.fetch s.imem) :
    FeStep p img a s i := by
  cases hv : s.fetch.feValid with
  | false => exact step_empty hold h hv
  | true =>
    cases hin : outOfImem p a with
    | true => exact step_fault hold h hv hin
    | false =>
      cases hup : a.getLsbD 1 with
      | true => exact step_upper hold h hv hin hup
      | false => exact step_low hold h hv hin hup

/-- A stashed compressed half is emitted while fetch waits. -/
private theorem step_held_rvc (hold : s.decode.holdQ = true) (hpc : s.decode.holdPcQ = a) (hup : a.getLsbD 1 = true)
    (hin : outOfImem p a = false) (hword : s.decode.holdWordQ = (halfAt img a).setWidth 32)
    (h : FetchAt p img (spanPc a) s.fetch s.imem) (hc : isRvc (halfAt img a) = true) : FeStep p img a s i := by
  have hlow : s.decode.holdWordQ.extractLsb' 0 16 = halfAt img a := by
    rw [hword]
    ext k hk
    simp [hk]
    omega
  have hspan : s.decode.holdIsSpan = false := by
    rw [holdIsSpan, extract_low, hlow]
    simpa [isRvc] using hc
  have hplain : s.decode.isHoldPlain = true := by simp [isHoldPlain, holdPlainPending, hold, hspan]
  have htf : takeFault s.decode (s.decodeIn i) = false := by simp [takeFault, holdPlainPending, hold, hspan]
  have hsc : spanComplete s.decode (s.decodeIn i) = false := by simp [spanComplete, spanPending, hspan]
  have hsw : spanWait s.decode (s.decodeIn i) = false := by simp [spanWait, spanPending, hspan]
  have hdv : decodedValid s.decode (s.decodeIn i) = true := by simp [decodedValid, hplain]
  have hquiet : s.fetch.feValid = false ∨ stallO s.decode (s.decodeIn i) = true := by
    cases hv : s.fetch.feValid with
    | false => exact .inl rfl
    | true => exact .inr (by simp [stallO, resourceStall, holdPlainPending, hold, hspan, hv])
  refine ⟨fun _ => ?_, fun hr hs => ?_, fun hr hs => ?_⟩
  · simp [FrontEnd.item, DecodeStage.src, htf, hsc, hsw, hplain, hpc, hlow, itemAt, hin, hc]
  · obtain ⟨hb, hf⟩ := redirect_parts hr
    rw [hdv, if_pos rfl, afterItem, hin, hc, hup]
    refine .fresh ?_ (FrontEnd.stay h hr hquiet)
    rw [next_holdQ, holdD]
    simp [hb, hf, htf, hs, hsc, hsw, hplain]
  · obtain ⟨hb, hf⟩ := redirect_parts hr
    have hd : holdD p s.decode (s.decodeIn i) = s.decode := by simp [holdD, hb, hf, htf, hs]
    exact .held (by rw [next_holdQ, hd, hold]) (by rw [next_holdPcQ, hd, hpc]) hup hin
      (by rw [next_holdWordQ, hd, hword]) (FrontEnd.stay h hr hquiet)

/-- A stashed low half of a 32-bit instruction waits for the next entry, is stitched with it, or is dropped in front
of a fault entry. -/
private theorem step_held_span (hold : s.decode.holdQ = true) (hpc : s.decode.holdPcQ = a) (hup : a.getLsbD 1 = true)
    (hin : outOfImem p a = false) (hword : s.decode.holdWordQ = (halfAt img a).setWidth 32)
    (h : FetchAt p img (spanPc a) s.fetch s.imem) (hc : isRvc (halfAt img a) = false) : FeStep p img a s i := by
  have hlow : s.decode.holdWordQ.extractLsb' 0 16 = halfAt img a := by
    rw [hword]
    ext k hk
    simp [hk]
    omega
  have hspan : s.decode.holdIsSpan = true := by
    rw [holdIsSpan, extract_low, hlow]
    simpa [isRvc] using hc
  have hplain : s.decode.isHoldPlain = false := by simp [isHoldPlain, holdPlainPending, hspan]
  have htf : takeFault s.decode (s.decodeIn i) = (s.fetch.feValid && s.fetch.fe.fault) := by
    simp [takeFault, fetchFault, holdPlainPending, hspan]
  have hstall : stallO s.decode (s.decodeIn i) = i.stall := by simp [stallO, resourceStall, holdPlainPending, hspan]
  have hp : pop2 s.decode (s.decodeIn i) = false := by
    simp [pop2, targetSpanComplete, targetSpan, targetUpper, hold]
  cases hv : s.fetch.feValid with
  | false =>
    rw [hv, Bool.false_and] at htf
    have hsc : spanComplete s.decode (s.decodeIn i) = false := by simp [spanComplete, hv]
    have hsw : spanWait s.decode (s.decodeIn i) = true := by simp [spanWait, htf, spanPending, hold, hspan, hv]
    have hdv : decodedValid s.decode (s.decodeIn i) = false := by simp [decodedValid, htf, hsc, hplain, hv]
    have hstay : FetchStage.redirect (s.fetchIn p i) = false → FeAt p img a (s.next p i) := by
      intro hr
      obtain ⟨hb, hf⟩ := redirect_parts hr
      have hd : holdD p s.decode (s.decodeIn i) = s.decode := by simp [holdD, hb, hf, htf, hsw]
      exact .held (by rw [next_holdQ, hd, hold]) (by rw [next_holdPcQ, hd, hpc]) hup hin
        (by rw [next_holdWordQ, hd, hword]) (FrontEnd.stay h hr (.inl hv))
    refine ⟨fun hd => absurd hd (by simp [hdv]), fun hr _ => ?_, fun hr _ => hstay hr⟩
    rw [hdv]
    exact hstay hr
  | true =>
    rw [hv, Bool.true_and] at htf
    cases hout : outOfImem p (spanPc a) with
    | true =>
      obtain ⟨hfault, hfpc⟩ := slot_out (h.head hv) hout
      rw [hfault] at htf
      have hdv : decodedValid s.decode (s.decodeIn i) = true := by simp [decodedValid, htf]
      have hsf : SpanFault p img a := ⟨hin, hup, hc, hout⟩
      have hhold : FetchStage.redirect (s.fetchIn p i) = false → (s.next p i).decode.holdQ = false := by
        intro hr
        obtain ⟨hb, hf⟩ := redirect_parts hr
        rw [next_holdQ, holdD]
        simp [hb, hf, htf]
      refine ⟨fun _ => ?_, fun hr hs => ?_, fun hr hs => ?_⟩
      · rw [hsf.item]
        simp [FrontEnd.item, htf, DecodeStage.src, hfpc, itemAt, hout, Item.faultAt]
      · have hn := FrontEnd.pop_head h hr hv (by rw [hstall, hs]) hp
        rw [nextFetch_of_out hout] at hn
        rw [hdv, if_pos rfl, hsf.after, afterItem, if_pos hout]
        exact .fresh (hhold hr) hn
      · exact .dropped (hhold hr) hsf (FrontEnd.stay h hr (.inr (by rw [hstall, hs])))
    | false =>
      obtain ⟨hfault, hfpc, hinstr⟩ := slot_in (h.head hv) hout
      rw [hfault] at htf
      have hsc : spanComplete s.decode (s.decodeIn i) = true := by
        simp [spanComplete, htf, spanPending, hold, hspan, hv]
      have hsw : spanWait s.decode (s.decodeIn i) = false := by simp [spanWait, hv]
      have hdv : decodedValid s.decode (s.decodeIn i) = true := by simp [decodedValid, hsc]
      have hfe : s.fetch.fe.instr.extractLsb' 0 16 = halfAt img (spanPc a) := by
        rw [hinstr, low_imgWord, halfAt_low (spanPc_bit a)]
      have hhigh : s.fetch.fe.instr.extractLsb' 16 16 = halfAt img (spanPc a + 2) := by
        rw [hinstr, high_imgWord, halfAt_add_two (spanPc_bit a)]
      refine ⟨fun _ => ?_, fun hr hs => ?_, fun hr hs => ?_⟩
      · simp [FrontEnd.item, DecodeStage.src, htf, hsc, hpc, hlow, hfe, itemAt, hin, hc, hup, hout]
      · obtain ⟨hb, hf⟩ := redirect_parts hr
        have hn := FrontEnd.pop_head h hr hv (by rw [hstall, hs]) hp
        rw [nextFetch_eq_spanPc hout] at hn
        have hafter : afterItem p img a = spanPc a + 2 := by
          rw [afterItem, hin, hc, hup, hout]
          rfl
        have hd : holdD p s.decode (s.decodeIn i) = stashUpper s.decode s.fetch.fe (s.fetch.fe.pc + 2) := by
          simp [holdD, hb, hf, htf, hs, hsc, hsw]
        rw [hdv, if_pos rfl, hafter]
        refine .held ?_ ?_ (add_two_bit (spanPc_bit a)) (add_two_in (spanPc_bit a) hout) ?_ ?_
        · rw [next_holdQ, hd]
          rfl
        · rw [next_holdPcQ, hd, stashUpper, hfpc]
        · rw [next_holdWordQ, hd, stashUpper, hhigh]
        · rw [spanPc_add_two (spanPc_bit a)]
          exact hn
      · obtain ⟨hb, hf⟩ := redirect_parts hr
        have hd : holdD p s.decode (s.decodeIn i) = s.decode := by simp [holdD, hb, hf, htf, hs]
        exact .held (by rw [next_holdQ, hd, hold]) (by rw [next_holdPcQ, hd, hpc]) hup hin
          (by rw [next_holdWordQ, hd, hword]) (FrontEnd.stay h hr (.inr (by rw [hstall, hs])))

/-- One cycle of the front end at any position. -/
theorem FeAt.step (h : FeAt p img a s) (i : FrontEndIn) : FeStep p img a s i := by
  cases h with
  | fresh hold h => exact step_fresh hold h
  | held hold hpc hup hin hword h =>
    cases hc : isRvc (halfAt img a) with
    | true => exact step_held_rvc hold hpc hup hin hword h hc
    | false => exact step_held_span hold hpc hup hin hword h hc
  | dropped hold hsf h =>
    have hst := step_fresh (i := i) hold h
    refine ⟨fun hd => ?_, fun hr hs => ?_, fun hr hs => ?_⟩
    · rw [hsf.item]
      exact hst.item hd
    · cases hv : s.fetch.feValid with
      | false =>
        have hdv : decodedValid s.decode (s.decodeIn i) = false := by
          obtain ⟨h1, h2, -, h4⟩ := no_hold_parts (i := i) hold
          simp [decodedValid, h1, h2, h4, hv]
        rw [hdv]
        exact .dropped (no_hold_empty hold hv hr) hsf (FrontEnd.stay h hr (.inl hv))
      | true =>
        have hdv : decodedValid s.decode (s.decodeIn i) = true := by
          obtain ⟨-, -, -, h4⟩ := no_hold_parts (i := i) hold
          simp [decodedValid, h4, hv, (slot_out (h.head hv) hsf.outside).1]
        have hn := hst.go hr hs
        rw [hdv, if_pos rfl, ← hsf.after] at hn
        rwa [hdv, if_pos rfl]
    · exact .dropped (no_hold_wait hold hs hr) hsf (FrontEnd.stay h hr (.inr (by rw [stallO_of_no_hold hold, hs])))

/-- Fetch stands somewhere, whatever decode has stashed. -/
theorem FeAt.fetchAt (h : FeAt p img a s) : ∃ b, FetchAt p img b s.fetch s.imem := by
  cases h with
  | fresh _ h => exact ⟨_, h⟩
  | held _ _ _ _ _ h => exact ⟨_, h⟩
  | dropped _ _ h => exact ⟨_, h⟩

/-- The position after a cycle. -/
def FrontEnd.posNext (p : Params) (img : Nat → BitVec 64) (a : Word) (s : FrontEnd) (i : FrontEndIn) : Word :=
  if FetchStage.redirect (s.fetchIn p i) then FetchStage.redirectAddr (s.fetchIn p i)
  else if !i.stall && decodedValid s.decode (s.decodeIn i) then afterItem p img a
  else a

/-- One cycle moves the front end to the next position. -/
theorem FeAt.next (h : FeAt p img a s) (i : FrontEndIn) : FeAt p img (s.posNext p img a i) (s.next p i) := by
  unfold FrontEnd.posNext
  cases hr : FetchStage.redirect (s.fetchIn p i) with
  | true =>
    obtain ⟨b, hb⟩ := h.fetchAt
    exact FrontEnd.FetchAt_redirect hb hr
  | false =>
    have hst := h.step i
    cases hs : i.stall with
    | true => exact hst.wait hr hs
    | false =>
      have hgo := hst.go hr hs
      cases hd : decodedValid s.decode (s.decodeIn i) with
      | true =>
        rw [hd] at hgo
        exact hgo
      | false =>
        rw [hd] at hgo
        exact hgo

/-- The D/E register after the clock edge. -/
theorem FrontEnd.deQ_next (p : Params) (s : FrontEnd) (i : FrontEndIn) :
    (s.next p i).decode.deQ =
      if i.branchValid then De.zero else if i.stall then s.decode.deQ else deD p s.decode (s.decodeIn i) := rfl

end Cycle

/-- A reset puts the front end at the boot address. -/
theorem FrontEnd.IsReset.feAt {boot : Word} {s : FrontEnd} (h : s.IsReset boot img) : FeAt p img boot s := by
  refine .fresh h.decode.hold ?_
  have hni : s.fetch.nextIssue = boot := by
    rw [nextIssue, h.fetch.redirLaunched, if_neg (by simp), h.fetch.pc]
  exact
    { mem := h.img, skid := h.imem.count, inflight := by rw [h.fetch.inflight, h.imem.rif]; rfl,
      stale := h.fetch.stale, room := by rw [h.fetch.count, h.imem.rif]; simp,
      tail := by rw [h.fetch.tail, h.fetch.head, h.fetch.count]; rfl,
      redir := fun hl => absurd hl (by simp [h.fetch.redirLaunched]),
      data := fun hr => absurd hr (by simp [h.imem.rif]),
      issue := fun hr => absurd hr (by simp [h.imem.rif]),
      pos := by rw [h.fetch.count, h.imem.rif, hni]; rfl,
      buf := ⟨[], Ring.holds_nil _ _, by rw [h.fetch.count]; rfl⟩ }

end Yarv
