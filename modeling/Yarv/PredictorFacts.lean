import Yarv.Hart
import Yarv.Lib.Ring

/-!
# The return-address stack

`ras_q`, `ras_ptr_q` and `ras_cnt_q` against a list of return addresses that keeps the newest `RAS_DEPTH` of them.
The pointer wraps and keeps moving; the count says how much of the circle below it is the stack.
-/

namespace Yarv

def RAS_DEPTH : Nat := 8

/-- What a resolved instruction does to a stack of return addresses. -/
inductive RasOp
  | call (pushPc : Word)
  | ret
  | other
  deriving DecidableEq, Repr

/-- The stack of the newest `RAS_DEPTH` unmatched calls, the newest first. -/
def RasOp.apply : RasOp → List Word → List Word
  | .call p, l => (p :: l).take RAS_DEPTH
  | .ret, l => l.tail
  | .other, l => l

namespace BpTrain

variable (t : BpTrain)

def rasOp : RasOp := if t.valid && t.ret then .ret else if t.valid && t.call then .call t.pushPc else .other

/-- No instruction is a call and a return at once. -/
def Exclusive : Prop := t.call = true → t.ret = false

end BpTrain

namespace BranchPredictor

variable {q : BranchPredictor} {l : List Word}

/-- The circle below the pointer holds the stack. -/
structure Ras (q : BranchPredictor) (l : List Word) : Prop where
  cnt : q.rasCntQ = l.length
  stack : Ring.Stacked q.rasQ q.rasPtrQ l

private theorem Ras.next (h : Ras q l) {t : BpTrain} (hx : t.Exclusive) : Ras (q.next t) (t.rasOp.apply l) := by
  have hle : l.length ≤ 8 := h.stack.length_le
  by_cases hr : (t.valid && t.ret) = true
  · have hcall : (t.valid && t.call) = false := by
      cases hc : t.call with
      | false => rw [Bool.and_false]
      | true =>
        rw [hx hc, Bool.and_false] at hr
        cases hr
    have hop : t.rasOp = .ret := by rw [BpTrain.rasOp, if_pos hr]
    rw [hop]
    refine ⟨?_, ?_⟩
    · simp only [BranchPredictor.next, hr, if_true, h.cnt, RasOp.apply, List.length_tail]
      split
      · omega
      · rfl
    · simp only [BranchPredictor.next, hr, hcall, if_true, Bool.false_eq_true, if_false]
      exact h.stack.pop
  · by_cases hc : (t.valid && t.call) = true
    · have hop : t.rasOp = .call t.pushPc := by rw [BpTrain.rasOp, if_neg hr, if_pos hc]
      rw [hop]
      refine ⟨?_, ?_⟩
      · simp only [BranchPredictor.next, hr, hc, if_true, if_false, h.cnt, RasOp.apply, List.length_take,
          List.length_cons, RAS_DEPTH, Bool.false_eq_true]
        split
        · omega
        · omega
      · simp only [BranchPredictor.next, hr, hc, if_true, if_false, Bool.false_eq_true]
        exact h.stack.push t.pushPc
    · have hop : t.rasOp = .other := by rw [BpTrain.rasOp, if_neg hr, if_neg hc]
      rw [hop]
      refine ⟨?_, ?_⟩
      · simp only [BranchPredictor.next, hr, hc, if_false, Bool.false_eq_true]
        exact h.cnt
      · simp only [BranchPredictor.next, hr, hc, if_false, Bool.false_eq_true]
        exact h.stack

/-- The stack a sequence of resolved instructions leaves. -/
def rasRun (inp : Nat → BpTrain) : Nat → List Word
  | 0 => []
  | t + 1 => (inp t).rasOp.apply (rasRun inp t)

private theorem IsReset.ras (h : q.IsReset) : Ras q [] := ⟨h.rasCnt, Ring.stacked_nil _ _⟩

private theorem Ras.run (h : q.IsReset) {inp : Nat → BpTrain} (hx : ∀ t, (inp t).Exclusive) (t : Nat) :
    Ras (Clocked.trace BranchPredictor.next q inp t) (rasRun inp t) := by
  induction t with
  | zero => exact h.ras
  | succ t ih => exact ih.next (hx t)

private theorem Ras.valid (h : Ras q l) (pc : Word) : (q.lookup pc).rasValid = !l.isEmpty := by
  change (q.rasCntQ != 0) = _
  rw [h.cnt]
  cases l with
  | nil => rfl
  | cons p l => rfl

private theorem Ras.top (h : Ras q l) (pc : Word) {p : Word} (hp : l.head? = some p) : (q.lookup pc).rasTop = p := by
  cases l with
  | nil => cases hp
  | cons a l =>
    cases hp
    exact h.stack.top (Nat.succ_pos _)

/-- A lookup sees whether the stack is empty, and its top. -/
def ShowsRas (q : BranchPredictor) (l : List Word) : Prop :=
  ∀ pc, (q.lookup pc).rasValid = !l.isEmpty ∧ ∀ p, l.head? = some p → (q.lookup pc).rasTop = p

private theorem Ras.shows (h : Ras q l) : ShowsRas q l := fun pc => ⟨h.valid pc, fun _ hp => h.top pc hp⟩

end BranchPredictor

/-- Execute never trains a call and a return at once. -/
private theorem ExecuteStage.bpTrain_exclusive (p : Params) (q : ExecuteStage) (i : ExecuteIn) :
    (q.bpTrain p i).Exclusive := by
  intro h
  simp only [bpTrain, exIsCall, Bool.and_eq_true, Bool.or_eq_true, beq_iff_eq] at h
  obtain ⟨-, -, hrd⟩ := h
  have h0 : (i.de.rd == 0) = false := by
    rcases hrd with hrd | hrd
    · rw [hrd]
      rfl
    · rw [hrd]
      rfl
  simp only [bpTrain, exIsReturn, h0, Bool.and_false]

/-! ### The predictor of a hart -/

namespace Hart

variable {p : Params} {s : Hart} {inp : Nat → HartIn}

/-- What a run of the hart trains. -/
def trains (p : Params) (s : Hart) (inp : Nat → HartIn) (t : Nat) : BpTrain :=
  (Clocked.trace (Hart.next p) s inp t).train p (inp t)

/-- The predictor of a hart runs like the predictor alone. -/
private theorem bp_trace (t : Nat) :
    (Clocked.trace (Hart.next p) s inp t).bp = Clocked.trace BranchPredictor.next s.bp (trains p s inp) t := by
  induction t with
  | zero => rfl
  | succ t ih => rw [Clocked.trace_succ, Clocked.trace_succ, ← ih, Hart.next, trains]

/-- In every run from reset the stack holds the newest calls the program has resolved and not returned from. -/
private theorem ras_run {boot : Word} {img : Nat → BitVec 64} {rf : RegFile} (h : s.IsReset boot img rf) (t : Nat) :
    BranchPredictor.Ras (Clocked.trace (Hart.next p) s inp t).bp (BranchPredictor.rasRun (trains p s inp) t) := by
  rw [bp_trace]
  exact BranchPredictor.Ras.run h.bp (fun u => ExecuteStage.bpTrain_exclusive p _ _) t

end Hart

/-! ### The return-address stack -/

namespace BranchPredictor

/-- The stack of the predictor is the bounded stack of the resolved calls and returns, whatever they are, and so it is
in every run of a hart. -/
theorem ras_refines :
    (∀ q : BranchPredictor, q.IsReset → ∀ inp : Nat → BpTrain, (∀ t, (inp t).Exclusive) →
      ∀ t, ShowsRas (Clocked.trace BranchPredictor.next q inp t) (rasRun inp t)) ∧
    ∀ (p : Params) (s : Hart) (boot : Word) (img : Nat → BitVec 64) (rf : RegFile), s.IsReset boot img rf →
      ∀ (inp : Nat → HartIn) (t : Nat),
        ShowsRas (Clocked.trace (Hart.next p) s inp t).bp (rasRun (Hart.trains p s inp) t) :=
  ⟨fun _ h _ hx t => (Ras.run h hx t).shows, fun _ _ _ _ _ h _ t => (Hart.ras_run h t).shows⟩

/-- Nine nested calls and their returns. -/
def nested (t : Nat) : BpTrain := ⟨true, false, decide (t < 9), decide (9 ≤ t), true, 0, BitVec.ofNat 32 t⟩

private theorem nested_exclusive (t : Nat) : (nested t).Exclusive := by
  intro h
  have hlt : t < 9 := of_decide_eq_true h
  exact decide_eq_false (by omega)

/-- The ninth call drops the first, whose return finds the stack empty. -/
theorem ras_refines_nested :
    ((Clocked.trace BranchPredictor.next ⟨fun _ => 1, 0, fun _ => 0, 0, 0⟩ nested 9).lookup 0).rasTop = 8 ∧
      ((Clocked.trace BranchPredictor.next ⟨fun _ => 1, 0, fun _ => 0, 0, 0⟩ nested 17).lookup 0).rasValid = false :=
  ⟨(ras_refines.1 ⟨fun _ => 1, 0, fun _ => 0, 0, 0⟩ ⟨rfl, rfl, rfl⟩ nested nested_exclusive 9 0).2 8 (by decide),
    (ras_refines.1 ⟨fun _ => 1, 0, fun _ => 0, 0, 0⟩ ⟨rfl, rfl, rfl⟩ nested nested_exclusive 17 0).1⟩

end BranchPredictor

end Yarv
