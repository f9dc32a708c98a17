import Yarv.Lib.Clocked
import Yarv.FrontStream

/-!
# The front end delivers the program

The words decode latches between two redirects are the sequential halfword parse of the image from the target of the
first one, for every stall pattern and every history of redirects before it.  The parse is stated on the bytes of the
image alone.

Two facts carry the induction over the cycles of the window: the position of the front end after `n` latched words is
the `n`-th address of the parse, and at an address whose instruction lies inside the I-mem the item there is the
parsed instruction.
-/

namespace Yarv

open FetchStage DecodeStage

/-! ### The parse of the image -/

/-- An instruction as the image holds it: its address, its size and its bits. -/
structure Parsed where
  pc : Word
  isCompressed : Bool
  bits : Word
  deriving DecidableEq, Repr

/-- The instruction at an address: 16 bits when the low bits of the halfword there differ from `11`, else 32. -/
def parsedAt (img : Nat → BitVec 64) (pc : Word) : Parsed :=
  if (imgHalf img pc.toNat).extractLsb' 0 2 ≠ 0b11#2 then ⟨pc, true, (imgHalf img pc.toNat).setWidth 32⟩
  else ⟨pc, false, imgWord img pc.toNat⟩

/-- The address behind an instruction. -/
def Parsed.next (x : Parsed) : Word := x.pc + (if x.isCompressed then 2 else 4)

/-- All bytes of the instruction lie inside the implemented I-mem. -/
def Parsed.Inside (p : Params) (x : Parsed) : Prop :=
  x.pc.toNat + (if x.isCompressed then 2 else 4) ≤ 2 ^ p.imemAddrW

instance (p : Params) (x : Parsed) : Decidable (x.Inside p) := inferInstanceAs (Decidable (_ ≤ _))

/-- The address of the `n`-th instruction of the parse from `a`. -/
def parsePc (img : Nat → BitVec 64) (a : Word) (n : Nat) : Word := (fun pc => (parsedAt img pc).next)^[n] a

/-- The first `n` instructions of the parse from `a`. -/
def parse (img : Nat → BitVec 64) (a : Word) (n : Nat) : List Parsed :=
  (List.iterate (fun pc => (parsedAt img pc).next) a n).map (parsedAt img)

/-- The instruction a source selects, in the words of the parse. -/
def DecodeStage.Src.parsed (x : Src) : Parsed :=
  ⟨x.pc, x.isCompressed, if x.isCompressed then x.half16.setWidth 32 else x.word32⟩

variable {p : Params} {img : Nat → BitVec 64}

private theorem parsePc_succ (a : Word) (n : Nat) : parsePc img a (n + 1) = (parsedAt img (parsePc img a n)).next :=
  Function.iterate_succ_apply' _ n a

private theorem parse_succ (a : Word) (n : Nat) :
    parse img a (n + 1) = parse img a n ++ [parsedAt img (parsePc img a n)] := by
  rw [parse, List.iterate_add, List.map_append]
  rfl

@[simp] theorem parsedAt_pc (a : Word) : (parsedAt img a).pc = a := by
  unfold parsedAt
  split <;> rfl

/-! ### Items inside the I-mem -/

private theorem isRvc_eq (h : BitVec 16) : isRvc h = decide (h.extractLsb' 0 2 ≠ 0b11#2) := by
  simp [isRvc, bne, beq_eq_decide]

private theorem next_even {a : Word} (h : a.getLsbD 0 = false) : (parsedAt img a).next.getLsbD 0 = false := by
  rw [even_iff] at h ⊢
  rw [Parsed.next, parsedAt_pc, BitVec.toNat_add]
  have h2 : (2 : Word).toNat = 2 := rfl
  have h4 : (4 : Word).toNat = 4 := rfl
  split <;> omega

/-- An instruction inside the I-mem is emitted as it stands in the image, and the position behind it is the next
address of the parse. -/
private theorem itemAt_inside {a : Word} (he : a.getLsbD 0 = false) (hin : (parsedAt img a).Inside p) :
    (itemAt p img a).fault = false ∧ (itemAt p img a).src.parsed = parsedAt img a ∧
      afterItem p img a = (parsedAt img a).next := by
  rw [even_iff] at he
  have hhalf : halfAt img a = imgHalf img a.toNat := by
    rw [halfAt]
    congr 1
    omega
  have hle := p.imemAddrW_lt
  have hpow : 2 ^ p.imemAddrW < 2 ^ 32 := Nat.pow_lt_pow_right (by decide) hle
  have h2 : (2 : Word).toNat = 2 := rfl
  have h4 : (4 : Word).toNat = 4 := rfl
  rw [Parsed.Inside, parsedAt_pc] at hin
  have hout : outOfImem p a = false := by
    rw [outOfImem_eq_false_iff]
    split at hin <;> omega
  have hspan : ∀ d : Word, d.toNat = (a.toNat / 4 * 4 + 4) % 2 ^ 32 → spanPc a = d := fun d hd =>
    BitVec.eq_of_toNat_eq (by rw [toNat_spanPc, hd])
  by_cases hc : (imgHalf img a.toNat).extractLsb' 0 2 = 0b11#2
  · have hr : isRvc (halfAt img a) = false := by rw [hhalf, isRvc_eq]; simp [hc]
    have hp : parsedAt img a = ⟨a, false, imgWord img a.toNat⟩ := by simp [parsedAt, hc]
    rw [hp] at hin ⊢
    simp only [Bool.false_eq_true, if_false] at hin
    cases hb : a.getLsbD 1 with
    | false =>
      have hb' := hb
      rw [getLsbD_one_eq, decide_eq_false_iff_not] at hb
      have hw : a.toNat / 4 * 4 = a.toNat := by omega
      have hi : itemAt p img a = ⟨false, ⟨imgWord img a.toNat, 0, a, false⟩⟩ := by
        rw [itemAt, hout, hr, hb', hw]
        rfl
      have ha : afterItem p img a = spanPc a := by
        rw [afterItem, hout, hr, hb']
        rfl
      rw [hi, ha]
      refine ⟨rfl, rfl, hspan _ ?_⟩
      change (a + 4).toNat = _
      rw [BitVec.toNat_add, h4]
      omega
    | true =>
      have hb' := hb
      rw [getLsbD_one_eq, decide_eq_true_iff] at hb
      have hs : (spanPc a).toNat = a.toNat + 2 := by
        rw [toNat_spanPc]
        omega
      have hso : outOfImem p (spanPc a) = false := by
        rw [outOfImem_eq_false_iff, hs]
        omega
      have hsh : halfAt img (spanPc a) = imgHalf img (a.toNat + 2) := by
        rw [halfAt, hs]
        congr 1
        omega
      have hi : itemAt p img a = ⟨false, ⟨imgWord img a.toNat, 0, a, false⟩⟩ := by
        rw [itemAt, hout, hr, hb', hso, hsh, hhalf]
        rfl
      have ha : afterItem p img a = spanPc a + 2 := by
        rw [afterItem, hout, hr, hb', hso]
        rfl
      rw [hi, ha]
      refine ⟨rfl, rfl, BitVec.eq_of_toNat_eq ?_⟩
      change (spanPc a + 2).toNat = (a + 4).toNat
      rw [BitVec.toNat_add, BitVec.toNat_add, hs, h2, h4]
  · have hr : isRvc (halfAt img a) = true := by rw [hhalf, isRvc_eq]; simp [hc]
    have hp : parsedAt img a = ⟨a, true, (imgHalf img a.toNat).setWidth 32⟩ := by simp [parsedAt, hc]
    have hi : itemAt p img a = ⟨false, ⟨0, imgHalf img a.toNat, a, true⟩⟩ := by
      rw [itemAt, hout, hr, hhalf]
      rfl
    rw [hp, hi]
    refine ⟨rfl, rfl, ?_⟩
    rw [afterItem, hout, hr]
    change (if a.getLsbD 1 then spanPc a else a + 2) = a + 2
    cases hb : a.getLsbD 1 with
    | false => rfl
    | true =>
      rw [getLsbD_one_eq, decide_eq_true_iff] at hb
      refine hspan _ ?_
      rw [BitVec.toNat_add, h2]
      omega

/-! ### Runs of the front end -/

namespace FrontEnd

/-- The run of the front end. -/
abbrev run (p : Params) (s : FrontEnd) (inp : Nat → FrontEndIn) : Nat → FrontEnd := Clocked.trace (next p) s inp

/-- The redirect of this cycle: execute's, or the prediction decode fires. -/
def redirectTo (p : Params) (s : FrontEnd) (i : FrontEndIn) : Option Word :=
  if FetchStage.redirect (s.fetchIn p i) then some (FetchStage.redirectAddr (s.fetchIn p i)) else none

/-- The valid word the D/E register latches at this clock edge, with the source decode selected for it. -/
def latched (p : Params) (s : FrontEnd) (i : FrontEndIn) : Option (Src × De) :=
  if !i.branchValid && !i.stall && decodedValid s.decode (s.decodeIn i) then
    some (src s.decode (s.decodeIn i), (s.next p i).decode.deQ)
  else none

/-- The words latched in the `n` cycles from cycle `t` on. -/
abbrev latchedFrom (p : Params) (s : FrontEnd) (inp : Nat → FrontEndIn) (t n : Nat) : List (Src × De) :=
  Clocked.logFrom (latched p) (next p) s inp t n

variable {s : FrontEnd} {inp : Nat → FrontEndIn} {boot : Word}

/-- Every state of a run stands somewhere in the image. -/
private theorem run_feAt (hs : s.IsReset boot img) (inp : Nat → FrontEndIn) (t : Nat) :
    ∃ a, FeAt p img a (run p s inp t) := by
  refine Clocked.trace_invariant (P := fun s => ∃ a, FeAt p img a s) ⟨boot, hs.feAt⟩ ?_ t
  rintro s i ⟨a, ha⟩
  exact ⟨_, ha.next i⟩

/-- What a latched word carries: the D/E register holds the selected instruction. -/
theorem latched_eq {i : FrontEndIn} {x : Src × De} (h : latched p s i = some x) :
    x.1 = src s.decode (s.decodeIn i) ∧ x.2.valid = true ∧ x.2.pc = x.1.pc ∧ x.2.isCompressed = x.1.isCompressed ∧
      x.2.instr = x.1.instr32 := by
  unfold latched at h
  split at h
  · rename_i hc
    simp only [Bool.and_eq_true, Bool.not_eq_true'] at hc
    cases h
    rw [deQ_next, hc.1.1, hc.1.2]
    exact ⟨rfl, hc.2, rfl, rfl, rfl⟩
  · cases h

/-- A latched word is the item at the position. -/
private theorem latched_item {i : FrontEndIn} {a : Word} {x : Src × De} (ha : FeAt p img a s)
    (h : latched p s i = some x) : x.1 = (itemAt p img a).src := by
  have hx := (latched_eq h).1
  unfold latched at h
  split at h
  · rename_i hc
    simp only [Bool.and_eq_true] at hc
    rw [hx, ← (ha.step i).item hc.2]
    rfl
  · cases h

theorem redirectTo_eq_none {i : FrontEndIn} :
    redirectTo p s i = none ↔ FetchStage.redirect (s.fetchIn p i) = false := by
  unfold redirectTo
  cases FetchStage.redirect (s.fetchIn p i) <;> simp

/-- The position after a cycle without a redirect. -/
private theorem posNext_eq {i : FrontEndIn} {a : Word} (h : redirectTo p s i = none) :
    s.posNext p img a i = if (latched p s i).isSome then afterItem p img a else a := by
  rw [redirectTo_eq_none] at h
  have hb : i.branchValid = false := (redirect_parts h).1
  rw [posNext, latched, h, hb]
  cases i.stall <;> cases decodedValid s.decode (s.decodeIn i) <;> rfl

/-- A redirect puts the front end at its target. -/
private theorem feAt_of_redirectTo {i : FrontEndIn} {a T : Word} (ha : FeAt p img a s)
    (h : redirectTo p s i = some T) :
    FeAt p img T (s.next p i) := by
  have hn := ha.next i
  unfold redirectTo at h
  split at h
  · rename_i hr
    cases h
    rwa [posNext, if_pos hr] at hn
  · cases h

end FrontEnd

private theorem parsePc_even {a : Word} (h : a.getLsbD 0 = false) (n : Nat) :
    (parsePc img a n).getLsbD 0 = false := by
  induction n with
  | zero => exact h
  | succ n ih =>
    rw [parsePc_succ]
    exact next_even ih

namespace FrontEnd

variable {T : Word} {t : Nat}

private theorem latchedFrom_succ (p : Params) (s : FrontEnd) (inp : Nat → FrontEndIn) (t n : Nat) :
    latchedFrom p s inp t (n + 1) =
      latchedFrom p s inp t n ++ (latched p (run p s inp (t + n)) (inp (t + n))).toList := rfl

/-- One more cycle latches at most the next instruction of the parse. -/
private theorem window_extend {i : FrontEndIn} {l : List (Src × De)} (he : T.getLsbD 0 = false)
    (hl : l.map (fun x => x.1.parsed) = parse img T l.length) (ha : FeAt p img (parsePc img T l.length) s)
    (hin : ∀ x ∈ parse img T (l ++ (latched p s i).toList).length, x.Inside p) :
    (l ++ (latched p s i).toList).map (fun x => x.1.parsed) =
        parse img T (l ++ (latched p s i).toList).length ∧
      (redirectTo p s i = none → FeAt p img (parsePc img T (l ++ (latched p s i).toList).length) (s.next p i)) := by
  cases hx : latched p s i with
  | none =>
    simp only [Option.toList_none, List.append_nil]
    refine ⟨hl, fun hr => ?_⟩
    have hn := ha.next i
    rwa [posNext_eq hr, hx] at hn
  | some x =>
    rw [hx] at hin
    simp only [Option.toList_some, List.length_append, List.length_singleton, List.map_append, List.map_singleton]
      at hin ⊢
    have hmem : parsedAt img (parsePc img T l.length) ∈ parse img T (l.length + 1) := by
      rw [parse_succ]
      simp
    obtain ⟨-, hsrc, hafter⟩ := itemAt_inside (parsePc_even he l.length) (hin _ hmem)
    refine ⟨by rw [hl, parse_succ, latched_item ha hx, hsrc], fun hr => ?_⟩
    have hn := ha.next i
    rw [posNext_eq hr, hx] at hn
    rwa [parsePc_succ, ← hafter]

/-- In a window without a redirect the latched words are a parse, and the front end stands behind it. -/
private theorem window (ha : FeAt p img T (run p s inp t)) (he : T.getLsbD 0 = false) (n : Nat)
    (hn : ∀ k < n, redirectTo p (run p s inp (t + k)) (inp (t + k)) = none)
    (hin : ∀ x ∈ parse img T (latchedFrom p s inp t n).length, x.Inside p) :
    (latchedFrom p s inp t n).map (fun x => x.1.parsed) = parse img T (latchedFrom p s inp t n).length ∧
      FeAt p img (parsePc img T (latchedFrom p s inp t n).length) (run p s inp (t + n)) := by
  induction n with
  | zero => exact ⟨rfl, ha⟩
  | succ n ih =>
    obtain ⟨hl, hpos⟩ := ih (fun k hk => hn k (by omega)) fun x hx => hin x <| by
      rw [latchedFrom_succ, List.length_append, parse, List.iterate_add, List.map_append]
      exact List.mem_append_left _ hx
    rw [latchedFrom_succ] at hin ⊢
    obtain ⟨h1, h2⟩ := window_extend he hl hpos hin
    exact ⟨h1, h2 (hn n (by omega))⟩

/-! ### Progress -/

/-- How far the front end is from emitting: the low half of a spanning instruction still to be stashed, and the read
still to be launched and to land. -/
def rank (s : FrontEnd) : Nat :=
  (if s.decode.holdQ then 0 else 3) + (if s.fetch.feValid then 0 else if s.imem.rifQ then 1 else 2)

theorem rank_le (s : FrontEnd) : s.rank ≤ 5 := by
  unfold rank
  split <;> split <;> (try split) <;> omega

end FrontEnd

/-- A landing response fills the buffer; with nothing in flight and nothing buffered fetch launches a read or pushes a
fault. -/
private theorem FetchAt.fills {a : Word} {q : FetchStage} {r : NativeRam 64} {i : FetchIn} (h : FetchAt p img a q r)
    (hw : FetchWired p q r i) (hr : FetchStage.redirect i = false) (hv : q.feValid = false) :
    (r.rifQ = true → (q.next p i).feValid = true) ∧
      (r.rifQ = false → (q.next p i).feValid = true ∨
        (NativeRam.next (imemParams p) r (fetchMemIn p q i)).rifQ = true) := by
  have hc : q.countQ = 0 := by simpa [feValid] using hv
  have hcount : (q.next p i).countQ = (pushCnt p q i + 16) % 16 := by
    change (if FetchStage.redirect i then 0 else (q.countQ + pushCnt p q i + 16 - bufPopCnt q i) % 16) = _
    simp [hr, hc, bufPopCnt]
  have hin : incycleLaunch p i = false ∧ i.branchValid = false := by
    simp only [FetchStage.redirect, Bool.or_eq_false_iff] at hr
    simp [incycleLaunch, FetchStage.redirect, hr.1, hr.2]
  constructor
  · intro hrif
    rcases h.push_of_rif hw hrif with ⟨hp, -⟩ | ⟨hp, -⟩ <;> simp [feValid, hcount, hp]
  · intro hrif
    have hfl : q.inflightQ = 0 := by rw [h.inflight, hrif]; rfl
    have hav : q.available = 8 := by simp [available, reserved, twiceInflight, hc, hfl]
    cases hf : pcFault p q with
    | true =>
      left
      have hp : faultPush p q i = true := by simp [faultPush, hf, hav, h.rspCap hw, hrif, hfl]
      have hdo : FetchStage.doRsp q i = false := by rw [h.doRsp hw, hrif]
      simp [feValid, hcount, pushCnt, doRspData, hdo, hp]
    | false =>
      right
      rw [(h.ram_next hw).2.2.1, h.launch hw]
      simp [busIssue, hfl, availableIssue, hr, hav, hf, execRedirHold, hin.2]

namespace FrontEnd

/-- Without a stall and a redirect a cycle that latches nothing brings the front end closer to emitting. -/
theorem rank_lt {i : FrontEndIn} {a : Word} (ha : FeAt p img a s) (hr : redirectTo p s i = none)
    (hs : i.stall = false) (hl : latched p s i = none) : (s.next p i).rank < s.rank := by
  rw [redirectTo_eq_none] at hr
  obtain ⟨hb, hf⟩ := redirect_parts hr
  have hdv : decodedValid s.decode (s.decodeIn i) = false := by
    cases hd : decodedValid s.decode (s.decodeIn i) with
    | false => rfl
    | true => simp [latched, hb, hs, hd] at hl
  obtain ⟨b, hfa⟩ := ha.fetchAt
  have htf : takeFault s.decode (s.decodeIn i) = false := by simp_all [decodedValid]
  have hsc : spanComplete s.decode (s.decodeIn i) = false := by simp_all [decodedValid]
  have hhp : s.decode.isHoldPlain = false := by simp_all [decodedValid]
  cases hv : s.fetch.feValid with
  | false =>
    have hhold : (s.next p i).decode.holdQ = s.decode.holdQ := by
      cases hh : s.decode.holdQ with
      | false => exact no_hold_empty hh hv hr
      | true =>
        have hsw : spanWait s.decode (s.decodeIn i) = true := by
          have : s.decode.holdIsSpan = true := by simpa [isHoldPlain, holdPlainPending, hh] using hhp
          simp [spanWait, htf, spanPending, hh, this, hv]
        rw [next_holdQ, holdD]
        simp [hb, hf, htf, hsw, hh]
    obtain ⟨h1, h2⟩ := hfa.fills (wired p s i) (by rw [hr]) hv
    rw [rank, rank, hhold, hv]
    cases hrif : s.imem.rifQ with
    | true =>
      rw [show (s.next p i).fetch.feValid = true from h1 hrif]
      simp
    | false =>
      rcases h2 hrif with h | h
      · rw [show (s.next p i).fetch.feValid = true from h]
        simp
      · rw [show (s.next p i).imem.rifQ = true from h]
        cases (s.next p i).fetch.feValid <;> simp
  | true =>
    -- Only the low half of a spanning target can hold back a valid head; it is stashed now.
    have hh : s.decode.holdQ = false := by
      cases hh : s.decode.holdQ with
      | false => rfl
      | true =>
        have : s.decode.holdIsSpan = true := by simpa [isHoldPlain, holdPlainPending, hh] using hhp
        simp [spanComplete, htf, spanPending, hh, this, hv] at hsc
    have hsw : targetSpanWait s.decode (s.decodeIn i) = true := by
      simpa [decodedValid, htf, hsc, hhp, hv, hh] using hdv
    have hts : targetSpanComplete s.decode (s.decodeIn i) = false := by
      simp only [targetSpanWait, Bool.and_eq_true, Bool.not_eq_true'] at hsw
      exact hsw.2
    have hnext : (s.next p i).decode.holdQ = true := by
      rw [next_holdQ, holdD]
      simp [hb, hf, htf, hs, hsc, hhp, hts, hsw, spanWait, hv, stashUpper]
    rw [rank, rank, hnext, hh, hv]
    simp only [Bool.false_eq_true, if_true, if_false]
    split <;> (try split) <;> omega

/-- **Front-end stream correctness.**  After a redirect to an even target `T` and up to the next redirect, that cycle
included, the latched words are the halfword parse of the image from `T`, each D/E word carries the address, the size
and the expansion of the parsed bits, and in every six cycles without a stall and a redirect a word is latched. -/
theorem stream_correct (hs : s.IsReset boot img) (inp : Nat → FrontEndIn) (t n : Nat) (T : Word)
    (hT : redirectTo p (run p s inp t) (inp t) = some T) (he : T.getLsbD 0 = false)
    (hn : ∀ k < n, redirectTo p (run p s inp (t + 1 + k)) (inp (t + 1 + k)) = none)
    (hin : ∀ x ∈ parse img T (latchedFrom p s inp (t + 1) (n + 1)).length, x.Inside p) :
    (latchedFrom p s inp (t + 1) (n + 1)).map (fun x => x.1.parsed) =
        parse img T (latchedFrom p s inp (t + 1) (n + 1)).length ∧
      (∀ x ∈ latchedFrom p s inp (t + 1) (n + 1), x.2.valid = true ∧ x.2.pc = x.1.pc ∧
        x.2.isCompressed = x.1.isCompressed ∧ x.2.instr = x.1.instr32) ∧
      (∀ k, k + 6 ≤ n → (∀ j < 6, (inp (t + 1 + k + j)).stall = false) →
        latchedFrom p s inp (t + 1 + k) 6 ≠ []) := by
  obtain ⟨b, hb⟩ := run_feAt (p := p) hs inp t
  have ha : FeAt p img T (run p s inp (t + 1)) := feAt_of_redirectTo hb hT
  refine ⟨?_, ?_, ?_⟩
  · obtain ⟨hl, hpos⟩ := window ha he n hn fun x hx => hin x <| by
      rw [latchedFrom_succ, List.length_append, parse, List.iterate_add, List.map_append]
      exact List.mem_append_left _ hx
    rw [latchedFrom_succ] at hin ⊢
    exact (window_extend he hl hpos hin).1
  · intro x hx
    obtain ⟨k, -, hk⟩ := Clocked.mem_logFrom hx
    exact (latched_eq hk).2
  · intro k hk hstall
    refine Clocked.logFrom_ne_nil rank (lt_of_le_of_lt (rank_le _) (by omega)) fun j hj hl => ?_
    obtain ⟨c, hc⟩ := run_feAt (p := p) hs inp (t + 1 + k + j)
    have hr := hn (k + j) (by omega)
    rw [← Nat.add_assoc] at hr
    exact rank_lt hc hr (hstall j hj) hl

/-- A redirect to address 2 in the first cycle and nothing else. -/
def redirectIn (t : Nat) : FrontEndIn where
  stall := false
  branchValid := decide (t = 0)
  branchAddr := 2
  rfRead := fun _ => 0
  exWbEn := false
  exWbAddr := 0
  exWbData := 0
  bpLookup := ⟨false, false, 0, 0⟩
  bpPush := ⟨0, false, false, false, false⟩

/-- The theorem at a spanning instruction behind a compressed one: it is stitched and followed by the next word. -/
theorem stream_correct_span :
    (latchedFrom .pkg (reset 0 (imgOf [0x0001000000130001#64])) redirectIn 1 7).map (fun x => x.1.parsed) =
      parse (imgOf [0x0001000000130001#64]) 2 6 :=
  (stream_correct (p := .pkg) (reset_isReset 0 (imgOf [0x0001000000130001#64])) redirectIn 0 6 2
    (by decide +kernel) (by decide) (by decide +kernel) (by decide +kernel)).1.trans (by decide +kernel)

end FrontEnd

end Yarv
