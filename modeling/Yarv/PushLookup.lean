import Yarv.FastPath
import Yarv.FrontStream
import Yarv.PredictorFacts

/-!
# The push-time lookup

A word is looked up in the cycle fetch pushes it, for both of its halves; the two bits and the history they were read
with wait in the buffer entry, then perhaps in the hold stash, until decode takes the branch, and the index is made
again from the PC.  `Stamps` lets every word carry the cycle it was pushed in, and `Stamped` says of the buffer, the
stash and the D/E register that their bits are those of that cycle.
-/

namespace Yarv

open Clocked FetchStage DecodeStage

/-! ### The predictor -/

namespace BranchPredictor

variable (q : BranchPredictor)

/-- The direction bit of a PC, as the predictor stands. -/
def direction (pc : Word) : Bool := (q.phtQ (q.lookupIndex pc)).getLsbD 1

variable {q} {pc a : Word}

/-- The index of a half is the index of its word and one bit. -/
private theorem lookupIndex_eq (h : a.extractLsb' 2 30 = pc.extractLsb' 2 30) :
    q.lookupIndex a = q.pushU pc ++ BitVec.ofBool (a.getLsbD 1 ^^ q.ghrQ.getLsbD 0) := by
  have hword : ∀ k < 30, a.getLsbD (2 + k) = pc.getLsbD (2 + k) := by
    intro k hk
    have hbit := congrArg (fun x => BitVec.getLsbD x k) h
    simpa only [BitVec.getLsbD_extractLsb', hk, decide_true, Bool.true_and] using hbit
  unfold lookupIndex pushU
  apply BitVec.eq_of_getLsbD_eq
  intro k hk
  rw [BitVec.getLsbD_append, BitVec.getLsbD_xor, BitVec.getLsbD_extractLsb', decide_eq_true hk, Bool.true_and]
  by_cases h0 : k < 1
  · have hk0 : k = 0 := by omega
    subst hk0
    rw [if_pos h0, BitVec.getLsbD_ofBool]
    rfl
  · have hk1 : 1 + k = 2 + (k - 1) := by omega
    have hk2 : k = 1 + (k - 1) := by omega
    rw [if_neg h0, BitVec.getLsbD_xor, BitVec.getLsbD_extractLsb', BitVec.getLsbD_extractLsb', hk1,
      hword _ (by omega), decide_eq_true (by omega), Bool.true_and, Bool.true_and, ← hk2]

/-- The pair of bits of a pushed word holds the direction of each of its halves. -/
private theorem direction_eq (h : a.extractLsb' 2 30 = pc.extractLsb' 2 30) :
    q.direction a =
      if a.getLsbD 1 then (if q.ghrQ.getLsbD 0 then q.pushCtr pc 0 else q.pushCtr pc 1)
      else (if q.ghrQ.getLsbD 0 then q.pushCtr pc 1 else q.pushCtr pc 0) := by
  unfold direction pushCtr
  rw [lookupIndex_eq h]
  cases a.getLsbD 1 with
  | true =>
    cases q.ghrQ.getLsbD 0 with
    | true => rfl
    | false => rfl
  | false =>
    cases q.ghrQ.getLsbD 0 with
    | true => rfl
    | false => rfl

end BranchPredictor

/-! ### Decode -/

namespace DecodeStage

variable {p : Params} {q : DecodeStage} {i : DecodeIn}

/-- Decode takes its instruction from the stash. -/
def fromHold (q : DecodeStage) (i : DecodeIn) : Bool := spanComplete q i || q.isHoldPlain

/-- Where the PC of a source comes from. -/
private theorem src_pc (hv : decodedValid q i = true) (hf : takeFault q i = false) :
    (fromHold q i = true ∧ q.holdQ = true ∧ (src q i).pc = q.holdPcQ) ∨
      (fromHold q i = false ∧ i.feValid = true ∧ (src q i).pc = i.fe.pc) := by
  unfold decodedValid at hv
  unfold fromHold src
  rw [hf, if_neg Bool.false_ne_true]
  cases hs : spanComplete q i with
  | true =>
    left
    have hh : q.holdQ = true := by
      unfold spanComplete spanPending at hs
      simp only [Bool.and_eq_true] at hs
      exact hs.1.2.1
    exact ⟨rfl, hh, rfl⟩
  | false =>
    cases hp : q.isHoldPlain with
    | true =>
      left
      have hh : q.holdQ = true := by
        unfold isHoldPlain holdPlainPending at hp
        rw [Bool.and_eq_true] at hp
        exact hp.1
      have hw : spanWait q i = false := by
        unfold isHoldPlain holdPlainPending at hp
        rw [Bool.and_eq_true] at hp
        unfold spanWait spanPending
        rw [Bool.not_eq_true'] at hp
        rw [hp.2, Bool.and_false, Bool.and_false, Bool.false_and]
      refine ⟨rfl, hh, ?_⟩
      rw [hw]
      rfl
    | false =>
      right
      rw [hf, hs, hp] at hv
      simp only [Bool.false_or, Bool.and_eq_true, Bool.not_eq_true', Bool.not_false, and_true] at hv
      obtain ⟨⟨hfe, hh⟩, htw⟩ := hv
      have hw : spanWait q i = false := by
        unfold spanWait
        rw [hfe, Bool.not_true, Bool.and_false]
      refine ⟨rfl, hfe, ?_⟩
      rw [hw, htw]
      by_cases h1 : targetSpanComplete q i = true
      · rw [h1]
        rfl
      · by_cases h2 : targetUpper q i = true
        · rw [Bool.not_eq_true] at h1
          rw [h1, h2]
          rfl
        · by_cases h3 : feIsCompressed i = true
          · rw [Bool.not_eq_true] at h1 h2
            rw [h1, h2, h3]
            rfl
          · rw [Bool.not_eq_true] at h1 h2 h3
            rw [h1, h2, h3]
            rfl

/-- A conditional branch in the D/E word is one on the fast path. -/
private theorem cond_deD (h : (deD p q i).branchType.isCond = true) :
    (src q i).cfCond = true ∧ (src q i).cfJal = false ∧ (src q i).cfRet = false ∧ takeFault q i = false := by
  have hbt : (opcodeTree (srcInstr32 q i)).branchType.isCond = true := by
    change (if (opcodeTree (srcInstr32 q i)).illegal then BranchT.none
      else (opcodeTree (srcInstr32 q i)).branchType).isCond
      = true at h
    by_cases hi : (opcodeTree (srcInstr32 q i)).illegal = true
    · rw [if_pos hi] at h
      cases h
    · rw [if_neg hi] at h
      exact h
  rw [branchType_eq] at hbt
  have hop : opcode (srcInstr32 q i) = opcBranch ∧ condLegal (funct3 (srcInstr32 q i)) = true := by
    unfold cfType at hbt
    by_cases hj : opcode (srcInstr32 q i) = opcJal
    · rw [if_pos hj] at hbt
      cases hbt
    rw [if_neg hj] at hbt
    by_cases hr : opcode (srcInstr32 q i) = opcJalr
    · rw [if_pos hr] at hbt
      by_cases h3 : funct3 (srcInstr32 q i) = 0b000#3
      · rw [if_pos h3] at hbt
        cases hbt
      · rw [if_neg h3] at hbt
        cases hbt
    rw [if_neg hr] at hbt
    by_cases hb : opcode (srcInstr32 q i) = opcBranch
    · rw [if_pos hb] at hbt
      have htable : ∀ f3 : BitVec 3, (condType f3).isCond = true → condLegal f3 = true := by decide
      exact ⟨hb, htable _ hbt⟩
    · rw [if_neg hb] at hbt
      cases hbt
  have hsrc : srcInstr32 q i = (src q i).instr32 := rfl
  rw [hsrc] at hop
  refine ⟨?_, ?_, ?_, ?_⟩
  · rw [cfCond_eq, hop.1, hop.2]
    rfl
  · rw [cfJal_eq, hop.1]
    rfl
  · rw [cfRet_eq, hop.1]
    rfl
  · rw [Bool.eq_false_iff]
    intro hf
    have hz : (src q i).instr32 = 0 := by
      unfold src
      rw [if_pos hf]
      rfl
    rw [hz] at hop
    exact absurd hop.1 (by decide)

/-- What a conditional branch takes into the D/E register. -/
private theorem pred_deD (hlook : p.bpPushLookup = true) (hv : (deD p q i).valid = true)
    (h : (deD p q i).branchType.isCond = true) :
    (deD p q i).predValid = p.bpEn ∧ (p.bpEn = true → (deD p q i).predTaken = phtTakenSrc p q i ∧
      (deD p q i).predPhtIndex =
        (src q i).pc.extractLsb' 1 9 ^^^ (if fromHold q i then q.holdGhrQ else i.fe.ghr)) := by
  obtain ⟨hc, hj, hr, _⟩ := cond_deD h
  have hcf : isCf q i = true := by
    unfold isCf
    rw [hc, Bool.or_true, Bool.and_true]
    exact hv
  refine ⟨?_, fun hen => ⟨?_, ?_⟩⟩
  · change (p.bpEn && isCf q i) = p.bpEn
    rw [hcf, Bool.and_true]
  · change (p.bpEn && predTaken p q i) = _
    unfold predTaken cfTaken
    rw [hen, hcf, hc, hj, hr, Bool.true_and, Bool.true_and, Bool.true_and, Bool.false_or, Bool.false_and,
      Bool.or_false]
  · change (if p.bpEn then predPhtIndex p q i else 0) = _
    unfold predPhtIndex phtIndexSrc
    rw [hen, hcf, hc, hr, hlook]
    rfl

end DecodeStage

/-! ### Stamps -/

namespace Hart

variable (p : Params) (s : Hart) (i : HartIn)

/-- What the rest of the hart drives into the front end. -/
def frontIn : FrontEndIn := s.core.feIn p (s.coreIn p i)

/-- The inputs of fetch. -/
def fetchIn : FetchIn := s.core.fe.fetchIn p (s.frontIn p i)

/-- The inputs of decode. -/
def decodeIn : DecodeIn := s.core.fe.decodeIn (s.frontIn p i)

/-- Fetch pushes the entry `e` in this cycle. -/
def Pushes (e : BufEntry) : Prop :=
  (1 ≤ pushCnt p s.core.fe.fetch (s.fetchIn p i) ∧ e = push0 p s.core.fe.fetch (s.fetchIn p i)) ∨
    (2 ≤ pushCnt p s.core.fe.fetch (s.fetchIn p i) ∧ e = push1 s.core.fe.fetch (s.fetchIn p i))

variable {p s i} {e : BufEntry}

private theorem Pushes.ghr (h : Pushes p s i e) : e.ghr = s.bp.ghrQ := by
  rcases h with ⟨_, rfl⟩ | ⟨_, rfl⟩
  · rfl
  · rfl

/-- The bits of a pushed entry are the directions of its halves. -/
private theorem Pushes.direction (h : Pushes p s i e) {a : Word} (ha : a.extractLsb' 2 30 = e.pc.extractLsb' 2 30) :
    s.bp.direction a = if a.getLsbD 1 then e.predHi else e.predLo := by
  rcases h with ⟨_, rfl⟩ | ⟨_, rfl⟩
  · rw [BranchPredictor.direction_eq ha]
    rfl
  · rw [BranchPredictor.direction_eq ha]
    rfl

/-- The cycles in which the words in the buffer, the stash and the D/E register were pushed. -/
structure Stamps where
  now : Nat
  buf : BitVec 3 → Nat
  hold : Nat
  de : Nat

/-- A stamp follows its word: into the buffer, into the stash, into the D/E register. -/
def Stamps.next (p : Params) (g : Stamps) (s : Hart) (i : HartIn) : Stamps :=
  let q := s.core.fe.fetch
  let n := pushCnt p q (s.fetchIn p i)
  let b := if 1 ≤ n then Function.update g.buf q.tailQ g.now else g.buf
  { now := g.now + 1
    buf := if 2 ≤ n then Function.update b (q.tailQ + 1) g.now else b
    hold :=
      if (s.frontIn p i).stall || spanWait s.core.fe.decode (s.decodeIn p i) then g.hold
      else if targetSpanComplete s.core.fe.decode (s.decodeIn p i) then g.buf (q.headQ + 1)
      else g.buf q.headQ
    de :=
      if (s.frontIn p i).branchValid || (s.frontIn p i).stall then g.de
      else if fromHold s.core.fe.decode (s.decodeIn p i) then g.hold
      else g.buf q.headQ }

section Run

variable (p : Params) (s : Hart) (inp : Nat → HartIn)

abbrev run (t : Nat) : Hart := trace (Hart.next p) s inp t

/-- The stamps before cycle `t`. -/
def stamps (t : Nat) : Stamps := companion (Stamps.next p) (Hart.next p) ⟨0, fun _ => 0, 0, 0⟩ s inp t

/-- `bit` and `index` are what the lookup of cycle `u` gave for the PC `pc`, when fetch pushed its word. -/
structure LookedUp (u : Nat) (pc : Word) (bit : Bool) (index : BitVec 9) : Prop where
  pushed : ∃ e, (run p s inp u).Pushes p (inp u) e ∧ pc.extractLsb' 2 30 = e.pc.extractLsb' 2 30
  bit : bit = ((run p s inp u).bp.phtQ index).getLsbD 1
  index : index = pc.extractLsb' 1 9 ^^^ (run p s inp u).bp.ghrQ

/-- The bits of the words under way are those of their stamps. -/
structure Stamped (t : Nat) : Prop where
  now : (stamps p s inp t).now = t
  buf : ∃ l, Ring.Holds (fun k => ((stamps p s inp t).buf k, (run p s inp t).core.fe.fetch.bufQ k))
      (run p s inp t).core.fe.fetch.headQ l ∧ l.length = (run p s inp t).core.fe.fetch.countQ ∧
    ∀ y ∈ l, y.1 < t ∧ (run p s inp y.1).Pushes p (inp y.1) y.2
  hold : (run p s inp t).core.fe.decode.holdQ = true → (stamps p s inp t).hold < t ∧
    LookedUp p s inp (stamps p s inp t).hold (run p s inp t).core.fe.decode.holdPcQ
      (run p s inp t).core.fe.decode.holdPredQ
      ((run p s inp t).core.fe.decode.holdPcQ.extractLsb' 1 9 ^^^ (run p s inp t).core.fe.decode.holdGhrQ)
  de : (run p s inp t).core.de.valid = true → (run p s inp t).core.de.branchType.isCond = true →
    (run p s inp t).core.de.predValid = p.bpEn ∧ (p.bpEn = true → (stamps p s inp t).de < t ∧
      LookedUp p s inp (stamps p s inp t).de (run p s inp t).core.de.pc (run p s inp t).core.de.predTaken
        (run p s inp t).core.de.predPhtIndex)

variable {p s inp} {t : Nat} {img : Nat → BitVec 64}

/-- The entry of a stamp answers for each of its halves. -/
private theorem lookedUp_of_pushes {u : Nat} {e : BufEntry} (h : (run p s inp u).Pushes p (inp u) e) {pc : Word}
    (hpc : pc.extractLsb' 2 30 = e.pc.extractLsb' 2 30) :
    LookedUp p s inp u pc (if pc.getLsbD 1 then e.predHi else e.predLo) (pc.extractLsb' 1 9 ^^^ e.ghr) := by
  refine ⟨⟨e, h, hpc⟩, ?_, ?_⟩
  · rw [← h.direction hpc, h.ghr]
    rfl
  · rw [h.ghr]

private theorem Stamped.head (h : Stamped p s inp t) (hv : (run p s inp t).core.fe.fetch.feValid = true) :
    (stamps p s inp t).buf (run p s inp t).core.fe.fetch.headQ < t ∧
      (run p s inp ((stamps p s inp t).buf (run p s inp t).core.fe.fetch.headQ)).Pushes p
        (inp ((stamps p s inp t).buf (run p s inp t).core.fe.fetch.headQ)) (run p s inp t).core.fe.fetch.fe := by
  obtain ⟨l, hl, hlen, hall⟩ := h.buf
  unfold feValid at hv
  rw [bne_iff_ne] at hv
  have hpos : 0 < l.length := by omega
  have hget := hl.at_head hpos
  have hmem := hall l[0] (List.getElem_mem hpos)
  rw [← hget] at hmem
  exact hmem

private theorem Stamped.next_entry (h : Stamped p s inp t) (hv : (run p s inp t).core.fe.fetch.feNextValid = true) :
    (stamps p s inp t).buf ((run p s inp t).core.fe.fetch.headQ + 1) < t ∧
      (run p s inp ((stamps p s inp t).buf ((run p s inp t).core.fe.fetch.headQ + 1))).Pushes p
        (inp ((stamps p s inp t).buf ((run p s inp t).core.fe.fetch.headQ + 1)))
          (run p s inp t).core.fe.fetch.feNext := by
  obtain ⟨l, hl, hlen, hall⟩ := h.buf
  have h2 : 2 ≤ (run p s inp t).core.fe.fetch.countQ := of_decide_eq_true hv
  have hone : 1 < l.length := by omega
  have hget := hl.at_next hone
  have hmem := hall l[1] (List.getElem_mem hone)
  rw [← hget] at hmem
  exact hmem

/-- Two buffers written at one address, as one. -/
private theorem update_pair {α β : Type} (f : BitVec 3 → α) (g : BitVec 3 → β) (k : BitVec 3) (x : α) (y : β) :
    (fun j => (Function.update f k x j, Function.update g k y j)) =
      Function.update (fun j => (f j, g j)) k (x, y) := by
  funext j
  by_cases hj : j = k
  · subst hj
    rw [Function.update_self, Function.update_self, Function.update_self]
  · rw [Function.update_of_ne hj, Function.update_of_ne hj, Function.update_of_ne hj]

private theorem pushCnt_le (q : FetchStage) (i : FetchIn) : pushCnt p q i ≤ 2 := by
  unfold pushCnt
  split_ifs
  · exact le_rfl
  · exact Nat.le_succ 1
  · exact Nat.le_succ 1
  · exact Nat.zero_le 2

/-- Decode never takes more entries than there are. -/
private theorem popCnt_le (s : Hart) (i : HartIn) :
    bufPopCnt s.core.fe.fetch (s.fetchIn p i) ≤ s.core.fe.fetch.countQ := by
  unfold bufPopCnt
  by_cases hc : (s.core.fe.fetch.countQ != 0 && !(s.fetchIn p i).stall) = true
  · rw [if_pos hc]
    rw [Bool.and_eq_true, bne_iff_ne] at hc
    by_cases h2 : (s.fetchIn p i).pop2 = true
    · have hnext : s.core.fe.fetch.feNextValid = true := by
        change targetSpanComplete s.core.fe.decode (s.decodeIn p i) = true at h2
        unfold targetSpanComplete at h2
        rw [Bool.and_eq_true, Bool.and_eq_true] at h2
        exact h2.1.2
      rw [if_pos h2]
      exact of_decide_eq_true hnext
    · rw [if_neg h2]
      omega
  · rw [if_neg hc]
    exact Nat.zero_le _

/-- The stamped buffer behind a cycle, in front of its pops. -/
private theorem Stamped.pushed (h : Stamped p s inp t) {a : Word}
    (hf : FetchAt p img a (run p s inp t).core.fe.fetch (run p s inp t).core.fe.imem) :
    ∃ l, Ring.Holds (fun k => ((stamps p s inp (t + 1)).buf k, (run p s inp (t + 1)).core.fe.fetch.bufQ k))
        (run p s inp t).core.fe.fetch.headQ l ∧
      l.length = (run p s inp t).core.fe.fetch.countQ +
        pushCnt p (run p s inp t).core.fe.fetch ((run p s inp t).fetchIn p (inp t)) ∧
      ∀ y ∈ l, y.1 < t + 1 ∧ (run p s inp y.1).Pushes p (inp y.1) y.2 := by
  obtain ⟨l, hl, hlen, hall⟩ := h.buf
  obtain ⟨hroom, _⟩ := hf.push_stream (FrontEnd.wired p _ ((run p s inp t).frontIn p (inp t)))
  have hold : ∀ y ∈ l, y.1 < t + 1 ∧ (run p s inp y.1).Pushes p (inp y.1) y.2 := by
    intro y hy
    obtain ⟨h1, h2⟩ := hall y hy
    exact ⟨Nat.lt_succ_of_lt h1, h2⟩
  have htail := hf.tail
  have hcnt := pushCnt_le (p := p) (run p s inp t).core.fe.fetch ((run p s inp t).fetchIn p (inp t))
  have hroom' : (run p s inp t).core.fe.fetch.countQ +
      pushCnt p (run p s inp t).core.fe.fetch ((run p s inp t).fetchIn p (inp t)) ≤ 8 := hroom
  have h8 : (2 : Nat) ^ 3 = 8 := rfl
  set q := (run p s inp t).core.fe.fetch with hq
  set x := (run p s inp t).fetchIn p (inp t) with hx
  set g := stamps p s inp t with hg
  have hnow : g.now = t := h.now
  have hfun : (fun k => ((stamps p s inp (t + 1)).buf k, (run p s inp (t + 1)).core.fe.fetch.bufQ k)) =
      (fun k =>
        ((if 2 ≤ pushCnt p q x then Function.update (if 1 ≤ pushCnt p q x then Function.update g.buf q.tailQ g.now
        else g.buf) (q.tailQ + 1) g.now else if 1 ≤ pushCnt p q x then Function.update g.buf q.tailQ g.now else g.buf)
          k,
        bufD p q x k)) := rfl
  rw [hfun, hnow]
  unfold bufD
  have hpush0 : 1 ≤ pushCnt p q x → (run p s inp t).Pushes p (inp t) (push0 p q x) := fun h1 => Or.inl ⟨h1, rfl⟩
  have hpush1 : 2 ≤ pushCnt p q x → (run p s inp t).Pushes p (inp t) (push1 q x) := fun h2 => Or.inr ⟨h2, rfl⟩
  rcases Nat.lt_or_ge (pushCnt p q x) 1 with h0 | h1
  · have hz : pushCnt p q x = 0 := by omega
    refine ⟨l, ?_, by omega, hold⟩
    rw [hz]
    exact hl
  · rcases Nat.lt_or_ge (pushCnt p q x) 2 with h2 | h2
    · have hone : pushCnt p q x = 1 := by omega
      refine ⟨l ++ [(t, push0 p q x)], ?_, ?_, ?_⟩
      · have hp := hl.push (by omega) (t, push0 p q x)
        rw [hlen, ← htail, ← update_pair] at hp
        rw [hone]
        exact hp
      · rw [List.length_append, List.length_singleton, hlen, hone]
      · intro y hy
        rw [List.mem_append, List.mem_singleton] at hy
        rcases hy with hy | rfl
        · exact hold y hy
        · exact ⟨Nat.lt_succ_self t, hpush0 h1⟩
    · have htwo : pushCnt p q x = 2 := by omega
      refine ⟨l ++ [(t, push0 p q x), (t, push1 q x)], ?_, ?_, ?_⟩
      · have hp := hl.push_two (by omega) (t, push0 p q x) (t, push1 q x)
        rw [hlen, ← htail, ← update_pair, ← update_pair] at hp
        rw [htwo]
        exact hp
      · rw [List.length_append, hlen, htwo]
        rfl
      · intro y hy
        rw [List.mem_append, List.mem_cons, List.mem_singleton] at hy
        rcases hy with hy | rfl | rfl
        · exact hold y hy
        · exact ⟨Nat.lt_succ_self t, hpush0 h1⟩
        · exact ⟨Nat.lt_succ_self t, hpush1 h2⟩

/-- The stamped buffer behind a cycle. -/
private theorem Stamped.buf_next (h : Stamped p s inp t) {a : Word}
    (hf : FetchAt p img a (run p s inp t).core.fe.fetch (run p s inp t).core.fe.imem) :
    ∃ l, Ring.Holds (fun k => ((stamps p s inp (t + 1)).buf k, (run p s inp (t + 1)).core.fe.fetch.bufQ k))
        (run p s inp (t + 1)).core.fe.fetch.headQ l ∧ l.length = (run p s inp (t + 1)).core.fe.fetch.countQ ∧
      ∀ y ∈ l, y.1 < t + 1 ∧ (run p s inp y.1).Pushes p (inp y.1) y.2 := by
  obtain ⟨l, hl, hlen, hall⟩ := h.pushed hf
  obtain ⟨hroom, _⟩ := hf.push_stream (FrontEnd.wired p _ ((run p s inp t).frontIn p (inp t)))
  have hroom' : (run p s inp t).core.fe.fetch.countQ +
      pushCnt p (run p s inp t).core.fe.fetch ((run p s inp t).fetchIn p (inp t)) ≤ 8 := hroom
  have hpop := popCnt_le (p := p) (run p s inp t) (inp t)
  have hcount : (run p s inp (t + 1)).core.fe.fetch.countQ =
      if FetchStage.redirect ((run p s inp t).fetchIn p (inp t)) then 0
      else ((run p s inp t).core.fe.fetch.countQ +
        pushCnt p (run p s inp t).core.fe.fetch ((run p s inp t).fetchIn p (inp t)) + 16 -
          bufPopCnt (run p s inp t).core.fe.fetch ((run p s inp t).fetchIn p (inp t))) % 16 := rfl
  have hhead : (run p s inp (t + 1)).core.fe.fetch.headQ =
      if FetchStage.redirect ((run p s inp t).fetchIn p (inp t)) then 0
      else (run p s inp t).core.fe.fetch.headQ +
        BitVec.ofNat 3 (bufPopCnt (run p s inp t).core.fe.fetch ((run p s inp t).fetchIn p (inp t))) := rfl
  rw [hcount, hhead]
  cases hr : FetchStage.redirect ((run p s inp t).fetchIn p (inp t)) with
  | true =>
    refine ⟨[], Ring.holds_nil _ _, rfl, ?_⟩
    intro y hy
    cases hy
  | false =>
    refine ⟨l.drop (bufPopCnt (run p s inp t).core.fe.fetch ((run p s inp t).fetchIn p (inp t))), hl.drop _, ?_, ?_⟩
    · rw [List.length_drop, hlen, if_neg Bool.false_ne_true]
      omega
    · intro y hy
      exact hall y (List.mem_of_mem_drop hy)

/-! ### The stash and the D/E register -/

private theorem nextFetch_bit (a : Word) : (nextFetch p a).getLsbD 1 = false := by
  unfold nextFetch
  by_cases h : outOfImem p a = true
  · rw [if_pos h, getLsbD_one_eq, toNat_blockNext, decide_eq_false_iff_not]
    omega
  · rw [if_neg h]
    exact spanPc_bit a

private theorem pc_of_slot {e : BufEntry} {a : Word} (h : e.slot = slotAt p img a) : e.pc = a := by
  have hpc := congrArg Slot.pc h
  rw [slotAt_pc] at hpc
  exact hpc

/-- The word that completes a spanning instruction is entered at its low half. -/
private theorem completing_bit {a : Word} {x : FrontEnd} (h : FeAt p img a x) (y : FrontEndIn) :
    (spanComplete x.decode (x.decodeIn y) = true → x.fetch.fe.pc.getLsbD 1 = false) ∧
      (targetSpanComplete x.decode (x.decodeIn y) = true → x.fetch.feNext.pc.getLsbD 1 = false) := by
  constructor
  · intro hs
    unfold spanComplete spanPending at hs
    simp only [Bool.and_eq_true] at hs
    obtain ⟨⟨_, hh, _⟩, hv⟩ := hs
    cases h with
    | fresh hold _ =>
      rw [hold] at hh
      cases hh
    | held _ _ _ _ _ hf =>
      rw [pc_of_slot (hf.head hv)]
      exact spanPc_bit a
    | dropped hold _ _ =>
      rw [hold] at hh
      cases hh
  · intro hs
    unfold targetSpanComplete at hs
    rw [Bool.and_eq_true, Bool.and_eq_true] at hs
    obtain ⟨b, hb⟩ := h.fetchAt
    rw [pc_of_slot (hb.next hs.1.2)]
    exact nextFetch_bit b

private theorem add_two_word {a : Word} (h : a.getLsbD 1 = false) :
    (a + 2).extractLsb' 2 30 = a.extractLsb' 2 30 := by
  have h1 := toNat_add_two h
  rw [getLsbD_one_eq, decide_eq_false_iff_not] at h
  apply BitVec.eq_of_toNat_eq
  rw [BitVec.extractLsb'_toNat, BitVec.extractLsb'_toNat, h1, Nat.shiftRight_eq_div_pow, Nat.shiftRight_eq_div_pow]
  omega

/-- A stashed upper half. -/
private theorem lookedUp_upper {u : Nat} {e : BufEntry} (h : (run p s inp u).Pushes p (inp u) e) {pc : Word}
    (hpc : pc.extractLsb' 2 30 = e.pc.extractLsb' 2 30) (hup : pc.getLsbD 1 = true) :
    LookedUp p s inp u pc e.predHi (pc.extractLsb' 1 9 ^^^ e.ghr) := by
  have hl := lookedUp_of_pushes h hpc
  rw [hup, if_pos rfl] at hl
  exact hl

/-- What the stash holds behind a cycle that loads it: the upper half of the head, or of the entry behind it. -/
private theorem holdD_cases {q : DecodeStage} {x : DecodeIn} (h : (holdD p q x).holdQ = true) :
    (holdD p q x = q ∧ q.holdQ = true ∧ (x.stall || spanWait q x) = true) ∨
      ((x.stall || spanWait q x) = false ∧ targetSpanComplete q x = true ∧
        holdD p q x = stashUpper q x.feNext (x.feNext.pc + 2)) ∨
      ((x.stall || spanWait q x) = false ∧ targetSpanComplete q x = false ∧ x.feValid = true ∧
        ((x.fe.pc.getLsbD 1 = true ∧ holdD p q x = stashUpper q x.fe x.fe.pc) ∨
          ((x.fe.pc.getLsbD 1 = false ∨ spanComplete q x = true) ∧
            holdD p q x = stashUpper q x.fe (x.fe.pc + 2)))) := by
  unfold holdD at h ⊢
  by_cases h1 : x.flush = true
  · rw [if_pos h1] at h
    cases h
  rw [if_neg h1] at h ⊢
  by_cases h2 : predRedirectFire p q x = true
  · rw [if_pos h2] at h
    cases h
  rw [if_neg h2] at h ⊢
  by_cases h3 : takeFault q x = true
  · rw [if_pos h3] at h
    cases h
  rw [if_neg h3] at h ⊢
  by_cases h4 : x.stall = true
  · rw [if_pos h4] at h ⊢
    exact Or.inl ⟨rfl, h, by rw [h4, Bool.true_or]⟩
  rw [if_neg h4] at h ⊢
  by_cases h5 : spanWait q x = true
  · rw [if_pos h5] at h ⊢
    exact Or.inl ⟨rfl, h, by rw [h5, Bool.or_true]⟩
  rw [if_neg h5] at h ⊢
  rw [Bool.not_eq_true] at h3 h4 h5
  have hstall : (x.stall || spanWait q x) = false := by rw [h4, h5, Bool.or_false]
  by_cases h6 : spanComplete q x = true
  · -- the stitch takes its second half from the head, so nothing is stitched at a target
    have hv : x.feValid = true ∧ targetSpanComplete q x = false := by
      have h6' := h6
      unfold spanComplete spanPending at h6'
      simp only [Bool.and_eq_true] at h6'
      obtain ⟨⟨_, hh, _⟩, hv⟩ := h6'
      refine ⟨hv, ?_⟩
      unfold targetSpanComplete targetSpan targetUpper
      rw [hh, Bool.not_true, Bool.and_false, Bool.false_and, Bool.false_and, Bool.false_and, Bool.false_and,
        Bool.false_and]
    rw [if_pos h6]
    exact Or.inr (Or.inr ⟨hstall, hv.2, hv.1, Or.inr ⟨Or.inr h6, rfl⟩⟩)
  rw [if_neg h6] at h ⊢
  by_cases h7 : q.isHoldPlain = true
  · rw [if_pos h7] at h
    cases h
  rw [if_neg h7] at h ⊢
  by_cases h8 : targetSpanComplete q x = true
  · rw [if_pos h8]
    exact Or.inr (Or.inl ⟨hstall, h8, rfl⟩)
  rw [if_neg h8] at h ⊢
  rw [Bool.not_eq_true] at h8
  by_cases h9 : targetSpanWait q x = true
  · have hup : x.feValid = true ∧ x.fe.pc.getLsbD 1 = true := by
      have h9' := h9
      unfold targetSpanWait targetSpan targetUpper at h9'
      simp only [Bool.and_eq_true] at h9'
      exact ⟨h9'.1.1.1.2, h9'.1.1.2⟩
    rw [if_pos h9]
    exact Or.inr (Or.inr ⟨hstall, h8, hup.1, Or.inl ⟨hup.2, rfl⟩⟩)
  rw [if_neg h9] at h ⊢
  by_cases h10 : bufferUpper q x = true
  · have hlow : x.feValid = true ∧ x.fe.pc.getLsbD 1 = false := by
      have h10' := h10
      unfold bufferUpper targetUpper at h10'
      simp only [Bool.and_eq_true, Bool.not_eq_true'] at h10'
      obtain ⟨⟨⟨hh, hu⟩, hv⟩, _⟩ := h10'
      rw [h3, hh, hv] at hu
      exact ⟨hv, hu⟩
    rw [if_pos h10]
    exact Or.inr (Or.inr ⟨hstall, h8, hlow.1, Or.inr ⟨Or.inl hlow.2, rfl⟩⟩)
  rw [if_neg h10] at h
  cases h

private theorem Stamped.hold_next (h : Stamped p s inp t) {a : Word} (hf : FeAt p img a (run p s inp t).core.fe)
    (hh : (run p s inp (t + 1)).core.fe.decode.holdQ = true) : (stamps p s inp (t + 1)).hold < t + 1 ∧
      LookedUp p s inp (stamps p s inp (t + 1)).hold (run p s inp (t + 1)).core.fe.decode.holdPcQ
        (run p s inp (t + 1)).core.fe.decode.holdPredQ
        ((run p s inp (t + 1)).core.fe.decode.holdPcQ.extractLsb' 1 9 ^^^
          (run p s inp (t + 1)).core.fe.decode.holdGhrQ) := by
  obtain ⟨hspan, htarget⟩ := completing_bit hf ((run p s inp t).frontIn p (inp t))
  have hq : (run p s inp (t + 1)).core.fe.decode.holdQ =
      (holdD p (run p s inp t).core.fe.decode ((run p s inp t).decodeIn p (inp t))).holdQ := rfl
  have hpc : (run p s inp (t + 1)).core.fe.decode.holdPcQ =
      (holdD p (run p s inp t).core.fe.decode ((run p s inp t).decodeIn p (inp t))).holdPcQ := rfl
  have hpred : (run p s inp (t + 1)).core.fe.decode.holdPredQ =
      (holdD p (run p s inp t).core.fe.decode ((run p s inp t).decodeIn p (inp t))).holdPredQ := rfl
  have hghr : (run p s inp (t + 1)).core.fe.decode.holdGhrQ =
      (holdD p (run p s inp t).core.fe.decode ((run p s inp t).decodeIn p (inp t))).holdGhrQ := rfl
  have hg : (stamps p s inp (t + 1)).hold =
      if ((run p s inp t).decodeIn p (inp t)).stall ||
          spanWait (run p s inp t).core.fe.decode ((run p s inp t).decodeIn p (inp t)) then (stamps p s inp t).hold
      else if targetSpanComplete (run p s inp t).core.fe.decode ((run p s inp t).decodeIn p (inp t)) then
        (stamps p s inp t).buf ((run p s inp t).core.fe.fetch.headQ + 1)
      else (stamps p s inp t).buf (run p s inp t).core.fe.fetch.headQ := rfl
  rw [hq] at hh
  rw [hpc, hpred, hghr, hg]
  rcases holdD_cases hh with ⟨hd, hold, hst⟩ | ⟨hst, hts, hd⟩ | ⟨hst, hts, hv, ⟨hup, hd⟩ | ⟨hlow, hd⟩⟩
  · obtain ⟨hlt, hl⟩ := h.hold hold
    rw [hd, hst, if_pos rfl]
    exact ⟨Nat.lt_succ_of_lt hlt, hl⟩
  · have hv : (run p s inp t).core.fe.fetch.feNextValid = true := by
      have hts' := hts
      unfold targetSpanComplete at hts'
      rw [Bool.and_eq_true, Bool.and_eq_true] at hts'
      exact hts'.1.2
    obtain ⟨hlt, hp⟩ := h.next_entry hv
    rw [hd, hst, hts, if_neg Bool.false_ne_true, if_pos rfl]
    exact ⟨Nat.lt_succ_of_lt hlt, lookedUp_upper hp (add_two_word (htarget hts)) (add_two_bit (htarget hts))⟩
  · obtain ⟨hlt, hp⟩ := h.head hv
    rw [hd, hst, hts, if_neg Bool.false_ne_true, if_neg Bool.false_ne_true]
    exact ⟨Nat.lt_succ_of_lt hlt, lookedUp_upper hp rfl hup⟩
  · have hbit : (run p s inp t).core.fe.fetch.fe.pc.getLsbD 1 = false := by
      rcases hlow with hlow | hlow
      · exact hlow
      · exact hspan hlow
    obtain ⟨hlt, hp⟩ := h.head hv
    rw [hd, hst, hts, if_neg Bool.false_ne_true, if_neg Bool.false_ne_true]
    exact ⟨Nat.lt_succ_of_lt hlt, lookedUp_upper hp (add_two_word hbit) (add_two_bit hbit)⟩

/-- What decode takes for a conditional branch: the bit and the index of its word's push. -/
private theorem Stamped.lookedUp_src (h : Stamped p s inp t) (hlook : p.bpPushLookup = true)
    (hv : decodedValid (run p s inp t).core.fe.decode ((run p s inp t).decodeIn p (inp t)) = true)
    (hf : takeFault (run p s inp t).core.fe.decode ((run p s inp t).decodeIn p (inp t)) = false) {u : Nat}
    (hu : u = if fromHold (run p s inp t).core.fe.decode ((run p s inp t).decodeIn p (inp t)) then
    (stamps p s inp t).hold
      else (stamps p s inp t).buf (run p s inp t).core.fe.fetch.headQ) :
    u < t ∧ LookedUp p s inp u (src (run p s inp t).core.fe.decode ((run p s inp t).decodeIn p (inp t))).pc
      (phtTakenSrc p (run p s inp t).core.fe.decode ((run p s inp t).decodeIn p (inp t)))
      ((src (run p s inp t).core.fe.decode ((run p s inp t).decodeIn p (inp t))).pc.extractLsb' 1 9 ^^^
        (if fromHold (run p s inp t).core.fe.decode ((run p s inp t).decodeIn p (inp t)) then
          (run p s inp t).core.fe.decode.holdGhrQ else (run p s inp t).core.fe.fetch.fe.ghr)) := by
  rcases src_pc hv hf with ⟨hh, hq, hpc⟩ | ⟨hh, hfe, hpc⟩
  · have hbit : phtTakenSrc p (run p s inp t).core.fe.decode ((run p s inp t).decodeIn p (inp t)) =
        (run p s inp t).core.fe.decode.holdPredQ := by
      unfold fromHold at hh
      unfold phtTakenSrc
      rw [hlook, if_pos rfl, hh, if_pos rfl]
    rw [hh, if_pos rfl] at hu
    rw [hpc, hbit, hh, if_pos rfl, hu]
    exact h.hold hq
  · have hbit : phtTakenSrc p (run p s inp t).core.fe.decode ((run p s inp t).decodeIn p (inp t)) =
        if (run p s inp t).core.fe.fetch.fe.pc.getLsbD 1 then (run p s inp t).core.fe.fetch.fe.predHi
        else (run p s inp t).core.fe.fetch.fe.predLo := by
      unfold fromHold at hh
      unfold phtTakenSrc
      rw [hlook, if_pos rfl, hh, if_neg Bool.false_ne_true]
      rfl
    obtain ⟨hlt, hp⟩ := h.head hfe
    rw [hh, if_neg Bool.false_ne_true] at hu
    rw [← hu] at hlt hp
    rw [hpc, hbit, hh, if_neg Bool.false_ne_true]
    exact ⟨hlt, lookedUp_of_pushes hp rfl⟩

private theorem Stamped.de_next (h : Stamped p s inp t) (hlook : p.bpPushLookup = true)
    (hv : (run p s inp (t + 1)).core.de.valid = true) (hc : (run p s inp (t + 1)).core.de.branchType.isCond = true) :
    (run p s inp (t + 1)).core.de.predValid = p.bpEn ∧ (p.bpEn = true → (stamps p s inp (t + 1)).de < t + 1 ∧
      LookedUp p s inp (stamps p s inp (t + 1)).de (run p s inp (t + 1)).core.de.pc
        (run p s inp (t + 1)).core.de.predTaken (run p s inp (t + 1)).core.de.predPhtIndex) := by
  have hde : (run p s inp (t + 1)).core.de =
      if ((run p s inp t).frontIn p (inp t)).branchValid then De.zero
      else if ((run p s inp t).frontIn p (inp t)).stall then (run p s inp t).core.de
      else deD p (run p s inp t).core.fe.decode ((run p s inp t).decodeIn p (inp t)) :=
    FrontEnd.deQ_next p _ _
  have hg : (stamps p s inp (t + 1)).de =
      if ((run p s inp t).frontIn p (inp t)).branchValid || ((run p s inp t).frontIn p (inp t)).stall then
        (stamps p s inp t).de
      else if fromHold (run p s inp t).core.fe.decode ((run p s inp t).decodeIn p (inp t)) then
        (stamps p s inp t).hold
      else (stamps p s inp t).buf (run p s inp t).core.fe.fetch.headQ := rfl
  rw [hde] at hv hc ⊢
  by_cases hb : ((run p s inp t).frontIn p (inp t)).branchValid = true
  · rw [if_pos hb] at hv
    cases hv
  rw [if_neg hb] at hv hc ⊢
  rw [Bool.not_eq_true] at hb
  rw [hb, Bool.false_or] at hg
  by_cases hs : ((run p s inp t).frontIn p (inp t)).stall = true
  · rw [if_pos hs] at hv hc ⊢
    rw [if_pos hs] at hg
    obtain ⟨h1, h2⟩ := h.de hv hc
    refine ⟨h1, fun hen => ?_⟩
    obtain ⟨hlt, hl⟩ := h2 hen
    rw [hg]
    exact ⟨Nat.lt_succ_of_lt hlt, hl⟩
  · rw [if_neg hs] at hv hc ⊢
    rw [if_neg hs] at hg
    obtain ⟨h1, h2⟩ := pred_deD hlook hv hc
    obtain ⟨_, _, _, hf⟩ := cond_deD hc
    have hd : decodedValid (run p s inp t).core.fe.decode ((run p s inp t).decodeIn p (inp t)) = true := hv
    obtain ⟨hlt, hl⟩ := h.lookedUp_src hlook hd hf hg
    refine ⟨h1, fun hen => ⟨Nat.lt_succ_of_lt hlt, ?_⟩⟩
    obtain ⟨hbit, hix⟩ := h2 hen
    rw [hbit, hix]
    exact hl

/-! ### Runs -/

variable {boot : Word} {rf : RegFile}

/-- The front end of a hart stands at an address in every cycle. -/
private theorem fe_run (h : s.IsReset boot img rf) (t : Nat) : ∃ a, FeAt p img a (run p s inp t).core.fe := by
  induction t with
  | zero => exact ⟨boot, h.core.fe.feAt⟩
  | succ t ih =>
    obtain ⟨a, ha⟩ := ih
    exact ⟨_, ha.next ((run p s inp t).frontIn p (inp t))⟩

private theorem stamped_run (hlook : p.bpPushLookup = true) (h : s.IsReset boot img rf) (t : Nat) :
    Stamped p s inp t := by
  induction t with
  | zero =>
    refine ⟨rfl, ⟨[], Ring.holds_nil _ _, h.core.fe.fetch.count.symm, ?_⟩, ?_, ?_⟩
    · intro y hy
      cases hy
    · intro hh
      rw [show (run p s inp 0).core.fe.decode.holdQ = false from h.core.fe.decode.hold] at hh
      cases hh
    · intro hv
      rw [show (run p s inp 0).core.de = De.zero from h.core.fe.decode.de] at hv
      cases hv
  | succ t ih =>
    obtain ⟨a, ha⟩ : ∃ a, FeAt p img a (run p s inp t).core.fe := fe_run h t
    obtain ⟨b, hb⟩ := ha.fetchAt
    have hnow : (stamps p s inp (t + 1)).now = (stamps p s inp t).now + 1 := rfl
    refine ⟨?_, ih.buf_next hb, ih.hold_next ha, ih.de_next hlook⟩
    rw [hnow, ih.now]

/-- Every conditional branch is predicted with the top bit that a counter had in the cycle its word was pushed, its PC
and that cycle's history choose the counter, and training updates that counter and no other. -/
theorem push_prediction (inp : Nat → HartIn) (hlook : p.bpPushLookup = true) (h : s.IsReset boot img rf) (t : Nat)
    (hres : (trains p s inp t).cond = true) :
    (run p s inp t).core.de.predValid = p.bpEn ∧
      (p.bpEn = true → (stamps p s inp t).de < t ∧
        LookedUp p s inp (stamps p s inp t).de (run p s inp t).core.de.pc (run p s inp t).core.de.predTaken
          (trains p s inp t).phtIndex ∧
        (run p s inp (t + 1)).bp.phtQ =
          Function.update (run p s inp t).bp.phtQ (trains p s inp t).phtIndex
            (BranchPredictor.satUpdate ((run p s inp t).bp.phtQ (trains p s inp t).phtIndex)
              (trains p s inp t).taken)) := by
  have hvalid : (trains p s inp t).valid = true := by
    change (_ && _) = true at hres
    rw [Bool.and_eq_true] at hres
    exact hres.1
  have hcond : (run p s inp t).core.de.branchType.isCond = true := by
    change (_ && _) = true at hres
    rw [Bool.and_eq_true] at hres
    exact hres.2
  have hv : (run p s inp t).core.de.valid = true := by
    have hr := hvalid
    change (_ && _) = true at hr
    simp only [Bool.and_eq_true] at hr
    exact hr.1.1.1.1
  have hst : Stamped p s inp t := stamped_run hlook h t
  obtain ⟨h1, h2⟩ := hst.de hv hcond
  refine ⟨h1, fun hen => ?_⟩
  obtain ⟨hlt, hl⟩ := h2 hen
  refine ⟨hlt, hl, ?_⟩
  have hnext : (run p s inp (t + 1)).bp.phtQ =
      if (trains p s inp t).valid && (trains p s inp t).cond then
        Function.update (run p s inp t).bp.phtQ (trains p s inp t).phtIndex
          (BranchPredictor.satUpdate ((run p s inp t).bp.phtQ (trains p s inp t).phtIndex) (trains p s inp t).taken)
      else (run p s inp t).bp.phtQ := rfl
  rw [hnext, hvalid, hres, Bool.and_self, if_pos rfl]

/-- `c.nop`, and `beq x0, x0, 0` in the upper half of its word and the lower half of the next. -/
def spanningBranch : Hart := reset 0 (imgOf [0x0001000000630001#64]) ⟨fun _ => 0⟩

/-- The branch at 2, taken from the stash and the word behind it. -/
theorem push_prediction_spanning :
    (run .pkg spanningBranch (fun _ => .quiet) 4).core.de.pc = 2 ∧
      LookedUp .pkg spanningBranch (fun _ => .quiet) (stamps .pkg spanningBranch (fun _ => .quiet) 4).de
        (run .pkg spanningBranch (fun _ => .quiet) 4).core.de.pc
        (run .pkg spanningBranch (fun _ => .quiet) 4).core.de.predTaken
        (trains .pkg spanningBranch (fun _ => .quiet) 4).phtIndex := by
  have hres : (run .pkg spanningBranch (fun _ => .quiet) 4).core.de.pc = 2 ∧
      (trains .pkg spanningBranch (fun _ => .quiet) 4).cond = true := by
    decide +kernel
  have h := push_prediction (p := .pkg) (fun _ => .quiet) rfl
    (reset_isReset 0 (imgOf [0x0001000000630001#64]) ⟨fun _ => 0⟩) 4 hres.2
  exact ⟨hres.1, (h.2 rfl).2.1⟩

end Run

end Hart

end Yarv
