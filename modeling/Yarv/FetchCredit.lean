import Yarv.FetchStage
import Yarv.RamFacts
import Yarv.Lib.Clocked
import Yarv.Lib.Ring

/-!
# The credits of fetch

Room in the instruction buffer, kept as a credit: each outstanding read reserves two slots, and a stale one gives them
back unused.  The invariant needs nothing of the I-mem but that it answers accepted reads only; over a `native_ram`
with two responses outstanding every read is moreover answered before the next launch takes `req_pc_q`.
-/

namespace Yarv

namespace FetchStage

open Clocked

variable {p : Params} {q : FetchStage} {i : FetchIn}

/-! ### One cycle -/

/-- The pointers and the counters agree, and the buffer has room for all that is outstanding. -/
structure Credit (q : FetchStage) : Prop where
  room : q.countQ + 2 * q.inflightQ ≤ 8
  stale : q.staleQ ≤ q.inflightQ
  inflight : q.inflightQ ≤ 2
  tail : q.tailQ = q.headQ + BitVec.ofNat 3 q.countQ

/-- What the two neighbours of fetch promise in a cycle: the I-mem answers only what is outstanding, and decode pops
two entries only if there are two. -/
structure Promised (q : FetchStage) (i : FetchIn) : Prop where
  answer : i.imemRsp.rvalid = true → 0 < q.inflightQ
  pop : i.pop2 = true → q.feNextValid = true

private theorem pushCnt_le (p : Params) (q : FetchStage) (i : FetchIn) : pushCnt p q i ≤ 2 := by
  unfold pushCnt
  split
  · split <;> omega
  · split <;> omega

private theorem bufPopCnt_le (hp : Promised q i) : bufPopCnt q i ≤ q.countQ := by
  unfold bufPopCnt
  by_cases h : (q.countQ != 0 && !i.stall) = true
  · have hne : q.countQ ≠ 0 := by
      rw [Bool.and_eq_true] at h
      exact bne_iff_ne.mp h.1
    rw [if_pos h]
    by_cases h2 : i.pop2 = true
    · have hnext := of_decide_eq_true (hp.pop h2)
      rw [if_pos h2]
      exact hnext
    · rw [if_neg h2]
      omega
  · rw [if_neg h]
    exact Nat.zero_le _

private theorem inflight_of_cap (hp : Promised q i) (h : rspCap q i = true) : 0 < q.inflightQ := by
  unfold rspCap at h
  rw [Bool.and_eq_true] at h
  exact hp.answer h.1

/-- A push comes from a response that is not stale, or from a fault while nothing is outstanding. -/
private theorem push_cases (h : Credit q) :
    pushCnt p q i = 0 ∨ (rspCap q i = true ∧ q.staleQ = 0) ∨
      (pushCnt p q i = 1 ∧ q.inflightQ = 0 ∧ q.countQ < 8 ∧ pcFault p q = true) := by
  have hroom := h.room
  by_cases hd : doRsp q i = true
  · unfold doRsp at hd
    rw [Bool.and_eq_true, beq_iff_eq] at hd
    exact .inr (.inl hd)
  · rw [Bool.not_eq_true] at hd
    have hdata : doRspData p q i = false := by rw [doRspData, hd, Bool.false_and]
    have hfault : doRspFault p q i = false := by rw [doRspFault, hd, Bool.false_and]
    unfold pushCnt
    rw [hdata, hfault, if_neg Bool.false_ne_true, Bool.false_or]
    cases hf : faultPush p q i with
    | false => exact .inl rfl
    | true =>
      unfold faultPush at hf
      rw [Bool.and_eq_true, Bool.and_eq_true, Bool.and_eq_true, beq_iff_eq, decide_eq_true_eq] at hf
      obtain ⟨⟨⟨hpc, havail⟩, -⟩, hinfl⟩ := hf
      unfold available reserved twiceInflight at havail
      exact .inr (.inr ⟨rfl, hinfl, by omega, hpc⟩)

/-- A push finds its slots free. -/
private theorem push_room (h : Credit q) (hp : Promised q i) : q.countQ + pushCnt p q i ≤ 8 := by
  have hroom := h.room
  have hle := pushCnt_le p q i
  rcases push_cases (p := p) (i := i) h with h0 | ⟨hcap, -⟩ | ⟨h1, -, h8, -⟩
  · omega
  · have := inflight_of_cap hp hcap
    omega
  · omega

/-- A launch has found two free slots, measured against the buffer behind a redirect. -/
private theorem launch_room (h : Credit q) (hl : launch p q i = true) :
    q.inflightQ < 2 ∧ (redirect i = false → q.countQ + 2 * q.inflightQ ≤ 6 ∧ pcFault p q = false) := by
  have hroom := h.room
  unfold launch busIssue at hl
  rw [Bool.and_eq_true, Bool.and_eq_true, Bool.and_eq_true, Bool.and_eq_true, decide_eq_true_eq, decide_eq_true_eq]
    at hl
  obtain ⟨⟨⟨⟨hinfl, havail⟩, hpc⟩, -⟩, -⟩ := hl
  refine ⟨hinfl, fun hr => ?_⟩
  have hno : incycleLaunch p i = false := by
    unfold redirect at hr
    rw [Bool.or_eq_false_iff] at hr
    unfold incycleLaunch redirect
    rw [hr.1, hr.2, Bool.or_false, ite_self]
  rw [hno, Bool.false_or, Bool.not_eq_true'] at hpc
  unfold availableIssue available reserved twiceInflight at havail
  rw [hr, if_neg Bool.false_ne_true] at havail
  exact ⟨by omega, hpc⟩

/-- The reads outstanding behind the edge. -/
private theorem inflight_next (h : Credit q) (hp : Promised q i) :
    (q.next p i).inflightQ + (rspCap q i).toNat = q.inflightQ + (launch p q i).toNat ∧
      (q.next p i).inflightQ ≤ 2 := by
  have hle := h.inflight
  have hcap : (rspCap q i).toNat ≤ q.inflightQ := by
    cases hc : rspCap q i with
    | false => exact Nat.zero_le _
    | true => exact inflight_of_cap hp hc
  have hlaunch : q.inflightQ + (launch p q i).toNat ≤ 2 := by
    cases hl : launch p q i with
    | false => exact hle
    | true => exact (launch_room h hl).1
  change inflightD p q i + _ = _ ∧ inflightD p q i ≤ 2
  unfold inflightD
  omega

private theorem Credit.next (h : Credit q) (hp : Promised q i) : Credit (q.next p i) := by
  obtain ⟨hnext, hnext_le⟩ := inflight_next (p := p) h hp
  have hstale := h.stale
  have hroom := h.room
  have hcap : rspCap q i = true → 0 < q.inflightQ := inflight_of_cap hp
  have hstaleD : (q.next p i).staleQ ≤ q.inflightQ - (rspCap q i).toNat := by
    change staleD q i ≤ _
    unfold staleD
    cases hr : redirect i with
    | true =>
      have hle := h.inflight
      have hcl : (rspCap q i).toNat ≤ 1 := Bool.toNat_le _
      have hpos : (rspCap q i).toNat ≤ q.inflightQ := by
        cases hc : rspCap q i with
        | false => exact Nat.zero_le _
        | true => exact hcap hc
      rw [if_pos rfl]
      omega
    | false =>
      rw [if_neg Bool.false_ne_true]
      cases hc : rspCap q i with
      | false =>
        rw [Bool.false_and, if_neg Bool.false_ne_true]
        exact hstale
      | true =>
        by_cases h0 : q.staleQ = 0
        · rw [h0]
          exact Nat.zero_le _
        · have hne : (q.staleQ != 0) = true := bne_iff_ne.mpr h0
          rw [hne, Bool.and_self, if_pos rfl, Bool.toNat_true]
          omega
  cases hr : redirect i with
  | true =>
    have hcount : (q.next p i).countQ = 0 := if_pos hr
    have hhead : (q.next p i).headQ = 0 := if_pos hr
    have htail : (q.next p i).tailQ = 0 := if_pos hr
    refine ⟨by omega, by omega, hnext_le, ?_⟩
    rw [hcount, hhead, htail]
    rfl
  | false =>
    have hne : ¬redirect i = true := by rw [hr]; exact Bool.false_ne_true
    have hpush := push_room (p := p) h hp
    have hpop := bufPopCnt_le hp
    have hcount : (q.next p i).countQ = q.countQ + pushCnt p q i - bufPopCnt q i := by
      change (if redirect i then 0 else (q.countQ + pushCnt p q i + 16 - bufPopCnt q i) % 16) = _
      rw [if_neg hne]
      omega
    have hhead : (q.next p i).headQ = q.headQ + BitVec.ofNat 3 (bufPopCnt q i) := if_neg hne
    have htail : (q.next p i).tailQ = q.tailQ + BitVec.ofNat 3 (pushCnt p q i) := if_neg hne
    refine ⟨?_, by omega, hnext_le, ?_⟩
    · -- a launch takes two free slots; a push takes those of its response
      have hgrow : q.countQ + pushCnt p q i + 2 * (q.inflightQ - (rspCap q i).toNat) ≤ 8 := by
        rcases push_cases (p := p) (i := i) h with h0 | ⟨hc, -⟩ | ⟨h1, h2, h3, -⟩
        · omega
        · have hle := pushCnt_le p q i
          have hpos := hcap hc
          rw [hc, Bool.toNat_true]
          omega
        · omega
      cases hl : launch p q i with
      | false =>
        rw [hl, Bool.toNat_false] at hnext
        omega
      | true =>
        obtain ⟨-, hfree⟩ := launch_room h hl
        obtain ⟨hsix, hin⟩ := hfree hr
        have hle : pushCnt p q i ≤ 2 * (rspCap q i).toNat := by
          rcases push_cases (p := p) (i := i) h with h0 | ⟨hc, -⟩ | ⟨-, -, -, hout⟩
          · omega
          · rw [hc]
            exact pushCnt_le p q i
          · rw [hin] at hout
            cases hout
        rw [hl, Bool.toNat_true] at hnext
        omega
    · rw [hhead, htail, h.tail, hcount, BitVec.add_assoc, BitVec.add_assoc, ← BitVec.ofNat_add, ← BitVec.ofNat_add,
        Nat.add_sub_cancel' (by omega)]

/-- The slots that are written are not live. -/
private theorem slot_free (h : Credit q) (hp : Promised q i) {k n : Nat} (hk : k < q.countQ)
    (hn : n < pushCnt p q i) :
    q.tailQ + BitVec.ofNat 3 n ≠ q.headQ + BitVec.ofNat 3 k := by
  have hroom := push_room (p := p) h hp
  have h8 : (2 : Nat) ^ 3 = 8 := rfl
  rw [h.tail, BitVec.add_assoc, ← BitVec.ofNat_add]
  intro he
  have := Ring.offset_inj (by omega) (by omega) he
  omega

/-- A live slot keeps its entry. -/
private theorem live_kept (h : Credit q) (hp : Promised q i) {k : Nat} (hk : k < q.countQ) :
    bufD p q i (q.headQ + BitVec.ofNat 3 k) = q.bufQ (q.headQ + BitVec.ofNat 3 k) := by
  have h0 : 1 ≤ pushCnt p q i → q.headQ + BitVec.ofNat 3 k ≠ q.tailQ := by
    intro hn he
    have := slot_free (p := p) h hp hk hn
    rw [he] at this
    exact this (BitVec.add_zero _)
  have h1 : 2 ≤ pushCnt p q i → q.headQ + BitVec.ofNat 3 k ≠ q.tailQ + 1 := fun hn he =>
    slot_free (p := p) h hp hk hn he.symm
  unfold bufD
  by_cases hn1 : 1 ≤ pushCnt p q i
  · by_cases hn2 : 2 ≤ pushCnt p q i
    · simp only [if_pos hn1, if_pos hn2]
      rw [Function.update_of_ne (h1 hn2), Function.update_of_ne (h0 hn1)]
    · simp only [if_pos hn1, if_neg hn2]
      rw [Function.update_of_ne (h0 hn1)]
  · have hn2 : ¬2 ≤ pushCnt p q i := by omega
    simp only [if_neg hn1, if_neg hn2]

/-! ### Runs -/

/-- The credit of a cycle and what the cycle does with it. -/
structure CreditAt (p : Params) (q : FetchStage) (i : FetchIn) : Prop where
  credit : Credit q
  pops : bufPopCnt q i ≤ q.countQ
  pushes : pushCnt p q i ≤ 2
  free : ∀ k < q.countQ, ∀ n < pushCnt p q i, q.tailQ + BitVec.ofNat 3 n ≠ q.headQ + BitVec.ofNat 3 k
  kept : ∀ k < q.countQ, bufD p q i (q.headQ + BitVec.ofNat 3 k) = q.bufQ (q.headQ + BitVec.ofNat 3 k)

private theorem Credit.at (h : Credit q) (hp : Promised q i) : CreditAt p q i :=
  ⟨h, bufPopCnt_le hp, pushCnt_le p q i, fun _ hk _ hn => slot_free h hp hk hn, fun _ hk => live_kept h hp hk⟩

private theorem Credit.reset {boot : Word} (h : q.IsReset boot) : Credit q := by
  refine ⟨?_, ?_, ?_, ?_⟩
  · rw [h.count, h.inflight]
    omega
  · rw [h.stale]
    exact Nat.zero_le _
  · rw [h.inflight]
    omega
  · rw [h.tail, h.head, h.count]
    rfl

section Run

variable (p : Params) (q : FetchStage) (inp : Nat → FetchIn)

/-- `fetch_stage` before cycle `t`. -/
abbrev fetchAt (t : Nat) : FetchStage := trace (FetchStage.next p) q inp t

/-- The reads the I-mem has accepted before cycle `t`. -/
def accepted (t : Nat) : Nat := Nat.count (fun u => launch p (fetchAt p q inp u) (inp u) = true) t

/-- The responses fetch has taken before cycle `t`. -/
def answered (t : Nat) : Nat := Nat.count (fun u => rspCap (fetchAt p q inp u) (inp u) = true) t

/-- An in-order I-mem: it is ready and answers when it likes, but it answers only reads it has accepted, and a read is
accepted at the edge that ends its cycle. -/
def Answers : Prop := ∀ t, (inp t).imemRsp.rvalid = true → answered p q inp t < accepted p q inp t

/-- Decode pops two entries only if the entry behind the head is valid. -/
def PopsValid : Prop := ∀ t, (inp t).pop2 = true → (fetchAt p q inp t).feNextValid = true

variable {p q inp}

/-- The in-flight count is what has been accepted and not answered. -/
private theorem credit_run {boot : Word} (hq : q.IsReset boot) (ha : Answers p q inp)
    (hpop : PopsValid p q inp) (t : Nat) :
    Credit (fetchAt p q inp t) ∧ (fetchAt p q inp t).inflightQ + answered p q inp t = accepted p q inp t := by
  induction t with
  | zero => exact ⟨Credit.reset hq, hq.inflight⟩
  | succ t ih =>
    obtain ⟨hc, hbal⟩ := ih
    have hp : Promised (fetchAt p q inp t) (inp t) := ⟨fun hv => by have := ha t hv; omega, hpop t⟩
    have hnext := (inflight_next (p := p) hc hp).1
    refine ⟨hc.next hp, ?_⟩
    have hacc : accepted p q inp (t + 1) = accepted p q inp t + (launch p (fetchAt p q inp t) (inp t)).toNat := by
      unfold accepted
      rw [Nat.count_succ]
      cases launch p (fetchAt p q inp t) (inp t) <;> rfl
    have hans : answered p q inp (t + 1) = answered p q inp t + (rspCap (fetchAt p q inp t) (inp t)).toNat := by
      unfold answered
      rw [Nat.count_succ]
      cases rspCap (fetchAt p q inp t) (inp t) <;> rfl
    rw [hacc, hans]
    change (FetchStage.next p (fetchAt p q inp t) (inp t)).inflightQ + _ = _
    omega

end Run

/-- The responses still owed for new reads, behind the one of this cycle. -/
def owed (q : FetchStage) (i : FetchIn) : Nat := q.inflightQ - q.staleQ - (doRsp q i).toNat

end FetchStage

/-! ### Over a `native_ram` -/

/-- Fetch with a `native_ram` behind its port. -/
structure FetchRam where
  fetch : FetchStage
  ram : NativeRam 64

namespace FetchRam

open Clocked FetchStage

/-- A 64-bit RAM with two responses outstanding. -/
abbrev ramParams (addrW : Nat) (readOnly : Bool) : RamParams := ⟨addrW, 64, readOnly, 2⟩

variable (p : Params) (addrW : Nat) (readOnly : Bool) (s : FetchRam) (i : FetchIn)

/-- The request at the port of the RAM; fetch does not look at a response to make it. -/
def ramIn : RamReq 64 :=
  { valid := (imemReq p s.fetch i).valid, we := false, addr := (imemReq p s.fetch i).addr, wdata := 0, wstrb := 0,
    rready := (imemReq p s.fetch i).rready }

/-- What the RAM answers. -/
def rsp : IfetchRsp where
  ready := NativeRam.rspWready (ramParams addrW readOnly) s.ram (s.ramIn p i)
  rvalid := NativeRam.rspRvalid (ramParams addrW readOnly) s.ram
  rdata := NativeRam.rspRdata (ramParams addrW readOnly) s.ram

/-- The inputs of fetch: those of the pipeline, and the response of the RAM. -/
def fetchIn : FetchIn := { i with imemRsp := s.rsp p addrW readOnly i }

/-- One clock edge. -/
def next : FetchRam where
  fetch := s.fetch.next p (s.fetchIn p addrW readOnly i)
  ram := NativeRam.next (ramParams addrW readOnly) s.ram (s.ramIn p i)

/-- Each read lands in the next cycle and is taken there. -/
structure Paced (s : FetchRam) : Prop where
  credit : Credit s.fetch
  skid : s.ram.countQ = 0
  inflight : s.fetch.inflightQ = s.ram.rifQ.toNat
  stale : s.fetch.staleQ = 0

variable {p addrW readOnly s i}

private theorem Paced.rready (h : Paced s) (hr : s.ram.rifQ = true) : s.fetch.rready = true := by
  have hroom := h.credit.room
  rw [h.inflight, hr, Bool.toNat_true] at hroom
  unfold FetchStage.rready
  rw [decide_eq_true (by omega), Bool.or_true]

private theorem Paced.drained (h : Paced s) : NativeRam.Drained s.ram (s.ramIn p i) := ⟨h.skid, h.rready⟩

private theorem Paced.wready (h : Paced s) :
    NativeRam.rspWready (ramParams addrW readOnly) s.ram (s.ramIn p i) = true := h.drained.wready Nat.two_pos

private theorem Paced.rvalid (h : Paced s) : (s.fetchIn p addrW readOnly i).imemRsp.rvalid = s.ram.rifQ :=
  NativeRam.rspRvalid_empty (c := ramParams addrW readOnly) h.skid

/-- A response comes in the cycle in which a read lands. -/
private theorem Paced.rspCap (h : Paced s) :
    FetchStage.rspCap s.fetch (s.fetchIn p addrW readOnly i) = s.ram.rifQ := by
  unfold FetchStage.rspCap
  rw [h.rvalid]
  cases hr : s.ram.rifQ with
  | false => rfl
  | true => rw [h.rready hr, Bool.and_self]

private theorem Paced.promised (h : Paced s) (hpop : i.pop2 = true → s.fetch.feNextValid = true) :
    Promised s.fetch (s.fetchIn p addrW readOnly i) := by
  refine ⟨fun hv => ?_, hpop⟩
  rw [h.rvalid] at hv
  rw [h.inflight, hv]
  exact Nat.one_pos

private theorem Paced.next (h : Paced s) (hpop : i.pop2 = true → s.fetch.feNextValid = true) :
    Paced (s.next p addrW readOnly i) := by
  have hp : Promised s.fetch (s.fetchIn p addrW readOnly i) := h.promised hpop
  obtain ⟨hnext, -⟩ := inflight_next (p := p) h.credit hp
  have hcap : FetchStage.rspCap s.fetch (s.fetchIn p addrW readOnly i) = s.ram.rifQ := h.rspCap
  have hlaunch : launch p s.fetch (s.fetchIn p addrW readOnly i) =
      NativeRam.launchRead (ramParams addrW readOnly) s.ram (s.ramIn p i) := by
    have hready : (s.fetchIn p addrW readOnly i).imemRsp.ready = true := h.wready
    unfold launch NativeRam.launchRead NativeRam.launchHs
    rw [hready, h.wready]
    exact (Bool.and_true _).symm
  refine ⟨h.credit.next hp, NativeRam.Drained.newCount (c := ramParams addrW readOnly) h.drained, ?_, ?_⟩
  · rw [hcap, h.inflight, hlaunch] at hnext
    change (FetchStage.next p s.fetch (s.fetchIn p addrW readOnly i)).inflightQ = (NativeRam.launchRead _ _ _).toNat
    omega
  · change staleD s.fetch (s.fetchIn p addrW readOnly i) = 0
    unfold staleD
    rw [h.stale, hcap, h.inflight]
    cases redirect (s.fetchIn p addrW readOnly i) with
    | true =>
      rw [if_pos rfl]
      cases s.ram.rifQ <;> rfl
    | false =>
      rw [if_neg Bool.false_ne_true]
      cases s.ram.rifQ <;> rfl

/-- Nothing is owed behind the response of a cycle. -/
private theorem Paced.owed (h : Paced s) : FetchStage.owed s.fetch (s.fetchIn p addrW readOnly i) = 0 := by
  unfold FetchStage.owed doRsp
  rw [h.rspCap, h.stale, h.inflight]
  cases s.ram.rifQ <;> rfl

variable (p addrW readOnly s) in
/-- Fetch and RAM before cycle `t`. -/
abbrev fetchRamAt (inp : Nat → FetchIn) (t : Nat) : FetchRam := trace (next p addrW readOnly) s inp t

private theorem Paced.run (h : Paced s) {inp : Nat → FetchIn}
    (hpop : ∀ t, (inp t).pop2 = true → (fetchRamAt p addrW readOnly s inp t).fetch.feNextValid = true) (t : Nat) :
    Paced (fetchRamAt p addrW readOnly s inp t) := by
  induction t with
  | zero => exact h
  | succ t ih => exact ih.next (hpop t)

end FetchRam

open FetchStage FetchRam in
/-- From reset, over an I-mem that answers accepted reads only, and under any stalls, redirects and valid pops, the
credit holds in every cycle.  Over a `native_ram` with two responses outstanding no launch moreover takes `req_pc_q`
from a read that is not stale. -/
theorem fetch_credit (p : Params) {boot : Word} {q : FetchStage} (hq : q.IsReset boot) :
    (∀ inp, Answers p q inp → PopsValid p q inp → ∀ t, CreditAt p (fetchAt p q inp t) (inp t)) ∧
      ∀ addrW readOnly (r : NativeRam 64), r.IsReset → ∀ inp : Nat → FetchIn,
        (∀ t, (inp t).pop2 = true → (fetchRamAt p addrW readOnly ⟨q, r⟩ inp t).fetch.feNextValid = true) →
          ∀ t s i, s = fetchRamAt p addrW readOnly ⟨q, r⟩ inp t → i = s.fetchIn p addrW readOnly (inp t) →
            CreditAt p s.fetch i ∧ (launch p s.fetch i = true → owed s.fetch i = 0) := by
  constructor
  · intro inp ha hpop t
    obtain ⟨hc, hbal⟩ := credit_run hq ha hpop t
    exact hc.at ⟨fun hv => by have := ha t hv; omega, hpop t⟩
  · rintro addrW readOnly r hr inp hpop t s i rfl rfl
    have h0 : Paced ⟨q, r⟩ := by
      refine ⟨Credit.reset hq, hr.count, ?_, hq.stale⟩
      rw [hq.inflight, hr.rif]
      rfl
    have h := h0.run hpop t
    exact ⟨h.credit.at (h.promised (hpop t)), fun _ => h.owed⟩

/-- Fetch out of reset, over an I-mem that answers the first read at once, and over a RAM. -/
theorem fetch_credit_boot :
    let q : FetchStage := ⟨0, 0, 0, 0, false, fun _ => ⟨0, 0, false, false, false, 0⟩, 0, 0, 0⟩
    let i : FetchIn := ⟨false, false, 0, false, 0, ⟨true, false, 0⟩, ⟨0, false, false, false, false⟩, false⟩
    let inp : Nat → FetchIn := fun t => { i with imemRsp := ⟨true, t == 1, 0⟩ }
    let s := FetchRam.fetchRamAt .pkg 14 true ⟨q, ⟨fun _ => 0, false, 0, 0, fun _ => 0⟩⟩ (fun _ => i) 7
    FetchStage.CreditAt .pkg (FetchStage.fetchAt .pkg q inp 2) (inp 2) ∧
      (FetchStage.launch .pkg s.fetch (s.fetchIn .pkg 14 true i) = true →
        FetchStage.owed s.fetch (s.fetchIn .pkg 14 true i) = 0) := by
  intro q i inp s
  have hq : q.IsReset 0 := ⟨rfl, rfl, rfl, rfl, rfl, rfl, rfl, rfl⟩
  obtain ⟨hany, hram⟩ := fetch_credit .pkg hq
  constructor
  · refine hany inp (fun t hv => ?_) (fun t hv => by cases hv) 2
    have ht : t = 1 := beq_iff_eq.mp hv
    rw [ht]
    decide +kernel
  · exact (hram 14 true _ ⟨rfl, rfl, rfl⟩ (fun _ => i) (fun t hv => by cases hv) 7 s _ rfl rfl).2

end Yarv
