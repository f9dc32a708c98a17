import Yarv.Bus.Xbar
import Yarv.Lib.Clocked

/-!
# Routing through the crossbar

`WrTrack` and `RdTrack` follow the one write and the one read a single-outstanding master has open, from the beats the
master itself sees.  The latches of the crossbar hold what the trackers say, so every valid, ready and response of an
open transaction goes to the windows its address matches, and to the terminator when there is none.

The documented rule is the lowest-numbered window that contains the address (`lowest`).  The comparators carry no
priority and end a window at a 32-bit sum: they follow the rule exactly for the addresses that are `Plain`.
-/

namespace Yarv

open Clocked

/-! ### The decode rule -/

namespace XbarParams

variable (x : XbarParams) (a : Word) (k : Fin x.n)

/-- The window contains the address, as integers. -/
def Covers : Prop := (x.base k).toNat ≤ a.toNat ∧ a.toNat < (x.base k).toNat + (x.size k).toNat

instance : Decidable (x.Covers a k) := inferInstanceAs (Decidable (_ ∧ _))

/-- The target of an address: the lowest-numbered window that contains it. -/
def lowest : Option (Fin x.n) := (List.finRange x.n).find? fun k => decide (x.Covers a k)

/-- The comparators find the target of the address: of the windows that contain it, the lowest-numbered one, and it
alone, ends below `2 ^ 32`. -/
def Plain : Prop :=
  ∀ k, x.Covers a k → ((x.base k).toNat + (x.size k).toNat < 2 ^ 32 ↔ x.lowest a = some k)

end XbarParams

namespace Xbar

variable {x : XbarParams} {a : Word}

/-- A comparator of the source finds the address when the window contains it and ends below `2 ^ 32`. -/
theorem winMatch_iff (a : Word) (k : Fin x.n) :
    winMatch x a k = true ↔ x.Covers a k ∧ (x.base k).toNat + (x.size k).toNat < 2 ^ 32 := by
  have ha := a.isLt
  have hb := (x.base k).isLt
  have hs := (x.size k).isLt
  simp only [winMatch, XbarParams.Covers, Bool.and_eq_true, decide_eq_true_eq, BitVec.le_def, BitVec.lt_def,
    BitVec.toNat_add]
  by_cases hw : (x.base k).toNat + (x.size k).toNat < 2 ^ 32
  · rw [Nat.mod_eq_of_lt hw]
    exact ⟨fun h => ⟨h, hw⟩, fun h => h.1⟩
  · have hm : ((x.base k).toNat + (x.size k).toNat) % 2 ^ 32 =
        (x.base k).toNat + (x.size k).toNat - 2 ^ 32 := by omega
    rw [hm]
    constructor
    · rintro ⟨h1, h2⟩
      omega
    · rintro ⟨-, h⟩
      exact absurd h hw

theorem covers_of_lowest {k : Fin x.n} (h : x.lowest a = some k) : x.Covers a k := by
  have := List.find?_some h
  simpa using this

/-- The comparators are one-hot on the target exactly at plain addresses. -/
private theorem plain_iff : x.Plain a ↔ ∀ k, winMatch x a k = decide (x.lowest a = some k) := by
  constructor
  · intro h k
    rw [Bool.eq_iff_iff, winMatch_iff, decide_eq_true_iff]
    constructor
    · rintro ⟨hc, hf⟩
      exact (h k hc).mp hf
    · intro hl
      have hc := covers_of_lowest hl
      exact ⟨hc, (h k hc).mpr hl⟩
  · intro h k hc
    have hk := h k
    rw [Bool.eq_iff_iff, winMatch_iff, decide_eq_true_iff] at hk
    rw [← hk]
    exact ⟨fun hf => ⟨hc, hf⟩, fun hf => hf.2⟩

/-! ### Reductions over a one-hot vector -/

section OneHot

variable {n : Nat} {v : Fin n → Bool} {t : Option (Fin n)}

private theorem orReduce_iff (v : Fin n → Bool) : orReduce v = true ↔ ∃ k, v k = true := by
  simp [orReduce]

/-- The reduction of a one-hot vector. -/
theorem orReduce_isSome (h : ∀ k, v k = decide (t = some k)) : orReduce v = t.isSome := by
  rw [Bool.eq_iff_iff, orReduce_iff]
  cases t with
  | none => simp [h]
  | some k => exact ⟨fun _ => rfl, fun _ => ⟨k, by simp [h]⟩⟩

/-- A reduction gated by a one-hot vector reads the selected entry. -/
theorem orReduce_and {k : Fin n} (h : ∀ j, v j = decide (some k = some j)) (y : Fin n → Bool) :
    (orReduce fun j => v j && y j) = y k := by
  rw [Bool.eq_iff_iff, orReduce_iff]
  constructor
  · rintro ⟨j, hj⟩
    simp only [h, Option.some.injEq, Bool.and_eq_true, decide_eq_true_eq] at hj
    rw [hj.1]
    exact hj.2
  · intro hy
    exact ⟨k, by simp [h, hy]⟩

/-- The mux behind a one-hot vector reads the selected entry. -/
theorem select_eq {α : Type} {k : Fin n} (h : ∀ j, v j = decide (some k = some j)) (y : Fin n → α) (d : α) :
    select v y d = y k := by
  have hfold : ∀ l : List (Fin n), ∀ r : α,
      l.foldl (fun r j => if v j then y j else r) r = if k ∈ l then y k else r := by
    intro l
    induction l with
    | nil => simp
    | cons j l ih =>
      intro r
      rw [List.foldl_cons, ih]
      by_cases hj : k = j
      · subst hj
        simp [h]
      · simp [h, hj, List.mem_cons]
  rw [select, hfold]
  simp

end OneHot

end Xbar

/-! ### A single-outstanding master -/

/-- The open write of a master: its address and which of its beats have been exchanged. -/
structure WrTrack where
  busy : Bool
  addr : Word
  aw : Bool
  w : Bool

namespace WrTrack

/-- No write is open. -/
def idle : WrTrack := ⟨false, 0, false, false⟩

/-- The address of the write that is open or opens in this cycle. -/
def cur (g : WrTrack) (m : AxiM) : Word := if g.busy then g.addr else m.awaddr

/-- The rules of a single-outstanding master: an AW stays up until it is taken, W comes with or behind the AW of its
write and once, and nothing of the next write comes before the response. -/
structure Ok (g : WrTrack) (m : AxiM) : Prop where
  aw : g.busy = true → m.awvalid = !g.aw
  addr : g.busy = true → g.aw = false → m.awaddr = g.addr
  w : g.w = true → m.wvalid = false
  first : g.busy = false → m.wvalid = true → m.awvalid = true

def next (g : WrTrack) (m : AxiM) (s : AxiS) : WrTrack :=
  if Axi.bHs m s then idle
  else if g.busy || m.awvalid then ⟨true, g.cur m, g.aw || Axi.awHs m s, g.w || Axi.wHs m s⟩
  else idle

end WrTrack

/-- The open read of a master. -/
structure RdTrack where
  busy : Bool
  addr : Word
  ar : Bool

namespace RdTrack

/-- No read is open. -/
def idle : RdTrack := ⟨false, 0, false⟩

/-- The address of the read that is open or opens in this cycle. -/
def cur (g : RdTrack) (m : AxiM) : Word := if g.busy then g.addr else m.araddr

/-- An AR stays up until it is taken, and the next one comes behind the response. -/
structure Ok (g : RdTrack) (m : AxiM) : Prop where
  ar : g.busy = true → m.arvalid = !g.ar
  addr : g.busy = true → g.ar = false → m.araddr = g.addr

def next (g : RdTrack) (m : AxiM) (s : AxiS) : RdTrack :=
  if Axi.rHs m s then idle
  else if g.busy || m.arvalid then ⟨true, g.cur m, g.ar || Axi.arHs m s⟩
  else idle

end RdTrack

namespace Xbar

variable {x : XbarParams}

/-- No window matches the address. -/
def missed (x : XbarParams) (a : Word) : Bool := !orReduce (winMatch x a)

/-- The write latches hold the open write. -/
structure WrInv (x : XbarParams) (g : WrTrack) (q : Xbar x.n) : Prop where
  fresh : g.busy = false → g.aw = false ∧ g.w = false
  first : g.busy = true → missed x g.addr = true → g.aw = true
  busy : q.wrBusyQ = g.aw
  latch : g.aw = true → q.wrMatchQ = winMatch x g.addr ∧ q.wrErrQ = missed x g.addr
  awSeen : q.errAwSeenQ = (g.aw && missed x g.addr && !g.w)
  wSeen : q.errWSeenQ = false
  bvalid : q.errBvalidQ = (g.aw && missed x g.addr && g.w)

/-- The read latches hold the open read. -/
structure RdInv (x : XbarParams) (g : RdTrack) (q : Xbar x.n) : Prop where
  fresh : g.busy = false → g.ar = false
  busy : q.rdBusyQ = g.ar
  latch : g.ar = true → q.rdMatchQ = winMatch x g.addr ∧ q.rdErrQ = missed x g.addr
  rvalid : q.errRvalidQ = (g.ar && missed x g.addr)

section Step

variable {q : Xbar x.n} {i : XbarIn x.n} {g : WrTrack} {r : RdTrack}

/-- The address the live comparators decode is that of the open write, until its AW is taken. -/
private theorem cur_of_live (hg : g.Ok i.m) (h : g.aw = false) : i.m.awaddr = g.cur i.m := by
  unfold WrTrack.cur
  split
  · next hb => exact hg.addr hb h
  · rfl

private theorem WrInv.next_latched (h : WrInv x g q) (hg : g.Ok i.m) (ha : g.aw = true) :
    WrInv x (g.next i.m (toMaster x q i)) (q.next x i) := by
  have hbusy : g.busy = true := by
    cases hb : g.busy with
    | true => rfl
    | false => rw [(h.fresh hb).1] at ha; exact absurd ha (by decide)
  have hq : q.wrBusyQ = true := h.busy.trans ha
  have hav : i.m.awvalid = false := by rw [hg.aw hbusy, ha]; rfl
  obtain ⟨hm, he⟩ := h.latch ha
  have h1 : awHs x q i = false := by simp [awHs, Axi.awHs, hav]
  have h1' : Axi.awHs i.m (toMaster x q i) = false := h1
  have hsame : wrEffErr x q i = missed x g.addr := by rw [wrEffErr, hq, if_pos rfl, he]
  have hs1 := h.awSeen
  have hs2 := h.wSeen
  have hs3 := h.bvalid
  -- The write goes on with its W beat, the terminator answers once it has both.
  have hdo : errDoWrite x q i = (missed x g.addr && !g.w && Axi.wHs i.m (toMaster x q i)) := by
    rw [errDoWrite, errAwHs, h1, errWHs, hsame, hs1, hs2, hs3, ha]
    cases missed x g.addr <;> cases g.w <;> simp
  cases hB : Axi.bHs i.m (toMaster x q i) with
  | true =>
    have hB' : bHs x q i = true := hB
    have hn : g.next i.m (toMaster x q i) = .idle := by rw [WrTrack.next, hB, if_pos rfl]
    -- A response of the terminator comes behind the W beat.
    have hw : missed x g.addr = true → g.w = true := by
      intro hmiss
      have hbv : (toMaster x q i).bvalid = true := by
        simp only [Axi.bHs, Bool.and_eq_true] at hB
        exact hB.1
      simp only [toMaster, hq, he, hmiss, Bool.not_true, Bool.and_false, Bool.false_eq_true, if_false, if_true, hs3,
        ha, Bool.true_and] at hbv
      exact hbv
    rw [hn]
    constructor
    · exact fun _ => ⟨rfl, rfl⟩
    · exact fun hb => absurd hb Bool.false_ne_true
    · simp [next, h1, hB', WrTrack.idle]
    · exact fun hb => absurd hb Bool.false_ne_true
    · simp only [next, hdo, hs1, errAwHs, h1, ha, WrTrack.idle]
      cases hmiss : missed x g.addr <;> simp
      simp [hw hmiss]
    · simp only [next, hs2, errWHs, hsame]
      cases hmiss : missed x g.addr <;> simp [hdo, hmiss]
      have := hg.w (hw hmiss)
      simp [hw hmiss, Axi.wHs, this]
    · simp only [next, errBHs, hB', hq, he, hdo, hs3, WrTrack.idle]
      cases hmiss : missed x g.addr <;> simp
  | false =>
    have hB' : bHs x q i = false := hB
    have hn : g.next i.m (toMaster x q i) = ⟨true, g.addr, true, g.w || Axi.wHs i.m (toMaster x q i)⟩ := by
      rw [WrTrack.next, hB, if_neg (by decide), hbusy, Bool.true_or, if_pos rfl, WrTrack.cur, hbusy,
        if_pos rfl, ha, h1']
      rfl
    rw [hn]
    constructor
    · exact fun hb => Bool.noConfusion hb
    · exact fun _ _ => rfl
    · simp [next, h1, hB', hq]
    · exact fun _ => ⟨by simp [next, h1, hm], by simp [next, h1, he]⟩
    · simp only [next, hdo, hs1, errAwHs, h1, ha]
      cases missed x g.addr <;> cases g.w <;> simp
    · have hww : g.w = true → Axi.wHs i.m (toMaster x q i) = false := fun hw => by simp [Axi.wHs, hg.w hw]
      simp only [next, hs2, errWHs, hsame, hdo]
      cases missed x g.addr <;> cases hw : g.w <;> cases hW : Axi.wHs i.m (toMaster x q i) <;> simp
      rw [hww hw] at hW
      exact absurd hW (by decide)
    · simp only [next, errBHs, hB', hdo, hs3, ha]
      cases missed x g.addr <;> cases g.w <;> simp

private theorem WrInv.next_live (h : WrInv x g q) (hg : g.Ok i.m) (ha : g.aw = false) :
    WrInv x (g.next i.m (toMaster x q i)) (q.next x i) := by
  have hq : q.wrBusyQ = false := h.busy.trans ha
  have hs1 := h.awSeen
  have hs2 := h.wSeen
  have hs3 := h.bvalid
  rw [ha, Bool.false_and, Bool.false_and] at hs1 hs3
  have hB : Axi.bHs i.m (toMaster x q i) = false := by simp [Axi.bHs, toMaster, hq]
  have hB' : bHs x q i = false := hB
  have haddr := cur_of_live hg ha
  have hlive : wrMatch x i = winMatch x (g.cur i.m) := by rw [wrMatch, haddr]
  have herr : wrLiveErr x i = missed x (g.cur i.m) := by rw [wrLiveErr, hlive]; rfl
  have heff : wrEffErr x q i = missed x (g.cur i.m) := by rw [wrEffErr, hq, if_neg (by decide), herr]
  cases hav : i.m.awvalid with
  | false =>
    have hbusy : g.busy = false := by
      cases hb : g.busy with
      | false => rfl
      | true =>
        have := hg.aw hb
        rw [hav, ha] at this
        exact absurd this (by decide)
    have hwv : i.m.wvalid = false := by
      cases hw : i.m.wvalid with
      | false => rfl
      | true => rw [hg.first hbusy hw] at hav; exact absurd hav (by decide)
    have h1 : awHs x q i = false := by simp [awHs, Axi.awHs, hav]
    have hn : g.next i.m (toMaster x q i) = .idle := by
      rw [WrTrack.next, hB, if_neg (by decide), hbusy, hav]
      rfl
    rw [hn]
    constructor
    · exact fun _ => ⟨rfl, rfl⟩
    · exact fun hb => absurd hb Bool.false_ne_true
    · simp [next, h1, hB', hq, WrTrack.idle]
    · exact fun hb => absurd hb Bool.false_ne_true
    · simp [next, errDoWrite, errAwHs, h1, hs1, WrTrack.idle]
    · simp [next, errDoWrite, errAwHs, errWHs, Axi.wHs, hwv, h1, hs1, hs2]
    · simp [next, errDoWrite, errAwHs, errBHs, h1, hB', hs1, hs3, WrTrack.idle]
  | true =>
    have hn : g.next i.m (toMaster x q i) =
        ⟨true, g.cur i.m, Axi.awHs i.m (toMaster x q i), g.w || Axi.wHs i.m (toMaster x q i)⟩ := by
      rw [WrTrack.next, hB, if_neg (by decide), hav, Bool.or_true, if_pos rfl, ha, Bool.false_or]
    cases hmiss : missed x (g.cur i.m) with
    | true =>
      -- The terminator takes AW at once.
      have hbusy : g.busy = false := by
        cases hb : g.busy with
        | false => rfl
        | true =>
          rw [WrTrack.cur, hb, if_pos rfl] at hmiss
          rw [h.first hb hmiss] at ha
          exact absurd ha (by decide)
      have hgw := (h.fresh hbusy).2
      have h1 : awHs x q i = true := by
        simp [awHs, Axi.awHs, toMaster, awGo, hq, hav, herr, hmiss, errAwready, hs1, hs3]
      have h1' : Axi.awHs i.m (toMaster x q i) = true := h1
      have hdo : errDoWrite x q i = Axi.wHs i.m (toMaster x q i) := by
        simp [errDoWrite, errAwHs, errWHs, h1, herr, heff, hmiss, hs1, hs2, hs3]
      rw [hn, h1']
      constructor
      · exact fun hb => Bool.noConfusion hb
      · exact fun _ _ => rfl
      · simp [next, h1]
      · exact fun _ => ⟨by simp [next, h1, hlive], by simp [next, h1, herr]⟩
      · simp [next, hdo, errAwHs, h1, hs1, herr, hmiss, hgw]
      · cases hW : Axi.wHs i.m (toMaster x q i) <;> simp [next, hdo, errWHs, hs2, hW]
      · simp [next, hdo, errBHs, hB', hs3, hmiss, hgw]
    | false =>
      have h2 : errDoWrite x q i = false := by simp [errDoWrite, errAwHs, herr, hmiss, hs1]
      rw [hn]
      constructor
      · exact fun hb => Bool.noConfusion hb
      · exact fun _ hm => by rw [hmiss] at hm; exact Bool.noConfusion hm
      · cases hh : Axi.awHs i.m (toMaster x q i) <;> simp [next, hB', hq, awHs, hh]
      · intro hh
        have hh' : awHs x q i = true := hh
        exact ⟨by simp [next, hh', hlive], by simp [next, hh', herr]⟩
      · simp [next, h2, errAwHs, herr, hmiss, hs1]
      · simp [next, h2, errWHs, heff, hmiss, hs2]
      · simp [next, h2, errBHs, hB', hs3, hmiss]

private theorem RdInv.next (h : RdInv x r q) (hr : r.Ok i.m) :
    RdInv x (r.next i.m (toMaster x q i)) (q.next x i) := by
  cases ha : r.ar with
  | true =>
    have hbusy : r.busy = true := by
      cases hb : r.busy with
      | true => rfl
      | false => rw [h.fresh hb] at ha; exact absurd ha (by decide)
    have hq : q.rdBusyQ = true := h.busy.trans ha
    have hav : i.m.arvalid = false := by rw [hr.ar hbusy, ha]; rfl
    obtain ⟨hm, he⟩ := h.latch ha
    have h1 : arHs x q i = false := by simp [arHs, Axi.arHs, hav]
    have h1' : Axi.arHs i.m (toMaster x q i) = false := h1
    have hv := h.rvalid
    rw [ha, Bool.true_and] at hv
    cases hR : Axi.rHs i.m (toMaster x q i) with
    | true =>
      have hR' : rHs x q i = true := hR
      have hn : r.next i.m (toMaster x q i) = .idle := by rw [RdTrack.next, hR, if_pos rfl]
      rw [hn]
      constructor
      · exact fun _ => rfl
      · simp [Xbar.next, h1, hR', RdTrack.idle]
      · exact fun hb => absurd hb Bool.false_ne_true
      · simp only [Xbar.next, errArHs, errRHs, h1, hR', hq, he, hv, RdTrack.idle]
        cases missed x r.addr <;> simp
    | false =>
      have hR' : rHs x q i = false := hR
      have hn : r.next i.m (toMaster x q i) = ⟨true, r.addr, true⟩ := by
        rw [RdTrack.next, hR, if_neg (by decide), hbusy, Bool.true_or, if_pos rfl, RdTrack.cur, hbusy, if_pos rfl, ha,
          h1']
        rfl
      rw [hn]
      constructor
      · exact fun hb => Bool.noConfusion hb
      · simp [Xbar.next, h1, hR', hq]
      · exact fun _ => ⟨by simp [Xbar.next, h1, hm], by simp [Xbar.next, h1, he]⟩
      · simp [Xbar.next, errArHs, errRHs, h1, hR', hv]
  | false =>
    have hq : q.rdBusyQ = false := h.busy.trans ha
    have hv := h.rvalid
    rw [ha, Bool.false_and] at hv
    have hR : Axi.rHs i.m (toMaster x q i) = false := by simp [Axi.rHs, toMaster, hq]
    have hR' : rHs x q i = false := hR
    have haddr : i.m.araddr = r.cur i.m := by
      unfold RdTrack.cur
      split
      · next hb => exact hr.addr hb ha
      · rfl
    have hlive : rdMatch x i = winMatch x (r.cur i.m) := by rw [rdMatch, haddr]
    have herr : rdLiveErr x i = missed x (r.cur i.m) := by rw [rdLiveErr, hlive]; rfl
    cases hav : i.m.arvalid with
    | false =>
      have h1 : arHs x q i = false := by simp [arHs, Axi.arHs, hav]
      have hbusy : r.busy = false := by
        cases hb : r.busy with
        | false => rfl
        | true =>
          have := hr.ar hb
          rw [hav, ha] at this
          exact absurd this (by decide)
      have hn : r.next i.m (toMaster x q i) = .idle := by
        rw [RdTrack.next, hR, if_neg (by decide), hbusy, hav]
        rfl
      rw [hn]
      constructor
      · exact fun _ => rfl
      · simp [Xbar.next, h1, hR', hq, RdTrack.idle]
      · exact fun hb => absurd hb Bool.false_ne_true
      · simp [Xbar.next, errArHs, errRHs, h1, hR', hv, RdTrack.idle]
    | true =>
      have hn : r.next i.m (toMaster x q i) = ⟨true, r.cur i.m, Axi.arHs i.m (toMaster x q i)⟩ := by
        rw [RdTrack.next, hR, if_neg (by decide), hav, Bool.or_true, if_pos rfl, ha, Bool.false_or]
      rw [hn]
      constructor
      · exact fun hb => Bool.noConfusion hb
      · cases hh : Axi.arHs i.m (toMaster x q i) <;> simp [Xbar.next, hR', hq, arHs, hh]
      · intro hh
        have hh' : arHs x q i = true := hh
        exact ⟨by simp [Xbar.next, hh', hlive], by simp [Xbar.next, hh', herr]⟩
      · cases hh : Axi.arHs i.m (toMaster x q i) <;> simp [Xbar.next, errArHs, errRHs, arHs, hR', hh, herr, hv]

private theorem WrInv.next (h : WrInv x g q) (hg : g.Ok i.m) :
    WrInv x (g.next i.m (toMaster x q i)) (q.next x i) := by
  cases ha : g.aw with
  | true => exact h.next_latched hg ha
  | false => exact h.next_live hg ha

end Step

/-! ### Routing -/

/-- The write channels of a cycle go between the master and the target `t`; without a target the terminator answers:
it takes both beats and responds with DECERR behind them. -/
structure WrRouted (x : XbarParams) (q : Xbar x.n) (i : XbarIn x.n) (g : WrTrack) (t : Option (Fin x.n)) : Prop where
  payload : ∀ k, (toTarget x q i k).awaddr = i.m.awaddr ∧ (toTarget x q i k).wdata = i.m.wdata ∧
    (toTarget x q i k).wstrb = i.m.wstrb
  awvalid : ∀ k, (toTarget x q i k).awvalid = (i.m.awvalid && decide (t = some k))
  wvalid : ∀ k, (toTarget x q i k).wvalid = (i.m.wvalid && decide (t = some k))
  bready : ∀ k, (toTarget x q i k).bready = (g.aw && i.m.bready && decide (t = some k))
  awready : (toMaster x q i).awready = (i.m.awvalid && t.elim true fun k => (i.tgt k).awready)
  wready : (toMaster x q i).wready = (i.m.wvalid && t.elim true fun k => (i.tgt k).wready)
  bvalid : (toMaster x q i).bvalid = (g.aw && t.elim g.w fun k => (i.tgt k).bvalid)
  bresp : g.aw = true → (toMaster x q i).bresp = t.elim respDecerr fun k => (i.tgt k).bresp

/-- The read channels of a cycle go between the master and the target `t`; without a target the terminator answers
with DECERR and zero. -/
structure RdRouted (x : XbarParams) (q : Xbar x.n) (i : XbarIn x.n) (g : RdTrack) (t : Option (Fin x.n)) : Prop where
  payload : ∀ k, (toTarget x q i k).araddr = i.m.araddr
  arvalid : ∀ k, (toTarget x q i k).arvalid = (i.m.arvalid && decide (t = some k))
  rready : ∀ k, (toTarget x q i k).rready = (g.ar && i.m.rready && decide (t = some k))
  arready : (toMaster x q i).arready = (i.m.arvalid && t.elim true fun k => (i.tgt k).arready)
  rvalid : (toMaster x q i).rvalid = (g.ar && t.elim true fun k => (i.tgt k).rvalid)
  rresp : g.ar = true → (toMaster x q i).rresp = t.elim respDecerr fun k => (i.tgt k).rresp
  rdata : g.ar = true → (toMaster x q i).rdata = t.elim 0 fun k => (i.tgt k).rdata

section Routing

variable {q : Xbar x.n} {i : XbarIn x.n} {g : WrTrack} {r : RdTrack}

/-- At a plain address the comparators find the lowest window or nothing. -/
private theorem missed_of_plain {a : Word} (hp : x.Plain a) : missed x a = !(x.lowest a).isSome := by
  rw [missed, orReduce_isSome (plain_iff.mp hp)]

private theorem WrInv.routed (h : WrInv x g q) (hg : g.Ok i.m) (hp : x.Plain (g.cur i.m)) :
    WrRouted x q i g (x.lowest (g.cur i.m)) := by
  have hv := plain_iff.mp hp
  have hmiss := missed_of_plain hp
  cases ha : g.aw with
  | true =>
    have hbusy : g.busy = true := by
      cases hb : g.busy with
      | true => rfl
      | false => rw [(h.fresh hb).1] at ha; exact absurd ha (by decide)
    have hcur : g.cur i.m = g.addr := by rw [WrTrack.cur, hbusy, if_pos rfl]
    have hq : q.wrBusyQ = true := h.busy.trans ha
    have hav : i.m.awvalid = false := by rw [hg.aw hbusy, ha]; rfl
    obtain ⟨hm, he⟩ := h.latch ha
    rw [← hcur] at hm he
    have hbv := h.bvalid
    rw [ha, Bool.true_and, ← hcur, hmiss] at hbv
    rw [hmiss] at he
    have hwv : g.w = true → i.m.wvalid = false := hg.w
    have hvm : ∀ k, q.wrMatchQ k = decide (x.lowest (g.cur i.m) = some k) := fun k => by rw [hm, hv k]
    cases ht : x.lowest (g.cur i.m) with
    | none =>
      rw [ht] at hvm he hbv
      constructor
      · exact fun k => ⟨rfl, rfl, rfl⟩
      · exact fun k => by simp [toTarget, awGo, hav]
      · exact fun k => by simp [toTarget, wrEffMatch, hq, hvm]
      · exact fun k => by simp [toTarget, hvm]
      · simp [toMaster, awGo, hav]
      · simp only [toMaster, wrEffErr, hq, he, errWready, h.wSeen, hbv]
        cases hw : g.w <;> simp
        exact hwv hw
      · simp [toMaster, hq, he, hbv, ha]
      · simp [toMaster, he]
    | some k =>
      rw [ht] at hvm he hbv
      constructor
      · exact fun k => ⟨rfl, rfl, rfl⟩
      · exact fun k => by simp [toTarget, awGo, hav]
      · exact fun k => by simp [toTarget, wrEffMatch, hq, hvm]
      · exact fun k => by simp [toTarget, hq, he, hvm, ha, Bool.and_comm]
      · simp [toMaster, awGo, hav]
      · simp [toMaster, wrEffErr, wrEffMatch, hq, he, orReduce_and hvm]
      · simp [toMaster, hq, he, orReduce_and hvm, ha]
      · simp [toMaster, hq, he, select_eq hvm]
  | false =>
    have hq : q.wrBusyQ = false := h.busy.trans ha
    have hcur := cur_of_live hg ha
    have hvm : ∀ k, wrMatch x i k = decide (x.lowest (g.cur i.m) = some k) := fun k => by
      rw [wrMatch, hcur, hv k]
    have herr : wrLiveErr x i = !(x.lowest (g.cur i.m)).isSome := by
      rw [← hmiss, wrLiveErr, missed, wrMatch, hcur]
    have hs1 := h.awSeen
    have hs3 := h.bvalid
    rw [ha, Bool.false_and, Bool.false_and] at hs1 hs3
    cases ht : x.lowest (g.cur i.m) with
    | none =>
      rw [ht] at hvm herr
      constructor
      · exact fun k => ⟨rfl, rfl, rfl⟩
      · exact fun k => by simp [toTarget, hvm]
      · exact fun k => by simp [toTarget, wrEffMatch, hq, hvm]
      · exact fun k => by simp [toTarget, hq]
      · simp [toMaster, awGo, hq, herr, errAwready, hs1, hs3]
      · simp [toMaster, wrEffErr, hq, herr, errWready, h.wSeen, hs3]
      · simp [toMaster, hq, ha]
      · exact fun hb => absurd (ha.symm.trans hb) Bool.false_ne_true
    | some k =>
      rw [ht] at hvm herr
      constructor
      · exact fun k => ⟨rfl, rfl, rfl⟩
      · exact fun k => by simp [toTarget, awGo, hq, hvm]
      · exact fun k => by simp [toTarget, wrEffMatch, hq, hvm]
      · exact fun k => by simp [toTarget, hq, ha]
      · simp [toMaster, awGo, hq, herr, orReduce_and hvm]
      · simp [toMaster, wrEffErr, wrEffMatch, hq, herr, orReduce_and hvm]
      · simp [toMaster, hq, ha]
      · exact fun hb => absurd (ha.symm.trans hb) Bool.false_ne_true

private theorem RdInv.routed (h : RdInv x r q) (hr : r.Ok i.m) (hp : x.Plain (r.cur i.m)) :
    RdRouted x q i r (x.lowest (r.cur i.m)) := by
  have hv := plain_iff.mp hp
  have hmiss := missed_of_plain hp
  cases ha : r.ar with
  | true =>
    have hbusy : r.busy = true := by
      cases hb : r.busy with
      | true => rfl
      | false => rw [h.fresh hb] at ha; exact absurd ha (by decide)
    have hcur : r.cur i.m = r.addr := by rw [RdTrack.cur, hbusy, if_pos rfl]
    have hq : q.rdBusyQ = true := h.busy.trans ha
    have hav : i.m.arvalid = false := by rw [hr.ar hbusy, ha]; rfl
    obtain ⟨hm, he⟩ := h.latch ha
    rw [← hcur] at hm he
    have hrv := h.rvalid
    rw [ha, Bool.true_and, ← hcur, hmiss] at hrv
    rw [hmiss] at he
    have hvm : ∀ k, q.rdMatchQ k = decide (x.lowest (r.cur i.m) = some k) := fun k => by rw [hm, hv k]
    cases ht : x.lowest (r.cur i.m) with
    | none =>
      rw [ht] at hvm he hrv
      constructor
      · exact fun k => rfl
      · exact fun k => by simp [toTarget, arGo, hav]
      · exact fun k => by simp [toTarget, hvm]
      · simp [toMaster, arGo, hav]
      · simp [toMaster, hq, he, hrv, ha]
      · simp [toMaster, he]
      · simp [toMaster, he]
    | some k =>
      rw [ht] at hvm he hrv
      constructor
      · exact fun k => rfl
      · exact fun k => by simp [toTarget, arGo, hav]
      · exact fun k => by simp [toTarget, hq, he, hvm, ha, Bool.and_comm]
      · simp [toMaster, arGo, hav]
      · simp [toMaster, hq, he, orReduce_and hvm, ha]
      · simp [toMaster, hq, he, select_eq hvm]
      · simp [toMaster, hq, he, select_eq hvm]
  | false =>
    have hq : q.rdBusyQ = false := h.busy.trans ha
    have hcur : i.m.araddr = r.cur i.m := by
      unfold RdTrack.cur
      split
      · next hb => exact hr.addr hb ha
      · rfl
    have hvm : ∀ k, rdMatch x i k = decide (x.lowest (r.cur i.m) = some k) := fun k => by
      rw [rdMatch, hcur, hv k]
    have herr : rdLiveErr x i = !(x.lowest (r.cur i.m)).isSome := by
      rw [← hmiss, rdLiveErr, missed, rdMatch, hcur]
    have hrv := h.rvalid
    rw [ha, Bool.false_and] at hrv
    cases ht : x.lowest (r.cur i.m) with
    | none =>
      rw [ht] at hvm herr
      constructor
      · exact fun k => rfl
      · exact fun k => by simp [toTarget, hvm]
      · exact fun k => by simp [toTarget, hq]
      · simp [toMaster, arGo, hq, herr, errArready, hrv]
      · simp [toMaster, hq, ha]
      · exact fun hb => absurd (ha.symm.trans hb) Bool.false_ne_true
      · exact fun hb => absurd (ha.symm.trans hb) Bool.false_ne_true
    | some k =>
      rw [ht] at hvm herr
      constructor
      · exact fun k => rfl
      · exact fun k => by simp [toTarget, arGo, hq, hvm]
      · exact fun k => by simp [toTarget, hq, ha]
      · simp [toMaster, arGo, hq, herr, orReduce_and hvm]
      · simp [toMaster, hq, ha]
      · exact fun hb => absurd (ha.symm.trans hb) Bool.false_ne_true
      · exact fun hb => absurd (ha.symm.trans hb) Bool.false_ne_true

end Routing

/-! ### Runs -/

variable {inp : Nat → XbarIn x.n}

/-- The open write before cycle `t`. -/
def wrTrack (x : XbarParams) (q : Xbar x.n) (inp : Nat → XbarIn x.n) : Nat → WrTrack :=
  companion (fun g q i => g.next i.m (toMaster x q i)) (next x) .idle q inp

/-- The open read before cycle `t`. -/
def rdTrack (x : XbarParams) (q : Xbar x.n) (inp : Nat → XbarIn x.n) : Nat → RdTrack :=
  companion (fun g q i => g.next i.m (toMaster x q i)) (next x) .idle q inp

/-- In every run under a single-outstanding master a write to `a` is routed to the target of `a`. -/
def RoutesWrite (x : XbarParams) (a : Word) : Prop :=
  ∀ (inp : Nat → XbarIn x.n) (t : Nat), (∀ u, u ≤ t → (wrTrack x (reset x.n) inp u).Ok (inp u).m) →
    (wrTrack x (reset x.n) inp t).cur (inp t).m = a →
    WrRouted x (trace (next x) (reset x.n) inp t) (inp t) (wrTrack x (reset x.n) inp t) (x.lowest a)

/-- In every run under a single-outstanding master a read of `a` is routed to the target of `a`. -/
def RoutesRead (x : XbarParams) (a : Word) : Prop :=
  ∀ (inp : Nat → XbarIn x.n) (t : Nat), (∀ u, u ≤ t → (rdTrack x (reset x.n) inp u).Ok (inp u).m) →
    (rdTrack x (reset x.n) inp t).cur (inp t).m = a →
    RdRouted x (trace (next x) (reset x.n) inp t) (inp t) (rdTrack x (reset x.n) inp t) (x.lowest a)

private theorem wrInv_run (inp : Nat → XbarIn x.n) (t : Nat)
    (hok : ∀ u, u < t → (wrTrack x (reset x.n) inp u).Ok (inp u).m) :
    WrInv x (wrTrack x (reset x.n) inp t) (trace (next x) (reset x.n) inp t) := by
  unfold wrTrack at hok ⊢
  refine companion_invariant (P := WrInv x) (Q := fun g _ (i : XbarIn x.n) => g.Ok i.m) ?_ ?_ t hok
  · exact ⟨fun _ => ⟨rfl, rfl⟩, fun h => absurd h Bool.false_ne_true, rfl, fun h => absurd h Bool.false_ne_true, rfl,
      rfl, rfl⟩
  · exact fun _ _ _ h hg => h.next hg

private theorem rdInv_run (inp : Nat → XbarIn x.n) (t : Nat)
    (hok : ∀ u, u < t → (rdTrack x (reset x.n) inp u).Ok (inp u).m) :
    RdInv x (rdTrack x (reset x.n) inp t) (trace (next x) (reset x.n) inp t) := by
  unfold rdTrack at hok ⊢
  refine companion_invariant (P := RdInv x) (Q := fun g _ (i : XbarIn x.n) => g.Ok i.m) ?_ ?_ t hok
  · exact ⟨fun _ => rfl, rfl, fun h => absurd h Bool.false_ne_true, rfl⟩
  · exact fun _ _ _ h hg => h.next hg

/-- A master that opens a write and a read to `a` in its first cycle. -/
def probe (n : Nat) (a : Word) (_ : Nat) : XbarIn n where
  m := ⟨a, true, 0, 0, false, true, a, true, true⟩
  tgt := fun _ => ⟨false, false, 0, false, false, 0, 0, false⟩

/-- Routing the write of the probe takes one-hot comparators. -/
private theorem winMatch_of_routes {a : Word} (h : RoutesWrite x a) (k : Fin x.n) :
    winMatch x a k = decide (x.lowest a = some k) := by
  have hw := h (probe x.n a) 0 (fun u hu => by
    obtain rfl : u = 0 := by omega
    exact ⟨fun hb => absurd hb Bool.false_ne_true, fun hb => absurd hb Bool.false_ne_true,
      fun hb => absurd hb Bool.false_ne_true, fun _ hv => absurd hv Bool.false_ne_true⟩) rfl
  have hk := hw.awvalid k
  rwa [show (toTarget x _ (probe x.n a 0) k).awvalid = winMatch x a k from rfl,
    show (probe x.n a 0).m.awvalid = true from rfl, Bool.true_and] at hk

/-- **Routing.**  The crossbar routes the writes and the reads of an address to the lowest-numbered window that
contains it, or ends them with DECERR, exactly when the address is plain. -/
theorem routes_iff (x : XbarParams) (a : Word) : RoutesWrite x a ∧ RoutesRead x a ↔ x.Plain a := by
  constructor
  · intro h
    exact plain_iff.mpr (winMatch_of_routes h.1)
  · intro hp
    refine ⟨fun inp t hok hc => ?_, fun inp t hok hc => ?_⟩
    · rw [← hc]
      exact (wrInv_run inp t fun u hu => hok u (by omega)).routed (hok t le_rfl) (hc ▸ hp)
    · rw [← hc]
      exact (rdInv_run inp t fun u hu => hok u (by omega)).routed (hok t le_rfl) (hc ▸ hp)

/-- Two windows over the same sixteen bytes. -/
def overlapping : XbarParams := ⟨2, fun _ => 0x10000000, fun _ => 16⟩

/-- One window over the last 64 KiB of the address space. -/
def topmost : XbarParams := ⟨1, fun _ => 0xFFFF0000, fun _ => 0x00010000⟩

/-- Both overlapping windows see the write; the topmost window never does. -/
theorem routes_overlapping_topmost :
    ¬RoutesWrite overlapping 0x10000000 ∧ ¬RoutesWrite topmost 0xFFFF0000 := by
  constructor
  · intro h
    have h1 := winMatch_of_routes h (1 : Fin 2)
    exact absurd h1 (by decide)
  · intro h
    have h0 := winMatch_of_routes h (0 : Fin 1)
    exact absurd h0 (by decide)

end Xbar

end Yarv
