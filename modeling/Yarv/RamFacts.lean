import Yarv.NativeRam
import Yarv.Lib.ByteMem
import Yarv.Lib.Clocked

/-!
# The responses of `native_ram`

The words a RAM owes its master: those in the shift FIFO and the one that lands.  Every accepted read adds its word to
them, every response taken is the oldest, and a master that is always ready gets each word one cycle after its accept.
The words are those of a byte memory in which a store writes its strobed lanes.
-/

namespace Yarv.NativeRam

open Clocked ByteMem

variable {c : RamParams} {q : NativeRam c.dataWidth} {i : RamReq c.dataWidth}

/-- The words that have been accepted and not been taken, the oldest first. -/
def pending (q : NativeRam c.dataWidth) : List (BitVec c.dataWidth) :=
  (List.range q.countQ).map q.skidQ ++ if q.rifQ then [q.rdDQ] else []

/-- The FIFO has room for what has been accepted. -/
structure Within (c : RamParams) (q : NativeRam c.dataWidth) : Prop where
  count : q.countQ ≤ c.outstanding
  land : q.rifQ = true → q.countQ < c.outstanding

private theorem Within.pending_length (h : Within c q) : (pending q).length ≤ c.outstanding := by
  have hc := h.count
  rw [pending, List.length_append, List.length_map, List.length_range]
  cases hl : q.rifQ with
  | false => simpa using hc
  | true => exact h.land hl

/-- The word a read is accepted with. -/
def acceptRead (c : RamParams) (q : NativeRam c.dataWidth) (i : RamReq c.dataWidth) : Option (BitVec c.dataWidth) :=
  if launchRead c q i then some (q.mem (wordAddr c i)) else none

/-- The word the master takes. -/
def take (c : RamParams) (q : NativeRam c.dataWidth) (i : RamReq c.dataWidth) : Option (BitVec c.dataWidth) :=
  if rspRvalid c q && i.rready then some (rspRdata c q) else none

private theorem lt_cntW (c : RamParams) : c.outstanding < 2 ^ cntW c := Nat.lt_log2_self

/-- The count behind the edge, without its width. -/
private theorem newCount_eq (h : Within c q) (i : RamReq c.dataWidth) :
    newCount c q i = q.countQ - (skidPop c q i).toNat + (landStored c q i).toNat ∧
      newCount c q i ≤ c.outstanding ∧ (landStored c q i = true → newCount c q i ≠ 0) := by
  have hw := lt_cntW c
  have hc := h.count
  have hpop : (skidPop c q i).toNat ≤ q.countQ := by
    rw [skidPop]
    by_cases h0 : q.countQ = 0
    · simp [h0]
    · have : ((q.countQ != 0) && i.rready).toNat ≤ 1 := Bool.toNat_le _
      omega
  have hst : (landStored c q i).toNat ≤ 1 := Bool.toNat_le _
  have hroom : landStored c q i = true → q.countQ < c.outstanding := by
    intro hl
    rw [landStored, Bool.and_eq_true] at hl
    exact h.land hl.1
  have hlt : q.countQ - (skidPop c q i).toNat + (landStored c q i).toNat ≤ c.outstanding := by
    cases hl : landStored c q i with
    | false => simp; omega
    | true =>
      have := hroom hl
      simp
      omega
  have heq : newCount c q i = q.countQ - (skidPop c q i).toNat + (landStored c q i).toNat := by
    rw [newCount]
    have hsum : q.countQ + 2 ^ cntW c - (skidPop c q i).toNat + (landStored c q i).toNat =
        q.countQ - (skidPop c q i).toNat + (landStored c q i).toNat + 2 ^ cntW c := by omega
    rw [hsum, Nat.add_mod_right, Nat.mod_eq_of_lt (by omega)]
  refine ⟨heq, by omega, fun hl => ?_⟩
  rw [heq, hl]
  simp

private theorem Within.next (h : Within c q) (i : RamReq c.dataWidth) : Within c (next c q i) := by
  refine ⟨(newCount_eq h i).2.1, fun hr => ?_⟩
  have hl : launchHs c q i = true := by
    change launchRead c q i = true at hr
    rw [launchRead, Bool.and_eq_true] at hr
    exact hr.1
  rw [launchHs, Bool.and_eq_true] at hl
  exact of_decide_eq_true hl.2

/-! ### One clock edge -/

private theorem writeIdx_eq (h : Within c q) (i : RamReq c.dataWidth) :
    writeIdx c q i = q.countQ - (skidPop c q i).toNat := by
  have hw := lt_cntW c
  have hc := h.count
  have hpop : (skidPop c q i).toNat ≤ q.countQ := by
    rw [skidPop]
    by_cases h0 : q.countQ = 0
    · simp [h0]
    · have : ((q.countQ != 0) && i.rready).toNat ≤ 1 := Bool.toNat_le _
      omega
  have hsum : q.countQ + 2 ^ cntW c - (skidPop c q i).toNat =
      q.countQ - (skidPop c q i).toNat + 2 ^ cntW c := by omega
  rw [writeIdx, hsum, Nat.add_mod_right, Nat.mod_eq_of_lt (by omega)]

/-- The FIFO behind the edge holds what was owed, less the word that is taken. -/
private theorem take_skid (h : Within c q) (i : RamReq c.dataWidth) :
    (take c q i).toList ++ (List.range (newCount c q i)).map (skidNext c q i) = pending q := by
  obtain ⟨hnew, -, -⟩ := newCount_eq h i
  have hidx := writeIdx_eq h i
  rw [hnew]
  cases hn : q.countQ with
  | zero =>
    have hpop : skidPop c q i = false := by simp [skidPop, hn]
    cases hl : q.rifQ with
    | false =>
      have hst : landStored c q i = false := by simp [landStored, hl]
      simp [take, rspRvalid, pending, hn, hl, hst, hpop]
    | true =>
      cases hr : i.rready with
      | true =>
        have hst : landStored c q i = false := by simp [landStored, landConsumed, hn, hl, hr]
        simp [take, rspRvalid, rspRdata, pending, hn, hl, hr, hst, hpop]
      | false =>
        have hst : landStored c q i = true := by simp [landStored, landConsumed, hn, hl, hr]
        rw [hn, hpop] at hidx
        simp [take, rspRvalid, pending, skidNext, hn, hl, hr, hst, hpop, hidx]
  | succ n =>
    have hcount := h.count
    rw [hn] at hcount hidx
    have hcons : landConsumed c q i = false := by simp [landConsumed, hn]
    cases hr : i.rready with
    | true =>
      have hpop : skidPop c q i = true := by simp [skidPop, hn, hr]
      have htake : take c q i = some (q.skidQ 0) := by simp [take, rspRvalid, rspRdata, hn, hr]
      have hhead : (List.range (n + 1)).map q.skidQ = q.skidQ 0 :: (List.range n).map fun k => q.skidQ (k + 1) := by
        rw [List.range_succ_eq_map, List.map_cons, List.map_map]
        rfl
      -- the words behind the head move up
      have hshift : ∀ k < n, (if k + 1 < c.outstanding then q.skidQ (k + 1) else 0) = q.skidQ (k + 1) := by
        intro k hk
        rw [if_pos (by omega)]
      cases hl : q.rifQ with
      | false =>
        have hst : landStored c q i = false := by simp [landStored, hl]
        have hmap : (List.range n).map (skidNext c q i) = (List.range n).map fun k => q.skidQ (k + 1) := by
          refine List.map_congr_left fun k hk => ?_
          rw [skidNext, hst, hpop, ← hshift k (List.mem_range.mp hk)]
          rfl
        have hsub : n + 1 - true.toNat + false.toNat = n := rfl
        rw [htake, hpop, hst, hsub, hmap, pending, hn, hl, hhead]
        simp
      | true =>
        have hst : landStored c q i = true := by simp [landStored, hl, hcons]
        have hw : writeIdx c q i = n := by
          rw [hidx, hpop]
          rfl
        have hnext :
            skidNext c q i = Function.update (fun k => if k + 1 < c.outstanding then q.skidQ (k + 1) else 0)
            n q.rdDQ := by
          rw [skidNext, hst, hpop, hw]
          rfl
        have hmap : (List.range n).map (skidNext c q i) = (List.range n).map fun k => q.skidQ (k + 1) := by
          refine List.map_congr_left fun k hk => ?_
          have hk' := List.mem_range.mp hk
          rw [hnext, Function.update_of_ne (by omega), hshift k hk']
        have hlast : skidNext c q i n = q.rdDQ := by rw [hnext, Function.update_self]
        have hsub : n + 1 - true.toNat + true.toNat = n + 1 := rfl
        rw [htake, hpop, hst, hsub, List.range_succ, List.map_append, hmap, List.map_singleton, hlast, pending,
          hn, hl, hhead]
        simp
    | false =>
      have hpop : skidPop c q i = false := by simp [skidPop, hr]
      have htake : take c q i = none := by simp [take, hr]
      cases hl : q.rifQ with
      | false =>
        have hst : landStored c q i = false := by simp [landStored, hl]
        have hnext : skidNext c q i = q.skidQ := by
          rw [skidNext, hst, hpop]
          rfl
        rw [htake, hpop, hst, hnext, pending, hn, hl]
        simp
      | true =>
        have hst : landStored c q i = true := by simp [landStored, hl, hcons]
        have hw : writeIdx c q i = n + 1 := by
          rw [hidx, hpop]
          rfl
        have hnext : skidNext c q i = Function.update q.skidQ (n + 1) q.rdDQ := by
          rw [skidNext, hst, hpop, hw]
          rfl
        have hmap : (List.range (n + 1)).map (skidNext c q i) = (List.range (n + 1)).map q.skidQ := by
          refine List.map_congr_left fun k hk => ?_
          have hk' := List.mem_range.mp hk
          rw [hnext, Function.update_of_ne (by omega)]
        have hlast : skidNext c q i (n + 1) = q.rdDQ := by rw [hnext, Function.update_self]
        have hsub : n + 1 - false.toNat + true.toNat = n + 1 + 1 := rfl
        rw [htake, hpop, hst, hsub, List.range_succ, List.map_append, hmap, List.map_singleton, hlast,
          pending, hn, hl]
        simp

/-- An accepted read adds its word at the end, a response taken was at the front. -/
private theorem pending_next (h : Within c q) (i : RamReq c.dataWidth) :
    (take c q i).toList ++ pending (next c q i) = pending q ++ (acceptRead c q i).toList := by
  rw [← take_skid h i, List.append_assoc]
  congr 1
  change (List.range (newCount c q i)).map (skidNext c q i) ++
    (if launchRead c q i then [if launchRead c q i then q.mem (wordAddr c i) else q.rdDQ] else []) = _
  congr 1
  rw [acceptRead]
  cases launchRead c q i with
  | true => rfl
  | false => rfl

/-- The response port shows the oldest word that is owed. -/
private theorem rsp_head (q : NativeRam c.dataWidth) :
    (if rspRvalid c q then some (rspRdata c q) else none) = (pending q).head? := by
  cases hn : q.countQ with
  | zero => cases hl : q.rifQ <;> simp [rspRvalid, rspRdata, pending, hn, hl]
  | succ n => simp [rspRvalid, rspRdata, pending, hn, List.range_succ_eq_map]

/-- A response that is not taken stays. -/
private theorem stable_next (h : Within c q) (hv : rspRvalid c q = true) (hr : i.rready = false) :
    rspRvalid c (next c q i) = true ∧ rspRdata c (next c q i) = rspRdata c q := by
  have htake : take c q i = none := by rw [take, hr, Bool.and_false, if_neg Bool.false_ne_true]
  have hnext := pending_next h i
  rw [htake, Option.toList_none, List.nil_append] at hnext
  have hhead := rsp_head q
  rw [if_pos hv] at hhead
  have hhead' : (if rspRvalid c (next c q i) then some (rspRdata c (next c q i)) else none) =
      some (rspRdata c q) := by
    rw [rsp_head, hnext, List.head?_append, ← hhead, Option.some_or]
  cases hv' : rspRvalid c (next c q i) with
  | true =>
    rw [hv', if_pos rfl] at hhead'
    exact ⟨rfl, Option.some.inj hhead'⟩
  | false =>
    rw [hv', if_neg Bool.false_ne_true] at hhead'
    cases hhead'

/-- The FIFO is empty, and the word that lands is taken at once. -/
structure Drained {d : Nat} (q : NativeRam d) (i : RamReq d) : Prop where
  count : q.countQ = 0
  taken : q.rifQ = true → i.rready = true

/-- Nothing waits then. -/
theorem Drained.newCount (h : Drained q i) : NativeRam.newCount c q i = 0 := by
  have hpop : skidPop c q i = false := by simp [skidPop, h.count]
  have hstored : landStored c q i = false := by
    cases hr : q.rifQ with
    | false => simp [landStored, hr]
    | true => simp [landStored, landConsumed, hr, h.count, h.taken hr]
  simp [NativeRam.newCount, hpop, hstored, h.count]

theorem Drained.wready (h : Drained q i) (ho : 0 < c.outstanding) : rspWready c q i = true := by
  rw [rspWready, h.newCount]
  exact decide_eq_true ho

/-- The response port over an empty FIFO shows the word that lands. -/
theorem rspRvalid_empty (h : q.countQ = 0) : rspRvalid c q = q.rifQ := by simp [rspRvalid, h]

theorem rspRdata_empty (h : q.countQ = 0) : rspRdata c q = q.rdDQ := by simp [rspRdata, h]

/-- Nothing waits while the master is ready. -/
private theorem prompt_next (h0 : q.countQ = 0) (hr : i.rready = true) : (next c q i).countQ = 0 :=
  Drained.newCount ⟨h0, fun _ => hr⟩

/-! ### Runs -/

/-- The byte a request addresses. -/
def byteAddr (c : RamParams) (i : RamReq c.dataWidth) : Nat := i.addr.toNat % 2 ^ c.addrW

/-- A store the RAM accepts. -/
structure Store (c : RamParams) where
  byteAddr : Nat
  wdata : BitVec c.dataWidth
  wstrb : BitVec (c.dataWidth / 8)

def acceptWrite (c : RamParams) (q : NativeRam c.dataWidth) (i : RamReq c.dataWidth) : Option (Store c) :=
  if launchWrite c q i then some ⟨byteAddr c i, i.wdata, i.wstrb⟩ else none

/-- What a store does to the bytes: a strobed lane is written to its place in the addressed word.  A read-only RAM has
no write port. -/
def Store.apply (x : Nat → BitVec 8) (w : Store c) (b : Nat) : BitVec 8 :=
  if c.readOnly = false ∧ b / (c.dataWidth / 8) = w.byteAddr / (c.dataWidth / 8) ∧
      w.wstrb.getLsbD (b % (c.dataWidth / 8)) = true then
    byte w.wdata (b % (c.dataWidth / 8))
  else x b

/-! ### Byte lanes -/

private theorem setLane_getLsbD {w : Nat} (old new : BitVec w) (k j : Nat) :
    (setLane old new k).getLsbD j = if 8 * k ≤ j ∧ j < 8 * k + 8 then new.getLsbD j else old.getLsbD j := by
  have hmask : ((255#w) <<< (8 * k)).getLsbD j = (decide (j < w) && decide (8 * k ≤ j ∧ j < 8 * k + 8)) := by
    have h255 : ∀ i, Nat.testBit 255 i = decide (i < 8) := fun i => Nat.testBit_two_pow_sub_one 8 i
    rw [BitVec.getLsbD_shiftLeft, BitVec.getLsbD_ofNat, h255, Bool.eq_iff_iff]
    simp only [Bool.and_eq_true, decide_eq_true_eq, Bool.not_eq_true', decide_eq_false_iff_not]
    omega
  unfold setLane
  dsimp only
  rw [BitVec.getLsbD_or, BitVec.getLsbD_and, BitVec.getLsbD_and, BitVec.getLsbD_not, hmask]
  by_cases hj : j < w
  · by_cases hk : 8 * k ≤ j ∧ j < 8 * k + 8
    · simp [hj, hk]
    · simp [hj, hk]
  · have h1 : old.getLsbD j = false := BitVec.getLsbD_of_ge _ _ (by omega)
    have h2 : new.getLsbD j = false := BitVec.getLsbD_of_ge _ _ (by omega)
    simp [h1, h2]

private theorem mergeLanes_getLsbD {w m : Nat} (old new : BitVec w) (strb : BitVec m) (n j : Nat) :
    (mergeLanes old new strb n).getLsbD j =
      if j / 8 < n ∧ strb.getLsbD (j / 8) = true then new.getLsbD j else old.getLsbD j := by
  induction n with
  | zero => simp [mergeLanes]
  | succ n ih =>
    unfold mergeLanes
    dsimp only
    cases hs : strb.getLsbD n with
    | true =>
      rw [if_pos rfl, setLane_getLsbD, ih]
      by_cases hn : j / 8 = n
      · subst hn
        rw [if_pos (by omega), if_pos ⟨by omega, hs⟩]
      · rw [if_neg (by omega)]
        refine if_congr ?_ rfl rfl
        constructor
        · exact fun h => ⟨by omega, h.2⟩
        · exact fun h => ⟨by omega, h.2⟩
    | false =>
      rw [if_neg Bool.false_ne_true, ih]
      refine if_congr ?_ rfl rfl
      constructor
      · exact fun h => ⟨by omega, h.2⟩
      · rintro ⟨h1, h2⟩
        refine ⟨?_, h2⟩
        have : j / 8 ≠ n := by
          intro he
          rw [he, hs] at h2
          cases h2
        omega

/-- A strobed byte is the new one. -/
theorem byte_mergeLanes {w m : Nat} (old new : BitVec w) (strb : BitVec m) {n k : Nat} (hk : k < n) :
    byte (mergeLanes old new strb n) k = if strb.getLsbD k then byte new k else byte old k := by
  have hbit : ∀ i < 8, (8 * k + i) / 8 = k := by
    intro i hi
    omega
  apply BitVec.eq_of_getLsbD_eq
  intro i hi
  cases hs : strb.getLsbD k with
  | true =>
    rw [if_pos rfl, byte, byte, BitVec.getLsbD_extractLsb', BitVec.getLsbD_extractLsb', mergeLanes_getLsbD, hbit i hi,
      if_pos ⟨hk, hs⟩]
  | false =>
    rw [if_neg Bool.false_ne_true, byte, byte, BitVec.getLsbD_extractLsb', BitVec.getLsbD_extractLsb',
      mergeLanes_getLsbD, hbit i hi, if_neg (by rw [hs]; exact fun h => Bool.false_ne_true h.2)]

section Runs

variable (c q) (inp : Nat → RamReq c.dataWidth)

/-- The words of the reads accepted before cycle `t`. -/
def reads (t : Nat) : List (BitVec c.dataWidth) := logFrom (acceptRead c) (next c) q inp 0 t

/-- The responses taken before cycle `t`. -/
def takes (t : Nat) : List (BitVec c.dataWidth) := logFrom (take c) (next c) q inp 0 t

/-- The stores accepted before cycle `t`. -/
def stores (t : Nat) : List (Store c) := logFrom (acceptWrite c) (next c) q inp 0 t

/-- What a master may rely on. -/
structure Serves : Prop where
  /-- The responses taken are the words of the accepted reads, in their order; the rest is still owed. -/
  order : ∀ t, takes c q inp t ++ pending (trace (next c) q inp t) = reads c q inp t
  /-- A read is accepted with the bytes that the stores accepted before have left in its word. -/
  word : ∀ t w, acceptRead c (trace (next c) q inp t) (inp t) = some w → ∀ k < c.dataWidth / 8,
    byte w k = (stores c q inp t).foldl Store.apply (ofWords (c.dataWidth / 8) q.mem)
      (byteAddr c (inp t) / (c.dataWidth / 8) * (c.dataWidth / 8) + k)
  /-- The bits of a word above its last lane are as they were. -/
  above : ∀ t w, acceptRead c (trace (next c) q inp t) (inp t) = some w → ∀ j, 8 * (c.dataWidth / 8) ≤ j →
    w.getLsbD j = (q.mem (byteAddr c (inp t) / (c.dataWidth / 8))).getLsbD j
  stable : ∀ t, rspRvalid c (trace (next c) q inp t) = true → (inp t).rready = false →
    rspRvalid c (trace (next c) q inp (t + 1)) = true ∧
      rspRdata c (trace (next c) q inp (t + 1)) = rspRdata c (trace (next c) q inp t)
  count : ∀ t, (trace (next c) q inp t).countQ ≤ c.outstanding
  owed : ∀ t, (pending (trace (next c) q inp t)).length ≤ c.outstanding
  /-- With `rready` high and nothing waiting, a read answers in the next cycle, and nothing else does. -/
  prompt : ∀ a t, a ≤ t → (trace (next c) q inp a).countQ = 0 → (∀ u, a ≤ u → u ≤ t → (inp u).rready = true) →
    (if rspRvalid c (trace (next c) q inp (t + 1)) then some (rspRdata c (trace (next c) q inp (t + 1))) else none) =
      acceptRead c (trace (next c) q inp t) (inp t)

end Runs

variable {inp : Nat → RamReq c.dataWidth}

private theorem IsReset.within (h : q.IsReset) : Within c q := by
  refine ⟨by rw [h.count]; exact Nat.zero_le _, fun hr => ?_⟩
  rw [h.rif] at hr
  cases hr

private theorem Within.run (h : Within c q) (t : Nat) : Within c (trace (NativeRam.next c) q inp t) :=
  trace_invariant h (fun _ i hs => hs.next i) t

private theorem order_run (h : Within c q) (t : Nat) :
    takes c q inp t ++ pending (trace (next c) q inp t) = pending q ++ reads c q inp t := by
  induction t with
  | zero => rw [takes, reads, logFrom_zero, logFrom_zero, List.append_nil, List.nil_append, trace_zero]
  | succ t ih =>
    rw [takes, reads, logFrom_succ, logFrom_succ, Nat.zero_add, trace_succ, List.append_assoc, pending_next (h.run t),
      ← List.append_assoc, ← List.append_assoc]
    congr 1

/-- A cycle applies the store it accepts to the bytes. -/
private theorem bytes_next (i : RamReq c.dataWidth) : ofWords (c.dataWidth / 8) (memNext c q i) =
    (acceptWrite c q i).toList.foldl Store.apply (ofWords (c.dataWidth / 8) q.mem) := by
  rw [memNext, acceptWrite]
  cases hl : launchWrite c q i with
  | false =>
    rw [Bool.and_false, if_neg Bool.false_ne_true, if_neg Bool.false_ne_true]
    rfl
  | true =>
    rw [Bool.and_true, if_pos rfl, Option.toList_some, List.foldl_cons, List.foldl_nil]
    funext b
    cases hro : c.readOnly with
    | true =>
      rw [Bool.not_true, if_neg Bool.false_ne_true, Store.apply, if_neg (fun h => by simp [hro] at h)]
    | false =>
      rw [Bool.not_false, if_pos rfl, Store.apply, ofWords, ofWords]
      by_cases hb : b / (c.dataWidth / 8) = wordAddr c i
      · rw [hb, Function.update_self]
        rcases Nat.eq_zero_or_pos (c.dataWidth / 8) with h0 | hpos
        · -- without lanes nothing is strobed
          have hstrb : i.wstrb.getLsbD (b % (c.dataWidth / 8)) = false := BitVec.getLsbD_of_ge _ _ (by omega)
          have hmerge : ∀ n, n = 0 → mergeLanes (q.mem (wordAddr c i)) i.wdata i.wstrb n = q.mem (wordAddr c i) := by
            rintro _ rfl
            rfl
          rw [if_neg (by simp [hstrb]), hmerge _ h0]
        · rw [byte_mergeLanes _ _ _ (Nat.mod_lt _ hpos)]
          exact if_congr ⟨fun h => ⟨hro, rfl, h⟩, fun h => h.2.2⟩ rfl rfl
      · rw [Function.update_of_ne hb, if_neg fun h => hb h.2.1]

/-- It leaves the bits above the lanes. -/
private theorem above_next (i : RamReq c.dataWidth) (a : Nat) {j : Nat} (hj : 8 * (c.dataWidth / 8) ≤ j) :
    (memNext c q i a).getLsbD j = (q.mem a).getLsbD j := by
  rw [memNext]
  split
  · by_cases ha : a = wordAddr c i
    · rw [ha, Function.update_self, mergeLanes_getLsbD, if_neg (by omega)]
    · rw [Function.update_of_ne ha]
  · rfl

/-- The bytes are what the stores have made of them. -/
private theorem bytes_run (t : Nat) : ofWords (c.dataWidth / 8) (trace (next c) q inp t).mem =
    (stores c q inp t).foldl Store.apply (ofWords (c.dataWidth / 8) q.mem) := by
  induction t with
  | zero => rfl
  | succ t ih =>
    rw [stores, logFrom_succ, Nat.zero_add, List.foldl_append, trace_succ]
    rw [stores] at ih
    rw [← ih]
    exact bytes_next (inp t)

private theorem above_run (a : Nat) {j : Nat} (hj : 8 * (c.dataWidth / 8) ≤ j) (t : Nat) :
    ((trace (next c) q inp t).mem a).getLsbD j = (q.mem a).getLsbD j := by
  induction t with
  | zero => rfl
  | succ t ih =>
    rw [trace_succ]
    exact (above_next (inp t) a hj).trans ih

/-- The word of an accepted read. -/
private theorem eq_of_acceptRead {w : BitVec c.dataWidth} (h : acceptRead c q i = some w) :
    w = q.mem (byteAddr c i / (c.dataWidth / 8)) := by
  rw [acceptRead] at h
  split at h
  · exact (Option.some.inj h).symm
  · cases h

private theorem prompt_run {a t : Nat} (hat : a ≤ t) (h0 : (trace (next c) q inp a).countQ = 0)
    (hr : ∀ u, a ≤ u → u ≤ t → (inp u).rready = true) : (trace (next c) q inp (t + 1)).countQ = 0 := by
  induction t, hat using Nat.le_induction with
  | base =>
    rw [trace_succ]
    exact prompt_next h0 (hr a le_rfl le_rfl)
  | succ t hat ih =>
    rw [trace_succ]
    exact prompt_next (ih fun u h1 h2 => hr u h1 (by omega)) (hr (t + 1) (by omega) le_rfl)

/-- Every RAM serves its master. -/
theorem serves (h : q.IsReset) (inp : Nat → RamReq c.dataWidth) : Serves c q inp where
  order t := by
    have hnil : pending q = [] := by
      rw [pending, h.count, h.rif]
      rfl
    rw [order_run h.within, hnil, List.nil_append]
  word t w hw k hk := by
    have hpos : 0 < c.dataWidth / 8 := by omega
    rw [eq_of_acceptRead hw, ← bytes_run, ofWords, Nat.mul_comm, Nat.mul_add_div hpos,
      Nat.div_eq_of_lt hk, Nat.add_zero, Nat.mul_add_mod, Nat.mod_eq_of_lt hk]
  above t w hw j hj := by
    rw [eq_of_acceptRead hw]
    exact above_run _ hj t
  stable t hv hr := by
    rw [trace_succ]
    exact stable_next (h.within.run t) hv hr
  count t := (h.within.run t).count
  owed t := (h.within.run t).pending_length
  prompt a t hat h0 hr := by
    have hc := prompt_run hat h0 hr
    rw [rsp_head, pending, hc, List.range_zero, List.map_nil, List.nil_append, trace_succ, acceptRead]
    change (if launchRead c _ _ then [if launchRead c _ _ then _ else _] else []).head? = _
    cases launchRead c (trace (next c) q inp t) (inp t) with
    | true => rfl
    | false => rfl

/-- A store and two loads of its word, the master not ready for the first of them at once. -/
def posted (t : Nat) : RamReq 32 where
  valid := decide (t < 4)
  we := t == 0
  addr := 8
  wdata := 0x11223344
  wstrb := 0b0011#4
  rready := decide (2 < t)

theorem serves_posted : Serves ⟨16, 32, false, 1⟩ ⟨fun _ => 0, false, 0, 0, fun _ => 0⟩ posted :=
  serves (c := ⟨16, 32, false, 1⟩) ⟨rfl, rfl, rfl⟩ posted

end Yarv.NativeRam
