import Yarv.Lib.ByteMem
import Yarv.Lsu

/-!
# The data memory

The D-mem behind the load/store unit is a byte memory: stores replace the bytes they address, in commit order, and a
load returns the bytes of its address.  `Served` ties the RAM to the load that waits; the request of a store is a
`put` (`merge_request`), the word of a load is read with `get2` and `get4` (`loadData_eq`).
-/

namespace Yarv

open Clocked ExecuteStage ByteMem

/-! ### Loads and stores as bytes -/

/-- The byte of the D-mem an address selects. -/
def Params.dmemByte (p : Params) (a : Word) : Nat := a.toNat % 2 ^ p.dmemAddrW

/-- What a load makes of the bytes at its address. -/
def loadValue (x : Nat → BitVec 8) (a : Nat) (z : MemSize) (u : Bool) : Word :=
  match z with
  | .b => if u then (x a).setWidth 32 else (x a).signExtend 32
  | .h => if u then (get2 x a).setWidth 32 else (get2 x a).signExtend 32
  | .w => get4 x a

/-- What an access to the D-mem makes of its bytes. -/
def De.storeTo (p : Params) (x : Nat → BitVec 8) (d : De) : Nat → BitVec 8 :=
  if d.memWrite then put x (p.dmemByte (effAddr d)) d.memSize.bytes d.rs2Data else x

section Bytes

variable {p : Params} {d : De} {f : Nat → Word}

private theorem dmemByte_mod (a : Word) : p.dmemByte a % 4 = a.toNat % 4 := by
  refine Nat.mod_mod_of_dvd _ ?_
  have h3 := p.dmemAddrW_ge
  exact ⟨2 ^ (p.dmemAddrW - 2), by rw [show (4 : Nat) = 2 ^ 2 from rfl, ← pow_add]; congr 1; omega⟩

/-- An aligned access stays in its word. -/
private theorem dmemByte_inside {z : MemSize} {a : Word} (h : z.Aligned a) : p.dmemByte a % 4 + z.bytes ≤ 4 := by
  rw [dmemByte_mod]
  have hlt : a.toNat % 4 < 4 := Nat.mod_lt _ (by decide)
  rw [aligned_iff_lane, lane_toNat] at h
  generalize a.toNat % 4 = e at h hlt
  cases z with
  | b => exact hlt
  | h =>
    change e % 2 = 0 at h
    change e + 2 ≤ 4
    omega
  | w =>
    change e % 4 = 0 at h
    change e + 4 ≤ 4
    omega

private theorem strobe_getLsbD (z : MemSize) : ∀ e < 4, ∀ k < 4,
    (BitVec.ofNat 4 ((2 ^ z.bytes - 1) * 2 ^ e)).getLsbD k = decide (e ≤ k ∧ k < e + z.bytes) := by
  cases z <;> decide

private theorem byte_shiftLeft (v : Word) {e k : Nat} (he : e ≤ k) (hk : k < 4) :
    byte (v <<< (8 * e)) k = byte v (k - e) := by
  apply BitVec.eq_of_getLsbD_eq
  intro i hi
  have hsub : 8 * k + i - 8 * e = 8 * (k - e) + i := by omega
  rw [byte, byte, BitVec.getLsbD_extractLsb', BitVec.getLsbD_extractLsb', BitVec.getLsbD_shiftLeft, hsub,
    decide_eq_true (by omega : 8 * k + i < 32), decide_eq_false (by omega : ¬8 * k + i < 8 * e)]
  rfl

/-- The request of a store puts the low bytes of `rs2` at its address. -/
private theorem merge_request (hw : d.memWrite = true) (ha : d.memSize.Aligned (effAddr d)) :
    ofWords 4 (Function.update f (p.dmemByte (effAddr d) / 4)
        (NativeRam.mergeLanes (f (p.dmemByte (effAddr d) / 4)) d.request.wdata d.request.wstrb 4)) =
      d.storeTo p (ofWords 4 f) := by
  rw [De.storeTo, hw, if_pos rfl]
  refine ofWords_update (by decide) (dmemByte_inside ha) fun k hk => ?_
  have he : (effAddr d).toNat % 4 < 4 := Nat.mod_lt _ (by decide)
  rw [NativeRam.byte_mergeLanes _ _ _ hk, De.request, hw]
  simp only [if_true]
  rw [strobe_getLsbD d.memSize _ he _ hk, dmemByte_mod]
  by_cases hin : (effAddr d).toNat % 4 ≤ k ∧ k < (effAddr d).toNat % 4 + d.memSize.bytes
  · rw [decide_eq_true hin, if_pos rfl, if_pos hin, byte_shiftLeft _ hin.1 hk]
  · rw [decide_eq_false hin, if_neg Bool.false_ne_true, if_neg hin]

/-- A load reads the bytes at its address out of the word it is given. -/
private theorem loadData_eq {q : ExecuteStage} {i : ExecuteIn} (ha : i.de.memSize.Aligned q.memAddrQ)
    (hr : (lsuRspWait q i).rdata = f (p.dmemByte q.memAddrQ / 4)) :
    loadData q i = loadValue (ofWords 4 f) (p.dmemByte q.memAddrQ) i.de.memSize i.de.memUnsigned := by
  have hin := dmemByte_inside (p := p) ha
  have hshift : loadShifted q i = f (p.dmemByte q.memAddrQ / 4) >>> (8 * (p.dmemByte q.memAddrQ % 4)) := by
    rw [loadShifted, hr, BitVec.ushiftRight_eq', laneShift_toNat, dmemByte_mod]
  have hlow : ∀ (v : Word) (e n : Nat), (v >>> (8 * e)).extractLsb' 0 n = v.extractLsb' (8 * e) n := by
    intro v e n
    apply BitVec.eq_of_getLsbD_eq
    intro j hj
    rw [BitVec.getLsbD_extractLsb', BitVec.getLsbD_extractLsb', BitVec.getLsbD_ushiftRight, Nat.zero_add]
  unfold loadData loadValue
  rw [hshift]
  cases hz : i.de.memSize with
  | b =>
    dsimp only
    rw [hlow]
    rfl
  | h =>
    rw [hz] at hin
    dsimp only
    rw [hlow, get2_ofWords hin]
  | w =>
    rw [hz] at hin
    have h0 : p.dmemByte q.memAddrQ % 4 = 0 := by
      change p.dmemByte q.memAddrQ % 4 + 4 ≤ 4 at hin
      omega
    dsimp only
    rw [get4_ofWords hin, hr, h0]
    exact (BitVec.extractLsb'_eq_self).symm

end Bytes

/-! ### Load words -/

/-- A load writes its register from memory. -/
def Dec.Loads (d : Dec) : Prop := d.memRead = true → d.wbSrc = .mem ∧ d.regWrite = true

def De.Loads (d : De) : Prop := d.memRead = true → d.wbSrc = .mem ∧ d.regWrite = true

section Tree

variable (w : Word)

private theorem loads_of_not {d : Dec} (h : d.memRead = false) : d.Loads :=
  fun hr => absurd (h.symm.trans hr) Bool.false_ne_true

private theorem loads_ite {c : Prop} [Decidable c] {d e : Dec} (hd : d.Loads) (he : e.Loads) :
    (if c then d else e).Loads := by
  by_cases h : c
  · rwa [if_pos h]
  · rwa [if_neg h]

private theorem decLoad_loads : (decLoad w).Loads := by
  unfold decLoad
  dsimp only
  split_ifs <;> exact fun _ => ⟨rfl, rfl⟩

private theorem decAmo_loads : (decAmo w).Loads := by
  unfold decAmo
  dsimp only
  exact loads_ite (fun _ => ⟨rfl, rfl⟩) (loads_of_not rfl)

private theorem decOpImm_loads : (decOpImm w).Loads := by
  obtain ⟨o, b, -, he⟩ := decOpImm_eq w
  rw [he]
  exact loads_of_not rfl

private theorem decOp_loads : (decOp w).Loads := by
  unfold decOp
  exact loads_ite (loads_of_not rfl) (loads_of_not rfl)

private theorem decSystem_loads : (decSystem w).Loads := by
  unfold decSystem decCsr decPriv
  split_ifs <;> exact loads_of_not rfl

/-- Every load of the tree does. -/
theorem opcodeTree_loads : (opcodeTree w).Loads := by
  unfold opcodeTree
  refine loads_ite (loads_of_not rfl) (loads_ite (loads_of_not rfl) (loads_ite (loads_of_not rfl) ?_))
  refine loads_ite ?_ (loads_ite ?_ (loads_ite (decLoad_loads w) (loads_ite ?_ ?_)))
  · unfold decJalr
    split_ifs <;> exact loads_of_not rfl
  · unfold decBranch
    split_ifs <;> exact loads_of_not rfl
  · unfold decStore
    split_ifs <;> exact loads_of_not rfl
  refine loads_ite (decOpImm_loads w) (loads_ite (decOp_loads w) (loads_ite (decAmo_loads w) ?_))
  refine loads_ite (decSystem_loads w) (loads_ite ?_ (loads_of_not rfl))
  unfold decMiscMem
  split_ifs <;> exact loads_of_not rfl

end Tree

namespace Core

variable {p : Params} {s : Core} {i : CoreIn} {boot : Word} {img : Nat → BitVec 64} {rf : RegFile}

private theorem loads_run (h : s.IsReset boot img rf) (inp : Nat → CoreIn) (t : Nat) :
    (trace (next p) s inp t).de.Loads := by
  intro hr
  induction t with
  | zero =>
    have hde : s.de = De.zero := h.fe.decode.de
    rw [trace_zero, hde] at hr
    cases hr
  | succ t ih =>
    rw [trace_succ, next_de] at hr ⊢
    split_ifs at hr ⊢
    · cases hr
    · exact ih hr
    · generalize (trace (next p) s inp t).fe.decode = q at hr ⊢
      generalize (trace (next p) s inp t).fe.decodeIn _ = d at hr ⊢
      change (!(opcodeTree (DecodeStage.srcInstr32 q d)).illegal &&
        (opcodeTree (DecodeStage.srcInstr32 q d)).memRead) = true at hr
      rw [Bool.and_eq_true, Bool.not_eq_true'] at hr
      obtain ⟨hwb, hreg⟩ := opcodeTree_loads _ hr.2
      refine ⟨hwb, ?_⟩
      change (!(opcodeTree (DecodeStage.srcInstr32 q d)).illegal &&
        (opcodeTree (DecodeStage.srcInstr32 q d)).regWrite) = true
      rw [hr.1, hreg]
      rfl

/-- What an accepted request says about the access in the D/E register. -/
private theorem access_of_accepts (h : s.Sane p) {peri : Bool} (ha : s.ex.accepts p (s.exIn i) peri = true) :
    (s.de.valid = true ∧ s.de.HasKind .mem) ∧ s.de.toPeri = peri ∧
      (s.ex.dmemLoadHs p (s.exIn i) || s.ex.capturedHs p (s.exIn i)) = true ∧
        (s.ex.portReq p (s.exIn i) peri).bus = s.de.request := by
  have hev : acceptEv p peri s i = some (s.ex.portReq p (s.exIn i) peri).bus := by
    rw [acceptEv, ha]
    rfl
  have hmem : s.de.valid = true ∧ s.de.HasKind .mem := by
    by_contra hno
    rw [(port_quiet (i := i) h hno peri).1] at hev
    cases hev
  rw [acceptEv_mem h hmem.2] at hev
  split at hev
  · rename_i hc
    rw [Bool.and_eq_true, beq_iff_eq] at hc
    exact ⟨hmem, hc.2, hc.1, (Option.some.inj hev).symm⟩
  · cases hev

private theorem accepts_of_taken (h : s.Sane p) (hk : s.de.HasKind .mem)
    (ht : (s.ex.dmemLoadHs p (s.exIn i) || s.ex.capturedHs p (s.exIn i)) = true) :
    s.ex.accepts p (s.exIn i) s.de.toPeri = true := by
  have hev := acceptEv_mem (i := i) h hk s.de.toPeri
  rw [ht, beq_self_eq_true, Bool.and_true, if_pos rfl] at hev
  cases ha : s.ex.accepts p (s.exIn i) s.de.toPeri with
  | true => rfl
  | false =>
    rw [acceptEv, ha] at hev
    cases hev

/-- A misaligned access is not accepted. -/
private theorem aligned_of_taken (h : s.Sane p) (hk : s.de.HasKind .mem)
    (ht : (s.ex.dmemLoadHs p (s.exIn i) || s.ex.capturedHs p (s.exIn i)) = true) :
    s.de.memSize.Aligned (effAddr s.de) := by
  rw [Bool.or_eq_true] at ht
  rcases ht with ht | ht
  · rw [dmemLoadHs, Bool.and_eq_true] at ht
    have hd := ht.1
    simp only [dmemLoadDrive, Bool.and_eq_true, Bool.not_eq_true'] at hd
    exact (de_aligned_iff hk).mp hd.1.1.2
  · rw [capturedHs, Bool.and_eq_true] at ht
    exact aligned_of_captured h hk ht.1

end Core

namespace CoreMem

variable {p : Params} {s : CoreMem} {i : CoreIn}

/-- The access to the D-mem that a cycle commits. -/
def accessEv (p : Params) (s : CoreMem) (i : CoreIn) : Option De :=
  if s.core.ex.opCommits p (s.core.exIn (s.coreIn p i)) && isMemOp (s.core.exIn (s.coreIn p i)) &&
    !s.core.de.toPeri then
    some s.core.de
  else none

/-! ### The RAM and the load that waits for it -/

private theorem dmem_lanes (p : Params) : (dmemParams p).dataWidth / 8 = 4 :=
  Nat.div_eq_of_eq_mul_left (by decide) rfl

/-- The RAM owes a word to the load that waits for it, and to nothing else. -/
structure Served (p : Params) (s : CoreMem) : Prop where
  count : s.dmem.countQ = 0
  land : s.dmem.rifQ = (s.core.ex.exStateQ == .memWait && !s.core.ex.memIsPeriQ)
  word : s.dmem.rifQ = true → s.dmem.rdDQ = s.dmem.mem (p.dmemByte (effAddr s.core.de) / 4)

/-- The word that lands is taken. -/
theorem Served.drained (h : Served p s) (hs : s.core.Sane p) (i : CoreIn) :
    NativeRam.Drained s.dmem (s.dmemIn p i) := by
  refine ⟨h.count, fun hr => ?_⟩
  rw [h.land, Bool.and_eq_true, beq_iff_eq] at hr
  obtain ⟨hst, hperi⟩ := hr
  have hread : s.core.de.memRead = true := (hs.waiting hst).2.2.1
  change (s.core.ex.exStateQ == .memWait && s.core.de.memRead && !s.core.ex.memIsPeriQ) = true
  rw [hst, hread, hperi]
  rfl

/-- A request is accepted in the cycle it is raised. -/
private theorem launchHs_eq : NativeRam.launchHs (dmemParams p) s.dmem (s.dmemIn p i) =
    s.core.ex.accepts p (s.core.exIn (s.coreIn p i)) false := rfl

theorem dmemRsp_rvalid (h : Served p s) : (s.dmemRsp p i).rvalid = s.dmem.rifQ :=
  NativeRam.rspRvalid_empty (c := dmemParams p) h.count

private theorem dmemRsp_rdata (h : Served p s) : (s.dmemRsp p i).rdata = s.dmem.rdDQ :=
  NativeRam.rspRdata_empty (c := dmemParams p) h.count

/-- The wires of an accepted request. -/
private theorem dmemIn_of_accepts (hs : s.core.Sane p)
    (ha : s.core.ex.accepts p (s.core.exIn (s.coreIn p i)) false = true) :
    (s.dmemIn p i).we = s.core.de.memWrite ∧
      NativeRam.wordAddr (dmemParams p) (s.dmemIn p i) = p.dmemByte (effAddr s.core.de) / 4 ∧
        (s.core.de.memWrite = true → (s.dmemIn p i).wdata = s.core.de.request.wdata ∧
          (s.dmemIn p i).wstrb = s.core.de.request.wstrb) := by
  obtain ⟨-, -, -, hbus⟩ := Core.access_of_accepts hs ha
  have hwe : (s.dmemIn p i).we = s.core.de.memWrite := congrArg BusReq.write hbus
  have haddr : (s.dmemIn p i).addr = effAddr s.core.de := congrArg BusReq.addr hbus
  have hdata := congrArg BusReq.wdata hbus
  have hstrb := congrArg BusReq.wstrb hbus
  refine ⟨hwe, ?_, fun hw => ?_⟩
  · rw [NativeRam.wordAddr, haddr, dmem_lanes]
    rfl
  · have hwe' : (s.core.ex.portReq p (s.core.exIn (s.coreIn p i)) false).we = true := hwe.trans hw
    rw [MemReq.bus, hwe'] at hdata hstrb
    exact ⟨hdata, hstrb⟩

private theorem Served.next (h : Served p s) (hs : s.core.Sane p) (i : CoreIn) : Served p (s.next p i) := by
  have hread : NativeRam.launchRead (dmemParams p) s.dmem (s.dmemIn p i) =
      (s.core.ex.accepts p (s.core.exIn (s.coreIn p i)) false && !(s.dmemIn p i).we) := rfl
  have hwrite : NativeRam.launchWrite (dmemParams p) s.dmem (s.dmemIn p i) =
      (s.core.ex.accepts p (s.core.exIn (s.coreIn p i)) false && (s.dmemIn p i).we) := rfl
  have hnext : (s.next p i).core = s.core.next p (s.coreIn p i) := rfl
  refine ⟨NativeRam.Drained.newCount (c := dmemParams p) (h.drained hs i), ?_, fun hr => ?_⟩
  · change NativeRam.launchRead (dmemParams p) s.dmem (s.dmemIn p i) =
      ((s.core.next p (s.coreIn p i)).ex.exStateQ == .memWait && !(s.core.next p (s.coreIn p i)).ex.memIsPeriQ)
    -- the port a load waits on behind the edge is that of its address
    have hport : (s.core.next p (s.coreIn p i)).ex.exStateQ = .memWait → s.core.de.HasKind .mem →
        (s.core.next p (s.coreIn p i)).ex.memIsPeriQ = s.core.de.toPeri := by
      intro hst hk
      have hde := Core.de_of_busy hs (i := s.coreIn p i) (by rw [hst]; exact ExState.noConfusion)
      have hbusy :=
        Core.toPeri_busy (hs.next (s.coreIn p i)) (by rw [hde]; exact hk) (by rw [hst]; exact ExState.noConfusion)
      rw [hbusy, hde]
    rw [hread]
    cases ha : s.core.ex.accepts p (s.core.exIn (s.coreIn p i)) false with
    | true =>
      obtain ⟨⟨-, hk⟩, hperi, htaken, -⟩ := Core.access_of_accepts hs ha
      rw [(dmemIn_of_accepts hs ha).1, Bool.true_and]
      rcases Core.access_cycle (i := s.coreIn p i) hs hk with ⟨-, -, hw⟩ | ⟨-, hd, hc, -⟩
      · have hone : (s.core.de.memRead || s.core.de.memWrite) = true ∧
            (s.core.de.memRead && s.core.de.memWrite) = false := ⟨hk.mem, hk.one⟩
        rw [htaken, Bool.true_and] at hw
        rw [hw]
        cases hr : s.core.de.memRead with
        | true =>
          rw [hr] at hw hone
          rw [hport (beq_iff_eq.mp hw) hk, hperi]
          rw [Bool.true_and] at hone
          rw [hone.2]
          rfl
        | false =>
          rw [hr, Bool.false_or] at hone
          rw [hone.1]
          rfl
      · rw [hd, hc] at htaken
        cases htaken
    | false =>
      rw [Bool.false_and]
      symm
      rw [Bool.and_eq_false_iff, Bool.not_eq_false', beq_eq_false_iff_ne]
      by_contra hno
      rw [not_or, not_not, Bool.not_eq_true] at hno
      obtain ⟨hst, hperi⟩ := hno
      have hmem : s.core.de.valid = true ∧ s.core.de.HasKind .mem := by
        by_contra hno
        exact (Core.port_quiet (i := s.coreIn p i) hs hno false).2.2.2 hst
      have hto : s.core.de.toPeri = false := (hport hst hmem.2).symm.trans hperi
      rcases Core.access_cycle (i := s.coreIn p i) hs hmem.2 with ⟨-, -, hw⟩ | ⟨hwait, -, -, hw⟩
      · rw [hst, beq_self_eq_true] at hw
        have htaken := hw.symm
        rw [Bool.and_eq_true] at htaken
        have hacc := Core.accepts_of_taken hs hmem.2 htaken.1
        rw [hto, ha] at hacc
        cases hacc
      · -- the word that lands ends the wait
        have hland : s.dmem.rifQ = true := by
          rw [h.land, hwait, Core.toPeri_busy hs hmem.2 (by rw [hwait]; exact ExState.noConfusion), hto]
          rfl
        have hread : s.core.de.memRead = true := (hs.waiting hwait).2.2.1
        have hdone : s.core.ex.memOpDone p (s.core.exIn (s.coreIn p i)) = true := by
          have hrsp : (lsuRspWait s.core.ex (s.core.exIn (s.coreIn p i))).rvalid = true := by
            rw [lsuRspWait, Core.toPeri_busy hs hmem.2 (by rw [hwait]; exact ExState.noConfusion), hto,
              if_neg Bool.false_ne_true]
            exact (dmemRsp_rvalid (i := i) h).trans hland
          change (if s.core.de.memRead then _ else _) = true
          rw [hread, if_pos rfl, memDone, hwait, hrsp]
          rfl
        rw [hst, hdone] at hw
        cases hw
  · have hl : NativeRam.launchRead (dmemParams p) s.dmem (s.dmemIn p i) = true := hr
    have hparts := hl
    rw [hread, Bool.and_eq_true, Bool.not_eq_true'] at hparts
    have hmem : (s.next p i).dmem.mem = s.dmem.mem := by
      change NativeRam.memNext (dmemParams p) s.dmem (s.dmemIn p i) = s.dmem.mem
      rw [NativeRam.memNext, hwrite, hparts.2, Bool.and_false, Bool.and_false, if_neg Bool.false_ne_true]
    have hde : (s.next p i).core.de = s.core.de := by
      obtain ⟨⟨-, hk⟩, -, htaken, -⟩ := Core.access_of_accepts hs hparts.1
      have hst : (s.core.next p (s.coreIn p i)).ex.exStateQ = .memWait := by
        rcases Core.access_cycle (i := s.coreIn p i) hs hk with ⟨-, -, hw⟩ | ⟨-, hd, hc, -⟩
        · have hread' : s.core.de.memRead = true := by
            have hor : (s.core.de.memRead || s.core.de.memWrite) = true := hk.mem
            rwa [← (dmemIn_of_accepts hs hparts.1).1, hparts.2, Bool.or_false] at hor
          rw [htaken, hread'] at hw
          exact beq_iff_eq.mp hw
        · rw [hd, hc] at htaken
          cases htaken
      exact Core.de_of_busy hs (by rw [hst]; exact ExState.noConfusion)
    rw [hmem, hde, ← (dmemIn_of_accepts hs hparts.1).2.1]
    exact if_pos hl

/-! ### One cycle of the bytes -/

/-- The access a cycle commits. -/
private theorem access_of_event (hs : s.core.Sane p) {d : De} (he : accessEv p s i = some d) :
    d = s.core.de ∧ (s.core.de.valid = true ∧ s.core.de.HasKind .mem) ∧ s.core.de.toPeri = false ∧
      s.core.ex.memOpDone p (s.core.exIn (s.coreIn p i)) = true := by
  unfold accessEv at he
  split at he
  · rename_i hc
    rw [Bool.and_eq_true, Bool.and_eq_true, Bool.not_eq_true'] at hc
    obtain ⟨⟨hcom, hop⟩, hto⟩ := hc
    have hv : s.core.de.valid = true := by
      cases hv : s.core.de.valid with
      | true => rfl
      | false =>
        rw [(hs.ex.bubble (i := s.core.exIn (s.coreIn p i)) rfl hv).1] at hcom
        cases hcom
    obtain ⟨k, hk⟩ := (hs.fresh hv).kind
    obtain rfl : k = .mem := by
      rw [isMemOp_kind (i := s.core.exIn (s.coreIn p i)) hk, decide_eq_true_eq] at hop
      exact hop
    rw [opCommits_mem (i := s.core.exIn (s.coreIn p i)) hs.ex hk rfl hv] at hcom
    exact ⟨(Option.some.inj he).symm, ⟨hv, hk⟩, hto, hcom⟩
  · cases he

private theorem event_of_done (hs : s.core.Sane p) (hv : s.core.de.valid = true) (hk : s.core.de.HasKind .mem)
    (hto : s.core.de.toPeri = false) :
    accessEv p s i = if s.core.ex.memOpDone p (s.core.exIn (s.coreIn p i)) then some s.core.de else none := by
  have hop : isMemOp (s.core.exIn (s.coreIn p i)) = true :=
    (isMemOp_kind (i := s.core.exIn (s.coreIn p i)) hk).trans rfl
  rw [accessEv, opCommits_mem (i := s.core.exIn (s.coreIn p i)) hs.ex hk rfl hv, hop, hto, Bool.not_false,
    Bool.and_true, Bool.and_true]

/-- The bytes change by the committed stores only. -/
theorem bytes_next (hs : s.core.Sane p) (i : CoreIn) :
    ofWords 4 (s.next p i).dmem.mem = (accessEv p s i).toList.foldl (De.storeTo p) (ofWords 4 s.dmem.mem) := by
  have hmem : (s.next p i).dmem.mem =
      if s.core.ex.accepts p (s.core.exIn (s.coreIn p i)) false && (s.dmemIn p i).we then
        Function.update s.dmem.mem (NativeRam.wordAddr (dmemParams p) (s.dmemIn p i))
          (NativeRam.mergeLanes (s.dmem.mem (NativeRam.wordAddr (dmemParams p) (s.dmemIn p i))) (s.dmemIn p i).wdata
            (s.dmemIn p i).wstrb 4)
      else s.dmem.mem := by
    rw [← dmem_lanes p]
    rfl
  rw [hmem]
  cases ha : s.core.ex.accepts p (s.core.exIn (s.coreIn p i)) false with
  | true =>
    obtain ⟨⟨hv, hk⟩, hto, htaken, -⟩ := Core.access_of_accepts hs ha
    obtain ⟨hwe, haddr, hpay⟩ := dmemIn_of_accepts hs ha
    have hdone : s.core.ex.memOpDone p (s.core.exIn (s.coreIn p i)) = s.core.de.memWrite := by
      rcases Core.access_cycle (i := s.coreIn p i) hs hk with ⟨-, hd, -⟩ | ⟨-, hd, hc, -⟩
      · rw [hd, htaken, Bool.true_and]
      · rw [hd, hc] at htaken
        cases htaken
    rw [event_of_done hs hv hk hto, hdone, hwe, Bool.true_and]
    cases hw : s.core.de.memWrite with
    | false => rfl
    | true =>
      rw [if_pos rfl, if_pos rfl, haddr, (hpay hw).1, (hpay hw).2,
        merge_request hw (Core.aligned_of_taken hs hk htaken)]
      rfl
  | false =>
    rw [Bool.false_and, if_neg Bool.false_ne_true]
    cases he : accessEv p s i with
    | none => rfl
    | some d =>
      obtain ⟨rfl, ⟨hv, hk⟩, hto, hdone⟩ := access_of_event hs he
      have hread : s.core.de.memWrite = false := by
        rcases Core.access_cycle (i := s.coreIn p i) hs hk with ⟨-, hd, -⟩ | ⟨hwait, -⟩
        · rw [hdone] at hd
          have htaken := hd.symm
          rw [Bool.and_eq_true] at htaken
          have hacc := Core.accepts_of_taken hs hk htaken.1
          rw [hto, ha] at hacc
          cases hacc
        · have hone : (s.core.de.memRead && s.core.de.memWrite) = false := hk.one
          have hr : s.core.de.memRead = true := (hs.waiting hwait).2.2.1
          rwa [hr, Bool.true_and] at hone
      rw [Option.toList_some, List.foldl_cons, List.foldl_nil, De.storeTo, hread, if_neg Bool.false_ne_true]

/-- A load that commits writes back the bytes at its address. -/
theorem load_commit (h : Served p s) (hs : s.core.Sane p) (hl : s.core.de.Loads) {d : De}
    (he : accessEv p s i = some d) (hr : d.memRead = true) :
    s.core.ex.wbEn p (s.core.exIn (s.coreIn p i)) = true ∧
      s.core.ex.wbData p (s.core.exIn (s.coreIn p i)) =
        loadValue (ofWords 4 s.dmem.mem) (p.dmemByte (effAddr d)) d.memSize d.memUnsigned := by
  obtain ⟨rfl, ⟨hv, hk⟩, hto, hdone⟩ := access_of_event hs he
  have hwait : s.core.ex.exStateQ = .memWait := by
    rcases Core.access_cycle (i := s.coreIn p i) hs hk with ⟨-, hd, -⟩ | ⟨hwait, -⟩
    · have hone : (s.core.de.memRead && s.core.de.memWrite) = false := hk.one
      rw [hr, Bool.true_and] at hone
      rw [hdone, hone, Bool.and_false] at hd
      cases hd
    · exact hwait
  obtain ⟨-, hcap, -, hal⟩ := hs.waiting hwait
  have hperi : s.core.ex.memIsPeriQ = false := (Core.toPeri_captured hk hcap).trans hto
  have hland : s.dmem.rifQ = true := by
    rw [h.land, hwait, hperi]
    rfl
  have haddr : s.core.ex.memAddrQ = effAddr s.core.de := hcap.addr.trans (lsuEa_eq hk)
  have hrsp : (lsuRspWait s.core.ex (s.core.exIn (s.coreIn p i))).rdata =
      s.dmem.mem (p.dmemByte s.core.ex.memAddrQ / 4) := by
    rw [lsuRspWait, hperi, if_neg Bool.false_ne_true, haddr, ← h.word hland]
    exact dmemRsp_rdata (i := i) h
  have hcom : s.core.ex.opCommits p (s.core.exIn (s.coreIn p i)) = true :=
    (opCommits_mem (i := s.core.exIn (s.coreIn p i)) hs.ex hk rfl hv).trans hdone
  obtain ⟨hsrc, hreg⟩ := hl hr
  refine ⟨(Core.wbEn_of_commit ⟨_, hk⟩ hcom).trans hreg, ?_⟩
  have hdata := loadData_eq (q := s.core.ex) (i := s.core.exIn (s.coreIn p i))
    (by rw [haddr]; exact (Core.de_aligned_iff hk).mp hal) hrsp
  have hsrc' : (s.core.exIn (s.coreIn p i)).de.wbSrc = .mem := hsrc
  rw [wbData, hsrc', ← haddr]
  exact hdata

/-- A misaligned access neither commits nor changes a byte. -/
theorem misaligned_quiet (hs : s.core.Sane p) (hv : s.core.de.valid = true) (hk : s.core.de.HasKind .mem)
    (hm : ¬s.core.de.memSize.Aligned (effAddr s.core.de)) :
    s.core.ex.opCommits p (s.core.exIn (s.coreIn p i)) = false ∧ (s.next p i).dmem.mem = s.dmem.mem := by
  have hnot : (s.core.ex.dmemLoadHs p (s.core.exIn (s.coreIn p i)) ||
      s.core.ex.capturedHs p (s.core.exIn (s.coreIn p i))) = false := by
    cases ht : (s.core.ex.dmemLoadHs p (s.core.exIn (s.coreIn p i)) ||
      s.core.ex.capturedHs p (s.core.exIn (s.coreIn p i))) with
    | false => rfl
    | true => exact absurd (Core.aligned_of_taken hs hk ht) hm
  have hacc : s.core.ex.accepts p (s.core.exIn (s.coreIn p i)) false = false := by
    cases ha : s.core.ex.accepts p (s.core.exIn (s.coreIn p i)) false with
    | false => rfl
    | true =>
      have htaken := (Core.access_of_accepts hs ha).2.2.1
      rw [hnot] at htaken
      cases htaken
  constructor
  · rw [opCommits_mem (i := s.core.exIn (s.coreIn p i)) hs.ex hk rfl hv]
    rcases Core.access_cycle (i := s.coreIn p i) hs hk with ⟨-, hd, -⟩ | ⟨hwait, -⟩
    · rw [hd, hnot, Bool.false_and]
    · exact absurd ((Core.de_aligned_iff hk).mp (hs.waiting hwait).2.2.2) hm
  · change NativeRam.memNext (dmemParams p) s.dmem (s.dmemIn p i) = s.dmem.mem
    rw [NativeRam.memNext, NativeRam.launchWrite, launchHs_eq, hacc, Bool.false_and, Bool.and_false,
      if_neg Bool.false_ne_true]

/-! ### Runs -/

section Run

variable (p s) (inp : Nat → CoreIn)

/-- The D-mem is a byte memory under the accesses that commit. -/
structure ByteMemory : Prop where
  /-- Its bytes are those the committed stores have left, in commit order. -/
  contents : ∀ t, ofWords 4 (trace (next p) s inp t).dmem.mem =
    (logFrom (accessEv p) (next p) s inp 0 t).foldl (De.storeTo p) (ofWords 4 s.dmem.mem)
  /-- A load writes back the bytes at its address. -/
  load : ∀ t d, accessEv p (trace (next p) s inp t) (inp t) = some d → d.memRead = true →
    (trace (next p) s inp t).core.ex.wbEn p
      ((trace (next p) s inp t).core.exIn ((trace (next p) s inp t).coreIn p (inp t))) = true ∧
      (trace (next p) s inp t).core.ex.wbData p
          ((trace (next p) s inp t).core.exIn ((trace (next p) s inp t).coreIn p (inp t))) =
        loadValue ((logFrom (accessEv p) (next p) s inp 0 t).foldl (De.storeTo p) (ofWords 4 s.dmem.mem))
          (p.dmemByte (effAddr d)) d.memSize d.memUnsigned
  /-- A misaligned access does not commit, and no byte changes while it is there. -/
  misaligned : ∀ t, (trace (next p) s inp t).core.de.valid = true →
    ((trace (next p) s inp t).core.de.memRead || (trace (next p) s inp t).core.de.memWrite) = true →
    ¬(trace (next p) s inp t).core.de.memSize.Aligned (effAddr (trace (next p) s inp t).core.de) →
      (trace (next p) s inp t).core.ex.opCommits p
          ((trace (next p) s inp t).core.exIn ((trace (next p) s inp t).coreIn p (inp t))) = false ∧
        (trace (next p) s inp (t + 1)).dmem.mem = (trace (next p) s inp t).dmem.mem

variable {boot : Word} {img : Nat → BitVec 64} {rf : RegFile}

variable {p s inp}

theorem sane_run (h : s.IsReset boot img rf) (t : Nat) : (trace (next p) s inp t).core.Sane p := by
  rw [core_run]
  exact Core.sane_run h.core _ t

theorem served_run (h : s.IsReset boot img rf) (t : Nat) : Served p (trace (next p) s inp t) := by
  induction t with
  | zero =>
    refine ⟨h.dmem.count, ?_, fun hr => ?_⟩
    · rw [trace_zero, h.dmem.rif, h.core.ex]
      rfl
    · rw [trace_zero, h.dmem.rif] at hr
      cases hr
  | succ t ih => exact ih.next (sane_run h t) (inp t)

/-- **Data-memory semantics.**  In every run the D-mem is a byte memory under the loads and stores that commit. -/
theorem data_memory (h : s.IsReset boot img rf) (inp : Nat → CoreIn) : ByteMemory p s inp := by
  have hsane : ∀ t, (trace (next p) s inp t).core.Sane p := sane_run h
  have hcontents : ∀ t, ofWords 4 (trace (next p) s inp t).dmem.mem =
      (logFrom (accessEv p) (next p) s inp 0 t).foldl (De.storeTo p) (ofWords 4 s.dmem.mem) := by
    intro t
    induction t with
    | zero => rfl
    | succ t ih => rw [trace_succ, bytes_next (hsane t), ih, logFrom_succ, List.foldl_append, Nat.zero_add]
  refine ⟨hcontents, fun t d he hr => ?_, fun t hv hop hm => ?_⟩
  · have hloads : (trace (next p) s inp t).core.de.Loads := by
      rw [core_run]
      exact Core.loads_run h.core _ t
    rw [← hcontents t]
    exact load_commit (served_run h t) (hsane t) hloads he hr
  · obtain ⟨k, hk⟩ := ((hsane t).fresh hv).kind
    obtain rfl : k = .mem := by
      rw [hk.mem, decide_eq_true_eq] at hop
      exact hop
    exact misaligned_quiet (hsane t) hv hk hm

/-- `addi x1, x0, 0x7A`, `sb x1, 5(x0)` and `lw x2, 4(x0)` over a D-mem of ones. -/
def byteThenWord : CoreMem :=
  reset 0 (imgOf [0x001002A307A00093#64, 0x0000001300402103#64]) ⟨fun _ => 0⟩ fun _ => 0x01010101#32

/-- The byte is stored in cycle 5, and the load of cycle 7 commits with the word it is in. -/
theorem data_memory_store_load :
    let run := trace (next .pkg) byteThenWord fun _ => .quiet
    ((accessEv .pkg (run 5) .quiet).map (fun d => (d.pc, d.memWrite, d.memSize)) = some (4, true, .b) ∧
        (accessEv .pkg (run 7) .quiet).map (fun d => (d.pc, d.memRead, d.memSize)) = some (8, true, .w)) ∧
      ofWords 4 (run 6).dmem.mem 5 = 0x7A#8 ∧
      (run 7).core.ex.wbEn .pkg ((run 7).core.exIn ((run 7).coreIn .pkg .quiet)) = true ∧
      (run 7).core.ex.wbData .pkg ((run 7).core.exIn ((run 7).coreIn .pkg .quiet)) = 0x01017A01 ∧
      ByteMemory .pkg byteThenWord fun _ => .quiet := by
  have h : ByteMemory .pkg byteThenWord fun _ => .quiet :=
    data_memory (reset_isReset 0 (imgOf [0x001002A307A00093#64, 0x0000001300402103#64]) ⟨fun _ => 0⟩
      fun _ => 0x01010101#32) fun _ => .quiet
  obtain ⟨hwb, hdata⟩ := h.load 7 (trace (next .pkg) byteThenWord (fun _ => .quiet) 7).core.de (by decide +kernel)
    (by decide +kernel)
  refine ⟨by decide +kernel, ?_, hwb, hdata.trans ?_, h⟩
  · rw [h.contents 6]
    decide +kernel
  · decide +kernel

end Run

end CoreMem

end Yarv
