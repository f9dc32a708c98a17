import Yarv.CoreMem
import Yarv.Image
import Yarv.Retire

/-!
# The data ports

What the load/store unit puts on its two ports.  A request is the one of the memory operation in the D/E register; a
store is accepted in the cycle that commits it, a load earlier, and then nothing but its commit ends it.  From the
balance of one cycle (`port_balance`) follows that of every run: the accepted requests are those of the committed
accesses, in commit order, and of a load that still waits for its data.
-/

namespace Yarv

open Clocked ExecuteStage

/-- A request as its slave sees it; a read carries no data. -/
structure BusReq where
  write : Bool
  addr : Word
  wdata : Word
  wstrb : BitVec 4
  deriving DecidableEq, Repr

/-- What is on the wires of a port. -/
def MemReq.bus (r : MemReq) : BusReq := ⟨r.we, r.addr, if r.we then r.wdata else 0, if r.we then r.wstrb else 0⟩

/-- The bytes of an access. -/
def MemSize.bytes : MemSize → Nat
  | .b => 1
  | .h => 2
  | .w => 4

/-- The address is a multiple of the size. -/
def MemSize.Aligned (z : MemSize) (a : Word) : Prop := a.toNat % z.bytes = 0

instance (z : MemSize) (a : Word) : Decidable (z.Aligned a) := inferInstanceAs (Decidable (_ = _))

/-- The request of a load or store: the low bytes of `rs2` on the lanes of the address. -/
def De.request (d : De) : BusReq where
  write := d.memWrite
  addr := effAddr d
  wdata := if d.memWrite then d.rs2Data <<< (8 * ((effAddr d).toNat % 4)) else 0
  wstrb := if d.memWrite then BitVec.ofNat 4 ((2 ^ d.memSize.bytes - 1) * 2 ^ ((effAddr d).toNat % 4)) else 0

/-- The port an access goes to. -/
def De.toPeri (d : De) : Bool := (effAddr d).getLsbD periAddrBit

namespace ExecuteStage

section

variable {p : Params} {q : ExecuteStage} {i : ExecuteIn} {d : De}

/-! ### The request of an access -/

/-- The byte of an address in its word. -/
def lane (a : Word) : BitVec 2 := a.extractLsb' 0 2

theorem lane_toNat (a : Word) : (lane a).toNat = a.toNat % 4 := by
  rw [lane, BitVec.extractLsb'_toNat]
  simp

theorem laneShift_toNat (a : Word) : (a.extractLsb' 0 2 ++ 0#3).toNat = 8 * (a.toNat % 4) := by
  rw [BitVec.toNat_append, ← lane_toNat, BitVec.toNat_ofNat, Nat.zero_mod, Nat.or_zero,
    Nat.shiftLeft_eq, Nat.mul_comm]
  rfl

theorem aligned_iff_lane (z : MemSize) (a : Word) : z.Aligned a ↔ (lane a).toNat % z.bytes = 0 := by
  rw [lane_toNat, MemSize.Aligned]
  cases z with
  | b => simp [MemSize.bytes, Nat.mod_one]
  | h => rw [MemSize.bytes, Nat.mod_mod_of_dvd _ (by decide)]
  | w => rw [MemSize.bytes, Nat.mod_mod_of_dvd _ (by decide)]

private theorem misalignedOf_eq (z : MemSize) (a : Word) : misalignedOf z a = !decide (z.Aligned a) := by
  have hbit : a.getLsbD 0 = (lane a).getLsbD 0 := by simp [lane]
  have hal : decide (z.Aligned a) = decide ((lane a).toNat % z.bytes = 0) :=
    decide_eq_decide.mpr (aligned_iff_lane z a)
  rw [hal]
  cases z with
  | b =>
    change false = !decide ((lane a).toNat % 1 = 0)
    rw [Nat.mod_one]
    rfl
  | h =>
    change a.getLsbD 0 = _
    rw [hbit]
    generalize lane a = x
    revert x
    decide
  | w =>
    change (lane a != 0) = _
    generalize lane a = x
    revert x
    decide

/-- The strobes of an aligned access. -/
private theorem storeWstrb_eq (h : i.de.memSize.Aligned (lsuEa i)) :
    storeWstrb i = BitVec.ofNat 4 ((2 ^ i.de.memSize.bytes - 1) * 2 ^ ((lsuEa i).toNat % 4)) := by
  have hbit : (lsuEa i).extractLsb' 1 1 = (lane (lsuEa i)).extractLsb' 1 1 := by
    ext k hk
    simp [lane]
  rw [aligned_iff_lane] at h
  rw [storeWstrb, ← lane_toNat, hbit]
  change (match i.de.memSize with
    | .b => 0b0001#4 <<< lane (lsuEa i)
    | .h => 0b0011#4 <<< ((lane (lsuEa i)).extractLsb' 1 1 ++ 0#1)
    | .w => 0b1111#4) = _
  generalize lane (lsuEa i) = x at h ⊢
  cases hz : i.de.memSize with
  | b =>
    clear h hbit
    revert x
    decide
  | h =>
    rw [hz] at h
    revert x
    decide
  | w =>
    rw [hz] at h
    revert x
    decide

/-- The captured registers hold the request of the access. -/
private theorem Captured.bus (hc : Captured d q) (hk : d.HasKind .mem) (ha : d.memSize.Aligned (effAddr d)) :
    MemReq.bus ⟨true, d.memWrite, q.memAddrQ, q.memWdataQ, q.memWstrbQ, false⟩ = d.request := by
  have haddr : q.memAddrQ = effAddr d := hc.addr.trans (lsuEa_eq hk)
  have hdata : q.memWdataQ = d.rs2Data <<< (8 * ((effAddr d).toNat % 4)) := by
    rw [hc.wdata, storeWdata, lsuEa_eq hk, BitVec.shiftLeft_eq', laneShift_toNat]
    rfl
  have hstrb : q.memWstrbQ = BitVec.ofNat 4 ((2 ^ d.memSize.bytes - 1) * 2 ^ ((effAddr d).toNat % 4)) := by
    rw [← lsuEa_eq hk] at ha ⊢
    exact hc.wstrb.trans (storeWstrb_eq (i := ofDe d) ha)
  rw [MemReq.bus, De.request, haddr, hdata, hstrb]

/-- A load puts nothing but its address on the wires. -/
private theorem bus_read (hk : d.HasKind .mem) (hr : d.memRead = true) (y : Word) (z : BitVec 4) (b : Bool) :
    MemReq.bus ⟨true, false, effAddr d, y, z, b⟩ = d.request := by
  have hw : d.memWrite = false := by
    have hone := hk.one
    rwa [hr, Bool.true_and] at hone
  rw [MemReq.bus, De.request, hw]
  rfl

/-! ### The wires of a port -/

/-- The request on a port. -/
def portReq (p : Params) (q : ExecuteStage) (i : ExecuteIn) (peri : Bool) : MemReq :=
  if peri then periReq p q i else memReq p q i

/-- The response on it. -/
def portRsp (i : ExecuteIn) (peri : Bool) : MemRsp := if peri then i.periRsp else i.memRsp

/-- A request is accepted. -/
def accepts (p : Params) (q : ExecuteStage) (i : ExecuteIn) (peri : Bool) : Bool :=
  (portReq p q i peri).wvalid && (portRsp i peri).wready

private theorem readPhase_false (h : q.exStateQ ≠ .memWait) : readPhase q i = false := by
  rw [readPhase, beq_eq_false_iff_ne.mpr h, Bool.false_and]

/-- A live launch. -/
theorem portReq_live (h : dmemLoadDrive p q i = true) :
    portReq p q i false = ⟨true, false, lsuEa i, 0, 0, false⟩ ∧ (portReq p q i true).wvalid = false := by
  have hl : p.lsuLiveLoad = true ∧ memReqPending q i = true := by
    simp only [dmemLoadDrive, Bool.and_eq_true] at h
    exact ⟨h.1.1.1.1, h.1.1.1.2⟩
  have hidle : q.exStateQ = .idle := by
    have := hl.2
    simp only [memReqPending, exIdle, Bool.and_eq_true, beq_iff_eq] at this
    exact this.1.1.1.2
  have hread : readPhase q i = false := readPhase_false (by rw [hidle]; exact ExState.noConfusion)
  constructor
  · change memReq p q i = _
    unfold memReq
    rw [h, hl.1, hread]
    rfl
  · change (periReq p q i).wvalid = false
    unfold periReq
    rw [h, hl.1]
    rfl

/-- A captured launch. -/
theorem portReq_captured (h : capturedDrive p q i = true) (peri : Bool) : portReq p q i peri =
    if peri = q.memIsPeriQ then ⟨true, i.de.memWrite, q.memAddrQ, q.memWdataQ, q.memWstrbQ, false⟩
    else { idleReq with rready := false } := by
  have hnot := dmemLoadDrive_of_captured h
  have hstate : q.exStateQ = .memLaunch := by
    simp only [capturedDrive, memLaunchState, Bool.and_eq_true, beq_iff_eq] at h
    exact h.1.1
  have hread : readPhase q i = false := readPhase_false (by rw [hstate]; exact ExState.noConfusion)
  cases peri with
  | true =>
    change periReq p q i = _
    unfold periReq
    rw [hnot, hread, h]
    cases q.memIsPeriQ with
    | true => simp
    | false => simp [idleReq]
  | false =>
    change memReq p q i = _
    unfold memReq dmemStoreWe dmemCapturedDrive
    rw [hnot, hread, h]
    cases q.memIsPeriQ with
    | true => simp [idleReq]
    | false => simp

private theorem portReq_quiet (h1 : dmemLoadDrive p q i = false) (h2 : capturedDrive p q i = false) (peri : Bool) :
    (portReq p q i peri).wvalid = false := by
  cases peri with
  | true =>
    change (periReq p q i).wvalid = false
    rw [periReq_wvalid, h2, Bool.false_and]
  | false =>
    change (memReq p q i).wvalid = false
    rw [memReq_wvalid, h1, dmemCapturedDrive, h2]
    rfl

/-- A port accepts a live load, or the captured access it is for. -/
private theorem accepts_eq (peri : Bool) : accepts p q i peri =
    ((dmemLoadHs p q i && !peri) || (capturedHs p q i && (q.memIsPeriQ == peri))) := by
  unfold accepts
  cases hd : dmemLoadDrive p q i with
  | true =>
    have hc : capturedDrive p q i = false := by
      cases hc : capturedDrive p q i with
      | false => rfl
      | true =>
        rw [dmemLoadDrive_of_captured hc] at hd
        cases hd
    obtain ⟨hmem, hperi⟩ := portReq_live hd
    rw [dmemLoadHs, capturedHs, hd, hc]
    cases peri with
    | true => rw [hperi, Bool.false_and, Bool.false_and, Bool.false_and, Bool.not_true, Bool.and_false, Bool.or_false]
    | false =>
      rw [hmem, Bool.true_and, Bool.false_and, Bool.false_and, Bool.or_false, Bool.not_false, Bool.and_true]
      rfl
  | false =>
    rw [dmemLoadHs, hd, Bool.false_and, Bool.false_and, Bool.false_or, capturedHs]
    cases hc : capturedDrive p q i with
    | false => rw [portReq_quiet hd hc, Bool.false_and, Bool.false_and, Bool.false_and]
    | true =>
      rw [portReq_captured hc, lsuRspWait]
      cases q.memIsPeriQ with
      | true =>
        cases peri with
        | true =>
          rw [if_pos rfl, if_pos rfl, beq_self_eq_true, Bool.and_true]
          rfl
        | false => simp [idleReq]
      | false =>
        cases peri with
        | true => simp [idleReq]
        | false =>
          rw [if_pos rfl, if_neg Bool.false_ne_true, beq_self_eq_true, Bool.and_true]
          rfl

/-! ### When an access is done -/

/-- An access commits in the cycle its port is done with it. -/
theorem opCommits_mem (h : ExAt p i.de q) (hk : i.de.HasKind .mem) (hs : i.stall = false) (hv : i.de.valid = true) :
    opCommits p q i = memOpDone p q i := by
  have hmret : mretReq q i = false := by
    rw [mretReq, isMretOp_kind hk]
    exact Bool.and_false _
  have hready := resultReady_mem (p := p) (q := q) hk
  cases hd : memOpDone p q i with
  | false => rw [opCommits, hmret, hready, hd, Bool.and_false, Bool.false_and, Bool.or_false]
  | true =>
    have hbusy : q.exStateQ ≠ .idle ∧ misalignedTrap p q i = false := by
      rw [memOpDone] at hd
      cases hr : i.de.memRead with
      | true =>
        rw [hr, if_pos rfl, memDone, Bool.and_eq_true, beq_iff_eq] at hd
        rw [misalignedTrap, hd.1]
        refine ⟨ExState.noConfusion, ?_⟩
        cases p.lsuLiveLoad with
        | true => exact Bool.and_false _
        | false => exact Bool.and_false _
      | false =>
        rw [hr, if_neg Bool.false_ne_true, storeDone, Bool.and_eq_true, capturedHs, Bool.and_eq_true, capturedDrive,
          Bool.and_eq_true, Bool.and_eq_true, Bool.not_eq_true', memLaunchState, beq_iff_eq] at hd
        rw [hd.1.1.1.1]
        exact ⟨ExState.noConfusion, hd.1.1.2⟩
    have hhalt : q.wfiHaltQ = false := by
      cases h with
      | idle state => exact absurd state hbusy.1
      | divBusy _ _ _ halt => exact halt
      | csrWait _ _ _ halt => exact halt
      | memLaunch _ _ _ halt => exact halt
      | memTrap _ _ _ halt => exact halt
      | memWait _ _ _ halt => exact halt
    obtain ⟨hf, -, -, -, -, hint, hsync⟩ := busy_wires (p := p) hbusy.1 hs hhalt
    refine opCommits_of_ready hv hf (hready.trans hd) ?_
    rw [trapRedirectReq, hsync, hbusy.2, hmret, hint]
    rfl

/-- An access waits for data behind the edge if it was accepted, or goes on waiting. -/
private theorem exStateD_memWait : exStateD p q i = .memWait ↔
    (q.exStateQ = .idle ∧ dmemLoadHs p q i = true ∧ aluStart p q i = false) ∨
      (q.exStateQ = .memLaunch ∧ capturedHs p q i = true ∧ i.de.memRead = true) ∨
        (q.exStateQ = .memWait ∧ memDone q i = false) := by
  rw [exStateD]
  cases hst : q.exStateQ with
  | idle =>
    have hcap : dmemLoadHs p q i = true → memMisalignedLaunch p q i = false ∧ memCapture p q i = false := by
      intro hd
      have hd' : dmemLoadDrive p q i = true := by
        rw [dmemLoadHs, Bool.and_eq_true] at hd
        exact hd.1
      have hal : memMisalignedLive i = false := by
        simp only [dmemLoadDrive, Bool.and_eq_true, Bool.not_eq_true'] at hd'
        exact hd'.1.1.2
      rw [memMisalignedLaunch, memCapture, hd', hal]
      simp
    cases ha : aluStart p q i with
    | true => simp
    | false =>
      cases hd : dmemLoadHs p q i with
      | true => simp [hcap hd]
      | false =>
        cases memMisalignedLaunch p q i <;> cases memCapture p q i <;> cases csrStart p q i <;> simp
  | csrWait => simp
  | memTrap => simp
  | divBusy => cases aluResultValid q i <;> simp
  | memWait => cases memDone q i <;> simp
  | memLaunch =>
    cases hm : misalignedTrap p q i with
    | true =>
      have hc : capturedHs p q i = false := by
        rw [capturedHs, capturedDrive, hm, Bool.not_true, Bool.and_false, Bool.false_and]
      simp [hc]
    | false => cases capturedHs p q i <;> cases i.de.memRead <;> simp

end

end ExecuteStage

namespace Core

variable {p : Params} {s : Core} {i : CoreIn}

/-- The request a port accepts in a cycle. -/
def acceptEv (p : Params) (peri : Bool) (s : Core) (i : CoreIn) : Option BusReq :=
  if s.ex.accepts p (s.exIn i) peri then some (s.ex.portReq p (s.exIn i) peri).bus else none

/-- The request of the access that a cycle commits. -/
def accessEv (p : Params) (peri : Bool) (s : Core) (i : CoreIn) : Option BusReq :=
  if s.ex.opCommits p (s.exIn i) && isMemOp (s.exIn i) && s.de.toPeri == peri then some s.de.request else none

/-- The load that has been accepted and waits for its data. -/
def inFlight (peri : Bool) (s : Core) : List BusReq :=
  if s.ex.exStateQ == .memWait && s.ex.memIsPeriQ == peri then [s.de.request] else []

theorem inFlight_nil (peri : Bool) (h : s.ex.exStateQ ≠ .memWait) : inFlight peri s = [] := by
  rw [inFlight, beq_eq_false_iff_ne.mpr h, Bool.false_and, if_neg Bool.false_ne_true]

private theorem next_state : (s.next p i).ex.exStateQ = s.ex.exStateD p (s.exIn i) := rfl

/-- The D/E register keeps its word. -/
def held (p : Params) (s : Core) (i : CoreIn) : Bool := s.ex.stallO p (s.exIn i) && !s.ex.branchValid p (s.exIn i)

private theorem de_of_held (h : s.held p i = true) : (s.next p i).de = s.de := by
  rw [held, Bool.and_eq_true, Bool.not_eq_true'] at h
  rw [next_de, h.2, h.1]
  rfl

/-- An instruction that does not wait is gone behind the edge, and execute is at rest. -/
private theorem held_or_rests (h : s.Sane p) (i : CoreIn) :
    (s.held p i = true ∧ s.ex.opCommits p (s.exIn i) = false) ∨ Rests p s.ex (s.exIn i) := by
  cases hv : s.de.valid with
  | false =>
    obtain ⟨-, -, -, -, -, hrest⟩ := h.ex.bubble (i := s.exIn i) rfl hv
    exact .inr hrest
  | true =>
    obtain ⟨k, hk⟩ := (h.fresh hv).kind
    rcases h.ex.outcome (i := s.exIn i) hk rfl hv with ⟨hwait, -⟩ | ⟨-, hrest⟩ | ⟨-, hrest⟩
    · left
      rw [held, hwait.stall, branchValid_of_waits hwait ⟨k, hk⟩]
      exact ⟨rfl, hwait.commit⟩
    · exact .inr hrest
    · exact .inr hrest

/-- What is under way behind the edge was there before it. -/
theorem de_of_busy (h : s.Sane p) (hw : (s.next p i).ex.exStateQ ≠ .idle) : (s.next p i).de = s.de := by
  rcases held_or_rests h i with hheld | hrest
  · exact de_of_held hheld.1
  · exact absurd hrest.state hw

/-- An instruction that is held does not commit. -/
private theorem not_commit_of_held (h : s.Sane p) (hh : s.held p i = true) : s.ex.opCommits p (s.exIn i) = false := by
  cases hv : s.de.valid with
  | false => exact (h.ex.bubble (i := s.exIn i) rfl hv).1
  | true =>
    obtain ⟨k, hk⟩ := (h.fresh hv).kind
    rw [held, Bool.and_eq_true, Bool.not_eq_true'] at hh
    rcases h.ex.outcome (i := s.exIn i) hk rfl hv with ⟨hwait, -⟩ | ⟨hcom, -⟩ | ⟨hsq, -⟩
    · exact hwait.commit
    · rw [hcom.stall] at hh
      cases hh.1
    · exact hsq.commit

/-- The load that waits for its data. -/
theorem Sane.waiting (h : s.Sane p) (hst : s.ex.exStateQ = .memWait) :
    (s.de.valid = true ∧ s.de.HasKind .mem) ∧ Captured s.de s.ex ∧ s.de.memRead = true ∧
      memMisalignedLive (ofDe s.de) = false := by
  cases h.ex with
  | memWait _ valid kind _ _ cap read aligned => exact ⟨⟨valid, kind⟩, cap, read, aligned⟩
  | idle state => simp [hst] at state
  | divBusy state => simp [hst] at state
  | csrWait state => simp [hst] at state
  | memTrap state => simp [hst] at state
  | memLaunch state => simp [hst] at state

/-- The access in the launch state. -/
private theorem Sane.launching (h : s.Sane p) (hst : s.ex.exStateQ = .memLaunch) :
    (s.de.valid = true ∧ s.de.HasKind .mem) ∧ Captured s.de s.ex ∧
      (p.lsuLiveLoad = true → memMisalignedLive (ofDe s.de) = false) := by
  cases h.ex with
  | memLaunch _ valid kind _ _ cap live => exact ⟨⟨valid, kind⟩, cap, fun hp => (live hp).1⟩
  | idle state => simp [hst] at state
  | divBusy state => simp [hst] at state
  | csrWait state => simp [hst] at state
  | memTrap state => simp [hst] at state
  | memWait state => simp [hst] at state

/-- Without an access in the D/E register the ports are quiet. -/
theorem port_quiet (h : s.Sane p) (hm : ¬(s.de.valid = true ∧ s.de.HasKind .mem)) (peri : Bool) :
    acceptEv p peri s i = none ∧ accessEv p peri s i = none ∧ s.ex.exStateQ ≠ .memWait ∧
      (s.next p i).ex.exStateQ ≠ .memWait := by
  have hvm : (s.de.valid && isMemOp (s.exIn i)) = false := by
    cases hv : s.de.valid with
    | false => rfl
    | true =>
      obtain ⟨k, hk⟩ := (h.fresh hv).kind
      rw [Bool.true_and, isMemOp_kind (i := s.exIn i) hk, decide_eq_false_iff_not]
      rintro rfl
      exact hm ⟨hv, hk⟩
  have hlaunch : s.ex.exStateQ ≠ .memLaunch := fun hst => hm (h.launching hst).1
  have hwait : s.ex.exStateQ ≠ .memWait := fun hst => hm (h.waiting hst).1
  have hpend : memReqPending s.ex (s.exIn i) = false := by
    have hvm' : ((s.exIn i).de.valid && isMemOp (s.exIn i)) = false := hvm
    rw [memReqPending, hvm']
    rfl
  have hlive : s.ex.dmemLoadHs p (s.exIn i) = false := by
    rw [dmemLoadHs, dmemLoadDrive, hpend, Bool.and_false]
    rfl
  have hcap : s.ex.capturedHs p (s.exIn i) = false := by
    rw [capturedHs, capturedDrive, memLaunchState, beq_eq_false_iff_ne.mpr hlaunch]
    rfl
  refine ⟨?_, ?_, hwait, ?_⟩
  · rw [acceptEv, accepts_eq, hlive, hcap, Bool.false_and, Bool.false_and, Bool.or_false, if_neg Bool.false_ne_true]
  · rw [accessEv]
    cases hc : s.ex.opCommits p (s.exIn i) with
    | false => rfl
    | true =>
      have hv : s.de.valid = true := by
        cases hv : s.de.valid with
        | true => rfl
        | false =>
          rw [(h.ex.bubble (i := s.exIn i) rfl hv).1] at hc
          cases hc
      rw [hv, Bool.true_and] at hvm
      rw [hvm]
      rfl
  · rw [next_state, ne_eq, exStateD_memWait, hlive, hcap]
    rintro (⟨-, h1, -⟩ | ⟨-, h1, -⟩ | ⟨h1, -⟩)
    · cases h1
    · cases h1
    · exact hwait h1

private theorem toPeri_eq (hk : s.de.HasKind .mem) : isPeriLive (s.exIn i) = s.de.toPeri := by
  have hea : lsuEa (s.exIn i) = effAddr s.de := lsuEa_eq hk
  rw [isPeriLive, hea]
  rfl

theorem toPeri_captured (hk : s.de.HasKind .mem) (hc : Captured s.de s.ex) : s.ex.memIsPeriQ = s.de.toPeri := by
  rw [hc.peri, isPeriLive, lsuEa_eq hk]
  rfl

private theorem memReqPending_of_live (h : s.ex.dmemLoadDrive p (s.exIn i) = true) :
    memReqPending s.ex (s.exIn i) = true := by
  simp only [dmemLoadDrive, Bool.and_eq_true] at h
  exact h.1.1.1.2

/-- The request behind a live launch is that of the load in the D/E register. -/
private theorem live_request (hk : s.de.HasKind .mem) (h : s.ex.dmemLoadDrive p (s.exIn i) = true) :
    s.de.memRead = true ∧ s.de.toPeri = false ∧ (s.ex.portReq p (s.exIn i) false).bus = s.de.request := by
  have hparts := h
  simp only [dmemLoadDrive, Bool.and_eq_true, Bool.not_eq_true'] at hparts
  have hr : s.de.memRead = true := hparts.2
  have hea : lsuEa (s.exIn i) = effAddr s.de := lsuEa_eq hk
  rw [← toPeri_eq (i := i) hk, (portReq_live h).1, hea]
  exact ⟨hr, hparts.1.2, bus_read hk hr _ _ _⟩

/-- The request behind a captured launch is that of the access in the D/E register. -/
private theorem captured_request (hk : s.de.HasKind .mem) (hc : Captured s.de s.ex)
    (h : s.ex.capturedDrive p (s.exIn i) = true) (hal : s.de.memSize.Aligned (effAddr s.de)) :
    (s.ex.portReq p (s.exIn i) s.de.toPeri).bus = s.de.request := by
  rw [portReq_captured h, if_pos (toPeri_captured hk hc).symm]
  exact hc.bus hk hal

theorem de_aligned_iff {d : De} (hk : d.HasKind .mem) :
    memMisalignedLive (ofDe d) = false ↔ d.memSize.Aligned (effAddr d) := by
  rw [memMisalignedLive, lsuEa_eq hk, misalignedOf_eq, Bool.not_eq_false', decide_eq_true_iff]
  rfl

/-- In the launch state an access is driven unless it is misaligned. -/
private theorem capturedDrive_eq (hst : s.ex.exStateQ = .memLaunch) (hv : s.de.valid = true) (hc : Captured s.de s.ex)
    (hl : p.lsuLiveLoad = true → memMisalignedLive (ofDe s.de) = false) :
    s.ex.capturedDrive p (s.exIn i) = !memMisalignedLive (ofDe s.de) := by
  have hmis : s.ex.misalignedTrap p (s.exIn i) = memMisalignedLive (ofDe s.de) := by
    have hv' : (s.exIn i).de.valid = true := hv
    have hq : s.ex.memMisalignedQ (s.exIn i) = memMisalignedLive (ofDe s.de) :=
      memMisalignedQ_captured (i := s.exIn i) hc
    rw [misalignedTrap, hst, hv', hq]
    cases hp : p.lsuLiveLoad with
    | true =>
      rw [hl hp]
      rfl
    | false => rfl
  have hv' : (s.exIn i).de.valid = true := hv
  rw [capturedDrive, memLaunchState, hst, hv', hmis]
  rfl

/-- The captured target of an access that execute is busy with. -/
theorem toPeri_busy (h : s.Sane p) (hk : s.de.HasKind .mem) (hst : s.ex.exStateQ ≠ .idle) :
    s.ex.memIsPeriQ = s.de.toPeri := by
  cases h.ex with
  | idle state => exact absurd state hst
  | divBusy _ _ kind => exact absurd (hk.unique kind) (by decide)
  | csrWait _ _ kind => exact absurd (hk.unique kind) (by decide)
  | memLaunch _ _ _ _ _ cap => exact toPeri_captured hk cap
  | memTrap _ _ _ _ _ cap => exact toPeri_captured hk cap
  | memWait _ _ _ _ _ cap => exact toPeri_captured hk cap

private theorem state_of_captured (h : s.ex.capturedDrive p (s.exIn i) = true) : s.ex.exStateQ = .memLaunch := by
  rw [capturedDrive, Bool.and_eq_true, Bool.and_eq_true, memLaunchState, beq_iff_eq] at h
  exact h.1.1

/-- A captured launch is aligned. -/
theorem aligned_of_captured (h : s.Sane p) (hk : s.de.HasKind .mem) (hd : s.ex.capturedDrive p (s.exIn i) = true) :
    s.de.memSize.Aligned (effAddr s.de) := by
  have hst := state_of_captured hd
  obtain ⟨⟨hv, -⟩, hcap, hlive⟩ := h.launching hst
  rw [capturedDrive_eq hst hv hcap hlive, Bool.not_eq_true'] at hd
  exact (de_aligned_iff hk).mp hd

/-- What a port accepts is the request of the access, and it is the port of the access. -/
theorem acceptEv_mem (h : s.Sane p) (hk : s.de.HasKind .mem) (peri : Bool) : acceptEv p peri s i =
    if (s.ex.dmemLoadHs p (s.exIn i) || s.ex.capturedHs p (s.exIn i)) && s.de.toPeri == peri then some s.de.request
    else none := by
  have hbus : s.ex.accepts p (s.exIn i) peri =
      ((s.ex.dmemLoadHs p (s.exIn i) || s.ex.capturedHs p (s.exIn i)) && s.de.toPeri == peri) ∧
      (s.ex.accepts p (s.exIn i) peri = true → (s.ex.portReq p (s.exIn i) peri).bus = s.de.request) := by
    rw [accepts_eq]
    cases hd : s.ex.dmemLoadHs p (s.exIn i) with
    | true =>
      have hdrive : s.ex.dmemLoadDrive p (s.exIn i) = true := by
        rw [dmemLoadHs, Bool.and_eq_true] at hd
        exact hd.1
      obtain ⟨-, hport, hreq⟩ := live_request hk hdrive
      have hcap : s.ex.capturedHs p (s.exIn i) = false := by
        cases hc : s.ex.capturedHs p (s.exIn i) with
        | false => rfl
        | true =>
          rw [capturedHs, Bool.and_eq_true] at hc
          rw [dmemLoadDrive_of_captured hc.1] at hdrive
          cases hdrive
      rw [hcap, hport]
      cases peri with
      | false => exact ⟨rfl, fun _ => hreq⟩
      | true => exact ⟨rfl, fun hn => absurd hn Bool.false_ne_true⟩
    | false =>
      cases hc : s.ex.capturedHs p (s.exIn i) with
      | false => exact ⟨rfl, fun hn => absurd hn Bool.false_ne_true⟩
      | true =>
        have hdrive : s.ex.capturedDrive p (s.exIn i) = true := by
          rw [capturedHs, Bool.and_eq_true] at hc
          exact hc.1
        have hst := state_of_captured hdrive
        have hport := toPeri_busy h hk (by rw [hst]; exact ExState.noConfusion)
        rw [hport, Bool.false_and, Bool.false_or, Bool.false_or]
        refine ⟨rfl, fun hp => ?_⟩
        rw [Bool.true_and, beq_iff_eq] at hp
        rw [← hp]
        exact captured_request hk (h.launching hst).2.1 hdrive (aligned_of_captured h hk hdrive)
  rw [acceptEv, ← hbus.1]
  cases ha : s.ex.accepts p (s.exIn i) peri with
  | true => rw [if_pos rfl, if_pos rfl, hbus.2 ha]
  | false => rw [if_neg Bool.false_ne_true, if_neg Bool.false_ne_true]

/-- The cycle of an access: an accepted store commits, an accepted load waits, a load that waits commits with its
data. -/
theorem access_cycle (h : s.Sane p) (hk : s.de.HasKind .mem) :
    (s.ex.exStateQ ≠ .memWait ∧
      s.ex.memOpDone p (s.exIn i) =
        ((s.ex.dmemLoadHs p (s.exIn i) || s.ex.capturedHs p (s.exIn i)) && s.de.memWrite) ∧
      ((s.next p i).ex.exStateQ == .memWait) =
        ((s.ex.dmemLoadHs p (s.exIn i) || s.ex.capturedHs p (s.exIn i)) && s.de.memRead)) ∨
    (s.ex.exStateQ = .memWait ∧ s.ex.dmemLoadHs p (s.exIn i) = false ∧ s.ex.capturedHs p (s.exIn i) = false ∧
      ((s.next p i).ex.exStateQ == .memWait) = !s.ex.memOpDone p (s.exIn i)) := by
  have hmem : (s.de.memRead || s.de.memWrite) = true := hk.mem
  have hone : (s.de.memRead && s.de.memWrite) = false := hk.one
  have halu : s.ex.aluStart p (s.exIn i) = false := by
    rw [aluStart, isDivOp_kind (i := s.exIn i) hk, decide_eq_false (by decide), Bool.and_false]
    rfl
  have hdrive : s.ex.dmemLoadHs p (s.exIn i) = true → s.ex.exStateQ = .idle ∧ s.de.memRead = true := by
    intro hd
    rw [dmemLoadHs, Bool.and_eq_true] at hd
    have hpend := memReqPending_of_live hd.1
    simp only [memReqPending, exIdle, Bool.and_eq_true, beq_iff_eq] at hpend
    exact ⟨hpend.1.1.1.2, (live_request hk hd.1).1⟩
  have hcap : s.ex.capturedHs p (s.exIn i) = true → s.ex.exStateQ = .memLaunch := by
    intro hc
    rw [capturedHs, Bool.and_eq_true] at hc
    exact state_of_captured hc.1
  have hdone : s.ex.memOpDone p (s.exIn i) =
      if s.de.memRead then s.ex.memDone (s.exIn i) else s.ex.capturedHs p (s.exIn i) && s.de.memWrite := rfl
  by_cases hst : s.ex.exStateQ = .memWait
  · have hd : s.ex.dmemLoadHs p (s.exIn i) = false := by
      cases hd : s.ex.dmemLoadHs p (s.exIn i) with
      | false => rfl
      | true =>
        rw [(hdrive hd).1] at hst
        cases hst
    have hc : s.ex.capturedHs p (s.exIn i) = false := by
      cases hc : s.ex.capturedHs p (s.exIn i) with
      | false => rfl
      | true =>
        rw [hcap hc] at hst
        cases hst
    have hr : s.de.memRead = true := (h.waiting hst).2.2.1
    refine .inr ⟨hst, hd, hc, ?_⟩
    rw [hdone, hr, if_pos rfl, Bool.eq_iff_iff, beq_iff_eq, next_state, exStateD_memWait, hd, hc, hst,
      Bool.not_eq_true']
    simp
  · have hwait : s.ex.memDone (s.exIn i) = false := by
      rw [memDone, beq_eq_false_iff_ne.mpr hst]
      rfl
    refine .inl ⟨hst, ?_, ?_⟩
    · rw [hdone, hwait]
      cases hr : s.de.memRead with
      | true =>
        rw [hr, Bool.true_and] at hone
        rw [if_pos rfl, hone, Bool.and_false]
      | false =>
        have hd : s.ex.dmemLoadHs p (s.exIn i) = false := by
          cases hd : s.ex.dmemLoadHs p (s.exIn i) with
          | false => rfl
          | true =>
            rw [(hdrive hd).2] at hr
            cases hr
        rw [if_neg Bool.false_ne_true, hd, Bool.false_or]
    · rw [Bool.eq_iff_iff, beq_iff_eq, next_state, exStateD_memWait, Bool.and_eq_true, Bool.or_eq_true]
      constructor
      · rintro (⟨-, hd, -⟩ | ⟨-, hc, hr⟩ | ⟨hw, -⟩)
        · exact ⟨.inl hd, (hdrive hd).2⟩
        · exact ⟨.inr hc, hr⟩
        · exact absurd hw hst
      · rintro ⟨hd | hc, hr⟩
        · exact .inl ⟨(hdrive hd).1, hd, halu⟩
        · exact .inr (.inl ⟨hcap hc, hc, hr⟩)

/-- One cycle of a port: what is accepted commits, now or when its data has come. -/
theorem port_balance (h : s.Sane p) (i : CoreIn) (peri : Bool) :
    inFlight peri s ++ (acceptEv p peri s i).toList = (accessEv p peri s i).toList ++ inFlight peri (s.next p i) := by
  by_cases hmem : s.de.valid = true ∧ s.de.HasKind .mem
  case neg =>
    obtain ⟨h1, h2, h3, h4⟩ := port_quiet (i := i) h hmem peri
    rw [h1, h2, inFlight_nil peri h3, inFlight_nil peri h4]
    rfl
  obtain ⟨hv, hk⟩ := hmem
  have hop : isMemOp (s.exIn i) = true := (isMemOp_kind (i := s.exIn i) hk).trans rfl
  have hcommit : accessEv p peri s i =
      if s.ex.memOpDone p (s.exIn i) && s.de.toPeri == peri then some s.de.request else none := by
    rw [accessEv, opCommits_mem (i := s.exIn i) h.ex hk rfl hv, hop, Bool.and_true]
  -- an access that waits behind the edge is this one
  have hnext : inFlight peri (s.next p i) =
      if (s.next p i).ex.exStateQ == .memWait && s.de.toPeri == peri then [s.de.request] else [] := by
    cases hst : (s.next p i).ex.exStateQ == .memWait with
    | false =>
      rw [inFlight, hst, Bool.false_and, Bool.false_and]
      rfl
    | true =>
      rw [beq_iff_eq] at hst
      have hde := de_of_busy h (by rw [hst]; exact ExState.noConfusion)
      have hport := toPeri_busy (h.next i) (by rw [hde]; exact hk) (by rw [hst]; exact ExState.noConfusion)
      rw [inFlight, hport, hde, hst]
      rfl
  rw [hnext, hcommit, acceptEv_mem h hk]
  rcases access_cycle (i := i) h hk with ⟨hst, hdone, hw⟩ | ⟨hst, hd, hc, hw⟩
  · have hmem : s.de.memWrite = !s.de.memRead := by
      have h1 : (s.de.memRead || s.de.memWrite) = true := hk.mem
      have h2 : (s.de.memRead && s.de.memWrite) = false := hk.one
      revert h1 h2
      cases s.de.memRead <;> cases s.de.memWrite <;> simp
    rw [inFlight_nil peri hst, hdone, hw, hmem]
    cases s.ex.dmemLoadHs p (s.exIn i) || s.ex.capturedHs p (s.exIn i) <;> cases s.de.memRead <;>
      cases s.de.toPeri == peri <;> rfl
  · have hport := toPeri_busy h hk (by rw [hst]; exact ExState.noConfusion)
    rw [inFlight, hst, hport, hd, hc, hw]
    cases s.ex.memOpDone p (s.exIn i) <;> cases s.de.toPeri == peri <;> rfl


/-! ### Runs -/

section Run

variable (p s) (inp : Nat → CoreIn)

/-- An instruction is in the D/E register from cycle `a` to cycle `b`. -/
structure Stay (a b : Nat) : Prop where
  le : a ≤ b
  enters : a = 0 ∨ ∃ u, a = u + 1 ∧ (trace (next p) s inp u).held p (inp u) = false
  stays : ∀ v, a ≤ v → v < b → (trace (next p) s inp v).held p (inp v) = true
  leaves : (trace (next p) s inp b).held p (inp b) = false

/-- The requests of a port and the accesses of the program. -/
structure ExactlyOnce : Prop where
  /-- The accepted requests are those of the committed accesses, in commit order, and of a load that waits. -/
  log : ∀ peri t, logFrom (acceptEv p peri) (next p) s inp 0 t =
    logFrom (accessEv p peri) (next p) s inp 0 t ++ inFlight peri (trace (next p) s inp t)
  /-- In its stay an instruction has its request accepted once if it commits as an access to the port, and never
  otherwise. -/
  one : ∀ peri a b, Stay p s inp a b → logFrom (acceptEv p peri) (next p) s inp a (b - a + 1) =
    (accessEv p peri (trace (next p) s inp b) (inp b)).toList
  /-- A request stays on the wires until it is accepted. -/
  stable : ∀ peri t,
    ((trace (next p) s inp t).ex.portReq p ((trace (next p) s inp t).exIn (inp t)) peri).wvalid = true →
    (portRsp ((trace (next p) s inp t).exIn (inp t)) peri).wready = false →
      (trace (next p) s inp (t + 1)).ex.portReq p ((trace (next p) s inp (t + 1)).exIn (inp (t + 1))) peri =
        (trace (next p) s inp t).ex.portReq p ((trace (next p) s inp t).exIn (inp t)) peri

end Run

/-- A request that is not accepted is there in the next cycle, whatever that brings. -/
private theorem portReq_stable (h : s.Sane p) {peri : Bool} (hw : (s.ex.portReq p (s.exIn i) peri).wvalid = true)
    (hr : (portRsp (s.exIn i) peri).wready = false) (j : CoreIn) :
    (s.next p i).ex.portReq p ((s.next p i).exIn j) peri = s.ex.portReq p (s.exIn i) peri := by
  cases hd : s.ex.dmemLoadDrive p (s.exIn i) with
  | true =>
    have hperi : peri = false := by
      cases peri with
      | false => rfl
      | true =>
        rw [(portReq_live hd).2] at hw
        cases hw
    subst hperi
    have hready : i.memRsp.wready = false := hr
    have hpend := memReqPending_of_live hd
    have hparts := hd
    simp only [dmemLoadDrive, memReqPending, Bool.and_eq_true, Bool.not_eq_true'] at hparts
    obtain ⟨⟨⟨⟨hlive, ⟨⟨⟨⟨hv, hop⟩, hidle⟩, hfr⟩, hexc⟩, hhalt⟩, hal⟩, hperi⟩, hread⟩ := hparts
    have hv' : s.de.valid = true := hv
    obtain ⟨k, hk⟩ := (h.fresh hv').kind
    obtain rfl : k = .mem := by
      rw [isMemOp_kind (i := s.exIn i) hk, decide_eq_true_eq] at hop
      exact hop
    have hst : s.ex.exStateQ = .idle := by rwa [exIdle, beq_iff_eq] at hidle
    have halu : s.ex.aluStart p (s.exIn i) = false := by
      rw [aluStart, isDivOp_kind (i := s.exIn i) hk, decide_eq_false (by decide), Bool.and_false]
      rfl
    have hcsr : s.ex.csrStart p (s.exIn i) = false := by
      rw [csrStart, isCsrOp_kind (i := s.exIn i) hk, decide_eq_false (by decide), Bool.and_false]
      rfl
    have hmis : s.ex.memMisalignedLaunch p (s.exIn i) = false := by rw [memMisalignedLaunch, hal, Bool.and_false]
    have hcap : s.ex.memCapture p (s.exIn i) = false := by
      rw [memCapture, hd, Bool.not_true, Bool.and_false, Bool.false_and]
    have hhs : s.ex.dmemLoadHs p (s.exIn i) = false := by
      rw [dmemLoadHs, hd, Bool.true_and]
      exact hready
    have hnext : (s.next p i).ex.exStateQ = .idle := by
      rw [next_state, exStateD_idle hst, halu, hmis, hcap, hhs, hcsr]
      rfl
    have hmt : s.ex.misalignedTrap p (s.exIn i) = false := misalignedTrap_idle hst
    have hmret : s.ex.mretReq (s.exIn i) = false := by
      rw [mretReq, isMretOp_kind (i := s.exIn i) hk, decide_eq_false (by decide), Bool.and_false]
    have htrap : s.ex.trapRedirectReq p (s.exIn i) = false := by
      rw [trapRedirectReq, hmret, syncTrapReq, hmt, hexc, takeInterrupt, normalIntEligible, hop, hhalt]
      simp
    have hbranch : s.ex.branchValid p (s.exIn i) = false := by
      have hcf : s.ex.cfResolving p (s.exIn i) = false := by
        cases hcf : s.ex.cfResolving p (s.exIn i) with
        | false => rfl
        | true => exact absurd (opCommits_of_cfResolving (i := s.exIn i) hk hcf).2 (by decide)
      rw [branchValid, mispredict, hcf, htrap]
      rfl
    have hstall : s.ex.stallO p (s.exIn i) = true := by
      have hsd : s.ex.storeDone p (s.exIn i) = false := by
        rw [storeDone, capturedHs, capturedDrive, memLaunchState, hst]
        rfl
      rw [stallO, hpend, hsd]
      simp
    have hde : (s.next p i).de = s.de := de_of_held (by rw [held, hstall, hbranch]; rfl)
    have hhalt' : (s.next p i).ex.wfiHaltQ = false := by
      have hret : s.ex.wfiRetire p (s.exIn i) = false := by
        rw [wfiRetire, isWfiOp_kind (i := s.exIn i) hk, decide_eq_false (by decide), Bool.and_false, Bool.false_and,
          Bool.false_and]
      change (s.ex.wfiRetire p (s.exIn i) || (s.ex.wfiHaltQ && _)) = false
      rw [hret, hhalt]
      rfl
    have hin : ((s.next p i).exIn j).de = (s.exIn i).de := hde
    have hea : lsuEa ((s.next p i).exIn j) = lsuEa (s.exIn i) := by
      change lsuEa (ofDe ((s.next p i).exIn j).de) = lsuEa (ofDe (s.exIn i).de)
      rw [hin]
    have hd' : (s.next p i).ex.dmemLoadDrive p ((s.next p i).exIn j) = true := by
      have hfr' : freeze (s.next p i).ex ((s.next p i).exIn j) = false := by
        rw [freeze, wfiStall, hhalt']
        rfl
      have hop' : isMemOp ((s.next p i).exIn j) = true := by rwa [isMemOp, hin]
      rw [dmemLoadDrive, memReqPending, exIdle, hnext, hfr', hop', memMisalignedLive, isPeriLive, hea, hin,
        hlive, hv, hexc, hhalt', hread]
      rw [memMisalignedLive] at hal
      rw [isPeriLive] at hperi
      rw [hal, hperi]
      rfl
    rw [(portReq_live hd').1, (portReq_live hd).1, hea]
  | false =>
    cases hc : s.ex.capturedDrive p (s.exIn i) with
    | false =>
      rw [portReq_quiet hd hc] at hw
      cases hw
    | true =>
      have hport : peri = s.ex.memIsPeriQ := by
        by_contra hne
        rw [portReq_captured hc, if_neg hne] at hw
        cases hw
      have hhs : s.ex.capturedHs p (s.exIn i) = false := by
        have hrsp : portRsp (s.exIn i) peri = s.ex.lsuRspWait (s.exIn i) := by
          rw [hport]
          rfl
        rw [capturedHs, ← hrsp, hr, Bool.and_false]
      have hparts := hc
      rw [capturedDrive, memLaunchState, Bool.and_eq_true, Bool.and_eq_true, beq_iff_eq, Bool.not_eq_true'] at hparts
      obtain ⟨⟨hst, hv⟩, hmt⟩ := hparts
      have hnext : (s.next p i).ex.exStateQ = .memLaunch := by
        rw [next_state, exStateD, hst]
        simp only [hmt, hhs, Bool.false_eq_true, if_false]
      have hde := de_of_busy h (i := i) (by rw [hnext]; exact ExState.noConfusion)
      have hpend : memReqPending s.ex (s.exIn i) = false := by
        rw [memReqPending, exIdle, hst]
        simp
      have haddr : (s.next p i).ex.memAddrQ = s.ex.memAddrQ := by
        change (if memReqPending s.ex (s.exIn i) then _ else s.ex.memAddrQ) = _
        rw [hpend, if_neg Bool.false_ne_true]
      have hdata : (s.next p i).ex.memWdataQ = s.ex.memWdataQ := by
        change (if memReqPending s.ex (s.exIn i) then _ else s.ex.memWdataQ) = _
        rw [hpend, if_neg Bool.false_ne_true]
      have hstrb : (s.next p i).ex.memWstrbQ = s.ex.memWstrbQ := by
        change (if memReqPending s.ex (s.exIn i) then _ else s.ex.memWstrbQ) = _
        rw [hpend, if_neg Bool.false_ne_true]
      have hperi : (s.next p i).ex.memIsPeriQ = s.ex.memIsPeriQ := by
        change (if memReqPending s.ex (s.exIn i) then _ else s.ex.memIsPeriQ) = _
        rw [hpend, if_neg Bool.false_ne_true]
      have hin : ((s.next p i).exIn j).de = (s.exIn i).de := hde
      have hc' : (s.next p i).ex.capturedDrive p ((s.next p i).exIn j) = true := by
        have hmt' : (s.next p i).ex.misalignedTrap p ((s.next p i).exIn j) = s.ex.misalignedTrap p (s.exIn i) := by
          rw [misalignedTrap, misalignedTrap, hnext, hst, hin, memMisalignedQ, memMisalignedQ, haddr, hin]
        rw [capturedDrive, memLaunchState, hnext, hin, hv, hmt', hmt]
        rfl
      rw [portReq_captured hc', portReq_captured hc, haddr, hdata, hstrb, hperi, hin]

variable {inp : Nat → CoreIn} {boot : Word} {img : Nat → BitVec 64} {rf : RegFile}

/-- Execute has nothing under way when an instruction enters. -/
private theorem inFlight_enters (h : s.IsReset boot img rf) {a : Nat}
    (hin : a = 0 ∨ ∃ u, a = u + 1 ∧ (trace (next p) s inp u).held p (inp u) = false) (peri : Bool) :
    inFlight peri (trace (next p) s inp a) = [] := by
  apply inFlight_nil
  rcases hin with rfl | ⟨u, rfl, hu⟩
  · rw [trace_zero, h.ex]
    exact ExState.noConfusion
  · have hrest : Rests p (trace (next p) s inp u).ex ((trace (next p) s inp u).exIn (inp u)) := by
      rcases held_or_rests (sane_run (p := p) h inp u) (inp u) with ⟨hh, -⟩ | hrest
      · rw [hu] at hh
        cases hh
      · exact hrest
    have hidle : (trace (next p) s inp (u + 1)).ex.exStateQ = .idle := hrest.state
    rw [hidle]
    exact ExState.noConfusion

/-- Each access is accepted exactly once on its port, in every run. -/
theorem exactlyOnce (h : s.IsReset boot img rf) (inp : Nat → CoreIn) : ExactlyOnce p s inp := by
  have hsane := sane_run (p := p) h inp
  refine ⟨fun peri t => ?_, fun peri a b hstay => ?_, fun peri t hw hr => ?_⟩
  · have h0 : inFlight peri (trace (next p) s inp 0) = [] := inFlight_enters h (.inl rfl) peri
    exact logFrom_balance h0 t fun k _ => port_balance (hsane k) (inp k) peri
  · have hlast : a + (b - a) = b := by
      have := hstay.le
      omega
    have hquiet : logFrom (accessEv p peri) (next p) s inp a (b - a) = [] := by
      refine logFrom_eq_nil.mpr fun k hk => ?_
      have hcom := not_commit_of_held (hsane (a + k)) (hstay.stays (a + k) (by omega) (by omega))
      rw [accessEv, hcom]
      rfl
    have hbal := logFrom_balance_from a (b - a + 1) fun k _ => port_balance (hsane (a + k)) (inp (a + k)) peri
    have hlog : logFrom (accessEv p peri) (next p) s inp a (b - a + 1) =
        (accessEv p peri (trace (next p) s inp b) (inp b)).toList := by
      rw [logFrom_succ, hquiet, List.nil_append, hlast]
    rw [inFlight_enters h hstay.enters, List.nil_append, hlog, ← Nat.add_assoc, hlast,
      inFlight_enters h (.inr ⟨b, rfl, hstay.leaves⟩), List.append_nil] at hbal
    exact hbal
  · exact portReq_stable (hsane t) hw hr (inp (t + 1))

/-- **The bus protocol of loads and stores.**  In every run each access is accepted exactly once; and two runs, of any
two builds, that commit the same accesses have had the same requests accepted, but for a load that still waits. -/
theorem lsu_exactly_once (h : s.IsReset boot img rf) (inp : Nat → CoreIn) : ExactlyOnce p s inp ∧
    ∀ (p' : Params) (s' : Core) (boot' : Word) (img' : Nat → BitVec 64) (rf' : RegFile)
      (inp' : Nat → CoreIn) (peri : Bool)
      (t t' : Nat), s'.IsReset boot' img' rf' →
      logFrom (accessEv p peri) (next p) s inp 0 t = logFrom (accessEv p' peri) (next p') s' inp' 0 t' →
      ∃ l, logFrom (acceptEv p peri) (next p) s inp 0 t = l ++ inFlight peri (trace (next p) s inp t) ∧
        logFrom (acceptEv p' peri) (next p') s' inp' 0 t' = l ++ inFlight peri (trace (next p') s' inp' t') := by
  refine ⟨exactlyOnce h inp, fun p' s' boot' img' rf' inp' peri t t' h' heq => ?_⟩
  refine ⟨_, (exactlyOnce h inp).log peri t, ?_⟩
  rw [heq]
  exact (exactlyOnce h' inp').log peri t'

/-- The builds with and without the live launch. -/
def liveBuild (b : Bool) : Params := { Params.pkg with lsuLiveLoad := b }

/-- `lw x1, 0(x0)`, `csrr x2, mcycle`, `sw x2, 4(x0)`. -/
def cycleProgram : Nat → BitVec 64 := imgOf [0xB000217300002083#64, 0x0000001300202223#64]

/-- The theorem on that program. -/
theorem lsu_exactly_once_cycle : ExactlyOnce (liveBuild true) (reset 0 cycleProgram ⟨fun _ => 0⟩) fun _ => .quiet :=
  (lsu_exactly_once (reset_isReset 0 cycleProgram ⟨fun _ => 0⟩) fun _ => .quiet).1

/-- Over the same D-mem the two builds store different counts. -/
theorem builds_issue_differently :
    let requests (b : Bool) := logFrom (fun s i => acceptEv (liveBuild b) false s.core (s.coreIn (liveBuild b) i))
      (CoreMem.next (liveBuild b)) (CoreMem.reset 0 cycleProgram ⟨fun _ => 0⟩ fun _ => 0) (fun _ => .quiet) 0 10
    requests true = [⟨false, 0, 0, 0⟩, ⟨true, 4, 5, 0b1111#4⟩] ∧
      requests false = [⟨false, 0, 0, 0⟩, ⟨true, 4, 6, 0b1111#4⟩] := by
  decide +kernel

end Core

end Yarv
