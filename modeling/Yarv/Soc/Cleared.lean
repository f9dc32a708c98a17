import Yarv.Soc.TopRun

/-!
# Interrupts whose condition is gone

A store to a peripheral is performed in the cycle it retires, unless it is a byte for a full FIFO
(`stores_performed`).  An interrupt that is taken has had its condition as many cycles before as flops stand between
the two: the one of `mip`, and for the timer the two of its compare (`due_of_takes`).  So a store that removes the
condition is followed by no such interrupt once they have caught up, and by none at all if the global enable stays off
so long or an `mret` comes next, behind which the pipeline is empty for two cycles (`cleared_interrupt`).
-/

namespace Yarv

open Clocked ByteMem ExecuteStage MmioPath

/-! ### Behind an `mret` -/

namespace Core

variable {p : Params} {s : Core} {i : CoreIn}

/-- Nothing is on its way into the D/E register, and the core is awake. -/
structure Empty (s : Core) : Prop where
  de : s.de.valid = false
  fetch : s.fe.fetch.feValid = false
  hold : s.fe.decode.holdQ = false
  awake : s.ex.wfiHaltQ = false

/-- An `mret` empties the pipeline. -/
private theorem empty_of_mret (h : s.Sane p) (hm : s.ex.mretReq (s.exIn i) = true) : (s.next p i).Empty := by
  have hb : s.ex.branchValid p (s.exIn i) = true := by simp [branchValid, trapRedirectReq, hm]
  have hparts := hm
  simp only [mretReq, Bool.and_eq_true, Bool.not_eq_true', isMretOp, beq_iff_eq] at hparts
  refine ⟨?_, ?_, ?_, ?_⟩
  · rw [next_de, hb, if_pos rfl]
    rfl
  · have hr : FetchStage.redirect (s.fe.fetchIn p (s.feIn p i)) = true := by
      rw [FrontEnd.redirect_eq, show (s.feIn p i).branchValid = true from hb, Bool.true_or]
    have hcount : (s.next p i).fe.fetch.countQ = 0 := if_pos hr
    rw [FetchStage.feValid, hcount]
    rfl
  · change (DecodeStage.holdD p s.fe.decode (s.fe.decodeIn (s.feIn p i))).holdQ = false
    rw [DecodeStage.holdD, FrontEnd.decodeIn_flush, show (s.feIn p i).branchValid = true from hb, if_pos rfl]
  · rw [← Bool.not_eq_true]
    intro hh
    rcases halted_next h hh with hstall | ⟨-, -, hwfi⟩
    · rw [freeze, hstall, Bool.or_true] at hparts
      cases hparts.1.1.2
    · rw [exIn_de, hwfi] at hparts
      cases hparts.2

/-- One cycle later still nothing has arrived. -/
private theorem Empty.next (h : s.Empty) (hs : s.Sane p) :
    (s.next p i).de.valid = false ∧ (s.next p i).ex.wfiHaltQ = false := by
  constructor
  · rw [next_de]
    split_ifs
    · rfl
    · exact h.de
    · change DecodeStage.decodedValid s.fe.decode (s.fe.decodeIn (s.feIn p i)) = false
      simp [DecodeStage.decodedValid, DecodeStage.takeFault, DecodeStage.fetchFault, DecodeStage.spanComplete,
        DecodeStage.isHoldPlain, DecodeStage.holdPlainPending, DecodeStage.spanPending, h.fetch, h.hold]
  · rw [← Bool.not_eq_true]
    intro hh
    rcases halted_next hs hh with hstall | ⟨hcommit, -⟩
    · rw [wfiStall, h.awake] at hstall
      cases hstall
    · rw [(hs.ex.bubble (i := s.exIn i) rfl h.de).1] at hcommit
      cases hcommit

/-- Where nothing stands in execute an awake core takes no interrupt. -/
private theorem no_interrupt (hs : s.Sane p) (hv : s.de.valid = false) (hw : s.ex.wfiHaltQ = false) :
    s.ex.takeInterrupt p (s.exIn i) = false := by
  obtain ⟨-, -, -, hint, -⟩ := hs.ex.bubble (i := s.exIn i) rfl hv
  rw [hint, hw, Bool.and_false]

end Core

namespace TopModule

/-! ### Conditions -/

/-- The sources of the PLIC, off the devices. -/
def sourceIn (c : ∀ k, (slot k).State) : Nat → Bool
  | 1 => (c W_UART : Uart 4 4).irq
  | 2 => (c W_I2C : I2c 4 4).irq
  | 3 => (c W_SPI : Spi 4 4).irq
  | 4 => (c W_GPIO : Gpio 4).irq
  | 5 => (c W_FFT : Fft 9).irq
  | 6 => (c W_I2S : I2s 4).irq
  | _ => false

/-- The condition of the interrupt with code `n`: the bit software sets, the counter at its compare value, or a source
that is enabled in the PLIC. -/
def Due (c : ∀ k, (slot k).State) : Nat → Prop
  | 3 => (c W_MSIP : MsipPeri).msipQ = true
  | 7 => (c W_TIMER : ClintTimer).mtimecmpQ ≤ (c W_TIMER : ClintTimer).mtimeQ
  | 11 => ∃ k, sourceIn c k = true ∧ (c W_PLIC : Plic PLIC_SRC_N).enableQ.getLsbD k = true
  | _ => False

/-- The flops between the condition and the pending bit: the one of `mip`, and the two stages of the timer's
compare. -/
def lag (n : Nat) : Nat := if n = 7 then 3 else 1

/-- The interrupt a cycle takes. -/
def takes (s : TopModule) : Option Nat := (CoreMem.outsideEv .pkg s.cpu.view s.coreIn).bind Outside.irq

/-- The hart takes interrupts. -/
def enabled (s : TopModule) : Bool := s.cpu.view.core.csr.regs.globalEnable

/-- What the program shows in a cycle. -/
def shows (s : TopModule) : Option Event := CoreMem.eventEv .pkg s.cpu.view s.coreIn

/-- An `mret` retires. -/
def returns (s : TopModule) : Bool :=
  s.cpu.view.core.ex.mretReq (s.cpu.view.core.exIn (s.cpu.view.coreIn .pkg s.coreIn))

/-- A store to a peripheral retires. -/
structure Stores (s : TopModule) (r : MmioReq) : Prop where
  write : r.we = true
  retires : Core.accessEv .pkg true s.cpu.view.core (s.cpu.view.coreIn .pkg s.coreIn) = some r.bus

/-- The store removes the condition of the interrupt: its device takes it at once, and behind it the condition does
not hold. -/
structure Removes (s : TopModule) (r : MmioReq) (n : Nat) : Prop where
  now : waits windows.lowest devices s.cores r = false
  off : ¬Due (seqNext windows.lowest devices s.cores ⟨some r, s.ext⟩) n

variable {s : TopModule} {img : Nat → BitVec 64} {rf : RegFile} {inp : Nat → TopIn} {t u n : Nat} {r : MmioReq}

private theorem source_eq (s : TopModule) (k : Nat) : s.source k = sourceIn s.cores k := rfl

private theorem takeInterrupt_of_takes (h : s.takes = some n) :
    s.cpu.view.core.ex.takeInterrupt .pkg (s.cpu.view.core.exIn (s.cpu.view.coreIn .pkg s.coreIn)) = true := by
  obtain ⟨o, ho, hirq⟩ := Option.bind_eq_some_iff.mp h
  unfold CoreMem.outsideEv at ho
  split_ifs at ho with h1 h2
  · exact h2
  · obtain rfl := Option.some.inj ho
    cases hirq

private theorem enabled_of_takes (h : s.takes = some n) : s.enabled = true := by
  have hpend := (Core.takeInterrupt_parts (takeInterrupt_of_takes h)).1
  rw [intPending_eq, Bool.and_eq_true] at hpend
  exact hpend.1

private theorem shows_of_takes (h : s.takes = some n) : s.shows ≠ none := by
  rw [shows, CoreMem.eventEv, takeInterrupt_of_takes h, if_pos rfl]
  exact Option.some_ne_none _

/-- MSIP written 0. -/
theorem removes_software (ht : windows.lowest r.addr = some W_MSIP) (hwe : r.we = true)
    (hd : r.wdata.getLsbD 0 = false) : Removes s r 3 := by
  have hop : opAccess windows.lowest devices (some r) W_MSIP (s.ext W_MSIP) =
      ⟨some ⟨(), r.wdata, r.wstrb⟩, none, ()⟩ :=
    (if_pos ht).trans (if_pos hwe)
  constructor
  · unfold waits
    rw [ht]
    exact Bool.and_false _
  · intro hdue
    have hbit :
        (MsipPeri.next s.msip (opAccess windows.lowest devices (some r) W_MSIP (s.ext W_MSIP))).msipQ = true := hdue
    rw [hop] at hbit
    exact absurd (hd.symm.trans hbit) Bool.false_ne_true

/-- `mtimecmp` written above the counter. -/
theorem removes_timer (ht : windows.lowest r.addr = some W_TIMER) (hwe : r.we = true)
    (hd : s.timer.mtimeQ + 1 < s.timer.mtimecmpD (some ⟨r.addr.extractLsb' 2 2, r.wdata, r.wstrb⟩)) :
    Removes s r 7 := by
  have hop : opAccess windows.lowest devices (some r) W_TIMER (s.ext W_TIMER) =
      ⟨some ⟨r.addr.extractLsb' 2 2, r.wdata, r.wstrb⟩, none, ()⟩ :=
    (if_pos ht).trans (if_pos hwe)
  constructor
  · unfold waits
    rw [ht]
    exact Bool.and_false _
  · intro hdue
    have hle : s.timer.mtimecmpD (opAccess windows.lowest devices (some r) W_TIMER (s.ext W_TIMER)).wr ≤
        s.timer.mtimeQ + 1 := hdue
    rw [hop] at hle
    exact absurd hd (BitVec.not_lt.mpr hle)

/-! ### From the condition to the interrupt -/

/-- The pending bit of the timer is the compare of two cycles before. -/
private theorem mtip_run (h : s.IsReset img rf) (inp : Nat → TopIn) (t : Nat) :
    (run s inp (t + 2)).timer.mtipQ = (run s inp t).timer.mtimecmpQ.ule (run s inp t).timer.mtimeQ := by
  obtain ⟨acc, hrun⟩ : ∃ acc, ∀ v, (run s inp v).timer = trace ClintTimer.next s.timer acc v :=
    ⟨_, device_run h inp W_TIMER⟩
  rw [hrun, ClintTimer.mtip_trace, ← hrun]

/-- An interrupt that is taken has had its condition when the flops behind it were loaded. -/
theorem due_of_takes (h : s.IsReset img rf) (ht : (run s inp u).takes = some n) (hu : lag n ≤ u) :
    Due (run s inp (u - lag n)).cores n := by
  obtain ⟨o, ho, hirq⟩ := Option.bind_eq_some_iff.mp ht
  rw [view_run] at ho
  have hreset : s.cpu.view.IsReset 0 img rf := ⟨h.cpu.core, h.cpu.dmem⟩
  obtain ⟨v, rfl, hline⟩ := CoreMem.line_of_interrupt hreset ho hirq
  cases raises_of_line hline with
  | software hq => exact hq
  | external hsource henable =>
    rename_i k
    rw [source_eq] at hsource
    exact ⟨k, hsource, henable⟩
  | timer hq =>
    obtain ⟨w, rfl⟩ := Nat.exists_eq_add_of_le' (show 2 ≤ v from Nat.le_of_succ_le_succ hu)
    rw [mtip_run h inp, BitVec.ule, decide_eq_true_eq] at hq
    exact hq

/-! ### From the store to the device -/

private theorem bus_injective {a b : MmioReq} (h : a.bus = b.bus) (hb : b.we = true) : a = b := by
  obtain ⟨wa, aa, da, sa⟩ := a
  obtain ⟨wb, ab, db, sb⟩ := b
  simp only [MmioReq.bus, BusReq.mk.injEq] at h
  obtain ⟨rfl, rfl, hd, hs⟩ := h
  have hwe : wa = true := hb
  rw [hwe, if_pos rfl, if_pos rfl] at hd hs
  rw [hd, hs]

private theorem sane_run (h : s.IsReset img rf) (inp : Nat → TopIn) (t : Nat) :
    (run s inp t).cpu.view.core.Sane .pkg := by
  have hreset : s.cpu.view.IsReset 0 img rf := ⟨h.cpu.core, h.cpu.dmem⟩
  rw [view_run]
  exact CoreMem.sane_run hreset t

/-- A store its device takes at once is performed in the cycle it retires. -/
theorem stores_performed (h : s.IsReset img rf) (hr : Stores (run s inp t) r)
    (hw : waits windows.lowest devices (run s inp t).cores r = false) : (run s inp t).performed = some r := by
  have hacc := Core.acceptEv_of_store (sane_run h inp t) hr.retires hr.write
  generalize run s inp t = q at hacc hw ⊢
  change (if q.periReq.wvalid && (q.path.bridge.stateQ == .idle) then some q.periReq.request.bus else none) =
    some r.bus at hacc
  split at hacc
  next hgo =>
    rw [Bool.and_eq_true, beq_iff_eq] at hgo
    have hreq : q.periReq.request = r := bus_injective (Option.some.inj hacc) hr.write
    rw [performed, hgo.2, hreq, windows_target, hw, hgo.1]
    rfl
  next => cases hacc

private theorem cores_succ (h : s.IsReset img rf) (hp : (run s inp t).performed = some r) :
    (run s inp (t + 1)).cores =
      seqNext windows.lowest devices (run s inp t).cores ⟨some r, (run s inp t).ext⟩ := by
  have hin : deviceInp s inp t = ⟨some r, (run s inp t).ext⟩ := by rw [deviceInp, hp]
  rw [cores_run h (t + 1), ← hin]
  exact congrArg (fun c => seqNext windows.lowest devices c (deviceInp s inp t)) (cores_run h t).symm

/-! ### Behind the store -/

variable (s inp t) in
/-- From cycle `a` on the interrupt is taken only if its condition has come back behind the store of cycle `t`. -/
def SilentFrom (a n : Nat) : Prop :=
  ∀ u, a ≤ u → (run s inp u).takes = some n → ∃ v, t + 1 < v ∧ v < u ∧ Due (run s inp v).cores n

variable (s inp t) in
/-- What a store of cycle `t` that removes the condition of an interrupt comes to. -/
structure Cleared (r : MmioReq) (n : Nat) : Prop where
  /-- The device has performed it in the cycle it retires, -/
  performed : (run s inp t).performed = some r
  /-- the flops behind the condition hold nothing of it soon after, -/
  settled : SilentFrom s inp t (t + lag n + 1) n
  /-- and before that nothing happens with the global enable off, -/
  masked : (∀ v, t < v → v ≤ t + lag n → (run s inp v).enabled = false) → SilentFrom s inp t (t + 1) n
  /-- or if the next instruction is an `mret`. -/
  returned : ∀ m, t < m → (∀ v, t < v → v < m → (run s inp v).shows = none) →
    (run s inp m).returns = true → SilentFrom s inp t (t + 1) n

private theorem lag_pos (n : Nat) : 1 ≤ lag n ∧ lag n ≤ 3 := by
  unfold lag
  split <;> omega

/-- Once the flops have caught up the interrupt is taken for a new condition only. -/
private theorem settled_run (h : s.IsReset img rf) (hoff : ¬Due (run s inp (t + 1)).cores n) :
    SilentFrom s inp t (t + lag n + 1) n := by
  intro u hu ht
  obtain ⟨hpos, -⟩ := lag_pos n
  have hdue := due_of_takes h ht (by omega)
  refine ⟨u - lag n, ?_, by omega, hdue⟩
  rcases Nat.lt_or_ge (t + 1) (u - lag n) with hlt | hge
  · exact hlt
  · rw [show u - lag n = t + 1 by omega] at hdue
    exact absurd hdue hoff

/-- An interrupt that comes not too early comes for a new condition. -/
private theorem silent_of_settled {a : Nat} (h : SilentFrom s inp t (t + lag n + 1) n)
    (hno : ∀ u, a ≤ u → u ≤ t + lag n → (run s inp u).takes ≠ some n) : SilentFrom s inp t a n := by
  intro u hu ht
  rcases Nat.lt_or_ge (t + lag n) u with hlt | hge
  · exact h u hlt ht
  · exact absurd ht (hno u hu hge)

/-- Behind an `mret` two cycles pass in which no interrupt is taken. -/
private theorem takes_behind_mret (h : s.IsReset img rf) {m : Nat} (hm : (run s inp m).returns = true) (hu : m ≤ u)
    (hle : u ≤ m + 2) : (run s inp u).takes ≠ some n := by
  intro ht
  have hint := takeInterrupt_of_takes ht
  have hsane := sane_run h inp
  have hempty := Core.empty_of_mret (hsane m) hm
  obtain ⟨hv, hw⟩ := hempty.next (i := (run s inp (m + 1)).cpu.view.coreIn .pkg (run s inp (m + 1)).coreIn)
    (hsane (m + 1))
  have hcases : u = m ∨ u = m + 1 ∨ u = m + 2 := by omega
  rcases hcases with rfl | rfl | rfl
  · have hno := (Core.takeInterrupt_parts hint).2.2
    rw [returns, hno] at hm
    cases hm
  · rw [Core.no_interrupt (hsane (m + 1)) hempty.de hempty.awake] at hint
    cases hint
  · rw [Core.no_interrupt (hsane (m + 2)) hv hw] at hint
    cases hint

/-- **A cleared interrupt.**  For every program, and whatever comes in at the pads: a store that removes the condition
of an interrupt is performed in the cycle it retires.  From the second cycle behind it on, the fourth for the timer,
no instruction boundary takes the interrupt unless its condition has come back; none does at all if the global enable
is off up to there, or if the next instruction is an `mret`. -/
theorem cleared_interrupt (h : s.IsReset img rf) (hr : Stores (run s inp t) r) (hoff : Removes (run s inp t) r n) :
    Cleared s inp t r n := by
  have hperformed := stores_performed h hr hoff.now
  have hdue : ¬Due (run s inp (t + 1)).cores n := by
    rw [cores_succ h hperformed]
    exact hoff.off
  have hsettled := settled_run h hdue
  refine ⟨hperformed, hsettled, fun hmask => ?_, fun m hm hquiet hret => ?_⟩
  · refine silent_of_settled hsettled fun u hu hle ht => ?_
    have hon := enabled_of_takes ht
    rw [hmask u hu hle] at hon
    cases hon
  · obtain ⟨-, hlag⟩ := lag_pos n
    refine silent_of_settled hsettled fun u hu hle => ?_
    rcases Nat.lt_or_ge u m with hlt | hge
    · exact fun ht => shows_of_takes ht (hquiet u hu hlt)
    · exact takes_behind_mret h hret hge (by omega)

/-! ### The chip in two halves -/

section Halves

variable (s) (inp : Nat → TopIn) (hin : Nat → HartIn) (req : Nat → MemReq)

/-- The chip with its hart standing still, whose port asks for `req`. -/
private def shell (t : Nat) : TopModule :=
  trace (fun q (i : MemReq × TopIn) =>
    { q with path := q.path.next slaves ⟨i.1, q.ext⟩, sync := q.syncNext i.2, ledCntQ := q.ledCntQ + 1 })
    s (fun u => (req u, inp u)) t

/-- The shell with the hart as it is under the inputs `hin`. -/
private def halves (t : Nat) : TopModule := { shell s inp req t with cpu := trace (HartMem.next .pkg) s.cpu hin t }

/-- Each half gives the other what it was run under. -/
private def meet (q : TopModule) (i : HartIn) (r : MemReq) : Bool :=
  q.periReq == r && i.memRsp == CoreMem.noRsp && q.periRsp == i.periRsp && q.msip.msipQ == i.msip &&
    q.timer.mtipQ == i.mtip && q.meip == i.meip

variable {s inp hin req}

/-- Halves that meet are a run. -/
private theorem run_halves {b : Nat} (h : ∀ u < b, meet (halves s inp hin req u) (hin u) (req u) = true)
    (ht : t ≤ b) : run s inp t = halves s inp hin req t := by
  induction t with
  | zero => rfl
  | succ t ih =>
    have hm := h t ht
    simp only [meet, Bool.and_eq_true, beq_iff_eq] at hm
    obtain ⟨⟨⟨⟨⟨hreq, hmem⟩, hrsp⟩, hmsip⟩, hmtip⟩, hmeip⟩ := hm
    have hhart : (halves s inp hin req t).hartIn = hin t := by
      have he : hin t = ⟨(hin t).memRsp, (hin t).periRsp, (hin t).msip, (hin t).mtip, (hin t).meip⟩ := rfl
      rw [he, hmem, ← hrsp, ← hmsip, ← hmtip, ← hmeip]
      rfl
    change (run s inp t).next (inp t) = _
    rw [ih (by omega), next, hhart, pathIn, hreq]
    rfl

end Halves

/-! ### Three programs -/

/-- The stores of a run, each with the cycle it retires, its address and its data, and the cycles in which the lines
of the two interrupts are up. -/
private structure Script where
  stores : List (Nat × Word × Word)
  msip : List Nat
  mtip : List Nat

namespace Script

variable (c : Script)

private def busy (t : Nat) : Bool := c.stores.any fun x => x.1 + 1 == t

private def hin (t : Nat) : HartIn :=
  ⟨CoreMem.noRsp, ⟨!c.busy t, false, 0, c.busy t⟩, decide (t ∈ c.msip), decide (t ∈ c.mtip), false⟩

private def req (t : Nat) : MemReq :=
  match c.stores.reverse.find? fun x => decide (x.1 ≤ t) with
  | some (u, a, d) => ⟨u == t, u == t, a, d, 15, false⟩
  | none => ⟨false, false, 0, 0, 0, false⟩

end Script

/-- The chip out of reset on the program `l`, with the registers `rf`. -/
def start (l : List (BitVec 64)) (rf : RegFile) : TopModule :=
  { outOfReset (imgOf l) with cpu := HartMem.reset 0 (imgOf l) rf fun _ => 0 }

private theorem start_isReset (l : List (BitVec 64)) (rf : RegFile) : (start l rf).IsReset (imgOf l) rf :=
  { outOfReset_isReset (imgOf l) with cpu := HartMem.reset_isReset 0 (imgOf l) rf fun _ => 0 }

/-- `x1` is the base of the timer, `x2` the bit of its interrupt. -/
def timerRegs : RegFile := ⟨fun a => if a = 1 then MTIMER_BASE else if a = 2 then 0x80 else 0xFFFFFFFF⟩

/-- `csrrs mie, x2`, `csrrs mstatus, x2`, `sw x0, 12(x1)`, `sw x0, 8(x1)`, `sw x3, 12(x1)`, `mret`: the timer is due
when the last store puts it off. -/
def handlerList : List (BitVec 64) := [0x3001207330412073#64, 0x0000A4230000A623#64, 0x302000730030A623#64]

private def handlerScript : Script :=
  ⟨[(8, 0x1000100C, 0), (10, 0x10001008, 0), (12, 0x1000100C, 0xFFFFFFFF)], [], []⟩

private theorem handler_facts :
    let q := halves (start handlerList timerRegs) (fun _ => .idle) handlerScript.hin handlerScript.req
    (∀ u < 13, meet (q u) (handlerScript.hin u) (handlerScript.req u) = true) ∧
      Core.accessEv .pkg true (q 12).cpu.view.core ((q 12).cpu.view.coreIn .pkg (q 12).coreIn) =
        some ⟨true, 0x1000100C, 0xFFFFFFFF, 15⟩ ∧
      (q 12).timer.mtimeQ + 1 < (q 12).timer.mtimecmpD (some ⟨3, 0xFFFFFFFF, 15⟩) ∧ (q 13).returns = true := by
  decide +kernel

/-- The `mret` behind the last store of a handler: the pending bit is still up when it enables interrupts. -/
theorem cleared_interrupt_handler :
    SilentFrom (start handlerList timerRegs) (fun _ => .idle) 12 13 7 := by
  obtain ⟨hmeet, haccess, htimer, hreturns⟩ := handler_facts
  have hrun : ∀ t ≤ 13, run (start handlerList timerRegs) (fun _ => .idle) t = _ := fun t ht => run_halves hmeet ht
  rw [← hrun 12 (by decide)] at haccess htimer
  rw [← hrun 13 (by decide)] at hreturns
  refine (cleared_interrupt (start_isReset handlerList timerRegs) (t := 12)
    (r := ⟨true, 0x1000100C, 0xFFFFFFFF, 15⟩) ⟨rfl, haccess⟩ (removes_timer rfl rfl htimer)).returned 13
    (by decide) (fun v h1 h2 => absurd h1 (by omega)) hreturns

/-- `csrrs mie, x2`, `sw x0, 12(x1)`, `sw x0, 8(x1)`, `sw x3, 12(x1)`, `csrrsi mstatus, 8`. -/
def enableList : List (BitVec 64) := [0x0000A62330412073#64, 0x0030A6230000A423#64, 0x0000001330046073#64]

private def enableScript : Script :=
  ⟨[(6, 0x1000100C, 0), (8, 0x10001008, 0), (10, 0x1000100C, 0xFFFFFFFF)], [], [11, 12]⟩

/-- `x1` is the address of the software interrupt. -/
def softwareRegs : RegFile := ⟨fun a => if a = 1 then MSIP_PERI_ADDR else 1⟩

/-- `csrrsi mie, 8`, `csrrsi mstatus, 8`, `sw x2, 0(x1)`, `sw x0, 0(x1)`. -/
def toggleList : List (BitVec 64) := [0x3004607330446073#64, 0x0000A0230020A023#64]

private def toggleScript : Script := ⟨[(8, 0x10003000, 1), (10, 0x10003000, 0)], [9, 10], []⟩

private theorem enable_facts :
    let q := halves (start enableList timerRegs) (fun _ => .idle) enableScript.hin enableScript.req
    (∀ u < 13, meet (q u) (enableScript.hin u) (enableScript.req u) = true) ∧
      (Core.accessEv .pkg true (q 10).cpu.view.core ((q 10).cpu.view.coreIn .pkg (q 10).coreIn) =
        some ⟨true, 0x1000100C, 0xFFFFFFFF, 15⟩ ∧
      (q 10).timer.mtimeQ + 1 < (q 10).timer.mtimecmpD (some ⟨3, 0xFFFFFFFF, 15⟩)) ∧
      (q 10).enabled = false ∧ (q 11).shows = none ∧
      (q 12).shows = some (.commit ⟨16, 0x30046073, some (0, 0x1800), none⟩) ∧
      ¬(q 12).timer.mtimecmpQ ≤ (q 12).timer.mtimeQ ∧ (q 13).takes = some 7 := by
  decide +kernel

private theorem toggle_facts :
    let q := halves (start toggleList softwareRegs) (fun _ => .idle) toggleScript.hin toggleScript.req
    (∀ u < 11, meet (q u) (toggleScript.hin u) (toggleScript.req u) = true) ∧
      Core.accessEv .pkg true (q 10).cpu.view.core ((q 10).cpu.view.coreIn .pkg (q 10).coreIn) =
        some ⟨true, 0x10003000, 0, 15⟩ ∧
      (q 11).takes = some 3 := by
  decide +kernel

/-- A `csrrsi` behind a store to `mtimecmp` lets the timer interrupt through that the store has removed, and one
boundary behind a store to MSIP the software interrupt may still be taken. -/
theorem cleared_interrupt_taken :
    (Stores (run (start enableList timerRegs) (fun _ => .idle) 10) ⟨true, 0x1000100C, 0xFFFFFFFF, 15⟩ ∧
        Removes (run (start enableList timerRegs) (fun _ => .idle) 10) ⟨true, 0x1000100C, 0xFFFFFFFF, 15⟩ 7 ∧
        (run (start enableList timerRegs) (fun _ => .idle) 10).enabled = false ∧
        (run (start enableList timerRegs) (fun _ => .idle) 11).shows = none ∧
        (run (start enableList timerRegs) (fun _ => .idle) 12).shows =
          some (.commit ⟨16, 0x30046073, some (0, 0x1800), none⟩) ∧
        ¬SilentFrom (start enableList timerRegs) (fun _ => .idle) 10 11 7) ∧
      Stores (run (start toggleList softwareRegs) (fun _ => .idle) 10) ⟨true, 0x10003000, 0, 15⟩ ∧
        Removes (run (start toggleList softwareRegs) (fun _ => .idle) 10) ⟨true, 0x10003000, 0, 15⟩ 3 ∧
        ¬SilentFrom (start toggleList softwareRegs) (fun _ => .idle) 10 11 3 := by
  obtain ⟨hmeet, ⟨haccess, htimer⟩, hoff, hquiet, hcsr, hdue, htakes⟩ := enable_facts
  obtain ⟨hmeet', haccess', htakes'⟩ := toggle_facts
  have hrun : ∀ t ≤ 13, run (start enableList timerRegs) (fun _ => .idle) t = _ := fun t ht => run_halves hmeet ht
  have hrun' : ∀ t ≤ 11, run (start toggleList softwareRegs) (fun _ => .idle) t = _ :=
    fun t ht => run_halves hmeet' ht
  rw [← hrun 10 (by decide)] at haccess htimer hoff
  rw [← hrun 11 (by decide)] at hquiet
  rw [← hrun 12 (by decide)] at hcsr hdue
  rw [← hrun 13 (by decide)] at htakes
  rw [← hrun' 10 (by decide)] at haccess'
  rw [← hrun' 11 (by decide)] at htakes'
  refine ⟨⟨⟨rfl, haccess⟩, removes_timer rfl rfl htimer, hoff, hquiet, hcsr, fun hs => ?_⟩, ⟨rfl, haccess'⟩,
    removes_software rfl rfl rfl, fun hs => ?_⟩
  · -- the counter stays below the compare value behind the store
    obtain ⟨v, h1, h2, hv⟩ := hs 13 (by decide) htakes
    obtain rfl : v = 12 := by omega
    exact hdue hv
  · obtain ⟨v, h1, h2, -⟩ := hs 11 (by decide) htakes'
    omega

end TopModule

end Yarv
