import Yarv.Periph.UartFacts
import Yarv.Progress
import Yarv.Soc.TopRun

/-!
# The chip goes on

A hart on a path whose slaves take every write in the end is never held up by it: the path comes back to rest again
and again, and at rest only a WFI can block the hart (`Board.goes_on_run`).  On the chip the one slave that makes a
write wait is the UART, whose FIFO drains whatever its pins do, so the chip retires, traps or takes an interrupt again
and again, unless it halts in a WFI for which no enabled interrupt ever comes (`keeps_going`).
-/

namespace Yarv

open Clocked ByteMem MmioPath

/-- The hart is halted in a WFI, and no interrupt that is enabled globally and by itself is pending. -/
structure CoreMem.Halted (s : CoreMem) : Prop where
  halt : s.core.ex.wfiHaltQ = true
  none : TrapUnit.intPending s.core.csr.regs.taps = false

section Awake

variable {p : Params} {img : Nat → BitVec 64} {boot : Word} {rf : RegFile} {a : Arch} {s : CoreMem}

/-- A program that comes to no WFI never halts. -/
theorem CoreMem.awake_run (h : s.IsReset boot img rf) (hb : boot.getLsbD 0 = false) (inp : Nat → CoreIn)
    (ha : a = Arch.reset boot rf (ofWords 4 s.dmem.mem)) (t : Nat)
    (hs : ∀ u < t, (a.after p img (CoreMem.outsides p s inp u)).Regular p img)
    (hno : ∀ u < t, ((a.after p img (CoreMem.outsides p s inp u)).word p img).sysOp ≠ .wfi) :
    (trace (CoreMem.next p) s inp t).core.ex.wfiHaltQ = false := by
  induction t with
  | zero =>
    rw [trace_zero, h.core.ex]
    rfl
  | succ t ih =>
    have hawake := ih (fun u hu => hs u (by omega)) fun u hu => hno u (by omega)
    obtain ⟨htr, -⟩ := CoreMem.tracks_run h hb inp ha t fun u hu => hs u (by omega)
    have hsane : (trace (CoreMem.next p) s inp t).core.Sane p := CoreMem.sane_run h t
    rw [← Bool.not_eq_true]
    intro hhalt
    -- it would halt behind a WFI that commits
    rcases Core.halted_next hsane hhalt with hwait | ⟨hcommit, -, hwfi⟩
    · rw [ExecuteStage.wfiStall, hawake] at hwait
      cases hwait
    · have hword := htr.word (Core.valid_of_commit hsane hcommit)
      refine hno t (Nat.lt_succ_self t) ?_
      rw [hword]
      exact hwfi

end Awake

namespace Board

variable {x : XbarParams} {α σ ι : Fin x.n → Type}
variable {p : Params} {dev : ∀ k, RegDevice (α k) (σ k) (ι k)} {s : Board x α σ} {i : BoardIn x ι} {ph : Phase}

theorem phase_idle {b : MmioPath x α σ} (h : MmioAt ph b) (hs : b.bridge.stateQ = .idle) : ph = .idle := by
  cases h with
  | idle => rfl
  | held hb =>
    rw [hb] at hs
    cases hs
  | wrote hb =>
    rw [hb] at hs
    cases hs
  | read hb =>
    rw [hb] at hs
    cases hs

/-- A load that waits for the path takes its word. -/
private theorem Coupled.rready {v : Word} (h : Coupled p s (.read v)) (i : BoardIn x ι) :
    (s.mmioIn p i).req.rready = true := by
  obtain ⟨r, hf⟩ := List.length_eq_one_iff.mp h.load
  obtain ⟨-, -, hwait, hperi, hload⟩ := Core.read_of_inFlight h.sane hf
  change (ExecuteStage.readPhase s.hart.core.ex (s.hart.core.exIn i.core) && s.hart.core.ex.memIsPeriQ) = true
  rw [ExecuteStage.readPhase, hwait, hperi, Core.exIn_de, hload]
  rfl

/-- Over a path at rest only a WFI blocks the hart. -/
private theorem Coupled.halted_of_blocked (h : Coupled p s .idle)
    (hb : CoreMem.blocked p s.hart (s.coreIn p dev i) = true) :
    s.hart.Halted := by
  have hready : (s.path.rsp dev (s.mmioIn p i)).wready = true := h.path.wready
  have hnone : ((s.hart.core.periReq p (s.hart.coreIn p (s.coreIn p dev i))).rready) = false := by
    have hf : Core.inFlight true s.hart.core = [] := List.length_eq_zero_iff.mp h.load
    cases hr : (s.hart.core.periReq p (s.hart.coreIn p (s.coreIn p dev i))).rready with
    | false => rfl
    | true =>
      have hphase :
          ((s.hart.core.ex.exStateQ == .memWait && s.hart.core.de.memRead) && s.hart.core.ex.memIsPeriQ) = true := hr
      rw [Bool.and_eq_true, Bool.and_eq_true] at hphase
      rw [Core.inFlight, hphase.1.1, hphase.2] at hf
      cases hf
  have hwait :
      ExecuteStage.wfiStall s.hart.core.ex (s.hart.core.exIn (s.hart.coreIn p (s.coreIn p dev i))) = true := by
    have hb' : (ExecuteStage.wfiStall s.hart.core.ex (s.hart.core.exIn (s.hart.coreIn p (s.coreIn p dev i))) ||
        ((s.hart.core.periReq p (s.hart.coreIn p (s.coreIn p dev i))).wvalid &&
          !(s.path.rsp dev (s.mmioIn p i)).wready) ||
        ((s.hart.core.periReq p (s.hart.coreIn p (s.coreIn p dev i))).rready &&
          !(s.path.rsp dev (s.mmioIn p i)).rvalid)) = true := hb
    rw [hready, hnone, Bool.not_true, Bool.and_false, Bool.or_false, Bool.false_and, Bool.or_false] at hb'
    exact hb'
  rw [ExecuteStage.wfiStall, Bool.and_eq_true, Bool.not_eq_true'] at hwait
  exact ⟨hwait.1, hwait.2⟩

section Run

variable (p dev s) (inp : Nat → BoardIn x ι)

/-- No write finds its device holding it for ever. -/
def Drains : Prop := ∀ r t, ∃ u, t ≤ u ∧ waits x.target dev (trace (next p dev) s inp u).path.cores r = false

variable {p dev s inp} {img : Nat → BitVec 64} {boot : Word} {rf : RegFile}

/-- The path comes back to rest. -/
theorem exists_idle (hd : x.Disjoint) (h : s.IsReset boot img rf) (hf : Drains p dev s inp) (t : Nat) :
    ∃ u, t ≤ u ∧ Coupled p (trace (next p dev) s inp u) .idle := by
  -- what is known of the phase is known of hart and path
  have hcoupled : ∀ u, MmioAt .idle (trace (next p dev) s inp u).path →
      Coupled p (trace (next p dev) s inp u) .idle := by
    intro u hu
    obtain ⟨ph, -, hc, -⟩ := meets_run p dev inp hd h u
    have hidle : (trace (next p dev) s inp u).path.bridge.stateQ = .idle := by
      cases hu with
      | idle hs => exact hs
    obtain rfl := phase_idle hc.path hidle
    exact hc
  have hwrote : ∀ u, MmioAt .wrote (trace (next p dev) s inp u).path →
      Coupled p (trace (next p dev) s inp (u + 1)) .idle := fun u hu =>
    hcoupled (u + 1) (wrote_step dev (i := (trace (next p dev) s inp u).mmioIn p (inp u)) hu).next
  obtain ⟨ph, -, hc, -⟩ := meets_run p dev inp hd h t
  cases ph with
  | idle => exact ⟨t, le_rfl, hc⟩
  | wrote => exact ⟨t + 1, by omega, hwrote t hc.path⟩
  | read v =>
    have hs :
        Steps dev (trace (next p dev) s inp t).path ((trace (next p dev) s inp t).mmioIn p (inp t)) (.read v) _ :=
      read_step hc.path
    rw [if_pos (hc.rready (inp t))] at hs
    exact ⟨t + 1, by omega, hcoupled (t + 1) hs.next⟩
  | held r =>
    have hs : ∀ u, MmioAt (.held r) (trace (next p dev) s inp u).path → Steps dev (trace (next p dev) s inp u).path
        ((trace (next p dev) s inp u).mmioIn p (inp u)) (.held r) _ := fun u hu => held_step hd hu
    obtain ⟨u, htu, hu, he⟩ :=
      exists_exit (E := fun u => waits x.target dev (trace (next p dev) s inp u).path.cores r = false)
      hc.path (fun u hu hne => by
        have hn := (hs u hu).next
        rw [Bool.not_eq_false] at hne
        rwa [hne, if_pos rfl] at hn) fun _ => hf r t
    have hn := (hs u hu).next
    rw [he, if_neg Bool.false_ne_true] at hn
    exact ⟨u + 2, by omega, hwrote (u + 1) hn⟩

/-- A halted hart without an event stays halted. -/
private theorem halted_of_quiet {t : Nat}
    (hquiet : ∀ u, t ≤ u → CoreMem.eventEv p (trace (next p dev) s inp u).hart (hartInp p dev s inp u) = none)
    (hh : (trace (next p dev) s inp t).hart.Halted) (v : Nat) (hv : t ≤ v) :
    (trace (next p dev) s inp v).hart.Halted := by
  induction v, hv using Nat.le_induction with
  | base => exact hh
  | succ v hv ih =>
    -- the flag is kept by the step, and without an event nothing is pending
    obtain ⟨hentry, hcommit⟩ := CoreMem.quiet_of_event (hquiet v hv)
    have hflag : (trace (next p dev) s inp (v + 1)).hart.core.ex.wfiHaltQ = true :=
      (Core.halted_step ih.halt hentry hcommit).2
    obtain ⟨hentry, hcommit⟩ := CoreMem.quiet_of_event (hquiet (v + 1) (by omega))
    exact ⟨hflag, Core.pending_of_halted hflag hentry hcommit⟩

/-- The hart goes on, or it halts for ever. -/
private theorem goes_on_run (hd : x.Disjoint) (h : s.IsReset boot img rf) (hf : Drains p dev s inp) (t : Nat) :
    (∃ u, t ≤ u ∧ (CoreMem.eventEv p (trace (next p dev) s inp u).hart (hartInp p dev s inp u)).isSome) ∨
      ∃ u, t ≤ u ∧ ∀ v, u ≤ v → (trace (next p dev) s inp v).hart.Halted := by
  by_cases hev : ∃ u, t ≤ u ∧ (CoreMem.eventEv p (trace (next p dev) s inp u).hart (hartInp p dev s inp u)).isSome
  · exact Or.inl hev
  · right
    push Not at hev
    have hquiet : ∀ u, t ≤ u →
        CoreMem.eventEv p (trace (next p dev) s inp u).hart (hartInp p dev s inp u) = none := by
      intro u hu
      exact Option.not_isSome_iff_eq_none.mp (hev u hu)
    have hrun : ∀ u, (trace (next p dev) s inp u).hart =
        trace (CoreMem.next p) s.hart (hartInp p dev s inp) u := hart_run inp
    -- the hart is blocked from some cycle on, and at rest only a WFI blocks it
    obtain ⟨w, htw, hw⟩ := (CoreMem.ranked (p := p) h.hart (hartInp p dev s inp)).blocked_of_quiet fun u hu => by
      rw [← hrun]
      exact hquiet u hu
    obtain ⟨u, hu, hc⟩ := exists_idle hd h hf w
    have hb := hw u hu
    rw [← hrun] at hb
    have hhalt := hc.halted_of_blocked hb
    exact ⟨u, by omega, fun v hv => halted_of_quiet (fun u' hu' => hquiet u' (by omega)) hhalt v hv⟩

end Run

end Board

/-! ### The chip -/

namespace TopModule

variable {s : TopModule} {img : Nat → BitVec 64} {rf : RegFile} {tx rx : List Byte}

section Run

variable (s) (inp : Nat → TopIn)

/-- What the UART sees of a cycle. -/
def uartIn (i : SeqIn windows fun k => (slot k).Pins) : RegAccess (BitVec 3) Bool :=
  opAccess windows.lowest devices i.op W_UART (i.ext W_UART)

/-- The same by the decoder of the crossbar. -/
theorem uartIn_target (i : SeqIn windows fun k => (slot k).Pins) :
    uartIn i = opAccess windows.target devices i.op W_UART (i.ext W_UART) :=
  congrArg (fun f => opAccess f devices i.op W_UART (i.ext W_UART)) windows_target.symm

/-- The accesses of the UART. -/
def uartAcc (t : Nat) : RegAccess (BitVec 3) Bool := uartIn (deviceInp s inp t)

variable {s inp}

/-- The UART of a run runs under the requests to its window. -/
theorem uart_run (h : s.IsReset img rf) (t : Nat) : (run s inp t).uart = Uart.coreAt s.uart (uartAcc s inp) t :=
  device_run h inp W_UART t

/-- What is performed did not have to wait. -/
private theorem waits_of_performed {r : MmioReq} (h : s.performed = some r) :
    waits windows.target devices s.cores r = false := by
  unfold performed at h
  split at h
  · split at h
    next hc =>
      cases h
      rw [Bool.and_eq_true, Bool.not_eq_true'] at hc
      exact hc.2
    next => cases h
  · simp only at h
    split at h
    next => cases h
    next hw =>
      cases h
      exact eq_false_of_ne_true hw
  · cases h

/-- A full TX FIFO makes a write wait, -/
private theorem waits_uart {r : MmioReq} (ht : windows.target r.addr = some W_UART) (hwe : r.we = true) :
    waits windows.target devices s.cores r = (r.addr.extractLsb' 2 3 == Uart.REG_TXDATA && s.uart.tx.full) := by
  unfold waits
  rw [hwe, ht]
  rfl

/-- and nothing else does. -/
private theorem waits_of_room (h : s.uart.tx.full = false) (r : MmioReq) :
    waits windows.target devices s.cores r = false := by
  have hhold : ∀ (k : Fin 9) b, (devices k).hold (s.cores k) b = false := by
    intro k b
    by_cases hk : k = W_UART
    · subst hk
      exact (congrArg (_ && ·) h).trans (Bool.and_false _)
    · fin_cases k
      · exact absurd rfl hk
      all_goals rfl
  unfold waits
  cases windows.target r.addr with
  | none => exact Bool.and_false _
  | some k => exact (congrArg (r.we && ·) (hhold k _)).trans (Bool.and_false _)

/-- TXDATA writes come when there is room. -/
theorem uart_gated (h : s.IsReset img rf) (inp : Nat → TopIn) : Uart.Gated s.uart (uartAcc s inp) := by
  intro t ht
  rw [← uart_run h]
  obtain ⟨b, hb⟩ := Option.isSome_iff_exists.mp ht
  unfold Uart.txPush at hb
  obtain ⟨w, hw, -⟩ := Option.map_eq_some_iff.mp hb
  rw [RegAccess.wrAt, Option.filter_eq_some_iff, Bool.and_eq_true, beq_iff_eq] at hw
  obtain ⟨hwr, -, haddr⟩ := hw
  have hop :
      (opAccess windows.target devices (run s inp t).performed W_UART ((deviceInp s inp t).ext W_UART)).wr = some w :=
    (congrArg RegAccess.wr (uartIn_target (deviceInp s inp t))).symm.trans hwr
  obtain ⟨r, hr, htarget, hwe, rfl⟩ := wr_of_opAccess hop
  have hw := waits_of_performed hr
  have hsel : (r.addr.extractLsb' 2 3 == Uart.REG_TXDATA) = true := beq_iff_eq.mpr haddr
  rw [waits_uart htarget hwe, hsel, Bool.true_and] at hw
  exact hw

/-- Every write is taken in the end. -/
theorem drains (h : s.IsReset img rf) (hq : s.uart.Quiet tx rx) (inp : Nat → TopIn) :
    Board.Drains .pkg devices s.board (boardInp s inp) := by
  intro r t
  obtain ⟨u, hu, hroom⟩ := Uart.exists_room hq (uart_gated h inp) t
  refine ⟨u, hu, ?_⟩
  rw [← uart_run h] at hroom
  change waits windows.target devices (boardRun s inp u).path.cores r = false
  rw [cores_board h]
  exact waits_of_room hroom r

/-- The hart goes on, or it halts for ever. -/
theorem goes_on (h : s.IsReset img rf) (hq : s.uart.Quiet tx rx) (inp : Nat → TopIn) (t : Nat) :
    (∃ u, t ≤ u ∧ (CoreMem.eventEv .pkg (run s inp u).cpu.view (run s inp u).coreIn).isSome) ∨
      ∃ u, t ≤ u ∧ ∀ v, u ≤ v → (run s inp v).cpu.view.Halted := by
  have hhart : ∀ u, (boardRun s inp u).hart = (run s inp u).cpu.view := fun u => (actsLike_run inp h u).1.hart.symm
  have hinp := hartInp_board inp h
  rcases Board.goes_on_run windows_disjoint h.board (drains h hq inp) t with ⟨u, hu, he⟩ | ⟨u, hu, hhalt⟩
  · rw [hinp] at he
    refine Or.inl ⟨u, hu, ?_⟩
    rw [← hhart]
    exact he
  · refine Or.inr ⟨u, hu, fun v hv => ?_⟩
    rw [← hhart]
    exact hhalt v hv

/-- **The chip goes on.**  Whatever the program does and whatever comes in at the pads, the hart commits, traps or
takes an interrupt again and again, unless it halts in a WFI and no enabled interrupt ever comes. -/
theorem keeps_going (h : s.IsReset img rf) (hq : s.uart.Quiet tx rx) (inp : Nat → TopIn) (t : Nat) :
    (∃ u, t ≤ u ∧ (CoreMem.eventEv .pkg (run s inp u).cpu.view (run s inp u).coreIn).isSome) ∨
      ∃ u, t ≤ u ∧ ∀ v, u ≤ v → (run s inp v).cpu.view.Halted :=
  goes_on h hq inp t

/-- The chip on the program that raises its own interrupt. -/
theorem keeps_going_raise :
    (∃ u, 100 ≤ u ∧ (CoreMem.eventEv .pkg (run (outOfReset raiseProgram) (fun _ => .idle) u).cpu.view
      (run (outOfReset raiseProgram) (fun _ => .idle) u).coreIn).isSome) ∨
    ∃ u, 100 ≤ u ∧ ∀ v, u ≤ v → (run (outOfReset raiseProgram) (fun _ => .idle) v).cpu.view.Halted :=
  keeps_going (outOfReset_isReset raiseProgram) ⟨rfl, rfl, rfl, Fifo.holds_reset _, Fifo.holds_reset _⟩
    (fun _ => .idle) 100

end Run

end TopModule

end Yarv
