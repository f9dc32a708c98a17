import Yarv.Soc.Liveness

/-!
# From the program to the serial line

What the far end of `uart_txd_o` sees of a program: the line of the chip is a row of 8N1 frames, they carry the bytes
the program stores to TXDATA, in order, and every byte that is stored is across in the end.  Behind the program stand
the pipeline, the peripheral path, the TX FIFO and the shift register; only the last store may still wait for the
FIFO.
-/

namespace Yarv.TopModule

open Clocked ByteMem MmioPath

variable {s : TopModule} {img : Nat → BitVec 64} {rf : RegFile} {a : Arch} {tx rx : List Byte}

/-! ### The bytes of the accesses -/

/-- The window of an address. -/
def window (b : Word) : Option (Fin 9) := windows.lowest b

/-- The byte an access stores to TXDATA. -/
def txByte (y : Exchange) : Option Byte :=
  if y.1.write &&
    (window y.1.addr == some W_UART && (y.1.wstrb.getLsbD 0 && y.1.addr.extractLsb' 2 3 == Uart.REG_TXDATA)) then
    some (y.1.wdata.setWidth 8)
  else none

/-- The UART takes the byte of the request that is performed. -/
private theorem txPush_uartIn (c : ∀ k, (slot k).State) (i : SeqIn windows fun k => (slot k).Pins) :
    Uart.txPush (uartIn i) = (exchange c i).bind txByte := by
  have hin := uartIn_target i
  obtain ⟨op, e⟩ := i
  cases op with
  | none => rfl
  | some r =>
    change _ = txByte (r.bus, _)
    have hlow : windows.target r.addr = windows.lowest r.addr := congrFun windows_target r.addr
    refine (congrArg Uart.txPush hin).trans ?_
    by_cases hw : windows.target r.addr = some W_UART
    · have hwin : (window r.bus.addr == some W_UART) = true := beq_iff_eq.mpr (hlow.symm.trans hw)
      cases hwe : r.we with
      | false =>
        -- a load: nothing is written, whatever the address
        have hbus : r.bus.write = false := hwe
        refine (congrArg Uart.txPush (opAccess_read hw hwe)).trans ?_
        rw [txByte, hbus, Bool.false_and, if_neg Bool.false_ne_true]
        rfl
      | true =>
        have hbus : r.bus = ⟨true, r.addr, r.wdata, r.wstrb⟩ := by
          unfold MmioReq.bus
          rw [hwe, if_pos rfl, if_pos rfl]
        refine (congrArg Uart.txPush (opAccess_write hw hwe)).trans ?_
        rw [txByte, hwin, hbus, Bool.true_and, Bool.true_and]
        change ((some (⟨r.addr.extractLsb' 2 3, r.wdata, r.wstrb⟩ : RegWrite (BitVec 3))).filter _).map _ = _
        rw [Option.filter_some]
        split
        · rfl
        · rfl
    · -- another window: the UART is left alone
      have hwin : (window r.bus.addr == some W_UART) = false :=
        beq_eq_false_iff_ne.mpr fun hc => hw (hlow.trans hc)
      refine (congrArg Uart.txPush (opAccess_other hw _)).trans ?_
      rw [txByte, hwin, Bool.false_and, Bool.and_false, if_neg Bool.false_ne_true]
      rfl

/-! ### Runs -/

section Run

variable (s) (inp : Nat → TopIn)

/-- The line in the first `t` cycles. -/
def txdLog (t : Nat) : List Bool := (List.range t).map fun u => (run s inp u).out.uartTxd

/-- The accesses the devices have performed. -/
def asked (t : Nat) : List Exchange := logFrom exchange (seqNext windows.lowest devices) s.cores (deviceInp s inp) 0 t

/-- The bytes the program has stored to TXDATA. -/
def stored (img : Nat → BitVec 64) (a : Arch) (t : Nat) : List Byte :=
  (a.exchanges .pkg img (CoreMem.outsides .pkg s.cpu.view (coreInp s inp) t)).filterMap txByte

/-- The bytes the UART has taken. -/
def taken (t : Nat) : List Byte := Uart.pushes s.uart (uartAcc s inp) t

/-- The frames the UART has launched, each with its bit time and its byte. -/
def launches (t : Nat) : List (Nat × Byte) := Uart.launches s.uart (uartAcc s inp) t

/-- What the far end sees of the first `t` cycles, and of them in the end. -/
structure Sends (img : Nat → BitVec 64) (a : Arch) (t : Nat) : Prop where
  /-- The line is the row of the frames launched so far, with idle stretches between them and the last one perhaps
  under way. -/
  framed : Serial.Carries (launches s inp t) (txdLog s inp t)
  /-- Each frame has one bit time, at least a cycle. -/
  timed : ∀ f ∈ launches s inp t, 0 < f.1
  /-- Their bytes are those of the program, but for what the FIFO holds and a store that waits for it. -/
  queued : ∃ fifo late, (run s inp t).uart.tx.Holds fifo ∧ fifo.length ≤ 16 ∧ late.length ≤ 1 ∧
    stored s inp img a t = (launches s inp t).map Prod.snd ++ fifo ++ late
  /-- All of them are across in the end. -/
  sent : ∃ u segs k, t ≤ u ∧ txdLog s inp u = Serial.line segs ++ List.replicate k true ∧
    segs.map Prod.snd = launches s inp u ∧ stored s inp img a t <+: (launches s inp u).map Prod.snd

variable {s inp}

private theorem txdLog_eq (h : s.IsReset img rf) (t : Nat) :
    txdLog s inp t = Uart.txdLog s.uart (uartAcc s inp) t := by
  refine List.map_congr_left fun u _ => ?_
  rw [← uart_run h]
  rfl

/-- What happens at the UART happens in the requests that are performed. -/
theorem uart_log {β : Type} {ev : Uart 4 4 → RegAccess (BitVec 3) Bool → Option β} {f : Exchange → Option β}
    (hev : ∀ (c : ∀ k, (slot k).State) (i : SeqIn windows fun k => (slot k).Pins),
    ev (c W_UART) (uartIn i) = (exchange c i).bind f)
    (t : Nat) : logFrom ev Uart.next s.uart (uartAcc s inp) 0 t = (asked s inp t).filterMap f := by
  have hview : logFrom ev Uart.next s.uart (uartAcc s inp) 0 t =
      logFrom (fun c i => ev (c W_UART) (uartIn i)) (seqNext windows.lowest devices) s.cores (deviceInp s inp) 0 t :=
    (logFrom_view (fun c : ∀ k, (slot k).State => c W_UART) (fun _ i => uartIn i) (fun _ _ => rfl) 0 t).symm
  calc logFrom ev Uart.next s.uart (uartAcc s inp) 0 t
    _ = logFrom (fun c i => (exchange c i).bind f) (seqNext windows.lowest devices) s.cores (deviceInp s inp) 0 t :=
        hview.trans (logFrom_congr fun _ _ => hev _ _)
    _ = (asked s inp t).filterMap f := logFrom_bind ..

/-- The UART takes the bytes of the requests that are performed. -/
private theorem taken_eq (t : Nat) : taken s inp t = (asked s inp t).filterMap txByte := uart_log txPush_uartIn t

/-- The devices of the chip perform the requests of the board. -/
private theorem asked_eq (h : s.IsReset img rf) (t : Nat) : asked s inp t =
    logFrom (Board.performEv .pkg devices) (Board.next .pkg devices) s.board (boardInp s inp) 0 t := by
  have hdev : Board.deviceInp .pkg devices s.board (boardInp s inp) = deviceInp s inp := funext (op_board h)
  rw [← Board.performed_run .pkg devices (boardInp s inp) windows_disjoint h.board t, hdev]
  unfold asked exchange
  rw [← windows_target]
  rfl

/-- The accesses of the program are those the hart commits. -/
private theorem exchanges_eq (h : s.IsReset img rf) (ha : a = Arch.reset 0 rf (ofWords 4 s.cpu.dmem.mem)) (t : Nat)
    (hs : ∀ u < t, (a.after .pkg img (CoreMem.outsides .pkg s.cpu.view (coreInp s inp) u)).Regular .pkg img) :
    a.exchanges .pkg img (CoreMem.outsides .pkg s.cpu.view (coreInp s inp) t) =
      logFrom (fun b i => CoreMem.exchangeEv .pkg b.hart (b.coreIn .pkg devices i)) (Board.next .pkg devices) s.board
        (boardInp s inp) 0 t := by
  have hreset : s.board.hart.IsReset 0 img rf := h.board.hart
  have hlog : logFrom (CoreMem.exchangeEv .pkg) (CoreMem.next .pkg) s.cpu.view (coreInp s inp) 0 t =
      a.exchanges .pkg img (CoreMem.outsides .pkg s.cpu.view (coreInp s inp) t) :=
    CoreMem.exchange_log hreset rfl (coreInp s inp) ha t hs
  have hview := Board.exchanges_view .pkg devices s.board (boardInp s inp) t
  rw [hartInp_board inp h] at hview
  exact hlog.symm.trans hview

/-- A load stores no byte. -/
private theorem txByte_load {y : Exchange} (h : y.1.write = false) : txByte y = none := by
  rw [txByte, h, Bool.false_and, if_neg Bool.false_ne_true]

/-- The UART has taken what the program has stored, but for the store that waits. -/
private theorem stored_taken (h : s.IsReset img rf) (ha : a = Arch.reset 0 rf (ofWords 4 s.cpu.dmem.mem)) (t : Nat)
    (hs : ∀ u < t, (a.after .pkg img (CoreMem.outsides .pkg s.cpu.view (coreInp s inp) u)).Regular .pkg img) :
    ∃ late, late.length ≤ 1 ∧ stored s inp img a t = taken s inp t ++ late := by
  obtain ⟨c, l, e, hahead, hprogram, hdevices⟩ := (inStep_run h inp ha t hs).accesses
  have hearly : e.filterMap txByte = [] := by
    rw [List.filterMap_eq_nil_iff]
    intro y hy
    exact txByte_load (hahead.load y hy)
  have htaken : taken s inp t = (c ++ e).filterMap txByte :=
    (taken_eq t).trans (congrArg (List.filterMap txByte) hdevices)
  refine ⟨l.filterMap txByte, ?_, ?_⟩
  · exact (List.length_filterMap_le _ _).trans (le_trans (Nat.le_add_right _ _) hahead.le)
  · rw [stored, hprogram, htaken, List.filterMap_append, List.filterMap_append, hearly, List.append_nil]

/-- Once the path is at rest the UART has taken everything. -/
private theorem exists_taken (h : s.IsReset img rf) (hq : s.uart.Quiet tx rx)
    (ha : a = Arch.reset 0 rf (ofWords 4 s.cpu.dmem.mem))
    (t : Nat)
    (hs : ∀ u < t, (a.after .pkg img (CoreMem.outsides .pkg s.cpu.view (coreInp s inp) u)).Regular .pkg img) :
    ∃ u, t ≤ u ∧ stored s inp img a t <+: taken s inp u := by
  obtain ⟨u, hu, hidle⟩ := Board.exists_idle windows_disjoint h.board (drains h hq inp) t
  obtain ⟨ph, c, hc, hhart, hpath⟩ := Board.meets_run .pkg devices (boardInp s inp) windows_disjoint h.board u
  have hstate : (trace (Board.next .pkg devices) s.board (boardInp s inp) u).path.bridge.stateQ = .idle := by
    cases hidle.path with
    | idle hst => exact hst
  obtain rfl := Board.phase_idle hc.path hstate
  have hasked : asked s inp u = c := (asked_eq h u).trans (hpath.trans (List.append_nil c))
  refine ⟨u, hu, ?_⟩
  rw [stored, exchanges_eq h ha t hs, taken_eq, hasked]
  refine List.IsPrefix.filterMap txByte ?_
  have hlog := hhart.trans (List.append_nil c)
  rw [← hlog]
  exact logFrom_prefix 0 hu

/-- **The serial line.**  Whatever comes in at the pads, `uart_txd_o` carries the bytes the program stores to TXDATA,
in order and as 8N1 frames, and each of them is across in the end. -/
theorem sends (h : s.IsReset img rf) (hq : s.uart.Quiet [] rx) (inp : Nat → TopIn)
    (ha : a = Arch.reset 0 rf (ofWords 4 s.cpu.dmem.mem)) (t : Nat)
    (hs : ∀ u < t, (a.after .pkg img (CoreMem.outsides .pkg s.cpu.view (coreInp s inp) u)).Regular .pkg img) :
    Sends s inp img a t := by
  have htrans := Uart.transmits hq (uart_gated h inp)
  refine ⟨?_, htrans.timed t, ?_, ?_⟩
  · rw [txdLog_eq h]
    exact htrans.framed t
  · obtain ⟨fifo, hholds, hqueue⟩ := htrans.queued t
    obtain ⟨late, hlate, hstored⟩ := stored_taken h ha t hs
    refine ⟨fifo, late, ?_, hholds.length_le, hlate, ?_⟩
    · rw [uart_run h]
      exact hholds
    · rw [hstored, taken]
      exact congrArg (fun l => l ++ late) hqueue
  · obtain ⟨v, hv, hpre⟩ := exists_taken h hq ha t hs
    obtain ⟨u, segs, k, hu, hline, hsegs, hbytes⟩ := htrans.sent v
    refine ⟨u, segs, k, hv.trans hu, ?_, hsegs, hpre.trans hbytes⟩
    rw [txdLog_eq h]
    exact hline

/-- The chip on the program that raises its own interrupt and then sends a byte. -/
theorem sends_raise : Sends (outOfReset raiseProgram) (fun _ => .idle) raiseProgram
    (Arch.reset 0 ⟨fun _ => 0⟩ (ofWords 4 fun _ => 0#32)) 1000 :=
  sends (outOfReset_isReset raiseProgram) ⟨rfl, rfl, rfl, Fifo.holds_reset _, Fifo.holds_reset _⟩
    (fun _ => .idle) rfl 1000
    fun _ _ => raise_regular _

end Run

end Yarv.TopModule
