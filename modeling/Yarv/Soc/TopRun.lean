import Yarv.Soc.Board
import Yarv.Soc.Top

/-!
# Runs of `top_module`

The chip is a board of register slaves: the FFT acts as one, the predictor only answers the hart, and every wire
between hart and devices is one of the chip.  So in every run, whatever the pads do, the program is run by the
interpreter, the devices by the sequential machine, and the two meet at the accesses (`program_and_devices`).
-/

namespace Yarv.TopModule

open Clocked ByteMem MmioPath

variable {s : TopModule} {i : TopIn} {img : Nat → BitVec 64} {rf : RegFile} {a : Arch}

/-- The board of register slaves the chip acts as. -/
abbrev SlotBoard : Type := Board windows (fun k => (slot k).Addr) fun k => (slot k).State

/-- The devices. -/
def devices (k : Fin 9) : RegDevice (slot k).Addr (slot k).State (slot k).Pins := (slot k).device

/-- The inputs of the core. -/
def coreIn (s : TopModule) : CoreIn := s.cpu.coreIn .pkg s.hartIn

/-- What the board sees. -/
def boardIn (s : TopModule) : BoardIn windows fun k => (slot k).Pins := ⟨s.coreIn, s.ext⟩

/-- The chip as a board. -/
def board (s : TopModule) : SlotBoard where
  hart := s.cpu.view
  path := ⟨s.path.bridge, s.path.xbar, fun k => ⟨(slot k).port (s.path.slave k), (slot k).core (s.path.slave k)⟩⟩

/-- Every slave is like the register slave on the board. -/
def PathLike (s : AxiPath windows fun k => (slot k).Flops)
    (b : MmioPath windows (fun k => (slot k).Addr) fun k => (slot k).State) :
    Prop :=
  AxiPath.Plays (x := windows) (S := fun k => (slot k).Flops) (α := fun k => (slot k).Addr)
    (σ := fun k => (slot k).State) (fun k => (slot k).Like) s b

/-- The chip acts as the board. -/
structure ActsLike (s : TopModule) (b : SlotBoard) : Prop where
  hart : s.cpu.view = b.hart
  path : PathLike s.path b.path

/-! ### One cycle -/

variable {b : SlotBoard} {ph : Phase}

private theorem ActsLike.mmioIn (h : ActsLike s b) : b.mmioIn .pkg s.boardIn = s.pathIn := by
  change (⟨b.hart.core.periReq .pkg s.coreIn, s.ext⟩ : MmioIn windows fun k => (slot k).Pins) = _
  rw [← h.hart]
  rfl

private theorem ActsLike.path_step (h : ActsLike s b) (hc : Board.Coupled .pkg b ph) :
    s.periRsp = b.path.rsp devices s.pathIn ∧
      PathLike (s.path.next slaves s.pathIn) (b.path.next devices s.pathIn) :=
  AxiPath.Plays.step (fun k => (slot k).actsAs) windows_disjoint h.path hc.path

/-- The core of the board sees what the core of the chip sees. -/
private theorem ActsLike.coreIn (h : ActsLike s b) (hc : Board.Coupled .pkg b ph) :
    b.coreIn .pkg devices s.boardIn = s.coreIn := by
  have hrsp : b.path.rsp devices (b.mmioIn .pkg s.boardIn) = s.coreIn.periRsp := by
    rw [h.mmioIn, ← (h.path_step hc).1]
    rfl
  change ({ s.coreIn with periRsp := b.path.rsp devices (b.mmioIn .pkg s.boardIn) } : CoreIn) = s.coreIn
  rw [hrsp]

private theorem ActsLike.step (h : ActsLike s b) (hc : Board.Coupled .pkg b ph) :
    ActsLike (s.next i) (b.next .pkg devices s.boardIn) := by
  constructor
  · change (s.cpu.next .pkg s.hartIn).view = b.hart.next .pkg (b.coreIn .pkg devices s.boardIn)
    rw [h.coreIn hc, ← h.hart]
    exact HartMem.view_next
  · change PathLike _ (b.path.next devices (b.mmioIn .pkg s.boardIn))
    rw [h.mmioIn]
    exact (h.path_step hc).2

/-! ### Runs -/

theorem IsReset.board (h : s.IsReset img rf) : s.board.IsReset 0 img rf :=
  ⟨⟨h.cpu.core, h.cpu.dmem⟩, h.bridge, h.xbar, h.awSeen, h.wSeen, h.bvalid, h.rvalid⟩

private theorem IsReset.actsLike (h : s.IsReset img rf) : ActsLike s s.board :=
  ⟨rfl, rfl, rfl, fun k => PeriSlot.like_of_idle (h.rvalid k)⟩

section Run

variable (s) (inp : Nat → TopIn)

/-- The chip before cycle `t`. -/
def run (t : Nat) : TopModule := trace next s inp t

/-- What the core sees in a run. -/
def coreInp (t : Nat) : CoreIn := (run s inp t).coreIn

def boardInp (t : Nat) : BoardIn windows fun k => (slot k).Pins := (run s inp t).boardIn

/-- The board after the same cycles. -/
def boardRun (t : Nat) : SlotBoard := trace (Board.next .pkg devices) s.board (boardInp s inp) t

variable {s inp}

variable (inp) in
/-- The chip and the board along a run. -/
theorem actsLike_run (h : s.IsReset img rf) (t : Nat) :
    ActsLike (run s inp t) (boardRun s inp t) ∧ ∃ ph, Board.Coupled .pkg (boardRun s inp t) ph := by
  refine ⟨?_, ?_⟩
  · induction t with
    | zero => exact h.actsLike
    | succ t ih =>
      obtain ⟨ph, -, hc, -⟩ := Board.meets_run .pkg devices (boardInp s inp) windows_disjoint h.board t
      exact ih.step hc
  · obtain ⟨ph, -, hc, -⟩ := Board.meets_run .pkg devices (boardInp s inp) windows_disjoint h.board t
    exact ⟨ph, hc⟩

variable (inp) in
theorem hartInp_board (h : s.IsReset img rf) :
    Board.hartInp .pkg devices s.board (boardInp s inp) = coreInp s inp := by
  funext t
  obtain ⟨hl, ph, hc⟩ := actsLike_run inp h t
  exact hl.coreIn hc

theorem cores_board (h : s.IsReset img rf) (t : Nat) : (boardRun s inp t).path.cores = (run s inp t).cores := by
  funext k
  exact ((actsLike_run inp h t).1.path.slave k).core_eq.symm

/-- The core and the D-mem of a run. -/
theorem view_run (t : Nat) : (run s inp t).cpu.view = trace (CoreMem.next .pkg) s.cpu.view (coreInp s inp) t :=
  trace_view (fun s : TopModule => s.cpu.view) (fun s _ => s.coreIn) (fun _ _ => HartMem.view_next) t

end Run

/-! ### The interrupt lines -/

/-- The sources of the PLIC. -/
def source (s : TopModule) : Nat → Bool
  | 1 => s.uart.irq
  | 2 => s.i2c.irq
  | 3 => s.spi.irq
  | 4 => s.gpio.irq
  | 5 => s.fft.irq
  | 6 => s.i2s.irq
  | _ => false

/-- What raises an interrupt line of the hart: the bit software sets, the compare of the timer, or a source that is
enabled in the PLIC. -/
inductive Raises (s : TopModule) : Nat → Prop
  | software (h : s.msip.msipQ = true) : Raises s 3
  | timer (h : s.timer.mtipQ = true) : Raises s 7
  | external {k : Nat} (h : s.source k = true) (he : s.plic.enableQ.getLsbD k = true) : Raises s 11

private theorem plicIrq_getLsbD (s : TopModule) {k : Nat} (hk : k < 16) : s.plicIrq.getLsbD k = s.source k := by
  unfold plicIrq
  simp only [BitVec.getLsbD_append]
  interval_cases k <;> simp [source]

theorem raises_of_line {c : Nat} (h : s.coreIn.line c = true) : Raises s c := by
  change (if c = 3 then s.msip.msipQ else if c = 7 then s.timer.mtipQ else if c = 11 then s.meip else false) =
    true at h
  split_ifs at h with h3 h7 h11
  · rw [h3]
    exact .software h
  · rw [h7]
    exact .timer h
  · rw [h11]
    unfold meip Plic.meip at h
    obtain ⟨k, hk, hc⟩ := List.any_eq_true.mp h
    unfold Plic.claimable at hc
    rw [Bool.and_eq_true, Bool.and_eq_true] at hc
    refine .external (k := k) ?_ hc.2
    rw [← plicIrq_getLsbD s (List.mem_range.mp hk)]
    exact hc.1.2

/-! ### The program and the devices -/

/-- The request the devices perform in a cycle: a write waits at the slave as long as its device holds it. -/
def performed (s : TopModule) : Option MmioReq :=
  match s.path.bridge.stateQ with
  | .idle =>
    if s.periReq.wvalid && !waits windows.target devices s.cores s.periReq.request then
      some s.periReq.request else none
  | .wrData =>
    let r : MmioReq := ⟨true, s.path.bridge.addrQ, s.path.bridge.wdataQ, s.path.bridge.wstrbQ⟩
    if waits windows.target devices s.cores r then none else some r
  | _ => none

/-- The request with the answer of its device. -/
def exchange (c : ∀ k, (slot k).State) (i : SeqIn windows fun k => (slot k).Pins) : Option Exchange :=
  i.op.map fun r => (r.bus, answer windows.lowest devices c i.ext r)

section Meet

variable (s) (inp : Nat → TopIn)

/-- The requests the devices perform in a run, and their wires. -/
def deviceInp (t : Nat) : SeqIn windows fun k => (slot k).Pins := ⟨(run s inp t).performed, (run s inp t).ext⟩

/-- The program and the devices in the first `t` cycles of a run. -/
structure InStep (img : Nat → BitVec 64) (a : Arch) (t : Nat) : Prop where
  /-- The commits, traps and interrupts are those of the interpreter. -/
  program : CoreMem.InStep .pkg img a s.cpu.view (coreInp s inp) t
  /-- An interrupt has its cause in a device, in the cycle before. -/
  interrupts : ∀ u < t, ∀ o c, CoreMem.outsideEv .pkg (run s inp u).cpu.view (run s inp u).coreIn = some o →
    o.irq = some c → ∃ v, u = v + 1 ∧ Raises (run s inp v) c
  /-- The devices perform one request at a time and see nothing else of the bus. -/
  sequential : (run s inp t).cores = trace (seqNext windows.lowest devices) s.cores (deviceInp s inp) t
  /-- Both make the same accesses, with the same answers and in the same order; one of them may be one ahead. -/
  accesses : ∃ c l e, Board.Ahead l e ∧
    a.exchanges .pkg img (CoreMem.outsides .pkg s.cpu.view (coreInp s inp) t) = c ++ l ∧
    logFrom exchange (seqNext windows.lowest devices) s.cores (deviceInp s inp) 0 t = c ++ e

variable {s inp}

theorem op_board (h : s.IsReset img rf) (t : Nat) :
    Board.deviceInp .pkg devices s.board (boardInp s inp) t = deviceInp s inp t := by
  obtain ⟨hl, -⟩ := actsLike_run inp h t
  have hop : (boardRun s inp t).path.op devices ((boardRun s inp t).mmioIn .pkg (run s inp t).boardIn) =
      (run s inp t).performed := by
    rw [hl.mmioIn]
    unfold MmioPath.op performed
    rw [← hl.path.bridge, cores_board h]
    rfl
  exact congrArg (fun op => (⟨op, (run s inp t).ext⟩ : SeqIn windows fun k => (slot k).Pins)) hop

/-- The devices of a run are the sequential machine. -/
theorem cores_run (h : s.IsReset img rf) (t : Nat) :
    (run s inp t).cores = trace (seqNext windows.lowest devices) s.cores (deviceInp s inp) t := by
  have hdev : Board.deviceInp .pkg devices s.board (boardInp s inp) = deviceInp s inp := funext (op_board h)
  have hrun := Board.devices_run .pkg devices (boardInp s inp) windows_disjoint h.board t
  rw [hdev] at hrun
  rw [← cores_board h, ← windows_target]
  exact hrun

/-- Each device runs under the requests to its window. -/
theorem device_run (h : s.IsReset img rf) (inp : Nat → TopIn) (k : Fin 9) (t : Nat) :
    (run s inp t).cores k = trace (devices k).next (s.cores k)
      (fun u => opAccess windows.lowest devices (deviceInp s inp u).op k ((deviceInp s inp u).ext k)) t := by
  rw [cores_run h]
  exact trace_view (fun c : ∀ k, (slot k).State => c k)
    (fun _ (i : SeqIn windows fun k => (slot k).Pins) => opAccess windows.lowest devices i.op k (i.ext k))
    (fun _ _ => rfl) t

theorem inStep_run (h : s.IsReset img rf) (inp : Nat → TopIn)
    (ha : a = Arch.reset 0 rf (ofWords 4 s.cpu.dmem.mem)) (t : Nat)
    (hs : ∀ u < t, (a.after .pkg img (CoreMem.outsides .pkg s.cpu.view (coreInp s inp) u)).Regular .pkg img) :
    InStep s inp img a t := by
  have hinp := hartInp_board inp h
  have hdev : Board.deviceInp .pkg devices s.board (boardInp s inp) = deviceInp s inp := funext (op_board h)
  have hb : Board.InStep .pkg devices s.board (boardInp s inp) img a t := by
    refine Board.in_step windows_disjoint h.board (by decide) ha t ?_
    rw [hinp]
    exact hs
  have hprogram := hb.program
  have haccesses := hb.accesses
  rw [hinp] at hprogram haccesses
  rw [hdev] at haccesses
  refine ⟨hprogram, ?_, cores_run h t, ?_⟩
  · intro u hu o c ho hc
    rw [view_run] at ho
    obtain ⟨-, v, hv, hline⟩ := hprogram.interrupts u hu o c ho hc
    exact ⟨v, hv, raises_of_line hline⟩
  · obtain ⟨m, l, e, hahead, hhart, hpath⟩ := haccesses
    refine ⟨m, l, e, hahead, hhart, ?_⟩
    unfold exchange
    rw [← windows_target, ← hpath]
    rfl

/-- **The program and the devices of the chip.**  For every program, and whatever comes in at the pads, the hart does
what the interpreter does, every interrupt has its cause in a device, the devices perform one request at a time, and
the requests they perform are the accesses of the program with the same answers, as long as the states passed are
regular. -/
theorem program_and_devices (h : s.IsReset img rf) (inp : Nat → TopIn)
    (ha : a = Arch.reset 0 rf (ofWords 4 s.cpu.dmem.mem)) (t : Nat)
    (hs : ∀ u < t, (a.after .pkg img (CoreMem.outsides .pkg s.cpu.view (coreInp s inp) u)).Regular .pkg img) :
    InStep s inp img a t :=
  inStep_run h inp ha t hs

end Meet

/-! ### A run -/

/-- The chip out of reset, over cleared memories. -/
def outOfReset (img : Nat → BitVec 64) : TopModule where
  cpu := HartMem.reset 0 img ⟨fun _ => 0⟩ fun _ => 0
  path := ⟨⟨.idle, 0, 0, 0⟩, Xbar.reset 9, resetSlave⟩
  sync := .reset
  ledCntQ := 0

theorem outOfReset_isReset (img : Nat → BitVec 64) : (outOfReset img).IsReset img ⟨fun _ => 0⟩ := by
  have hport : ∀ k : Fin 9, ((slot k).port (resetSlave k)).awSeenQ = false ∧
      ((slot k).port (resetSlave k)).wSeenQ = false ∧ ((slot k).port (resetSlave k)).bvalidQ = false ∧
      ((slot k).port (resetSlave k)).rvalidQ = false := by
    intro k
    fin_cases k <;> exact ⟨rfl, rfl, rfl, rfl⟩
  have hcpu := HartMem.reset_isReset 0 img ⟨fun _ => 0⟩ fun _ => 0
  exact ⟨hcpu, ⟨rfl⟩, rfl, fun k => (hport k).1, fun k => (hport k).2.1, fun k => (hport k).2.2.1,
    fun k => (hport k).2.2.2, rfl, rfl⟩

/-- The word is no return from a trap and no wait. -/
def plainWord (w : Word) : Bool := (opcodeTree w).sysOp != .mret && (opcodeTree w).sysOp != .wfi

/-- No instruction made of the halfwords `H` is one. -/
def plainHalves (H : List (BitVec 16)) : Bool :=
  H.all fun l => if isRvc l then plainWord (cExpand l) else H.all fun h => plainWord (h ++ l)

/-- The words of a program, and the no-operations behind them. -/
def imageWords (l : List (BitVec 64)) : List (BitVec 64) := l ++ [0x0000001300000013#64]

/-- Their halfwords. -/
def imageHalves (l : List (BitVec 64)) : List (BitVec 16) :=
  (imageWords l).flatMap fun w => [0, 2, 4, 6].map fun r => w.extractLsb' (8 * r) 16

/-- A program without such an instruction, with nothing that could begin a long one in the upper halves of its
words. -/
def plainImage (l : List (BitVec 64)) : Bool :=
  plainHalves (imageHalves l) && (imageWords l).all fun w =>
    isRvc (w.extractLsb' 16 16) && isRvc (w.extractLsb' 48 16)

section Plain

variable {p : Params} {l : List (BitVec 64)}

private theorem imgOf_mem (l : List (BitVec 64)) (q : Nat) : imgOf l q ∈ imageWords l := by
  unfold imgOf imageWords
  rw [List.getD_eq_getElem?_getD]
  cases hq : l[q]? with
  | none => exact List.mem_append_right _ (List.mem_singleton_self _)
  | some w => exact List.mem_append_left _ (List.mem_of_getElem? hq)

private theorem imgHalf_mem {n : Nat} (h : n % 2 = 0) : imgHalf (imgOf l) n ∈ imageHalves l := by
  rw [imgHalf_eq h, imageHalves, List.mem_flatMap]
  refine ⟨_, imgOf_mem l (n / 8), List.mem_map.mpr ⟨n % 8, ?_, rfl⟩⟩
  have hr : n % 8 = 0 ∨ n % 8 = 2 ∨ n % 8 = 4 ∨ n % 8 = 6 := by omega
  rcases hr with hr | hr | hr | hr <;> simp [hr]

private theorem upper_of_plain (h : plainImage l = true) {n : Nat} (hn : n % 4 = 2) :
    isRvc (imgHalf (imgOf l) n) = true := by
  rw [plainImage, Bool.and_eq_true, List.all_eq_true] at h
  have hw := h.2 _ (imgOf_mem l (n / 8))
  rw [Bool.and_eq_true] at hw
  rw [imgHalf_eq (by omega)]
  have hr : n % 8 = 2 ∨ n % 8 = 6 := by omega
  rcases hr with hr | hr
  · rw [hr]
    exact hw.1
  · rw [hr]
    exact hw.2

/-- What it comes to is neither. -/
theorem word_of_plain (h : plainImage l = true) (a : Arch) :
    (a.word p (imgOf l)).sysOp ≠ .mret ∧ (a.word p (imgOf l)).sysOp ≠ .wfi := by
  rw [plainImage, Bool.and_eq_true] at h
  have hat : ∀ b : Word, halfAt (imgOf l) b ∈ imageHalves l := fun b => imgHalf_mem (by omega)
  have hfault : plainWord 0 = true := by decide
  have hword : plainWord (itemAt p (imgOf l) a.pc).src.instr32 = true := by
    have hhalf := List.all_eq_true.mp h.1
    have hlong : ∀ l' ∈ imageHalves l, ∀ u ∈ imageHalves l, ¬isRvc l' = true → plainWord (u ++ l') = true := by
      intro l' hl u hu hno
      have hall := hhalf l' hl
      rw [if_neg hno] at hall
      exact List.all_eq_true.mp hall u hu
    unfold itemAt
    split_ifs with hout hrvc hlow hspan
    · exact hfault
    · have hshort := hhalf _ (hat a.pc)
      rwa [if_pos hrvc] at hshort
    · rw [halfAt_low hlow] at hrvc
      exact hlong _ (imgHalf_mem (by omega)) _ (imgHalf_mem (by omega)) hrvc
    · exact hfault
    · exact hlong _ (hat _) _ (hat _) hrvc
  unfold plainWord at hword
  rw [Bool.and_eq_true, bne_iff_ne, bne_iff_ne] at hword
  exact hword

/-- Every state of it is regular. -/
theorem regular_of_plain (h : plainImage l = true) (a : Arch) : a.Regular p (imgOf l) := by
  obtain ⟨hmret, hwfi⟩ := word_of_plain (p := p) h a
  refine ⟨fun hspan => ?_, fun hm => absurd hm hmret, fun hw => absurd hw hwfi⟩
  have hlow := hspan.long
  rw [halfAt_high hspan.upper, upper_of_plain h (by omega)] at hlow
  cases hlow

end Plain

/-- `lui x1, 0x10003`, `csrrsi mie, 8`, `csrrsi mstatus, 8`, `addi x2, x0, 89`, `sw x2, 0(x1)`, `lui x1, 0x10000`,
`sw x2, 0(x1)` and a jump to itself: the program raises its own software interrupt and, in the handler, again; then it
sends a byte. -/
def raiseProgram : Nat → BitVec 64 :=
  imgOf [0x30446073100030B7#64, 0x0590011330046073#64, 0x100000B70020A023#64, 0x0000006F0020A023#64]

theorem raise_regular (a : Arch) : a.Regular .pkg raiseProgram := regular_of_plain (by decide +kernel) a

/-- The chip on that program. -/
theorem program_and_devices_raise : InStep (outOfReset raiseProgram) (fun _ => .idle) raiseProgram
    (Arch.reset 0 ⟨fun _ => 0⟩ (ofWords 4 fun _ => 0#32)) 1000 :=
  program_and_devices (outOfReset_isReset raiseProgram) (fun _ => .idle) rfl 1000 fun _ _ => raise_regular _

end Yarv.TopModule
