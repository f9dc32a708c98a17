import Yarv.Lib.Dropping
import Yarv.Pkg

/-!
# The board build of `guitar_tuner.c`

The acquisition chain and the main loop, from `i2s_flush` on: one step is one access to a peripheral.  Between two
accesses the words of the microphone arrive at the receiver, dropped when its FIFO is full, and the coprocessor comes
to the end of its transform; the display and the console yield to `tuner_drain` as often as they like.
-/

namespace Yarv.Tuner

open Dropping

def TUNER_N : Nat := 1024
def TUNER_HOP : Nat := 256
def TUNER_DC_SHIFT : Nat := 8
def TUNER_DECIM : Nat := 8
def TUNER_CIC_SHIFT : Nat := 6
def TUNER_IN_SHIFT : Nat := 8
def TUNER_ANIM_STEPS : Nat := 4
def TUNER_KLO : Nat := 35
def TUNER_KHI : Nat := 222
def FFT_SPIN_LIMIT : Nat := 2000000

/-- The words the receiver's FIFO holds. -/
def RX_FIFO_DEPTH : Nat := 16

/-! ### The acquisition chain -/

/-- The static variables of the chain; `ringPos` is kept below `TUNER_N` by its mask. -/
structure Vars where
  ring : BitVec 10 → BitVec 16
  ringPos : BitVec 10
  ringCount : Word
  cicI1 : Word
  cicI2 : Word
  cicD1 : Word
  cicD2 : Word
  cicPhase : Word
  dcX1 : Word
  dcY : Word
  dirty : Word
  rawMin : Word
  rawMax : Word
  frameOvr : Bool
  ovrCount : Word

/-- The clip of a sample to a `short`. -/
def clip (y : Word) : BitVec 16 :=
  if (32767#32).slt y then 32767 else if y.slt (-32768) then (-32768) else y.setWidth 16

/-- The decimator has a group of `TUNER_DECIM` words with the next one. -/
def Vars.emits (v : Vars) : Bool := !(v.cicPhase + 1).ult (BitVec.ofNat 32 TUNER_DECIM)

def tuner_push_input (v : Vars) (x : Word) : Vars :=
  let v : Vars :=
    { v with
      rawMin := if x.slt v.rawMin then x else v.rawMin
      rawMax := if v.rawMax.slt x then x else v.rawMax
      cicI1 := v.cicI1 + x
      cicI2 := v.cicI2 + (v.cicI1 + x) }
  if v.emits then
    let c1 := v.cicI2 - v.cicD1
    let s := (c1 - v.cicD2).sshiftRight TUNER_CIC_SHIFT
    let y := v.dcY + (s - v.dcX1) - v.dcY.sshiftRight TUNER_DC_SHIFT
    { v with
      cicPhase := 0
      cicD1 := v.cicI2
      cicD2 := c1
      dcX1 := s
      dcY := y
      ring := Function.update v.ring v.ringPos (clip y)
      ringPos := v.ringPos + 1
      ringCount := v.ringCount + 1
      dirty := if v.dirty ≠ 0 then v.dirty - 1 else v.dirty }
  else { v with cicPhase := v.cicPhase + 1 }

/-- What `tuner_drain` and `tuner_pump` do about an overrun they have cleared. -/
def Vars.overrun (v : Vars) : Vars :=
  { v with dirty := BitVec.ofNat 32 TUNER_N, frameOvr := true, ovrCount := v.ovrCount + 1 }

/-! ### The window -/

/-- The ring, oldest sample first. -/
def Vars.samples (v : Vars) (i : BitVec 10) : BitVec 16 := v.ring (v.ringPos + i)

/-- A buffer of the coprocessor. -/
abbrev Bank := BitVec 10 → Word

/-- `w` in the next round of `tuner_fill_fft`; the second loop begins with a `w` of its own. -/
def fillNext (i : Nat) (w : Word) : Word :=
  if i + 1 = TUNER_N / 2 then 32768 - 64 else if i < TUNER_N / 2 then w + 64 else w - 64

/-- The word `tuner_fill_fft` stores for sample `x`. -/
def fillWord (i : Nat) (x : BitVec 16) (w : Word) : Word :=
  (x.signExtend 32 * if i < TUNER_N / 2 then w else if (32767#32).slt w then 32767 else w).sshiftRight 15 &&& 0xFFFF

/-- `w` in round `i`. -/
def weight : Nat → Word
  | 0 => 0
  | i + 1 => fillNext i (weight i)

/-- The buffer that `tuner_fill_fft` makes of a window. -/
def windowed (samples : BitVec 10 → BitVec 16) : Bank := fun i => fillWord i.toNat (samples i) (weight i.toNat)

/-! ### The coprocessor -/

/-- The two buffers: `cpu` is the one the DATA page shows. -/
structure FftPort where
  busy : Bool
  done : Bool
  cpu : Bank
  eng : Bank

namespace FftPort

variable (f : FftPort)

def write (i : Nat) (x : Word) : FftPort := { f with cpu := Function.update f.cpu (BitVec.ofNat 10 i) x }

/-- A START; it is ignored while BUSY. -/
def start : FftPort := if f.busy then f else ⟨true, false, f.eng, f.cpu⟩

/-- The engine has made `T` of its buffer. -/
def finish (T : Bank → Bank) : FftPort := if f.busy then { f with busy := false, done := true, eng := T f.eng } else f

end FftPort

/-! ### Program points -/

/-- The stretches of the main loop that belong to the display and to the console. -/
inductive Spot
  | anim (step : Nat)
  | stalled
  | discarded
  | report
  deriving DecidableEq, Repr

/-- Where a `tuner_pump` returns to. -/
inductive PumpRet
  | prime
  | slice (step : Nat)
  deriving DecidableEq, Repr

inductive PumpPc
  | wait | pop | check | clear
  deriving DecidableEq, Repr

inductive DrainPc
  | test | read | pop | check | clear
  deriving DecidableEq, Repr

/-- The next access, or a test of the main loop. -/
inductive Pc
  | flushTest
  | flushPop
  | flushClear
  | pump (target : Word) (ret : PumpRet) (p : PumpPc)
  | spot (a : Spot)
  | drain (a : Spot) (p : DrainPc)
  | fftWait (spin : Nat)
  | fill (first : Bool) (i : Nat) (r : BitVec 10) (w : Word)
  | startIrq (first : Bool)
  | startCtrl (first : Bool)
  | frameCheck
  | dirtyCheck
  | analyse (k : Nat)
  deriving DecidableEq, Repr

/-! ### The system -/

/-- A window that was launched, with what its history says about it. -/
structure Launch where
  samples : BitVec 10 → BitVec 16
  /-- The numbers of the words the chain had been given, oldest first. -/
  fed : List Nat
  /-- `tuner_dirty` at the launch. -/
  dirty : Word
  /-- The samples made since the last clear of the overrun flag. -/
  since : Nat
  /-- The words that the decimator had in its open group at that clear, and those queued then in front of a hole. -/
  pending : Nat

/-- The program with its peripherals.  `line` is the receiver's FIFO with the history of the words, `clearedAt` counts
the words pushed before the last clear. -/
structure Sys where
  v : Vars
  line : Line Word
  fft : FftPort
  pc : Pc
  clearedAt : Nat
  launches : List Launch

namespace Sys

variable (s : Sys)

/-- The samples made so far. -/
def made : Nat := s.line.taken.length / TUNER_DECIM

/-- The window in the ring. -/
def window : Launch where
  samples := s.v.samples
  fed := s.line.taken
  dirty := s.v.dirty
  since := s.made - s.clearedAt / TUNER_DECIM
  pending := s.line.whole - TUNER_DECIM * (s.clearedAt / TUNER_DECIM)

/-- The pop of a queued word and its push into the chain. -/
def push : Sys :=
  match s.line.queue with
  | [] => s
  | (_, x) :: _ => { s with v := tuner_push_input s.v (x.sshiftRight TUNER_IN_SHIFT), line := s.line.take }

/-- The store of `i2s_overrun_clear`. -/
def clear : Sys := { s with line := s.line.clear, clearedAt := s.line.taken.length }

/-- The head of the loop of `tuner_pump`. -/
def pumpHead (target : Word) (ret : PumpRet) : Sys :=
  { s with
    pc :=
      if s.v.ringCount.ult target then .pump target ret .wait
      else
        match ret with
        | .prime => .fill true 0 s.v.ringPos 0
        | .slice k => .spot (.anim k) }

def pump (n : Nat) (ret : PumpRet) : Sys := s.pumpHead (s.v.ringCount + BitVec.ofNat 32 n) ret

/-- The head of the main loop. -/
def loopHead : Sys :=
  { s with v := { s.v with rawMin := 32767, rawMax := -32768 } }.pump (TUNER_HOP / TUNER_ANIM_STEPS) (.slice 0)

/-- The main loop behind a stretch of display or console. -/
def leave : Spot → Sys
  | .anim k =>
    if k + 1 < TUNER_ANIM_STEPS then s.pump (TUNER_HOP / TUNER_ANIM_STEPS) (.slice (k + 1))
    else { s with pc := .fftWait 0 }
  | .stalled => s.loopHead
  | .discarded => { s with pc := .dirtyCheck }
  | .report => s.loopHead

/-- The program goes on by one access; `more` says whether display and console yield once more.  A pop comes behind a
STATUS that shows a word. -/
def cpu (more : Bool) : Sys :=
  match s.pc with
  | .flushTest => { s with pc := if s.line.queue.isEmpty then .flushClear else .flushPop }
  | .flushPop => { s with line := s.line.discard, pc := .flushTest }
  | .flushClear =>
    { s.clear with
      v := { s.v with ovrCount := 0, frameOvr := false, dirty := BitVec.ofNat 32 TUNER_N } }.pump TUNER_N .prime
  | .pump target ret .wait => { s with pc := .pump target ret (if s.line.queue.isEmpty then .wait else .pop) }
  | .pump target ret .pop => { s.push with pc := .pump target ret .check }
  | .pump target ret .check =>
    if s.line.ovr then { s with pc := .pump target ret .clear } else s.pumpHead target ret
  | .pump target ret .clear => { s.clear with v := s.v.overrun }.pumpHead target ret
  | .spot a => if more then { s with pc := .drain a .test } else s.leave a
  | .drain a .test => { s with pc := .drain a (if s.line.queue.isEmpty then .check else .read) }
  | .drain a .read => { s with pc := .drain a .pop }
  | .drain a .pop => { s.push with pc := .drain a .test }
  | .drain a .check => { s with pc := if s.line.ovr then .drain a .clear else .spot a }
  | .drain a .clear => { s.clear with v := s.v.overrun, pc := .spot a }
  | .fftWait spin =>
    { s with
      pc :=
        if s.fft.done then .fill false 0 s.v.ringPos 0
        else if FFT_SPIN_LIMIT ≤ spin + 1 then .spot .stalled
        else .fftWait (spin + 1) }
  | .fill first i r w =>
    { s with
      fft := s.fft.write i (fillWord i (s.v.ring r) w)
      pc := if i + 1 < TUNER_N then .fill first (i + 1) (r + 1) (fillNext i w) else .startIrq first }
  | .startIrq first => { s with fft := { s.fft with done := false }, pc := .startCtrl first }
  | .startCtrl first =>
    let s' : Sys :=
      { s with fft := s.fft.start, launches := if s.fft.busy then s.launches else s.window :: s.launches }
    if first then s'.loopHead else { s' with pc := .frameCheck }
  | .frameCheck =>
    if s.v.frameOvr then { s with v := { s.v with frameOvr := false }, pc := .spot .discarded }
    else { s with pc := .dirtyCheck }
  | .dirtyCheck => if s.v.dirty ≠ 0 then s.loopHead else { s with pc := .analyse TUNER_KLO }
  | .analyse k => { s with pc := if k < TUNER_KHI then .analyse (k + 1) else .spot .report }

end Sys

/-- What the receiver queues for the `n`-th word of the bus. -/
def received (mic : Nat → BitVec 24) (n : Nat) : Word := (mic n).signExtend 32

/-- One step of the board: the next word of the microphone arrives, the coprocessor ends, or the program goes on. -/
inductive Step (T : Bank → Bank) (mic : Nat → BitVec 24) (s : Sys) : Sys → Prop
  | arrive : Step T mic s { s with line := s.line.arrive RX_FIFO_DEPTH (received mic s.line.heard) }
  | finish : Step T mic s { s with fft := s.fft.finish T }
  | cpu (more : Bool) : Step T mic s (s.cpu more)

/-- Every run of the board. -/
def Reaches (T : Bank → Bank) (mic : Nat → BitVec 24) : Sys → Sys → Prop := Relation.ReflTransGen (Step T mic)

end Yarv.Tuner
