import Yarv.Bus.MmioFacts
import Yarv.Periph.I2c
import Yarv.Periph.I2s
import Yarv.Periph.Registers
import Yarv.Periph.Spi
import Yarv.Periph.Uart

/-!
# The peripherals behind the crossbar

`Peri` names the slaves a window may lead to, with their parameters.  `atomic_iff` is the result of the path for every
map of disjoint windows over them: it is the sequential machine of `seqNext` exactly when no window ends at the top of
the address space.
-/

namespace Yarv

open Clocked

/-- The kinds of slaves, with the widths of their storage. -/
inductive Peri
  | axi4LiteRam (a : Nat)
  | axi4LiteGpio (w : Nat)
  | axi4LitePlic (n : Nat)
  | axi4LiteI2s (wr : Nat)
  | axi4LiteSpi (wt wr : Nat)
  | axi4LiteI2c (wt wr : Nat)
  | axi4LiteUart (wt wr : Nat)
  | clintTimer
  | msipPeri

namespace Peri

/-- The address bits a slave decodes. -/
abbrev Addr : Peri → Type
  | axi4LiteRam a => BitVec a
  | clintTimer => BitVec 2
  | msipPeri => Unit
  | _ => BitVec 3

abbrev State : Peri → Type
  | axi4LiteRam a => AxiRam a
  | axi4LiteGpio w => Gpio w
  | axi4LitePlic n => Plic n
  | axi4LiteI2s wr => I2s wr
  | axi4LiteSpi wt wr => Spi wt wr
  | axi4LiteI2c wt wr => I2c wt wr
  | axi4LiteUart wt wr => Uart wt wr
  | clintTimer => ClintTimer
  | msipPeri => MsipPeri

/-- The wires besides the bus. -/
abbrev Pins : Peri → Type
  | axi4LiteGpio w => BitVec w
  | axi4LitePlic n => BitVec n
  | axi4LiteI2s _ => I2sPins
  | axi4LiteSpi _ _ => Bool
  | axi4LiteI2c _ _ => I2cPins
  | axi4LiteUart _ _ => Bool
  | _ => Unit

instance (p : Peri) : Nonempty p.Pins := by
  cases p with
  | axi4LiteI2s wr => exact ⟨⟨false, false, false⟩⟩
  | axi4LiteI2c wt wr => exact ⟨⟨true, true⟩⟩
  | axi4LiteSpi wt wr | axi4LiteUart wt wr => exact ⟨true⟩
  | axi4LiteGpio n | axi4LitePlic n => exact ⟨0#n⟩
  | axi4LiteRam a => exact ⟨()⟩
  | clintTimer | msipPeri => exact ⟨()⟩

def device : (p : Peri) → RegDevice p.Addr p.State p.Pins
  | axi4LiteRam _ => AxiRam.device
  | axi4LiteGpio _ => Gpio.device
  | axi4LitePlic _ => Plic.device
  | axi4LiteI2s _ => I2s.device
  | axi4LiteSpi _ _ => Spi.device
  | axi4LiteI2c _ _ => I2c.device
  | axi4LiteUart _ _ => Uart.device
  | clintTimer => ClintTimer.device
  | msipPeri => MsipPeri.device

end Peri

namespace MmioPath

variable {x : XbarParams} (kind : Fin x.n → Peri)

/-- A path to slaves of the kinds `kind`. -/
abbrev Of : Type := MmioPath x (fun k => (kind k).Addr) fun k => (kind k).State

abbrev devices (k : Fin x.n) : RegDevice (kind k).Addr (kind k).State (kind k).Pins := (kind k).device

variable {kind}

/-- For every map of disjoint windows the path is the sequential machine on the windows that contain the addresses,
in every run, exactly when every window ends below `2 ^ 32`. -/
theorem atomic_iff {s : Of kind} (hd : x.Disjoint) (h0 : s.IsReset) :
    (∀ inp, ∃ op, Refines x.lowest (devices kind) s inp op) ↔ ∀ k, (x.base k).toNat + (x.size k).toNat < 2 ^ 32 := by
  constructor
  · intro h k
    by_contra hk
    have hpins : Nonempty (∀ k, (kind k).Pins) := inferInstance
    obtain ⟨pins⟩ := hpins
    obtain ⟨op, hop⟩ := h (poke pins k)
    exact not_refines_top hd h0.idle (Nat.le_of_not_lt hk) pins op hop
  · intro hb inp
    refine ⟨opAt (devices kind) s inp, ?_⟩
    rw [← target_eq_lowest hb]
    exact refines_target hd h0.idle

/-! ### Two maps -/

/-- Bus flops at reset, latches at 0. -/
def portReset {α : Type} (a : α) : SlavePort α := ⟨false, false, a, 0, 0, false, false, 0⟩

/-- The map the crossbar defaults to: UART, machine timer, software interrupt. -/
def fixedHead : XbarParams where
  n := 3
  base k := match k with
    | 0 => 0x1000_0000#32
    | 1 => 0x1000_1000#32
    | 2 => 0x1000_3000#32
  size k := match k with
    | 0 => 0x1000#32
    | 1 => 0x2000#32
    | 2 => 0x1000#32

def fixedHeadKind : Fin 3 → Peri
  | 0 => .axi4LiteUart 4 4
  | 1 => .clintTimer
  | 2 => .msipPeri

def fixedHeadStart : Of (x := fixedHead) fixedHeadKind where
  bridge := ⟨.idle, 0, 0, 0⟩
  xbar := Xbar.reset 3
  slave := fun k : Fin 3 => match k with
    | 0 => ⟨portReset 0#3, Uart.reset 433 (fun _ => 0) fun _ => 0⟩
    | 1 => ⟨portReset 0#2, ClintTimer.reset⟩
    | 2 => ⟨portReset (), ⟨false⟩⟩

private theorem fixedHead_disjoint : fixedHead.Disjoint := by
  intro a (j : Fin 3) (k : Fin 3) hj hk
  match j, k with
  | 0, 0 | 1, 1 | 2, 2 => rfl
  | 0, 1 | 0, 2 | 1, 0 | 1, 2 | 2, 0 | 2, 1 =>
    simp [XbarParams.Covers, fixedHead] at hj hk
    omega

private theorem fixedHeadStart_isReset : fixedHeadStart.IsReset := by
  refine ⟨⟨rfl⟩, rfl, ?_, ?_, ?_, ?_⟩ <;>
  · intro (k : Fin 3)
    match k with
    | 0 | 1 | 2 => rfl

/-- An idle receive line. -/
def fixedHeadPins : ∀ k : Fin 3, (fixedHeadKind k).Pins
  | 0 => true
  | 1 => ()
  | 2 => ()

/-- Writes to MSIP over the default map are atomic. -/
theorem fixedHead_atomic :
    ∃ op, Refines fixedHead.lowest (devices (x := fixedHead) fixedHeadKind) fixedHeadStart
      (poke fixedHeadPins (2 : Fin 3)) op :=
  (atomic_iff fixedHead_disjoint fixedHeadStart_isReset).mpr (fun k : Fin 3 => match k with
    | 0 | 1 | 2 => by decide) _

/-- One window, the last 64 KiB. -/
def lastWindow : XbarParams := ⟨1, fun _ => 0xFFFF_0000#32, fun _ => 0x1_0000#32⟩

def lastWindowStart : Of (x := lastWindow) fun _ => .msipPeri :=
  ⟨⟨.idle, 0, 0, 0⟩, Xbar.reset 1, fun _ => ⟨portReset (), ⟨false⟩⟩⟩

/-- A write to the first address of the last window is answered and never performed. -/
theorem lastWindow_not_atomic :
    lastWindow.Disjoint ∧ lastWindowStart.IsReset ∧
      ∀ op, ¬Refines lastWindow.lowest (devices (x := lastWindow) fun _ => .msipPeri) lastWindowStart
        (poke (fun _ => ()) (0 : Fin 1)) op := by
  have hd : lastWindow.Disjoint := fun _ j k _ _ => Subsingleton.elim (α := Fin 1) j k
  have h0 : lastWindowStart.IsReset :=
    ⟨⟨rfl⟩, rfl, fun _ => rfl, fun _ => rfl, fun _ => rfl, fun _ => rfl⟩
  exact ⟨hd, h0, fun op => not_refines_top hd h0.idle (by decide) _ op⟩

end MmioPath

end Yarv
