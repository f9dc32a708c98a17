import Yarv.HartMem
import Yarv.Periph.FftPort
import Yarv.Periph.FftTwiddleRom
import Yarv.Periph.I2cBus
import Yarv.Periph.Peripherals
import Yarv.Periph.StickyFlags

/-!
# `top_module`

The hart with its memories, the bridge, the crossbar with its nine windows, the slaves, the synchronizers of the pads
and the pad glue, behind the reset synchronizer.  The inputs are the levels that the board puts on the pads; the
interrupt lines of the hart come from the devices, and its peripheral port is answered by the bridge.
-/

namespace Yarv

/-! ### What stands behind a window -/

/-- A register slave, or the FFT with its twiddle ROM. -/
inductive PeriSlot
  | reg (k : Peri)
  | axi4LiteFft (m : Nat) (rom : BitVec m → Word)

namespace PeriSlot

abbrev Addr : PeriSlot → Type
  | reg k => k.Addr
  | axi4LiteFft _ _ => BitVec 11

abbrev State : PeriSlot → Type
  | reg k => k.State
  | axi4LiteFft m _ => Fft m

abbrev Pins : PeriSlot → Type
  | reg k => k.Pins
  | axi4LiteFft _ _ => Unit

/-- The flops of the slave, those on the bus included. -/
abbrev Flops : PeriSlot → Type
  | reg k => RegSlave k.Addr k.State
  | axi4LiteFft m _ => FftSlave m

/-- The slave as it is wired. -/
def slave : (k : PeriSlot) → AxiSlave k.Flops k.Pins
  | reg k => k.device.slave
  | axi4LiteFft _ rom => FftSlave.slave rom

/-- What it is a slave for. -/
def device : (k : PeriSlot) → RegDevice k.Addr k.State k.Pins
  | reg k => k.device
  | axi4LiteFft _ rom => Fft.device rom

def core : (k : PeriSlot) → k.Flops → k.State
  | reg _ => RegSlave.core
  | axi4LiteFft _ _ => FftSlave.core

def port : (k : PeriSlot) → k.Flops → SlavePort k.Addr
  | reg _ => RegSlave.port
  | axi4LiteFft _ _ => FftSlave.port

/-- A slave and the register slave it acts as. -/
def Like : (k : PeriSlot) → k.Flops → RegSlave k.Addr k.State → Prop
  | reg _ => Eq
  | axi4LiteFft _ _ => FftSlave.Like

variable {k : PeriSlot} {f : k.Flops} {r : RegSlave k.Addr k.State}

theorem actsAs (k : PeriSlot) : ActsAs k.slave k.device k.Like := by
  cases k with
  | reg k => exact k.device.actsAs
  | axi4LiteFft m rom => exact FftSlave.actsAs

theorem Like.core_eq (h : k.Like f r) : k.core f = r.core := by
  cases k with
  | reg k => exact congrArg RegSlave.core h
  | axi4LiteFft m rom => exact FftSlave.Like.core h

/-- The register slave with the flops of a slave; they act alike while no read is answered. -/
theorem like_of_idle (h : (k.port f).rvalidQ = false) : k.Like f ⟨k.port f, k.core f⟩ := by
  cases k with
  | reg k => rfl
  | axi4LiteFft m rom =>
    have hno : ∀ {c : Prop}, (FftSlave.port f).rvalidQ = true → c := by
      intro c hv
      have hf : (FftSlave.port f).rvalidQ = false := h
      rw [hf] at hv
      cases hv
    exact ⟨rfl, rfl, rfl, rfl, rfl, rfl, rfl, rfl, fun hv _ => hno hv, fun hv _ => hno hv⟩

end PeriSlot

namespace TopModule

/-! ### The windows -/

abbrev W_UART : Fin 9 := 0
abbrev W_TIMER : Fin 9 := 1
abbrev W_MSIP : Fin 9 := 2
abbrev W_I2C : Fin 9 := 3
abbrev W_SPI : Fin 9 := 4
abbrev W_GPIO : Fin 9 := 5
abbrev W_PLIC : Fin 9 := 6
abbrev W_FFT : Fin 9 := 7
abbrev W_I2S : Fin 9 := 8

def UART_BASE : Word := 0x1000_0000
def MTIMER_BASE : Word := 0x1000_1000
def MSIP_PERI_ADDR : Word := 0x1000_3000
def I2C_BASE : Word := 0x1000_5000
def SPI_BASE : Word := 0x1000_6000
def GPIO_BASE : Word := 0x1000_7000
def PLIC_BASE : Word := 0x1000_8000
def FFT_BASE : Word := 0x1000_A000
def I2S_BASE : Word := 0x1000_C000

/-- `BASES`. -/
def bases : Fin 9 → Word
  | 0 => UART_BASE
  | 1 => MTIMER_BASE
  | 2 => MSIP_PERI_ADDR
  | 3 => I2C_BASE
  | 4 => SPI_BASE
  | 5 => GPIO_BASE
  | 6 => PLIC_BASE
  | 7 => FFT_BASE
  | 8 => I2S_BASE

/-- `SIZES`: 4 KiB, but for the timer and the FFT. -/
def sizes : Fin 9 → Word
  | 1 => 0x2000
  | 7 => 0x2000
  | _ => 0x1000

def windows : XbarParams := ⟨9, bases, sizes⟩

/-- `PLIC_SRC_N`. -/
abbrev PLIC_SRC_N : Nat := 16

/-- The slave behind each window; the FIFOs hold 16 entries, the FFT has `NMAX = 1024`. -/
def slot : Fin 9 → PeriSlot
  | 0 => .reg (.axi4LiteUart 4 4)
  | 1 => .reg .clintTimer
  | 2 => .reg .msipPeri
  | 3 => .reg (.axi4LiteI2c 4 4)
  | 4 => .reg (.axi4LiteSpi 4 4)
  | 5 => .reg (.axi4LiteGpio 4)
  | 6 => .reg (.axi4LitePlic PLIC_SRC_N)
  | 7 => .axi4LiteFft 9 FftTwiddleRom.data
  | 8 => .reg (.axi4LiteI2s 4)

/-- No address is in two windows. -/
theorem windows_disjoint : windows.Disjoint := by
  have hcover : ∀ a (j k : Fin 9), j < k → windows.Covers a j → ¬windows.Covers a k := by
    intro a j k hjk hj hk
    have hend : ∀ j k : Fin 9, j < k → (bases j).toNat + (sizes j).toNat ≤ (bases k).toNat := by decide
    have h1 : a.toNat < (bases j).toNat + (sizes j).toNat := hj.2
    have h2 : (bases k).toNat ≤ a.toNat := hk.1
    have h3 := hend j k hjk
    omega
  intro a j k hj hk
  rcases lt_trichotomy j k with h | h | h
  · exact absurd hk (hcover a j k h hj)
  · exact h
  · exact absurd hj (hcover a k j h hk)

/-- The windows end below `2 ^ 32`, so the comparators find the one that contains the address. -/
theorem windows_target : windows.target = windows.lowest := by
  refine MmioPath.target_eq_lowest fun k => ?_
  have hend : ∀ k : Fin 9, (bases k).toNat + (sizes k).toNat < 2 ^ 32 := by decide
  exact hend k

end TopModule

/-! ### The flops and the pads -/

open MmioPath in
/-- The slaves at their reset values, over cleared storage; BAUDDIV is `UART_CLK_HZ / UART_BAUD - 1`. -/
def TopModule.resetSlave : ∀ k : Fin 9, (TopModule.slot k).Flops
  | 0 => ⟨portReset 0, Uart.reset 433 (fun _ => 0) fun _ => 0⟩
  | 1 => ⟨portReset 0, ClintTimer.reset⟩
  | 2 => ⟨portReset (), ⟨false⟩⟩
  | 3 => ⟨portReset 0, I2c.reset (fun _ => 0) fun _ => 0⟩
  | 4 => ⟨portReset 0, Spi.reset (fun _ => 0) fun _ => 0⟩
  | 5 => ⟨portReset 0, Gpio.reset⟩
  | 6 => ⟨portReset 0, Plic.reset⟩
  | 7 => FftSlave.outOfReset 9
  | 8 => ⟨portReset 0, I2s.reset fun _ => (0, false)⟩

/-- The two flops of each synchronizer; bit 1 is the second one. -/
structure TopSync where
  i2cSclSyncQ : BitVec 2
  i2cSdaSyncQ : BitVec 2
  spiMisoSyncQ : BitVec 2
  gpioSync0Q : BitVec 4
  gpioSync1Q : BitVec 4
  i2sBclkSyncQ : BitVec 2
  i2sLrckSyncQ : BitVec 2
  i2sSdSyncQ : BitVec 2
  uartRxdSyncQ : BitVec 2
  deriving DecidableEq, Repr

def TopSync.reset : TopSync := ⟨0b11, 0b11, 0b00, 0xF, 0xF, 0b00, 0b00, 0b00, 0b11⟩

/-- What the board puts on the pads: pull-ups included, and counted where the chip does not drive. -/
structure TopIn where
  uartRxd : Bool
  i2cScl : Bool
  i2cSda : Bool
  spiMiso : Bool
  gpio : BitVec 4
  i2sBclk : Bool
  i2sLrck : Bool
  i2sSd : Bool
  deriving DecidableEq, Repr

/-- Idle pads. -/
def TopIn.idle : TopIn := ⟨true, true, true, false, 0xF, false, false, false⟩

/-- What the chip drives on its output pads. -/
structure TopOut where
  uartTxd : Bool
  spiSck : Bool
  spiMosi : Bool
  spiCsN : Bool
  led : BitVec 4
  deriving DecidableEq, Repr

/-- The flops of the chip.  The bridge is the one inside the CPU. -/
structure TopModule where
  cpu : HartMem
  path : AxiPath TopModule.windows fun k => (TopModule.slot k).Flops
  sync : TopSync
  ledCntQ : BitVec 28

namespace TopModule

variable (s : TopModule) (i : TopIn)

/-- The devices. -/
def cores (k : Fin 9) : (slot k).State := (slot k).core (s.path.slave k)

def uart : Uart 4 4 := s.cores W_UART

def timer : ClintTimer := s.cores W_TIMER

def msip : MsipPeri := s.cores W_MSIP

def i2c : I2c 4 4 := s.cores W_I2C

def spi : Spi 4 4 := s.cores W_SPI

def gpio : Gpio 4 := s.cores W_GPIO

def plic : Plic PLIC_SRC_N := s.cores W_PLIC

def fft : Fft 9 := s.cores W_FFT

def i2s : I2s 4 := s.cores W_I2S

/-! ### Interrupts -/

/-- `plic_irq`: the sources 1 to 6, by `PLIC_SRC_*`; bit 0 and the upper IDs stay 0. -/
def plicIrq : BitVec PLIC_SRC_N :=
  0#9 ++ BitVec.ofBool s.i2s.irq ++ BitVec.ofBool s.fft.irq ++ BitVec.ofBool s.gpio.irq ++ BitVec.ofBool s.spi.irq ++
    BitVec.ofBool s.i2c.irq ++ BitVec.ofBool s.uart.irq ++ 0#1

def meip : Bool := s.plic.meip s.plicIrq

/-! ### Pads -/

/-- An open-drain line: pulled low, or what the board makes of it. -/
def i2cSclIo : Bool := if s.i2c.eng.sclOe then false else i.i2cScl

def i2cSdaIo : Bool := if s.i2c.eng.sdaOe then false else i.i2cSda

/-- Each pin is driven or released on its own. -/
def gpioIo : BitVec 4 := (s.gpio.dirQ &&& s.gpio.outQ) ||| (~~~s.gpio.dirQ &&& i.gpio)

def i2sBclkIo : Bool := if s.i2s.masterQ then s.i2s.gen.bclkQ else i.i2sBclk

def i2sLrckIo : Bool := if s.i2s.masterQ then s.i2s.gen.wsQ else i.i2sLrck

/-- A synchronizer shifts its pad in. -/
def shiftSync (q : BitVec 2) (d : Bool) : BitVec 2 := q.setWidth 1 ++ BitVec.ofBool d

def syncNext : TopSync where
  i2cSclSyncQ := shiftSync s.sync.i2cSclSyncQ (s.i2cSclIo i)
  i2cSdaSyncQ := shiftSync s.sync.i2cSdaSyncQ (s.i2cSdaIo i)
  spiMisoSyncQ := shiftSync s.sync.spiMisoSyncQ i.spiMiso
  gpioSync0Q := s.gpioIo i
  gpioSync1Q := s.sync.gpioSync0Q
  i2sBclkSyncQ := shiftSync s.sync.i2sBclkSyncQ (s.i2sBclkIo i)
  i2sLrckSyncQ := shiftSync s.sync.i2sLrckSyncQ (s.i2sLrckIo i)
  i2sSdSyncQ := shiftSync s.sync.i2sSdSyncQ i.i2sSd
  uartRxdSyncQ := shiftSync s.sync.uartRxdSyncQ i.uartRxd

/-- The wires of the devices, behind the synchronizers. -/
def ext : ∀ k : Fin 9, (slot k).Pins
  | 0 => s.sync.uartRxdSyncQ.getLsbD 1
  | 1 => ()
  | 2 => ()
  | 3 => ⟨s.sync.i2cSclSyncQ.getLsbD 1, s.sync.i2cSdaSyncQ.getLsbD 1⟩
  | 4 => s.sync.spiMisoSyncQ.getLsbD 1
  | 5 => s.sync.gpioSync1Q
  | 6 => s.plicIrq
  | 7 => ()
  | 8 => ⟨s.sync.i2sBclkSyncQ.getLsbD 1, s.sync.i2sLrckSyncQ.getLsbD 1, s.sync.i2sSdSyncQ.getLsbD 1⟩

def out : TopOut where
  uartTxd := s.uart.txd
  spiSck := s.spi.sckQ
  spiMosi := s.spi.mosi
  spiCsN := s.spi.csNQ
  led := s.ledCntQ.extractLsb' 25 3 ++ BitVec.ofBool (if s.gpio.dirQ.getLsbD 0 then s.gpio.outQ.getLsbD 0 else false)

/-! ### The CPU -/

/-- The inputs of the hart, for a given answer of the peripheral port. -/
def hartInWith (r : MemRsp) : HartIn := ⟨CoreMem.noRsp, r, s.msip.msipQ, s.timer.mtipQ, s.meip⟩

/-- The request on the peripheral port; it does not look at the answer. -/
def periReq : MemReq := s.cpu.hart.core.periReq .pkg (s.cpu.coreIn .pkg (s.hartInWith CoreMem.noRsp))

def slaves (k : Fin 9) : AxiSlave (slot k).Flops (slot k).Pins := (slot k).slave

def pathIn : MmioIn windows fun k => (slot k).Pins := ⟨s.periReq, s.ext⟩

def periRsp : MemRsp := s.path.rsp slaves s.pathIn

def hartIn : HartIn := s.hartInWith s.periRsp

/-- One clock edge. -/
def next : TopModule where
  cpu := s.cpu.next .pkg s.hartIn
  path := s.path.next slaves s.pathIn
  sync := s.syncNext i
  ledCntQ := s.ledCntQ + 1

/-- The state behind a reset: the devices, the D-mem and the predictor hold anything. -/
structure IsReset (img : Nat → BitVec 64) (rf : RegFile) (s : TopModule) : Prop where
  cpu : s.cpu.IsReset 0 img rf
  bridge : s.path.bridge.IsReset
  xbar : s.path.xbar = Xbar.reset windows.n
  awSeen : ∀ k, ((slot k).port (s.path.slave k)).awSeenQ = false
  wSeen : ∀ k, ((slot k).port (s.path.slave k)).wSeenQ = false
  bvalid : ∀ k, ((slot k).port (s.path.slave k)).bvalidQ = false
  rvalid : ∀ k, ((slot k).port (s.path.slave k)).rvalidQ = false
  sync : s.sync = .reset
  ledCnt : s.ledCntQ = 0

end TopModule

end Yarv
