import Yarv.Lib.Clocked
import Yarv.Lib.Ring
import Yarv.Pkg
import Yarv.NativeRam
import Yarv.FetchStage
import Yarv.CExpand
import Yarv.OpcodeTree
import Yarv.DecodeStage
import Yarv.Alu
import Yarv.Csr
import Yarv.ExecuteStage
import Yarv.BranchPredictor
import Yarv.Cpu
import Yarv.Image
import Yarv.FetchStream
import Yarv.FrontStream
import Yarv.Stream
import Yarv.Encoding
import Yarv.Kinds
import Yarv.AluFacts
import Yarv.ExecuteFacts
import Yarv.Position
import Yarv.Precision
import Yarv.Bus.Axi
import Yarv.Bus.MasterBridge
import Yarv.Bus.MasterBridgeFacts
import Yarv.Bus.RegSlave
import Yarv.Bus.Xbar
import Yarv.Bus.XbarFacts
import Yarv.Lib.Fifo
import Yarv.Lib.ShiftReg
import Yarv.Periph.Spi
import Yarv.Periph.SpiExchange
import Yarv.Periph.SpiFacts
import Yarv.Periph.I2c
import Yarv.Periph.I2cFacts
import Yarv.Periph.I2cRun
import Yarv.Lib.Serial
import Yarv.Periph.I2s
import Yarv.Periph.I2sFacts
import Yarv.Periph.Uart
import Yarv.Periph.UartFacts
import Yarv.Periph.UartLoop
import Yarv.Bus.MmioFacts
import Yarv.Periph.Peripherals
import Yarv.Alignment
import Yarv.AluRun
import Yarv.Lib.Driver
import Yarv.Lib.Radix2
import Yarv.Periph.Fft
import Yarv.Periph.FftModel
import Yarv.Sw.I2c
import Yarv.Sw.I2cError
import Yarv.Sw.Timer
import Yarv.TrapEntry
import Yarv.Lib.Dropping
import Yarv.Sw.Tuner
import Yarv.Sw.TunerFrame
import Yarv.CsrFacts
import Yarv.Instret
import Yarv.Lib.HalfUp
import Yarv.Lib.Wave
import Yarv.Periph.FftControl
import Yarv.Periph.FftEngine
import Yarv.Periph.FftRun
import Yarv.Periph.FftScaling
import Yarv.Periph.I2sClock
import Yarv.Periph.SpiClock
import Yarv.Periph.UartBaud
import Yarv.PredictorFacts
import Yarv.PushLookup
import Yarv.RamFacts
import Yarv.Lib.Bresenham
import Yarv.Lib.Cic
import Yarv.Lib.Signed
import Yarv.Lib.While
import Yarv.Sw.Bmp280
import Yarv.Sw.I2sRate
import Yarv.Sw.Monitor
import Yarv.Sw.Ssd1306
import Yarv.Sw.TunerCic
import Yarv.Lib.Sticky
import Yarv.Periph.I2cBus
import Yarv.Periph.StickyFlags
import Yarv.Periph.StoreLanes
import Yarv.Sw.SpiBuf
import Yarv.FetchCredit
import Yarv.Lib.Lockstep
import Yarv.Periph.FftAddr
import Yarv.Sim.CosimDiff
import Yarv.Periph.FftSlave
import Yarv.CoreMem
import Yarv.DataMem
import Yarv.HartMem
import Yarv.Isa.Compressed
import Yarv.Isa.Control
import Yarv.Isa.Expander
import Yarv.Isa.Machine
import Yarv.Bus.AxiPath
import Yarv.Lib.Progress
import Yarv.Periph.FftPort
import Yarv.Progress
import Yarv.Isa.Words
import Yarv.Soc.Board
import Yarv.Soc.Cleared
import Yarv.Soc.Liveness
import Yarv.Soc.UartRead
