import BusPlot.Library.PartialRun
import BusPlot.Library.Framing
import BusPlot.Library.FramingPositions
import BusPlot.Library.ReflectedRegister
import BusPlot.Library.HalvingSearch
import BusPlot.Library.AppendedChecksum
import BusPlot.Library.StackDepths
import BusPlot.Library.Mailbox
import BusPlot.Library.PackedRecord
import BusPlot.Crc
import BusPlot.CrcDistance
import BusPlot.CrcBitwise
import BusPlot.CrcTail
import BusPlot.CrcErrors
import BusPlot.Protocol
import BusPlot.SerialReceiver
import BusPlot.Registrations
import BusPlot.SerialInvariant
import BusPlot.SerialRuns
import BusPlot.SerialStream
import BusPlot.SerialDelivery
import BusPlot.SerialIgnored
import BusPlot.SerialSynchronisation
import BusPlot.SerialDamage
import BusPlot.SerialLine
import BusPlot.SerialNoise
import BusPlot.SerialSections
import BusPlot.SerialConnect
import BusPlot.SerialObject
import BusPlot.SerialThread
import BusPlot.SerialReconnect
import BusPlot.SerialValidity
import BusPlot.ConnectButton
import BusPlot.PlotSeries
import BusPlot.PlotChart
import BusPlot.Handlers
import BusPlot.ChartReplay
import BusPlot.SeriesOrder
import BusPlot.RenderWindow
import BusPlot.SeriesWindow
import BusPlot.StoredDots
import BusPlot.RenderFrame
import BusPlot.Requests
import BusPlot.PlotDrawing
import BusPlot.WireToPlot
import BusPlot.ChartSteps
import BusPlot.Shutdown
import BusPlot.ChartThreads
import BusPlot.ChartCallers
import BusPlot.FrameSnapshot
import BusPlot.FrameSequence
import BusPlot.ProgramFrames
