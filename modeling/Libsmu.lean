import Libsmu.Lib.Machine
import Libsmu.Lib.BoundedQueue
import Libsmu.Lib.Counter
import Libsmu.Lib.CountedLoop
import Libsmu.Lib.Emitter
import Libsmu.Lib.HexText
import Libsmu.Lib.Ledger
import Libsmu.Lib.WordBuffer
import Libsmu.Lib.Locks
import Libsmu.InputFifo
import Libsmu.Streaming
import Libsmu.Completion
import Libsmu.Lockstep
import Libsmu.EncodeOut
import Libsmu.OutputRuns
import Libsmu.OutputSupply
import Libsmu.ContinuousEnd
import Libsmu.SessionCompletion
import Libsmu.Configure
import Libsmu.Session
import Libsmu.SampleRate
import Libsmu.WriteThread
import Libsmu.PauseResume
import Libsmu.FlushRequest
import Libsmu.InputDecoding
import Libsmu.WireRoundTrip
import Libsmu.MuxMode
import Libsmu.StreamPositions
import Libsmu.DataflowErrors
import Libsmu.DeviceControl
import Libsmu.DeviceSet
import Libsmu.LiveSession
import Libsmu.SwitchOff
import Libsmu.FailedStart
import Libsmu.Restart
import Libsmu.LockOrder
import Libsmu.DeviceLifetimes
import Libsmu.Lib.SectionedText
import Libsmu.CalibrationFile
import Libsmu.CalibrationReader
import Libsmu.WriteCalibration
import Libsmu.CalibrationRecords
import Libsmu.CalibrationGains
import Libsmu.Lib.DecimalText
import Libsmu.CalibrationRunFile
import Libsmu.Membership
import Libsmu.FrameSync
import Libsmu.FlushDiscards
import Libsmu.WriteCall
import Libsmu.FillRollback
import Libsmu.SerialNumbers
import Libsmu.ScanReport
import Libsmu.UsbHandles
import Libsmu.Lib.RoundedQuotient
import Libsmu.TimerPeriods
import Libsmu.TransferBuffers
import Libsmu.FailedConfigure
import Libsmu.WaitTime
import Libsmu.OutputCodes
import Libsmu.ReadCall
import Libsmu.ReadReturns
import Libsmu.ReadResult
import Libsmu.ShortTransfers
import Libsmu.ModeAgreement
import Libsmu.Lib.SignedRemainder
import Libsmu.Waveforms
import Libsmu.WaveformPhase
import Libsmu.SawtoothRange
import Libsmu.WaveformLevels
import Libsmu.Generators
import Libsmu.CalibrationStore
import Libsmu.CalibrationRun
import Libsmu.VoltageSearch
import Libsmu.OutputStream
import Libsmu.InputStream
import Libsmu.CyclicWaveforms
import Libsmu.WriteThreadExit
import Libsmu.GetSamples
import Libsmu.ReadWrite
import Libsmu.Getopt
import Libsmu.CommandLine
import Libsmu.SambaCommands
import Libsmu.FlashFirmware
import Libsmu.EnumerationErrors
import Libsmu.TransferCollections
