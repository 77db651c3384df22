import UdpSm.Lib.Memory
import UdpSm.Lib.Endian
import UdpSm.Lib.Circular
import UdpSm.Lib.Transition
import UdpSm.Lib.ReserveCommit
import UdpSm.Lib.FreeList
import UdpSm.RingFIFOBuffer
import UdpSm.RingLayout
import UdpSm.RingQueue
import UdpSm.RingRefinement
import UdpSm.InserterImplementation
import UdpSm.InserterLog
import UdpSm.SharedMemoryReader
import UdpSm.SharedMemoryDecoder
import UdpSm.ParserImplementation
import UdpSm.ParserLoop
import UdpSm.ParserFrame
import UdpSm.ParserGrammar
import UdpSm.ParserCapacity
import UdpSm.ParserAccess
import UdpSm.RingAccounting
import UdpSm.RingTransaction
import UdpSm.NetworkReceiverImplementationEFVI
import UdpSm.ReceiverPackets
import UdpSm.ReceiverCapacity
import UdpSm.KeyboardReadInput
import UdpSm.InserterTurn
import UdpSm.ParserSession
import UdpSm.Pipeline
import UdpSm.PipelineStep
import UdpSm.PipelineLog
import UdpSm.PipelineDecoding
import UdpSm.PipelineConservation
import UdpSm.PipelineSession
import UdpSm.UDPJubmoFrameReceiverImplementation
import UdpSm.PipelineFields
import UdpSm.MainLoopSession
import UdpSm.MainLoopShutdown
import UdpSm.PipelineSequence
import UdpSm.MainLoopPublished
import UdpSm.PipelineAdmission
import UdpSm.ParserAccounting
import UdpSm.MainLoopWaiting
import UdpSm.PipelineTiming
import UdpSm.PipelineBuffers
import UdpSm.ReceiverPool
import UdpSm.ReceiverResources
import UdpSm.ReceiverReassembly
import UdpSm.ReceiverBounds
import UdpSm.ReceiverDiscards
import UdpSm.RingArithmetic
import UdpSm.RingDrain
import UdpSm.InserterLifetime
import UdpSm.InserterLines
import UdpSm.Lib.Qsort
import UdpSm.Lib.HighWater
import UdpSm.Lib.HostWord
import UdpSm.Percentile
import UdpSm.PercentileIndices
import UdpSm.PercentileOrder
import UdpSm.RingMarks
import UdpSm.InserterByteOrder
import UdpSm.Lib.CString
import UdpSm.Mjson
import UdpSm.MjsonSafety
import UdpSm.MjsonMembers
import UdpSm.InputArguments
import UdpSm.MjsonScan
import UdpSm.MjsonDocument
import UdpSm.InputArgumentsSettings
import UdpSm.InputArgumentsFiles
import UdpSm.MainLoopDrain
import UdpSm.PipelineWire
import UdpSm.PipelineCounters
import UdpSm.PipelineLayout
import UdpSm.Lib.Ticker
import UdpSm.PipelineHeartbeat
import UdpSm.Main
import UdpSm.MainStart
import UdpSm.MainSignals
import UdpSm.MainRun
import UdpSm.MainProgress
import UdpSm.MainEnd
import UdpSm.Lib.Reflected
import UdpSm.KeyboardConsole
import UdpSm.Lib.Recorder
import UdpSm.Tsc
import UdpSm.PercentileTable
import UdpSm.PipelineMeter
import UdpSm.PipelineLatency
import UdpSm.PipelineStamps
import UdpSm.Lib.StringCopy
import UdpSm.ReceiverConfiguration
