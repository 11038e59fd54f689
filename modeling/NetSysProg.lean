import NetSysProg.CInt
import NetSysProg.Runs
import NetSysProg.History
import NetSysProg.Intervals
import NetSysProg.SeqNumModel
import NetSysProg.SeqNumService
import NetSysProg.SeqNumDeadlock
import NetSysProg.ShmTransferModel
import NetSysProg.ShmTransferPhase
import NetSysProg.ShmTransfer
import NetSysProg.ShmTransferShutdown
import NetSysProg.SignalPingPong
import NetSysProg.Responses
import NetSysProg.SigsetModel
import NetSysProg.SigsetRefine
import NetSysProg.FifoModel
import NetSysProg.FifoDropped
import NetSysProg.Outcome
import NetSysProg.LinkedChain
import NetSysProg.WatchListModel
import NetSysProg.WatchListRefine
import NetSysProg.CString
import NetSysProg.CStringBounded
import NetSysProg.Stdio
import NetSysProg.Numerals
import NetSysProg.StatusModel
import NetSysProg.StatusUid
import NetSysProg.StatusLines
import NetSysProg.SeqNumRepeat
import NetSysProg.ByteFile
import NetSysProg.CopyModel
import NetSysProg.Tee
import NetSysProg.DictModel
import NetSysProg.DictConvert
import NetSysProg.DictRoundTrip
import NetSysProg.TextLines
import NetSysProg.Words
import NetSysProg.DictText
import NetSysProg.ConvertEnds
import NetSysProg.ConvertFields
import NetSysProg.LookupSafe
import NetSysProg.RemoteModel
import NetSysProg.MappedModel
import NetSysProg.MappedConvert
import NetSysProg.RemoteLookup
import NetSysProg.MappedSearch
import NetSysProg.RemoteStream
import NetSysProg.RemoteDatagram
import NetSysProg.TailModel
import NetSysProg.TailScan
import NetSysProg.TailCorrect
import NetSysProg.Strtol
import NetSysProg.TailOption
import NetSysProg.Processes
import NetSysProg.ProcessTraces
import NetSysProg.ShellModel
import NetSysProg.ShellPipeline
import NetSysProg.ShellRedirect
import NetSysProg.ShellRedirectExact
import NetSysProg.ShellMalformed
import NetSysProg.RedirectError
import NetSysProg.PipelineWait
import NetSysProg.ForegroundWait
import NetSysProg.BackgroundMarker
import NetSysProg.ShellInput
import NetSysProg.ShellLines
import NetSysProg.ShellBuiltins
import NetSysProg.ShellSurvives
import NetSysProg.ShellEcho
import NetSysProg.ShellStores
import NetSysProg.RingModel
import NetSysProg.RingStranded
import NetSysProg.Circular
import NetSysProg.RingSlots
import NetSysProg.RingIntact
import NetSysProg.RingPacing
import NetSysProg.RingCount
import NetSysProg.MqFileModel
import NetSysProg.MqFileRelease
import NetSysProg.MqFileAccount
import NetSysProg.CapitalsModel
import NetSysProg.Capitals
import NetSysProg.PopenModel
import NetSysProg.PopenAssociation
import NetSysProg.PopenChildren
import NetSysProg.PopenFailure
import NetSysProg.DirTree
import NetSysProg.MonitorModel
import NetSysProg.MonitorInvariant
import NetSysProg.MonitorComplete
import NetSysProg.MonitorBurst
import NetSysProg.MonitorAbort
import NetSysProg.MonitorEntries
import NetSysProg.MonitorRemoval
import NetSysProg.InotifyBatch
import NetSysProg.Preorder
import NetSysProg.PsTreeModel
import NetSysProg.PsTreeBuild
import NetSysProg.PsTree
import NetSysProg.PsTreeScan
import NetSysProg.PsTreeListing
import NetSysProg.PsTreeBounds
import NetSysProg.PsTreeExits
import NetSysProg.Descriptors
import NetSysProg.ScanDescriptors
import NetSysProg.OpenFileScan
import NetSysProg.OpenFileListing
import NetSysProg.Completion
import NetSysProg.ShmTransferEnds
import NetSysProg.MqFileService
import NetSysProg.Heap
import NetSysProg.ShellHeap
import NetSysProg.Pipes
import NetSysProg.SimplePipe
import NetSysProg.ChangeCaseModel
import NetSysProg.ChangeCase
import NetSysProg.Radix
import NetSysProg.GetNum
import NetSysProg.PipeSync
import NetSysProg.FifoService
import NetSysProg.DictSession
import NetSysProg.PopenGlob
import NetSysProg.SignalRounds
import NetSysProg.SeqNumCompletes
import NetSysProg.FifoEnds
import NetSysProg.Sigpause
import NetSysProg.PipeLsWcModel
import NetSysProg.PipeLsWc
