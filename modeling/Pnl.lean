import Pnl.Lib.Bytes
import Pnl.Lib.CheckedWrites
import Pnl.Mkfs
import Pnl.Proof.MkfsRequests
import Pnl.Proof.MkfsFreeMap
import Pnl.Proof.MkfsSuperblock
import Pnl.Proof.MkfsGeometry
import Pnl.Pnlfs
import Pnl.Proof.MkfsFreeCounts
import Pnl.Proof.MkfsImage
import Pnl.Proof.MkfsErrors
import Pnl.Proof.MkfsSize
import Pnl.Commit
import Pnl.Lib.Rings
import Pnl.Lib.ListHeads
import Pnl.Proof.CommitRings
import Pnl.Lib.Loops
import Pnl.History
import Pnl.Lib.Runs
import Pnl.Lib.Sleepers
import Pnl.TaskMonitor
import Pnl.TaskMonitorIoctl
import Pnl.Proof.IoctlThread
import Pnl.Proof.IoctlOwnership
import Pnl.Proof.IoctlStrings
import Pnl.Proof.IoctlSamples
import Pnl.Lib.Fairness
import Pnl.TaskMonitorIoctlThreads
import Pnl.Proof.IoctlInterleavings
import Pnl.Lib.Krefs
import Pnl.TaskMonitor2
import Pnl.Proof.TaskMonitor2Refs
import Pnl.Proof.TaskMonitor2Calls
import Pnl.Proof.TaskMonitor2Strays
import Pnl.Proof.TaskMonitor2Lifetime
import Pnl.Proof.TaskMonitor2Counters
import Pnl.TaskMonitor2Reader
import Pnl.Lib.Ledgers
import Pnl.Lib.Kthreads
import Pnl.TaskMonitor2Module
import Pnl.Proof.TaskMonitor2Readers
import Pnl.Proof.TaskMonitor2Balance
import Pnl.Proof.TaskMonitor2Thread
import Pnl.Lib.UserWrites
import Pnl.TaskMonitorSysfs
import Pnl.Proof.SysfsStore
import Pnl.Proof.CommitVersions
import Pnl.Proof.HistoryLoops
import Pnl.Proof.HistoryAnchor
import Pnl.Kcpustat
import Pnl.Lib.Telescopes
import Pnl.Proof.KcpustatReports
import Pnl.KcpustatList
import Pnl.Proof.KcpustatPrint
import Pnl.Proof.KcpustatLeaks
import Pnl.Proof.MkfsArithmetic
import Pnl.Proof.TaskMonitor2Contents
import Pnl.Proof.TaskMonitor2Sysfs
import Pnl.DentryHash
import Pnl.Proof.DentryCensus
import Pnl.UpdateSb2
import Pnl.Proof.StampOnce
import Pnl.Comment
import Pnl.Proof.CommentBlocks
import Pnl.Lib.CStrings
import Pnl.UnameModule
import Pnl.Proof.UnameRestore
import Pnl.Proof.MonitorFnSleeps
import Pnl.Lib.ListFamilies
import Pnl.ListH
import Pnl.Proof.ListHRuns
import Pnl.Proof.TaskMonitorUnload
import Pnl.Proof.CommitContents
import Pnl.Proof.HistoryLogs
import Pnl.Proof.KcpustatMemory
import Pnl.Proof.MkfsHosts
import Pnl.Hlist
import Pnl.Proof.HlistRuns
import Pnl.Proof.TaskMonitor2System
import Pnl.CronFunc
import Pnl.Proof.CronFuncReads
