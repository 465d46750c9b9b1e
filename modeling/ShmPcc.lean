import ShmPcc.Proofs.MsgQueueRace
import ShmPcc.Proofs.EpochGc
import ShmPcc.Proofs.HelpUpdate
import ShmPcc.Proofs.BwTreeGc
import ShmPcc.Proofs.BwTreeCache
import ShmPcc.Proofs.BwTreeRootRest
import ShmPcc.Proofs.SoftLock
import ShmPcc.Proofs.CxlRef
import ShmPcc.Proofs.CxlLayout
import ShmPcc.Proofs.CxlSegment
import ShmPcc.Proofs.CxlTestFree
import ShmPcc.Proofs.CxlTransfer
import ShmPcc.Proofs.ClevelOnce
import ShmPcc.Proofs.Rlock
import ShmPcc.Proofs.DisagrCas
import ShmPcc.Proofs.StaleRing
import ShmPcc.Proofs.MemoryManager
import ShmPcc.Proofs.LogAllocator
import ShmPcc.Proofs.SortedList
import ShmPcc.Proofs.ListVariants
import ShmPcc.Proofs.NtVariants
import ShmPcc.Proofs.ClevelOpt
import ShmPcc.Proofs.GcFlush
import ShmPcc.Proofs.ThreadPool
import ShmPcc.Proofs.RemoteGc
import ShmPcc.Proofs.ClevelExpand
import ShmPcc.Proofs.ClevelIndex
import ShmPcc.Proofs.ClevelLeak
import ShmPcc.Proofs.CxlRefInfo
import ShmPcc.Proofs.CxlHash
import ShmPcc.Proofs.Mempool
import ShmPcc.Proofs.HashRing
import ShmPcc.Proofs.PerformGc
