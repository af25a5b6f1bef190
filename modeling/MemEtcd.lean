import MemEtcd.AtomicSections
import MemEtcd.Bookkeeping
import MemEtcd.CrashRecovery
import MemEtcd.Deliveries
import MemEtcd.DequeSections
import MemEtcd.FailedCalls
import MemEtcd.ImportRange
import MemEtcd.Indexes
import MemEtcd.KvRefinement
import MemEtcd.ListWatch
import MemEtcd.NoPersist
import MemEtcd.NotifyOrder
import MemEtcd.Pagination
import MemEtcd.Peers
import MemEtcd.PrevKv
import MemEtcd.QueryPanics
import MemEtcd.RaftLog
import MemEtcd.RaftTransport
import MemEtcd.RaftTxn
import MemEtcd.RangeExact
import MemEtcd.RangeSnapshot
import MemEtcd.RefusedSets
import MemEtcd.ReplicaReads
import MemEtcd.Restarts
import MemEtcd.RevisionCounter
import MemEtcd.SlotWrites
import MemEtcd.SnapshotData
import MemEtcd.SnapshotOrder
import MemEtcd.SnapshotReplay
import MemEtcd.SnapshotTransfer
import MemEtcd.TimeTravel
import MemEtcd.WalCrash
import MemEtcd.WalNames
import MemEtcd.WalPool
import MemEtcd.WalReopen
import MemEtcd.WalWriter
import MemEtcd.WatchCoverage
import MemEtcd.WatchExactly
import MemEtcd.WatchProgress
import MemEtcd.WatcherIsolation
import MemEtcd.WriteRaces
