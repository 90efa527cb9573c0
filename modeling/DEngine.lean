import DEngine.Raft.CommitMonotone
import DEngine.Raft.ElectionSafety
import DEngine.Raft.Promotion
import DEngine.Client.ReplyIndex
import DEngine.Storage.ResetFence
import DEngine.Storage.FlushAnswer
import DEngine.Adaptors.PurgeCoverage
import DEngine.Adaptors.RocksDBCapture
import DEngine.Apply.SnapshotWorker
import DEngine.Apply.MembershipReplay
import DEngine.Raft.Probing
import DEngine.Raft.ElectionTally
import DEngine.Raft.ExactVotes
import DEngine.Raft.SnapshotHold
import DEngine.Raft.ReplyTerms
import DEngine.Raft.EventOrder
import DEngine.Raft.NoopIndex
import DEngine.Raft.PurgeRetry
import DEngine.Adaptors.CleanRestart
import DEngine.Storage.FileMetaStore
import DEngine.Storage.FsyncHandover
import DEngine.Storage.PurgeBoundary
import DEngine.Storage.TornTail
import DEngine.Adaptors.PrefixScan
import DEngine.Adaptors.FileInstall
import DEngine.Adaptors.LeaseRestart
import DEngine.Watch.Routing
import DEngine.Watch.Accounting
import DEngine.Apply.SnapshotTransfer
import DEngine.Storage.MemoryHistory
import DEngine.Watch.Replay
import DEngine.Watch.Progress
import DEngine.Apply.SnapshotCleanup
