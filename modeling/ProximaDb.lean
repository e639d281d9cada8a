import ProximaDb.CanonicalWal.SnapshotPins
import ProximaDb.Cluster.Incarnations
import ProximaDb.Cluster.LockExclusion
import ProximaDb.Cluster.Replication
import ProximaDb.Codec.Hilbert
import ProximaDb.Codec.Patched
import ProximaDb.Iceberg.OidPositions
import ProximaDb.Ledger.Replay
import ProximaDb.Manifest.Linearizable
import ProximaDb.Memtable.ExactRemoval
import ProximaDb.Memtable.Pagination
import ProximaDb.Mvcc.ReadPreservation
import ProximaDb.Mvcc.Stages
import ProximaDb.Pax.FailLoud
import ProximaDb.Pax.MixedTypes
import ProximaDb.Pax.Residual
import ProximaDb.Queue.AtLeastOnce
import ProximaDb.Queue.Backpressure
import ProximaDb.Queue.Client
import ProximaDb.Queue.CrashRecovery
import ProximaDb.Queue.LeaseFencing
import ProximaDb.Queue.ReaperSafety
import ProximaDb.Relational.Engine
import ProximaDb.Relational.Like
import ProximaDb.Search.SameRows
import ProximaDb.Security.FilterCache
import ProximaDb.Security.SubjectBinding
import ProximaDb.Sketches.Frequent
import ProximaDb.Transaction.Atomicity
import ProximaDb.Transaction.DecisionLog
import ProximaDb.Transaction.FirstCommitter
import ProximaDb.Transaction.OneDecision
