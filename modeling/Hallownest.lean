import Hallownest.Lib.Assoc
import Hallownest.Lib.BitSet
import Hallownest.Lib.Bytes
import Hallownest.Lib.Crc32
import Hallownest.Lib.Framing
import Hallownest.Lib.Linearize
import Hallownest.Lib.Linked
import Hallownest.Lib.Lists
import Hallownest.Lib.Mix
import Hallownest.Lib.Replog.Basic
import Hallownest.Lib.Replog.Invariant
import Hallownest.Lib.Replog.Preservation
import Hallownest.Lib.Replog.Safety
import Hallownest.Lib.Replog.Splice
import Hallownest.Lib.Run
import Hallownest.Lib.Search
import Hallownest.Lib.SharedLog
import Hallownest.Lib.Slice
import Hallownest.Lib.Traced
import Hallownest.Record
import Hallownest.Damage
import Hallownest.Bench.WAL
import Hallownest.Bench.Recovery
import Hallownest.Bench.Corruption
import Hallownest.Bench.Loops
import Hallownest.Bench.Wraparound
import Hallownest.Bench.PowerCut
import Hallownest.Storage.MemTable
import Hallownest.Storage.SkipList
import Hallownest.Storage.FiniteMap
import Hallownest.Storage.Writes
import Hallownest.Storage.TableState
import Hallownest.Storage.Iteration
import Hallownest.Storage.RandomLevel
import Hallownest.Storage.Lumafly
import Hallownest.Storage.Filter
import Hallownest.Storage.SSTable
import Hallownest.Storage.Scan
import Hallownest.Bursts
import Hallownest.Storage.OpenSafety
import Hallownest.Storage.TableFile
import Hallownest.Storage.TableGet
import Hallownest.Storage.BitRot
import Hallownest.Storage.Determinism
import Hallownest.Storage.Lookup
import Hallownest.Storage.Compaction
import Hallownest.Storage.DamagedCompaction
import Hallownest.Storage.Rounds
import Hallownest.Storage.Interruption
import Hallownest.Storage.Stages
import Hallownest.Consensus.RaftTypes
import Hallownest.Consensus.RaftNode
import Hallownest.Consensus.Cluster
import Hallownest.Consensus.Handlers
import Hallownest.Consensus.ApplyChannel
import Hallownest.Consensus.Abstraction
import Hallownest.Consensus.NodeSteps
import Hallownest.Consensus.Replication
import Hallownest.Consensus.Simulation
import Hallownest.Consensus.Safety
import Hallownest.Consensus.Indexing
import Hallownest.Consensus.Backoff
import Hallownest.Consensus.Progress
import Hallownest.Consensus.LateAppends
import Hallownest.Consensus.Commitment
import Hallownest.Consensus.Receipts
import Hallownest.Consensus.Restart
import Hallownest.Consensus.History
import Hallownest.Consensus.SharedLog
import Hallownest.Consensus.Partition
import Hallownest.Consensus.Schedules
import Hallownest.Consensus.Availability
import Hallownest.Consensus.Timers
import Hallownest.Consensus.Stability
import Hallownest.Consensus.MockNetwork
import Hallownest.Consensus.Elections
import Hallownest.Network.Server
import Hallownest.Network.Listener
import Hallownest.Network.Connection
import Hallownest.Daemon
import Hallownest.Cli
import Hallownest.Durability
import Hallownest.Deployment
import Hallownest.Replicas
import Hallownest.Followers
import Hallownest.Concurrency
import Hallownest.Gateway
import Hallownest.Lives
