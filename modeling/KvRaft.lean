import KvRaft.Lib.Machine
import KvRaft.Lib.Progress
import KvRaft.Lib.Lineage
import KvRaft.Lib.LittleEndian
import KvRaft.Lib.Frames
import KvRaft.Lib.Checksum
import KvRaft.Lib.Numerals
import KvRaft.Lib.Addresses
import KvRaft.Lib.Replay
import KvRaft.Lib.Maps
import KvRaft.Lib.Overwrite
import KvRaft.Lib.Recent
import KvRaft.Lib.Effects
import KvRaft.Raft.Rpc
import KvRaft.Raft.Node
import KvRaft.Raft.Cluster
import KvRaft.Raft.Votes
import KvRaft.Raft.Logs
import KvRaft.Raft.Commits
import KvRaft.Raft.Safety
import KvRaft.Raft.Election
import KvRaft.Raft.Carried
import KvRaft.Raft.Committed
import KvRaft.Raft.Followers
import KvRaft.Raft.Ballots
import KvRaft.Raft.Replication
import KvRaft.Raft.CommitRule
import KvRaft.Raft.Progress
import KvRaft.Raft.Goroutines
import KvRaft.Raft.Wakeups
import KvRaft.Raft.Liveness
import KvRaft.Raft.Shutdown
import KvRaft.Raft.Broadcast
import KvRaft.Raft.Leaders
import KvRaft.Raft.Wire
import KvRaft.Store.Codec
import KvRaft.Store.Disk
import KvRaft.Store.Write
import KvRaft.Store.Open
import KvRaft.Store.Read
import KvRaft.Store.Names
import KvRaft.Store.Integrity
import KvRaft.Store.Merge
import KvRaft.Store.History
import KvRaft.Store.Effects
import KvRaft.Store.Segments
import KvRaft.Store.Tails
import KvRaft.Store.Append
import KvRaft.Store.Index
import KvRaft.Store.Copy
import KvRaft.Store.Publish
import KvRaft.Store.Compact
import KvRaft.Store.Recover
import KvRaft.Store.Sessions
import KvRaft.Store.Crash
import KvRaft.Store.Faults
import KvRaft.Store.Hints
import KvRaft.Store.Traces
import KvRaft.Store.Order
import KvRaft.Store.Rebuild
import KvRaft.Store.Durable
import KvRaft.Store.PowerLoss
import KvRaft.Store.Capacity
import KvRaft.Store.Clock
import KvRaft.Store.Overlap
import KvRaft.Store.Failures
import KvRaft.Store.Aborted
import KvRaft.Store.Numbering
import KvRaft.Store.Refused
import KvRaft.Store.Readers
import KvRaft.Store.Flights
import KvRaft.Store.Refine
import KvRaft.Store.Periods
import KvRaft.Store.Exact
import KvRaft.Store.Oversized
import KvRaft.Store.Readable
import KvRaft.Store.ReadOnly
import KvRaft.Store.Fold
import KvRaft.Server.Linear
import KvRaft.Server.Replicas
import KvRaft.Server.System
import KvRaft.Server.Waiters
import KvRaft.Server.Mirror
import KvRaft.Server.Completions
import KvRaft.Server.Config
import KvRaft.Server.Stores
import KvRaft.Server.Available
