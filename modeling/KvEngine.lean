import KvEngine.Common.Bytes
import KvEngine.Common.LogOp
import KvEngine.Os.Disk
import KvEngine.Codes.ShiftRegister
import KvEngine.Codes.Delimited
import KvEngine.Systems.Simulation
import KvEngine.Systems.Ledger
import KvEngine.Systems.Program
import KvEngine.Systems.Threads
import KvEngine.Wal.Crc
import KvEngine.Wal.Record
import KvEngine.Wal.Log
import KvEngine.Wal.Resume
import KvEngine.Wal.Reads
import KvEngine.Wal.Integrity
import KvEngine.Wal.Framing
import KvEngine.Store.KVStore
import KvEngine.Store.Machine
import KvEngine.Store.Recovery
import KvEngine.Store.Working
import KvEngine.Store.GroupCommit
import KvEngine.Store.Incarnations
import KvEngine.Store.Snapshot
import KvEngine.Store.CheckpointCrash
import KvEngine.Store.CheckpointFaults
import KvEngine.Store.Faults
import KvEngine.Store.Truncation
import KvEngine.Store.Rotation
import KvEngine.Store.Sharing
import KvEngine.Store.Sequence
import KvEngine.Consensus.Log
import KvEngine.Consensus.Majority
import KvEngine.Consensus.Election
import KvEngine.Consensus.Matching
import KvEngine.Consensus.Completeness
import KvEngine.Raft.Node
import KvEngine.Raft.Cluster
import KvEngine.Raft.Simulation
import KvEngine.Raft.Majority
import KvEngine.Raft.LogMatching
import KvEngine.Raft.Reordering
import KvEngine.Raft.Orderly
import KvEngine.Raft.Durability
import KvEngine.Raft.Deployment
import KvEngine.Raft.Remembered
import KvEngine.Raft.Restarts
import KvEngine.Raft.Agreement
import KvEngine.Raft.Speakers
import KvEngine.Raft.Indices
import KvEngine.Raft.StaleReplies
import KvEngine.Raft.Reads
import KvEngine.Raft.CatchUp
import KvEngine.Raft.Reapply
import KvEngine.Raft.ElectionRound
import KvEngine.Raft.Entries
import KvEngine.Raft.History
import KvEngine.Raft.Hints
import KvEngine.Raft.Electable
import KvEngine.Raft.Progress
import KvEngine.Object.Text
import KvEngine.Object.Metadata
import KvEngine.Object.Program
import KvEngine.Object.ObjectStore
import KvEngine.Object.Representation
import KvEngine.Object.Calls
import KvEngine.Object.Refinement
import KvEngine.Object.CrashAtomicity
import KvEngine.Object.Listing
import KvEngine.Object.ListingOrder
import KvEngine.Object.Names
import KvEngine.Object.Puts
import KvEngine.Object.FailedWrites
import KvEngine.Object.Collection
import KvEngine.Object.ReadBack
import KvEngine.Object.Overwrite
import KvEngine.Object.Garbage
import KvEngine.Object.Collector
import KvEngine.Object.PutDelete
import KvEngine.Object.Clients
import KvEngine.Object.Recovered
import KvEngine.Server.Connection
import KvEngine.Server.Command
import KvEngine.Server.Served
import KvEngine.Server.Responses
import KvEngine.Server.Order
