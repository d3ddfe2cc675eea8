import RaftNode.Bytes
import RaftNode.Utf8
import RaftNode.Entry
import RaftNode.Message
import RaftNode.Role
import RaftNode.Error
import RaftNode.Json.Decode
import RaftNode.Wire
import RaftNode.Machine.KeyValue
import RaftNode.Machine.Journal
import RaftNode.OsError
import RaftNode.Path
import RaftNode.Folder
import RaftNode.Disk
import RaftNode.Store
import RaftNode.Store.File
import RaftNode.Store.Recorded
import RaftNode.Store.Any
import RaftNode.Store.System
import RaftNode.Log
import RaftNode.Replication
import RaftNode.Config
import RaftNode.Node
import RaftNode.Machine.Any
import RaftNode.World
import RaftNode.Network
import RaftNode.Server
import RaftNode.MediaType
import RaftNode.Http
import RaftNode.Cluster
import RaftNode.Toml.Reader
import RaftNode.Address
import RaftNode.Settings
import RaftNode.CommandLine
import RaftNode.Service
import RaftNode.Folder.Change
import RaftNode.HttpCall
import RaftNode.Main
import RaftNode.Proofs.Action
import RaftNode.Proofs.Durable
import RaftNode.Proofs.FullLog
import RaftNode.Proofs.LogOperations
import RaftNode.Proofs.History
import RaftNode.Proofs.HistorySteps
import RaftNode.Proofs.Committed
import RaftNode.Proofs.Protocol
import RaftNode.Proofs.Member
import RaftNode.Proofs.Messages
import RaftNode.Proofs.Leading
import RaftNode.Proofs.Elections
import RaftNode.Proofs.Following
import RaftNode.Proofs.RunHistory
import RaftNode.Proofs.Safety
import RaftNode.Proofs.Mirror
import RaftNode.Proofs.WriteAhead
import RaftNode.Proofs.Steps
import RaftNode.Proofs.Ballots
import RaftNode.Proofs.Bookkeeping
import RaftNode.Proofs.Texts
import RaftNode.Proofs.Reading
import RaftNode.Proofs.Machines
import RaftNode.Proofs.Reliable
import RaftNode.Proofs.Unbroken
import RaftNode.Proofs.ReliableRuns
import RaftNode.Proofs.InMemory
import RaftNode.Proofs.Handlers
import RaftNode.Proofs.Positions
import RaftNode.Proofs.Replay
import RaftNode.Proofs.Heeding
import RaftNode.Proofs.Waiting
import RaftNode.Proofs.Settling
import RaftNode.Proofs.Records
import RaftNode.Proofs.Redelivery
import RaftNode.Proofs.Ranges
import RaftNode.Proofs.Files
import RaftNode.Proofs.Directory
import RaftNode.Proofs.PowerLoss
import RaftNode.Proofs.Checksums
import RaftNode.Proofs.Solid
import RaftNode.Proofs.Timestamps
import RaftNode.Proofs.Formats
import RaftNode.Proofs.Filled
import RaftNode.Proofs.Agreement
import RaftNode.Proofs.TornAppend
import RaftNode.Proofs.Damage
import RaftNode.Proofs.Merging
import RaftNode.Proofs.CommitRule
import RaftNode.Proofs.Alignment
import RaftNode.Proofs.Acknowledged
import RaftNode.Proofs.Outstanding
import RaftNode.Proofs.Replying
import RaftNode.Proofs.CatchUp
import RaftNode.Proofs.Canvass
import RaftNode.Proofs.Vouched
import RaftNode.Proofs.Rejection
import RaftNode.Proofs.Barrier
import RaftNode.Proofs.Tenure
import RaftNode.Proofs.Excerpts
import RaftNode.Proofs.EventWrites
import RaftNode.Proofs.Admission
import RaftNode.Proofs.Occupancy
import RaftNode.Proofs.Commands
import RaftNode.Proofs.Sums
import RaftNode.Proofs.Headroom
import RaftNode.Proofs.Exhaustion
