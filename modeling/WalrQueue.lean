import WalrQueue.Lib.BigEndian
import WalrQueue.Lib.Closing
import WalrQueue.Lib.Consecutive
import WalrQueue.Lib.FiniteMap
import WalrQueue.Lib.Simulation
import WalrQueue.Lib.Trace
import WalrQueue.Lib.Varint
import WalrQueue.Env
import WalrQueue.QueueRegistry
import WalrQueue.WalCodec
import WalrQueue.WalRoundTrip
import WalrQueue.DiskLog
import WalrQueue.DiskContents
import WalrQueue.TimerWheel
import WalrQueue.WheelLeases
import WalrQueue.LeaseTable
import WalrQueue.SingleQueue
import WalrQueue.QueueOccurrence
import WalrQueue.Engine
import WalrQueue.EngineFrames
import WalrQueue.Run
import WalrQueue.UlidText
import WalrQueue.ShardLocation
import WalrQueue.Presence
import WalrQueue.WrittenLog
import WalrQueue.Life
import WalrQueue.LifeSections
import WalrQueue.LifeOps
import WalrQueue.Location
import WalrQueue.AckOnce
import WalrQueue.CompactionSafety
import WalrQueue.Raft
import WalrQueue.RamAccounting
import WalrQueue.RamCeiling
import WalrQueue.Replica
import WalrQueue.Failover
import WalrQueue.Redelivery
import WalrQueue.LeaseExpiry
import WalrQueue.Interleaving
import WalrQueue.StuckLease
import WalrQueue.HandOff
import WalrQueue.RaftLog
import WalrQueue.Proposals
import WalrQueue.LeaderLog
import WalrQueue.Quorum
import WalrQueue.Cluster
import WalrQueue.LogMatching
import WalrQueue.CatchUp
import WalrQueue.SnapshotInstall
import WalrQueue.AckAgreement
import WalrQueue.PageIn
import WalrQueue.ColdStart
import WalrQueue.Reopen
import WalrQueue.WalReaders
import WalrQueue.TornTail
import WalrQueue.VisibilityTimes
import WalrQueue.FailoverTimes
import WalrQueue.QueueRun
import WalrQueue.TimedQueue
import WalrQueue.CursorAlignment
import WalrQueue.GroupCommit
import WalrQueue.ResentBatches
import WalrQueue.DeadLetterAck
import WalrQueue.BatchCalls
import WalrQueue.QueueIds
import WalrQueue.WireCodec
import WalrQueue.ClientRouting
import WalrQueue.ClientBuffer
import WalrQueue.ShardSteps
import WalrQueue.ReadyCount
import WalrQueue.ReplayExact
import WalrQueue.PagingRead
import WalrQueue.ColdPageIn
import WalrQueue.IdResolution
import WalrQueue.OnePlace
import WalrQueue.InFlightGauge
import WalrQueue.InMemory
import WalrQueue.Restart
import WalrQueue.Maintenance
import WalrQueue.CompactionCrash
import WalrQueue.Lib.Broker
import WalrQueue.BrokerRefinement
import WalrQueue.Fifo
import WalrQueue.SpilledFifo
import WalrQueue.Threads
import WalrQueue.WriterFiles
import WalrQueue.CrashDurability
