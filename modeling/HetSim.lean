import HetSim.Replay.Asserts
import HetSim.Replay.Mutexes
import HetSim.Replay.Barriers
import HetSim.Replay.Queues
import HetSim.Replay.SleepWake
import HetSim.Tracer.TraceFile
import HetSim.Tracer.BlockOrder
import HetSim.WorkQueue.Retries
import HetSim.EventQueue.Order
import HetSim.Clock.PathIndependence
import HetSim.Address.Partition
import HetSim.Address.RoundTrip
import HetSim.Address.Cache
import HetSim.Tags.Recency
import HetSim.Memory.Reservations
import HetSim.Base.Deque
import HetSim.Memory.Sending
import HetSim.Branch.Histories
import HetSim.Ruby.Buffering
import HetSim.Tags.Superblocks
import HetSim.Base.PrefixMap
import HetSim.Replay.Watchdogs
import HetSim.Tracer.AddressSpaces
import HetSim.O3.Renaming
import HetSim.Process.AddressSpace
import HetSim.Ruby.Sequencing
import HetSim.Memory.StackDistances
import HetSim.Cache.Recovery
import HetSim.Mshr.ReadyOrder
import HetSim.Mshr.Flags
import HetSim.Memory.Functional
import HetSim.Tags.Locks
import HetSim.Memory.SnoopFilter
import HetSim.Scripts.InitQueues
import HetSim.Emulation.Restart
import HetSim.Compressors.Lossless
import HetSim.Cache.TreePLRU
import HetSim.Base.ChunkGenerator
import HetSim.O3.Forwarding
