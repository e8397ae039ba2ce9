import LMCache.CacheGen.BufferBound
import LMCache.CacheGen.Bytestream
import LMCache.Controller.ConcurrentRegistry
import LMCache.Controller.FreezeMode
import LMCache.Controller.PeerLookup
import LMCache.Controller.ReleasedWorker
import LMCache.Distributed.CompletedWrites
import LMCache.Distributed.EvictionRound
import LMCache.Distributed.ListenerCalls
import LMCache.Distributed.MemoryAccounting
import LMCache.Distributed.PrefetchedLocks
import LMCache.Engine.CopiedObjects
import LMCache.Engine.EventManager
import LMCache.Engine.KeyCodec
import LMCache.Engine.PinBalance
import LMCache.Engine.PrefetchRelease
import LMCache.Engine.PrefixKeys
import LMCache.Engine.PrefixLookup
import LMCache.Engine.SegmentTokenDatabase
import LMCache.Engine.StoredNames
import LMCache.Engine.StrayReferences
import LMCache.Engine.WeightedSemaphore
import LMCache.Local.ControllerMirror
import LMCache.Local.DiskEviction
import LMCache.Local.Eviction
import LMCache.Local.MessageOrder
import LMCache.Local.RefusedPuts
import LMCache.Memory.PagedConservation
import LMCache.Memory.PinMonitor
import LMCache.MultiProcess.FinishedOnce
import LMCache.MultiProcess.Retrieve
import LMCache.MultiProcess.SessionHashes
import LMCache.Nixl.StoredBytes
import LMCache.P2P.RemoteWrites
import LMCache.PD.AnnouncedTransfers
import LMCache.RawBlock.Device
import LMCache.RawBlock.Reads
import LMCache.RawBlock.Recovery
import LMCache.SharedDisk.References
import LMCache.VLLM.ResumedRequests
import LMCache.VLLM.StableAnswers
