import Blobcache.Lib.Execution
import Blobcache.Lib.Interleaving
import Blobcache.Lib.ForkJoin
import Blobcache.Lib.Paging
import Blobcache.Lib.AdmissionCache
import Blobcache.Lib.Int64
import Blobcache.Lib.Hex
import Blobcache.Lib.Lease
import Blobcache.Lib.FilePath
import Blobcache.Lib.Program
import Blobcache.Lib.RelyGuarantee
import Blobcache.Lib.Keyspace
import Blobcache.Lib.TaggedRecord
import Blobcache.Storage.State
import Blobcache.Storage.Tiers
import Blobcache.Storage.Get
import Blobcache.Storage.Add
import Blobcache.Storage.Read
import Blobcache.Storage.Store
import Blobcache.Storage.System
import Blobcache.Storage.Integrity
import Blobcache.Storage.Truncation
import Blobcache.Storage.Eviction
import Blobcache.Storage.Objects
import Blobcache.Storage.ConcurrentStores
import Blobcache.Storage.SingleWriter
import Blobcache.Storage.DiskUsage
import Blobcache.Storage.EndOfObject
import Blobcache.Storage.Truthful
import Blobcache.Storage.PageSize
import Blobcache.Storage.Paths
import Blobcache.Storage.Prefetcher
import Blobcache.Storage.SequentialReads
import Blobcache.Storage.Producers
import Blobcache.Storage.BufferPool
import Blobcache.Coordinator.StoreLock
import Blobcache.Coordinator.MutualExclusion
import Blobcache.Coordinator.FsNodes
import Blobcache.Coordinator.Remote
import Blobcache.Coordinator.Generations
import Blobcache.Coordinator.NodeStore
import Blobcache.Coordinator.HostIndex
import Blobcache.Coordinator.RegionConfig
import Blobcache.Server.Content
import Blobcache.Server.RoundTrip
import Blobcache.Server.Streaming
import Blobcache.Server.Totality
import Blobcache.Server.StoreFromSource
import Blobcache.Server.S3Clients
import Blobcache.Server.S3Download
import Blobcache.Server.SourceLock
import Blobcache.Server.Prefetching
import Blobcache.Client.Routing
import Blobcache.Client.Stream
import Blobcache.Client.StoreFromSource
import Blobcache.Client.GetContent
import Blobcache.Client.ReadOwnWrites
import Blobcache.Client.Membership
import Blobcache.Client.LockOrder
import Blobcache.Client.Discovery
import Blobcache.Client.LiveHosts
import Blobcache.Client.DeadHosts
import Blobcache.Client.Cluster
import Blobcache.FileSystem.Node
import Blobcache.FileSystem.Tree
import Blobcache.FileSystem.Listing
import Blobcache.FileSystem.Rename
import Blobcache.FileSystem.Orphans
import Blobcache.FileSystem.Read
import Blobcache.FileSystem.Chain
import Blobcache.FileSystem.NodeIds
import Blobcache.FileSystem.Commands
import Blobcache.FileSystem.Concurrent
import Blobcache.FileSystem.MountedRead
