import Cajeta.Xpu.DeferRefinement
import Cajeta.Compile.ObligationReplayGuarantees
import Cajeta.Compile.ArchiveRoundTrip
import Cajeta.Compile.ArchiveIndex
import Cajeta.Compile.ManifestScan
import Cajeta.Compile.CajetaArchive
import Cajeta.Collection.HashMapRefinement
import Cajeta.Collection.HashMapProbe
import Cajeta.Collection.HashMap
import Cajeta.Lib.FinMap
import Cajeta.Trust.CacheInterleavings
import Cajeta.Trust.RevocationRuns
import Cajeta.Trust.Admission
import Cajeta.Lib.Transition
import Cajeta.Lib.EndlessRuns
import Cajeta.Trust.FetchVerification
import Cajeta.Trust.PublisherVerification
import Cajeta.Lib.SortedMap
import Cajeta.Buildtool.Version
import Cajeta.Buildtool.Pick
import Cajeta.Buildtool.Resolver
import Cajeta.Buildtool.ResolverRecords
import Cajeta.Buildtool.ResolverResult
import Cajeta.Buildtool.Catalog
import Cajeta.Buildtool.ResolverOrder
import Cajeta.Buildtool.StaleConstraints
import Cajeta.Buildtool.ResolverGuarantees
import Cajeta.Collection.CacheRefinement
import Cajeta.Collection.RedBlackRefinement
import Cajeta.Collection.BPlusGuarantees
import Cajeta.Xpu.Bvh
import Cajeta.Xpu.BvhBuild
import Cajeta.Xpu.BvhGuarantees
import Cajeta.Dbg.StopCoordinator
import Cajeta.Lib.Ring
import Cajeta.Concurrent.Channel
import Cajeta.Concurrent.Mutex
import Cajeta.Concurrent.AnchorScope
import Cajeta.Concurrent.AnchorScopeGuarantees
import Cajeta.Concurrent.Deque
import Cajeta.Concurrent.CarrierPool
import Cajeta.Memory.DropChain
import Cajeta.Memory.DropChainGuarantees
import Cajeta.Codec.Csv
import Cajeta.Codec.CsvGuarantees
import Cajeta.Concurrent.ScopeGuarantees
import Cajeta.Memory.FrameArena
import Cajeta.Memory.LiveSetGuarantees
import Cajeta.Memory.SessionGuarantees
import Cajeta.Memory.SharedRootsGuarantees
import Cajeta.Memory.ElementTitlesGuarantees
import Cajeta.Lib.Stamped
import Cajeta.Xpu.LaunchCacheGuarantees
import Cajeta.Ownership.OwnedFormals
import Cajeta.Ownership.MoveStateGuarantees
import Cajeta.Compile.Devirtualize
import Cajeta.Transform.GradInliningGuarantees
import Cajeta.Buildtool.VersionOrder
import Cajeta.Buildtool.Repicks
import Cajeta.Buildtool.JsonC
import Cajeta.Net.AsyncReaderGuarantees
import Cajeta.Net.IpAddressPrint
import Cajeta.Net.UriGuarantees
import Cajeta.Net.UriResolve
import Cajeta.Lib.Bytes
import Cajeta.Xpu.LaunchCache
import Cajeta.Ownership.TitleGuarantees
import Cajeta.Lib.DepthFirst
import Cajeta.Buildtool.TaskSchedule
import Cajeta.Buildtool.TaskTermination
import Cajeta.Buildtool.ParallelGroups
import Cajeta.Buildtool.ParallelWrap
import Cajeta.Buildtool.MeltGuarantees
import Cajeta.Buildtool.PropertyGuarantees
import Cajeta.Buildtool.DependencyCycles
import Cajeta.Buildtool.DependencyDepth
import Cajeta.Buildtool.LockfileRoundTrip
import Cajeta.Buildtool.TarZstd
import Cajeta.Collection.LtmPage
import Cajeta.Collection.QuickSort
import Cajeta.Collection.StableSort
import Cajeta.Collection.IndexGraphRuns
import Cajeta.Time.LocalDate
import Cajeta.Time.ZonedViews
import Cajeta.Codec.JsonBlocks
import Cajeta.Codec.JsonLookup
import Cajeta.Codec.JsonNumber
import Cajeta.Codec.BaseTextRoundTrip
import Cajeta.Codec.Utf8
import Cajeta.Runtime.EpochRestore
import Cajeta.Memory.TaggedStringSearch
import Cajeta.Concurrent.AsyncLockGuarantees
import Cajeta.Concurrent.RwLockGuarantees
import Cajeta.Concurrent.Semaphore
import Cajeta.Concurrent.IoWaitGuarantees
import Cajeta.Concurrent.ReadySetGuarantees
import Cajeta.Xpu.AlignmentGuarantees
