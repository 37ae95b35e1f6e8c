import Coast.Miscellaneous.PoolRuns
import Coast.Miscellaneous.ExcessTracker
import Coast.Mtfoundation.SystemAPI
import Coast.Mtfoundation.Mutex
import Coast.Queueing.QueueCapacity
import Coast.Queueing.QueueDelivery
import Coast.Queueing.QueueWedge
import Coast.Base.DeepCloneGraph
import Coast.Mtfoundation.LeaderFollowerPool
import Coast.Wdbase.SessionUse
import Coast.Wdbase.SessionLookup
import Coast.Mtfoundation.AllocatorRegistry
import Coast.Wdbase.HTTPChunkedOStream
import Coast.Mtfoundation.RwlSafety
import Coast.Base.StringStreamRuns
import Coast.Mtfoundation.WorkerPoolHandOver
import Coast.StdDataAccess.DocumentRoot
import Coast.Base.MmapStreamRuns
import Coast.StdDataAccess.MultiPartMessage
import Coast.Mtfoundation.ObjectList
import Coast.Io.DescriptorStreamRuns
import Coast.Oracle.ConnectionMatching
import Coast.Oracle.ConnectionTimeouts
import Coast.Ldap.LdapSlots
import Coast.AppLog.LogDelivery
import Coast.Wdbase.HierarchyInstaller
import Coast.Wdbase.CacheMap
import Coast.Wdbase.CacheLoaders
import Coast.Base.PathNormalForm
import Coast.Miscellaneous.SetWrapperRuns
import Coast.Wdbase.AliasTerminator
import Coast.Wdbase.SuppressedTags
import Coast.Compress.GzipHdrRoundTrip
import Coast.Compress.ZipCutOff
import Coast.Renderer.TemplateTermination
import Coast.Wdbase.ContextStores
import Coast.Regex.SimplePatterns
import Coast.Regex.BracketItems
import Coast.StdDataAccess.DeltaRewriting
import Coast.StdDataAccess.HeaderLimits
import Coast.Regex.SplitSubst
import Coast.Wdbase.FindNextPage
import Coast.Base.AnyIterators
import Coast.Base.AnySorter
import Coast.Base.StringTokenizer
import Coast.Base.SlotPutting
import Coast.Base.AnyArrayAsserts
import Coast.Base.BinaryBuffer
