import PgLocalCache.ByteMemory
import PgLocalCache.FreeChain
import PgLocalCache.PrefixParser
import PgLocalCache.RespParser
import PgLocalCache.PrefixCode
import PgLocalCache.KeyCodec
import PgLocalCache.Outcome
import PgLocalCache.CacheIndex
import PgLocalCache.IndexInvariant
import PgLocalCache.CacheArena
import PgLocalCache.ArenaPage
import PgLocalCache.ArenaInvariant
import PgLocalCache.ArenaAlloc
import PgLocalCache.ArenaRelease
import PgLocalCache.ArenaRuns
import PgLocalCache.CacheState
import PgLocalCache.CacheEntries
import PgLocalCache.CacheMarkers
import PgLocalCache.CacheAdmission
import PgLocalCache.CacheOperations
import PgLocalCache.EntryInvariant
import PgLocalCache.EntryRemoval
import PgLocalCache.EntryEviction
import PgLocalCache.EntryBlocks
import PgLocalCache.EvictionProgress
import PgLocalCache.EntryInstall
import PgLocalCache.EntryAdmission
import PgLocalCache.EntryRewrite
import PgLocalCache.EntryStore
import PgLocalCache.EntrySections
import PgLocalCache.EntryReads
import PgLocalCache.MarkerInvariant
import PgLocalCache.MarkerTable
import PgLocalCache.MarkerReserve
import PgLocalCache.PartitionModel
import PgLocalCache.PartitionInvariant
import PgLocalCache.PartitionLimits
import PgLocalCache.PartitionTables
import PgLocalCache.PartitionMap
import PgLocalCache.MarkerExclusion
import PgLocalCache.SingleFlight
import PgLocalCache.AdmissionProgress
import PgLocalCache.RespWriter
import PgLocalCache.RowPayload
import PgLocalCache.Utf8
import PgLocalCache.KeyScan
import PgLocalCache.WireKey
import PgLocalCache.WorkerBackend
import PgLocalCache.MgetCommand
import PgLocalCache.MgetResults
import PgLocalCache.MgetSweeps
import PgLocalCache.MgetAssembly
import PgLocalCache.MgetReply
import PgLocalCache.FastPath
import PgLocalCache.FastAgreement
import PgLocalCache.ClientProtocol
import PgLocalCache.ClientLog
import PgLocalCache.CommandDispatch
import PgLocalCache.ClientTurn
import PgLocalCache.ClientStream
import PgLocalCache.ClientRuns
import PgLocalCache.ClientLockstep
import PgLocalCache.ClientAuth
import PgLocalCache.ArenaReferences
import PgLocalCache.IndexRuns
import PgLocalCache.RespGrammar
import PgLocalCache.RespMachine
import PgLocalCache.RespReplies
import PgLocalCache.KeyScanExact
import PgLocalCache.BoundedSelection
import PgLocalCache.EvictionChoice
import PgLocalCache.EventLog
import PgLocalCache.LockedSections
import PgLocalCache.CountedSections
import PgLocalCache.SectionCounts
import PgLocalCache.DescriptorCounter
import PgLocalCache.LeaseLedger
import PgLocalCache.WorkerCache
import PgLocalCache.MgetLeases
import PgLocalCache.LinkedQueue
import PgLocalCache.DeferredQueue
import PgLocalCache.MgetCalls
import PgLocalCache.DeskWorld
import PgLocalCache.AttemptLog
import PgLocalCache.WorkerQueue
import PgLocalCache.DeferredRuns
import PgLocalCache.Utf8Scan
import PgLocalCache.RowFingerprint
import PgLocalCache.IndexRebuild
import PgLocalCache.SerialLayout
import PgLocalCache.ShmemLayout
import PgLocalCache.LayoutExact
import PgLocalCache.ShmemRegions
import PgLocalCache.StartupLayout
import PgLocalCache.DirtyOrder
import PgLocalCache.SnapshotBracket
