import FsKit.MachineIntegers
import FsKit.BitVectorSearch
import FsKit.BlockBitmap
import FsKit.InodeTable
import FsKit.DataStreamBlocks
import FsKit.DataStreamGrowth
import FsKit.DataStreamShape
import FsKit.ResourceOwnership
import FsKit.FileSizeAgreement
import FsKit.FileBlockOwnership
import FsKit.DirectoryOps
import FsKit.FailedCreate
import FsKit.LinkedList
import FsKit.SkipListSet
import FsKit.VnodeLayer
import FsKit.LifecycleProtocol
import FsKit.VnodeTable
import FsKit.BlockCache
import FsKit.CacheHash
import FsKit.SkipListRuns
import FsKit.SkipListWalks
import FsKit.PhysicalTransfers
import FsKit.TemporaryBlocks
import FsKit.ArgumentVector
import FsKit.BitmapRecount
import FsKit.RootfsRenames
import FsKit.HeldDirectories
import FsKit.BitmapWriteBack
import FsKit.DescriptorTable
import FsKit.MakeAndMount
import FsKit.StreamDeletion
import FsKit.DirectoryEntries
import FsKit.DirectoryMap
import FsKit.VnodeCounts
import FsKit.VnodeRuns
import FsKit.FallibleRuns
import FsKit.PathWalk
import FsKit.PathCalls
import FsKit.PathRounds
import FsKit.OpenCalls
import FsKit.MountCalls
import FsKit.FailedMount
import FsKit.SeparatedLists
import FsKit.PathSplitting
import FsKit.VolumeGeometry
import FsKit.InodeRecords
import FsKit.BlockSupply
import FsKit.StreamContents
import FsKit.StreamWriting
import FsKit.RootfsTree
import FsKit.FailedExtension
import FsKit.LockDiscipline
import FsKit.StreamLocks
import FsKit.FileHooks
import FsKit.CurrentInodes
import FsKit.CheckedSearch
import FsKit.RunScan
import FsKit.SearchCoverage
import FsKit.AllocatorModes
import FsKit.DirectoryCursor
import FsKit.NameRemoval
import FsKit.FlushFailures
import FsKit.FlushCompleteness
import FsKit.RetryLoop
import FsKit.FlushTermination
import FsKit.FilePositions
import FsKit.WstatAtomicity
import FsKit.SortedCursor
import FsKit.RootfsListing
import FsKit.CacheStructure
import FsKit.CacheVictims
import FsKit.FlushWrites
import FsKit.FailedMiss
import FsKit.CacheCalls
import FsKit.StoreComposition
import FsKit.CacheStores
import FsKit.MissVictims
import FsKit.MissFilling
import FsKit.CacheRequests
import FsKit.CacheTransfers
import FsKit.CacheBypass
import FsKit.CacheFlushes
import FsKit.CacheUsers
import FsKit.CacheRemoval
import FsKit.StoreViews
import FsKit.CacheRuns
import FsKit.CacheCounts
import FsKit.CacheGuarantees
import FsKit.CacheShutdown
import FsKit.NamedTrees
import FsKit.RootfsPaths
import FsKit.RootfsResolution
import FsKit.RootfsUnmount
