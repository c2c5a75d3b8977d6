import Vexfs.Bytes.LittleEndian
import Vexfs.Storage.Image
import Vexfs.Storage.Redo
import Vexfs.Storage.Layout
import Vexfs.Fs.Disk
import Vexfs.Fs.Journal
import Vexfs.Fs.FreeList
import Vexfs.Fs.InodeTable
import Vexfs.Fs.DiskManager
import Vexfs.Fs.Allocation
import Vexfs.Fs.ImageBounds
import Vexfs.Fs.Recovery
import Vexfs.Fs.Transaction
import Vexfs.Fs.Atomicity
import Vexfs.Fs.JournalRun
import Vexfs.Fs.Crash
import Vexfs.Fs.Reopen
import Vexfs.Fs.Capacity
import Vexfs.Collections.Vec
import Vexfs.Collections.SortedMap
import Vexfs.Fs.BTree
import Vexfs.Fs.BTreeMap
import Vexfs.Fs.BTreeShape
import Vexfs.Collections.Keys
import Vexfs.Collections.OrderedSet
import Vexfs.Cache.QueueOrder
import Vexfs.Cache.ArcCache
import Vexfs.Cache.CacheRun
import Vexfs.Cache.Ghosts
import Vexfs.Fs.Slots
import Vexfs.Fs.Metadata
import Vexfs.Fs.Interrupted
import Vexfs.Storage.Gaps
import Vexfs.Fs.Conservation
import Vexfs.Fs.Rebuild
import Vexfs.Fs.Formatted
import Vexfs.Fs.Fsck
import Vexfs.Fs.RangeScan
import Vexfs.Collections.FiniteMap
import Vexfs.Cache.FileCache
import Vexfs.Fs.Compress
import Vexfs.Fs.WriteBuffer
import Vexfs.Fs.SnapshotManager
import Vexfs.Fs.SnapshotRuns
import Vexfs.Fs.Effects
import Vexfs.Fs.InodeSlots
import Vexfs.Fs.FreeSpace
import Vexfs.Fs.Remount
import Vexfs.Fs.Tag
import Vexfs.Fuse.VexFS
import Vexfs.Fuse.Session
import Vexfs.Fuse.DiskCall
import Vexfs.Fuse.Mounted
import Vexfs.Fuse.Roomy
import Vexfs.Fuse.Namespace
import Vexfs.Fuse.Names
import Vexfs.Fuse.Readdir
import Vexfs.Fuse.Verdict
import Vexfs.Fuse.Errors
import Vexfs.Fuse.History
import Vexfs.Fuse.SnapshotSlots
import Vexfs.Fuse.Runs
import Vexfs.Fuse.Pieces
import Vexfs.Fuse.Persisting
import Vexfs.Fuse.OwnedSpace
import Vexfs.Fuse.SlotOwners
import Vexfs.Fuse.StoredSize
import Vexfs.Fuse.Evictions
import Vexfs.Fuse.FailedWrites
import Vexfs.Fs.InodeRuns
import Vexfs.Fuse.SnapRestore
import Vexfs.Ai.Markov
import Vexfs.Bytes.Utf8
import Vexfs.Bytes.Reader
import Vexfs.Ai.Persist
import Vexfs.Ai.Memory
import Vexfs.Ai.MemoryBytes
import Vexfs.Ai.Neural
import Vexfs.Collections.Runs
import Vexfs.Collections.UnionFind
import Vexfs.Ai.CoAccess
import Vexfs.Ai.Trend
import Vexfs.Ai.Streak
import Vexfs.Ai.Focus
import Vexfs.Ai.Workspace
import Vexfs.Ai.EndSession
import Vexfs.Collections.Tally
import Vexfs.Ai.Search
import Vexfs.Ai.Ranking
import Vexfs.Collections.Parts
import Vexfs.Bin.Find
import Vexfs.Collections.Cycles
import Vexfs.Bin.Tree
import Vexfs.Bin.UrlDecode
import Vexfs.Bytes.Decimal
import Vexfs.Bytes.Truncation
import Vexfs.Collections.Walk
import Vexfs.Bin.Daemon
import Vexfs.Bin.SaveRequest
import Vexfs.Bin.Telemetry
import Vexfs.Fuse.StoredExtents
import Vexfs.Fuse.Contents
import Vexfs.Ai.Engine
import Vexfs.Bin.SnapGc
import Vexfs.Fs.Restart
import Vexfs.Bin.SnapListing
import Vexfs.Fuse.NameTree
import Vexfs.Fuse.SlotContents
import Vexfs.Fuse.TreeOnDisk
