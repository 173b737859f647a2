import Gardos.Foundations.Bytes
import Gardos.Foundations.Outcome
import Gardos.Foundations.Search
import Gardos.Foundations.Lists
import Gardos.Foundations.Tree
import Gardos.Kernel.Bitmap
import Gardos.Fs.State
import Gardos.Fs.Inode
import Gardos.Fs.Volume
import Gardos.Fs.Dir
import Gardos.Fs.Cache
import Gardos.Fs.DirEntries
import Gardos.Fs.DirContent
import Gardos.Fs.Remove
import Gardos.Fs.File
import Gardos.Fs.Path
import Gardos.Fs.Components
import Gardos.Fs.Walk
import Gardos.Fs.Calls
import Gardos.Fs.Create
import Gardos.Fs.FileBlocks
import Gardos.Fs.Content
import Gardos.Fs.FileLimits
import Gardos.Fs.FailedWrite
import Gardos.Fs.Ownership
import Gardos.Fs.Insert
import Gardos.Fs.Listing
import Gardos.Fs.Compact
import Gardos.Fs.DeleteEntry
import Gardos.Fs.Release
import Gardos.Fs.Contents
import Gardos.Fs.Represents
import Gardos.Fs.Lookup
import Gardos.Fs.Unlink
import Gardos.Fs.Make
import Gardos.Fs.Descriptors
import Gardos.Fs.Format
import Gardos.Fs.Names
import Gardos.Fs.Runs
import Gardos.Fs.Safety
import Gardos.Fs.Holders
import Gardos.Fs.Writers
import Gardos.Fs.Resolution
import Gardos.Fs.OpenCounts
import Gardos.Fs.Pools
import Gardos.Fs.Cwd
import Gardos.Fs.BitmapSync
import Gardos.Foundations.Ring
import Gardos.Thread.Scheduler
import Gardos.Thread.Queues
import Gardos.Thread.Lock
import Gardos.Device.Ioqueue
import Gardos.Device.Ide
import Gardos.Userprog.Process
import Gardos.Userprog.Family
import Gardos.Userprog.WaitExit
import Gardos.Foundations.Table
import Gardos.Userprog.Files
import Gardos.Shell.PipeCount
import Gardos.Shell.PipeCalls
import Gardos.Fs.FdCalls
import Gardos.Shell.WashPath
import Gardos.Foundations.Linked
import Gardos.Kernel.List
import Gardos.Memory.Heap
import Gardos.Memory.HeapShape
import Gardos.Memory.HeapMalloc
import Gardos.Memory.HeapFree
import Gardos.Memory.HeapRuns
import Gardos.Userprog.ForkHeap
import Gardos.Memory.Paging
import Gardos.Memory.Frames
import Gardos.Memory.FrameRuns
import Gardos.Fs.CreatedNames
import Gardos.Fs.Offsets
import Gardos.Device.Partitions
import Gardos.Device.PartitionScan
import Gardos.Device.Sectors
import Gardos.Kernel.BitmapScan
import Gardos.Fs.FreshVolume
import Gardos.Fs.RefusedOpen
import Gardos.Memory.MallocSizes
import Gardos.Memory.PoolLayout
import Gardos.Memory.FailedPages
import Gardos.Userprog.ForkMemory
import Gardos.Fs.FailedCreate
import Gardos.Fs.Depth
import Gardos.Fs.IoBuf
import Gardos.Foundations.Words
import Gardos.Foundations.Strings
import Gardos.Shell.AbsPath
import Gardos.Shell.CmdParse
import Gardos.Device.Timer
import Gardos.Shell.Readline
import Gardos.Lib.Stdio
import Gardos.Kernel.PutInt
