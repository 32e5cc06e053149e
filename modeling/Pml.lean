import Pml.Lib.ByteMemory
import Pml.Lib.Scoped
import Pml.Lib.Segments
import Pml.Lib.Assoc
import Pml.Basic
import Pml.Kernel.Heap
import Pml.Kernel.HeapLayout
import Pml.Kernel.HeapAlloc
import Pml.Kernel.HeapFree
import Pml.Kernel.HeapRealloc
import Pml.Kernel.HeapRuns
import Pml.Arch.PageFrames
import Pml.Lib.RadixWalk
import Pml.Arch.PageTables
import Pml.Arch.PageFault
import Pml.Arch.Sharing
import Pml.Arch.CopyOnWrite
import Pml.Arch.Visits
import Pml.Arch.Fork
import Pml.Arch.Isolation
import Pml.Ext2.BlockMap
import Pml.Ext2.BlockIterate
import Pml.Ext2.BlockAlloc
import Pml.Lib.Runs
import Pml.Ext2.Extents
import Pml.Ext2.ExtentTree
import Pml.Ext2.ExtentIterate
import Pml.Ext2.ExtentUpdate
import Pml.Lib.Machine
import Pml.Kernel.Pipe
import Pml.Kernel.FileTable
import Pml.Arch.FrameRuns
import Pml.Arch.Mapping
import Pml.Arch.Permissions
import Pml.Arch.RefCounts
import Pml.Arch.Unmapping
import Pml.Kernel.Mman
import Pml.Kernel.MmapTable
import Pml.Kernel.FileRefs
import Pml.Kernel.FileCounts
import Pml.Kernel.Munmap
import Pml.Kernel.MunmapFrames
import Pml.Kernel.PipeBuffers
import Pml.Kernel.Signals
import Pml.Kernel.SignalDelivery
import Pml.Ext2.Bitmap
import Pml.Ext2.GroupDesc
import Pml.Ext2.AllocStats
import Pml.Ext2.BitmapFile
import Pml.Ext2.BackupGroups
import Pml.Ext2.Checksums
import Pml.Ext2.BitmapRoundTrip
import Pml.Ext2.InodeCache
import Pml.Ext2.InodeCoherence
import Pml.Ext2.Directory
import Pml.Ext2.DirectoryBlocks
import Pml.Ext2.DirectoryWf
import Pml.Ext2.DirectoryMap
import Pml.Kernel.Credentials
import Pml.Vfs.Permissions
import Pml.Vfs.Resolve
import Pml.Vfs.AtCalls
import Pml.Vfs.Owner
import Pml.Vfs.Getdents
import Pml.Lib.Chains
import Pml.Util.Map
import Pml.Util.MapCount
import Pml.Util.MapAlloc
import Pml.Kernel.ProcessTree
import Pml.Kernel.Wait
import Pml.Drivers.Tty
import Pml.Drivers.TtyLines
import Pml.Drivers.Ata
import Pml.Drivers.Devfs
import Pml.Kernel.HeapSizes
import Pml.Kernel.HeapContents
import Pml.Kernel.HeapCoalesce
import Pml.Lib.LevelWalk
import Pml.Arch.Translation
import Pml.Arch.Independence
import Pml.Arch.AddressSpace
import Pml.Arch.HeldFrames
import Pml.Kernel.MapLoops
import Pml.Kernel.Break
import Pml.Arch.UserTables
import Pml.Kernel.MmapAtomic
import Pml.Kernel.Expand
import Pml.Kernel.Msync
import Pml.Ext2.NewBlock
import Pml.Ext2.NewInode
import Pml.Ext2.InodeUpdate
import Pml.Ext2.BitmapErrors
import Pml.Ext2.BlockSet
import Pml.Ext2.PointerTree
import Pml.Ext2.Truncate
import Pml.Ext2.ExtentGoto
import Pml.Lib.BlockTree
import Pml.Ext2.ReadDir
import Pml.Ext2.Attributes
import Pml.Ext2.Symlink
import Pml.Ext2.Unlink
import Pml.Ext2.Rename
import Pml.Kernel.DoWait
import Pml.Kernel.DupFd
import Pml.Kernel.FileAlloc
import Pml.Kernel.PidRuns
import Pml.Ext2.BitSearch
import Pml.Ext2.DirectorySafe
import Pml.Kernel.SendSignal
import Pml.Kernel.WaitSelect
import Pml.Ext2.OpenFs
import Pml.Arch.ThreadLocal
import Pml.Kernel.ForkFail
import Pml.Lib.Blocks
import Pml.Util.SipHash
import Pml.Lib.XorAffine
import Pml.Util.Crc32
import Pml.Util.Sha256
import Pml.Util.StringSearch
import Pml.Kernel.Scheduler
import Pml.Drivers.AtaAccess
import Pml.Drivers.AtaExact
import Pml.Kernel.ElfLoad
import Pml.Kernel.ElfImage
import Pml.Arch.Rtc
import Pml.Kernel.Cmdline
import Pml.Drivers.TtyCursor
import Pml.Util.Strtoul
import Pml.Util.Printf
import Pml.Util.PrintfSafe
import Pml.Util.PrintfNumbers
import Pml.Arch.FaultLock
import Pml.Vfs.Links
import Pml.Lib.Gauge
import Pml.Vfs.References
import Pml.Kernel.CopyString
import Pml.Kernel.ArgArea
import Pml.Util.Lock
import Pml.Kernel.PidLock
import Pml.Util.Strings
