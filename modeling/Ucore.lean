import Ucore.Dev.Disk0
import Ucore.Dev.Dtb
import Ucore.Dev.DtbTree
import Ucore.Dev.DtbWalk
import Ucore.Dev.MemoryNode
import Ucore.Dev.Stdin
import Ucore.Dev.StdinFifo
import Ucore.Exec.ArgBlock
import Ucore.Exec.BoundaryPage
import Ucore.Exec.ForkFailure
import Ucore.Exec.GivenPage
import Ucore.Exec.ImageExact
import Ucore.Exec.LoadCleanup
import Ucore.Exec.LoadIcode
import Ucore.Exec.LoadSteps
import Ucore.Exec.SegmentPages
import Ucore.Exec.UserBacked
import Ucore.Fs.ReadOnly
import Ucore.Fs.VolumeLayer
import Ucore.Fs.WrongKind
import Ucore.Lib.BinTree
import Ucore.Lib.Blocks
import Ucore.Lib.Bytes
import Ucore.Lib.Checked
import Ucore.Lib.Cycle
import Ucore.Lib.Ring
import Ucore.Lib.Run
import Ucore.Lib.Sums
import Ucore.Lib.Tiles
import Ucore.Lib.Window
import Ucore.Lib.WordMemory
import Ucore.Mksfs.Allocs
import Ucore.Mksfs.MountCheck
import Ucore.Mksfs.ReadBack
import Ucore.Pmm.BestFit
import Ucore.Pmm.BuddyBlocks
import Ucore.Pmm.BuddyCoalesce
import Ucore.Pmm.BuddyPmm
import Ucore.Pmm.BuddySafe
import Ucore.Pmm.BuddySteps
import Ucore.Pmm.BuddyTree
import Ucore.Pmm.Coalesce
import Ucore.Pmm.DefaultPmm
import Ucore.Pmm.FirstFit
import Ucore.Pmm.FirstFitRuns
import Ucore.Proc.ChildExit
import Ucore.Proc.Family
import Ucore.Proc.FamilyExit
import Ucore.Proc.FamilyTree
import Ucore.Proc.PidHistory
import Ucore.Proc.Proc
import Ucore.Proc.ProcTables
import Ucore.Proc.ReapLog
import Ucore.Proc.Timer
import Ucore.Proc.TimerExact
import Ucore.Sched.RoundRobin
import Ucore.Sched.RoundRobinFair
import Ucore.Sched.RunMembers
import Ucore.Sched.RunQueueSafe
import Ucore.Sched.Sjf
import Ucore.Sched.SjfCalls
import Ucore.Sched.SkewHeap
import Ucore.Sched.SkewHeapLinks
import Ucore.Sched.Stride
import Ucore.Sched.StrideFair
import Ucore.Sched.StrideWindow
import Ucore.Sfs.Bitmap
import Ucore.Sfs.BitmapRuns
import Ucore.Sfs.BlockIo
import Ucore.Sfs.BlockMap
import Ucore.Sfs.BlockMapGrow
import Ucore.Sfs.BlockMapKeep
import Ucore.Sfs.BlockOwners
import Ucore.Sfs.ByteFile
import Ucore.Sfs.CacheSafe
import Ucore.Sfs.Dirent
import Ucore.Sfs.DirtyFlags
import Ucore.Sfs.DiskCopy
import Ucore.Sfs.FileGrow
import Ucore.Sfs.FileIo
import Ucore.Sfs.FileOps
import Ucore.Sfs.FilePanics
import Ucore.Sfs.FreshVolume
import Ucore.Sfs.Getdirentry
import Ucore.Sfs.IoSpec
import Ucore.Sfs.Ownership
import Ucore.Sfs.ReadExact
import Ucore.Sfs.Remount
import Ucore.Sfs.SfsFs
import Ucore.Sfs.SfsInode
import Ucore.Sfs.SfsIo
import Ucore.Sfs.SizeAgreement
import Ucore.Sfs.Untouched
import Ucore.Sfs.Volume
import Ucore.Slob.FreeList
import Ucore.Slob.KmallocEnds
import Ucore.Slob.KmallocGrants
import Ucore.Slob.KmallocRuns
import Ucore.Slob.KmallocSafe
import Ucore.Slob.KmallocSteps
import Ucore.Slob.SlobAlloc
import Ucore.Slob.SlobFree
import Ucore.Slob.SlobSound
import Ucore.Slub.KfreeChecks
import Ucore.Slub.Slub
import Ucore.Slub.SlubCaches
import Ucore.Slub.SlubCounts
import Ucore.Slub.SlubRuns
import Ucore.Slub.SlubSafe
import Ucore.Slub.SlubSteps
import Ucore.Stdio.Printfmt
import Ucore.Stdio.PrintfmtRuns
import Ucore.Stdio.Strtol
import Ucore.Stdio.Vsnprintf
import Ucore.Sync.Dining
import Ucore.Sync.DiningCondvar
import Ucore.Sync.DiningCondvarInv
import Ucore.Sync.DiningSema
import Ucore.Sync.DiningSemaInv
import Ucore.Sync.Monitor
import Ucore.Sync.MonitorInv
import Ucore.Sync.MonitorSafe
import Ucore.Sync.Sem
import Ucore.Sync.SemPool
import Ucore.Sync.SemSafe
import Ucore.Vfs.FileLayer
import Ucore.Vfs.Files
import Ucore.Vfs.Getcwd
import Ucore.Vfs.Holders
import Ucore.Vfs.LayerAnswers
import Ucore.Vfs.LayerData
import Ucore.Vfs.LayerExact
import Ucore.Vfs.LayerHandled
import Ucore.Vfs.LayerHeld
import Ucore.Vfs.LayerOpens
import Ucore.Vfs.LayerTotal
import Ucore.Vfs.Moved
import Ucore.Vfs.Namefile
import Ucore.Vfs.PathTree
import Ucore.Vfs.RefAccount
import Ucore.Vfs.SharedTable
import Ucore.Vfs.SysfileExact
import Ucore.Vfs.SysfileRead
import Ucore.Vfs.Table
import Ucore.Vfs.TableInv
import Ucore.Vfs.TableSafe
import Ucore.Vmm.CopyString
import Ucore.Vmm.ExitMmap
import Ucore.Vmm.ExitRange
import Ucore.Vmm.ForkCopy
import Ucore.Vmm.FrameCounts
import Ucore.Vmm.PageInsert
import Ucore.Vmm.PageMap
import Ucore.Vmm.PageSteps
import Ucore.Vmm.PageTable
import Ucore.Vmm.RangeSpec
import Ucore.Vmm.RangeWalk
import Ucore.Vmm.Shared
import Ucore.Vmm.Space
import Ucore.Vmm.SpaceStep
import Ucore.Vmm.Spaces
import Ucore.Vmm.SpacesInv
import Ucore.Vmm.Teardown
import Ucore.Vmm.VmaList
import Ucore.Vmm.Vmm
import Ucore.Sfs.WriteExact
import Ucore.Vfs.SysfileWrite
import Ucore.Fs.TreeOnDisk
