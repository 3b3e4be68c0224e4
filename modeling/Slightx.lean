import Slightx.Mem.PmmLoad
import Slightx.Mem.PmmRuns
import Slightx.Lib.Radix
import Slightx.Mem.Vmm
import Slightx.Lib.Bits
import Slightx.Mem.VmmTranslate
import Slightx.Mem.VmmTree
import Slightx.Mem.VmmWay
import Slightx.Mem.VmmMap
import Slightx.Mem.VmmPerms
import Slightx.Mem.KernelHalf
import Slightx.Lib.Chain
import Slightx.Proc.Capabilities
import Slightx.Proc.CapTable
import Slightx.Proc.CapMap
import Slightx.Proc.CapGenerations
import Slightx.Lib.Counted
import Slightx.Proc.CapLife
import Slightx.Proc.CapNeutral
import Slightx.Lib.DList
import Slightx.Proc.Scheduler
import Slightx.Proc.SchedInv
import Slightx.Proc.SchedSteps
import Slightx.Proc.SchedRuns
import Slightx.Mem.VmmCost
import Slightx.Mem.UserHalf
import Slightx.Proc.TaskMmap
import Slightx.Proc.TaskPages
import Slightx.Proc.TaskInv
import Slightx.Proc.TaskRuns
import Slightx.Lib.Machine
import Slightx.Sync.Waitqueue
import Slightx.Sync.Mutex
import Slightx.Sync.Semaphore
import Slightx.Mem.Shootdown
import Slightx.Proc.FrameReuse
import Slightx.Proc.TaskInit
import Slightx.Proc.Lookup
import Slightx.Lib.LockCode
import Slightx.Proc.TickLocks
import Slightx.Proc.Join
import Slightx.Proc.Runqueue
import Slightx.Proc.CapGrow
import Slightx.Klibc.Bytes
import Slightx.Mem.Heap
import Slightx.Mem.HeapRuns
import Slightx.Lib.FirstFit
import Slightx.Mem.HeapPages
import Slightx.Lib.Components
import Slightx.Vfs.Path
import Slightx.Mem.VmmDestroy
import Slightx.Vfs.PathLimit
import Slightx.Klibc.Timer
import Slightx.Proc.Sleeperlist
import Slightx.Klibc.StrSplit
import Slightx.Klibc.StrFormat
import Slightx.Klibc.Arena
import Slightx.Proc.StartupLayout
import Slightx.Ulibc.Scratch
import Slightx.Boot.Acpi
import Slightx.Boot.Madt
import Slightx.Proc.SpawnChecks
import Slightx.Proc.StartupPages
import Slightx.Mem.CloneSides
import Slightx.Lib.X86
import Slightx.Proc.TaskSwitch
import Slightx.Proc.TaskStart
import Slightx.Proc.SyscallEntry
import Slightx.Boot.Isr
import Slightx.Lib.Shelves
import Slightx.Lib.Tiling
import Slightx.Mem.Liballoc
import Slightx.Mem.LiballocInv
import Slightx.Mem.LiballocCalls
import Slightx.Mem.LiballocRuns
import Slightx.Mem.LiballocCopies
