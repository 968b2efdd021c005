import Munix.Lib.Memory
import Munix.Lib.Ownership
import Munix.Lib.LinkRing
import Munix.Lib.LineEditor
import Munix.Lib.PrefixMatch
import Munix.Lib.RoundRobin
import Munix.Lib.SlotScan
import Munix.Lib.Lock
import Munix.Lib.X86
import Munix.Lib.WordStack
import Munix.Lib.X86Gates
import Munix.Lib.X86Machine
import Munix.Lib.Pic8259
import Munix.Core.Macros
import Munix.Core.List
import Munix.Core.ListSeq
import Munix.Core.Sprintf
import Munix.Core.Itoa
import Munix.Core.SprintfLaw
import Munix.Core.SprintfInt
import Munix.Core.StrPrecision
import Munix.Core.Stdlib
import Munix.Core.SprintfParse
import Munix.Core.FormatGrammar
import Munix.Core.SprintfChain
import Munix.Core.TwoPass
import Munix.Core.Strings
import Munix.Core.Memmove
import Munix.Drivers.Vfs
import Munix.Drivers.Chrdev
import Munix.Drivers.Cpiofs
import Munix.Drivers.CpioArchive
import Munix.Drivers.CpioRead
import Munix.Drivers.CpioLookup
import Munix.Drivers.Mount
import Munix.Drivers.CpioDir
import Munix.Drivers.CpioWalk
import Munix.Drivers.CpioHeader
import Munix.Drivers.CpioBounds
import Munix.Drivers.CpioPread
import Munix.Drivers.CpioSlots
import Munix.Drivers.MountOrder
import Munix.Drivers.PathResolve
import Munix.Drivers.Log
import Munix.Drivers.Vprintf
import Munix.Drivers.Tty
import Munix.Drivers.TtyLine
import Munix.Drivers.SerialWrite
import Munix.Drivers.Intctl
import Munix.Kernel.Interrupt
import Munix.Kernel.SyscallDispatch
import Munix.Kernel.ThreadSwitch
import Munix.Kernel.Pagemap
import Munix.Kernel.PagemapInv
import Munix.Kernel.PagemapMap
import Munix.Kernel.PagemapUnmap
import Munix.Kernel.PagemapRuns
import Munix.Kernel.PagemapClose
import Munix.Kernel.PagemapFail
import Munix.Kernel.Scheduler
import Munix.Kernel.SchedulerInv
import Munix.Kernel.ThreadRuns
import Munix.Kernel.Dispatch
import Munix.Kernel.JoinRuns
import Munix.Kernel.Elf
import Munix.Kernel.Process
import Munix.Kernel.Kshell
import Munix.Kernel.Cmdline
import Munix.Kernel.Loader
import Munix.Kernel.LoaderRuns
import Munix.Kernel.KshellRuns
import Munix.Kernel.LoadPool
import Munix.Kernel.ProcessArgs
import Munix.Kernel.System
import Munix.Kernel.SystemInv
import Munix.Kernel.SystemRuns
import Munix.Kernel.SegmentStores
import Munix.Kernel.KernelStores
import Munix.Kernel.LoadEnds
import Munix.Kernel.LongPaths
import Munix.Kernel.TaskSave
import Munix.Kernel.Gates
import Munix.Kernel.UserEntry
import Munix.Kernel.SyscallEntry
import Munix.Kernel.ElfImage
import Munix.Kernel.LoadJunk
import Munix.Kernel.Initrd
import Munix.User.Syscall
import Munix.User.ThreadStart
import Munix.User.Threads
import Munix.User.ThreadsRuns
import Munix.User.Mutex
import Munix.User.Datarace
import Munix.User.Philosophers
import Munix.User.ProgramPages
import Munix.User.Stdio
