import Hvos.Sched.Waitpid
import Hvos.Process.KernelHalf
import Hvos.Sched.Console
import Hvos.Syscall.Slices
import Hvos.Process.Munmap
import Hvos.Fs.TarReads
import Hvos.Fs.Ustar
import Hvos.Process.ElfReads
import Hvos.Process.SharedPages
import Hvos.Process.Execute
import Hvos.Process.FreshPages
import Hvos.Memory.PmmInit
import Hvos.Memory.PmmRange
import Hvos.Memory.Rights
import Hvos.Syscall.Descriptors
import Hvos.Memory.HeapAlign
import Hvos.Machine.Timestamps
import Hvos.Sched.Pickers
import Hvos.Sched.YieldCalls
import Hvos.Syscall.Usable
import Hvos.Process.Mmap
import Hvos.Data.ListRuns
import Hvos.Sched.LowestRuntime
import Hvos.Memory.FrameSet
import Hvos.Userland.Shell
import Hvos.Machine.Acpi
import Hvos.Machine.PerCpu
import Hvos.Fs.Split
import Hvos.Fs.Strays
import Hvos.Sync.Frames
import Hvos.Sync.Sections
import Hvos.Machine.SystemCall
import Hvos.Process.FrameBudget
import Hvos.Sched.Sleep
