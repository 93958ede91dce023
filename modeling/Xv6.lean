import Xv6.Scheduler.RoundRobin
import Xv6.Log.CrashAtomicity
import Xv6.Log.Admission
import Xv6.Log.Transaction
import Xv6.Sem.LifeCycle
import Xv6.Kernel.Kill
import Xv6.Kernel.AddressSpace
import Xv6.Kernel.Threads
import Xv6.Kernel.Statistics
import Xv6.Kernel.Timer
import Xv6.Syscall.Stores
import Xv6.Block.Killed
import Xv6.Kernel.Sizes
import Xv6.Fs.Deadlock
import Xv6.Bio.Coherent
import Xv6.Icache.Coherent
import Xv6.Sync.Pipe
import Xv6.Ide.Queue
import Xv6.Console.Discipline
import Xv6.Ftable.References
import Xv6.Interrupt.Discipline
import Xv6.Malloc.Soundness
import Xv6.Shell.Strings
import Xv6.Sync.SleepLock
import Xv6.Syscall.Snapshot
import Xv6.Volume.Reservation
import Xv6.Volume.Boot
import Xv6.Vm.Copyout
import Xv6.Grep.Lines
import Xv6.Syscall.Fetch
import Xv6.Library.Memmove
import Xv6.Library.Numbers
import Xv6.Sync.Guards
import Xv6.Kernel.SysSleep
import Xv6.Head.Output
