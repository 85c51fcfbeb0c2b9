import Xv6.Console.Locking
import Xv6.Console.Refinement
import Xv6.Dirs.Paths
import Xv6.Disk.Agreement
import Xv6.Fs.Deadlock
import Xv6.Fs.Failures
import Xv6.Fs.References
import Xv6.Fs.SharedWrites
import Xv6.Grep.Lines
import Xv6.Kernel.Bootmain
import Xv6.Kernel.Interrupts
import Xv6.Kernel.Memmove
import Xv6.Kernel.Mp
import Xv6.Kernel.Printint
import Xv6.Kernel.Sleep
import Xv6.Kernel.Syscall
import Xv6.Log.Admission
import Xv6.Log.CrashSafety
import Xv6.Mkfs.Geometry
import Xv6.Mkfs.ReadBack
import Xv6.Pipes.Sleepers
import Xv6.Processes.Delivery
import Xv6.Processes.Handlers
import Xv6.Processes.Kill
import Xv6.Processes.Pids
import Xv6.Processes.Reaping
import Xv6.Processes.Signals
import Xv6.Simulators.Comparison
import Xv6.Simulators.EdfAccounting
import Xv6.Simulators.LotteryCompletion
import Xv6.Simulators.RmsAccounting
import Xv6.Sleeplocks.Waiters
import Xv6.UserHeap.Umalloc
import Xv6.Vm.ExecStack
import Xv6.Vm.Mappages
import Xv6.Vm.Sweep
