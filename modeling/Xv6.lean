import Xv6.Proc.Status
import Xv6.Proc.Waitall
import Xv6.Proc.Kills
import Xv6.Proc.Deadlock
import Xv6.Log.Full
import Xv6.Proc.Cpus
import Xv6.Proc.Locking
import Xv6.Proc.Pids
import Xv6.Proc.Tree
import Xv6.Proc.Exitmsg
import Xv6.Proc.Forkn
import Xv6.Conc.Solo
import Xv6.Proc.Paths
import Xv6.Proc.Stores
import Xv6.Vm.Refine
import Xv6.Vm.Free
import Xv6.Vm.ExecClean
import Xv6.Pool.Shares
import Xv6.Opens.References
import Xv6.Pipe.Asleep
import Xv6.Pipe.Copy
import Xv6.Virtio.Requests
import Xv6.Bio.Crowded
import Xv6.Inode.Reuse
import Xv6.Shell.Redirs
import Xv6.Umalloc.Blocks
import Xv6.Vm.Grow
import Xv6.Vm.ExecArgs
import Xv6.Log.Sleepers
import Xv6.Fs.Ownership
import Xv6.Fs.Faults
import Xv6.Grep.Lines
import Xv6.Console.Reads
import Xv6.Sleeplock.Exclusive
import Xv6.Spinlock.Follows
import Xv6.Uart.Calls
import Xv6.Jobs.Pipes
import Xv6.Asm.Switch
import Xv6.Mkfs.Reads
