import Xv6.Kalloc.Refine
import Xv6.Memmove
import Xv6.Vm.Atomic
import Xv6.Proc.Regrow
import Xv6.Proc.Account
import Xv6.Proc.Stack
import Xv6.Proc.Grant
import Xv6.Proc.Release
import Xv6.Sched.Intr
import Xv6.Sched.Reap
import Xv6.Pipe.Wakeup
import Xv6.Sleeplock
import Xv6.Bio.Coherence
import Xv6.Virtio.Driver
import Xv6.Log.Reserve
import Xv6.Log.Group
import Xv6.Log.Pins
import Xv6.Fs.Logged
import Xv6.Fs.Open
import Xv6.Mkfs.Mount
import Xv6.Mkfs.Bounds
import Xv6.Console.Discipline
import Xv6.Printf.Exact
import Xv6.Vm.Print
import Xv6.Sh.Run
import Xv6.Sh.Terminate
import Xv6.User.Grep
import Xv6.User.Break
