import Xv6.Library.Transition
import Xv6.Library.Tally
import Xv6.Library.Outcome
import Xv6.Library.Monitor
import Xv6.Kernel.Boot
import Xv6.Kernel.Progress
import Xv6.Kernel.Growproc
import Xv6.Kernel.Dealloc
import Xv6.Kernel.HeapBound
import Xv6.Kernel.ExecStack
import Xv6.Kernel.ForkFails
import Xv6.Shm.Table
import Xv6.Shm.Attach
import Xv6.Shm.Inherit
import Xv6.Shm.Buffers
import Xv6.Shm.Accounting
import Xv6.Shm.Again
import Xv6.Syscall.SemArgs
import Xv6.Sem.Unpaired
import Xv6.Sem.Wakeup
import Xv6.Sem.ReadersWriters
import Xv6.Proc.Sleep
import Xv6.Proc.Kill
import Xv6.Proc.Sleeplock
import Xv6.Log.Room
import Xv6.Pipe.Pipe
import Xv6.Pipe.Sleepers
import Xv6.Bio.Shortage
import Xv6.Dev.Console
import Xv6.Dev.Ide
import Xv6.Fs.FileRuns
import Xv6.Fs.SharedFile
import Xv6.Fs.Directory
import Xv6.Fs.OpenFiles
import Xv6.Fs.MkfsSpec
import Xv6.Fs.CallsSafe
import Xv6.Fs.OpenFails
import Xv6.Fs.Logged
import Xv6.Fs.MkfsImage
import Xv6.User.Memmove
import Xv6.User.Grep
