import Xv6.Bio.Ide
import Xv6.Bio.Lru
import Xv6.Bio.Sharing
import Xv6.Console.Stream
import Xv6.Fs.Bitmap
import Xv6.Grep.Match
import Xv6.Kernel.Chunks
import Xv6.Log.Journal
import Xv6.Log.Reserve
import Xv6.Mem
import Xv6.Mkfs.Lookup
import Xv6.Mkfs.Region
import Xv6.Mp.Init
import Xv6.Print
import Xv6.Proc.Image
import Xv6.Proc.Kill
import Xv6.Proc.Wait
import Xv6.Shell.Correct
import Xv6.Signal.Handler
import Xv6.Signal.Restore
import Xv6.Sync.PipeWakeup
import Xv6.Sync.Sleep
import Xv6.Sync.Spinlock
import Xv6.Syscall.DataRuns
import Xv6.Syscall.Outcomes
import Xv6.Vm.Fork
import Xv6.Vm.Grow
