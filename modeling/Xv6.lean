import Xv6.Log.Crash
import Xv6.Log.Buffers
import Xv6.Fs.References
import Xv6.Fs.Bracket
import Xv6.Fs.Deadlock
import Xv6.Fs.Path
import Xv6.Fs.Seek
import Xv6.Pipe
import Xv6.Sleeplock
import Xv6.Console
import Xv6.Umalloc.Request
import Xv6.Sh.Run
import Xv6.Sh.Argv
import Xv6.Fs.SharedFile
import Xv6.Fs.DirMap
import Xv6.Ide
import Xv6.Files.Lifetime
import Xv6.Files.Tables
import Xv6.ProcTree
import Xv6.Mkfs.Boot
import Xv6.Vm.Resize
import Xv6.Vm.Copy
import Xv6.Vm.Program
import Xv6.Vm.Syscall
import Xv6.Grep
import Xv6.Ulib
import Xv6.Mp
