import Xv6.Lib.Bytes
import Xv6.Lib.Writes
import Xv6.Lib.Trace
import Xv6.Lib.Ring
import Xv6.Lib.Prog
import Xv6.Disk
import Xv6.Log.Commit
import Xv6.Log.Group
import Xv6.Log.Reserve
import Xv6.Bio.Cache
import Xv6.Bio.Usage
import Xv6.Bio.System
import Xv6.Bio.Coherence
import Xv6.Bio.Nodes
import Xv6.Fs.Kernel
import Xv6.Fs.Syscall
import Xv6.Fs.Block
import Xv6.Fs.Table
import Xv6.Fs.Refine
import Xv6.Fs.Release
import Xv6.Fs.Shared
import Xv6.Fs.Sections
import Xv6.Fs.Bitmap
import Xv6.Pipe.System
import Xv6.File.Refs
import Xv6.Proc.Kill
import Xv6.Vm.System
import Xv6.Vm.Life
import Xv6.Vm.Args
import Xv6.Vm.Stack
import Xv6.Ide.Refine
import Xv6.Ide.Pair
import Xv6.Console.Delivery
import Xv6.Malloc.System
import Xv6.Mmap.Place
import Xv6.Mmap.Munmap
import Xv6.Proc.Fair
import Xv6.Grep.Lines
import Xv6.Clock.Date
import Xv6.Bio.Raw
import Xv6.File.Offset
import Xv6.Fs.Df
import Xv6.Malloc.Request
import Xv6.Mem.Move
import Xv6.Boot.Mp
import Xv6.Bio.Recent
import Xv6.Vm.Mappages
import Xv6.Lock.Sleep
import Xv6.Lock.Interrupt
