import Xv6.Lib.Run
import Xv6.Lib.Mem
import Xv6.Lib.Links
import Xv6.Umalloc.Model
import Xv6.Umalloc.FreeList
import Xv6.Umalloc.FreeQueue
import Xv6.Umalloc.Inv
import Xv6.Umalloc.Grow
import Xv6.Umalloc.Fit
import Xv6.Umalloc.Safety
import Xv6.Log.Model
import Xv6.Log.Inv
import Xv6.Log.Steps
import Xv6.Log.Crash
import Xv6.Ulib.Str
import Xv6.Boogsh.Line
import Xv6.Boogsh.History
import Xv6.Boogsh.Replay
import Xv6.Kernel.Fd
import Xv6.Boogsh.Parse
import Xv6.Boogsh.Pipeline
import Xv6.Boogsh.Wiring
import Xv6.Foreground.Model
import Xv6.Foreground.Inv
import Xv6.Foreground.Exit
import Xv6.Foreground.Stuck
import Xv6.Fs.Inode
import Xv6.Fs.Append
import Xv6.Fs.Dir
import Xv6.Fs.Getcwd
import Xv6.Log.Admission
import Xv6.Pipe.Model
import Xv6.Pipe.Fifo
import Xv6.Pipe.Wakeup
import Xv6.Ftable.Model
import Xv6.Ftable.Calls
import Xv6.Proc.Inv
import Xv6.Proc.Steps
import Xv6.Proc.Reap
import Xv6.Proc.Kill
import Xv6.Proc.Count
import Xv6.Lib.Circ
import Xv6.Bio.Model
import Xv6.Bio.Inv
import Xv6.Bio.Steps
import Xv6.Bio.Commit
import Xv6.Bio.Coherent
import Xv6.Vm.Model
import Xv6.Vm.Proc
import Xv6.Lib.Pool
import Xv6.Vm.Space
import Xv6.Vm.Alloc
import Xv6.Vm.Free
import Xv6.Vm.Load
import Xv6.Vm.Inv
import Xv6.Vm.Isolation
import Xv6.Umalloc.Policy
import Xv6.Umalloc.Align
import Xv6.Umalloc.Intact
import Xv6.Umalloc.BlockList
import Xv6.Umalloc.Reuse
import Xv6.Boogsh.Nesting
import Xv6.Boogsh.Journal
import Xv6.Boogsh.Script
import Xv6.Boogsh.Window
import Xv6.Ftable.Logs
import Xv6.Kmem.Accounts
import Xv6.Kmem.Failure
import Xv6.Itable.Model
import Xv6.Lib.Ancestry
import Xv6.Lib.Ensures
import Xv6.Itable.Shape
import Xv6.Itable.Held
import Xv6.Itable.Paths
import Xv6.Itable.Create
import Xv6.Itable.Remove
import Xv6.Itable.Reach
import Xv6.Boogsh.Lookup
import Xv6.Boogsh.Redirect
import Xv6.Boogsh.Output
import Xv6.Boogsh.Status
import Xv6.Umalloc.Frame
import Xv6.Umalloc.OutOfMemory
import Xv6.Boogsh.Build
import Xv6.Lib.Runs
import Xv6.Boogsh.Vectors
import Xv6.Boogsh.Access
import Xv6.Ulib.Getline
import Xv6.Ulib.Stream
import Xv6.Ulib.Capacity
import Xv6.Catlines.Reader
import Xv6.Catlines.Agree
import Xv6.Itable.Balance
import Xv6.Ulib.Tokens
import Xv6.Boogsh.Search
import Xv6.Boogsh.Clock
import Xv6.Boogsh.Stores
import Xv6.Boogsh.Endings
import Xv6.Proc.Family
import Xv6.Boogsh.Jobs
import Xv6.Boogsh.Waits
import Xv6.Lib.Loop
import Xv6.Fs.Climb
import Xv6.Lib.Cells
import Xv6.Fs.SysGetcwd
import Xv6.Fs.Honest
import Xv6.Exec.Model
import Xv6.Exec.Script
import Xv6.Lib.Depth
import Xv6.Exec.Nesting
import Xv6.Exec.Clean
import Xv6.Lib.Bitmap
import Xv6.Blocks.Model
import Xv6.Blocks.Owned
import Xv6.Blocks.Bmap
import Xv6.Blocks.View
import Xv6.Blocks.Write
import Xv6.Blocks.Content
import Xv6.Blocks.Transaction
import Xv6.Blocks.Free
import Xv6.Blocks.Runs
import Xv6.Blocks.Later
import Xv6.Blocks.Short
import Xv6.Lib.SlotMap
import Xv6.Fs.Directory
import Xv6.Fs.DirectoryMap
import Xv6.Fs.Components
import Xv6.Lib.Paging
import Xv6.Vm.Copy
import Xv6.Vm.Words
import Xv6.Vm.ReadOnly
import Xv6.Pipe.Reading
import Xv6.Console.Input
import Xv6.Lib.Occurs
import Xv6.Fnr.Replace
import Xv6.Strace.Return
import Xv6.Lib.Tally
import Xv6.Nlink.Exact
import Xv6.Nlink.Counts
import Xv6.Nlink.Leak
import Xv6.Lib.Locks
import Xv6.Sched.Model
import Xv6.Sched.Inv
import Xv6.Sched.Steps
import Xv6.Sched.Go
import Xv6.Sched.Safety
import Xv6.Sched.Wakeup
import Xv6.Sched.Trap
import Xv6.Virtio.Model
import Xv6.Virtio.Inv
import Xv6.Virtio.Steps
import Xv6.Virtio.Refine
import Xv6.Virtio.Descriptors
import Xv6.Grep.Match
import Xv6.Grep.Lines
import Xv6.Sh.Model
import Xv6.Sh.Tokens
import Xv6.Sh.Grammar
import Xv6.Sh.Parse
import Xv6.Sh.Words
import Xv6.Sh.Accepts
import Xv6.Sh.Print
import Xv6.Sh.Run
import Xv6.Lib.Argv
import Xv6.Exec.Args
import Xv6.Exec.Stack
import Xv6.Lib.Merge
import Xv6.Uart.Model
import Xv6.Uart.Output
