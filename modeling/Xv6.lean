import Xv6.Lib.Allocation
import Xv6.Lib.Marking
import Xv6.Lib.Faulting
import Xv6.Lib.Ledger
import Xv6.Lib.Scan
import Xv6.Lib.Selection
import Xv6.Lib.Transition
import Xv6.Lib.Typestate
import Xv6.Lib.Writes
import Xv6.Proc.Table
import Xv6.Proc.Machine
import Xv6.Proc.Step
import Xv6.Proc.Dispatch
import Xv6.Proc.Fork
import Xv6.Proc.Pages
import Xv6.Proc.Lifecycle
import Xv6.Proc.Pids
import Xv6.Proc.Ownership
import Xv6.Proc.Family
import Xv6.Proc.Reaping
import Xv6.Proc.Waiting
import Xv6.Proc.Scheduler
import Xv6.Proc.PriorityScheduler
import Xv6.Proc.FcfsScheduler
import Xv6.Proc.Draining
import Xv6.Proc.Accounting
import Xv6.Proc.Children
import Xv6.Proc.Kill
import Xv6.Proc.SlotReuse
import Xv6.Fs.Log
import Xv6.Fs.Recovery
import Xv6.Fs.GroupCommit
import Xv6.Fs.Admission
import Xv6.Switch.Machine
import Xv6.Switch.Code
import Xv6.Switch.Discipline
import Xv6.Switch.Invariant
import Xv6.Switch.Protocol
import Xv6.Switch.LostKill
import Xv6.Vm.Code
import Xv6.Vm.Space
import Xv6.Vm.Rules
import Xv6.Vm.Build
import Xv6.Vm.Grow
import Xv6.Vm.Sample
import Xv6.Syscall.Handlers
import Xv6.Syscall.Faults
import Xv6.Syscall.Confined
import Xv6.Vm.Growproc
import Xv6.Vm.Fork
import Xv6.Vm.Exec
import Xv6.Vm.ExecClean
import Xv6.Vm.UserMemory
import Xv6.Vm.Copyout
import Xv6.Vm.Image
import Xv6.Files.Disk
import Xv6.Lib.Slots
import Xv6.Files.Names
import Xv6.Files.Inodes
import Xv6.Files.Blocks
import Xv6.Files.ByteArrays
import Xv6.Files.Directory
import Xv6.Files.DirectoryMap
import Xv6.Files.SharedFile
import Xv6.Files.SharedOffset
import Xv6.Lib.Linked
import Xv6.Bio.Cache
import Xv6.Bio.Lru
import Xv6.Lib.RingBuffer
import Xv6.Pipe.Machine
import Xv6.Pipe.Fifo
import Xv6.Pipe.Wakeups
import Xv6.Lib.References
import Xv6.Ftable.Machine
import Xv6.Ftable.Books
import Xv6.Ftable.Closing
import Xv6.Ftable.Steps
import Xv6.Ftable.Counts
import Xv6.Vm.ExecImage
import Xv6.Vm.ExecStack
import Xv6.Vm.ExecBuilds
import Xv6.Lib.Cyclic
import Xv6.Lib.Fuel
import Xv6.Lib.Tiling
import Xv6.Umalloc.Heap
import Xv6.Umalloc.Runs
import Xv6.Umalloc.Sizes
import Xv6.Sh.Parser
import Xv6.Sh.Grammar
import Xv6.Sh.Loops
import Xv6.Sh.Correct
import Xv6.Console.Input
import Xv6.Console.Machine
import Xv6.Console.Discipline
import Xv6.Ide.Machine
import Xv6.Ide.Queue
import Xv6.Ide.Service
import Xv6.Mkfs.Image
import Xv6.Mkfs.Layout
import Xv6.Mkfs.Append
import Xv6.Mkfs.Contents
import Xv6.Mkfs.Bitmap
import Xv6.Mkfs.Reading
import Xv6.Mkfs.Main
import Xv6.Mkfs.Counters
import Xv6.Mkfs.Images
import Xv6.Lib.Prefix
import Xv6.Grep.Match
import Xv6.Lib.Lines
import Xv6.Grep.Chunks
import Xv6.Vm.Dealloc
import Xv6.Vm.Copyuvm
import Xv6.Sh.Nulterminate
import Xv6.Sh.Redirect
import Xv6.Lib.Runs
import Xv6.Writefile.Code
import Xv6.Writefile.Modes
import Xv6.Lib.Components
import Xv6.Files.Paths
import Xv6.Lib.Traced
import Xv6.Files.Logged
import Xv6.Files.FileWrite
import Xv6.Writefile.Counts
import Xv6.Strings.Memmove
import Xv6.Mp.Table
import Xv6.Lib.Words
import Xv6.Lib.WriteBack
import Xv6.Store.Machine
import Xv6.Store.Steps
import Xv6.Store.Contents
import Xv6.Store.Rules
import Xv6.Store.Sound
import Xv6.Store.Commit
import Xv6.Store.Durable
import Xv6.Lib.Interleaving
import Xv6.Volume.Machine
import Xv6.Volume.Calls
import Xv6.Volume.Books
import Xv6.Volume.Rules
import Xv6.Volume.Local
import Xv6.Volume.Blocks
import Xv6.Volume.Bmap
import Xv6.Volume.Locks
import Xv6.Volume.Contents
import Xv6.Volume.Truncate
import Xv6.Volume.Cache
import Xv6.Volume.Lookup
import Xv6.Volume.Descriptors
import Xv6.Volume.FileIo
import Xv6.Volume.Links
import Xv6.Volume.Syscalls
import Xv6.Volume.Processes
import Xv6.Volume.Sound
import Xv6.Text.Wc
import Xv6.Text.Head
import Xv6.Inodes.Machine
import Xv6.Inodes.Books
import Xv6.Inodes.Pointers
import Xv6.Inodes.Steps
import Xv6.Inodes.Consistency
import Xv6.Inodes.Capacity
import Xv6.Inodes.Walk
