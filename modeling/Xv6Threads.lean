import Xv6Threads.Core.Runs
import Xv6Threads.Core.Tally
import Xv6Threads.Core.Counting
import Xv6Threads.Core.Ranks
import Xv6Threads.Core.Tokens
import Xv6Threads.Core.Precedence
import Xv6Threads.Core.Redo
import Xv6Threads.Core.Ownership
import Xv6Threads.Core.Ring
import Xv6Threads.Core.Records
import Xv6Threads.Core.Outcome
import Xv6Threads.Core.Allotment
import Xv6Threads.Core.Circle
import Xv6Threads.Core.Links
import Xv6Threads.Core.Program
import Xv6Threads.Core.Lines
import Xv6Threads.Kernel.MpTable
import Xv6Threads.User.Semaphore
import Xv6Threads.User.BoundedBuffer
import Xv6Threads.User.BoundedBufferFifo
import Xv6Threads.User.Bar
import Xv6Threads.User.BarDeadlock
import Xv6Threads.User.Creation
import Xv6Threads.User.Malloc
import Xv6Threads.User.MallocSizes
import Xv6Threads.User.Shell
import Xv6Threads.User.ShellGrammar
import Xv6Threads.User.ShellRun
import Xv6Threads.User.GrepMatch
import Xv6Threads.User.Grep
import Xv6Threads.Kernel.Table
import Xv6Threads.Kernel.Machine
import Xv6Threads.Kernel.Lifecycle
import Xv6Threads.Kernel.Refinement
import Xv6Threads.Kernel.Reaping
import Xv6Threads.Kernel.Deeds
import Xv6Threads.Kernel.Zombies
import Xv6Threads.Kernel.Frames
import Xv6Threads.Kernel.Orphans
import Xv6Threads.Kernel.AddressSpace
import Xv6Threads.Kernel.SleepLocks
import Xv6Threads.Kernel.Files
import Xv6Threads.Kernel.FileRefs
import Xv6Threads.Kernel.Directories
import Xv6Threads.Kernel.JoinSteps
import Xv6Threads.Kernel.Joins
import Xv6Threads.Kernel.Kills
import Xv6Threads.Kernel.Marks
import Xv6Threads.Kernel.Births
import Xv6Threads.Kernel.ReturnValues
import Xv6Threads.Kernel.ThreadIds
import Xv6Threads.Kernel.Blocking
import Xv6Threads.Kernel.KilledAsleep
import Xv6Threads.Kernel.SemaphoreSteps
import Xv6Threads.Kernel.SemaphoreTokens
import Xv6Threads.Kernel.SemaphoreQueue
import Xv6Threads.Kernel.SemaphoreWakeup
import Xv6Threads.Kernel.SemaphoreFifo
import Xv6Threads.Kernel.Pipe
import Xv6Threads.Kernel.PipeWakeup
import Xv6Threads.Kernel.Console
import Xv6Threads.Kernel.SysArgs
import Xv6Threads.Kernel.Waiting
import Xv6Threads.Memory.Vm
import Xv6Threads.Memory.Growproc
import Xv6Threads.Memory.Exec
import Xv6Threads.Memory.Frames
import Xv6Threads.Memory.Ledger
import Xv6Threads.Memory.Dealloc
import Xv6Threads.Memory.Alloc
import Xv6Threads.Memory.Copy
import Xv6Threads.Memory.Extent
import Xv6Threads.Memory.ForkLeak
import Xv6Threads.Disk.Log
import Xv6Threads.Disk.Ide
import Xv6Threads.Fs.Layout
import Xv6Threads.Fs.Blocks
import Xv6Threads.Fs.Owners
import Xv6Threads.Fs.Bmap
import Xv6Threads.Fs.Inodes
import Xv6Threads.Fs.Contents
import Xv6Threads.Fs.Files
import Xv6Threads.Fs.SysRead
import Xv6Threads.Fs.SharedWrites
import Xv6Threads.Fs.FileWrite
import Xv6Threads.Kernel.PipeCall
import Xv6Threads.Fs.Mkfs
import Xv6Threads.Fs.Image
import Xv6Threads.Fs.DataArea
import Xv6Threads.Fs.WellFormed
