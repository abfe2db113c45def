import OsnMp2.Lib.Halting
import OsnMp2.Lib.Radix
import OsnMp2.Lib.Ownership
import OsnMp2.Lib.Runs
import OsnMp2.Lib.ArrayQueue
import OsnMp2.Lib.Tracking
import OsnMp2.Lib.History
import OsnMp2.Lib.Assignment
import OsnMp2.Lib.Tally
import OsnMp2.Lib.RedoLog
import OsnMp2.Lib.BufferCache
import OsnMp2.Lib.Crashing
import OsnMp2.Lib.Reads
import OsnMp2.Lib.RingBuffer
import OsnMp2.Lib.Ring
import OsnMp2.Lib.FreeList
import OsnMp2.Lib.Chunks
import OsnMp2.Lib.WaitFor
import OsnMp2.Lib.Simulation
import OsnMp2.Kernel.Memory
import OsnMp2.Kernel.Vm
import OsnMp2.Kernel.Fs
import OsnMp2.Kernel.Proc
import OsnMp2.Kernel.Paging
import OsnMp2.Kernel.Exec
import OsnMp2.Kernel.Process
import OsnMp2.Kernel.Memstat
import OsnMp2.Kernel.Space
import OsnMp2.Kernel.SpaceOps
import OsnMp2.Kernel.UserSpace
import OsnMp2.Kernel.Fault
import OsnMp2.Kernel.TaskInv
import OsnMp2.Kernel.ExecInv
import OsnMp2.Kernel.Reclaim
import OsnMp2.Kernel.ProcessInv
import OsnMp2.Kernel.Steps
import OsnMp2.Kernel.System
import OsnMp2.Kernel.Isolation
import OsnMp2.Kernel.Leak
import OsnMp2.Kernel.ExecFail
import OsnMp2.Kernel.Progress
import OsnMp2.Kernel.Fork
import OsnMp2.Kernel.References
import OsnMp2.Kernel.Shrink
import OsnMp2.Kernel.RefCount
import OsnMp2.Kernel.SmallStep
import OsnMp2.Kernel.Replace
import OsnMp2.Kernel.Halts
import OsnMp2.Kernel.Tables
import OsnMp2.Kernel.Slots
import OsnMp2.Kernel.Resident
import OsnMp2.Kernel.Returns
import OsnMp2.Kernel.Image
import OsnMp2.Kernel.ExecSafe
import OsnMp2.Kernel.Arguments
import OsnMp2.Kernel.UserCopy
import OsnMp2.Kernel.Guard
import OsnMp2.Kernel.Segments
import OsnMp2.Kernel.Permissions
import OsnMp2.Kernel.Fifo
import OsnMp2.Kernel.Disclosure
import OsnMp2.Kernel.Sbrk
import OsnMp2.Kernel.ForkFail
import OsnMp2.Kernel.FaultFail
import OsnMp2.Kernel.SwapMap
import OsnMp2.Kernel.LazyLoad
import OsnMp2.Kernel.Log
import OsnMp2.Kernel.LogAtomic
import OsnMp2.Kernel.LogSpace
import OsnMp2.Kernel.Pipe
import OsnMp2.Kernel.Disk
import OsnMp2.Kernel.Blocks
import OsnMp2.Kernel.Contents
import OsnMp2.Kernel.PageMap
import OsnMp2.Kernel.Buffers
import OsnMp2.Kernel.Sched
import OsnMp2.Kernel.SchedInv
import OsnMp2.Kernel.Interrupts
import OsnMp2.Kernel.Wakeup
import OsnMp2.Kernel.SleepLock
import OsnMp2.Kernel.Routines
import OsnMp2.Kernel.Virtio
import OsnMp2.Kernel.VirtioInv
import OsnMp2.Kernel.Console
import OsnMp2.Kernel.Lifecycle
import OsnMp2.User.Umalloc
import OsnMp2.User.Shell
import OsnMp2.User.ShellParse
import OsnMp2.User.ShellRun
import OsnMp2.User.Grep
import OsnMp2.Bakery.Model
import OsnMp2.Bakery.Requests
import OsnMp2.Bakery.Flow
import OsnMp2.Bakery.Counters
import OsnMp2.Bakery.Shutdown
import OsnMp2.Bakery.Order
import OsnMp2.Bakery.Trace
import OsnMp2.Bakery.Input
import OsnMp2.Shark.Model
import OsnMp2.Shark.Scan
import OsnMp2.Shark.Bounds
import OsnMp2.Shark.Encode
import OsnMp2.Shark.Storage
import OsnMp2.Shark.Agree
import OsnMp2.Shark.Dump
