import EasyXv6.Lib.Comp
import EasyXv6.Lib.Bytes
import EasyXv6.Lib.Writes
import EasyXv6.Lib.Cooldown
import EasyXv6.Lib.Radix
import EasyXv6.Lib.Budget
import EasyXv6.Lib.Trace
import EasyXv6.Lib.Cstr
import EasyXv6.Lib.Ring
import EasyXv6.Lib.Dll
import EasyXv6.Lib.DirTree
import EasyXv6.Lib.SlotMap
import EasyXv6.Lib.Recency
import EasyXv6.Lib.Numeral
import EasyXv6.Lib.Rv64
import EasyXv6.Fs.Block
import EasyXv6.Fs.Bio
import EasyXv6.Fs.Bcache
import EasyXv6.Fs.Transparent
import EasyXv6.Fs.Eviction
import EasyXv6.Fs.Refined
import EasyXv6.Fs.CacheView
import EasyXv6.Fs.Log
import EasyXv6.Fs.Admission
import EasyXv6.Fs.LogView
import EasyXv6.Fs.Commit
import EasyXv6.Fs.Recovery
import EasyXv6.Fs.Transaction
import EasyXv6.Fs.Crash
import EasyXv6.Mem.Memmove
import EasyXv6.Mem.Pmem
import EasyXv6.Mem.Vmem
import EasyXv6.Mem.Table
import EasyXv6.Mem.Space
import EasyXv6.Mem.Uvm
import EasyXv6.Mem.Room
import EasyXv6.Mem.Heap
import EasyXv6.Mem.Copyout
import EasyXv6.Mem.FlatMap
import EasyXv6.Mem.UserMem
import EasyXv6.Mem.UserCopy
import EasyXv6.Proc.Table
import EasyXv6.Proc.Scheduler
import EasyXv6.Proc.Aging
import EasyXv6.Proc.Machine
import EasyXv6.Proc.ForkWindow
import EasyXv6.Proc.Wakeup
import EasyXv6.Proc.Lifecycle
import EasyXv6.Proc.Pages
import EasyXv6.Proc.Fork
import EasyXv6.Proc.Reap
import EasyXv6.Proc.Boot
import EasyXv6.Proc.Runs
import EasyXv6.Proc.Start
import EasyXv6.Proc.Conserve
import EasyXv6.Proc.Brk
import EasyXv6.Proc.HeapPages
import EasyXv6.Proc.Fidelity
import EasyXv6.Proc.Slots
import EasyXv6.Proc.Kill
import EasyXv6.Proc.Status
import EasyXv6.Proc.RoundRobin
import EasyXv6.Proc.Priority
import EasyXv6.Proc.Timed
import EasyXv6.Proc.HighPages
import EasyXv6.Proc.Apart
import EasyXv6.Sync.Spinlock
import EasyXv6.Sync.Switch
import EasyXv6.Sync.Sleeplock
import EasyXv6.Sync.SleepSafe
import EasyXv6.Trap.Mmu
import EasyXv6.Trap.Trampoline
import EasyXv6.Trap.System
import EasyXv6.Trap.Entry
import EasyXv6.Trap.Contexts
import EasyXv6.Trap.Isolation
import EasyXv6.Trap.Killed
import EasyXv6.Trap.Threads
import EasyXv6.Trap.Vectors
import EasyXv6.Lib.Sat
import EasyXv6.Fs.Dinode
import EasyXv6.Fs.Inode
import EasyXv6.Fs.Dir
import EasyXv6.Fs.File
import EasyXv6.Fs.Names
import EasyXv6.Fs.Held
import EasyXv6.Fs.Image
import EasyXv6.Fs.Formatted
import EasyXv6.Fs.Nodes
import EasyXv6.Fs.Layout
import EasyXv6.Fs.Icache
import EasyXv6.Fs.Blocks
import EasyXv6.Fs.Bmap
import EasyXv6.Fs.Read
import EasyXv6.Fs.Write
import EasyXv6.Fs.Trunc
import EasyXv6.Fs.Refs
import EasyXv6.Fs.Slots
import EasyXv6.Fs.Entries
import EasyXv6.Fs.Tree
import EasyXv6.Fs.Walk
import EasyXv6.Fs.Create
import EasyXv6.Fs.Calls
import EasyXv6.Fs.Silent
import EasyXv6.Fs.Between
import EasyXv6.Fs.UserData
import EasyXv6.Fs.Observed
import EasyXv6.Fs.Recovered
import EasyXv6.Fs.Linked
import EasyXv6.Fs.Remount
import EasyXv6.Fs.FsInit
import EasyXv6.Fs.Format
import EasyXv6.Fs.Formatting
import EasyXv6.Fs.Paths
import EasyXv6.Fs.DirMap
import EasyXv6.Sys.Call
import EasyXv6.Sys.Run
import EasyXv6.Sys.PathFetch
import EasyXv6.Sys.OpenFiles
import EasyXv6.Sys.Descriptors
import EasyXv6.Sys.Print
import EasyXv6.Sys.Numbers
import EasyXv6.Sys.Read
import EasyXv6.Sys.FsState
import EasyXv6.Sys.FileCalls
import EasyXv6.Sys.PathCalls
import EasyXv6.Sys.Kept
import EasyXv6.Sys.Failing
import EasyXv6.Sys.InodeRefs
import EasyXv6.Sys.Ownership
import EasyXv6.Sys.Integrity
import EasyXv6.Sys.Reading
import EasyXv6.Sys.Links
import EasyXv6.Sys.Crashes
import EasyXv6.Sys.Transactions
import EasyXv6.Sys.Lifetime
import EasyXv6.Sys.Appends
import EasyXv6.Sys.Contents
import EasyXv6.Sys.Prefixes
import EasyXv6.Dev.Virtio
import EasyXv6.Dev.Descriptors
import EasyXv6.Dev.Requests
import EasyXv6.Dev.Protocol
