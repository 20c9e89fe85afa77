import Orfos.Base.Bits
import Orfos.Base.Chain
import Orfos.Base.Guarded
import Orfos.Base.Traced
import Orfos.Base.Words
import Orfos.Lib.HashMap
import Orfos.Lib.HashTable
import Orfos.Lib.HashMapRefinement
import Orfos.Lib.HashMapChains
import Orfos.Lib.HashMapIterator
import Orfos.Fs.State
import Orfos.Fs.Buffer
import Orfos.Fs.View
import Orfos.Fs.Log
import Orfos.Fs.Recovery
import Orfos.Fs.Transaction
import Orfos.Fs.GroupCommit
import Orfos.Fs.SharedCache
import Orfos.Fs.Pins
import Orfos.Fs.Dropping
import Orfos.Fs.Reuse
import Orfos.Fs.Block
import Orfos.Fs.Inode
import Orfos.Fs.Steady
import Orfos.Fs.Tally
import Orfos.Fs.Directory
import Orfos.Fs.Lookup
import Orfos.Fs.Create
import Orfos.Fs.Slots
import Orfos.Fs.InodeSlots
import Orfos.Fs.Bitmap
import Orfos.Sched.Machine
import Orfos.Sched.Code
import Orfos.Sched.Effect
import Orfos.Sched.Invariant
import Orfos.Sched.Exclusion
import Orfos.Sched.Wakeup
import Orfos.Sched.Accounts
import Orfos.Sched.Ledger
import Orfos.Sched.Deadlock
import Orfos.Sched.Presence
import Orfos.Sched.Destroy
import Orfos.Mutex.SleepMutex
import Orfos.Mutex.Nesting
import Orfos.Syscall.Handlers
import Orfos.Syscall.Balance
import Orfos.Process.Family
import Orfos.Base.Ends
import Orfos.Base.Radix
import Orfos.Memory.Page
import Orfos.Memory.New
import Orfos.Memory.PageTable
import Orfos.Memory.Tables
import Orfos.Memory.Mapping
import Orfos.Memory.Translation
import Orfos.Memory.UserMemory
import Orfos.Memory.Spaces
import Orfos.Memory.Process
import Orfos.Memory.Frames
import Orfos.Memory.Copy
import Orfos.Memory.Image
import Orfos.Memory.Invariant
import Orfos.Memory.Fork
import Orfos.Memory.Growth
import Orfos.Base.Ring
import Orfos.Fs.Virtio
import Orfos.Fs.Descriptors
import Orfos.Fs.Requests
import Orfos.Base.Shares
import Orfos.Files.Machine
import Orfos.Files.Accounts
import Orfos.Files.Lifetime
import Orfos.Files.Rights
import Orfos.Files.Modes
import Orfos.Files.Devices
import Orfos.Base.Ranges
import Orfos.Files.Offsets
import Orfos.Console.Machine
import Orfos.Console.Buffer
import Orfos.Console.Stream
import Orfos.Console.Print
import Orfos.Fs.Blank
import Orfos.Fs.SharedBitmap
import Orfos.Disk.MakeDisk
import Orfos.Disk.Mapping
import Orfos.Disk.Append
import Orfos.Disk.Files
import Orfos.Disk.Length
import Orfos.Disk.Short
import Orfos.Disk.SharedSlots
import Orfos.Disk.Populate
import Orfos.Memory.Content
import Orfos.Memory.Loader
import Orfos.Memory.Exec
import Orfos.Memory.Robust
import Orfos.Memory.Executable
import Orfos.Base.Extent
import Orfos.Memory.Transfers
import Orfos.Memory.Strings
import Orfos.Memory.Stack
import Orfos.Syscall.Replace
import Orfos.Fs.Counts
import Orfos.Memory.Atomic
import Orfos.Fs.Paths
import Orfos.Base.Delivers
import Orfos.Fs.Looking
import Orfos.Fs.Copyout
import Orfos.Fs.Reading
import Orfos.Fs.ReadOnly
import Orfos.Fs.FileRead
import Orfos.Fs.Truncate
import Orfos.Fs.Copyin
import Orfos.Fs.Direct
import Orfos.Base.Overwrite
import Orfos.Fs.Contents
import Orfos.Fs.Writing
import Orfos.Fs.Operations
import Orfos.Fs.FileWrite
import Orfos.Base.Simulation
import Orfos.Fs.Service
import Orfos.User.Shell
import Orfos.User.Parsing
import Orfos.User.Command
import Orfos.Base.Owners
import Orfos.Lib.Queue
import Orfos.Base.Countdown
import Orfos.Lib.CString
import Orfos.Lib.Strncmp
import Orfos.Memory.PageHarts
import Orfos.Memory.StoreFault
import Orfos.Sched.ReadyQueue
import Orfos.Fs.Strings
import Orfos.Base.Riscv
import Orfos.Trap.Vectors
import Orfos.Trap.Machine
import Orfos.Trap.Isolation
import Orfos.Trap.Runs
