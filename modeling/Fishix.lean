import Fishix.Common.Word
import Fishix.Common.ByteMemory
import Fishix.Common.StackMemory
import Fishix.Common.Outcome
import Fishix.Common.Radix
import Fishix.Common.RadixMemory
import Fishix.Mem.Basic
import Fishix.Mem.Pmm
import Fishix.Mem.PageTable
import Fishix.Mem.TableMemory
import Fishix.Mem.Invalidate
import Fishix.Mem.RangeList
import Fishix.Mem.Resolve
import Fishix.Mem.AddressSpace
import Fishix.Mem.PageLists
import Fishix.Mem.Entries
import Fishix.Mem.Ownership
import Fishix.Mem.OwnedAddRange
import Fishix.Mem.Fault
import Fishix.Mem.Mirror
import Fishix.Mem.Access
import Fishix.Mem.OwnedFault
import Fishix.Mem.Fork
import Fishix.Mem.RangeRun
import Fishix.Mem.Backing
import Fishix.Mem.Program
import Fishix.Mem.RangeOrder
import Fishix.Mem.RangeCache
import Fishix.Mem.Brk
import Fishix.Mem.OwnedFork
import Fishix.Mem.Boot
import Fishix.Mem.Run
import Fishix.Mem.Bump
import Fishix.Userland.MemFd
import Fishix.Common.CString
import Fishix.Common.Ring
import Fishix.Common.Cursor
import Fishix.Sched.Basic
import Fishix.Sched.Isr
import Fishix.Sched.Wake
import Fishix.Sched.Event
import Fishix.Sched.Machine
import Fishix.Sched.RunQueue
import Fishix.Sched.UserMode
import Fishix.Sched.Context
import Fishix.Sched.Listeners
import Fishix.Sched.Interruption
import Fishix.Fs.Vfs
import Fishix.Fs.PathSyscalls
import Fishix.Fs.Entries
import Fishix.Fs.Lookup
import Fishix.Fs.Effects
import Fishix.Fs.NullEntry
import Fishix.Fs.Directories
import Fishix.Fs.Unlink
import Fishix.Fs.Readdir
import Fishix.Fs.Tmpfs
import Fishix.Fs.Descriptors
import Fishix.Fs.ReadOnly
import Fishix.Fs.FileOffsets
import Fishix.Common.Orbit
import Fishix.Fs.Expansion
import Fishix.Fs.Resolution
import Fishix.Fs.NewPath
import Fishix.Common.RefCount
import Fishix.Mem.FileRefs
import Fishix.Fs.Cwd
import Fishix.Fs.DescriptorRefs
import Fishix.Fs.Lifetime
import Fishix.Fs.Procfs
import Fishix.Userland.Cred
import Fishix.Common.TimeSpec
import Fishix.Sched.Timer
import Fishix.Sched.SignalMask
import Fishix.Sched.PollMask
import Fishix.Common.Rings
import Fishix.Process.Tree
import Fishix.Process.System
import Fishix.Process.Family
import Fishix.Process.Threads
import Fishix.Process.Invariant
import Fishix.Process.Steps
import Fishix.Process.Groups
import Fishix.Process.Reap
import Fishix.Process.Reports
import Fishix.Process.Waits
import Fishix.Userland.Elf
import Fishix.Userland.InitialStack
import Fishix.Userland.Exec
import Fishix.Sched.SignalFrame
import Fishix.Sched.SignalReturn
import Fishix.Common.HashTable
import Fishix.Common.RingBuffer
import Fishix.Common.RingQueue
import Fishix.Userland.ElfImage
import Fishix.Userland.ElfSafety
import Fishix.Userland.ExecStack
import Fishix.Userland.ExecScript
import Fishix.Userland.Epoll
import Fishix.Userland.Pipe
import Fishix.Userland.PipeAtomic
import Fishix.Userland.EventFd
import Fishix.Userland.CreationFlags
import Fishix.Userland.FutexOp
import Fishix.Userland.ControlMessages
import Fishix.Userland.Datagram
import Fishix.Userland.LocalStream
import Fishix.Userland.StreamSocket
import Fishix.Userland.Seqpacket
import Fishix.Userland.EpollWait
import Fishix.Userland.EpollEdge
import Fishix.Userland.Connections
import Fishix.Sched.SyncWait
import Fishix.Fs.Ustar
import Fishix.Fs.ArchiveWalk
import Fishix.Fs.Vectored
import Fishix.Fs.Select
import Fishix.Net.Basic
import Fishix.Net.Send
import Fishix.Net.Checksum
import Fishix.Net.Receive
import Fishix.Net.Ports
import Fishix.Net.Loopback
import Fishix.Net.Arp
import Fishix.Dev.IoService
import Fishix.Dev.Request
import Fishix.Dev.Virtqueue
import Fishix.Dev.Usbhid
import Fishix.Dev.Block
import Fishix.Dev.Tty
import Fishix.Dev.Pty
import Fishix.Gfx.Terminal
import Fishix.Dev.UsbKeyboard
import Fishix.Dev.ReportFields
import Fishix.Dev.ReportDescriptor
import Fishix.Common.CycleRing
import Fishix.Dev.XhciRings
import Fishix.Dev.VirtioRequests
import Fishix.Dev.UsbConfig
import Fishix.Dev.InputEvents
import Fishix.Fs.Growth
import Fishix.Common.RingOverwrite
