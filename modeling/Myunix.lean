import Myunix.Console.Itoa
import Myunix.Vmm.Dma
import Myunix.Process.Fork
import Myunix.Process.FdTableMap
import Myunix.Tmpfs.DirMap
import Myunix.Syscall.Rw
import Myunix.Task.Semaphore
import Myunix.Task.Mutex
import Myunix.Process.Wait
import Myunix.Process.FdCount
import Myunix.Lib.OnesComplement
import Myunix.Net.Handle
import Myunix.Net.Accept
import Myunix.Net.Reads
import Myunix.Fs.Mount
import Myunix.Fs.MountMap
import Myunix.Fs.Open
import Myunix.Fs.OpenRefs
import Myunix.Syscall.Copy
import Myunix.Syscall.CopyString
import Myunix.Syscall.Failures
import Myunix.Lib.HeapLog
import Myunix.Syscall.CopyArray
import Myunix.Syscall.ExecveHeap
import Myunix.Boot.BlockMap
import Myunix.Boot.Multiboot
import Myunix.Boot.Reservations
import Myunix.Process.Space
import Myunix.Process.Teardown
import Myunix.Lib.Ring
import Myunix.Task.RingBuffer
import Myunix.Task.LockDepth
import Myunix.Task.LockFlags
import Myunix.Task.MutexWaiters
import Myunix.Lib.Census
import Myunix.Tmpfs.Lifetime
import Myunix.Net.Exchange
import Myunix.Process.Tables
import Myunix.Tar.Archive
import Myunix.Tar.Headers
import Myunix.Tar.Listing
import Myunix.Vmm.Heap
import Myunix.Vmm.MapPages
import Myunix.Lib.FirstFit
import Myunix.Pmm.FindRegion
import Myunix.Vmm.FindDma
import Myunix.Syscall.Munmap
import Myunix.Syscall.Mmap
import Myunix.Process.Kstack
import Myunix.Process.KstackPlace
import Myunix.Process.KstackFree
import Myunix.Process.KstackRuns
import Myunix.Tlb.Access
import Myunix.Tlb.Coherence
import Myunix.Process.Pid
import Myunix.Lib.DoublyLinked
import Myunix.Lists
import Myunix.Lists.Runs
import Myunix.Net.Receive
import Myunix.Net.Checksum
import Myunix.Net.Echo
import Myunix.Net.TcpHeader
import Myunix.Process.Tree
import Myunix.Fs.Files
import Myunix.Tar.Offsets
import Myunix.Tar.Sizes
import Myunix.Tar.Names
import Myunix.Fs.Canonical
import Myunix.Fs.PushPath
import Myunix.Lib.Buffer
import Myunix.Fs.Tokens
import Myunix.Lib.Traced
import Myunix.Fs.Trace
import Myunix.Fs.Links
import Myunix.Console.Tty
import Myunix.Console.Printf
import Myunix.Console.Framebuffer
import Myunix.Task.Wakeup
import Myunix.Fs.OpenHeap
import Myunix.Process.ExecvePages
import Myunix.Process.ExecveImage
import Myunix.Process.ExecveRuns
import Myunix.Pci.Scan
import Myunix.Usb.Device
import Myunix.Usb.Uhci
import Myunix.Usb.ConfWalk
import Myunix.Usb.QhList
import Myunix.Usb.Control
import Myunix.Usb.Pool
import Myunix.Cpu.StackTrace
import Myunix.Lib.Memory
import Myunix.Lib.Arena
import Myunix.Liballoc.Code
import Myunix.Liballoc.View
import Myunix.Liballoc.Pages
import Myunix.Liballoc.Layout
import Myunix.Liballoc.Places
import Myunix.Liballoc.State
import Myunix.Liballoc.Init
import Myunix.Liballoc.Kmalloc
import Myunix.Liballoc.Kfree
import Myunix.Liballoc.Krealloc
import Myunix.Lib.Contract
import Myunix.Liballoc.Blocks
import Myunix.Liballoc.Runs
import Myunix.Liballoc.Accounts
import Myunix.Console.Picture
import Myunix.Net.Rings
import Myunix.Cpu.Interrupts
import Myunix.Tmpfs.Readdir
