import OpenV.Mm.Heap
import OpenV.Pkg.Dns
import OpenV.Kernel.KernelTables
import OpenV.Kernel.LeafFlags
import OpenV.Ipc.Pipe
import OpenV.Ipc.Poll
import OpenV.Ipc.Epoll
import OpenV.Ipc.Reuse
import OpenV.Ipc.ChannelFifo
import OpenV.Kernel.Resolve
import OpenV.Posix.Roots
import OpenV.Posix.Accounting
import OpenV.Sync.Relock
import OpenV.Sched.KillStop
import OpenV.Sched.Delivery
import OpenV.Sched.Peers
import OpenV.Sched.Futex
import OpenV.Sched.WakeupRuns
import OpenV.Sched.Receives
import OpenV.Ipc.Tty
import OpenV.Posix.Credentials
import OpenV.Vfs.Durability
import OpenV.Vfs.DirRuns
import OpenV.FileServer.Files
import OpenV.FileServer.Locks
import OpenV.FileServer.Links
import OpenV.Kernel.Compress
import OpenV.Kernel.SwapPool
import OpenV.Kernel.Trace
import OpenV.Mm.Unmap
import OpenV.Mm.Walk
import OpenV.Sh.Pipeline
import OpenV.Net.Recv
