import TextOS.Lib.Run
import TextOS.Lib.Intervals
import TextOS.Lib.Word
import TextOS.Heap.Realloc
import TextOS.Pmm.Coalesce
import TextOS.Pmm.Hard
import TextOS.Net.TcpRecv
import TextOS.Vmap.Laws
import TextOS.Vmap.Fork
import TextOS.Vmap.Dirty
import TextOS.Vmap.Phyauto
import TextOS.Mman.Lookup
import TextOS.Mman.Mmap
import TextOS.Mman.Range
import TextOS.Mman.RbPtrDel
import TextOS.Cow.Run
import TextOS.Net.Arp
import TextOS.Blk.Buffer
import TextOS.Minix.File
import TextOS.Minix.Inode
import TextOS.Net.Ports
import TextOS.Net.TcpSend
import TextOS.Net.Handshake
import TextOS.Net.TcpAck
import TextOS.Net.TcpFin
import TextOS.Net.TcpReset
import TextOS.Net.Checksum
import TextOS.Net.Udp
import TextOS.Lib.Traced
import TextOS.Net.Rx
import TextOS.Fat.Run
import TextOS.Vfs.Mount
import TextOS.Proc.Creds
import TextOS.Proc.Groups
import TextOS.Proc.Ctrltty
import TextOS.Fd.Refs
import TextOS.File.Select
import TextOS.Tty.Flow
import TextOS.Linker.GnuHash
import TextOS.Lock.Run
import TextOS.Signal.Frames
import TextOS.Sched.Stop
import TextOS.Sched.Wait
import TextOS.Pipe.Progress
import TextOS.Stdio.Buffered
import TextOS.Stdio.FmtNum
import TextOS.Stdio.Ungetc
import TextOS.Stdio.Vsnprintf
import TextOS.Float.RoundTrip
import TextOS.Klib.Cmdline
import TextOS.Klib.Time
import TextOS.Vfs.ProcMaps
