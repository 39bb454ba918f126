import SzpontOS.Mm.PmmHistory
import SzpontOS.Mm.PmmInit
import SzpontOS.Syscall.NoNewPrivs
import SzpontOS.Fs.RamFile
import SzpontOS.Sched.WaitQueue
import SzpontOS.Ipc.ShmRun
import SzpontOS.Net.TcpStream
import SzpontOS.Fs.TreeRun
import SzpontOS.Fd.Pipe
import SzpontOS.Sched.Signal
import SzpontOS.Syscall.ForkFail
import SzpontOS.Fs.Mount
import SzpontOS.Fs.Flock
import SzpontOS.Fs.BlockNode
import SzpontOS.Fs.BcacheFail
import SzpontOS.Fs.Ext2Read
import SzpontOS.Fs.Timerfd
import SzpontOS.Fs.Eventfd
import SzpontOS.Fs.OpenLeak
import SzpontOS.Net.Source
import SzpontOS.Net.Udp
import SzpontOS.Net.Accept
import SzpontOS.Fd.EpollPoll
import SzpontOS.Mm.AllocRelease
import SzpontOS.Libc.Malloc
import SzpontOS.Libc.Join
import SzpontOS.Libc.Calendar
import SzpontOS.Libc.Memmove
import SzpontOS.Libc.Memstream
import SzpontOS.Libc.Wchar
import SzpontOS.Libc.Timeout
import SzpontOS.Libc.Semaphore
import SzpontOS.Libc.RwLock
import SzpontOS.X11.Requests
import SzpontOS.X11.Events
import SzpontOS.Userland.Sudo
import SzpontOS.Userland.Init
