import IshAok.Theory.FileLock.Notify
import IshAok.Theory.Seccomp.Chain
import IshAok.Theory.Zpool.Handle
import IshAok.Theory.Swap.Slots
import IshAok.Theory.Float80.Fast
import IshAok.Theory.Float80.Compare
import IshAok.Theory.Futex.Park
import IshAok.Theory.Futex.Pi
import IshAok.Theory.PosixMq.Notify
import IshAok.Theory.Terminal.Progress
import IshAok.Theory.DataOwner.Exclusive
import IshAok.Theory.Signal.StopCont
import IshAok.Theory.Creds.Ids
import IshAok.Theory.UserNs.Capable
import IshAok.Theory.FileLock.Flock
import IshAok.Theory.Timer.ThreadCpu
import IshAok.Theory.Timer.Conserve
import IshAok.Theory.Timer.Timerfd
import IshAok.Theory.Path.Refine
import IshAok.Theory.Path.Symlink
import IshAok.Theory.Inotify.Queue
import IshAok.Theory.Inotify.Watches
import IshAok.Theory.Jit.ExecCache
import IshAok.Theory.Fakefs.Inodes
import IshAok.Theory.Seccomp.Checkpoint
import IshAok.Theory.Mounts.Targets
import IshAok.Theory.Mounts.Locks
import IshAok.Theory.PidNs.Numbers
import IshAok.Theory.Epoll.Watch
