import Xv6.Disjoint
import Xv6.Munmap
import Xv6.FilePages
import Xv6.FileRefsRun
import Xv6.Recovery
import Xv6.LogCapacity
import Xv6.LastReference
import Xv6.LookupSafe
import Xv6.Sleeplock
import Xv6.Pipe
import Xv6.Kill
import Xv6.Icache
import Xv6.Bcache
import Xv6.UserMemory
import Xv6.TableBounds
import Xv6.Window
import Xv6.GuardGrowth
import Xv6.ShellParse
import Xv6.MkfsKernel
import Xv6.ExecArgs
import Xv6.Filewrite
import Xv6.Grep
import Xv6.Memmove
import Xv6.Locks
