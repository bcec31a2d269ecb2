import Xv6.PageCounts
import Xv6.EagerFork
import Xv6.ExecBounds
import Xv6.ExecLayout
import Xv6.ForkFail
import Xv6.CowRace
import Xv6.UserFault
import Xv6.UserRegion
import Xv6.PageMap
import Xv6.LogSpace
import Xv6.LogCrash
import Xv6.BufRing
import Xv6.InodeCache
import Xv6.SharedFile
import Xv6.FsArrays
import Xv6.PipeSafety
import Xv6.VirtioSafety
import Xv6.SchedKill
import Xv6.ConsoleLine
import Xv6.ConsoleWrite
import Xv6.UmallocRuns
import Xv6.ShCommand
import Xv6.FileRead
import Xv6.MkfsMain
import Xv6.MkfsKernel
import Xv6.LogFootprint
import Xv6.GrepLines
import Xv6.Interrupts
