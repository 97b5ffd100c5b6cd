import OsProject.Commands.Copy
import OsProject.Commands.Echo
import OsProject.Commands.Grep
import OsProject.Commands.Remove
import OsProject.Commands.WordCount
import OsProject.Xv6.BufferRuns
import OsProject.Xv6.ChildBuffer
import OsProject.Xv6.Children
import OsProject.Xv6.DirectoryList
import OsProject.Xv6.ExecStack
import OsProject.Xv6.ExitStatus
import OsProject.Xv6.FailedCalls
import OsProject.Xv6.FileCalls
import OsProject.Xv6.FileRead
import OsProject.Xv6.FileWrite
import OsProject.Xv6.Forest
import OsProject.Xv6.ForkLimit
import OsProject.Xv6.Harts
import OsProject.Xv6.InodeCounts
import OsProject.Xv6.InodeSteps
import OsProject.Xv6.LogSpace
import OsProject.Xv6.MallocRuns
import OsProject.Xv6.PathResolution
import OsProject.Xv6.PipeWakeup
import OsProject.Xv6.ProcInfo
import OsProject.Xv6.Reclaim
import OsProject.Xv6.Recycle
import OsProject.Xv6.Sections
import OsProject.Xv6.ShortWrite
import OsProject.Xv6.SignalReturn
import OsProject.Xv6.UserGrep
import OsProject.Xv6.VirtioRuns
import OsProject.Xv6.Wakeup
