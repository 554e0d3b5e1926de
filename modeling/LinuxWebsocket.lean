import LinuxWebsocket.Chat.Shutdown
import LinuxWebsocket.Chat.Slots
import LinuxWebsocket.Chat.Stranded
import LinuxWebsocket.Http.Extent
import LinuxWebsocket.Http.Lines
import LinuxWebsocket.Pool.Arrivals
import LinuxWebsocket.Pool.Dispatch
import LinuxWebsocket.Timer.IdleFaults
import LinuxWebsocket.Timer.Operations
import LinuxWebsocket.Web.Responses
import LinuxWebsocket.Chat.Broadcast
import LinuxWebsocket.Chat.Descriptors
import LinuxWebsocket.Chat.Ranges
import LinuxWebsocket.Chat.SigtermWindows
import LinuxWebsocket.Chat.SubProcess
import LinuxWebsocket.Timer.IdleStranded
import LinuxWebsocket.Timer.ListRuns
import LinuxWebsocket.Lib.TotalOrder
import LinuxWebsocket.Chat.Ordering
import LinuxWebsocket.Chat.AtRest
import LinuxWebsocket.Lib.SelfPipe
import LinuxWebsocket.Pool.Stopping
import LinuxWebsocket.Signals.UniEvent
import LinuxWebsocket.Http.RoundTrip
import LinuxWebsocket.Timer.Heartbeat
import LinuxWebsocket.Timer.Destruction
import LinuxWebsocket.Pool.Family
import LinuxWebsocket.Chat.Quitting
import LinuxWebsocket.Chat.Departures
import LinuxWebsocket.Chat.HangUps
import LinuxWebsocket.Timer.Termination
import LinuxWebsocket.Lib.Permits
import LinuxWebsocket.Lib.Threads
import LinuxWebsocket.Multithread.DeadLockDemo
import LinuxWebsocket.Multithread.IpcPrivate
import LinuxWebsocket.Pool.Shutdown
