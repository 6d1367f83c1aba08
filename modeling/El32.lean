import El32.Xbc.CommandsRoundTrip
import El32.Xbc.ReportPath
import El32.Xbc.WebSafety
import El32.Xbc.PollCycle
import El32.Xbc.FailedScan
import El32.Xbc.SlotKeeping
import El32.Xbc.CommandPath
import El32.Xbc.QueryAgreement
import El32.Xbc.IdRange
import El32.Xbc.ButtonReader
import El32.Xbc.ThreadsSafety
import El32.Xbc.ShmAccess
import El32.Xbc.Lifecycle
import El32.Xbc.Shutdown
import El32.Ipc.RendezSafety
import El32.Ipc.RingBufferSafety
import El32.Ipc.RingSize
import El32.Ipc.ProducerConsumerSafety
import El32.Ipc.SemSeq
import El32.Xbc.ScanBounds
import El32.Xbc.ButtonStore
import El32.Xbc.RemoveSpaces
import El32.Xbc.ShmSetup
import El32.Socket.EchoServer
import El32.Socket.EchoClient
import El32.Socket.ChatServer
import El32.Socket.Arguments
import El32.Socket.Servers
import El32.Ipc.RingIndex
import El32.Demo.Debounce
import El32.Demo.Script
import El32.Hue.Response
import El32.Hue.Menu
import El32.Sched.Report
import El32.Sched.Clocks
import El32.Ipc.OctalDecimal
import El32.Foundations.UnitHistory
import El32.Scheduling.Outcomes
import El32.Scheduling.Fairness
import El32.Scheduling.Chart
import El32.Scheduling.Session
import El32.Xbc.WebDemo
import El32.Socket.Conversation
import El32.Ipc.Dekker
import El32.Ipc.ShmTest
