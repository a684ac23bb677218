import Unpvol1.Lib.Machine
import Unpvol1.Lib.Relay
import Unpvol1.Lib.DList
import Unpvol1.Lib.Loop
import Unpvol1.Lib.SortedBy
import Unpvol1.Lib.Slots
import Unpvol1.Lib.BinHeap
import Unpvol1.Lib.Socket
import Unpvol1.Lib.Kernel
import Unpvol1.Lib.StdMap
import Unpvol1.Lib.Threads
import Unpvol1.Springsnail.Conn
import Unpvol1.Springsnail.ConnRelay
import Unpvol1.Springsnail.Mgr
import Unpvol1.Springsnail.Child
import Unpvol1.Springsnail.MgrInv
import Unpvol1.Springsnail.MgrSteps
import Unpvol1.Springsnail.MgrPool
import Unpvol1.Springsnail.Used
import Unpvol1.Springsnail.ConnCodes
import Unpvol1.Springsnail.Wakeup
import Unpvol1.Springsnail.Drain
import Unpvol1.Lib.LittleEndian
import Unpvol1.Springsnail.Conserve
import Unpvol1.Springsnail.Parent
import Unpvol1.Springsnail.LoadReport
import Unpvol1.Springsnail.MostFree
import Unpvol1.Lib.Substring
import Unpvol1.Springsnail.Config
import Unpvol1.Springsnail.ConfigBlocks
import Unpvol1.Lib.CString
import Unpvol1.Lib.LineScan
import Unpvol1.Http.LineBuf
import Unpvol1.Http.LineLoop
import Unpvol1.Http.RequestLine
import Unpvol1.Http.Head
import Unpvol1.Http.Httpparser
import Unpvol1.Http.HttpConn
import Unpvol1.Http.HttpConnHead
import Unpvol1.Http.HttpConnBody
import Unpvol1.Http.HttpConnCalls
import Unpvol1.Http.HttpConnServe
import Unpvol1.Lib.Path
import Unpvol1.Http.HttpConnPath
import Unpvol1.Http.HttpConnBounds
import Unpvol1.Http.ParsersAgree
import Unpvol1.Timer.LstTimer
import Unpvol1.Timer.LstRuns
import Unpvol1.Timer.NonactiveConn
import Unpvol1.Timer.TwTimer
import Unpvol1.Timer.TwRuns
import Unpvol1.Timer.TwShape
import Unpvol1.Timer.TimeHeap
import Unpvol1.Timer.HeapRuns
import Unpvol1.Timer.HeapTick
import Unpvol1.Timer.ListHeap
import Unpvol1.Timer.HeapAccess
import Unpvol1.Timer.HeapBuild
import Unpvol1.Timer.HeapBounds
import Unpvol1.Http.Threadpool
import Unpvol1.Http.HttpConnWrite
import Unpvol1.Http.HttpConnResponse
import Unpvol1.Http.MainLoop
import Unpvol1.Http.HttpConnRead
import Unpvol1.Http.OneOwner
import Unpvol1.Http.OwnerRuns
import Unpvol1.Http.MainCalls
import Unpvol1.Http.UserCount
import Unpvol1.Http.FileMapping
import Unpvol1.Chat.ServerPoll
import Unpvol1.Chat.PfdScan
import Unpvol1.Chat.Broadcast
import Unpvol1.Chat.Masks
import Unpvol1.Chat.MytalkServer
import Unpvol1.Unp.StrCli
import Unpvol1.Unp.StrCliEnd
import Unpvol1.Lib.Ring
import Unpvol1.Unp.SelectServ
import Unpvol1.Unp.SelectFds
import Unpvol1.Unp.Readline
import Unpvol1.Unp.Writen
import Unpvol1.Unp.StrEcho
import Unpvol1.Unp.Serv08
import Unpvol1.Unp.SigchldHandler
import Unpvol1.Unp.IfiSizing
import Unpvol1.Unp.IfiScan
import Unpvol1.Lib.Numeral
import Unpvol1.Unp.WebChild
import Unpvol1.Chat.ClientPoll
import Unpvol1.Lib.Framing
import Unpvol1.Pool.CgiChild
import Unpvol1.Pool.PoolCgi
import Unpvol1.Pool.Processpool
import Unpvol1.Pool.RoundRobin
import Unpvol1.Epoll.OneshotServer
import Unpvol1.ShmTalk.ShmTables
import Unpvol1.ShmTalk.ShmInverse
import Unpvol1.Lib.Bulletin
import Unpvol1.ShmTalk.ShmChat
import Unpvol1.Lib.Progress
import Unpvol1.Lib.Channel
import Unpvol1.Unp.EchoPath
import Unpvol1.Unp.StrCliEcho
import Unpvol1.Unp.TcpCli05
import Unpvol1.Lib.Mutex
import Unpvol1.Unp.Prefork
import Unpvol1.Lib.Watch
import Unpvol1.Epoll.TriggerServers
import Unpvol1.Epoll.TriggerRest
import Unpvol1.Unp.TcpCli01
import Unpvol1.Timer.ListWheel
import Unpvol1.Lib.Lockstep
import Unpvol1.Http.SlotReuse
import Unpvol1.Lib.Children
import Unpvol1.Unp.PreforkEnd
import Unpvol1.Unp.SigchldOnce
import Unpvol1.Epoll.OneshotWorkers
import Unpvol1.Http.PoolDrains
import Unpvol1.Unp.Serv08Drains
import Unpvol1.Lib.SelfPipe
import Unpvol1.Pool.PoolEnd
import Unpvol1.Pool.PoolTerm
import Unpvol1.Timer.IdleAlarm
import Unpvol1.Timer.IdleRest
