import Spider.ObjModel.System
import Spider.ObjModel.Iteration
import Spider.ObjModel.Lookup
import Spider.LinkedList
import Spider.Config.Variable
import Spider.Config.Engine
import Spider.Config.Section
import Spider.DynamicString
import Spider.Cli.Args
import Spider.Cli.InUse
import Spider.InternalDb.Tree
import Spider.InternalDb.Sync
import Spider.ObjModel.Locking
import Spider.Sched.Runs
import Spider.Config.Save
import Spider.Config.Load
import Spider.Config.RoundTrip
import Spider.TaskQueue.Worker
import Spider.TaskQueue.Lifetime
import Spider.Fsm.Threads
import Spider.Socket
import Spider.Tcp
import Spider.Locks
import Spider.Io
import Spider.Stun
import Spider.Tinyhttp
import Spider.Config.Comments
import Spider.Config.Reference
import Spider.Config.Depth
import Spider.Config.Browse
import Spider.Config.Retrieve
import Spider.Config.Header
import Spider.Config.Names
import Spider.InternalDb.Subtree
import Spider.ObjModel.Destory
import Spider.ObjModel.Deliver
import Spider.Cli.Order
import Spider.Cli.Complete
import Spider.Cli.Matches
import Spider.Cli.Multiple
import Spider.Cli.Dispatch
import Spider.DynamicString.Bounded
import Spider.DynamicString.Substr
import Spider.TimedWrite
import Spider.Sched.Due
import Spider.Sched.Counters
import Spider.Sched.Returns
import Spider.Socket.HostPort
import Spider.Socket.Fields
import Spider.TaskQueue.Creation
import Spider.TaskQueue.Stats
import Spider.TestEngine.Counts
import Spider.Io.Wait
import Spider.Stun.Attributes
import Spider.Stun.Messages
import Spider.LinkedList.Traverse
import Spider.LinkedList.SortAlpha
import Spider.TestEngine.Registry
import Spider.Strings.Join
import Spider.Strings.Tokens
import Spider.Strings.Unescape
import Spider.Tinyhttp.Slots
import Spider.Fdevent
import Spider.Remote.Descriptors
import Spider.Tcp.Sessions
import Spider.Threadprivdata
import Spider.Callbacks
import Spider.Escapes
import Spider.Logger.Messages
import Spider.Logger.Header
import Spider.Verboser
