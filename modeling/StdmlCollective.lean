import StdmlCollective.AddressText
import StdmlCollective.AllGather
import StdmlCollective.AllReduce
import StdmlCollective.AsyncAgrees
import StdmlCollective.AsyncProgress
import StdmlCollective.AsyncReduce
import StdmlCollective.Broadcast
import StdmlCollective.Channel
import StdmlCollective.Chunks
import StdmlCollective.ClientBoxes
import StdmlCollective.ClientLinks
import StdmlCollective.ClientPool
import StdmlCollective.ClientSend
import StdmlCollective.ClusterConfig
import StdmlCollective.ClusterJson
import StdmlCollective.ClusterResize
import StdmlCollective.Commit
import StdmlCollective.ConfigServer
import StdmlCollective.Consistent
import StdmlCollective.ElasticRun
import StdmlCollective.ElasticState
import StdmlCollective.Flow
import StdmlCollective.GroupAllReduce
import StdmlCollective.GroupProgress
import StdmlCollective.Http
import StdmlCollective.Ioutil
import StdmlCollective.Launch
import StdmlCollective.Lib.Links
import StdmlCollective.Lib.Outbox
import StdmlCollective.Lib.Progress
import StdmlCollective.Lib.Threads
import StdmlCollective.Lib.Transfer
import StdmlCollective.Lifetime
import StdmlCollective.PoolClose
import StdmlCollective.Program
import StdmlCollective.Propose
import StdmlCollective.QueuePair
import StdmlCollective.Rchan
import StdmlCollective.ReadHeader
import StdmlCollective.ReceiveFrame
import StdmlCollective.ReducePhase
import StdmlCollective.Refine.Async
import StdmlCollective.Refine.Blocked
import StdmlCollective.Refine.Chunk
import StdmlCollective.Refine.Early
import StdmlCollective.Refine.Isolation
import StdmlCollective.Refine.Jam
import StdmlCollective.Refine.Lifetime
import StdmlCollective.Resize
import StdmlCollective.Ring
import StdmlCollective.Sessions
import StdmlCollective.SplitWork
import StdmlCollective.StarOrder
import StdmlCollective.Synchronize
import StdmlCollective.TaskTree
import StdmlCollective.TcpSocket
import StdmlCollective.ThreadPool
import StdmlCollective.Truncation
import StdmlCollective.WaitGroup
