import Cppim.Lib.BigEndian
import Cppim.Lib.Decimal
import Cppim.Lib.Transition
import Cppim.Lib.Loop
import Cppim.Lib.Framing
import Cppim.Lib.Delimited
import Cppim.Lib.Incremental
import Cppim.Lib.Cut
import Cppim.Lib.Pairing
import Cppim.Lib.Index
import Cppim.Lib.Ticket
import Cppim.Lib.Threads
import Cppim.Lib.Calendar
import Cppim.Lib.Varint
import Cppim.Lib.Wire
import Cppim.Lib.Reference
import Cppim.Lib.Message
import Cppim.Lib.Lease
import Cppim.Lib.Ring
import Cppim.Common.Basic
import Cppim.Common.Buffer
import Cppim.Common.ByteDeque
import Cppim.Common.Integers
import Cppim.Common.Number
import Cppim.Common.HourlySink
import Cppim.Spdlog.CircularQ
import Cppim.Spdlog.ThreadPool
import Cppim.Common.HashMap
import Cppim.Common.Util
import Cppim.Common.Protocol
import Cppim.Protocol.Messages
import Cppim.Protocol.RoundTrip
import Cppim.Net.Session
import Cppim.Net.SendQueue
import Cppim.Net.Reading
import Cppim.Net.Client
import Cppim.Net.TcpServer
import Cppim.Net.Acceptor
import Cppim.Net.Lifecycle
import Cppim.Http.Request
import Cppim.Http.Context
import Cppim.Http.Segmentation
import Cppim.Http.Server
import Cppim.Http.Isolation
import Cppim.Http.Pipelining
import Cppim.Http.RequestLine
import Cppim.Http.Termination
import Cppim.Http.Grammar
import Cppim.Http.Serialize
import Cppim.Http.Rejection
import Cppim.Http.Response
import Cppim.Redis.Client
import Cppim.Redis.Commands
import Cppim.Redis.Expiry
import Cppim.Redis.Service
import Cppim.Redis.Lock
import Cppim.Rate.Vegas
import Cppim.Rate.Adds
import Cppim.Rate.Concurrent
import Cppim.Rate.Section
import Cppim.Rate.Pacing
import Cppim.Rpc.Codec
import Cppim.Rpc.Bounds
import Cppim.Rpc.Stream
import Cppim.Rpc.Unread
import Cppim.Rpc.Client
import Cppim.Rpc.Channel
import Cppim.Rpc.System
import Cppim.Rpc.Matching
import Cppim.Rpc.Loss
import Cppim.Rpc.Methods
import Cppim.Gate.ClientCodec
import Cppim.Gate.Server
import Cppim.Gate.System
import Cppim.Gate.Registry
import Cppim.Gate.Agreement
import Cppim.Gate.Hall
import Cppim.Logic.Push
import Cppim.Logic.Handlers
import Cppim.Logic.Routing
import Cppim.Logic.Service
import Cppim.Logic.Keys
import Cppim.Logic.Registration
import Cppim.Logic.Heartbeat
import Cppim.Logic.Indexes
import Cppim.Logic.System
import Cppim.Logic.Responses
import Cppim.Logic.Slots
import Cppim.Job.Server
import Cppim.Job.Consumer
import Cppim.Cluster.System
import Cppim.Cluster.Auth
import Cppim.Cluster.Delivery
import Cppim.Cluster.Pipeline
import Cppim.Cluster.Presence
import Cppim.Cluster.Online
