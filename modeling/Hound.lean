import Hound.Lib.Consumer
import Hound.Lib.Ring
import Hound.Lib.Search
import Hound.Lib.Walk
import Hound.Io.BufferBlock
import Hound.Io.BufferGrowth
import Hound.Io.BufferReserve
import Hound.Io.BufferSearch
import Hound.Io.Socket
import Hound.Io.SocketOwner
import Hound.Io.Address
import Hound.Http.Request
import Hound.Http.KeyValues
import Hound.Http.Strtoul
import Hound.Http.Parser
import Hound.Http.ParserLaws
import Hound.Http.Segmentation
import Hound.Http.Head
import Hound.Http.HeadGrammar
import Hound.Http.HeaderCase
import Hound.Http.Chunks
import Hound.Http.ChunkSize
import Hound.Http.Boundary
import Hound.Http.Finalize
import Hound.Http.RouterOrder
import Hound.Http.RouterStatus
import Hound.Http.Silence
import Hound.Http.Progress
import Hound.Http.Reuse
import Hound.Http.BodyRun
import Hound.Http.Framing
import Hound.Http.SelfDelimiting
import Hound.Http.Serialized
import Hound.Http.StaticFiles
import Hound.Http.Lifecycle
import Hound.Http.Transient
import Hound.Http.Conversation
import Hound.Http.Isolation
import Hound.Http.Serving
import Hound.Http.ServingSafe
import Hound.Http.Descriptors
import Hound.Http.EndToEnd
import Hound.Http.RouterTable
import Hound.Http.Client
import Hound.Http.Exchange
import Hound.Reactor.TimerDue
import Hound.Reactor.Lineage
import Hound.Reactor.NextTimeout
import Hound.Reactor.LoopTimers
import Hound.Reactor.PollReady
import Hound.Reactor.LoopRuns
import Hound.Reactor.ThreadPool
import Hound.Reactor.RoundRobin
import Hound.Coro.Conservation
import Hound.Coro.WaitInterest
import Hound.Coro.Wakeup
import Hound.Coro.TickResult
import Hound.Coro.Program
import Hound.Coro.Fairness
