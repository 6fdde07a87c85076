import Grandma.OrderedMap
import Grandma.Traversal
import Grandma.LabelTree
import Grandma.Siblings
import Grandma.Outbox
import Grandma.Helper
import Grandma.Json
import Grandma.Ddf
import Grandma.BaseCached
import Grandma.MOHandler
import Grandma.MOTree
import Grandma.AlertQueue
import Grandma.CommandQueue
import Grandma.Session
import Grandma.DMClient
import Grandma.CachedMap
import Grandma.Report
import Grandma.Agreement
import Grandma.Registry
import Grandma.Advertised
import Grandma.Addressing
import Grandma.SetupOrder
import Grandma.AlertDelivery
import Grandma.Statuses
import Grandma.Shapes
import Grandma.Decoding
import Grandma.Downloads
import Grandma.Isolation
import Grandma.Meaning
import Grandma.DumpContents
import Grandma.Serialisation
import Grandma.Outline
import Grandma.Commuting
import Grandma.Loading
import Grandma.Splitting
import Grandma.ServerUrl
import Grandma.Numbering
import Grandma.Regrouping
import Grandma.Base64
import Grandma.Transcoding
import Grandma.Relay
import Grandma.Throughput
import Grandma.Ending
import Grandma.TestServer
import Grandma.HgetTest
import Grandma.Overwriting
import Grandma.Converging
import Grandma.Application
import Grandma.Unambiguous
import Grandma.Replay
import Grandma.Callbacks
import Grandma.Unwinding
import Grandma.Uninitialised
import Grandma.Growing
import Grandma.Lasting
import Grandma.Grammar
import Grandma.Automatic
import Grandma.Drafting
