import ServerFrame.Lib.Effect
import ServerFrame.Lib.Fallible
import ServerFrame.Lib.Run
import ServerFrame.Lib.History
import ServerFrame.Lib.OrderedSet
import ServerFrame.Lib.Blocks
import ServerFrame.Lib.Readers
import ServerFrame.Lib.Digits
import ServerFrame.Lib.Septets
import ServerFrame.Lib.Ragel
import ServerFrame.Lib.Words
import ServerFrame.Lib.Precedence
import ServerFrame.Lib.Calls
import ServerFrame.Lib.Events
import ServerFrame.Lib.Trace
import ServerFrame.Lib.Strtol
import ServerFrame.Lib.Separators
import ServerFrame.Lib.Numerals
import ServerFrame.Timer.Basic
import ServerFrame.Timer.Invariant
import ServerFrame.Timer.Step
import ServerFrame.Timer.Account
import ServerFrame.Timer.Front
import ServerFrame.Timer.Expired
import ServerFrame.Timer.Reset
import ServerFrame.Event.Basic
import ServerFrame.Event.Invariant
import ServerFrame.Event.Step
import ServerFrame.Event.Bookkeeping
import ServerFrame.Event.Resume
import ServerFrame.Event.Report
import ServerFrame.Event.Table
import ServerFrame.Event.Empty
import ServerFrame.Scheduler.Basic
import ServerFrame.Scheduler.Wakeup
import ServerFrame.Scheduler.Runner
import ServerFrame.Scheduler.Queue
import ServerFrame.Scheduler.Pin
import ServerFrame.Scheduler.Stop
import ServerFrame.Scheduler.Stable
import ServerFrame.Hook.Basic
import ServerFrame.Hook.Recycle
import ServerFrame.Hook.FdManager
import ServerFrame.Hook.Flags
import ServerFrame.Hook.Wrappers
import ServerFrame.Hook.Transparent
import ServerFrame.ByteArray.Basic
import ServerFrame.ByteArray.Chain
import ServerFrame.ByteArray.Flat
import ServerFrame.ByteArray.Codec
import ServerFrame.ByteArray.RoundTrip
import ServerFrame.ByteArray.Scatter
import ServerFrame.ByteArray.Gather
import ServerFrame.ByteArray.Positional
import ServerFrame.ByteArray.File
import ServerFrame.ByteArray.Strings
import ServerFrame.ByteArray.Typed
import ServerFrame.ByteArray.Calls
import ServerFrame.ByteArray.Retry
import ServerFrame.ByteArray.Zigzag
import ServerFrame.ByteArray.Varint
import ServerFrame.Http.Grammar
import ServerFrame.Http.Request
import ServerFrame.Http.Parser
import ServerFrame.Http.Session
import ServerFrame.Http.Tokens
import ServerFrame.Http.Reads
import ServerFrame.Http.Stream
import ServerFrame.Http.Segment
import ServerFrame.Http.Dump
import ServerFrame.Http.Parts
import ServerFrame.Http.Feed
import ServerFrame.Http.Uri
import ServerFrame.Http.RequestLine
import ServerFrame.Http.HeaderLines
import ServerFrame.Http.OneRead
import ServerFrame.Http.Headers
import ServerFrame.Http.RoundTrip
import ServerFrame.Http.KeepAlive
import ServerFrame.Http.Servlet
import ServerFrame.Http.ClientGrammar
import ServerFrame.Http.ResponseParser
import ServerFrame.Http.Connection
import ServerFrame.Http.Body
import ServerFrame.Http.HeaderEnd
import ServerFrame.Http.Chunked
import ServerFrame.Http.Determined
import ServerFrame.Uri.Grammar
import ServerFrame.Uri.Create
import ServerFrame.Uri.Parts
import ServerFrame.Uri.Scripts
import ServerFrame.Uri.Repeats
import ServerFrame.Uri.Extract
import ServerFrame.Config.Listeners
import ServerFrame.Config.Yaml
import ServerFrame.Socket.Addresses
import ServerFrame.Socket.TcpServer
import ServerFrame.Address.Basic
import ServerFrame.Address.Masks
import ServerFrame.Address.Lookup
import ServerFrame.Address.Ipv6
import ServerFrame.Log.Define
import ServerFrame.Log.Formatter
import ServerFrame.Log.Apply
import ServerFrame.Log.Pattern
import ServerFrame.Log.Changes
import ServerFrame.Log.Inherit
import ServerFrame.Log.File
import ServerFrame.Stream.FixSize
import ServerFrame.Timer.Timeout
import ServerFrame.Hook.Sleep
import ServerFrame.Hook.Enabled
import ServerFrame.Hook.Timeouts
import ServerFrame.Hook.Tables
import ServerFrame.Hook.Connect
import ServerFrame.Http.Methods
import ServerFrame.Http.Framing
import ServerFrame.Http.ChunkSize
import ServerFrame.Http.BodyLimit
import ServerFrame.Http.Assembly
import ServerFrame.Http.Payload
import ServerFrame.Lib.SortedMap
import ServerFrame.Http.HeaderStore
import ServerFrame.Http.ResponseFeed
import ServerFrame.Lib.Firsts
import ServerFrame.Http.ResponseLines
import ServerFrame.Http.ResponseTrip
import ServerFrame.Stream.Connection
import ServerFrame.Http.Server
import ServerFrame.Http.Exchange
import ServerFrame.Uri.Dump
import ServerFrame.Socket.EchoServer
import ServerFrame.Lib.Coroutines
import ServerFrame.Fiber.Basic
import ServerFrame.Fiber.Control
import ServerFrame.Fiber.Switch
import ServerFrame.Fiber.Refinement
import ServerFrame.Lib.Sections
import ServerFrame.Mutex.Guards
import ServerFrame.Thread.Start
import ServerFrame.Socket.Accepting
import ServerFrame.Lib.Containers
import ServerFrame.Config.Casts
import ServerFrame.Lib.Multimap
import ServerFrame.Address.Interfaces
import ServerFrame.Address.Compare
