import ServerHttpLib.Lib.Cut
import ServerHttpLib.Lib.Pieces
import ServerHttpLib.Lib.Terminated
import ServerHttpLib.Lib.Frames
import ServerHttpLib.Lib.Pacing
import ServerHttpLib.Lib.Refill
import ServerHttpLib.Lib.Runs
import ServerHttpLib.Lib.Progress
import ServerHttpLib.Lib.Sharing
import ServerHttpLib.Lib.Numeral
import ServerHttpLib.Lib.AssocMap
import ServerHttpLib.Lib.PosixPath
import ServerHttpLib.Lib.PosixRename
import ServerHttpLib.Lib.Recency
import ServerHttpLib.Lib.Inclusion
import ServerHttpLib.Lib.Program
import ServerHttpLib.Lib.Tracked
import ServerHttpLib.Lib.StableSort
import ServerHttpLib.Lib.Civil
import ServerHttpLib.Lib.Recurrence
import ServerHttpLib.Http.Bytes
import ServerHttpLib.Http.Utils
import ServerHttpLib.Http.Split
import ServerHttpLib.Http.Join
import ServerHttpLib.Http.Replace
import ServerHttpLib.Http.Common
import ServerHttpLib.Http.ParamsText
import ServerHttpLib.Http.Request
import ServerHttpLib.Http.HeadText
import ServerHttpLib.Http.ParamsCodec
import ServerHttpLib.Http.Outgoming
import ServerHttpLib.Http.Assets
import ServerHttpLib.Http.AssetSpellings
import ServerHttpLib.Http.FileContent
import ServerHttpLib.Http.AcceptLanguage
import ServerHttpLib.Http.LanguageOrder
import ServerHttpLib.Server.Routing
import ServerHttpLib.Server.Guards
import ServerHttpLib.Session.Model
import ServerHttpLib.Session.Reference
import ServerHttpLib.Session.Invariant
import ServerHttpLib.Session.Framing
import ServerHttpLib.Session.Pipelining
import ServerHttpLib.Session.Memory
import ServerHttpLib.Session.HeaderView
import ServerHttpLib.Session.RoundTrip
import ServerHttpLib.Session.Exchanges
import ServerHttpLib.Session.LengthView
import ServerHttpLib.Session.NameCase
import ServerHttpLib.Session.KeepAlive
import ServerHttpLib.Client.Model
import ServerHttpLib.Client.Segmentation
import ServerHttpLib.Client.Termination
import ServerHttpLib.Client.ChunkedMessage
import ServerHttpLib.Client.SizeGrammar
import ServerHttpLib.Client.ResponseRoundTrip
import ServerHttpLib.Client.Request
import ServerHttpLib.Session.ResponseReuse
import ServerHttpLib.Client.Interim
import ServerHttpLib.Client.CountedBody
import ServerHttpLib.Sql.Lexer
import ServerHttpLib.Sql.BuildQuery
import ServerHttpLib.Sql.Injection
import ServerHttpLib.Sql.Simultaneous
import ServerHttpLib.Sql.Literals
import ServerHttpLib.Sql.Tables
import ServerHttpLib.Sql.NullResults
import ServerHttpLib.Sql.IndexNames
import ServerHttpLib.Sql.Scripts
import ServerHttpLib.Sql.Wrapper
import ServerHttpLib.Sql.Contracts
import ServerHttpLib.Sql.Retry
import ServerHttpLib.Sql.Reentry
import ServerHttpLib.Sql.Serving
import ServerHttpLib.Sql.Threads
import ServerHttpLib.Sql.Hands
import ServerHttpLib.Sql.Ownership
import ServerHttpLib.Sql.Exclusive
import ServerHttpLib.Sql.Progress
import ServerHttpLib.Sql.Generations
import ServerHttpLib.Sql.Schemas
import ServerHttpLib.Cache.Model
import ServerHttpLib.Cache.Invariant
import ServerHttpLib.Cache.Lifetime
import ServerHttpLib.Cache.Refinement
import ServerHttpLib.Cache.Specification
import ServerHttpLib.Cache.Transparency
import ServerHttpLib.Cache.Inclusion
import ServerHttpLib.Scheduler.Model
import ServerHttpLib.Scheduler.WeeklyPoint
import ServerHttpLib.Scheduler.Midnight
import ServerHttpLib.Http.Overwriting
import ServerHttpLib.Http.LazyParams
import ServerHttpLib.Http.EndpointQuery
import ServerHttpLib.Sql.FormatIndexes
import ServerHttpLib.Http.Format
import ServerHttpLib.Exchange.Delivery
import ServerHttpLib.Server.Sessions
import ServerHttpLib.Exchange.Clients
import ServerHttpLib.Exchange.Routes
import ServerHttpLib.Exchange.Cookies
import ServerHttpLib.Exchange.Copies
import ServerHttpLib.Todo.Tokens
import ServerHttpLib.Todo.Login
