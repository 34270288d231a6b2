import Cerco.TransitionRuns
import Cerco.RingBuffer
import Cerco.WorkerPool
import Cerco.JobQueue
import Cerco.WorkerShutdown
import Cerco.Request
import Cerco.SegmentPattern
import Cerco.Router
import Cerco.LittleEndian
import Cerco.Wire
import Cerco.ServerFunctions
import Cerco.Response
import Cerco.SpanParser
import Cerco.Connection
import Cerco.Dispatch
import Cerco.HttpCallbacks
import Cerco.Server
import Cerco.ArenaUse
import Cerco.Responders
import Cerco.ConnFrames
import Cerco.ServerRules
import Cerco.RequestGrammar
import Cerco.BufferDiscipline
import Cerco.PoolLifetime
import Cerco.QueryString
import Cerco.ResponseHead
import Cerco.ByteMemory
import Cerco.ClientBody
import Cerco.ClientDigits
import Cerco.ClientReply
import Cerco.DomStream
import Cerco.ClientFetch
import Cerco.BumpRegions
import Cerco.ClientHeap
import Cerco.ClientEvents
import Cerco.RouteScan
import Cerco.TracedReads
import Cerco.IncrementalBuild
import Cerco.MemoryLimit
import Cerco.EscapeTable
import Cerco.HtmlEscape
import Cerco.WireCodec
import Cerco.SfPayload
import Cerco.FormFields
import Cerco.ClientMemory
import Cerco.PageCallbacks
import Cerco.FetchBodies
import Cerco.HydrateProps
import Cerco.RouteFiles
import Cerco.RouteOrder
import Cerco.RoutePatterns
import Cerco.BlockStream
import Cerco.Sha256
import Cerco.ArenaTurns
import Cerco.ArenaLimits
import Cerco.ArenaWords
import Cerco.RouteParams
import Cerco.ParamRoundTrip
import Cerco.WordRuns
import Cerco.ObjectNames
import Cerco.LayoutChains
import Cerco.ConnPool
import Cerco.CloseFlags
import Cerco.KeepAlive
import Cerco.TargetPath
import Cerco.AllowHeader
import Cerco.Callbacks
import Cerco.RejectCodes
import Cerco.Books
import Cerco.Verdicts
import Cerco.BookSteps
import Cerco.SentReplies
import Cerco.Gauges
import Cerco.LinkedChain
import Cerco.ConnList
import Cerco.DispatchOutcome
import Cerco.ShutdownDrain
import Cerco.PercentText
import Cerco.UrlDecode
import Cerco.TerminatedBuffers
import Cerco.UrlWalkers
import Cerco.Cookies
import Cerco.EnvConfig
import Cerco.ResponseBuffer
import Cerco.ByteSearch
import Cerco.PageEdits
import Cerco.PrintfText
import Cerco.FormatText
import Cerco.JsonText
import Cerco.JsonString
import Cerco.ConnMoves
import Cerco.HeaderFrames
import Cerco.HeaderLimits
import Cerco.HeadReports
import Cerco.SfIds
import Cerco.MemoryReads
import Cerco.ReplyFrames
import Cerco.BlockRuns
import Cerco.CommandBounds
import Cerco.SfBodyBounds
import Cerco.SfSlots
import Cerco.ClientScratch
import Cerco.StagedRequests
import Cerco.SignalBindings
import Cerco.ConnStages
import Cerco.StageDeadlines
import Cerco.PropsFields
import Cerco.ClientFormat
import Cerco.HeapBlocks
import Cerco.SymbolSearch
import Cerco.GeneratedSymbols
import Cerco.FileTree
import Cerco.StylesheetKey
import Cerco.AssetTables
import Cerco.MountScratch
import Cerco.NodeIds
import Cerco.SignedArith
import Cerco.ParseInt
import Cerco.PrintedDigits
import Cerco.StringBuffer
import Cerco.CompileErrors
import Cerco.WatchScan
import Cerco.ProjectFile
import Cerco.SpanConsumers
import Cerco.RequestDrafts
import Cerco.DraftCallbacks
import Cerco.ConnTalks
import Cerco.TalkRuns
import Cerco.ReplyTurns
