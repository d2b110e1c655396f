import Hcpp.Lib.AtomicCell
import Hcpp.Lib.Base64Url
import Hcpp.Lib.Border
import Hcpp.Lib.DomainName
import Hcpp.Lib.Feed
import Hcpp.Lib.OrderedMap
import Hcpp.Lib.Pattern
import Hcpp.Lib.QueueLock
import Hcpp.Lib.Regex
import Hcpp.Lib.Reorder
import Hcpp.Lib.Runs
import Hcpp.Lib.Search
import Hcpp.Mem.BlockBuffer
import Hcpp.Mem.BufferRuns
import Hcpp.Mem.CountedTransfer
import Hcpp.Mem.FailureTable
import Hcpp.Mem.Fueled
import Hcpp.Mem.Kmp
import Hcpp.Mem.KmpSearch
import Hcpp.Mem.KmpStream
import Hcpp.Mem.Memory
import Hcpp.Mem.Sound
import Hcpp.Mem.Transfer
import Hcpp.Mem.TransferEnds
import Hcpp.Mem.TransferSpec
import Hcpp.Mem.UntilExact
import Hcpp.Mem.Writes
import Hcpp.Http.BodyMode
import Hcpp.Http.ChunkEnds
import Hcpp.Http.ChunkSize
import Hcpp.Http.ChunkThrows
import Hcpp.Http.ChunkedBody
import Hcpp.Http.ContentLength
import Hcpp.Http.HeaderBlock
import Hcpp.Http.HeaderFields
import Hcpp.Http.HeaderGrammar
import Hcpp.Http.HeaderTable
import Hcpp.Http.HeaderTotal
import Hcpp.Http.HttpClient
import Hcpp.Http.HttpMsg
import Hcpp.Http.HttpSvcKeeper
import Hcpp.Http.LineGrammar
import Hcpp.Http.LineParts
import Hcpp.Http.LineSafety
import Hcpp.Http.Numbers
import Hcpp.Http.PoolExclusive
import Hcpp.Http.PoolOrder
import Hcpp.Http.PoolProgress
import Hcpp.Http.RequestHead
import Hcpp.Http.RequestLine
import Hcpp.Http.ResponseHead
import Hcpp.Http.SvcCache
import Hcpp.Http.TransferChunk
import Hcpp.Server.AcceptHead
import Hcpp.Server.CaFiles
import Hcpp.Server.ClientFraming
import Hcpp.Server.ConnectionClose
import Hcpp.Server.Exchange
import Hcpp.Server.HttpDo
import Hcpp.Server.HttpDoSteps
import Hcpp.Server.Intercept
import Hcpp.Server.KeepAlive
import Hcpp.Server.MitmServer
import Hcpp.Server.MitmSteps
import Hcpp.Server.MitmHandoff
import Hcpp.Server.MitmIdentity
import Hcpp.Server.NamedServer
import Hcpp.Server.OneResponse
import Hcpp.Server.PassEnds
import Hcpp.Server.ProxyService
import Hcpp.Server.RelayBody
import Hcpp.Server.RelayLoops
import Hcpp.Server.RequestRewrite
import Hcpp.Server.ResponseMode
import Hcpp.Server.RuleSelection
import Hcpp.Server.SessionSound
import Hcpp.Server.WildcardRules
import Hcpp.Tunnel.ReplyFirst
import Hcpp.Tunnel.SocketTunnel
import Hcpp.Tunnel.Transparency
import Hcpp.Tunnel.WindDown
import Hcpp.Dns.AcceptsAnswer
import Hcpp.Dns.AnyReply
import Hcpp.Dns.Base64
import Hcpp.Dns.CacheCell
import Hcpp.Dns.ChunkedReply
import Hcpp.Dns.CnameChain
import Hcpp.Dns.DnsHttps
import Hcpp.Dns.DohAnswers
import Hcpp.Dns.DohResolve
import Hcpp.Dns.EchoedQuestion
import Hcpp.Dns.EncodeQname
import Hcpp.Dns.FailedResolve
import Hcpp.Dns.GetReply
import Hcpp.Dns.HostMapping
import Hcpp.Dns.Message
import Hcpp.Dns.NameDecoding
import Hcpp.Dns.NameRoundTrip
import Hcpp.Dns.ParseRecords
import Hcpp.Dns.ParseSafety
import Hcpp.Dns.Qname
import Hcpp.Dns.QnameTurns
import Hcpp.Dns.QueryForm
import Hcpp.Dns.RecordTurns
import Hcpp.Dns.RejectedReply
import Hcpp.Dns.ResolveRuns
import Hcpp.Dns.SingleFlight
import Hcpp.Dns.SlowDns
import Hcpp.Dns.SlowDnsSteps
