import Yans.Util.IdtblReserved
import Yans.Util.DeduptblFile
import Yans.Util.NetstringMap
import Yans.Util.NetstringGrammar
import Yans.Util.NetstringRetry
import Yans.Util.NalphaverOrder
import Yans.Util.EdsChildren
import Yans.Vulnspec.History
import Yans.Net.FcgiRequests
import Yans.Net.FcgiBounds
import Yans.Net.PunycodeLabels
import Yans.Net.PunycodeDots
import Yans.Net.UrlPath
import Yans.Net.PortPrefix
import Yans.Net.PortReads
import Yans.Net.PortReorder
import Yans.Net.IpArithmetic
import Yans.Net.IpTokens
import Yans.Net.IpReorder
import Yans.Net.DstsEnumeration
import Yans.Net.ReaplanTicks
import Yans.Apps.BgrabBanners
import Yans.Apps.DedupLines
import Yans.Match.ComponentRegistry
import Yans.Apps.ServiceIds
import Yans.Apps.KnegdResponses
import Yans.Apps.Sc2Kills
import Yans.Net.DnstresRuns
import Yans.Apps.ResolverFds
import Yans.Apps.Fc2Path
import Yans.Apps.Fc2
import Yans.Vulnspec.Loads
import Yans.Vulnspec.EarlyExit
import Yans.Vulnspec.Numbers
import Yans.Apps.Webfetch
import Yans.Apps.Yapi
import Yans.Apps.Reports
import Yans.Match.Tcpproto
import Yans.Util.Writev
import Yans.Util.Sindex
import Yans.Util.EdsReaped
import Yans.Util.LineDelivery
import Yans.Apps.KnegdSignals
import Yans.Net.ReaplanAssertions
import Yans.Net.UrlMerge
import Yans.Alloc.Linvar
import Yans.Apps.KnegdLinks
import Yans.Apps.StoredAnswers
import Yans.Ycl.Conversation
