import Unirc.FinalModeSound
import Unirc.Tokens
import Unirc.StampedJoin
import Unirc.ModeMerge
import Unirc.SjoinHeader
import Unirc.ChannelBurst
import Unirc.BurstRoundTrip
import Unirc.Match
import Unirc.Hostmask
import Unirc.ConfLookup
import Unirc.ChannelJoin
import Unirc.RemoteJoin
import Unirc.SjoinHandler
import Unirc.LocalJoin
import Unirc.Leaving
import Unirc.NickHost
import Unirc.ServerRun
import Unirc.SjoinConvergence
import Unirc.JoinSecrecy
import Unirc.BanCache
import Unirc.BanCacheRun
import Unirc.IpTable
import Unirc.Dbuf
import Unirc.Packet
import Unirc.Keyed
import Unirc.NameHash
import Unirc.UserHosts
import Unirc.Census
import Unirc.UserModes
import Unirc.Registration
import Unirc.CensusRun
import Unirc.UserHostRun
import Unirc.CloneLimits
import Unirc.UserCounts
import Unirc.ForwardJoin
import Unirc.ForwardBounds
import Unirc.GlineMask
import Unirc.GlineRelay
import Unirc.MemberBurst
import Unirc.Bmask
import Unirc.MemberRoundTrip
import Unirc.BurstMembers
import Unirc.ChannelPrivilege
import Unirc.Ipv6Prefix
import Unirc.Ipv6Mask
import Unirc.CsvFields
import Unirc.CsvWrite
import Unirc.MaskBounds
import Unirc.CsvLoad
import Unirc.CsvRemove
import Unirc.HostLists
import Unirc.Replicas
import Unirc.HostListSync
import Unirc.SpamsgRelay
import Unirc.ModeSend
import Unirc.ModeBuffers
import Unirc.UidLine
import Unirc.UidRoundTrip
import Unirc.ChannelView
import Unirc.SjoinView
import Unirc.SjoinLines
import Unirc.SjoinAgreement
import Unirc.Fanout
import Unirc.FanoutOnce
import Unirc.DnsAnswers
import Unirc.Resolver
import Unirc.ResolverRun
import Unirc.Auth
import Unirc.AuthRun
import Unirc.TopicAgreement
import Unirc.Departure
import Unirc.Network
import Unirc.RootedTree
import Unirc.NetworkTree
import Unirc.Netsplit
import Unirc.NetsplitRelay
import Unirc.GlobLoop
import Unirc.MaskLanguage
import Unirc.MatchEsc
import Unirc.Collapse
import Unirc.ModeLines
import Unirc.ModeStamps
import Unirc.ModeFraming
import Unirc.TopicRelay
import Unirc.Servlink
import Unirc.ServlinkHandover
import Unirc.ServlinkRoundTrip
import Unirc.MainLoop
import Unirc.MainLoopFiled
import Unirc.MainLoopExit
import Unirc.MainLoopDependents
import Unirc.MainLoopRound
import Unirc.MainLoopArrival
import Unirc.MainLoopRun
import Unirc.MainLoopSafe
import Unirc.FullCycle
import Unirc.UidGet
import Unirc.ChannelFlood
import Unirc.ParamArray
import Unirc.BlockHeap
import Unirc.HashTables
import Unirc.DoublyLinked
import Unirc.Whowas
import Unirc.MessageTree
import Unirc.Ipv4Mask
import Unirc.Inetntop
import Unirc.BanLists
import Unirc.SpamsgFilter
import Unirc.UmodeDiff
import Unirc.RepeatFilter
import Unirc.EventTable
import Unirc.ChannelList
import Unirc.Cloak
import Unirc.ClearGlines
import Unirc.TempBans
import Unirc.ConfCounts
import Unirc.ConfCountsRun
import Unirc.Invites
import Unirc.NickCollision
import Unirc.BuildOrder
import Unirc.ConnectBurst
import Unirc.ConnectBurstRun
import Unirc.MessageFlood
import Unirc.StripCodes
import Unirc.TkLine
import Unirc.ControlCodes
import Unirc.SlinkReply
import Unirc.SlinkReplyRun
import Unirc.ListPaths
import Unirc.Who
import Unirc.WhoRun
import Unirc.LinePacking
import Unirc.NamesFraming
import Unirc.CheckServer
import Unirc.ConnectChoice
import Unirc.Rehash
import Unirc.RehashRun
import Unirc.RehashKeeps
import Unirc.KeyCounts
import Unirc.CidrClass
import Unirc.CidrCounts
import Unirc.Base64
import Unirc.BinarySearch
import Unirc.CapScan
import Unirc.FileReads
import Unirc.CapReq
import Unirc.SprintfIrc
import Unirc.AcceptCommand
import Unirc.LazyLink
import Unirc.FloodLimit
import Unirc.Kill
import Unirc.SlinkData
import Unirc.SlinkDataRun
import Unirc.PollTable
import Unirc.PollTableRun
import Unirc.SendQueue
import Unirc.CleanString
import Unirc.LastZero
import Unirc.Fuel
import Unirc.TimeoutSweep
import Unirc.TimeoutSweepRun
import Unirc.SjoinVerdict
import Unirc.SjoinRelayRead
import Unirc.ModeRecords
import Unirc.Encap
