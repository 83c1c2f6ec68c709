import MoshTcp.Lib.ByteOrder
import MoshTcp.Lib.StreamDecoder
import MoshTcp.Lib.Runs
import MoshTcp.Lib.Utf8Lossy
import MoshTcp.Lib.MarkedWords
import MoshTcp.Lib.Buffers
import MoshTcp.Lib.Tokens
import MoshTcp.Lib.Words
import MoshTcp.Lib.Numerals
import MoshTcp.Lib.Scanf
import MoshTcp.Lib.BitStreams
import MoshTcp.Lib.PrefixCodes
import MoshTcp.Lib.Memory
import MoshTcp.Protocol
import MoshTcp.PacketLayout
import MoshTcp.Codec
import MoshTcp.ClientReceive
import MoshTcp.ClientStream
import MoshTcp.NativeReceive
import MoshTcp.NativeFrame
import MoshTcp.NativeStream
import MoshTcp.NativeEncode
import MoshTcp.NativeGzip
import MoshTcp.Puff
import MoshTcp.Deflate
import MoshTcp.PuffReads
import MoshTcp.PuffTables
import MoshTcp.PuffCodes
import MoshTcp.PuffHeader
import MoshTcp.PuffBlocks
import MoshTcp.NativeInflate
import MoshTcp.Ansi
import MoshTcp.AnsiSplit
import MoshTcp.AnsiQueries
import MoshTcp.AnsiStream
import MoshTcp.AnsiRestrip
import MoshTcp.AltScreen
import MoshTcp.Emulator
import MoshTcp.Server
import MoshTcp.ServerSteps
import MoshTcp.ServerDelivery
import MoshTcp.ServerLimits
import MoshTcp.ServerRefresh
import MoshTcp.ServerFlood
import MoshTcp.ServerResume
import MoshTcp.ServerAltScreen
import MoshTcp.ServerInput
import MoshTcp.Lib.TokenBucket
import MoshTcp.ServerBandwidth
import MoshTcp.ServerProgress
import MoshTcp.ServerDrain
import MoshTcp.ServerAccounting
import MoshTcp.ServerRetry
import MoshTcp.ServerOptions
import MoshTcp.StartupLine
import MoshTcp.StartupScan
import MoshTcp.Launch
import MoshTcp.Predictive
import MoshTcp.PredictiveScreen
import MoshTcp.PredictiveState
import MoshTcp.PredictiveSuspension
import MoshTcp.PredictiveBatching
import MoshTcp.ClientInput
import MoshTcp.Link
import MoshTcp.LinkInput
import MoshTcp.LinkOutput
import MoshTcp.LinkDrain
import MoshTcp.LinkStop
import MoshTcp.NativeLoop
import MoshTcp.NativeAgreement
import MoshTcp.NativeLink
import MoshTcp.NativeLinkOutput
