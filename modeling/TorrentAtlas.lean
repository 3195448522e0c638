import TorrentAtlas.Library.OrderedMap
import TorrentAtlas.Library.Delimited
import TorrentAtlas.Library.Blocks
import TorrentAtlas.Library.Machine
import TorrentAtlas.Library.Ranking
import TorrentAtlas.Library.Projection
import TorrentAtlas.Library.Conversation
import TorrentAtlas.Library.Agreement
import TorrentAtlas.Library.FrontCodec
import TorrentAtlas.Library.StableSort
import TorrentAtlas.Library.RoundRobin
import TorrentAtlas.Library.WorkQueue
import TorrentAtlas.Bytes
import TorrentAtlas.Encoding
import TorrentAtlas.SplitJoin
import TorrentAtlas.FileMetadata
import TorrentAtlas.PieceIntervals
import TorrentAtlas.Endpoint
import TorrentAtlas.EndpointGrammar
import TorrentAtlas.Crypto
import TorrentAtlas.PeerTicket
import TorrentAtlas.TrackerState
import TorrentAtlas.TrackerEffect
import TorrentAtlas.InPlace
import TorrentAtlas.TrackerInvariant
import TorrentAtlas.TrackerMembership
import TorrentAtlas.TrackerClient
import TorrentAtlas.TrackerWire
import TorrentAtlas.TrackerLog
import TorrentAtlas.PieceFile
import TorrentAtlas.PieceRoundTrip
import TorrentAtlas.Framing
import TorrentAtlas.CommandLine
import TorrentAtlas.Quoting
import TorrentAtlas.SharedFiles
import TorrentAtlas.PeerProtocol
import TorrentAtlas.PeerServer
import TorrentAtlas.Revocation
import TorrentAtlas.TicketCodec
import TorrentAtlas.Accounts
import TorrentAtlas.Isolation
import TorrentAtlas.Noninterference
import TorrentAtlas.Locate
import TorrentAtlas.Contents
import TorrentAtlas.EndToEnd
import TorrentAtlas.CommandFidelity
import TorrentAtlas.SecureChannel
import TorrentAtlas.Connections
import TorrentAtlas.Handshake
import TorrentAtlas.AtMostOnce
import TorrentAtlas.SealedDelivery
import TorrentAtlas.ReplyBinding
import TorrentAtlas.Sessions
import TorrentAtlas.Download
import TorrentAtlas.Termination
import TorrentAtlas.Delivery
import TorrentAtlas.TcpServer
import TorrentAtlas.Shutdown
import TorrentAtlas.HashSpelling
import TorrentAtlas.FileSystem
import TorrentAtlas.Client
import TorrentAtlas.DownloadProgress
import TorrentAtlas.PieceSlots
import TorrentAtlas.Ownership
import TorrentAtlas.RarestFirst
import TorrentAtlas.Retry
import TorrentAtlas.WorkerPool
import TorrentAtlas.Withdrawal
import TorrentAtlas.Renewal
import TorrentAtlas.Resume
import TorrentAtlas.Availability
import TorrentAtlas.FrameCap
import TorrentAtlas.TrackerCalls
import TorrentAtlas.Transport
import TorrentAtlas.Conversation
import TorrentAtlas.PeerTransfer
import TorrentAtlas.Swarm
import TorrentAtlas.Library.Monitor
import TorrentAtlas.TrackerThreads
import TorrentAtlas.Summary
