import ComputerNetworks.Library.Runs
import ComputerNetworks.Library.CStrings
import ComputerNetworks.Library.ConsistentHash
import ComputerNetworks.Library.TokenRing
import ComputerNetworks.Library.Segmentation
import ComputerNetworks.Library.KeyedJoin
import ComputerNetworks.Library.ShellCommand
import ComputerNetworks.Library.WordMixing
import ComputerNetworks.Library.Headers
import ComputerNetworks.PeerRing.Placement
import ComputerNetworks.PeerRing.Peer
import ComputerNetworks.PeerRing.SearchNetwork
import ComputerNetworks.PeerRing.Replies
import ComputerNetworks.PeerRing.Startup
import ComputerNetworks.PeerRing.Dispatch
import ComputerNetworks.PeerRing.SearchChain
import ComputerNetworks.PeerRing.ReceiveLoop
import ComputerNetworks.PeerRing.Registration
import ComputerNetworks.PeerRing.RingLinks
import ComputerNetworks.PeerRing.CommandLines
import ComputerNetworks.PeerRing.Identifiers
import ComputerNetworks.PeerRing.SearchOutcome
import ComputerNetworks.PeerRing.ServiceNetwork
import ComputerNetworks.PeerRing.ServiceSockets
import ComputerNetworks.PeerRing.Prompt
import ComputerNetworks.PeerRing.CutReplies
import ComputerNetworks.PeerRing.Deployment
import ComputerNetworks.PeerRing.Launch
import ComputerNetworks.PeerRing.Joining
import ComputerNetworks.LabServer.Response
import ComputerNetworks.LabServer.SelectLoop
import ComputerNetworks.LabServer.GetFile
import ComputerNetworks.LabServer.EndOfTransfer
import ComputerNetworks.LabServer.Descriptors
import ComputerNetworks.LabServer.Progress
import ComputerNetworks.LabServer.Checksum
import ComputerNetworks.LabServer.Passes
import ComputerNetworks.FileTransfer.Sharing
import ComputerNetworks.FileTransfer.Download
import ComputerNetworks.FileTransfer.Transfer
import ComputerNetworks.FileTransfer.Requests
import ComputerNetworks.FileTransfer.SharedFiles
import ComputerNetworks.FileTransfer.ForkingServer
import ComputerNetworks.FileTransfer.Connections
import ComputerNetworks.FileTransfer.Downloads
import ComputerNetworks.LabServer.ForkedServer
import ComputerNetworks.TraceAnalysis.Figures
import ComputerNetworks.TraceAnalysis.Matching
import ComputerNetworks.TraceAnalysis.MoreData
import ComputerNetworks.TraceAnalysis.Evaluation
import ComputerNetworks.CsmaDevice.Transmitter
import ComputerNetworks.CsmaDevice.Progress
import ComputerNetworks.CsmaDevice.Retries
import ComputerNetworks.CsmaDevice.Window
import ComputerNetworks.CsmaDevice.Frames
import ComputerNetworks.CsmaDevice.Medium
import ComputerNetworks.CsmaDevice.Lan
import ComputerNetworks.CsmaDevice.Quiescence
