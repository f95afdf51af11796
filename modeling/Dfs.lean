import Dfs.Client.Client
import Dfs.Dht.Membership
import Dfs.Dht.Placement
import Dfs.Storage.StorageNode
import Dfs.Client.PutLine
import Dfs.Client.Download
import Dfs.Client.Fallback
import Dfs.Client.Transfer
import Dfs.Client.Upload
import Dfs.Library.Linearization
import Dfs.Library.Transition
import Dfs.Metadata.Chain
import Dfs.Metadata.FailureFree
import Dfs.Metadata.Linearizable
import Dfs.Metadata.PutOutcome
import Dfs.Metadata.Agreement
import Dfs.Cluster.Model
import Dfs.Network.Sockets
import Dfs.Network.Registry
import Dfs.Client.VerifyFiles
import Dfs.Common.Chunking
import Dfs.Common.Sha256Standard
import Dfs.Common.DeviceErrors
import Dfs.Client.Truncation
import Dfs.Common.NodeConfig
import Dfs.Metadata.Startup
import Dfs.Storage.Linearizable
import Dfs.Client.Requests
import Dfs.Metadata.Reconfiguration
import Dfs.Metadata.Acknowledged
import Dfs.Metadata.Extension
import Dfs.Metadata.OneChain
import Dfs.Metadata.HealthCheck
import Dfs.Metadata.Survival
import Dfs.Cluster.Steps
import Dfs.Cluster.Jobs
import Dfs.Cluster.Invariants
import Dfs.Cluster.Stocks
import Dfs.Cluster.NoDangling
import Dfs.Dht.HashRange
import Dfs.Dht.Selection
import Dfs.Dht.Load
import Dfs.Library.Fips180
import Dfs.Client.StoredRecord
import Dfs.Cluster.Calm
import Dfs.Cluster.RoundTrip
import Dfs.Cluster.Downloads
import Dfs.Cluster.Soundness
import Dfs.Cluster.Progress
import Dfs.Cluster.Completion
import Dfs.Network.TcpClient
import Dfs.Network.AcceptLoop
import Dfs.Network.Receiving
import Dfs.Dht.Overlap
import Dfs.Metadata.Progress
import Dfs.Metadata.EndCrashes
