import Groupcache.Lib.HashRing
import Groupcache.Lib.VirtualNodes
import Groupcache.Lib.Transition
import Groupcache.Lib.Simulation
import Groupcache.Lib.Descent
import Groupcache.Lib.Table
import Groupcache.Peer
import Groupcache.Routing
import Groupcache.Topology.Calls
import Groupcache.Topology.Serial
import Groupcache.Concrete
import Groupcache.Topology.Overlap
import Groupcache.Topology.Known
import Groupcache.Topology.Serializable
import Groupcache.Topology.Alone
import Groupcache.Cluster.State
import Groupcache.Cluster.Step
import Groupcache.Cluster.Invariant
import Groupcache.Cluster.Provenance
import Groupcache.Cluster.OwnLoads
import Groupcache.Cluster.Forwarding
import Groupcache.Cluster.Invalidation
import Groupcache.Cluster.SingleLoad
import Groupcache.Cluster.Freshness
import Groupcache.Cluster.Operations
import Groupcache.Addresses
import Groupcache.Topology.SetPeers
import Groupcache.Topology.Discovery
import Groupcache.Topology.Members
import Groupcache.Topology.Ownership
import Groupcache.Topology.Process
import Groupcache.Topology.Turns
import Groupcache.Cluster.Sharing
import Groupcache.Cluster.Accounting
import Groupcache.Cluster.Fallback
import Groupcache.Cluster.RemovePath
import Groupcache.Cluster.Outcomes
import Groupcache.Cluster.Service
import Groupcache.Cluster.Weights
import Groupcache.Cluster.Draining
import Groupcache.Cluster.Demand
import Groupcache.Cluster.Sharding
import Groupcache.Cluster.Losses
import Groupcache.Cluster.Traffic
import Groupcache.Cluster.Staleness
import Groupcache.Cluster.Expiry
import Groupcache.Cluster.Deployment
import Groupcache.Cluster.Convergence
import Groupcache.Cluster.Kubernetes
import Groupcache.Cluster.Monotonic
