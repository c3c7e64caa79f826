import DingoCache.Slab.Admission
import DingoCache.Slab.FlatKeyIndex
import DingoCache.Slab.Pins
import DingoCache.Store.Latch
import DingoCache.Group.Slab
import DingoCache.Node.Coalescer
import DingoCache.HiCache.Prefix
import DingoCache.Vllm.Keys
import DingoCache.Vllm.Protocol
import DingoCache.Vllm.Stripe
import DingoCache.Vllm.Descriptors
import DingoCache.Transport.RailPolicy
import DingoCache.Transport.RemoteRailHealth
import DingoCache.Transport.RecvSegmentRuns
import DingoCache.Rdma.Frames
import DingoCache.Rdma.Put
import DingoCache.Rdma.Safety
import DingoCache.Mds.Keys
import DingoCache.Mds.Leases
import DingoCache.Client.ConHash
import DingoCache.Client.Epochs
import DingoCache.Client.PeerHealth
import DingoCache.Client.Topologies
import DingoCache.Client.Retain
