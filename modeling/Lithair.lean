import Lithair.App.FollowerOrder
import Lithair.App.GuardScope
import Lithair.App.Migrations
import Lithair.App.ModelRouting
import Lithair.App.NodeProgress
import Lithair.App.ReplicatedIndex
import Lithair.App.Restart
import Lithair.App.SessionExpiry
import Lithair.App.UpdateMerge
import Lithair.App.WriteGate
import Lithair.Cache.Lru
import Lithair.Cluster.FollowerHealth
import Lithair.Cluster.GroupCommit
import Lithair.Cluster.LeadershipStores
import Lithair.Cluster.LogHistory
import Lithair.Cluster.SnapshotStore
import Lithair.Cluster.WalIndex
import Lithair.Consensus.Atomicity
import Lithair.Consensus.Delivery
import Lithair.Derive.DeclaredKeys
import Lithair.Derive.FirewallAttributes
import Lithair.Engine.AggregateIndex
import Lithair.Engine.ApplyEvent
import Lithair.Engine.Backends
import Lithair.Engine.BatchRetry
import Lithair.Engine.BinaryMode
import Lithair.Engine.ChainAccounting
import Lithair.Engine.Compaction
import Lithair.Engine.FallibleWriter
import Lithair.Engine.HashInput
import Lithair.Engine.LockFreeEngine
import Lithair.Engine.SnapshotFile
import Lithair.Engine.SnapshotRecovery
import Lithair.Engine.Truncation
import Lithair.Http.AccessLogBuffer
import Lithair.Http.FilterConsistency
import Lithair.Http.Pagination
import Lithair.Http.RateLimits
import Lithair.Http.Sse
import Lithair.Logging.Rotation
import Lithair.Mfa.Login
import Lithair.Mfa.Migration
import Lithair.Mfa.Secrets
import Lithair.Patterns.Matcher
import Lithair.Proxy.Filtering
import Lithair.Rbac.Enforcement
import Lithair.Schema.History
import Lithair.Schema.LifeCycle
import Lithair.Schema.Lock
import Lithair.Schema.Proposals
import Lithair.Schema.Votes
import Lithair.Security.AntiDdos
import Lithair.Security.CircuitBreaker
import Lithair.Security.Middleware
import Lithair.Serialization.RunLength
import Lithair.Session.Logout
import Lithair.Session.SetSession
