import PrefixMesh.Lib.Runs
import PrefixMesh.Lib.Synod
import PrefixMesh.Lib.Clockwise
import PrefixMesh.Lib.Intrusive
import PrefixMesh.Lib.Arena
import PrefixMesh.Lib.HashChain
import PrefixMesh.Lib.Recency
import PrefixMesh.Lib.Inclusion
import PrefixMesh.Lib.TokenBucket
import PrefixMesh.Lib.Decay
import PrefixMesh.Lib.Commuting
import PrefixMesh.Block
import PrefixMesh.Chain
import PrefixMesh.Paxos.Acceptor
import PrefixMesh.Paxos.Log
import PrefixMesh.Paxos.Learner
import PrefixMesh.Paxos.Node
import PrefixMesh.Paxos.Effect
import PrefixMesh.Paxos.Ballots
import PrefixMesh.Paxos.Votes
import PrefixMesh.Paxos.Agreement
import PrefixMesh.Paxos.Recorded
import PrefixMesh.Paxos.RunSlot
import PrefixMesh.Paxos.RealTime
import PrefixMesh.Paxos.OneSlot
import PrefixMesh.Paxos.Applied
import PrefixMesh.Paxos.Sent
import PrefixMesh.Paxos.Quiet
import PrefixMesh.Paxos.Attempt
import PrefixMesh.Paxos.Budget
import PrefixMesh.Paxos.GapFiller
import PrefixMesh.Directory.StateMachine
import PrefixMesh.Directory.Replicas
import PrefixMesh.Directory.Join
import PrefixMesh.Directory.Flags
import PrefixMesh.Directory.Watch
import PrefixMesh.Directory.Commuting
import PrefixMesh.Directory.Monitor
import PrefixMesh.Directory.Detect
import PrefixMesh.Hashring.Ring
import PrefixMesh.Hashring.Churn
import PrefixMesh.Hashring.Owners
import PrefixMesh.Ringwatch.Watcher
import PrefixMesh.Gateway.Put
import PrefixMesh.Gateway.Match
import PrefixMesh.Gateway.Exact
import PrefixMesh.Blockstore.Lru
import PrefixMesh.Blockstore.LruEntries
import PrefixMesh.Blockstore.Paged
import PrefixMesh.Blockstore.PagedLinked
import PrefixMesh.Blockstore.PagedMap
import PrefixMesh.Blockstore.PagedRuns
import PrefixMesh.Blockstore.PagedInvariant
import PrefixMesh.Blockstore.Admission
import PrefixMesh.Blockstore.Store
import PrefixMesh.Blockstore.Residents
import PrefixMesh.Blockstore.Outcome
import PrefixMesh.Blockstore.LastUse
import PrefixMesh.Blockstore.PagedOrder
import PrefixMesh.Blockstore.LruInvariant
import PrefixMesh.Blockstore.Statistics
import PrefixMesh.Blockstore.Baseline
import PrefixMesh.Blockstore.Inclusion
import PrefixMesh.Blockstore.Frecency
import PrefixMesh.Cachenode.Server
import PrefixMesh.Cachenode.Put
import PrefixMesh.Gateway.Stored
import PrefixMesh.Cachenode.Warmer
import PrefixMesh.Cachenode.Rate
import PrefixMesh.Cachenode.Cluster
import PrefixMesh.Cachenode.Warming
import PrefixMesh.Prefetch.Plan
import PrefixMesh.Prefetch.Replication
import PrefixMesh.Prefetch.Newest
import PrefixMesh.Prefetch.Access
import PrefixMesh.Prefetch.Demand
import PrefixMesh.Prefetch.Faded
import PrefixMesh.Events.Bus
import PrefixMesh.Cachenode.Agent
import PrefixMesh.Fleet.System
import PrefixMesh.Fleet.Rings
import PrefixMesh.Fleet.Agents
import PrefixMesh.Loadgen.Request
import PrefixMesh.Cachenode.Calls
import PrefixMesh.Mesh.System
import PrefixMesh.Mesh.Written
import PrefixMesh.Mesh.Accounts
import PrefixMesh.Mesh.Reuse
import PrefixMesh.Mesh.Refines
import PrefixMesh.Mesh.Pipeline
