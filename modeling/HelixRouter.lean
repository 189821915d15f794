import HelixRouter.AdaptiveBreaker.AdaptiveCircuitBreaker
import HelixRouter.Admission.Gate
import HelixRouter.Balancing.ConsistentHash
import HelixRouter.Bandits.BanditRouter
import HelixRouter.Bulkhead.Gauges
import HelixRouter.Bulkhead.Services
import HelixRouter.Canary.CanaryRouter
import HelixRouter.CanaryControl.Finality
import HelixRouter.CanaryDeploys.Ticking
import HelixRouter.Catalog.Finding
import HelixRouter.Catalog.WeightedPicks
import HelixRouter.CircuitMesh.Cascade
import HelixRouter.CircuitMesh.Evidence
import HelixRouter.CircuitRegistry.LockUp
import HelixRouter.CircuitRegistry.Registry
import HelixRouter.Coalescing.SingleFlight
import HelixRouter.Coalescing.Stranding
import HelixRouter.Compression.Indexing
import HelixRouter.Configuration.Patterns
import HelixRouter.Configuration.Validation
import HelixRouter.Configuration.VersionStream
import HelixRouter.Connections.ConnectionPool
import HelixRouter.Containers.Broadcast
import HelixRouter.Containers.Oldest
import HelixRouter.CostRouting.CostRouter
import HelixRouter.CostRouting.Spending
import HelixRouter.Dag.Dependencies
import HelixRouter.Deadlines.DeadlineScheduler
import HelixRouter.Dedup.JobDeduplicator
import HelixRouter.Deduplication.Orphans
import HelixRouter.Deduplication.SingleExecution
import HelixRouter.Discovery.WeightedWindows
import HelixRouter.Distributed.LeaderElection
import HelixRouter.Failover.FailoverGroup
import HelixRouter.FairQueue.Fairness
import HelixRouter.FairQueue.Termination
import HelixRouter.Flow.FlowController
import HelixRouter.Gateway.Authorisation
import HelixRouter.Gateway.Counting
import HelixRouter.Gateway.Throttle
import HelixRouter.HealthChecks.HealthCheckRunner
import HelixRouter.HealthChecks.History
import HelixRouter.Interleaving.History
import HelixRouter.Interleaving.Ledger
import HelixRouter.Interleaving.Sequential
import HelixRouter.Inversions.Escalation
import HelixRouter.JobRetries.RetryManager
import HelixRouter.LoadShedding.LoadShedder
import HelixRouter.Logging.RequestLogger
import HelixRouter.Mesh.ServiceMesh
import HelixRouter.Metrics.LatencyAgg
import HelixRouter.Mirroring.TrafficMirror
import HelixRouter.Negotiation.Encodings
import HelixRouter.Neural.NeuralRouter
import HelixRouter.Peers.Membership
import HelixRouter.Peers.PeerRegistry
import HelixRouter.Prioritizing.RoundRobin
import HelixRouter.Prioritizing.WeightedFair
import HelixRouter.PriorityBalancing.PriorityLoadBalancer
import HelixRouter.PriorityBalancing.TagIndex
import HelixRouter.Protocols.Envelopes
import HelixRouter.Protocols.Responses
import HelixRouter.RateLimiting.RateLimiterV2
import HelixRouter.RequestCoalescing.Generations
import HelixRouter.RequestSigning.Replay
import HelixRouter.RequestSigning.Signer
import HelixRouter.RequestValidation.Exactness
import HelixRouter.RequestValidation.Routes
import HelixRouter.Reservations.ReservationManager
import HelixRouter.ResponseCaching.Invalidation
import HelixRouter.ResponseCaching.Sweeps
import HelixRouter.RetryExecution.RetryExecutor
import HelixRouter.Retrying.RetryMiddleware
import HelixRouter.RouteLimits.RateLimiter
import HelixRouter.Router.Accounting
import HelixRouter.Router.Adaptation
import HelixRouter.Router.Affinity
import HelixRouter.Router.BatchOrder
import HelixRouter.Router.Batches
import HelixRouter.Router.BoundedLru
import HelixRouter.Router.Collisions
import HelixRouter.Router.Containment
import HelixRouter.Router.CpuPool
import HelixRouter.Router.LiveConfig
import HelixRouter.Router.Permits
import HelixRouter.Router.PrimeCount
import HelixRouter.Router.Recommendations
import HelixRouter.Router.RoutingLog
import HelixRouter.Router.Snapshot
import HelixRouter.Router.Stranded
import HelixRouter.Router.Threshold
import HelixRouter.Router.Trend
import HelixRouter.Runs.Debounce
import HelixRouter.Scaling.PredictiveAutoscaler
import HelixRouter.Services.CriticalPath
import HelixRouter.Services.Propagation
import HelixRouter.Services.Recovery
import HelixRouter.Shaping.TrafficShaper
import HelixRouter.Sla.SlaQueue
import HelixRouter.SlidingWindows.SlidingRateLimiter
import HelixRouter.SlidingWindows.SlidingWindowCounter
import HelixRouter.Streams.Delivery
import HelixRouter.Streams.StreamRouter
import HelixRouter.Tls.TlsTerminator
import HelixRouter.Tracing.TraceStore
import HelixRouter.Transforming.RequestTransformer
import HelixRouter.WebSockets.Books
import HelixRouter.WebSockets.WsProxy
