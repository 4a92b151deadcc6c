import PerformanceHelpers.FrameDecoder.Failures
import PerformanceHelpers.Histogram.Quantiles
import PerformanceHelpers.Histogram.Ranks
import PerformanceHelpers.HyperLogLog
import PerformanceHelpers.PermitGate.Waiters
import PerformanceHelpers.PowerBroadcastBus
import PerformanceHelpers.PowerBulkhead
import PerformanceHelpers.PowerCache.LruRuns
import PerformanceHelpers.PowerCache.Expiry
import PerformanceHelpers.PowerCache.Invalidation
import PerformanceHelpers.PowerCache.Walks
import PerformanceHelpers.PowerCache.Sieve
import PerformanceHelpers.PowerCache.Admission
import PerformanceHelpers.PowerCache.Bulk
import PerformanceHelpers.PowerCache.Segments
import PerformanceHelpers.PowerPool.Inbound
import PerformanceHelpers.PowerPool.Batch
import PerformanceHelpers.PowerPool.EncodeCache
import PerformanceHelpers.PowerPool.Lateness
import PerformanceHelpers.PowerPool.Drain
import PerformanceHelpers.PowerPool.Order
import PerformanceHelpers.PowerPool.Busy
import PerformanceHelpers.PowerPool.Counting
import PerformanceHelpers.PowerPool.Targeting
import PerformanceHelpers.RateLimit.Conjunction
import PerformanceHelpers.RealtimeHub.Draining
import PerformanceHelpers.RealtimeHub.Disconnects
import PerformanceHelpers.Sequencer.Gaps
import PerformanceHelpers.SmallLfu
import PerformanceHelpers.PowerTTLMap.Callbacks
import PerformanceHelpers.PowerCron.OnTime
import PerformanceHelpers.PowerCron.Accounts
import PerformanceHelpers.PowerDatagramChannel.Counters
import PerformanceHelpers.PowerRetry.Hedging
import PerformanceHelpers.PowerCircuit
import PerformanceHelpers.PowerDeadline
import PerformanceHelpers.PowerDeduplication
import PerformanceHelpers.PowerSocketAdapter.Drain
import PerformanceHelpers.PowerObserver
import PerformanceHelpers.PowerObserver.Derived
import PerformanceHelpers.PowerBatch
import PerformanceHelpers.PowerWebSocketClient.Connection
import PerformanceHelpers.PowerWebSocketClient.Inbound
import PerformanceHelpers.PowerWebSocketClient.Settlement
import PerformanceHelpers.PowerServo.ZeroLength
import PerformanceHelpers.PowerEventBus.Wildcards
import PerformanceHelpers.PowerFlowControl
import PerformanceHelpers.PowerFlowController
import PerformanceHelpers.PowerMemoizer
import PerformanceHelpers.PowerTaskGroup
