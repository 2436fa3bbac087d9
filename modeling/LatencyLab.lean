import LatencyLab.Keyed.KeyedList
import LatencyLab.Book.Levels
import LatencyLab.Book.OrderBook
import LatencyLab.Book.Reference
import LatencyLab.Book.SideLists
import LatencyLab.Book.Refinement
import LatencyLab.Book.PublicView
import LatencyLab.Book.Liquidity
import LatencyLab.Pool.ObjectPool
import LatencyLab.Pool.PooledOrderBook
import LatencyLab.Pool.PooledRefinement
import LatencyLab.Pool.Accounting
import LatencyLab.Pool.Aggregates
import LatencyLab.Pool.Agreement
import LatencyLab.Cyclic.Window
import LatencyLab.Spsc.RingBuffer
import LatencyLab.Spsc.Channel
import LatencyLab.Spsc.Pipeline
import LatencyLab.Spsc.Shutdown
import LatencyLab.Bytes.Layout
import LatencyLab.Market.Wire
import LatencyLab.Feed.Consumer
import LatencyLab.Feed.Tcp
import LatencyLab.Feed.Framing
import LatencyLab.Feed.Udp
import LatencyLab.Feed.Abandoned
import LatencyLab.Book.Streams
import LatencyLab.Book.Overflow
import LatencyLab.Market.GeneratedFeed
import LatencyLab.Book.ExactArithmetic
import LatencyLab.Book.WarmUp
import LatencyLab.Pool.GeneratedRuns
import LatencyLab.Transition.Draining
import LatencyLab.Book.Fills
import LatencyLab.Pool.PooledFills
import LatencyLab.Monitor.Threads
import LatencyLab.Mutex.BoundedQueue
import LatencyLab.Mutex.Fifo
import LatencyLab.Mutex.WakeUps
import LatencyLab.Mutex.Calls
import LatencyLab.Mutex.Pipeline
import LatencyLab.Mutex.Drain
import LatencyLab.Latency.Journal
import LatencyLab.Latency.SpscRelay
import LatencyLab.Latency.MutexRelay
import LatencyLab.Latency.Pipelines
import LatencyLab.Spsc.Sequential
import LatencyLab.Book.AllocationFailure
import LatencyLab.Feed.Datagrams
import LatencyLab.Spsc.Bounds
import LatencyLab.Pool.AllocationFailure
import LatencyLab.Pool.Lifetimes
import LatencyLab.Pool.LiveObjects
import LatencyLab.Metrics.LatencyRecorder
import LatencyLab.Metrics.Percentiles
import LatencyLab.Market.Sides
import LatencyLab.Book.Batching
import LatencyLab.Mutex.Progress
import LatencyLab.Mutex.Termination
import LatencyLab.Spsc.Termination
import LatencyLab.Feed.TcpTermination
import LatencyLab.Feed.Ledger
import LatencyLab.Pool.Capacity
import LatencyLab.Book.Snapshot
import LatencyLab.Book.Symmetry
import LatencyLab.Benchmarks
import LatencyLab.Feed.UdpTermination
import LatencyLab.Market.Seeds
import LatencyLab.Numeric.OrderStatistics
import LatencyLab.Metrics.Quantiles
import LatencyLab.Market.Decoding
import LatencyLab.Feed.Payloads
import LatencyLab.Memory.HappensBefore
import LatencyLab.Spsc.MemoryOrders
import LatencyLab.Spsc.SharedPipeline
import LatencyLab.Book.Reachable
import LatencyLab.Book.Observation
import LatencyLab.Spsc.Linearizable
import LatencyLab.Book.Conservation
