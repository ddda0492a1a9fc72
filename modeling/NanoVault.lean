import NanoVault.Lib.Machine
import NanoVault.BinanceSync.HandOver
import NanoVault.MarketData.DepthFrame
import NanoVault.MarketData.DeltaFeed
import NanoVault.Book.PriceTime
import NanoVault.Book.Invariant
import NanoVault.Book.Resting
import NanoVault.Book.Termination
import NanoVault.Book.Conservation
import NanoVault.Book.Quotes
import NanoVault.Lib.LinkedQueue
import NanoVault.Table.Atomicity
import NanoVault.Table.Crash
import NanoVault.Table.Reload
import NanoVault.Table.Consistency
import NanoVault.Hft.BatchWriter
import NanoVault.Sql.Splitting
import NanoVault.Table.Recovery
import NanoVault.Table.IndexScan
import NanoVault.Catalog.Dropped
import NanoVault.Catalog.Callbacks
import NanoVault.Hft.Retry
import NanoVault.Hft.Packets
import NanoVault.Book.FailedModify
import NanoVault.Table.Deletion
import NanoVault.Memory.Store
import NanoVault.Hft.PacketQueue
import NanoVault.Catalog.Clients
import NanoVault.Catalog.Bounds
import NanoVault.Sql.Precedence
import NanoVault.Table.Constraints
import NanoVault.Table.RoundTrip
import NanoVault.Table.Updates
import NanoVault.Sql.Framing
import NanoVault.Hft.SingleProducer
import NanoVault.Table.Comparison
import NanoVault.Sql.Printing
import NanoVault.Sql.Literals
import NanoVault.Index.WellFormed
import NanoVault.Index.Threads
import NanoVault.Book.Simd
import NanoVault.Book.Allocation
import NanoVault.Book.Sums
import NanoVault.Book.Market
import NanoVault.MarketData.BinanceReads
import NanoVault.Table.Locks
import NanoVault.Utils.WorkStealingSteps
import NanoVault.Utils.MpmcQueueSteps
import NanoVault.Json.Truncation
import NanoVault.Table.Output
import NanoVault.Sql.SelectList
import NanoVault.Hft.MovingAverage
import NanoVault.Hft.Imbalance
import NanoVault.Hft.Datagrams
import NanoVault.Hft.Cadence
import NanoVault.Hft.WriteErrors
import NanoVault.Table.IndexNodes
import NanoVault.Table.Relation
import NanoVault.Catalog.Databases
import NanoVault.Utils.ThreadPoolRuns
import NanoVault.Sql.StatementRoundTrip
import NanoVault.MarketData.Dispatcher
import NanoVault.BinanceSync.Execute
import NanoVault.Sql.Connection
import NanoVault.Hft.Signals
