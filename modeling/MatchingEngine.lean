import MatchingEngine.Backtest.Accounting
import MatchingEngine.Backtest.CancelTicks
import MatchingEngine.Backtest.Counting
import MatchingEngine.Backtest.Csv
import MatchingEngine.Backtest.Exposure
import MatchingEngine.Backtest.Generator
import MatchingEngine.Backtest.Lifting
import MatchingEngine.Backtest.Moves
import MatchingEngine.Backtest.Observers
import MatchingEngine.Backtest.Portfolio
import MatchingEngine.Backtest.Replay
import MatchingEngine.Backtest.Routing
import MatchingEngine.Backtest.Snapshot
import MatchingEngine.Backtest.Stability
import MatchingEngine.Backtest.TickFile
import MatchingEngine.Book.Abstract
import MatchingEngine.Book.Cancelling
import MatchingEngine.Book.Capacity
import MatchingEngine.Book.Engine
import MatchingEngine.Book.Executions
import MatchingEngine.Book.Fairness
import MatchingEngine.Book.History
import MatchingEngine.Book.Invariants
import MatchingEngine.Book.Laws
import MatchingEngine.Book.Ledger
import MatchingEngine.Book.Lifetime
import MatchingEngine.Book.Mirror
import MatchingEngine.Book.OpenOrders
import MatchingEngine.Book.OrderBook
import MatchingEngine.Book.Pointers
import MatchingEngine.Book.Pool
import MatchingEngine.Book.Priority
import MatchingEngine.Book.QueueInvariants
import MatchingEngine.Book.Queues
import MatchingEngine.Book.Refinement
import MatchingEngine.Book.TopOfBook
import MatchingEngine.Core.Drivers
import MatchingEngine.Core.Lifetimes
import MatchingEngine.Fix.Acceptance
import MatchingEngine.Fix.Amounts
import MatchingEngine.Fix.Averages
import MatchingEngine.Fix.Builder
import MatchingEngine.Fix.Concurrency
import MatchingEngine.Fix.Delivery
import MatchingEngine.Fix.Descriptors
import MatchingEngine.Fix.Duties
import MatchingEngine.Fix.Fields
import MatchingEngine.Fix.Frames
import MatchingEngine.Fix.Gateway
import MatchingEngine.Fix.Handlers
import MatchingEngine.Fix.Interleaving
import MatchingEngine.Fix.Libc
import MatchingEngine.Fix.Orders
import MatchingEngine.Fix.Outgoing
import MatchingEngine.Fix.Parser
import MatchingEngine.Fix.Publishing
import MatchingEngine.Fix.Reports
import MatchingEngine.Fix.Session
import MatchingEngine.Fix.Shutdown
import MatchingEngine.Fix.Threads
import MatchingEngine.Md.Datagrams
import MatchingEngine.Md.Feed
import MatchingEngine.Ptp.Client
import MatchingEngine.Ptp.Network
import MatchingEngine.Ring.SpscRing
import MatchingEngine.Ring.WeakMemory
import MatchingEngine.Strategies.Crossings
import MatchingEngine.Strategies.MACross
import MatchingEngine.Strategies.MarketMaker
import MatchingEngine.Strategies.Passive
import MatchingEngine.Util.Allocation
import MatchingEngine.Util.Decimal
import MatchingEngine.Util.Framing
import MatchingEngine.Util.Interleaving
import MatchingEngine.Util.LevelQueue
import MatchingEngine.Util.LinkedList
import MatchingEngine.Util.Numerals
import MatchingEngine.Util.Program
import MatchingEngine.Util.Records
import MatchingEngine.Util.Scanning
import MatchingEngine.Util.SortedMap
import MatchingEngine.Util.Threads
import MatchingEngine.Util.Traces
import MatchingEngine.Util.Truncation
import MatchingEngine.Util.WeakMemory
