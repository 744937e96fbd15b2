import TradingAlgo.Runs
import TradingAlgo.ProfitLoss
import TradingAlgo.RiskManager
import TradingAlgo.PositionLimit
import TradingAlgo.ExposureRace
import TradingAlgo.MpscFifo
import TradingAlgo.OrderGateway
import TradingAlgo.Reconciliation
import TradingAlgo.Lifecycle
import TradingAlgo.AtMostOnce
import TradingAlgo.NoLostExecution
import TradingAlgo.StaleSlot
import TradingAlgo.PositionMap
import TradingAlgo.ConcurrentInsert
import TradingAlgo.Consumers
import TradingAlgo.Tradable
import TradingAlgo.RateLimit
import TradingAlgo.Paging
import TradingAlgo.Shutdown
import TradingAlgo.Streaming
import TradingAlgo.Cooldown
import TradingAlgo.PnlArithmetic
import TradingAlgo.ReconciledCost
import TradingAlgo.GatewayRun
import TradingAlgo.CancelIds
import TradingAlgo.TradeUpdates
import TradingAlgo.FirstElement
import TradingAlgo.ContainerFields
import TradingAlgo.Timestamps
import TradingAlgo.OrderPayload
import TradingAlgo.Reclamation
import TradingAlgo.OrderMemory
import TradingAlgo.SubmitTimestamps
import TradingAlgo.Interleaving
import TradingAlgo.AtomicFills
import TradingAlgo.EngineThreads
import TradingAlgo.RelyGuarantee
import TradingAlgo.Spacing
import TradingAlgo.OrderPacing
import TradingAlgo.TruncatedFrames
import TradingAlgo.Startup
import TradingAlgo.PubSub
import TradingAlgo.MarketFeed
import TradingAlgo.HotPath
import TradingAlgo.QueueProgress
import TradingAlgo.WaitingClient
import TradingAlgo.SymbolMachines
import TradingAlgo.CapitalAtRisk
