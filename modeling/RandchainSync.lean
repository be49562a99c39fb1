import RandchainSync.Storage.BlockProvider
import RandchainSync.Message.Types
import RandchainSync.Writer.OrphanPool
import RandchainSync.Writer.BlocksWriter
import RandchainSync.Writer.Invariant
import RandchainSync.Writer.OrderIndependence
import RandchainSync.Writer.VerifyOrder
import RandchainSync.Writer.AppendTwice
import RandchainSync.Writer.FailedAppend
import RandchainSync.Server.Queue
import RandchainSync.Server.QueueInvariant
import RandchainSync.Server.Refinement
import RandchainSync.Server.Fairness
import RandchainSync.Server.Executor
import RandchainSync.Server.GetData
import RandchainSync.Server.GetBlocks
import RandchainSync.Server.BestCommonBlock
import RandchainSync.Server.Worker
import RandchainSync.Server.WakeUp
import RandchainSync.Server.ResponseOrder
import RandchainSync.Server.Disconnect
import RandchainSync.Server.ServeAlone
import RandchainSync.Server.PeerStream
import RandchainSync.Server.Liveness
