import Rbuilder.SparseMpt.Rebuild
import Rbuilder.Calculator.Recovery
import Rbuilder.Calculator.Incremental
import Rbuilder.Building.PayoutGas
import Rbuilder.Building.Cumulative
import Rbuilder.Building.TraceCheck
import Rbuilder.ConstraintInput.ConstraintPool
import Rbuilder.Simulation.SimulateAll
import Rbuilder.BlockOrders.StoreUpdate
import Rbuilder.SparseMpt.HashCache
import Rbuilder.BlockOrders.MergerClone
import Rbuilder.BlockOrders.ShareBundleId
import Rbuilder.Parallel.Intake
import Rbuilder.Parallel.TaskGenerator
import Rbuilder.Building.RelaySubmit
import Rbuilder.Redistribution.Contributions
import Rbuilder.Clickhouse.Backup
