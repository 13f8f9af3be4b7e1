import Hypura.Core.Exec
import Hypura.Core.Codec
import Hypura.Rust.Text
import Hypura.Model.Gguf
import Hypura.Model.GgufGrammar
import Hypura.Model.GgufSound
import Hypura.Rust.F64
import Hypura.Model.TensorRole
import Hypura.Model.Metadata
import Hypura.Core.Linear
import Hypura.Scheduler.Types
import Hypura.Scheduler.Placement
import Hypura.Scheduler.Fill
import Hypura.Scheduler.Mip
import Hypura.Scheduler.PlacementFits
import Hypura.Scheduler.MipOptimal
import Hypura.Rust.Slice
import Hypura.Cache.CoActivation
import Hypura.Io.ExpertLayout
import Hypura.Compute.BuildState
import Hypura.Cli.Optimize
import Hypura.Cli.OptimizeOrder
import Hypura.Cli.OptimizeRun
import Hypura.Compute.Regions
import Hypura.Cli.OptimizeSound
import Hypura.Core.Recency
import Hypura.Cache.NeuronCache
import Hypura.Compute.ExpertPool
import Hypura.Core.Countdown
import Hypura.Compute.PrefetchState
import Hypura.Core.Trace
import Hypura.Compute.PoolStreaming
import Hypura.Compute.EvalCallback
import Hypura.Compute.LoadProtocol
import Hypura.Compute.Plan
import Hypura.Compute.AllExperts
import Hypura.Core.CodecLog
import Hypura.Model.GgufSafe
import Hypura.Scheduler.Estimator
import Hypura.Scheduler.EstimatorAgrees
import Hypura.Compute.LoadPaths
import Hypura.Compute.StandardStep
import Hypura.Compute.StandardCoverage
import Hypura.Compute.StandardMode
import Hypura.Compute.InFlight
import Hypura.Compute.PoolStep
import Hypura.Compute.RouterStep
import Hypura.Compute.RouterChoice
import Hypura.Compute.FailedReads
import Hypura.Compute.KeepResident
import Hypura.Core.FirstFit
import Hypura.Scheduler.GreedyMip
import Hypura.Rust.Int
import Hypura.Cache.KvCache
import Hypura.Compute.PoolActivation
import Hypura.Compute.SidecarBounds
import Hypura.Core.Tally
import Hypura.Compute.GpuLayers
import Hypura.Scheduler.KvHeadroom
import Hypura.Core.Regex
import Hypura.Compute.OverridePatterns
import Hypura.Compute.PoolBudget
import Hypura.Core.Account
import Hypura.Cli.OptimizeFailure
import Hypura.Cli.OptimizeIntact
import Hypura.Core.FirstLeast
import Hypura.Core.Overlap
import Hypura.Scheduler.GreedyCutoff
import Hypura.Compute.Eviction
import Hypura.Compute.RouterOutput
import Hypura.Compute.EvictionOrder
import Hypura.Cli.DataStart
import Hypura.Compute.LayerNames
import Hypura.Cache.CoActivationCounts
import Hypura.Core.Negotiate
import Hypura.Compute.Tokenize
import Hypura.Compute.GeneratedText
import Hypura.Compute.DenseStep
import Hypura.Compute.DenseSlots
import Hypura.Compute.DenseReads
import Hypura.Cache.CoActivationGrowth
import Hypura.Compute.RouterRecords
import Hypura.Compute.ThreadTurn
import Hypura.Compute.Waits
import Hypura.Core.Terminate
import Hypura.Compute.CallbackReturns
import Hypura.Compute.LoadedBytes
import Hypura.Core.Pipe
import Hypura.Server.Session
import Hypura.Server.Delivery
import Hypura.Server.Progress
import Hypura.Compute.Shutdown
import Hypura.Compute.MemoryBounds
import Hypura.Compute.BufferLoad
import Hypura.Compute.ResidentFfn
import Hypura.Compute.ExpertStep
import Hypura.Compute.ExpertReads
