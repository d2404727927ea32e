import Nifre.Lib.Exec
import Nifre.Lib.OrderedDict
import Nifre.Lib.Digest
import Nifre.Lib.ChainedMap
import Nifre.Py
import Nifre.Inference.BlockAllocator
import Nifre.Inference.BlockTable
import Nifre.Inference.PrefixCache
import Nifre.Lib.Scatter
import Nifre.Inference.PagedKVCache
import Nifre.Properties.PagedSteps
import Nifre.Properties.PagedAccounting
import Nifre.Spec.KVStore
import Nifre.Inference.KVCache
import Nifre.Properties.DenseContents
import Nifre.Properties.PagedContents
import Nifre.Properties.PagedRefinesDense
import Nifre.Properties.PrefixReuse
import Nifre.Inference.DataModel
import Nifre.Inference.Scheduler
import Nifre.Properties.SchedulerInvariant
import Nifre.Properties.SchedulerSteps
import Nifre.Properties.SchedulerRuns
import Nifre.Inference.HfKvCache
import Nifre.Sampler
import Nifre.Inference.Batching
import Nifre.Inference.ModelInterface
import Nifre.Inference.ModelRunner
import Nifre.Inference.Engine
import Nifre.Properties.Serving
import Nifre.Properties.EngineSteps
import Nifre.Properties.EngineRuns
import Nifre.Properties.CacheInterface
import Nifre.Properties.ContinuousBatching
import Nifre.Inference.HfAuto
import Nifre.Properties.HfContents
import Nifre.Properties.HfServing
import Nifre.Properties.PrefixHit
import Nifre.Properties.ClearSlots
import Nifre.Properties.FreeSlots
import Nifre.Lib.Hoare
import Nifre.Properties.RunnerFrame
import Nifre.Properties.EngineFrame
import Nifre.Properties.Progress
import Nifre.Properties.CacheShape
import Nifre.Properties.Reconfigure
import Nifre.Properties.DistinctIds
import Nifre.Properties.Capacity
import Nifre.Autotune.Workload
import Nifre.Autotune.Classifier
import Nifre.Autotune.Policy
import Nifre.Autotune.Controller
import Nifre.Properties.TuningPolicy
import Nifre.Properties.Settings
import Nifre.Properties.Tuning
import Nifre.Properties.OwnResults
import Nifre.Properties.PrefixSoundness
import Nifre.Properties.Completions
import Nifre.Properties.Streaming
import Nifre.Properties.AllServed
import Nifre.Lib.Softmax
import Nifre.Lib.Prefixwise
import Nifre.Inference.Attention
import Nifre.Inference.Gpt
import Nifre.Properties.CausalForward
import Nifre.Properties.CachedForward
import Nifre.Properties.ForwardRuns
import Nifre.Properties.AllOrNothing
import Nifre.Properties.PolicyDirection
import Nifre.Properties.Schedulable
import Nifre.Lib.SlidingWindow
import Nifre.Properties.QueuePressure
import Nifre.Properties.TuningTicks
import Nifre.Properties.Attempts
import Nifre.Properties.Pacing
import Nifre.Lib.Lru
import Nifre.Lib.RootedMap
import Nifre.Properties.LruOrder
import Nifre.Properties.JustInserted
import Nifre.Properties.Orphans
import Nifre.Properties.Picks
import Nifre.Properties.Admissions
import Nifre.Properties.Offsets
import Nifre.Properties.StepBudget
import Nifre.Properties.OldestPrefill
import Nifre.Properties.StepsLeft
import Nifre.Properties.KnownTokens
import Nifre.Properties.RunUntilDone
import Nifre.Properties.KnownRuns
import Nifre.Properties.StaticGenerate
import Nifre.Properties.GptBatching
import Nifre.Inference.EngineGenerate
import Nifre.Properties.GenerateCalls
import Nifre.Properties.StreamConsumer
import Nifre.Properties.GptServed
import Nifre.Lib.BoundedDeque
import Nifre.Observability.MetricsStore
import Nifre.Properties.MetricsRuns
import Nifre.Properties.WindowedRates
import Nifre.Properties.Carryover
import Nifre.Properties.Verdict
import Nifre.Properties.BlockOps
import Nifre.Properties.HfBookkeeping
import Nifre.Lib.Descent
import Nifre.Properties.Convergence
import Nifre.Properties.Reversal
import Nifre.Lib.Ghost
import Nifre.Observability.Collector
import Nifre.Properties.Metering
import Nifre.Properties.PrefillPass
import Nifre.Properties.TokensCounted
import Nifre.Properties.ReuseRatio
import Nifre.Properties.Cursors
import Nifre.Properties.Passes
import Nifre.Properties.HfCursors
import Nifre.Properties.GptCursors
import Nifre.Properties.Levels
import Nifre.Properties.EngineLevels
import Nifre.Properties.LevelRuns
import Nifre.Lib.Quantile
import Nifre.Properties.CollectorFrame
import Nifre.Properties.LatencySummaries
import Nifre.Properties.Ledger
import Nifre.Properties.TimeStamps
import Nifre.Properties.SharedForward
import Nifre.Properties.SharedCache
import Nifre.Properties.Answering
import Nifre.Properties.AnsweredRuns
import Nifre.Properties.PrefixTransparency
import Nifre.Lib.Json
import Nifre.Inference.EventText
import Nifre.Properties.EventStream
