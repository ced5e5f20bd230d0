import AFLPlusPlus.Allocators.AflRealloc
import AFLPlusPlus.Allocators.AlignedAlloc
import AFLPlusPlus.Allocators.DislocatorRuns
import AFLPlusPlus.Allocators.ElementList
import AFLPlusPlus.Allocators.QasanBlocks
import AFLPlusPlus.Allocators.Quarantine
import AFLPlusPlus.Analyze.Behavior
import AFLPlusPlus.Assembler.AddInstrumentation
import AFLPlusPlus.Assembler.OnlyInserts
import AFLPlusPlus.Cache.Calls
import AFLPlusPlus.Cache.Eviction
import AFLPlusPlus.Coverage.CountBits
import AFLPlusPlus.Coverage.NewBits
import AFLPlusPlus.Coverage.Skim
import AFLPlusPlus.Deterministic.AutoCollect
import AFLPlusPlus.Deterministic.EffectorMap
import AFLPlusPlus.Deterministic.NoOpMutations
import AFLPlusPlus.Deterministic.Skipping
import AFLPlusPlus.Dictionary.AutoExtrasRuns
import AFLPlusPlus.Dictionary.ExtrasRuns
import AFLPlusPlus.Dictionary.LoadExtras
import AFLPlusPlus.Dictionary.Stages
import AFLPlusPlus.Dictionary.Tokencap
import AFLPlusPlus.Environment.EnvGrammar
import AFLPlusPlus.Environment.SuggestionSafety
import AFLPlusPlus.Findings.CalibrationRuns
import AFLPlusPlus.Findings.Deduplication
import AFLPlusPlus.Findings.DescribeOp
import AFLPlusPlus.Forkserver.DictionaryLoad
import AFLPlusPlus.Forkserver.PersistentRecord
import AFLPlusPlus.Forkserver.Replies
import AFLPlusPlus.Forkserver.Synchronization
import AFLPlusPlus.Frida.RangeConfig
import AFLPlusPlus.Frida.RangeSets
import AFLPlusPlus.Havoc.OperatorSelection
import AFLPlusPlus.Havoc.RandBelow
import AFLPlusPlus.Havoc.ReadyForSplicing
import AFLPlusPlus.Havoc.Splicing
import AFLPlusPlus.Instrumentation.CompareChain
import AFLPlusPlus.Instrumentation.CompareParts
import AFLPlusPlus.Instrumentation.CompareTransform
import AFLPlusPlus.Instrumentation.EdgeIds
import AFLPlusPlus.Instrumentation.FPCompareParts
import AFLPlusPlus.Instrumentation.FoldedConstants
import AFLPlusPlus.Instrumentation.GuardInit
import AFLPlusPlus.Instrumentation.MemoryCompares
import AFLPlusPlus.Instrumentation.SplitComparesComplete
import AFLPlusPlus.Instrumentation.SplitComparesEnds
import AFLPlusPlus.Instrumentation.SplitComparesRefinement
import AFLPlusPlus.Instrumentation.SplitSwitches
import AFLPlusPlus.Instrumentation.StringCompares
import AFLPlusPlus.Minimize.Cmin
import AFLPlusPlus.Minimize.CollectCoverage
import AFLPlusPlus.Minimize.Tmin
import AFLPlusPlus.Minimize.TminPasses
import AFLPlusPlus.Network.ProxyRuns
import AFLPlusPlus.Queue.AliasTable
import AFLPlusPlus.Queue.Attribution
import AFLPlusPlus.Queue.CheckIfText
import AFLPlusPlus.Queue.Counters
import AFLPlusPlus.Queue.Duplicates
import AFLPlusPlus.Queue.EnergyBand
import AFLPlusPlus.Queue.PivotInputs
import AFLPlusPlus.Queue.Resuming
import AFLPlusPlus.Queue.SchedulingRuns
import AFLPlusPlus.Queue.StatsFile
import AFLPlusPlus.Redqueen.Base64
import AFLPlusPlus.Redqueen.Colorized
import AFLPlusPlus.Redqueen.CombinedBuffer
import AFLPlusPlus.Redqueen.FreshOperands
import AFLPlusPlus.Redqueen.LoggedPairs
import AFLPlusPlus.Redqueen.RtnLeftovers
import AFLPlusPlus.Redqueen.StageExits
import AFLPlusPlus.Ssa.Function
import AFLPlusPlus.Support.BoundedLines
import AFLPlusPlus.Support.CircularLists
import AFLPlusPlus.Support.Transducers
import AFLPlusPlus.Sync.ForeignImport
import AFLPlusPlus.Sync.PeerRounds
import AFLPlusPlus.Trim.Consistency
import AFLPlusPlus.Trim.CustomTrimmers
import AFLPlusPlus.Trim.Soundness
import AFLPlusPlus.Viewer.CachedQueue
import AFLPlusPlus.Viewer.Coverage
import AFLPlusPlus.Viewer.Profile
