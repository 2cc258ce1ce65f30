import Bwap.Common.Runs
import Bwap.Common.NodeList
import Bwap.Common.Slices
import Bwap.Common.WordRange
import Bwap.Common.Numerals
import Bwap.Common.Scanf
import Bwap.Common.Fallible
import Bwap.Common.Recorded
import Bwap.Common.Search
import Bwap.Common.CoarseSearch
import Bwap.Common.Overlay
import Bwap.Common.Overwrites
import Bwap.Common.Rounding
import Bwap.Common.RoundRobin
import Bwap.Common.TrimmedMean
import Bwap.Common.Tokens
import Bwap.Common.Decimals
import Bwap.Common.ProgramOptions
import Bwap.Placement.Page
import Bwap.Placement.Mbind
import Bwap.Placement.Weighted
import Bwap.Placement.WeightedShares
import Bwap.Placement.EvenSplit
import Bwap.Placement.Ratio
import Bwap.Placement.Policies
import Bwap.Placement.WorkerShare
import Bwap.Placement.MovePages
import Bwap.Placement.InitialPages
import Bwap.Placement.RemoteShare
import Bwap.Placement.NewWeights
import Bwap.Placement.RaisedShare
import Bwap.Placement.Coverage
import Bwap.Placement.Contiguous
import Bwap.Placement.UniformInterleave
import Bwap.Placement.WeightsFile
import Bwap.Placement.WeightSums
import Bwap.Placement.WeightSearch
import Bwap.Placement.WrittenWeights
import Bwap.Placement.WrittenPlacement
import Bwap.Placement.WeightRounds
import Bwap.Placement.SearchRuns
import Bwap.Mode.WeightedAdaptive
import Bwap.Mode.HandOver
import Bwap.Mode.Adaptive
import Bwap.Mode.AdaptiveRatios
import Bwap.Common.Differences
import Bwap.Mode.StallRate
import Bwap.Mode.Counters
import Bwap.Mode.Configuration
import Bwap.Memory.Segment
import Bwap.Memory.MapsLine
import Bwap.Memory.MemoryMap
import Bwap.Memory.Startup
import Bwap.Memory.Blocks
import Bwap.Memory.Tracking
import Bwap.Memory.HandledRuns
import Bwap.Memory.Failure
import Bwap.Memory.Distinguished
import Bwap.Memory.HeapEnd
import Bwap.Memory.Extents
import Bwap.Memory.Mappings
import Bwap.Memory.PageRange
import Bwap.Memory.Iteration
import Bwap.Memory.Threads
import Bwap.Mode.InitialPass
import Bwap.Mode.InitialPasses
import Bwap.Mode.PlacedBlocks
import Bwap.Mode.AdaptivePlacement
import Bwap.Mode.FixedRatio
import Bwap.Mode.Singletons
import Bwap.Mode.LibraryStart
import Bwap.Wrap.Reentrancy
import Bwap.Wrap.CallocBuffer
import Bwap.Memory.Disjoint
import Bwap.Mode.HandledPasses
