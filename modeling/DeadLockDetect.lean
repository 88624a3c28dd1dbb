import DeadLockDetect.Lib.Backtrack
import DeadLockDetect.Lib.Dict
import DeadLockDetect.Lib.Digraph
import DeadLockDetect.Lib.FirstWrite
import DeadLockDetect.Lib.Loop
import DeadLockDetect.Lib.Text
import DeadLockDetect.Analyzer.Types
import DeadLockDetect.Analyzer.Graph
import DeadLockDetect.Analyzer.Step
import DeadLockDetect.Analyzer.Inv
import DeadLockDetect.Analyzer.History
import DeadLockDetect.Analyzer.Tarjan
import DeadLockDetect.Analyzer.TarjanCorrect
import DeadLockDetect.Analyzer.Search
import DeadLockDetect.Analyzer.Cycles
import DeadLockDetect.Analyzer.CyclesCorrect
import DeadLockDetect.Analyzer.Report
import DeadLockDetect.Analyzer.Detection
import DeadLockDetect.Analyzer.SearchOrder
import DeadLockDetect.Analyzer.Hierarchy
import DeadLockDetect.Analyzer.Enumerate
import DeadLockDetect.Analyzer.Budget
import DeadLockDetect.Lib.Cell
import DeadLockDetect.Runtime.Ring
import DeadLockDetect.Runtime.RingInv
import DeadLockDetect.Runtime.RingStep
import DeadLockDetect.Runtime.Spsc
import DeadLockDetect.Runtime.Backtrace
import DeadLockDetect.Lib.LittleEndian
import DeadLockDetect.Runtime.EventBin
import DeadLockDetect.Lib.Linked
import DeadLockDetect.Runtime.Backend
import DeadLockDetect.Runtime.Process
import DeadLockDetect.Runtime.PipelineInv
import DeadLockDetect.Runtime.PipelineThread
import DeadLockDetect.Runtime.PipelineScan
import DeadLockDetect.Runtime.Pipeline
import DeadLockDetect.Analyzer.Locality
import DeadLockDetect.Runtime.Interpose
import DeadLockDetect.Trace.Deadlock
import DeadLockDetect.Analyzer.Reorder
import DeadLockDetect.Trace.Read
import DeadLockDetect.Trace.Order
import DeadLockDetect.Lib.Numeral
import DeadLockDetect.Trace.Format
import DeadLockDetect.Trace.TraceReader
import DeadLockDetect.Trace.RoundTrip
import DeadLockDetect.Trace.Damage
import DeadLockDetect.Trace.Fork
import DeadLockDetect.Runtime.ThreadExit
import DeadLockDetect.Runtime.Timed
import DeadLockDetect.Trace.TidOrder
import DeadLockDetect.Runtime.Ownership
import DeadLockDetect.Analyzer.HoldCount
import DeadLockDetect.Trace.Ownership
import DeadLockDetect.Trace.FailedCalls
import DeadLockDetect.Runtime.Config
import DeadLockDetect.Runtime.Reserve
import DeadLockDetect.Analyzer.Symbolizer
import DeadLockDetect.Analyzer.SymbolizerCorrect
import DeadLockDetect.Trace.ModuleMap
import DeadLockDetect.Trace.NoteWalk
import DeadLockDetect.Trace.BuildId
import DeadLockDetect.Lib.SortedSearch
import DeadLockDetect.Trace.Attribution
import DeadLockDetect.Runtime.ForkChild
import DeadLockDetect.Analyzer.Rename
import DeadLockDetect.Analyzer.RenameCycles
import DeadLockDetect.Analyzer.Cli
import DeadLockDetect.Trace.Cut
import DeadLockDetect.Trace.EndToEnd
import DeadLockDetect.Runtime.RealSymbols
import DeadLockDetect.Runtime.InitOnce
import DeadLockDetect.Runtime.Bypass
import DeadLockDetect.Runtime.Backlog
import DeadLockDetect.Runtime.Round
import DeadLockDetect.Runtime.Shutdown
import DeadLockDetect.Runtime.Granted
import DeadLockDetect.Runtime.Quiet
import DeadLockDetect.Runtime.FinalDrain
import DeadLockDetect.Runtime.Release
import DeadLockDetect.Trace.Account
