import Svfs.Library.OrderedMap
import Svfs.Library.Segments
import Svfs.Library.Stacked
import Svfs.Library.Gaps
import Svfs.Library.Greedy
import Svfs.Library.Wrap
import Svfs.Library.Run
import Svfs.Library.Turns
import Svfs.Library.Demand
import Svfs.Library.InOrder
import Svfs.Library.Starts
import Svfs.Library.Store
import Svfs.Library.Regions
import Svfs.Library.FiniteMap
import Svfs.File.State
import Svfs.File.Write
import Svfs.File.Query
import Svfs.File.Evict
import Svfs.File.Command
import Svfs.File.WellFormed
import Svfs.File.SizeOf
import Svfs.Write.Steps
import Svfs.Write.Append
import Svfs.Write.Prepend
import Svfs.Write.Dispatch
import Svfs.Write.Walk
import Svfs.Write.Effect
import Svfs.Write.Coalesce
import Svfs.Write.Front
import Svfs.Write.Diff
import Svfs.Write.ReadBack
import Svfs.Write.Fixed
import Svfs.Write.Alike
import Svfs.Write.Buffers
import Svfs.Write.Unchecked
import Svfs.Query.Read
import Svfs.Query.Agree
import Svfs.Query.Range
import Svfs.Query.Need
import Svfs.Query.Merge
import Svfs.Query.Cover
import Svfs.Query.Minimise
import Svfs.Query.Exact
import Svfs.Query.Touching
import Svfs.Write.Agreeing
import Svfs.Write.Edge
import Svfs.Write.Orderly
import Svfs.Evict.Remove
import Svfs.Refine.Held
import Svfs.Refine.Order
import Svfs.Refine.Bounds
import Svfs.Refine.Ask
import Svfs.Refine.Tally
import Svfs.Refine.Given
import Svfs.Refine.Chunks
import Svfs.Refine.System
import Svfs.Refine.Fetch
import Svfs.Touch.Marks
import Svfs.Touch.Integrity
import Svfs.Evict.Exact
import Svfs.Evict.Counters
import Svfs.Evict.Compose
import Svfs.Touch.Recency
import Svfs.Touch.Latest
import Svfs.Write.Insert
import Svfs.Touch.Punt
import Svfs.Evict.Scrub
import Svfs.System.SparseVirtualFileSystem
import Svfs.System.Command
import Svfs.System.Scrub
import Svfs.Python.Object
import Svfs.Python.SparseVirtualFile
import Svfs.Python.SparseVirtualFileSystem
import Svfs.Python.Methods
import Svfs.Python.FileMethods
import Svfs.Refine.Object
import Svfs.Refine.Callers
import Svfs.Refine.Threads
import Svfs.Simulator.Client
import Svfs.Simulator.Turn
import Svfs.Simulator.Run
import Svfs.Simulator.InOrder
import Svfs.System.PuntAll
import Svfs.System.Dictionary
import Svfs.System.SideBySide
import Svfs.System.StandAlone
import Svfs.Python.Pickle
import Svfs.Python.Observe
import Svfs.Python.Behave
import Svfs.Python.Ids
import Svfs.Python.Replay
