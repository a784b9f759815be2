import Utilc.CLib.Checked
import Utilc.CLib.Runs
import Utilc.CLib.Heap
import Utilc.CLib.Extents
import Utilc.CLib.Summary
import Utilc.CLib.LowestBit
import Utilc.CLib.HighestBit
import Utilc.CLib.Window
import Utilc.CLib.Loops
import Utilc.CLib.Bounded
import Utilc.CLib.PackedFields
import Utilc.CLib.RoundUp
import Utilc.CLib.Probing
import Utilc.CLib.OpenAddressing
import Utilc.CLib.Refines
import Utilc.CLib.Amortized
import Utilc.CLib.Mixing
import Utilc.Idxpyr.Model
import Utilc.Idxpyr.Layout
import Utilc.Idxpyr.Writes
import Utilc.Idxpyr.Represents
import Utilc.Idxpyr.Descent
import Utilc.Idxpyr.Refinement
import Utilc.Idxpyr.Invariant
import Utilc.Idxpyr.Allocator
import Utilc.Idxpyr.Canonical
import Utilc.Idxpyr.Safety
import Utilc.Idxpyr.Batch
import Utilc.Idxpyr.Repair
import Utilc.Idxpyr.Drain
import Utilc.Circbuf.Model
import Utilc.Circbuf.Ring
import Utilc.Circbuf.Queue
import Utilc.Circbuf.Capacity
import Utilc.Circbuf.Bounds
import Utilc.Circbuf.Walks
import Utilc.Circbuf.Growth
import Utilc.Circbuf.Copies
import Utilc.Kvec
import Utilc.Kvec.Growth
import Utilc.Kvec.Runs
import Utilc.Khash.Model
import Utilc.Khash.Slots
import Utilc.Khash.Search
import Utilc.Khash.Table
import Utilc.Khash.Updates
import Utilc.Khash.Rehash
import Utilc.Khash.Resize
import Utilc.Khash.Put
import Utilc.Khash.Full
import Utilc.Khash.Runs
import Utilc.Khash.Reachable
import Utilc.Khash.Iteration
import Utilc.Khash.Costs
import Utilc.Khash.Rounds
import Utilc.Khash.Hashes
import Utilc.Mempool.Model
import Utilc.Mempool.Frames
import Utilc.Mempool.Ownership
import Utilc.Mempool.Clusters
import Utilc.Mempool.ClusterRuns
import Utilc.Mempool.Ids
import Utilc.Mempool.Geometry
import Utilc.Mempool.PoolRuns
import Utilc.Mempool.Slots
import Utilc.Mempool.Locations
import Utilc.Mempool.Elements
import Utilc.Mempool.Usage
import Utilc.Mempool.Allocs
