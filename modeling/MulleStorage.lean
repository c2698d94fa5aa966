import MulleStorage.Lib.Align
import MulleStorage.Lib.Memory
import MulleStorage.Lib.Run
import MulleStorage.Arena.Blocks
import MulleStorage.Arena.Effect
import MulleStorage.Arena.Script
import MulleStorage.Arena.Last
import MulleStorage.Arena.Range
import MulleStorage.Arena.Ownership
import MulleStorage.Arena.Direct
import MulleStorage.Arena.Header
import MulleStorage.Lib.Bump
import MulleStorage.Lib.Recycler
import MulleStorage.Lib.Nodes
import MulleStorage.Storage.Source
import MulleStorage.Storage.Pool
import MulleStorage.Storage.Index
import MulleStorage.Arena.Poison
import MulleStorage.Arena.Kept
import MulleStorage.Arena.Reclaim
import MulleStorage.Arena.Growth
import MulleStorage.Lib.Peak
import MulleStorage.Storage.HighWater
import MulleStorage.Storage.Narrow
import MulleStorage.Lib.Chain
import MulleStorage.Lib.Stock
import MulleStorage.Storage.Freelist
import MulleStorage.Storage.Lockstep
import MulleStorage.Lib.Ledger
import MulleStorage.Storage.Ordinal
import MulleStorage.Lib.Loop
import MulleStorage.Storage.Benchmark
import MulleStorage.Storage.Workload
import MulleStorage.Storage.Allocators
import MulleStorage.Storage.Identical
import MulleStorage.Lib.Budget
import MulleStorage.Arena.Footprint
import MulleStorage.Lib.Packing
import MulleStorage.Lib.Tape
import MulleStorage.Arena.OnTape
import MulleStorage.Arena.Frames
import MulleStorage.Arena.Percentage
import MulleStorage.Lib.Tenants
import MulleStorage.Arena.Confined
import MulleStorage.Arena.Ideal
import MulleStorage.Arena.Forget
import MulleStorage.Arena.Blank
import MulleStorage.Arena.Builds
import MulleStorage.Arena.Tenant
import MulleStorage.Storage.Tenant
import MulleStorage.Program
