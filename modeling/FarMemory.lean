import FarMemory.PointerMeta
import FarMemory.IntervalTiling
import FarMemory.Regions
import FarMemory.ByteStore
import FarMemory.RingLinks
import FarMemory.ServerPtr
import FarMemory.PointerRuntime
import FarMemory.Execution
import FarMemory.RuntimeInvariant
import FarMemory.RuntimeAccess
import FarMemory.RuntimeCollector
import FarMemory.RuntimeOwnership
import FarMemory.RuntimeSteps
import FarMemory.UniqueCell
import FarMemory.BackPointers
import FarMemory.SharedDurability
import FarMemory.SharedRings
import FarMemory.EpochSafety
import FarMemory.Hopscotch
import FarMemory.Keys
import FarMemory.ServerTable
import FarMemory.ClientTable
import FarMemory.ClientRefinement
import FarMemory.TableSize
import FarMemory.SwapInRace
import FarMemory.PutRetries
import FarMemory.EvacNotices
import FarMemory.RpcBuffer
import FarMemory.RpcTemplates
import FarMemory.RpcSerializer
import FarMemory.DeviceWire
import FarMemory.RemoteCall
import FarMemory.CircularBuffer
import FarMemory.Parallelizer
import FarMemory.RegionMoves
import FarMemory.DataStructures
import FarMemory.ReaderWriterLock
import FarMemory.ArrayDestruction
import FarMemory.LocalSkiplist
import FarMemory.Adjacency
import FarMemory.SkiplistGrid
import FarMemory.SkiplistLinks
import FarMemory.SkiplistInsert
import FarMemory.SkiplistSearch
import FarMemory.SkiplistRefinement
import FarMemory.ChunkedList
import FarMemory.ChunkInvariant
import FarMemory.ListInvariant
import FarMemory.ListPositions
import FarMemory.ListOperations
import FarMemory.ListErasure
import FarMemory.ListRefinement
import FarMemory.QueueStack
import FarMemory.ListIterators
import FarMemory.DataFrameVector
import FarMemory.ColumnSelection
import FarMemory.Aggregation
import FarMemory.DataFrameCapacity
import FarMemory.DataFrameHistories
import FarMemory.DataFrameOffload
import FarMemory.DataFrameAssign
import FarMemory.KeyRuns
import FarMemory.ObjectBytes
import FarMemory.RegionWalk
import FarMemory.RemoteAddresses
import FarMemory.CallLength
import FarMemory.ServerArrays
import FarMemory.TrendPredictor
import FarMemory.VarCoding
import FarMemory.VectoredWrite
import FarMemory.AllocationSizes
import FarMemory.MetadataRuns
import FarMemory.NtFlags
import FarMemory.ArrayFlush
import FarMemory.LockFragments
import FarMemory.ReferenceCounts
import FarMemory.SharedPool
import FarMemory.GetRemoval
import FarMemory.ServerLookups
import FarMemory.LearnedPrefetcher
import FarMemory.SwapInInstalls
import FarMemory.ElementTypes
import FarMemory.GroupResults
import FarMemory.CountingSort
import FarMemory.DecodeBounds
import FarMemory.ScopeRenewals
import FarMemory.ArrayIndex
import FarMemory.Hotness
import FarMemory.ListLayout
import FarMemory.RingDeque
import FarMemory.SkiplistHeight
import FarMemory.SlabRuns
import FarMemory.LeapPrefetcher
import FarMemory.ObjLocker
import FarMemory.EntryBytes
