import MemoryPool.Lib.Bytes
import MemoryPool.Lib.Cas
import MemoryPool.Lib.Chain
import MemoryPool.Lib.Discipline
import MemoryPool.Lib.Ledger
import MemoryPool.Lib.Lts
import MemoryPool.Lib.Progress
import MemoryPool.Lib.Shares
import MemoryPool.Lib.Stack
import MemoryPool.Lib.Tally
import MemoryPool.Lib.Trail
import MemoryPool.Platform
import MemoryPool.World
import MemoryPool.Slot
import MemoryPool.Pool
import MemoryPool.Policy
import MemoryPool.Api
import MemoryPool.Geometry
import MemoryPool.InitFreeList
import MemoryPool.FreeList
import MemoryPool.PolicyCorrect
import MemoryPool.Client
import MemoryPool.Refinement
import MemoryPool.Diagnostics
import MemoryPool.DiagnosticsCorrect
import MemoryPool.ClientMemory
import MemoryPool.HeapBalance
import MemoryPool.SizeArithmetic
import MemoryPool.FailedAlloc
import MemoryPool.Growth
import MemoryPool.Corruption
import MemoryPool.Evidence
import MemoryPool.Membership
import MemoryPool.Neighbours
import MemoryPool.Instrumented
import MemoryPool.TypedPool
import MemoryPool.TypedPoolCorrect
import MemoryPool.InstrumentedCorrect
import MemoryPool.InstrumentedThreads
import MemoryPool.InstrumentedAlone
import MemoryPool.GrowthNotices
import MemoryPool.CountersCorrect
import MemoryPool.Objects
import MemoryPool.ObjectsCorrect
import MemoryPool.Undecorated
import MemoryPool.Store
import MemoryPool.Handles
import MemoryPool.DecoratorsCorrect
import MemoryPool.Loans
import MemoryPool.PoolAllocator
import MemoryPool.PoolMemoryResource
import MemoryPool.Configurations
import MemoryPool.LockFree
import MemoryPool.LockFreeAlone
import MemoryPool.LockFreeInv
import MemoryPool.Linearize
import MemoryPool.LockFreeHooks
import MemoryPool.Mutex
import MemoryPool.MutexInv
import MemoryPool.MutexLayout
import MemoryPool.MutexWalk
import MemoryPool.MutexAlone
import MemoryPool.LockDiscipline
import MemoryPool.MutexShares
import MemoryPool.MutexList
import MemoryPool.LockFreeProgress
import MemoryPool.InstrumentedProgress
import MemoryPool.MutexMovers
import MemoryPool.MutexCommit
import MemoryPool.MutexSerial
import MemoryPool.MutexProgress
import MemoryPool.MutexMemory
import MemoryPool.Footprint
import MemoryPool.Fuzz
import MemoryPool.Fleet
import MemoryPool.TagWidth
import MemoryPool.LockFreeMemory
import MemoryPool.Handlers
import MemoryPool.MutexVerdict
import MemoryPool.MutexHardened
import MemoryPool.DoubleFree
import MemoryPool.Drain
