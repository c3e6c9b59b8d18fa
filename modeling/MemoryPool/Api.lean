import MemoryPool.Policy

/-!
# MemoryPool.Api

The Template Method skeletons and the `extern "C"` functions. A `memory_pool_t*` is an
`Option State`: `none` is the null pointer.
-/

namespace MemoryPool

open ByteMem

def allocSkeleton (B : Build) (env : Env) : Option State → Nat × Option State
  | none => (0, none)
  | some s =>
    let (block, s) := popHead B env s
    (block, some s)

def freeSkeleton (B : Build) (env : Env) (block : Nat) : Option State → Option State
  | none => none
  | some s =>
    if block = 0 then some s
    else if !isBlockInRange B s.pool block then some s
    else some (pushHead B env s block)

def memoryPoolAlloc (B : Build) (env : Env) (pool : Option State) : Nat × Option State :=
  allocSkeleton B env pool

def memoryPoolFree (B : Build) (env : Env) (pool : Option State) (block : Nat) : Option State :=
  freeSkeleton B env block pool

/-- `memory_pool_create`. The second component is the world after the call, also when the result
is null. -/
def memoryPoolCreate (B : Build) (env : Env) (w : World) (blockSize blockCount : Nat) :
    Option PoolStruct × World :=
  if !isValidBlockSize B blockSize then (none, w)
  else if blockCount = 0 then (none, w)
  else
    let stride := slotStride B blockSize
    if wouldOverflowProduct B stride blockCount then (none, w)
    else
      let totalBytes := B.mul stride blockCount
      match w.operatorNew B .backing totalBytes B.poolAlignment env.backing with
      | (none, w) => (none, w)
      | (some backing, w) =>
        match w.operatorNew B .poolStruct B.sizeofMemoryPool B.ptrBytes env.object with
        | (none, w) => (none, w.releaseBacking backing)
        | (some addr, w) =>
          (some
            { addr := addr
              backing := backing
              head := ⟨backing, 0⟩
              blockSize := blockSize
              blockCount := blockCount
              alignment := B.poolAlignment
              overflow := []
              growFactor := 0
              growCount := 0
              mutex := false },
            { w with mem := initializeFreeList B w.mem backing blockSize blockCount })

def memoryPoolCreateDynamic (B : Build) (env : Env) (w : World)
    (blockSize blockCount growthFactor : Nat) : Option PoolStruct × World :=
  match B.threadSafety with
  | .lockfree => (none, w)
  | _ =>
    if growthFactor < 2 then (none, w)
    else
      match memoryPoolCreate B env w blockSize blockCount with
      | (none, w) => (none, w)
      | (some pool, w) => (some { pool with growFactor := growthFactor }, w)

/-- The loop of `memory_pool_destroy` over the overflow chunks. -/
def releaseChunks (w : World) : List Chunk → World
  | [] => w
  | chunk :: next =>
    releaseChunks ((w.releaseBacking chunk.backing).operatorDelete .chunkNode chunk.addr) next

def memoryPoolDestroy (w : World) : Option PoolStruct → World
  | none => w
  | some pool =>
    let w := releaseChunks w pool.overflow
    (w.releaseBacking pool.backing).operatorDelete .poolStruct pool.addr

def memoryPoolGrowths : Option State → Nat
  | none => 0
  | some s => s.pool.growCount

def memoryPoolBlockSize : Option State → Nat
  | none => 0
  | some s => s.pool.blockSize

def memoryPoolMetadataBytes (B : Build) : Option State → Nat
  | none => 0
  | some s => s.pool.overflow.foldl (fun total _ => B.add total B.sizeofChunk) B.sizeofMemoryPool

end MemoryPool
