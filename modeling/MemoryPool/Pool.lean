import MemoryPool.Slot

/-!
# MemoryPool.Pool

`struct memory_pool`, its overflow chunks, and the operations on the free list and the chunk list
that do not depend on the thread-safety policy: `initialize_free_list`, `block_in_chunk`,
`is_block_in_range` and `grow_pool`.

The chunk list is a `List Chunk`, head first: `overflow_` is its head and `next_` its tail. The
struct has the fields of all three builds. A build without `LOCKFREE` has a plain `void* head_`;
there the tag stays `0`. Only a `MUTEX` build has `mutex_`.
-/

namespace MemoryPool

open ByteMem

structure TaggedHead where
  ptr : Nat
  tag : Nat
  deriving DecidableEq

/-- `Chunk`, with the address `new Chunk` returned for it. -/
structure Chunk where
  addr : Nat
  backing : Nat
  blockCount : Nat
  deriving DecidableEq

/-- `struct memory_pool`, with the address `new memory_pool` returned for it. `mutex` is whether
the mutex is held. -/
structure PoolStruct where
  addr : Nat
  backing : Nat
  head : TaggedHead
  blockSize : Nat
  blockCount : Nat
  alignment : Nat
  overflow : List Chunk
  growFactor : Nat
  growCount : Nat
  mutex : Bool
  deriving DecidableEq

structure State extends World where
  pool : PoolStruct

/-- What the environment decides during one call: the answers to the call's first and second
allocation request, and how many times a `compare_exchange_weak` fails spuriously. -/
structure Env where
  backing : Option Nat
  object : Option Nat
  spurious : Nat
  deriving DecidableEq

def initSlot (B : Build) (m : Mem) (slot next blockSize : Nat) : Mem :=
  let m := writeNext B m slot next
  if B.hardening then onInitSlot B m slot blockSize else m

/-- The loop of `initialize_free_list` after `k` iterations. -/
def initSlots (B : Build) (m : Mem) (base blockSize : Nat) : Nat → Mem
  | 0 => m
  | i + 1 =>
    let stride := slotStride B blockSize
    initSlot B (initSlots B m base blockSize i) (B.add base (B.mul i stride))
      (B.add base (B.mul (i + 1) stride)) blockSize

/-- `initialize_free_list`. The loop runs while `i + 1 < block_count`; the last slot comes
after it. -/
def initializeFreeList (B : Build) (m : Mem) (backing blockSize blockCount : Nat) : Mem :=
  let stride := slotStride B blockSize
  let m := initSlots B m backing blockSize (blockCount - 1)
  initSlot B m (B.add backing (B.mul (blockCount - 1) stride)) 0 blockSize

def blockInChunk (B : Build) (pool : PoolStruct) (backing count block : Nat) : Bool :=
  let stride := slotStride B pool.blockSize
  let endAddr := B.add backing (B.mul stride count)
  if block < backing then false
  else if endAddr ≤ block then false
  else if B.sub block backing % stride ≠ 0 then false
  else true

def isBlockInRange (B : Build) (pool : PoolStruct) (block : Nat) : Bool :=
  if blockInChunk B pool pool.backing pool.blockCount block then true
  else pool.overflow.any fun chunk => blockInChunk B pool chunk.backing chunk.blockCount block

/-- The running sum of `grow_pool` over the chunk list. -/
def totalCount (B : Build) (pool : PoolStruct) : Nat :=
  pool.overflow.foldl (fun total chunk => B.add total chunk.blockCount) pool.blockCount

/-- The count of the chunk a growth would add, or `none` if one of `grow_pool`'s guards says
no before anything is allocated. -/
def growthCount (B : Build) (pool : PoolStruct) : Option Nat :=
  let total := totalCount B pool
  if wouldOverflowProduct B total (B.sub pool.growFactor 1) then none
  else
    let add := B.mul total (B.sub pool.growFactor 1)
    if add = 0 then none
    else if wouldOverflowProduct B add (slotStride B pool.blockSize) then none
    else some add

/-- `grow_pool`. On any failure it releases what it got and answers `false`. -/
def growPool (B : Build) (env : Env) (s : State) : Bool × State :=
  match growthCount B s.pool with
  | none => (false, s)
  | some add =>
    let bytes := B.mul add (slotStride B s.pool.blockSize)
    match s.toWorld.operatorNew B .backing bytes B.poolAlignment env.backing with
    | (none, w) => (false, { s with toWorld := w })
    | (some backing, w) =>
      match w.operatorNew B .chunkNode B.sizeofChunk B.ptrBytes env.object with
      | (none, w) => (false, { s with toWorld := w.releaseBacking backing })
      | (some addr, w) =>
        let chunk : Chunk := ⟨addr, backing, add⟩
        let w := { w with mem := initializeFreeList B w.mem backing s.pool.blockSize add }
        (true,
          { toWorld := w
            pool := { s.pool with
              overflow := chunk :: s.pool.overflow
              head := { s.pool.head with ptr := backing }
              growCount := B.add s.pool.growCount 1 } })

theorem growthCount_some {B : Build} {p : PoolStruct} {add : Nat}
    (h : growthCount B p = some add) :
    totalCount B p * B.sub p.growFactor 1 < B.modulus ∧
      add = totalCount B p * B.sub p.growFactor 1 ∧ 0 < add ∧
      add * slotStride B p.blockSize < B.modulus := by
  unfold growthCount at h
  simp only [] at h
  split at h
  · cases h
  · rename_i h1
    have h1 := wouldOverflowProduct_eq_false_iff.mp (Bool.eq_false_iff.mpr h1)
    rw [Build.mul_eq h1] at h
    split at h
    · cases h
    · rename_i h2
      split at h
      · cases h
      · rename_i h3
        have h3 := wouldOverflowProduct_eq_false_iff.mp (Bool.eq_false_iff.mpr h3)
        cases h
        exact ⟨h1, rfl, Nat.pos_of_ne_zero h2, h3⟩

def linkChunk (B : Build) (s : State) (add backing addr : Nat) (heap : Heap) : State where
  mem := initializeFreeList B s.mem backing s.pool.blockSize add
  heap := heap
  reports := s.reports
  pool := { s.pool with
    overflow := ⟨addr, backing, add⟩ :: s.pool.overflow
    head := { s.pool.head with ptr := backing }
    growCount := B.add s.pool.growCount 1 }

structure Grown (B : Build) (s : State) (add backing addr : Nat) (heap : Heap) : Prop where
  count : growthCount B s.pool = some add
  nonnull : backing ≠ 0
  aligned : B.poolAlignment ∣ backing
  fits : backing + slotStride B s.pool.blockSize * add < B.modulus
  live : heap.ledger.live =
    (s.heap.ledger.next + 1, ⟨.chunkNode, addr, B.sizeofChunk⟩) ::
      (s.heap.ledger.next, ⟨.backing, backing, slotStride B s.pool.blockSize * add⟩) ::
      s.heap.ledger.live
  invalid : heap.ledger.invalid = s.heap.ledger.invalid

/-- Everything `grow_pool` can do: fail and leave all but the heap's history as it was, or link
a fresh chunk. -/
theorem growPool_cases (B : Build) (env : Env) (s : State) :
    (∃ heap, s.heap.SameLive heap ∧ growPool B env s = (false, { s with heap := heap })) ∨
    ∃ add backing addr heap, Grown B s add backing addr heap ∧
      growPool B env s = (true, linkChunk B s add backing addr heap) := by
  unfold growPool
  split
  · left; exact ⟨s.heap, ⟨rfl, rfl⟩, rfl⟩
  · rename_i add hadd
    obtain ⟨_, _, _, hfit⟩ := growthCount_some hadd
    rw [Build.mul_eq hfit, Nat.mul_comm add]
    rcases World.operatorNew_cases B s.toWorld .backing
      (slotStride B s.pool.blockSize * add) B.poolAlignment env.backing with
      he | ⟨backing, h1, he⟩
    · left; simp only [he]; exact ⟨s.heap, ⟨rfl, rfl⟩, rfl⟩
    · simp only [he]
      rcases World.operatorNew_cases B
        { s.toWorld with heap := s.heap.obtain _ h1.fresh } .chunkNode B.sizeofChunk B.ptrBytes
        env.object with hf | ⟨addr, h2, hf⟩
      · left
        simp only [hf]
        exact ⟨_, s.heap.release_obtain _ h1.fresh, rfl⟩
      · right
        simp only [hf]
        exact ⟨add, backing, addr, (s.heap.obtain _ h1.fresh).obtain _ h2.fresh,
          ⟨hadd, h1.nonnull, Nat.dvd_of_mod_eq_zero h1.aligned, h1.fits, rfl, rfl⟩, rfl⟩

end MemoryPool
