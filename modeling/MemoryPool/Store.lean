import MemoryPool.Instrumented
import MemoryPool.Neighbours

/-!
# MemoryPool.Store

Several pools in one process, and the heap they share with everybody else.

* `Store.live`, `Store.foreign`: the blocks of a pool that are out, and the regions of the heap
  that belong to no pool.
* `popHead_moved`: a call changes the pool and the heap by the same regions.
* `Store.Grew`: what any use of the pools leaves of them.
-/

namespace MemoryPool

open ByteMem LinkedList

structure Store where
  world : World
  pools : List PoolStruct

namespace Store

def start (w : World) : Store := ⟨w, []⟩

def state (st : Store) (i : Nat) : Option State := st.pools[i]?.map fun pool => ⟨st.world, pool⟩

def put (st : Store) (i : Nat) : Option State → Store
  | none => st
  | some s => ⟨s.toWorld, st.pools.set i s.pool⟩

/-- A new pool gets the next number. -/
def create (B : Build) (env : Env) (st : Store) (call : CreateCall) : Store :=
  match call.run B env st.world with
  | (none, world) => { st with world := world }
  | (some pool, world) => ⟨world, st.pools ++ [pool]⟩

def tryAllocate (B : Build) (env : Env) (st : Store) (i : Nat) : Nat × Store :=
  let (block, s) := Pool.tryAllocate B env (st.state i)
  (block, st.put i s)

def deallocate (B : Build) (env : Env) (st : Store) (i block : Nat) : Store :=
  st.put i (Pool.deallocate B env (st.state i) block)

/-- `Pool::block_size`. -/
def blockSize (st : Store) (i : Nat) : Nat := memoryPoolBlockSize (st.state i)

def operatorNew (B : Build) (st : Store) (kind : RegionKind) (bytes alignment : Nat)
    (answer : Option Nat) : Option Nat × Store :=
  let (ptr, world) := st.world.operatorNew B kind bytes alignment answer
  (ptr, { st with world := world })

def operatorDelete (st : Store) (kind : RegionKind) (ptr : Nat) : Store :=
  { st with world := st.world.operatorDelete kind ptr }

def write (st : Store) (addr : Nat) (byte : UInt8) : Store :=
  { st with world := { st.world with mem := set st.world.mem addr byte } }

/-- The blocks of a pool that are out. -/
def live (B : Build) (st : Store) (i : Nat) : List Nat :=
  (st.state i).elim [] fun s => s.liveBlocks B

/-- The regions of the heap that belong to no pool. -/
def foreign (B : Build) (st : Store) : List Region :=
  st.world.heap.regions.filter fun r => r ∉ st.pools.flatMap (PoolStruct.regions B)

/-- All but the heap's history is as it was. -/
structure Unchanged (st st' : Store) : Prop where
  pools : st'.pools = st.pools
  mem : st'.world.mem = st.world.mem
  reports : st'.world.reports = st.world.reports
  heap : st.world.heap.SameLive st'.world.heap

theorem Unchanged.refl (st : Store) : st.Unchanged st := ⟨rfl, rfl, rfl, ⟨rfl, rfl⟩⟩

end Store

/-! ## Growth of the pools -/

/-- The chunks are new; the rest of what creation and growth set is as it was. -/
def PoolStruct.GrownBy (p : PoolStruct) (chunks : List Chunk) (p' : PoolStruct) : Prop :=
  p' = { p with
    head := p'.head, overflow := chunks ++ p.overflow, growCount := p'.growCount,
    mutex := p'.mutex }

namespace PoolStruct.GrownBy

variable {p p' p'' : PoolStruct} {chunks chunks' : List Chunk}

theorem of_same (h : p.SameShape p') : p.GrownBy [] p' := by
  unfold GrownBy
  rw [h]
  rfl

theorem trans (h : p.GrownBy chunks p') (h' : p'.GrownBy chunks' p'') :
    p.GrownBy (chunks' ++ chunks) p'' := by
  unfold GrownBy at *
  rw [h', h]
  simp

theorem blockSize (h : p.GrownBy chunks p') : p'.blockSize = p.blockSize := by rw [h]

theorem growFactor (h : p.GrownBy chunks p') : p'.growFactor = p.growFactor := by rw [h]

end PoolStruct.GrownBy

/-- A call made the pool grow, or it did not; the heap has just what the pool has more. -/
structure Moved (B : Build) (s s' : State) (chunks : List Chunk) (fresh : List Region) :
    Prop where
  pool : s.pool.GrownBy chunks s'.pool
  fixed : s.pool.growFactor < 2 → chunks = []
  regions : (s'.pool.regions B).Perm (fresh ++ s.pool.regions B)
  heap : s'.heap.regions.Perm (fresh ++ s.heap.regions)
  invalid : s'.heap.ledger.invalid = s.heap.ledger.invalid

theorem Moved.same {B : Build} {s s' : State} (h : s.pool.SameShape s'.pool)
    (hl : s.heap.SameLive s'.heap) : Moved B s s' [] [] where
  pool := .of_same h
  fixed _ := rfl
  regions := by rw [h.regions]; exact .refl _
  heap := by rw [Heap.regions, hl.1]; exact .refl _
  invalid := hl.2

theorem popHead_moved (B : Build) (env : Env) (s : State) :
    ∃ chunks fresh, Moved B s (popHead B env s).2 chunks fresh := by
  have h := popHead_frame B env s
  generalize popHead B env s = r at h
  cases h with
  | vend _ h1 h2 => exact ⟨[], [], .same h1 h2⟩
  | fail _ h1 h2 => exact ⟨[], [], .same h1 h2⟩
  | @grew add backing addr heap s' hg _ hf h1 h2 =>
    have hb : s'.pool.blockSize = s.pool.blockSize := h2.blockSize
    refine ⟨[⟨addr, backing, add⟩], [⟨.chunkNode, addr, B.sizeofChunk⟩,
      ⟨.backing, backing, slotStride B s.pool.blockSize * add⟩], ?_, ?_, ?_, ?_, ?_⟩
    · unfold PoolStruct.GrownBy
      simp only []
      rw [h2]
      rfl
    · intro hlt
      exact absurd hlt (by omega)
    · rw [h2.regions]
      exact @List.perm_append_comm _ [_, _] [_, _] |>.append_right _
    · simp only [h1, Heap.regions, hg.live, List.map_cons]
      exact .refl _
    · simp only [h1, hg.invalid]

namespace Store

/-- The pools are the same pools, grown or not. -/
def Grew (st st' : Store) : Prop :=
  ∀ (i : Nat) (p : PoolStruct), st.pools[i]? = some p → ∃ (chunks : List Chunk) (p' : PoolStruct),
    st'.pools[i]? = some p' ∧ p.GrownBy chunks p' ∧ (p.growFactor < 2 → chunks = [])

namespace Grew

variable {st st' st'' : Store}

theorem of_eq (h : st'.pools = st.pools) : st.Grew st' := by
  intro i p hp
  exact ⟨[], p, by rw [h]; exact hp, .of_same rfl, fun _ => rfl⟩

theorem append {p : PoolStruct} (h : st'.pools = st.pools ++ [p]) : st.Grew st' := by
  intro i q hq
  refine ⟨[], q, ?_, .of_same rfl, fun _ => rfl⟩
  rw [h, List.getElem?_append_left (List.getElem?_eq_some_iff.mp hq).1]
  exact hq

theorem trans (h : st.Grew st') (h' : st'.Grew st'') : st.Grew st'' := by
  intro i p hp
  obtain ⟨chunks, p', hp', hg, hf⟩ := h i p hp
  obtain ⟨chunks', p'', hp'', hg', hf'⟩ := h' i p' hp'
  refine ⟨chunks' ++ chunks, p'', hp'', hg.trans hg', fun hlt => ?_⟩
  rw [hf hlt, hf' (by rw [hg.growFactor]; exact hlt), List.append_nil]

theorem put {j : Nat} {p : PoolStruct} {s : State} {chunks : List Chunk}
    (hp : st.pools[j]? = some p) (hg : p.GrownBy chunks s.pool)
    (hf : p.growFactor < 2 → chunks = []) : st.Grew (st.put j (some s)) := by
  intro i q hq
  by_cases hij : i = j
  · subst hij
    obtain rfl : p = q := by rw [hp] at hq; simpa using hq
    refine ⟨chunks, s.pool, ?_, hg, hf⟩
    exact List.getElem?_set_self (List.getElem?_eq_some_iff.mp hp).1
  · refine ⟨[], q, ?_, .of_same rfl, fun _ => rfl⟩
    exact (List.getElem?_set_ne (Ne.symm hij)).trans hq

theorem length_le (h : st.Grew st') : st.pools.length ≤ st'.pools.length := by
  by_contra hlt
  have hp := List.getElem?_eq_getElem (show st'.pools.length < st.pools.length by omega)
  obtain ⟨chunks, p', hp', -⟩ := h _ _ hp
  simp at hp'

theorem blockSize (h : st.Grew st') {i : Nat} (hi : i < st.pools.length) :
    st'.blockSize i = st.blockSize i := by
  have hp := List.getElem?_eq_getElem hi
  obtain ⟨chunks, p', hp', hg, -⟩ := h i _ hp
  simp only [Store.blockSize, state, hp, hp']
  exact hg.blockSize

/-- Pools that cannot grow have the regions they had. -/
theorem fixed (h : st.Grew st') (hlen : st'.pools.length = st.pools.length)
    (hf : ∀ p ∈ st.pools, p.growFactor < 2) (B : Build) :
    st'.pools.flatMap (PoolStruct.regions B) = st.pools.flatMap (PoolStruct.regions B) := by
  rw [List.flatMap_def, List.flatMap_def]
  refine congrArg List.flatten (List.ext_getElem (by simp [hlen]) fun i hi' hi => ?_)
  simp only [List.length_map] at hi hi'
  have hp := List.getElem?_eq_getElem hi
  obtain ⟨chunks, p', hp', hg, hc⟩ := h i _ hp
  obtain rfl := hc (hf _ (List.getElem_mem hi))
  obtain ⟨_, rfl⟩ := List.getElem?_eq_some_iff.mp hp'
  simp only [List.getElem_map]
  rw [hg]
  rfl

end Grew

theorem state_eq {st : Store} {i : Nat} {p : PoolStruct} (h : st.pools[i]? = some p) :
    st.state i = some ⟨st.world, p⟩ := by
  rw [state, h]
  rfl

theorem blockSize_eq {st : Store} {i : Nat} {p : PoolStruct} (h : st.pools[i]? = some p) :
    st.blockSize i = p.blockSize := by
  rw [blockSize, state_eq h]
  rfl

end Store

end MemoryPool
