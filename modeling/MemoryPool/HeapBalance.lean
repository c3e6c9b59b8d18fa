import MemoryPool.Client

/-!
# MemoryPool.HeapBalance

The pool gives back what it takes. The heap of a run is compared with the heap before the pool
was created (`Heap.Balanced`): the same regions outstanding, no release of anything that was not
outstanding, and everything obtained in between released exactly once.

* `Heap.releaseRegions_spec`: releasing a set of owned regions, in any order.
* `memoryPoolDestroy_heap`: the walk of `memory_pool_destroy` visits the regions of the pool.
* `heap_balance`: create, any run, destroy.
-/

namespace MemoryPool

namespace Heap

/-- Back to the same outstanding regions, with everything obtained since `h` released once and
nothing else. -/
structure Balanced (h h' : Heap) : Prop where
  live : h'.ledger.live.Perm h.ledger.live
  invalid : h'.ledger.invalid = h.ledger.invalid
  once : ∀ id, h.ledger.next ≤ id → id < h'.ledger.next → h'.ledger.released.count id = 1

/-- Every identity handed out is outstanding or was released, once. So it is enough to compare
what is outstanding. -/
theorem Balanced.of_live {h h' : Heap} (hl : h'.ledger.live.Perm h.ledger.live)
    (hi : h'.ledger.invalid = h.ledger.invalid) : h.Balanced h' := by
  refine ⟨hl, hi, fun id hge hlt => ?_⟩
  have hold : (h.ledger.live.map Prod.fst).count id = 0 := by
    refine List.count_eq_zero_of_not_mem fun hm => ?_
    have := h.ledger.balanced.mem_iff.mp (List.mem_append_left _ hm)
    rw [List.mem_range] at this
    omega
  have hall := h'.ledger.balanced.count_eq id
  rw [List.count_append, (hl.map Prod.fst).count_eq, hold, Nat.zero_add] at hall
  rw [hall]
  exact List.count_eq_one_of_mem List.nodup_range (List.mem_range.mpr hlt)

/-- No two outstanding regions share their first byte, so a release by kind and address takes
exactly the region meant. -/
theorem release_spec {h : Heap} {e : Nat × Region} {rest : List (Nat × Region)}
    (hl : h.ledger.live.Perm (e :: rest)) :
    (h.release e.2.kind e.2.base).ledger.live.Perm rest ∧
      (h.release e.2.kind e.2.base).ledger.invalid = h.ledger.invalid := by
  have hap := h.apart.perm (hl.map Prod.snd) Region.Apart.symm
  rw [List.map_cons, List.pairwise_cons] at hap
  refine Ledger.release_live hl (by simp) fun x hx => ?_
  have hne := (hap.1 x.2 (List.mem_map.mpr ⟨x, hx, rfl⟩)).1
  simp only [decide_eq_false_iff_not, not_and]
  intro _ hb
  exact hne hb.symm

def releaseRegions (h : Heap) (l : List Region) : Heap :=
  l.foldl (fun h r => h.release r.kind r.base) h

theorem releaseRegions_spec {others : List (Nat × Region)} :
    ∀ {l : List Region} {h : Heap} {own : List (Nat × Region)},
      h.ledger.live.Perm (own ++ others) → (own.map Prod.snd).Perm l →
      (h.releaseRegions l).ledger.live.Perm others ∧
        (h.releaseRegions l).ledger.invalid = h.ledger.invalid := by
  intro l
  induction l with
  | nil =>
    intro h own hl hown
    obtain rfl := List.map_eq_nil_iff.mp hown.eq_nil
    exact ⟨hl, rfl⟩
  | cons r l ih =>
    intro h own hl hown
    obtain ⟨e, he, rfl⟩ := List.mem_map.mp (hown.mem_iff.mpr (List.mem_cons_self ..))
    obtain ⟨own₁, own₂, rfl⟩ := List.append_of_mem he
    have hown' : ((own₁ ++ own₂).map Prod.snd).Perm l := by
      refine (List.perm_cons e.2).mp (List.Perm.trans ?_ hown)
      rw [List.map_append, List.map_append, List.map_cons]
      exact List.perm_middle.symm
    have hl' : h.ledger.live.Perm (e :: ((own₁ ++ own₂) ++ others)) :=
      hl.trans (List.perm_middle.append_right others)
    obtain ⟨h1, h2⟩ := release_spec hl'
    obtain ⟨h3, h4⟩ := ih h1 hown'
    exact ⟨h3, h4.trans h2⟩

end Heap

/-! ## Destroy -/

def chunkRegions (B : Build) (stride : Nat) (chunks : List Chunk) : List Region :=
  chunks.flatMap fun c =>
    [⟨.backing, c.backing, stride * c.blockCount⟩, ⟨.chunkNode, c.addr, B.sizeofChunk⟩]

theorem releaseChunks_heap (B : Build) (stride : Nat) :
    ∀ (chunks : List Chunk) (w : World),
      (releaseChunks w chunks).heap = w.heap.releaseRegions (chunkRegions B stride chunks) := by
  intro chunks
  induction chunks with
  | nil => intro w; rfl
  | cons c chunks ih => intro w; exact ih _

theorem memoryPoolDestroy_heap (B : Build) (w : World) (p : PoolStruct) :
    (memoryPoolDestroy w (some p)).heap =
      w.heap.releaseRegions (chunkRegions B (slotStride B p.blockSize) p.overflow ++
        [⟨.backing, p.backing, slotStride B p.blockSize * p.blockCount⟩,
          ⟨.poolStruct, p.addr, B.sizeofMemoryPool⟩]) := by
  have hchunks := releaseChunks_heap B (slotStride B p.blockSize) p.overflow w
  unfold Heap.releaseRegions
  rw [List.foldl_append]
  unfold Heap.releaseRegions at hchunks
  rw [← hchunks]
  rfl

theorem releaseChunks_mem :
    ∀ (chunks : List Chunk) (w : World), (releaseChunks w chunks).mem = w.mem := by
  intro chunks
  induction chunks with
  | nil => intro w; rfl
  | cons c chunks ih => intro w; exact ih _

theorem memoryPoolDestroy_mem (w : World) (p : PoolStruct) :
    (memoryPoolDestroy w (some p)).mem = w.mem := releaseChunks_mem p.overflow w

theorem destroy_regions (B : Build) (p : PoolStruct) :
    (p.regions B).Perm (chunkRegions B (slotStride B p.blockSize) p.overflow ++
      [⟨.backing, p.backing, slotStride B p.blockSize * p.blockCount⟩,
        ⟨.poolStruct, p.addr, B.sizeofMemoryPool⟩]) := by
  have hchunks : (p.overflow.flatMap fun c =>
      [(⟨.chunkNode, c.addr, B.sizeofChunk⟩ : Region),
        ⟨.backing, c.backing, slotStride B p.blockSize * c.blockCount⟩]).Perm
      (chunkRegions B (slotStride B p.blockSize) p.overflow) := by
    unfold chunkRegions
    generalize p.overflow = l
    induction l with
    | nil => exact .refl _
    | cons c l ih =>
      simp only [List.flatMap_cons]
      exact (List.Perm.swap ..).append ih
  unfold PoolStruct.regions
  refine ((hchunks.cons _).cons _).trans ?_
  refine (List.Perm.swap ..).trans ?_
  exact @List.perm_append_comm _ [_, _] _

theorem Layout.destroy {B : Build} {s : State} {others : List (Nat × Region)}
    (L : Layout B s others) :
    (memoryPoolDestroy s.toWorld (some s.pool)).heap.ledger.live.Perm others ∧
      (memoryPoolDestroy s.toWorld (some s.pool)).heap.ledger.invalid =
        s.heap.ledger.invalid := by
  obtain ⟨own, hlive, hown⟩ := L.owned
  rw [memoryPoolDestroy_heap B]
  exact Heap.releaseRegions_spec hlive (hown.trans (destroy_regions B s.pool))

/-! ## Create -/

/-- A failed create changes nothing but the heap's history. -/
theorem memoryPoolCreate_none {B : Build} {env : Env} {w w' : World} {blockSize blockCount : Nat}
    (h : memoryPoolCreate B env w blockSize blockCount = (none, w')) :
    ∃ heap, w.heap.SameLive heap ∧ w' = { w with heap := heap } := by
  unfold memoryPoolCreate at h
  split at h
  · cases h; exact ⟨w.heap, ⟨rfl, rfl⟩, rfl⟩
  · split at h
    · cases h; exact ⟨w.heap, ⟨rfl, rfl⟩, rfl⟩
    · simp only [] at h
      split at h
      · cases h; exact ⟨w.heap, ⟨rfl, rfl⟩, rfl⟩
      · rcases World.operatorNew_cases B w .backing
          (B.mul (slotStride B blockSize) blockCount) B.poolAlignment env.backing with
          he | ⟨backing, h1, he⟩
        · rw [he] at h; cases h; exact ⟨w.heap, ⟨rfl, rfl⟩, rfl⟩
        · rw [he] at h
          simp only [] at h
          rcases World.operatorNew_cases B { w with heap := w.heap.obtain _ h1.fresh } .poolStruct
            B.sizeofMemoryPool B.ptrBytes env.object with hf | ⟨addr, h2, hf⟩
          · -- the struct could not be had: the backing goes back
            rw [hf] at h
            cases h
            exact ⟨_, w.heap.release_obtain _ h1.fresh, rfl⟩
          · rw [hf] at h; cases h

theorem CreateCall.run_none {B : Build} {env : Env} {w w' : World} {call : CreateCall}
    (h : call.run B env w = (none, w')) :
    ∃ heap, w.heap.SameLive heap ∧ w' = { w with heap := heap } := by
  cases call with
  | fixed blockSize blockCount => exact memoryPoolCreate_none h
  | dynamic blockSize blockCount growthFactor =>
    have hd : memoryPoolCreateDynamic B env w blockSize blockCount growthFactor = (none, w') := h
    unfold memoryPoolCreateDynamic at hd
    split at hd
    · cases hd; exact ⟨w.heap, ⟨rfl, rfl⟩, rfl⟩
    · split at hd
      · cases hd; exact ⟨w.heap, ⟨rfl, rfl⟩, rfl⟩
      · split at hd
        · rename_i hc
          cases hd
          exact memoryPoolCreate_none hc
        · cases hd

/-! ## The whole life -/

theorem Frame.invalid {B : Build} {s s' : State} (h : Frame B s s') :
    s'.heap.ledger.invalid = s.heap.ledger.invalid := by
  cases h with
  | same _ h2 => exact h2.2
  | grew hg h1 _ => rw [h1]; exact hg.invalid

theorem Client.run_layout {B : Build} {c c' : Client} {es : List Client.Event}
    {others : List (Nat × Region)} (hrun : (Client.lts B).Run c es c')
    (L : Layout B c.pool others) :
    Layout B c'.pool others ∧ c'.pool.heap.ledger.invalid = c.pool.heap.ledger.invalid := by
  refine hrun.invariant (I := fun d => Layout B d.pool others ∧
    d.pool.heap.ledger.invalid = c.pool.heap.ledger.invalid) ?_ ⟨L, rfl⟩
  rintro d e d' ⟨hL, hi⟩ hstep
  exact ⟨hstep.frame.layout hL, hstep.frame.invalid.trans hi⟩

/-- Whatever the allocator answers: a failed create is balanced; after a successful one and any
run, exactly the struct, one backing for each chunk and one descriptor for each overflow chunk
are outstanding; and destroy makes the whole life balanced. -/
theorem heap_balance {B : Build} {env : Env} {w w' : World} {call : CreateCall}
    (hr : call.InRange B) :
    (call.run B env w = (none, w') → w.heap.Balanced w'.heap) ∧
    ∀ p, call.run B env w = (some p, w') → ∀ es c, (Client.lts B).Run ⟨⟨w', p⟩, []⟩ es c →
      (∃ own, c.pool.heap.ledger.live.Perm (own ++ w.heap.ledger.live) ∧
        (own.map Prod.snd).Perm (c.pool.pool.regions B)) ∧
      c.pool.heap.ledger.invalid = w.heap.ledger.invalid ∧
      w.heap.Balanced (memoryPoolDestroy c.pool.toWorld (some c.pool.pool)).heap := by
  constructor
  · intro h
    obtain ⟨heap, ⟨h1, h2⟩, rfl⟩ := CreateCall.run_none h
    exact .of_live (by rw [h1]) h2
  · intro p h es c hrun
    have C := CreateCall.created hr h
    obtain ⟨L, hi⟩ := Client.run_layout hrun C.inv.layout
    have hinv := hi.trans C.invalid
    obtain ⟨h1, h2⟩ := L.destroy
    exact ⟨L.owned, hinv, .of_live h1 (h2.trans hinv)⟩

theorem heap_balance_x64 :
    ∃ c, (Client.lts (Build.x64 false .none)).Run (firstClient (Build.x64 false .none))
        [.alloc firstEnv 0x1000 none, .alloc ⟨some 0x2000, none, 0⟩ 0 none,
          .alloc secondEnv 0x2000 (some ⟨0x200, 0x2000, 1⟩), .free firstEnv 0x1000,
          .free firstEnv 0x1000] c ∧
      World.start.heap.Balanced (memoryPoolDestroy c.pool.toWorld (some c.pool.pool)).heap := by
  obtain ⟨c, hrun⟩ := Client.script_run (Build.x64 false .none) Client.OwnWrites
    (firstClient (Build.x64 false .none))
    [.alloc firstEnv, .alloc ⟨some 0x2000, none, 0⟩, .alloc secondEnv, .free firstEnv 0x1000,
      .free firstEnv 0x1000]
    [.alloc firstEnv 0x1000 none, .alloc ⟨some 0x2000, none, 0⟩ 0 none,
      .alloc secondEnv 0x2000 (some ⟨0x200, 0x2000, 1⟩), .free firstEnv 0x1000,
      .free firstEnv 0x1000] (by decide +kernel)
  have h := @heap_balance (Build.x64 false .none) firstEnv World.start
    (firstClient (Build.x64 false .none)).pool.toWorld firstCall (by decide)
  exact ⟨c, hrun.of_guard,
    (h.2 firstPool (firstCall_run false .none (by decide)) _ c hrun.of_guard).2.2⟩

end MemoryPool
