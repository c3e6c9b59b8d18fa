import MemoryPool.HeapBalance

/-!
# MemoryPool.Membership

The range check of `memory_pool_free` is exact over any number of chunks, and what it rejects
changes nothing. The run may be of any client: the check depends on the layout only, which no
corruption of slots can break.
-/

namespace MemoryPool

theorem PoolStruct.chunk_region {B : Build} {p : PoolStruct} {c : Nat × Nat} (hc : c ∈ p.chunks) :
    (⟨.backing, c.1, slotStride B p.blockSize * c.2⟩ : Region) ∈ p.regions B := by
  rcases List.mem_cons.mp hc with rfl | hc
  · exact List.mem_cons_of_mem _ (List.mem_cons_self ..)
  · obtain ⟨d, hd, rfl⟩ := List.mem_map.mp hc
    refine List.mem_cons_of_mem _ (List.mem_cons_of_mem _ (List.mem_flatMap.mpr ⟨d, hd, ?_⟩))
    exact List.mem_cons_of_mem _ (List.mem_cons_self ..)

theorem Layout.foreign {B : Build} {s : State} {others : List (Nat × Region)}
    (L : Layout B s others) {e : Nat × Region} (he : e ∈ others) {block : Nat}
    (hl : e.2.base ≤ block) (hu : block < e.2.base + e.2.bytes) : block ∉ s.pool.slots B := by
  intro hb
  obtain ⟨c, hc, hbc⟩ := Layout.mem_slots.mp hb
  obtain ⟨own, hlive, hown⟩ := L.owned
  have hpw := s.heap.apart.perm (hlive.map Prod.snd) Region.Apart.symm
  rw [List.map_append] at hpw
  have hap := (List.pairwise_append.mp hpw).2.2 _
    (hown.mem_iff.mpr (PoolStruct.chunk_region hc)) e.2 (List.mem_map.mpr ⟨e, he, rfl⟩)
  have hin := slotsOf_inside hbc
  have hpos := L.stride_pos
  rcases hap.2 with h | h
  · simp only at h
    omega
  · simp only at h
    omega

/-- In every reachable state, for every pointer: the range check accepts exactly the slot starts
of the inline chunk and of the overflow chunks, so nothing inside another outstanding region; and
freeing what it rejects leaves pool and world as they were. -/
theorem membership_exact {B : Build} {env : Env} {w w' : World} {call : CreateCall}
    {p : PoolStruct} (hr : call.InRange B) (hcreate : call.run B env w = (some p, w'))
    {es : List Client.Event} {c : Client} (hrun : (Client.lts B).Run ⟨⟨w', p⟩, []⟩ es c)
    (block : Nat) :
    (isBlockInRange B c.pool.pool block = true ↔
      (∃ i < c.pool.pool.blockCount,
        block = c.pool.pool.backing + i * slotStride B c.pool.pool.blockSize) ∨
      ∃ chunk ∈ c.pool.pool.overflow, ∃ i < chunk.blockCount,
        block = chunk.backing + i * slotStride B c.pool.pool.blockSize) ∧
    (∀ e ∈ w.heap.ledger.live, e.2.base ≤ block → block < e.2.base + e.2.bytes →
      isBlockInRange B c.pool.pool block = false) ∧
    (isBlockInRange B c.pool.pool block = false →
      ∀ env, memoryPoolFree B env (some c.pool) block = some c.pool) := by
  have L := (Client.run_layout hrun (CreateCall.created hr hcreate).inv.layout).1
  refine ⟨?_, ?_, ?_⟩
  · rw [L.isBlockInRange_iff, Layout.mem_slots]
    simp only [PoolStruct.chunks, List.mem_cons, List.mem_map, mem_slotsOf]
    constructor
    · rintro ⟨d, rfl | ⟨chunk, hc, rfl⟩, hi⟩
      · exact Or.inl hi
      · exact Or.inr ⟨chunk, hc, hi⟩
    · rintro (hi | ⟨chunk, hc, hi⟩)
      · exact ⟨_, Or.inl rfl, hi⟩
      · exact ⟨_, Or.inr ⟨chunk, hc, rfl⟩, hi⟩
  · intro e he hl hu
    exact Bool.eq_false_iff.mpr fun h => L.foreign he hl hu (L.isBlockInRange_iff.mp h)
  · intro h env
    refine memoryPoolFree_foreign L (fun hb => ?_) env
    rw [L.isBlockInRange_iff.mpr hb] at h
    cases h

/-- After a growth, one past the end of the new chunk. -/
theorem membership_exact_x64 :
    ∃ c, (Client.lts (Build.x64 true .none)).Run (firstClient (Build.x64 true .none))
        [.alloc firstEnv 0x1000 none, .alloc secondEnv 0x2000 (some ⟨0x200, 0x2000, 1⟩)] c ∧
      ∀ env, memoryPoolFree (Build.x64 true .none) env (some c.pool) 0x2020 = some c.pool := by
  have h : (Lts.script (Client.execIf (Build.x64 true .none) Client.OwnWrites fun _ e _ => e)
      (firstClient (Build.x64 true .none)) [.alloc firstEnv, .alloc secondEnv]).map
        (fun r => (r.1, isBlockInRange (Build.x64 true .none) r.2.pool.pool 0x2020)) =
      some ([.alloc firstEnv 0x1000 none, .alloc secondEnv 0x2000 (some ⟨0x200, 0x2000, 1⟩)],
        false) := by decide +kernel
  obtain ⟨c, hrun, hrange⟩ := Lts.script_run Client.execIf_step
    (fun c => isBlockInRange (Build.x64 true .none) c.pool.pool 0x2020) h
  have hrun := (Client.observed_run hrun).of_guard
  obtain ⟨-, -, hfree⟩ := membership_exact (by decide) (firstCall_run true .none (by decide)) hrun
    0x2020
  exact ⟨c, hrun, hfree hrange⟩

end MemoryPool
