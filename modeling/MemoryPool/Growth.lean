import Mathlib.Tactic.Positivity
import Mathlib.Tactic.Ring
import MemoryPool.HeapBalance

/-!
# MemoryPool.Growth

The numbers of a dynamic pool. A growth multiplies the number of slots by `grow_factor_`; the sum
that `grow_pool` forms over the chunk list has no guard of its own, and needs none: the chunk
linked last is at least half of all slots, and its size in bytes passed a guard.

* `Geometric.step`: what one call does to the numbers.
* `growth_exact`: every run, whatever is freed, written or refused by the allocator.
-/

namespace MemoryPool

def slotSum (chunks : List Chunk) : Nat := (chunks.map Chunk.blockCount).sum

/-- A running sum of `size_t` is exact if its last value is in range. -/
theorem Build.foldl_add {B : Build} {α : Type*} (f : α → Nat) :
    ∀ (l : List α) (a : Nat), a + (l.map f).sum < B.modulus →
      l.foldl (fun total x => B.add total (f x)) a = a + (l.map f).sum := by
  intro l
  induction l with
  | nil => intro a _; simp
  | cons x l ih =>
    intro a h
    rw [List.map_cons, List.sum_cons] at h ⊢
    rw [List.foldl_cons, Build.add_eq (by omega), ih _ (by omega)]
    omega

/-- The numbers of a pool made with `N` blocks and factor `F` after `k` growths. -/
structure Geometric (B : Build) (N F k : Nat) (p : PoolStruct) : Prop where
  blockCount : p.blockCount = N
  growFactor : p.growFactor = F
  chunks : p.overflow.length = k
  growCount : p.growCount = k
  total : N + slotSum p.overflow = N * F ^ k
  small : N * F ^ k < B.modulus

namespace Geometric

variable {B : Build} {N F k : Nat} {p p' : PoolStruct}

theorem same (G : Geometric B N F k p) (h : p.SameShape p') : Geometric B N F k p' := by
  rw [h]
  exact ⟨G.blockCount, G.growFactor, G.chunks, G.growCount, G.total, G.small⟩

theorem totalCount_eq (G : Geometric B N F k p) : totalCount B p = N * F ^ k := by
  have hsum := G.total
  have hsmall := G.small
  rw [← hsum] at hsmall ⊢
  unfold totalCount
  rw [G.blockCount]
  exact Build.foldl_add Chunk.blockCount p.overflow N hsmall

theorem two_pow_le (hN : 0 < N) (hF : 2 ≤ F) : 2 ^ k ≤ N * F ^ k :=
  (Nat.pow_le_pow_left hF k).trans (Nat.le_mul_of_pos_left _ hN)

/-- Each growth at least doubles the number of slots, which stays below `2 ^ width`. -/
theorem k_lt (G : Geometric B N F k p) (hN : 0 < N) (hF : 2 ≤ F) : k < 8 * B.ptrBytes := by
  have h1 := two_pow_le (k := k) hN hF
  have h2 := G.small
  rw [Build.modulus_eq] at h2
  exact (Nat.pow_lt_pow_iff_right (by decide)).mp (h1.trans_lt h2)

theorem sub_one (hF : 2 ≤ F) (hlt : F < B.modulus) : B.sub F 1 = F - 1 :=
  Build.sub_eq (by omega) hlt

/-- `grow_pool` never finds a count of zero, and the guards refuse exactly the growths whose size
in bytes is out of range. -/
theorem growthCount_eq (G : Geometric B N F k p) (hN : 0 < N) (hF : 2 ≤ F) (hlt : F < B.modulus)
    (hs : 0 < slotStride B p.blockSize) :
    growthCount B p =
      if N * F ^ k * (F - 1) * slotStride B p.blockSize < B.modulus then
        some (N * F ^ k * (F - 1))
      else none := by
  have hpos : 0 < N * F ^ k * (F - 1) :=
    Nat.mul_pos (Nat.mul_pos hN (Nat.pow_pos (by omega))) (by omega)
  have hle : N * F ^ k * (F - 1) ≤ N * F ^ k * (F - 1) * slotStride B p.blockSize :=
    Nat.le_mul_of_pos_right _ hs
  unfold growthCount
  simp only [G.totalCount_eq, G.growFactor, sub_one hF hlt]
  by_cases hfit : N * F ^ k * (F - 1) * slotStride B p.blockSize < B.modulus
  · have hprod := hle.trans_lt hfit
    have h1 : ¬ wouldOverflowProduct B (N * F ^ k) (F - 1) = true :=
      Bool.eq_false_iff.mp (wouldOverflowProduct_eq_false_iff.mpr hprod)
    have h2 := Bool.eq_false_iff.mp (wouldOverflowProduct_eq_false_iff.mpr hfit)
    rw [if_neg h1, Build.mul_eq hprod, if_neg (by omega), if_neg h2, if_pos hfit]
  · rw [if_neg hfit]
    split
    · rfl
    · rename_i h1
      have h1 := wouldOverflowProduct_eq_false_iff.mp (Bool.eq_false_iff.mpr h1)
      rw [Build.mul_eq h1, if_neg (by omega)]
      have h2 : wouldOverflowProduct B (N * F ^ k * (F - 1)) (slotStride B p.blockSize) = true := by
        rw [← Bool.not_eq_false, wouldOverflowProduct_eq_false_iff]
        exact hfit
      rw [if_pos h2]

/-- The new total is in range because the new chunk is, counted in bytes, and holds at least half
of it. -/
theorem grown {s : State} {add backing addr : Nat} {heap : Heap} (G : Geometric B N F k s.pool)
    (hN : 0 < N) (hF : 2 ≤ F) (hlt : F < B.modulus) (hs : 2 ≤ slotStride B s.pool.blockSize)
    (hg : Grown B s add backing addr heap) :
    Geometric B N F (k + 1) (linkChunk B s add backing addr heap).pool := by
  have hcount := hg.count
  rw [G.growthCount_eq hN hF hlt (by omega)] at hcount
  split at hcount
  · rename_i hfit
    cases hcount
    have hsucc : N * F ^ k * (F - 1) + N * F ^ k = N * F ^ (k + 1) := by
      obtain ⟨f, rfl⟩ : ∃ f, F = f + 1 := ⟨F - 1, by omega⟩
      rw [Nat.add_sub_cancel, ← Nat.mul_succ, Nat.pow_succ, Nat.mul_assoc]
    have hhalf : N * F ^ k ≤ N * F ^ k * (F - 1) := Nat.le_mul_of_pos_right _ (by omega)
    have htwice : N * F ^ k * (F - 1) * 2 ≤
        N * F ^ k * (F - 1) * slotStride B s.pool.blockSize := Nat.mul_le_mul_left _ hs
    have hsmall : N * F ^ (k + 1) < B.modulus := by omega
    have hk : k + 1 < B.modulus :=
      (Nat.lt_two_pow_self.trans_le (two_pow_le hN hF)).trans hsmall
    refine ⟨G.blockCount, G.growFactor, ?_, ?_, ?_, hsmall⟩
    · simp only [linkChunk, List.length_cons, G.chunks]
    · simp only [linkChunk, G.growCount]
      exact Build.add_eq hk
    · have ht := G.total
      simp only [linkChunk, slotSum, List.map_cons, List.sum_cons] at ht ⊢
      omega
  · cases hcount

end Geometric

namespace Client

def Event.grew : Event → Bool
  | .alloc _ _ (some _) => true
  | _ => false

/-- A chunk that a call linked was asked for because `head_` was null, and has the size the
geometric progression says. -/
def GrowsRight (N F k : Nat) (c : Client) : Event → Prop
  | .alloc _ _ (some chunk) =>
    c.pool.pool.head.ptr = 0 ∧ chunk.blockCount = N * F ^ k * (F - 1)
  | _ => True

variable {B : Build} {N F k : Nat} {c c' : Client} {e : Event} {others : List (Nat × Region)}

theorem Step.geometric (hstep : Step B c e c') (L : Layout B c.pool others) (hN : 0 < N)
    (hF : 2 ≤ F) (hlt : F < B.modulus) (G : Geometric B N F k c.pool.pool) :
    Geometric B N F (k + if e.grew then 1 else 0) c'.pool.pool ∧ GrowsRight N F k c e := by
  have hs : 2 ≤ slotStride B c.pool.pool.blockSize := by
    have h1 := B.ptr_wide
    have h2 := L.ptr_le_block
    have h3 := L.stride_ge
    omega
  cases hstep with
  | @alloc env block s' h =>
    rw [memoryPoolAlloc_some] at h
    have hf := popHead_frame B env c.pool
    generalize popHead B env c.pool = r at h hf
    cases h
    cases hf with
    | vend _ h1 _ =>
      rw [newChunk_same h1]
      exact ⟨G.same h1, trivial⟩
    | fail _ h1 _ =>
      rw [newChunk_same h1]
      exact ⟨G.same h1, trivial⟩
    | @grew add backing addr heap s' hg h0 _ _ h1 =>
      rw [newChunk_grew h1]
      have hcount := hg.count
      rw [G.growthCount_eq hN hF hlt (by omega)] at hcount
      split at hcount
      · cases hcount
        exact ⟨(G.grown hN hF hlt hs hg).same h1, h0, rfl⟩
      · cases hcount
  | @free env block s' h =>
    obtain ⟨s'', h1, h2, -⟩ := memoryPoolFree_frame B env c.pool block
    rw [h] at h1
    cases h1
    exact ⟨G.same h2, trivial⟩
  | write => exact ⟨G, trivial⟩

theorem run_geometric {es : List Event} (hrun : (lts B).Run c es c')
    (L : Layout B c.pool others) (hN : 0 < N) (hF : 2 ≤ F) (hlt : F < B.modulus)
    (G : Geometric B N F k c.pool.pool) :
    Layout B c'.pool others ∧ Geometric B N F (k + es.countP Event.grew) c'.pool.pool := by
  induction hrun with
  | nil => exact ⟨L, G⟩
  | @snoc c₁ c₂ es e _ hstep ih =>
    obtain ⟨L₁, G₁⟩ := ih
    refine ⟨hstep.frame.layout L₁, ?_⟩
    have G₂ := (hstep.geometric L₁ hN hF hlt G₁).1
    rw [List.countP_append, List.countP_singleton, ← Nat.add_assoc]
    exact G₂

end Client

/-- With a free block at hand the allocator is not asked. -/
theorem popHead_unasked {B : Build} (hts : B.threadSafety ≠ .lockfree) {s : State}
    (h : s.pool.head.ptr ≠ 0) (env env' : Env) : popHead B env s = popHead B env' s := by
  have hun : popUnlocked B env s = popUnlocked B env' s := by
    unfold popUnlocked
    rw [if_neg h, if_neg h]
  unfold popHead
  cases hb : B.threadSafety with
  | none => exact hun
  | mutex => simp only [MutexPolicy.popHead_eq, hun]
  | lockfree => exact absurd hb hts

theorem metadata_small (B : Build) {k : Nat} (hk : k < 8 * B.ptrBytes) :
    B.sizeofMemoryPool + k * B.sizeofChunk < B.modulus := by
  have hp := B.ptr_wide
  have hb := B.budget
  have hpow : B.ptrBytes < 2 ^ B.ptrBytes := Nat.lt_two_pow_self
  have h1 : k * B.sizeofChunk ≤ 24 * (B.ptrBytes * B.ptrBytes) := by
    have := Nat.mul_le_mul_right (3 * B.ptrBytes) hk.le
    unfold Build.sizeofChunk
    calc k * (3 * B.ptrBytes) ≤ 8 * B.ptrBytes * (3 * B.ptrBytes) := this
      _ = 24 * (B.ptrBytes * B.ptrBytes) := by ring
  have h2 : B.ptrBytes * B.ptrBytes ≤ 2 ^ B.ptrBytes * 2 ^ B.ptrBytes :=
    Nat.mul_le_mul hpow.le hpow.le
  have h3 : 2 ^ 16 ≤ 2 ^ (4 * B.ptrBytes) := Nat.pow_le_pow_right (by decide) (by omega)
  have h4 : 2 ^ B.ptrBytes * 2 ^ B.ptrBytes * 2 ^ (4 * B.ptrBytes) ≤ B.modulus := by
    rw [Build.modulus_eq, ← Nat.pow_add, ← Nat.pow_add]
    exact Nat.pow_le_pow_right (by decide) (by omega)
  have h5 := Nat.mul_le_mul_left (2 ^ B.ptrBytes * 2 ^ B.ptrBytes) h3
  have h6 : 0 < 2 ^ B.ptrBytes * 2 ^ B.ptrBytes := Nat.mul_pos (by positivity) (by positivity)
  omega

/-- What is exact after `k` growths. The running sum is exact after each of its terms; the guards
of `grow_pool` refuse a growth only if its size in bytes is out of range, and what passes them is
computed without wrapping. -/
structure GrowthExact (B : Build) (N F k : Nat) (s : State) : Prop where
  slots : s.pool.blockCount + slotSum s.pool.overflow = N * F ^ k
  chunks : s.pool.overflow.length = k
  growths : memoryPoolGrowths (some s) = k
  metadata : memoryPoolMetadataBytes B (some s) = B.sizeofMemoryPool + k * B.sizeofChunk
  running : ∀ terms, terms <+: s.pool.overflow →
    terms.foldl (fun total chunk => B.add total chunk.blockCount) s.pool.blockCount =
      s.pool.blockCount + slotSum terms
  factor : B.sub s.pool.growFactor 1 = F - 1
  guards : growthCount B s.pool =
    if N * F ^ k * (F - 1) * slotStride B s.pool.blockSize < B.modulus then
      some (N * F ^ k * (F - 1))
    else none
  exact : ∀ add, growthCount B s.pool = some add →
    0 < add ∧ totalCount B s.pool * (F - 1) < B.modulus ∧
      add * slotStride B s.pool.blockSize < B.modulus

theorem Geometric.growthExact {B : Build} {N F k : Nat} {s : State}
    (G : Geometric B N F k s.pool) (hN : 0 < N) (hF : 2 ≤ F) (hlt : F < B.modulus)
    (hs : 0 < slotStride B s.pool.blockSize) : GrowthExact B N F k s := by
  have hsmall := G.small
  have htotal := G.total
  refine ⟨?_, G.chunks, G.growCount, ?_, ?_, ?_, G.growthCount_eq hN hF hlt hs, ?_⟩
  · rw [G.blockCount]
    exact htotal
  · have hsum : (s.pool.overflow.map fun _ => B.sizeofChunk).sum = k * B.sizeofChunk := by
      rw [List.map_const', List.sum_replicate_nat, G.chunks]
    have hfold := Build.foldl_add (B := B) (fun _ => B.sizeofChunk) s.pool.overflow
      B.sizeofMemoryPool (by rw [hsum]; exact metadata_small B (G.k_lt hN hF))
    rw [hsum] at hfold
    exact hfold
  · rintro terms ⟨rest, hrest⟩
    refine Build.foldl_add Chunk.blockCount terms _ ?_
    rw [← hrest] at htotal
    simp only [slotSum, List.map_append, List.sum_append] at htotal
    rw [G.blockCount]
    omega
  · rw [G.growFactor]
    exact Geometric.sub_one hF hlt
  · intro add hadd
    obtain ⟨h1, rfl, h2, h3⟩ := growthCount_some hadd
    rw [G.growFactor, Geometric.sub_one hF hlt] at h1
    exact ⟨h2, h1, h3⟩

/-- From creation with `N` blocks and factor `F`, after any run: with `k` growths in it the numbers
are those of the geometric progression, none of the sums and products that `grow_pool` uses wraps,
the allocator is asked only when `head_` is null, and the next growth, if it comes, brings
`N * F ^ k * (F - 1)` slots. -/
theorem growth_exact {B : Build} {env : Env} {w w' : World} {blockSize N F : Nat} {p : PoolStruct}
    (hr : (CreateCall.dynamic blockSize N F).InRange B)
    (hcreate : memoryPoolCreateDynamic B env w blockSize N F = (some p, w'))
    {es : List Client.Event} {c : Client} (hrun : (Client.lts B).Run ⟨⟨w', p⟩, []⟩ es c) :
    GrowthExact B N F (es.countP Client.Event.grew) c.pool ∧
    (c.pool.pool.head.ptr ≠ 0 → ∀ env env',
      memoryPoolAlloc B env (some c.pool) = memoryPoolAlloc B env' (some c.pool)) ∧
    ∀ e c', (Client.lts B).step c e c' →
      Client.GrowsRight N F (es.countP Client.Event.grew) c e := by
  have hcall : (CreateCall.dynamic blockSize N F).run B env w = (some p, w') := hcreate
  have C := CreateCall.created hr hcall
  obtain ⟨hpc, hpf⟩ := CreateCall.run_fields hcall
  simp only [CreateCall.blockCount, CreateCall.growthFactor] at hpc hpf
  obtain ⟨hts, hF, -⟩ := memoryPoolCreateDynamic_some hcreate
  have L := C.inv.layout
  have hN : 0 < N := by
    have h := (L.chunk_pos (p.backing, p.blockCount) (List.mem_cons_self ..)).2
    simp only [hpc] at h
    exact h
  have hsum : N + slotSum p.overflow = N * F ^ 0 := by
    rw [C.overflow]
    simp [slotSum]
  have G : Geometric B N F 0 p :=
    ⟨hpc, hpf, by rw [C.overflow]; rfl, C.growCount, hsum, by simpa using hr.2.1⟩
  obtain ⟨L', G'⟩ := Client.run_geometric hrun L hN hF hr.2.2 G
  rw [Nat.zero_add] at G'
  refine ⟨G'.growthExact hN hF hr.2.2 L'.stride_pos, ?_, ?_⟩
  · intro h env env'
    rw [memoryPoolAlloc_some, memoryPoolAlloc_some, popHead_unasked hts h env env']
  · intro e c' hstep
    exact (hstep.geometric L' hN hF hr.2.2 G').2

/-- Two growths with a refused one in between: one slot, then two, then four. -/
theorem growth_exact_x64 :
    ∃ c, (Client.lts (Build.x64 false .none)).Run (firstClient (Build.x64 false .none))
        [.alloc firstEnv 0x1000 none, .alloc secondEnv 0x2000 (some ⟨0x200, 0x2000, 1⟩),
          .alloc ⟨none, none, 0⟩ 0 none,
          .alloc ⟨some 0x3000, some 0x300, 0⟩ 0x3000 (some ⟨0x300, 0x3000, 2⟩)] c ∧
      GrowthExact (Build.x64 false .none) 1 2 2 c.pool := by
  obtain ⟨c, hrun⟩ := Client.script_run (Build.x64 false .none) Client.OwnWrites
    (firstClient (Build.x64 false .none))
    [.alloc firstEnv, .alloc secondEnv, .alloc ⟨none, none, 0⟩,
      .alloc ⟨some 0x3000, some 0x300, 0⟩]
    [.alloc firstEnv 0x1000 none, .alloc secondEnv 0x2000 (some ⟨0x200, 0x2000, 1⟩),
      .alloc ⟨none, none, 0⟩ 0 none,
      .alloc ⟨some 0x3000, some 0x300, 0⟩ 0x3000 (some ⟨0x300, 0x3000, 2⟩)] (by decide +kernel)
  have hcreate : memoryPoolCreateDynamic (Build.x64 false .none) firstEnv World.start 16 1 2 =
      (some firstPool, (firstClient (Build.x64 false .none)).pool.toWorld) :=
    firstCall_run false .none (by decide)
  obtain ⟨h, -, -⟩ := growth_exact (by decide) hcreate hrun.of_guard
  exact ⟨c, hrun.of_guard, h⟩

end MemoryPool
