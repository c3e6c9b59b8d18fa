import MemoryPool.InitFreeList

/-!
# MemoryPool.FreeList

The invariant that ties raw memory to the abstract list of free slots.

* `PoolInv`: the links spell out `free` from `head_`, `free` and `held` together are the slots,
  and every slot carries the stamps of its side.
* `onAllocHook_freed`, `onFreeHook_held`, `onFreeHook_freed`: the hardening hooks on slots in good
  order.
* `PoolInv.vend`, `PoolInv.takeBack`, `PoolInv.link`: the three ways the list changes.
-/

namespace MemoryPool

open ByteMem LinkedList

structure PoolInv (B : Build) (s : State) (others : List (Nat × Region))
    (free held : List Nat) : Prop where
  layout : Layout B s others
  chain : Chain (revealNext B s.mem) 0 s.pool.head.ptr free
  parts : (free ++ held).Perm (s.pool.slots B)
  freed : ∀ a ∈ free, StampedFree B s.mem a s.pool.blockSize
  vended : ∀ a ∈ held, StampedHeld B s.mem a s.pool.blockSize
  unlocked : s.pool.mutex = false

namespace PoolInv

variable {B : Build} {s s' : State} {others : List (Nat × Region)} {free held : List Nat}

theorem free_slot (I : PoolInv B s others free held) {a : Nat} (ha : a ∈ free) :
    a ∈ s.pool.slots B := I.parts.mem_iff.mp (List.mem_append_left _ ha)

theorem held_slot (I : PoolInv B s others free held) {a : Nat} (ha : a ∈ held) :
    a ∈ s.pool.slots B := I.parts.mem_iff.mp (List.mem_append_right _ ha)

theorem nodup (I : PoolInv B s others free held) : (free ++ held).Nodup :=
  I.parts.nodup_iff.mpr I.layout.slots_nodup

theorem disjoint (I : PoolInv B s others free held) {a : Nat} (ha : a ∈ free) : a ∉ held := by
  intro hh
  exact (List.nodup_append.mp I.nodup).2.2 a ha a hh rfl

theorem slot_iff (I : PoolInv B s others free held) {a : Nat} :
    a ∈ s.pool.slots B ↔ a ∈ free ∨ a ∈ held := by
  rw [← I.parts.mem_iff, List.mem_append]

theorem head_lt (I : PoolInv B s others free held) : s.pool.head.ptr < B.modulus := by
  by_cases h0 : s.pool.head.ptr = 0
  · rw [h0]; exact B.modulus_pos
  · obtain ⟨t, rfl, -⟩ := I.chain.eq_cons h0
    have := (I.layout.slot_spec (I.free_slot (List.mem_cons_self ..))).2.2
    omega

theorem head_zero_iff (I : PoolInv B s others free held) :
    s.pool.head.ptr = 0 ↔ free = [] := by
  constructor
  · intro h0
    have hc := I.chain
    rw [h0] at hc
    exact Chain.nil_iff.mp hc
  · rintro rfl
    exact I.chain.start_eq_nil

theorem other_slot (I : PoolInv B s others free held) {m : Mem} {a b : Nat}
    (ha : a ∈ s.pool.slots B) (hb : b ∈ s.pool.slots B) (hne : b ≠ a)
    (h : ∀ x, (x < a ∨ a + slotStride B s.pool.blockSize ≤ x) → m x = s.mem x) :
    SameOn s.mem m b (slotStride B s.pool.blockSize) :=
  sameOn_of_outside h (I.layout.slots_apart ha hb (Ne.symm hne))

end PoolInv

/-- The fresh chunk is apart from every chunk the pool had, so no slot of these sees a byte of its
initialisation. -/
theorem Layout.link_same {B : Build} {s : State} {others : List (Nat × Region)}
    {add backing addr : Nat} {heap : Heap} (L : Layout B s others)
    (hg : Grown B s add backing addr heap) {b : Nat} (hb : b ∈ s.pool.slots B) :
    SameOn s.mem (linkChunk B s add backing addr heap).mem b (slotStride B s.pool.blockSize) := by
  intro x hl hu
  have hpos := (growthCount_some hg.count).2.2.1
  obtain ⟨hout, -⟩ := initializeFreeList_spec (m := s.mem) L.dims hpos hg.fits.le
  refine hout x ?_
  obtain ⟨c, hc, hbc⟩ := Layout.mem_slots.mp hb
  have hbin := slotsOf_inside hbc
  have hap : ∀ d ∈ s.pool.chunks,
      ChunkApart (slotStride B s.pool.blockSize) (backing, add) d := by
    have h := (L.grow hg).chunks_apart
    simp only [linkChunk, PoolStruct.chunks, List.map_cons, List.pairwise_cons] at h
    intro d hd
    rcases List.mem_cons.mp hd with rfl | hd
    · exact (h.1 _ (List.mem_cons_self ..)).symm
    · exact h.2.1 d hd
  rcases hap c hc with h | h
  · right; simp only [] at h; omega
  · left; simp only [] at h; omega

/-! ## The hooks on slots in good order -/

/-- What `on_alloc` leaves of a slot in good order. -/
def vendedMem (B : Build) (m : Mem) (slot blockSize : Nat) : Mem :=
  if B.hardening then writeGuard m slot blockSize guardAllocated else m

def takenMem (B : Build) (m : Mem) (slot blockSize : Nat) : Mem :=
  if B.hardening then freedMem B m slot blockSize else m

def State.vend (B : Build) (s : State) (a tag : Nat) : State :=
  { s with
    mem := vendedMem B s.mem a s.pool.blockSize
    pool := { s.pool with head := ⟨revealNext B s.mem a, tag⟩ } }

def State.takeBack (B : Build) (s : State) (a tag : Nat) : State :=
  { s with
    mem := writeNext B (takenMem B s.mem a s.pool.blockSize) a s.pool.head.ptr
    pool := { s.pool with head := ⟨a, tag⟩ } }

theorem onAllocHook_freed {B : Build} {s : State} {a : Nat}
    (hs : StampedFree B s.mem a s.pool.blockSize) :
    s.onAllocHook B a = { s with mem := vendedMem B s.mem a s.pool.blockSize } := by
  unfold State.onAllocHook vendedMem
  split
  · rename_i hh
    obtain ⟨hg, hp⟩ := hs hh
    rw [onAlloc_freed hg hp]
    rfl
  · rfl

theorem onFreeHook_held {B : Build} {s : State} {a : Nat}
    (hs : StampedHeld B s.mem a s.pool.blockSize) :
    s.onFreeHook B a = (true, { s with mem := takenMem B s.mem a s.pool.blockSize }) := by
  unfold State.onFreeHook takenMem
  split
  · rename_i hh
    rw [onFree_allocated (hs hh)]
    rfl
  · rfl

theorem onFreeHook_freed {B : Build} {s : State} {a : Nat} (hh : B.hardening = true)
    (hs : StampedFree B s.mem a s.pool.blockSize) :
    s.onFreeHook B a = (false, s.setWorld (s.report .doubleFree a)) := by
  obtain ⟨hg, hp⟩ := hs hh
  unfold State.onFreeHook
  rw [if_pos hh, onFree_freed hg hp]

section Hooks

variable {B : Build} {m : Mem} {a blockSize : Nat}

theorem vendedMem_outside (d : SlotDims B blockSize) {x : Nat}
    (h : x < a + blockSize ∨ a + slotStride B blockSize ≤ x) :
    vendedMem B m a blockSize x = m x := by
  unfold vendedMem
  split
  · rename_i hh
    have := d.guard hh
    exact writeGuard_outside (by omega)
  · rfl

theorem vendedMem_stamped (B : Build) (m : Mem) (a blockSize : Nat) :
    StampedHeld B (vendedMem B m a blockSize) a blockSize := by
  intro hh
  unfold vendedMem
  rw [if_pos hh]
  exact readGuard_writeGuard _ (by decide)

theorem takenMem_outside (d : SlotDims B blockSize) {x next : Nat}
    (h : x < a ∨ a + slotStride B blockSize ≤ x) :
    writeNext B (takenMem B m a blockSize) a next x = m x := by
  have h1 := d.link
  have h2 := d.block
  rw [writeNext_outside (by omega)]
  unfold takenMem
  split
  · rename_i hh
    have := d.guard hh
    exact freedMem_outside h1 (by omega)
  · rfl

/-- The link is written after the poison and stays clear of payload and guard. -/
theorem takenMem_stamped (d : SlotDims B blockSize) (next : Nat) :
    StampedFree B (writeNext B (takenMem B m a blockSize) a next) a blockSize := by
  intro hh
  have h1 := d.link
  unfold takenMem
  rw [if_pos hh]
  refine ⟨(readGuard_congr ?_).trans (freedMem_guard B m a blockSize), ?_⟩
  · intro x hl _
    exact writeNext_outside (by omega)
  · intro x hl hu
    exact (writeNext_outside (Or.inr hl)).trans
      (freedMem_poisoned B m a blockSize x hl hu)

end Hooks

/-! ## The three changes of the list -/

namespace PoolInv

variable {B : Build} {s s' : State} {others : List (Nat × Region)} {free held : List Nat}

theorem vend {a : Nat} (I : PoolInv B s others (a :: free) held) (tag : Nat) :
    PoolInv B (s.vend B a tag) others free (a :: held) := by
  have d := I.layout.dims
  have ha := I.free_slot (List.mem_cons_self ..)
  obtain ⟨heq, hne, hc⟩ := Chain.cons_iff.mp I.chain
  have hout : ∀ x, (x < a ∨ a + slotStride B s.pool.blockSize ≤ x) →
      (s.vend B a tag).mem x = s.mem x := fun x hx =>
    vendedMem_outside d (by have := d.block; omega)
  have hnd := I.nodup
  have hother : ∀ b, b ∈ free ∨ b ∈ held →
      SameOn s.mem (s.vend B a tag).mem b (slotStride B s.pool.blockSize) := by
    intro b hb
    have hbs : b ∈ s.pool.slots B := by
      rcases hb with hb | hb
      · exact I.free_slot (List.mem_cons_of_mem _ hb)
      · exact I.held_slot hb
    refine I.other_slot ha hbs ?_ hout
    rintro rfl
    simp only [List.cons_append, List.nodup_cons, List.mem_append] at hnd
    exact hnd.1 hb
  refine ⟨I.layout.same rfl rfl, ?_, ?_, ?_, ?_, I.unlocked⟩
  · exact hc.congr fun b hb => revealNext_same d (hother b (Or.inl hb))
  · exact List.perm_middle.trans I.parts
  · intro b hb
    exact (I.freed b (List.mem_cons_of_mem _ hb)).same d (hother b (Or.inl hb))
  · intro b hb
    rcases List.mem_cons.mp hb with rfl | hb
    · exact vendedMem_stamped B s.mem b s.pool.blockSize
    · exact (I.vended b hb).same d (hother b (Or.inr hb))

theorem takeBack {a : Nat} (I : PoolInv B s others free held) (ha : a ∈ held) (tag : Nat) :
    PoolInv B (s.takeBack B a tag) others (a :: free) (held.erase a) := by
  have d := I.layout.dims
  have hslot := I.held_slot ha
  obtain ⟨hne, -, hlt⟩ := I.layout.slot_spec hslot
  have hout : ∀ x, (x < a ∨ a + slotStride B s.pool.blockSize ≤ x) →
      (s.takeBack B a tag).mem x = s.mem x := fun x hx => takenMem_outside d hx
  have hother : ∀ b ∈ s.pool.slots B, b ≠ a →
      SameOn s.mem (s.takeBack B a tag).mem b (slotStride B s.pool.blockSize) := by
    intro b hb hba
    exact I.other_slot hslot hb hba hout
  have hfree : ∀ b ∈ free, b ≠ a := by
    rintro b hb rfl
    exact I.disjoint hb ha
  have hheld : ∀ b ∈ held.erase a, b ≠ a := by
    rintro b hb rfl
    exact (List.Nodup.not_mem_erase (List.nodup_append.mp I.nodup).2.1) hb
  refine ⟨I.layout.same rfl rfl, ?_, ?_, ?_, ?_, I.unlocked⟩
  · refine I.chain.push hne ?_ ?_
    · exact revealNext_writeNext _ (by omega) I.head_lt
    · intro b hb
      exact revealNext_same d (hother b (I.free_slot hb) (hfree b hb))
  · have hp := (List.perm_cons_erase ha).symm.append_left free
    exact (List.perm_middle.symm.trans hp).trans I.parts
  · intro b hb
    rcases List.mem_cons.mp hb with rfl | hb
    · exact takenMem_stamped d _
    · exact (I.freed b hb).same d (hother b (I.free_slot hb) (hfree b hb))
  · intro b hb
    have hb' := List.mem_of_mem_erase hb
    exact (I.vended b hb').same d (hother b (I.held_slot hb') (hheld b hb))

theorem link_same {add backing addr : Nat} {heap : Heap} (I : PoolInv B s others [] held)
    (hg : Grown B s add backing addr heap) {b : Nat} (hb : b ∈ held) :
    SameOn s.mem (linkChunk B s add backing addr heap).mem b (slotStride B s.pool.blockSize) :=
  I.layout.link_same hg (I.held_slot hb)

theorem link {add backing addr : Nat} {heap : Heap} (I : PoolInv B s others [] held)
    (hg : Grown B s add backing addr heap) :
    PoolInv B (linkChunk B s add backing addr heap) others
      (slotsOf (slotStride B s.pool.blockSize) backing add) held := by
  have d := I.layout.dims
  have hpos := (growthCount_some hg.count).2.2.1
  obtain ⟨-, hin⟩ := initializeFreeList_spec (m := s.mem) d hpos hg.fits.le
  refine ⟨I.layout.grow hg, ?_, ?_, ?_, ?_, I.unlocked⟩
  · exact initializeFreeList_chain d hg.nonnull hpos hg.fits.le
  · have hp := I.parts
    rw [List.nil_append] at hp
    exact (hp.append_left _).trans (linkChunk_slots B s add backing addr heap).symm
  · intro a ha
    obtain ⟨i, hi, rfl⟩ := mem_slotsOf.mp ha
    exact (hin i hi).2
  · intro b hb
    exact (I.vended b hb).same d (I.link_same hg hb)

theorem grow {add backing addr : Nat} {heap : Heap} (I : PoolInv B s others [] held)
    (hg : Grown B s add backing addr heap) (tag : Nat) :
    PoolInv B ((linkChunk B s add backing addr heap).vend B backing tag) others
      ((slotsOf (slotStride B s.pool.blockSize) backing add).drop 1) (backing :: held) := by
  have I' := I.link hg
  rw [slotsOf_eq_cons _ _ (growthCount_some hg.count).2.2.1] at I'
  exact I'.vend tag

theorem sameHeap {heap : Heap} (I : PoolInv B s others free held)
    (h : s.heap.SameLive heap) : PoolInv B { s with heap := heap } others free held :=
  ⟨I.layout.same rfl h.1, I.chain, I.parts, I.freed, I.vended, I.unlocked⟩

theorem report (I : PoolInv B s others free held) (violation : Violation) (block : Nat) :
    PoolInv B (s.setWorld (s.toWorld.report violation block)) others free held :=
  ⟨I.layout.same rfl rfl, I.chain, I.parts, I.freed, I.vended, I.unlocked⟩

end PoolInv

end MemoryPool
