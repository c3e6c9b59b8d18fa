import MemoryPool.HeapBalance

/-!
# MemoryPool.Neighbours

One pool beside others. A call on a pool changes bytes in slots of that pool only, also when it
grows; and a pool that nobody calls keeps its invariant, as long as the bytes of its slots stay and
its regions stay outstanding.

* `PopResult.outside`, `takeBack_outside`: the bytes that a call leaves alone.
* `PoolInv.elsewhere`: something happened elsewhere.
* `Layout.apart_slot`: the slots of two pools do not meet.
* `State.liveBlocks`: the blocks that are out, computed from the bytes of the free list.
-/

namespace MemoryPool

open ByteMem LinkedList

def Heap.regions (h : Heap) : List Region := h.ledger.live.map Prod.snd

theorem Heap.regions_nodup (h : Heap) : h.regions.Nodup :=
  h.apart.imp fun hap heq => hap.1 (congrArg Region.base heq)

instance : Std.Symm Region.Apart := ⟨fun _ _ h => h.symm⟩

theorem Heap.apart_of (h : Heap) {r r' : Region} (hr : r ∈ h.regions) (hr' : r' ∈ h.regions)
    (hne : r ≠ r') : r.Apart r' := List.Pairwise.forall h.apart hr hr' hne

/-- The byte is in no slot of the pool. -/
def PoolStruct.Outside (B : Build) (p : PoolStruct) (x : Nat) : Prop :=
  ∀ a ∈ p.slots B, x < a ∨ a + slotStride B p.blockSize ≤ x

/-! ## What a call leaves alone -/

section

variable {B : Build} {s s' : State} {others : List (Nat × Region)} {free held : List Nat}

/-- The slots of a chunk leave no gap. -/
theorem slotsOf_covers {stride base count x : Nat} (hs : 0 < stride)
    (h : ∀ a ∈ slotsOf stride base count, x < a ∨ a + stride ≤ x) :
    x < base ∨ base + stride * count ≤ x := by
  by_contra hin
  push Not at hin
  obtain ⟨hl, hu⟩ := hin
  have hdm := Nat.div_add_mod (x - base) stride
  have hlt := Nat.mod_lt (x - base) hs
  have hi : (x - base) / stride < count := by
    rw [Nat.div_lt_iff_lt_mul hs, Nat.mul_comm]
    omega
  have ha := h _ (mem_slotsOf.mpr ⟨(x - base) / stride, hi, rfl⟩)
  rw [Nat.mul_comm] at hdm
  omega

theorem vend_outside (L : Layout B s others) {a : Nat} (ha : a ∈ s.pool.slots B) (tag : Nat)
    {x : Nat} (hx : s.pool.Outside B x) : (s.vend B a tag).mem x = s.mem x := by
  have hxa := hx a ha
  have hle := L.stride_ge
  exact vendedMem_outside L.dims (by omega)

theorem takeBack_outside (L : Layout B s others) {a : Nat} (ha : a ∈ s.pool.slots B) (tag : Nat)
    {x : Nat} (hx : s.pool.Outside B x) : (s.takeBack B a tag).mem x = s.mem x :=
  takenMem_outside L.dims (hx a ha)

theorem PopResult.outside {r : Nat × State} (h : PopResult B s free r)
    (I : PoolInv B s others free held) {x : Nat} (hx : r.2.pool.Outside B x) :
    r.2.mem x = s.mem x := by
  cases h with
  | vend tag => exact vend_outside I.layout (I.free_slot (List.mem_cons_self ..)) tag hx
  | fail _ => rfl
  | @grow add backing addr heap tag hg _ =>
    have L' := I.layout.grow hg
    have hpos := (growthCount_some hg.count).2.2.1
    have hslots : ∀ a ∈ slotsOf (slotStride B s.pool.blockSize) backing add,
        a ∈ (linkChunk B s add backing addr heap).pool.slots B := by
      intro a ha
      exact Layout.mem_slots.mpr ⟨(backing, add), by simp [linkChunk, PoolStruct.chunks], ha⟩
    have hfirst : backing ∈ slotsOf (slotStride B s.pool.blockSize) backing add :=
      mem_slotsOf.mpr ⟨0, hpos, by omega⟩
    refine (vend_outside L' (hslots backing hfirst) tag hx).trans ?_
    refine (initializeFreeList_spec I.layout.dims hpos hg.fits.le).1 x ?_
    exact slotsOf_covers I.layout.stride_pos fun a ha => hx a (hslots a ha)

end

theorem memoryPoolCreate_outside {B : Build} {env : Env} {w w' : World}
    {blockSize blockCount : Nat} {p : PoolStruct} (hbs : blockSize < B.modulus)
    (h : memoryPoolCreate B env w blockSize blockCount = (some p, w')) {x : Nat}
    (hx : p.Outside B x) : w'.mem x = w.mem x := by
  have L := Layout.create hbs h
  obtain ⟨-, hn, backing, addr, heap, -, -, hfit, -, -, rfl, rfl⟩ := memoryPoolCreate_some h
  refine (initializeFreeList_spec L.dims hn hfit.le).1 x (slotsOf_covers L.stride_pos fun a ha => ?_)
  exact hx a (by simpa [PoolStruct.slots, PoolStruct.chunks] using ha)

theorem CreateCall.run_outside {B : Build} {env : Env} {w w' : World} {call : CreateCall}
    {p : PoolStruct} (hr : call.InRange B) (h : call.run B env w = (some p, w')) {x : Nat}
    (hx : p.Outside B x) : w'.mem x = w.mem x := by
  cases call with
  | fixed blockSize blockCount => exact memoryPoolCreate_outside hr.1 h hx
  | dynamic blockSize blockCount growthFactor =>
    obtain ⟨-, -, q, hc, rfl⟩ := memoryPoolCreateDynamic_some h
    exact memoryPoolCreate_outside hr.1 hc hx

/-! ## Something happened elsewhere -/

namespace Layout

variable {B : Build} {s s' : State} {others : List (Nat × Region)}

theorem regions_nodup (L : Layout B s others) : (s.pool.regions B).Nodup := by
  obtain ⟨own, hlive, hown⟩ := L.owned
  have hnd := s.heap.regions_nodup
  rw [Heap.regions, (hlive.map Prod.snd).nodup_iff, List.map_append] at hnd
  exact hown.nodup_iff.mp (List.nodup_append.mp hnd).1

theorem regions_live (L : Layout B s others) {r : Region} (hr : r ∈ s.pool.regions B) :
    r ∈ s.heap.regions := by
  obtain ⟨own, hlive, hown⟩ := L.owned
  rw [Heap.regions, (hlive.map Prod.snd).mem_iff, List.map_append]
  exact List.mem_append_left _ (hown.mem_iff.mpr hr)

/-- Where the pool's regions are outstanding, the pool has a layout; the rest is not its own. -/
theorem elsewhere (L : Layout B s others) (hp : s.pool.SameShape s'.pool)
    (h : ∀ r ∈ s.pool.regions B, r ∈ s'.heap.regions) : ∃ others', Layout B s' others' := by
  let mine := fun e : Nat × Region => decide (e.2 ∈ s.pool.regions B)
  refine ⟨s'.heap.ledger.live.filter fun e => !mine e, L.reown hp
    ⟨s'.heap.ledger.live.filter mine, (List.filter_append_perm mine _).symm, ?_⟩⟩
  have hsub : ((s'.heap.ledger.live.filter mine).map Prod.snd).Sublist s'.heap.regions :=
    List.filter_sublist.map Prod.snd
  refine (List.perm_ext_iff_of_nodup (s'.heap.regions_nodup.sublist hsub) L.regions_nodup).mpr ?_
  intro r
  simp only [List.mem_map, List.mem_filter, mine, decide_eq_true_eq]
  constructor
  · rintro ⟨e, ⟨-, he⟩, rfl⟩
    exact he
  · intro hr
    obtain ⟨e, he, rfl⟩ := List.mem_map.mp (h r hr)
    exact ⟨e, ⟨he, hr⟩, rfl⟩

/-- An outstanding region that is not the pool's does not meet its slots, and does not start at
one. -/
theorem apart_region (L : Layout B s others) {r : Region} (hr : r ∈ s.heap.regions)
    (hn : r ∉ s.pool.regions B) {a : Nat} (ha : a ∈ s.pool.slots B) :
    r.base ≠ a ∧ (a + slotStride B s.pool.blockSize ≤ r.base ∨ r.base + r.bytes ≤ a) := by
  obtain ⟨c, hc, hac⟩ := Layout.mem_slots.mp ha
  have hin := slotsOf_inside hac
  have hpos := L.stride_pos
  have hcr := Layout.chunk_region (B := B) hc
  have hne : r ≠ ⟨.backing, c.1, slotStride B s.pool.blockSize * c.2⟩ := by
    rintro rfl
    exact hn hcr
  obtain ⟨hb, hap⟩ := s.heap.apart_of hr (L.regions_live hcr) hne
  simp only [] at hb hap
  rcases hap with h | h
  · exact ⟨by omega, Or.inr (by omega)⟩
  · exact ⟨by omega, Or.inl (by omega)⟩

/-- The slots of two pools do not meet. -/
theorem apart_slot {w : World} {p q : PoolStruct} {others' : List (Nat × Region)}
    (L : Layout B ⟨w, p⟩ others) (L' : Layout B ⟨w, q⟩ others')
    (hpq : ∀ r ∈ q.regions B, r ∉ p.regions B) {a b : Nat} (ha : a ∈ p.slots B)
    (hb : b ∈ q.slots B) :
    a + slotStride B p.blockSize ≤ b ∨ b + slotStride B q.blockSize ≤ a := by
  obtain ⟨c, hc, hbc⟩ := (Layout.mem_slots (s := ⟨w, q⟩)).mp hb
  have hin := slotsOf_inside hbc
  have hr := Layout.chunk_region (B := B) (s := ⟨w, q⟩) hc
  rcases (L.apart_region (L'.regions_live hr) (hpq _ hr) ha).2 with h | h
  · left; simp only [] at h hin ⊢; omega
  · right; simp only [] at h hin ⊢; omega

end Layout

namespace PoolInv

variable {B : Build} {s s' : State} {others : List (Nat × Region)} {free held held' : List Nat}

theorem perm_held (I : PoolInv B s others free held) (h : held.Perm held') :
    PoolInv B s others free held' :=
  ⟨I.layout, I.chain, (h.symm.append_left free).trans I.parts, I.freed,
    fun a ha => I.vended a (h.mem_iff.mpr ha), I.unlocked⟩

theorem elsewhere (I : PoolInv B s others free held) (hp : s'.pool = s.pool)
    (hr : ∀ r ∈ s.pool.regions B, r ∈ s'.heap.regions)
    (hmem : ∀ a ∈ s.pool.slots B, SameOn s.mem s'.mem a (slotStride B s.pool.blockSize)) :
    ∃ others', PoolInv B s' others' free held := by
  obtain ⟨others', L⟩ := I.layout.elsewhere (.of_eq hp) hr
  have d := I.layout.dims
  refine ⟨others', L, ?_, ?_, ?_, ?_, ?_⟩
  · rw [hp]
    exact I.chain.congr fun a ha => revealNext_same d (hmem a (I.free_slot ha))
  · rw [hp]
    exact I.parts
  · rw [hp]
    exact fun a ha => (I.freed a ha).same d (hmem a (I.free_slot ha))
  · rw [hp]
    exact fun a ha => (I.vended a ha).same d (hmem a (I.held_slot ha))
  · rw [hp]
    exact I.unlocked

end PoolInv

/-! ## The blocks that are out -/

/-- The free list as the links spell it, at most `fuel` cells of it. -/
def freeBlocks (B : Build) (m : Mem) : Nat → Nat → List Nat
  | 0, _ => []
  | fuel + 1, a => if a = 0 then [] else a :: freeBlocks B m fuel (revealNext B m a)

/-- The slots that are not on the free list. -/
def State.liveBlocks (B : Build) (s : State) : List Nat :=
  let free := freeBlocks B s.mem (s.pool.slots B).length s.pool.head.ptr
  (s.pool.slots B).filter fun a => a ∉ free

theorem freeBlocks_eq {B : Build} {m : Mem} {a : Nat} {free : List Nat}
    (h : Chain (revealNext B m) 0 a free) :
    ∀ {fuel : Nat}, free.length ≤ fuel → freeBlocks B m fuel a = free := by
  induction h with
  | nil =>
    intro fuel _
    cases fuel with
    | zero => rfl
    | succ fuel => simp [freeBlocks]
  | @cons a free hne _ ih =>
    intro fuel hle
    cases fuel with
    | zero => simp at hle
    | succ fuel =>
      simp only [freeBlocks, if_neg hne]
      rw [ih (by simpa using hle)]

theorem PoolInv.liveBlocks {B : Build} {s : State} {others : List (Nat × Region)}
    {free held : List Nat} (I : PoolInv B s others free held) : (s.liveBlocks B).Perm held := by
  have hlen : free.length ≤ (s.pool.slots B).length := by
    rw [← I.parts.length_eq, List.length_append]
    omega
  have hnd := I.layout.slots_nodup
  have hheld := (List.nodup_append.mp I.nodup).2.1
  simp only [State.liveBlocks, freeBlocks_eq I.chain hlen]
  refine (List.perm_ext_iff_of_nodup (hnd.filter _) hheld).mpr fun a => ?_
  simp only [List.mem_filter, decide_eq_true_eq, I.slot_iff]
  constructor
  · rintro ⟨hf | hh, hn⟩
    · exact absurd hf hn
    · exact hh
  · intro hh
    exact ⟨Or.inr hh, fun hf => I.disjoint hf hh⟩

end MemoryPool
