import Mathlib.Data.List.Nodup
import Mathlib.Data.List.Pairwise
import MemoryPool.Api

/-!
# MemoryPool.Geometry

Where the slots are. A chunk is a pair of a backing address and a count; its slots start
`slot_stride(block_size)` apart. `Layout` is what creation and growth establish about a pool and
the heap: valid sizes, chunks inside the address space, and the heap holding exactly the pool's
own regions besides the others.

* `blockInChunk_iff`, `isBlockInRange_iff`: the modular range check accepts exactly slot starts.
* `Layout.slots_apart`: two slots of a pool, in one chunk or two, are at least a stride apart.
* `Layout.create`, `Layout.grow`: the two places where regions enter a pool.
-/

namespace MemoryPool

def slotsOf (stride base count : Nat) : List Nat :=
  (List.range count).map fun i => base + i * stride

namespace PoolStruct

/-- The inline chunk and the overflow chunks, newest overflow chunk right after the inline one. -/
def chunks (p : PoolStruct) : List (Nat × Nat) :=
  (p.backing, p.blockCount) :: p.overflow.map fun c => (c.backing, c.blockCount)

def slots (B : Build) (p : PoolStruct) : List Nat :=
  p.chunks.flatMap fun c => slotsOf (slotStride B p.blockSize) c.1 c.2

/-- The heap regions a pool owns: the struct, the first backing, and a descriptor and a backing
for each overflow chunk. -/
def regions (B : Build) (p : PoolStruct) : List Region :=
  ⟨.poolStruct, p.addr, B.sizeofMemoryPool⟩ ::
    ⟨.backing, p.backing, slotStride B p.blockSize * p.blockCount⟩ ::
    p.overflow.flatMap fun c =>
      [⟨.chunkNode, c.addr, B.sizeofChunk⟩,
        ⟨.backing, c.backing, slotStride B p.blockSize * c.blockCount⟩]

end PoolStruct

theorem mem_slotsOf {stride base count a : Nat} :
    a ∈ slotsOf stride base count ↔ ∃ i < count, a = base + i * stride := by
  simp only [slotsOf, List.mem_map, List.mem_range]
  constructor
  · rintro ⟨i, hi, rfl⟩; exact ⟨i, hi, rfl⟩
  · rintro ⟨i, hi, rfl⟩; exact ⟨i, hi, rfl⟩

theorem slotsOf_nodup {stride base count : Nat} (hs : 0 < stride) :
    (slotsOf stride base count).Nodup := by
  refine List.Nodup.map_on ?_ List.nodup_range
  intro i _ j _ h
  exact Nat.eq_of_mul_eq_mul_right hs (by omega)

theorem slotsOf_inside {stride base count a : Nat} (h : a ∈ slotsOf stride base count) :
    base ≤ a ∧ a + stride ≤ base + stride * count := by
  obtain ⟨i, hi, rfl⟩ := mem_slotsOf.mp h
  have hle := Nat.mul_le_mul_right stride (show i + 1 ≤ count from hi)
  rw [Nat.add_mul, Nat.one_mul, Nat.mul_comm count] at hle
  omega

theorem slotsOf_apart {stride base count a b : Nat} (ha : a ∈ slotsOf stride base count)
    (hb : b ∈ slotsOf stride base count) (hne : a ≠ b) : a + stride ≤ b ∨ b + stride ≤ a := by
  obtain ⟨i, _, rfl⟩ := mem_slotsOf.mp ha
  obtain ⟨j, _, rfl⟩ := mem_slotsOf.mp hb
  rcases Nat.lt_trichotomy i j with h | rfl | h
  · have hle := Nat.mul_le_mul_right stride (show i + 1 ≤ j from h)
    rw [Nat.add_mul, Nat.one_mul] at hle
    omega
  · exact absurd rfl hne
  · have hle := Nat.mul_le_mul_right stride (show j + 1 ≤ i from h)
    rw [Nat.add_mul, Nat.one_mul] at hle
    omega

/-! ## The range check -/

/-- `block_in_chunk` accepts exactly the slot starts of the chunk, for every pointer value,
provided the chunk's region does not wrap. -/
theorem blockInChunk_iff {B : Build} {p : PoolStruct} {backing count block : Nat}
    (hs : 0 < slotStride B p.blockSize)
    (hfit : backing + slotStride B p.blockSize * count < B.modulus) :
    blockInChunk B p backing count block = true ↔
      block ∈ slotsOf (slotStride B p.blockSize) backing count := by
  have hend : B.add backing (B.mul (slotStride B p.blockSize) count) =
      backing + slotStride B p.blockSize * count := by
    rw [Build.mul_eq (by omega), Build.add_eq hfit]
  generalize hst : slotStride B p.blockSize = stride at *
  simp only [blockInChunk, hst, hend, mem_slotsOf]
  constructor
  · intro h
    split at h
    · cases h
    · split at h
      · cases h
      · rename_i hlo hhi
        split at h
        · cases h
        · rename_i hmod
          rw [Build.sub_eq (by omega) (by omega), Decidable.not_not] at hmod
          refine ⟨(block - backing) / stride, ?_, ?_⟩
          · rw [Nat.div_lt_iff_lt_mul hs, Nat.mul_comm]
            omega
          · rw [Nat.div_mul_cancel (Nat.dvd_of_mod_eq_zero hmod)]
            omega
  · rintro ⟨i, hi, rfl⟩
    obtain ⟨hlo, hhi⟩ := slotsOf_inside (mem_slotsOf.mpr ⟨i, hi, rfl⟩ :
      backing + i * stride ∈ slotsOf stride backing count)
    rw [if_neg (by omega), if_neg (by omega), Build.sub_eq hlo (by omega),
      Nat.add_sub_cancel_left, Nat.mul_mod_left]
    simp

theorem isBlockInRange_iff {B : Build} {p : PoolStruct} {block : Nat}
    (hs : 0 < slotStride B p.blockSize)
    (hfit : ∀ c ∈ p.chunks, c.1 + slotStride B p.blockSize * c.2 < B.modulus) :
    isBlockInRange B p block = true ↔ block ∈ p.slots B := by
  have hhead := hfit (p.backing, p.blockCount) (List.mem_cons_self ..)
  have htail : ∀ c ∈ p.overflow, blockInChunk B p c.backing c.blockCount block = true ↔
      block ∈ slotsOf (slotStride B p.blockSize) c.backing c.blockCount := fun c hc =>
    blockInChunk_iff hs
      (hfit (c.backing, c.blockCount) (List.mem_cons_of_mem _ (List.mem_map.mpr ⟨c, hc, rfl⟩)))
  unfold isBlockInRange PoolStruct.slots PoolStruct.chunks
  rw [List.flatMap_cons, List.mem_append, ← blockInChunk_iff hs hhead, List.flatMap_map]
  split
  · rename_i h; simp [h]
  · rename_i h
    rw [or_iff_right h, List.any_eq_true, List.mem_flatMap]
    constructor
    · rintro ⟨c, hc, hb⟩; exact ⟨c, hc, (htail c hc).mp hb⟩
    · rintro ⟨c, hc, hb⟩; exact ⟨c, hc, (htail c hc).mpr hb⟩

/-- The newest overflow chunk comes right after the inline one. -/
theorem linkChunk_slots (B : Build) (s : State) (add backing addr : Nat) (heap : Heap) :
    ((linkChunk B s add backing addr heap).pool.slots B).Perm
      (slotsOf (slotStride B s.pool.blockSize) backing add ++ s.pool.slots B) := by
  simp only [linkChunk, PoolStruct.slots, PoolStruct.chunks, List.map_cons, List.flatMap_cons]
  rw [← List.append_assoc, ← List.append_assoc]
  exact List.perm_append_comm.append_right _

/-! ## What holds of every pool -/

def ChunkApart (stride : Nat) (c d : Nat × Nat) : Prop :=
  c.1 + stride * c.2 ≤ d.1 ∨ d.1 + stride * d.2 ≤ c.1

instance (stride : Nat) : Std.Symm (ChunkApart stride) := ⟨fun _ _ h => h.symm⟩

/-- What creation and growth establish. `others` are the heap's regions that are not the
pool's. -/
structure Layout (B : Build) (s : State) (others : List (Nat × Region)) : Prop where
  valid : isValidBlockSize B s.pool.blockSize = true
  stride_align : B.poolAlignment ∣ slotStride B s.pool.blockSize
  stride_ge : s.pool.blockSize ≤ slotStride B s.pool.blockSize
  stride_guard : B.hardening = true →
    s.pool.blockSize + guardBytes ≤ slotStride B s.pool.blockSize
  chunk_align : ∀ c ∈ s.pool.chunks, B.poolAlignment ∣ c.1
  chunk_pos : ∀ c ∈ s.pool.chunks, c.1 ≠ 0 ∧ 0 < c.2
  chunk_fit : ∀ c ∈ s.pool.chunks, c.1 + slotStride B s.pool.blockSize * c.2 < B.modulus
  owned : ∃ own, s.heap.ledger.live.Perm (own ++ others) ∧
    (own.map Prod.snd).Perm (s.pool.regions B)

namespace Layout

variable {B : Build} {s : State} {others : List (Nat × Region)}

theorem ptr_le_block (L : Layout B s others) : B.ptrBytes ≤ s.pool.blockSize :=
  (isValidBlockSize_iff.mp L.valid).2.1

theorem block_pos (L : Layout B s others) : 0 < s.pool.blockSize :=
  Nat.pos_of_ne_zero (isValidBlockSize_iff.mp L.valid).1

theorem stride_pos (L : Layout B s others) : 0 < slotStride B s.pool.blockSize :=
  L.block_pos.trans_le L.stride_ge

theorem mem_slots {a : Nat} :
    a ∈ s.pool.slots B ↔
      ∃ c ∈ s.pool.chunks, a ∈ slotsOf (slotStride B s.pool.blockSize) c.1 c.2 := by
  simp [PoolStruct.slots, List.mem_flatMap]

theorem isBlockInRange_iff (L : Layout B s others) {block : Nat} :
    isBlockInRange B s.pool block = true ↔ block ∈ s.pool.slots B :=
  MemoryPool.isBlockInRange_iff L.stride_pos L.chunk_fit

theorem chunks_apart (L : Layout B s others) :
    s.pool.chunks.Pairwise (ChunkApart (slotStride B s.pool.blockSize)) := by
  obtain ⟨own, hlive, hown⟩ := L.owned
  have hall : (s.pool.regions B).Pairwise Region.Apart := by
    have h1 := s.heap.apart.perm (hlive.map Prod.snd) Region.Apart.symm
    rw [List.map_append] at h1
    exact (List.pairwise_append.mp h1).1.perm hown Region.Apart.symm
  have hsub : (s.pool.chunks.map fun c : Nat × Nat =>
      (⟨.backing, c.1, slotStride B s.pool.blockSize * c.2⟩ : Region)).Sublist
        (s.pool.regions B) := by
    unfold PoolStruct.regions PoolStruct.chunks
    rw [List.map_cons, List.map_map]
    refine .cons _ (.cons_cons _ ?_)
    generalize s.pool.overflow = l
    induction l with
    | nil => exact .slnil
    | cons c l ih => exact .cons _ (.cons_cons _ ih)
  exact (List.pairwise_map.mp (hall.sublist hsub)).imp fun h => h.2

theorem chunk_region {c : Nat × Nat} (hc : c ∈ s.pool.chunks) :
    (⟨.backing, c.1, slotStride B s.pool.blockSize * c.2⟩ : Region) ∈ s.pool.regions B := by
  simp only [PoolStruct.chunks, List.mem_cons, List.mem_map] at hc
  simp only [PoolStruct.regions, List.mem_cons, List.mem_flatMap]
  rcases hc with rfl | ⟨d, hd, rfl⟩
  · right; left; rfl
  · right; right
    exact ⟨d, hd, by simp⟩

theorem slots_apart (L : Layout B s others) {a b : Nat} (ha : a ∈ s.pool.slots B)
    (hb : b ∈ s.pool.slots B) (hne : a ≠ b) :
    a + slotStride B s.pool.blockSize ≤ b ∨ b + slotStride B s.pool.blockSize ≤ a := by
  obtain ⟨c, hc, hac⟩ := mem_slots.mp ha
  obtain ⟨d, hd, hbd⟩ := mem_slots.mp hb
  by_cases hcd : c = d
  · subst hcd
    exact slotsOf_apart hac hbd hne
  · have h1 := slotsOf_inside hac
    have h2 := slotsOf_inside hbd
    rcases L.chunks_apart.forall hc hd hcd with h | h
    · left; omega
    · right; omega

/-- A region that is not the pool's is apart from every slot. -/
theorem slot_apart_other (L : Layout B s others) {a : Nat} (ha : a ∈ s.pool.slots B)
    {e : Nat × Region} (he : e ∈ others) :
    a + slotStride B s.pool.blockSize ≤ e.2.base ∨ e.2.base + e.2.bytes ≤ a := by
  obtain ⟨c, hc, hac⟩ := mem_slots.mp ha
  have hin := slotsOf_inside hac
  obtain ⟨own, hlive, hown⟩ := L.owned
  obtain ⟨f, hf, hfr⟩ := List.mem_map.mp (hown.mem_iff.mpr (chunk_region hc))
  have hall := s.heap.apart.perm (hlive.map Prod.snd) Region.Apart.symm
  rw [List.map_append] at hall
  have hap := (List.pairwise_append.mp hall).2.2 f.2 (List.mem_map_of_mem hf) e.2
    (List.mem_map_of_mem he)
  rw [hfr] at hap
  rcases hap.2 with h | h
  · left; simp only [] at h; omega
  · right; simp only [] at h; omega

theorem slots_nodup (L : Layout B s others) : (s.pool.slots B).Nodup := by
  refine List.nodup_flatMap.mpr ⟨fun c _ => slotsOf_nodup L.stride_pos, ?_⟩
  refine L.chunks_apart.imp_of_mem ?_
  intro c d _ _ hap a hac had
  have h1 := slotsOf_inside hac
  have h2 := slotsOf_inside had
  have hpos := L.stride_pos
  rcases hap with h | h <;> omega

theorem slot_spec (L : Layout B s others) {a : Nat} (ha : a ∈ s.pool.slots B) :
    a ≠ 0 ∧ B.poolAlignment ∣ a ∧ a + slotStride B s.pool.blockSize < B.modulus := by
  obtain ⟨c, hc, hac⟩ := mem_slots.mp ha
  have hin := slotsOf_inside hac
  have hpos := (L.chunk_pos c hc).1
  have hfit := L.chunk_fit c hc
  refine ⟨by omega, ?_, by omega⟩
  obtain ⟨i, _, rfl⟩ := mem_slotsOf.mp hac
  exact Nat.dvd_add (L.chunk_align c hc) (Dvd.dvd.mul_left L.stride_align i)

end Layout

/-- Everything but the list head and the mutex: what only creation and growth set. -/
def PoolStruct.SameShape (p p' : PoolStruct) : Prop :=
  p' = { p with head := p'.head, mutex := p'.mutex }

namespace PoolStruct.SameShape

variable {p p' p'' : PoolStruct}

theorem of_eq (h : p' = p) : p.SameShape p' := by rw [h]; rfl

theorem trans (h : p.SameShape p') (h' : p'.SameShape p'') : p.SameShape p'' := by
  unfold SameShape at *
  rw [h', h]

theorem blockSize (h : p.SameShape p') : p'.blockSize = p.blockSize := by rw [h]

theorem chunks (h : p.SameShape p') : p'.chunks = p.chunks := by rw [h]; rfl

theorem slots (h : p.SameShape p') (B : Build) : p'.slots B = p.slots B := by rw [h]; rfl

theorem regions (h : p.SameShape p') (B : Build) : p'.regions B = p.regions B := by rw [h]; rfl

end PoolStruct.SameShape

/-- The same pool in another heap. -/
theorem Layout.reown {B : Build} {s s' : State} {others others' : List (Nat × Region)}
    (L : Layout B s others) (h : s.pool.SameShape s'.pool)
    (ho : ∃ own, s'.heap.ledger.live.Perm (own ++ others') ∧
      (own.map Prod.snd).Perm (s.pool.regions B)) : Layout B s' others' := by
  have hb := h.blockSize
  refine ⟨?_, ?_, ?_, ?_, ?_, ?_, ?_, ?_⟩
  · rw [hb]; exact L.valid
  · rw [hb]; exact L.stride_align
  · rw [hb]; exact L.stride_ge
  · rw [hb]; exact L.stride_guard
  · rw [h.chunks]; exact L.chunk_align
  · rw [h.chunks]; exact L.chunk_pos
  · rw [h.chunks, hb]; exact L.chunk_fit
  · rw [h.regions]; exact ho

theorem Layout.same {B : Build} {s s' : State} {others : List (Nat × Region)}
    (L : Layout B s others) (h : s.pool.SameShape s'.pool)
    (hl : s'.heap.ledger.live = s.heap.ledger.live) : Layout B s' others :=
  L.reown h (by rw [hl]; exact L.owned)

/-- A region obtained from the heap is not the pool's until it is linked. -/
theorem Layout.obtain {B : Build} {s s' : State} {others : List (Nat × Region)}
    (L : Layout B s others) (h : s.pool.SameShape s'.pool) {e : Nat × Region}
    (hl : s'.heap.ledger.live = e :: s.heap.ledger.live) : Layout B s' (e :: others) := by
  obtain ⟨own, hlive, hown⟩ := L.owned
  refine L.reown h ⟨own, ?_, hown⟩
  rw [hl]
  exact (hlive.cons e).trans List.perm_middle.symm

/-! ## Creation and growth -/

theorem memoryPoolCreate_some {B : Build} {env : Env} {w w' : World}
    {blockSize blockCount : Nat} {p : PoolStruct}
    (h : memoryPoolCreate B env w blockSize blockCount = (some p, w')) :
    isValidBlockSize B blockSize = true ∧ 0 < blockCount ∧
    ∃ backing addr heap,
      backing ≠ 0 ∧ B.poolAlignment ∣ backing ∧
      backing + slotStride B blockSize * blockCount < B.modulus ∧
      heap.ledger.live =
        (w.heap.ledger.next + 1, ⟨.poolStruct, addr, B.sizeofMemoryPool⟩) ::
          (w.heap.ledger.next, ⟨.backing, backing, slotStride B blockSize * blockCount⟩) ::
          w.heap.ledger.live ∧
      heap.ledger.invalid = w.heap.ledger.invalid ∧
      p = ⟨addr, backing, ⟨backing, 0⟩, blockSize, blockCount, B.poolAlignment, [], 0, 0, false⟩ ∧
      w' = ⟨initializeFreeList B w.mem backing blockSize blockCount, heap, w.reports⟩ := by
  unfold memoryPoolCreate at h
  split at h
  · cases h
  · rename_i hv
    split at h
    · cases h
    · rename_i hn
      simp only [] at h
      split at h
      · cases h
      · rename_i hov
        have hfit := wouldOverflowProduct_eq_false_iff.mp (Bool.eq_false_iff.mpr hov)
        rw [Build.mul_eq hfit] at h
        refine ⟨by simpa using hv, Nat.pos_of_ne_zero hn, ?_⟩
        rcases World.operatorNew_cases B w .backing (slotStride B blockSize * blockCount)
          B.poolAlignment env.backing with he | ⟨backing, h1, he⟩
        · rw [he] at h; cases h
        · rw [he] at h
          simp only [] at h
          rcases World.operatorNew_cases B { w with heap := w.heap.obtain _ h1.fresh } .poolStruct
            B.sizeofMemoryPool B.ptrBytes env.object with hf | ⟨addr, h2, hf⟩
          · rw [hf] at h; cases h
          · rw [hf] at h
            cases h
            exact ⟨backing, addr, (w.heap.obtain _ h1.fresh).obtain _ h2.fresh, h1.nonnull,
              Nat.dvd_of_mod_eq_zero h1.aligned, h1.fits, rfl, rfl, rfl, rfl⟩

theorem Layout.create {B : Build} {env : Env} {w w' : World} {blockSize blockCount : Nat}
    {p : PoolStruct} (hbs : blockSize < B.modulus)
    (h : memoryPoolCreate B env w blockSize blockCount = (some p, w')) :
    Layout B ⟨w', p⟩ w.heap.ledger.live := by
  obtain ⟨hv, hn, backing, addr, heap, hne, hal, hfit, hlive, _, rfl, rfl⟩ :=
    memoryPoolCreate_some h
  have hle : slotStride B blockSize ≤ slotStride B blockSize * blockCount :=
    Nat.le_mul_of_pos_right _ hn
  have hsat : slotStride B blockSize ≠ B.sizeMax := by unfold Build.sizeMax; omega
  obtain ⟨hdvd, hge, hguard, _⟩ := slotStride_spec hbs hv hsat
  refine ⟨hv, hdvd, hge, hguard, ?_, ?_, ?_, ?_⟩
  · simpa [PoolStruct.chunks] using hal
  · simpa [PoolStruct.chunks] using ⟨hne, hn⟩
  · simpa [PoolStruct.chunks] using hfit
  · exact ⟨[_, _], by rw [hlive]; exact .refl _, .refl _⟩

/-- A descriptor and a backing that are outstanding become the pool's newest chunk. -/
theorem Layout.adopt {B : Build} {s s' : State} {others : List (Nat × Region)} {c : Chunk}
    {e₁ e₂ : Nat × Region} (L : Layout B s (e₁ :: e₂ :: others))
    (h₁ : e₁.2 = ⟨.chunkNode, c.addr, B.sizeofChunk⟩)
    (h₂ : e₂.2 = ⟨.backing, c.backing, slotStride B s.pool.blockSize * c.blockCount⟩)
    (hal : B.poolAlignment ∣ c.backing) (hne : c.backing ≠ 0) (hpos : 0 < c.blockCount)
    (hfit : c.backing + slotStride B s.pool.blockSize * c.blockCount < B.modulus)
    {growCount : Nat}
    (hp : ({ s.pool with overflow := c :: s.pool.overflow, growCount := growCount } :
      PoolStruct).SameShape s'.pool)
    (hl : s'.heap.ledger.live = s.heap.ledger.live) : Layout B s' others := by
  have hb : s'.pool.blockSize = s.pool.blockSize := hp.blockSize
  have hmem : ∀ d ∈ s'.pool.chunks, d = (c.backing, c.blockCount) ∨ d ∈ s.pool.chunks := by
    intro d hd
    rw [hp.chunks] at hd
    simp only [PoolStruct.chunks, List.map_cons, List.mem_cons] at hd ⊢
    tauto
  refine ⟨?_, ?_, ?_, ?_, ?_, ?_, ?_, ?_⟩
  · rw [hb]; exact L.valid
  · rw [hb]; exact L.stride_align
  · rw [hb]; exact L.stride_ge
  · rw [hb]; exact L.stride_guard
  · intro d hd
    rcases hmem d hd with rfl | hd
    · exact hal
    · exact L.chunk_align d hd
  · intro d hd
    rcases hmem d hd with rfl | hd
    · exact ⟨hne, hpos⟩
    · exact L.chunk_pos d hd
  · intro d hd
    rw [hb]
    rcases hmem d hd with rfl | hd
    · exact hfit
    · exact L.chunk_fit d hd
  · obtain ⟨own, hlive, hown⟩ := L.owned
    refine ⟨e₁ :: e₂ :: own, ?_, ?_⟩
    · rw [hl]
      refine hlive.trans (List.perm_middle.trans (List.Perm.cons _ ?_))
      exact List.perm_middle
    · rw [hp.regions, List.map_cons, List.map_cons, h₁, h₂]
      refine ((hown.cons _).cons _).trans ?_
      exact (@List.perm_append_comm _ [_, _] [_, _]).append_right _

theorem Layout.grow {B : Build} {s : State} {others : List (Nat × Region)} {add backing addr : Nat}
    {heap : Heap} (L : Layout B s others) (hg : Grown B s add backing addr heap) :
    Layout B (linkChunk B s add backing addr heap) others := by
  obtain ⟨own, hlive, hown⟩ := L.owned
  have L' : Layout B { s with heap := heap }
      ((s.heap.ledger.next + 1, ⟨.chunkNode, addr, B.sizeofChunk⟩) ::
        (s.heap.ledger.next, ⟨.backing, backing, slotStride B s.pool.blockSize * add⟩) ::
        others) := by
    refine L.reown rfl ⟨own, ?_, hown⟩
    rw [show ({ s with heap := heap } : State).heap = heap from rfl, hg.live]
    refine ((hlive.cons _).cons _).trans ?_
    exact (List.perm_middle.symm.cons _).trans List.perm_middle.symm
  exact L'.adopt (c := ⟨addr, backing, add⟩) rfl rfl hg.aligned hg.nonnull
    (growthCount_some hg.count).2.2.1 hg.fits rfl rfl

end MemoryPool
