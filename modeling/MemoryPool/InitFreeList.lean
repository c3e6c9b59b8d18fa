import MemoryPool.Geometry
import MemoryPool.Lib.Chain

/-!
# MemoryPool.InitFreeList

`initialize_free_list` builds exactly the ascending list.

A slot is looked at through three things: its link (`revealNext`), and in a hardened build its
stamps (`StampedFree`, `StampedHeld`). All of them depend on the bytes of the slot alone, so a
write inside one slot is invisible in every other (`SameOn` on the whole stride).

* `initSlot_spec`: one slot.
* `Prepared.step`, `initSlots_spec`: the loop invariant, by induction on the iterations done.
* `Prepared.chain`, `initializeFreeList_chain`: the list, read back from the base.
-/

namespace MemoryPool

open ByteMem LinkedList

/-- The sizes a slot needs: the link fits in the block, the block (and the guard word, when there
is one) in the stride. -/
structure SlotDims (B : Build) (blockSize : Nat) : Prop where
  link : B.ptrBytes ≤ blockSize
  block : blockSize ≤ slotStride B blockSize
  guard : B.hardening = true → blockSize + guardBytes ≤ slotStride B blockSize

theorem SlotDims.stride_pos {B : Build} {blockSize : Nat} (d : SlotDims B blockSize) :
    0 < slotStride B blockSize := by
  have h1 := d.link
  have h2 := d.block
  have h3 := B.ptr_wide
  omega

theorem Layout.dims {B : Build} {s : State} {others : List (Nat × Region)}
    (L : Layout B s others) : SlotDims B s.pool.blockSize :=
  ⟨L.ptr_le_block, L.stride_ge, L.stride_guard⟩

def StampedFree (B : Build) (m : Mem) (slot blockSize : Nat) : Prop :=
  B.hardening = true → readGuard m slot blockSize = guardFreed ∧ Poisoned B m slot blockSize

def StampedHeld (B : Build) (m : Mem) (slot blockSize : Nat) : Prop :=
  B.hardening = true → readGuard m slot blockSize = guardAllocated

section Views

variable {B : Build} {m m' : Mem} {slot blockSize : Nat}

theorem revealNext_same (d : SlotDims B blockSize)
    (h : SameOn m m' slot (slotStride B blockSize)) :
    revealNext B m' slot = revealNext B m slot :=
  revealNext_congr (h.mono (le_refl _) (by have := d.link; have := d.block; omega))

theorem StampedFree.same (d : SlotDims B blockSize) (hs : StampedFree B m slot blockSize)
    (h : SameOn m m' slot (slotStride B blockSize)) : StampedFree B m' slot blockSize := by
  intro hh
  obtain ⟨hg, hp⟩ := hs hh
  have hd := d.guard hh
  exact ⟨(readGuard_congr (h.mono (by omega) (by omega))).trans hg,
    hp.congr (h.mono (le_refl _) (by omega))⟩

theorem StampedHeld.same (d : SlotDims B blockSize) (hs : StampedHeld B m slot blockSize)
    (h : SameOn m m' slot (slotStride B blockSize)) : StampedHeld B m' slot blockSize := by
  intro hh
  have hd := d.guard hh
  exact (readGuard_congr (h.mono (by omega) (by omega))).trans (hs hh)

theorem StampedFree.writeNext {next : Nat} (hb : B.ptrBytes ≤ blockSize)
    (hs : StampedFree B m slot blockSize) :
    StampedFree B (MemoryPool.writeNext B m slot next) slot blockSize := by
  intro hh
  obtain ⟨hg, hp⟩ := hs hh
  refine ⟨(readGuard_congr fun x hl _ => writeNext_outside (by omega)).trans hg, ?_⟩
  intro x hl hu
  exact (writeNext_outside (Or.inr hl)).trans (hp x hl hu)

/-- A byte written into a held block leaves its guard alone. -/
theorem StampedHeld.set {addr : Nat} (hs : StampedHeld B m slot blockSize)
    (hu : addr < slot + blockSize) (byte : UInt8) :
    StampedHeld B (ByteMem.set m addr byte) slot blockSize := by
  intro hh
  refine (readGuard_congr fun x hx _ => set_other ?_).trans (hs hh)
  have : slot + blockSize ≤ x := hx
  omega

end Views

/-- A change confined to one stride is invisible in a slot at least a stride away. -/
theorem sameOn_of_outside {m m' : Mem} {a b stride : Nat}
    (h : ∀ x, (x < a ∨ a + stride ≤ x) → m' x = m x)
    (hap : a + stride ≤ b ∨ b + stride ≤ a) : SameOn m m' b stride := by
  intro x hl hu
  exact h x (by omega)

/-! ## One slot -/

theorem initSlot_outside {B : Build} {m : Mem} {slot next blockSize : Nat}
    (d : SlotDims B blockSize) {x : Nat}
    (h : x < slot ∨ slot + slotStride B blockSize ≤ x) :
    initSlot B m slot next blockSize x = m x := by
  have h1 := d.link
  have h2 := d.block
  have hw : writeNext B m slot next x = m x := writeNext_outside (by omega)
  unfold initSlot
  cases hh : B.hardening with
  | false => simpa using hw
  | true =>
    have h3 := d.guard hh
    simp only [if_true]
    exact (freedMem_outside h1 (by omega)).trans hw

theorem initSlot_set {B : Build} {m : Mem} {slot next blockSize : Nat}
    (d : SlotDims B blockSize) {x : Nat} {b : UInt8}
    (h : x < slot ∨ slot + slotStride B blockSize ≤ x) :
    initSlot B (ByteMem.set m x b) slot next blockSize =
      ByteMem.set (initSlot B m slot next blockSize) x b := by
  have h1 := d.link
  have h2 := d.block
  have hw : writeNext B (ByteMem.set m x b) slot next =
      ByteMem.set (writeNext B m slot next) x b := writeNext_set (by omega)
  unfold initSlot
  rw [hw]
  cases hh : B.hardening with
  | false => rfl
  | true =>
    have h3 := d.guard hh
    exact freedMem_set h1 (by omega)

theorem initSlot_spec {B : Build} (m : Mem) {slot next blockSize : Nat}
    (d : SlotDims B blockSize) (hs : slot < B.modulus) (hn : next < B.modulus) :
    revealNext B (initSlot B m slot next blockSize) slot = next ∧
      StampedFree B (initSlot B m slot next blockSize) slot blockSize := by
  have h1 := d.link
  have hw := revealNext_writeNext m hs hn
  unfold initSlot
  constructor
  · split
    · refine (revealNext_congr ?_).trans hw
      intro x _ hu
      exact freedMem_outside h1 (Or.inl hu)
    · exact hw
  · intro hh
    rw [if_pos hh]
    exact ⟨freedMem_guard B _ slot blockSize, freedMem_poisoned B _ slot blockSize⟩

/-! ## The loop -/

section Loop

variable {B : Build} {m : Mem} {base blockSize count : Nat}

theorem slotAddr_eq {i : Nat} (hi : i ≤ count)
    (hfit : base + slotStride B blockSize * count < B.modulus) :
    B.add base (B.mul i (slotStride B blockSize)) = base + i * slotStride B blockSize ∧
      base + i * slotStride B blockSize < B.modulus := by
  have hle := Nat.mul_le_mul_right (slotStride B blockSize) hi
  rw [Nat.mul_comm count] at hle
  rw [Build.mul_eq (by omega), Build.add_eq (by omega)]
  exact ⟨rfl, by omega⟩

/-- A slot start below the end of the region does not wrap, not even when the region ends where
the address space does. -/
theorem slotAddr_lt (d : SlotDims B blockSize) {i : Nat} (hi : i < count)
    (hfit : base + slotStride B blockSize * count ≤ B.modulus) :
    B.add base (B.mul i (slotStride B blockSize)) = base + i * slotStride B blockSize ∧
      base + i * slotStride B blockSize < B.modulus := by
  have hpos := d.stride_pos
  have hle := Nat.mul_le_mul_right (slotStride B blockSize) (show i + 1 ≤ count from hi)
  rw [Nat.add_mul, Nat.one_mul, Nat.mul_comm count] at hle
  rw [Build.mul_eq (by omega), Build.add_eq (by omega)]
  exact ⟨rfl, by omega⟩

/-- The first `k` slots are linked, each to the next one and the last one of all to null, and
stamped free. -/
def Prepared (B : Build) (m : Mem) (base blockSize count k : Nat) : Prop :=
  ∀ i < k,
    revealNext B m (base + i * slotStride B blockSize) =
        (if i + 1 < count then base + (i + 1) * slotStride B blockSize else 0) ∧
      StampedFree B m (base + i * slotStride B blockSize) blockSize

/-- One iteration: the new writes stay a stride above the slots that are done. -/
theorem Prepared.step (d : SlotDims B blockSize) {k : Nat} (hk : k < count)
    (hfit : base + slotStride B blockSize * count ≤ B.modulus)
    (h : Prepared B m base blockSize count k) :
    Prepared B (initSlot B m (base + k * slotStride B blockSize)
      (if k + 1 < count then base + (k + 1) * slotStride B blockSize else 0) blockSize)
      base blockSize count (k + 1) := by
  intro i hi
  rcases Nat.lt_succ_iff_lt_or_eq.mp hi with hik | rfl
  · have hle := Nat.mul_le_mul_right (slotStride B blockSize) (show i + 1 ≤ k from hik)
    rw [Nat.add_mul, Nat.one_mul] at hle
    have hsame : SameOn m (initSlot B m (base + k * slotStride B blockSize)
        (if k + 1 < count then base + (k + 1) * slotStride B blockSize else 0) blockSize)
        (base + i * slotStride B blockSize) (slotStride B blockSize) :=
      sameOn_of_outside (fun x hx => initSlot_outside d hx) (Or.inr (by omega))
    obtain ⟨hl, hs⟩ := h i hik
    exact ⟨(revealNext_same d hsame).trans hl, hs.same d hsame⟩
  · have hlt := (slotAddr_lt d (i := i) (by omega) hfit).2
    refine initSlot_spec m d hlt ?_
    split
    · exact (slotAddr_lt d (i := i + 1) (by omega) hfit).2
    · exact B.modulus_pos

theorem initSlots_spec (d : SlotDims B blockSize)
    (hfit : base + slotStride B blockSize * count ≤ B.modulus) :
    ∀ k, k < count →
      (∀ x, x < base ∨ base + k * slotStride B blockSize ≤ x →
        initSlots B m base blockSize k x = m x) ∧
      Prepared B (initSlots B m base blockSize k) base blockSize count k := by
  intro k
  induction k with
  | zero =>
    intro _
    exact ⟨fun _ _ => rfl, fun i hi => absurd hi (Nat.not_lt_zero i)⟩
  | succ k ih =>
    intro hk
    obtain ⟨hout, hin⟩ := ih (by omega)
    obtain ⟨ek, -⟩ := slotAddr_lt d (i := k) (by omega) hfit
    obtain ⟨ek', -⟩ := slotAddr_lt d (i := k + 1) (by omega) hfit
    have hstep : (k + 1) * slotStride B blockSize =
        k * slotStride B blockSize + slotStride B blockSize := by rw [Nat.add_mul, Nat.one_mul]
    have hm : initSlots B m base blockSize (k + 1) =
        initSlot B (initSlots B m base blockSize k) (base + k * slotStride B blockSize)
          (if k + 1 < count then base + (k + 1) * slotStride B blockSize else 0) blockSize := by
      simp only [initSlots, ek, ek', if_pos hk]
    rw [hm]
    refine ⟨fun x hx => ?_, hin.step d (by omega) hfit⟩
    rw [initSlot_outside d (by omega)]
    exact hout x (by omega)

/-- Everything about `initialize_free_list`: it writes inside the region only, and prepares all
slots of it. -/
theorem initializeFreeList_spec (d : SlotDims B blockSize) (hn : 0 < count)
    (hfit : base + slotStride B blockSize * count ≤ B.modulus) :
    (∀ x, x < base ∨ base + slotStride B blockSize * count ≤ x →
      initializeFreeList B m base blockSize count x = m x) ∧
    Prepared B (initializeFreeList B m base blockSize count) base blockSize count count := by
  obtain ⟨k, rfl⟩ : ∃ k, count = k + 1 := ⟨count - 1, by omega⟩
  obtain ⟨hout, hin⟩ := initSlots_spec (m := m) d hfit k (Nat.lt_succ_self k)
  obtain ⟨el, -⟩ := slotAddr_lt d (i := k) (Nat.lt_succ_self k) hfit
  have hlast : slotStride B blockSize * (k + 1) =
      k * slotStride B blockSize + slotStride B blockSize := by
    rw [Nat.mul_comm, Nat.add_mul, Nat.one_mul]
  have hm : initializeFreeList B m base blockSize (k + 1) =
      initSlot B (initSlots B m base blockSize k) (base + k * slotStride B blockSize)
        (if k + 1 < k + 1 then base + (k + 1) * slotStride B blockSize else 0) blockSize := by
    simp only [initializeFreeList, Nat.add_sub_cancel, el, lt_irrefl, if_false]
  rw [hm]
  refine ⟨fun x hx => ?_, hin.step d (Nat.lt_succ_self k) hfit⟩
  rw [initSlot_outside d (by omega)]
  exact hout x (by omega)

theorem slotsOf_drop (stride base count i : Nat) (hi : i < count) :
    (slotsOf stride base count).drop i =
      (base + i * stride) :: (slotsOf stride base count).drop (i + 1) := by
  have hlen : i < (slotsOf stride base count).length := by simpa [slotsOf] using hi
  rw [List.drop_eq_getElem_cons hlen]
  simp [slotsOf]

theorem slotsOf_eq_cons (stride base : Nat) {count : Nat} (h : 0 < count) :
    slotsOf stride base count = base :: (slotsOf stride base count).drop 1 := by
  have h0 := slotsOf_drop stride base count 0 h
  simpa using h0

/-- Prepared slots are a chain. The induction runs from the last slot to the first, on the number
of slots left. -/
theorem Prepared.chain (hb : base ≠ 0) (hn : 0 < count)
    (h : Prepared B m base blockSize count count) :
    Chain (revealNext B m) 0 base (slotsOf (slotStride B blockSize) base count) := by
  have key : ∀ k i, i + k = count → 0 < k →
      Chain (revealNext B m) 0 (base + i * slotStride B blockSize)
        ((slotsOf (slotStride B blockSize) base count).drop i) := by
    intro k
    induction k with
    | zero => intro i _ hk; omega
    | succ k ih =>
      intro i hik _
      rw [slotsOf_drop _ _ _ _ (by omega)]
      refine .cons (by omega) ?_
      rw [(h i (by omega)).1]
      by_cases hk : k = 0
      · rw [if_neg (by omega), List.drop_of_length_le (by simp [slotsOf]; omega)]
        exact .nil
      · rw [if_pos (by omega)]
        exact ih (i + 1) (by omega) (by omega)
  simpa using key count 0 (by omega) hn

/-- Read back from the base, the free list is the ascending list of slots. -/
theorem initializeFreeList_chain (d : SlotDims B blockSize) (hb : base ≠ 0) (hn : 0 < count)
    (hfit : base + slotStride B blockSize * count ≤ B.modulus) :
    Chain (revealNext B (initializeFreeList B m base blockSize count)) 0 base
      (slotsOf (slotStride B blockSize) base count) := by
  obtain ⟨-, hin⟩ := initializeFreeList_spec (m := m) d hn hfit
  exact hin.chain hb hn

/-! ## Following `read_next` from the base -/

/-- `k` calls of `read_next`, each on what the one before it returned. -/
def followNext (B : Build) (w : World) (slot : Nat) : Nat → Nat × World
  | 0 => (slot, w)
  | k + 1 => readNext B (followNext B w slot k).2 (followNext B w slot k).1

/-- A valid block size and a region that ends inside the address space leave no room for the
saturated stride. -/
theorem SlotDims.of_region (hv : isValidBlockSize B blockSize = true) (hbs : blockSize < B.modulus)
    (hal : B.poolAlignment ∣ base) (hb : base ≠ 0) (hn : 0 < count)
    (hfit : base + slotStride B blockSize * count ≤ B.modulus) :
    SlotDims B blockSize ∧ B.poolAlignment ∣ slotStride B blockSize := by
  have hge : B.poolAlignment ≤ base := Nat.le_of_dvd (Nat.pos_of_ne_zero hb) hal
  have hptr : B.ptrBytes ≤ B.poolAlignment := B.align_ge
  have hwide := B.ptr_wide
  have hle : slotStride B blockSize ≤ slotStride B blockSize * count :=
    Nat.le_mul_of_pos_right _ hn
  have hsat : slotStride B blockSize ≠ B.sizeMax := by unfold Build.sizeMax; omega
  obtain ⟨hdvd, hblock, hguard, -⟩ := slotStride_spec hbs hv hsat
  exact ⟨⟨(isValidBlockSize_iff.mp hv).2.1, hblock, hguard⟩, hdvd⟩

/-- On prepared slots the integrity check of `read_next` passes at every step. -/
theorem Prepared.follow {w : World} (hal : B.poolAlignment ∣ base)
    (hdvd : B.poolAlignment ∣ slotStride B blockSize)
    (h : Prepared B w.mem base blockSize count count) :
    ∀ k ≤ count, 0 < count → followNext B w base k =
      (if k < count then base + k * slotStride B blockSize else 0, w) := by
  intro k
  induction k with
  | zero =>
    intro _ hn
    rw [if_pos hn, Nat.zero_mul]
    rfl
  | succ k ih =>
    intro hk hn
    obtain ⟨hlink, -⟩ := h k hk
    have haligned : revealNext B w.mem (base + k * slotStride B blockSize) = 0 ∨
        B.poolAlignment ∣ revealNext B w.mem (base + k * slotStride B blockSize) := by
      rw [hlink]
      split
      · exact Or.inr (Nat.dvd_add hal (hdvd.mul_left _))
      · exact Or.inl rfl
    simp only [followNext, ih (by omega) hn, if_pos (show k < count from hk)]
    rw [readNext_eq haligned, hlink]

theorem initSlot_apart {m : Mem} (d : SlotDims B blockSize) {i j next : Nat} (hij : i ≠ j) :
    SameOn m (initSlot B m (base + i * slotStride B blockSize) next blockSize)
      (base + j * slotStride B blockSize) (slotStride B blockSize) := by
  refine sameOn_of_outside (fun x hx => initSlot_outside d hx) ?_
  rcases Nat.lt_or_gt_of_ne hij with h | h
  · have hle := Nat.mul_le_mul_right (slotStride B blockSize) (show i + 1 ≤ j from h)
    rw [Nat.add_mul, Nat.one_mul] at hle
    left
    omega
  · have hle := Nat.mul_le_mul_right (slotStride B blockSize) (show j + 1 ≤ i from h)
    rw [Nat.add_mul, Nat.one_mul] at hle
    right
    omega

/-- `initialize_free_list` on any region that does not wrap, whatever the region held before: the
sizes leave link, payload and guard of every slot inside its stride; following `read_next` visits
the slots in ascending order, each once, and then null, and reports nothing; nothing outside the
region is written, and the initialisation of one slot leaves every byte of the others; a hardened
slot is poisoned and stamped free, and a link is revealed as it was written. -/
theorem initializeFreeList_ascending {w : World} (hv : isValidBlockSize B blockSize = true)
    (hbs : blockSize < B.modulus) (hal : B.poolAlignment ∣ base) (hb : base ≠ 0)
    (hn : 0 < count) (hfit : base + slotStride B blockSize * count ≤ B.modulus) :
    let stride := slotStride B blockSize
    let w' : World := { w with mem := initializeFreeList B w.mem base blockSize count }
    SlotDims B blockSize ∧
    (slotsOf stride base count).Nodup ∧
    (∀ k < count, followNext B w' base k = (base + k * stride, w')) ∧
    followNext B w' base count = (0, w') ∧
    (∀ x, x < base ∨ base + stride * count ≤ x → w'.mem x = w.mem x) ∧
    (∀ m next, ∀ i < count, ∀ j < count, i ≠ j →
      SameOn m (initSlot B m (base + i * stride) next blockSize) (base + j * stride) stride) ∧
    (B.hardening = true → ∀ i < count, Poisoned B w'.mem (base + i * stride) blockSize ∧
      readGuard w'.mem (base + i * stride) blockSize = guardFreed) ∧
    ∀ m, ∀ i < count, ∀ next < B.modulus,
      revealNext B (writeNext B m (base + i * stride) next) (base + i * stride) = next := by
  obtain ⟨d, hdvd⟩ := SlotDims.of_region hv hbs hal hb hn hfit
  obtain ⟨hout, hin⟩ := initializeFreeList_spec (m := w.mem) d hn hfit
  have hfollow := Prepared.follow
    (w := { w with mem := initializeFreeList B w.mem base blockSize count }) hal hdvd hin
  refine ⟨d, slotsOf_nodup d.stride_pos, ?_, ?_, hout, ?_, ?_, ?_⟩
  · intro k hk
    rw [hfollow k hk.le hn, if_pos hk]
  · rw [hfollow count (le_refl _) hn, if_neg (lt_irrefl _)]
  · intro m next i _ j _ hij
    exact initSlot_apart d hij
  · intro hh i hi
    obtain ⟨hguard, hpoison⟩ := (hin i hi).2 hh
    exact ⟨hpoison, hguard⟩
  · intro m i hi next hnext
    exact revealNext_writeNext m (slotAddr_lt d hi hfit).2 hnext

/-- Three slots whose region ends with the address space. -/
theorem initializeFreeList_ascending_x64 :
    let B := Build.x64 true .none
    let w : World := ⟨initializeFreeList B (fun _ => 0) 0xffffffffffffffa0 16 3, Heap.empty, []⟩
    followNext B w 0xffffffffffffffa0 2 = (0xffffffffffffffe0, w) ∧
      followNext B w 0xffffffffffffffa0 3 = (0, w) := by
  obtain ⟨-, -, h1, h2, -⟩ := initializeFreeList_ascending (w := World.start)
    (show isValidBlockSize (Build.x64 true .none) 16 = true by decide) (by decide) (by decide)
    (by decide) (by decide)
    (show 0xffffffffffffffa0 + slotStride (Build.x64 true .none) 16 * 3 ≤ _ by decide)
  exact ⟨h1 2 (by decide), h2⟩

end Loop

end MemoryPool
