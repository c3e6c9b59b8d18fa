import MemoryPool.FreeList

/-!
# MemoryPool.PolicyCorrect

What `pop_head` and `push_head` do, for all three policies driven by one thread.

* `popHead_rule`, `pushHead_rule`: what is true whatever the policy.
* `popHead_result`, `pushHead_held`, `pushHead_freed`: under the invariant, as one of the changes
  of `MemoryPool.FreeList`.
* `popHead_frame`, `pushHead_frame`: in any state whatsoever, also one with corrupted memory, a
  pop changes the shape of the pool and the heap at most by one growth, and a push not at all.
-/

namespace MemoryPool

open ByteMem LinkedList

theorem State.setMutex_free {s : State} (h : s.pool.mutex = false) : s.setMutex false = s := by
  rcases s with ⟨w, p⟩
  simp only [State.setMutex]
  congr 1
  rcases p with ⟨addr, backing, head, blockSize, blockCount, alignment, overflow, growFactor,
    growCount, mutex⟩
  simp only at h
  rw [h]

theorem MutexPolicy.popHead_eq (B : Build) (env : Env) (s : State) :
    MutexPolicy.popHead B env s =
      ((popUnlocked B env s).1, (popUnlocked B env s).2.setMutex false) := by
  have h := popUnlocked_setMutex B env s true
  show ((popUnlocked B env (s.setMutex true)).1,
    (popUnlocked B env (s.setMutex true)).2.setMutex false) = _
  rw [h]
  rfl

theorem MutexPolicy.pushHead_eq (B : Build) (s : State) (block : Nat) :
    MutexPolicy.pushHead B s block = (pushUnlocked B s block).setMutex false := by
  have h := pushUnlocked_setMutex B s true block
  show (pushUnlocked B (s.setMutex true) block).setMutex false = _
  rw [h]
  rfl

/-! ## The rules for the policies -/

/-- A pop is the plain one, with the mutex free after it or not, or the lock-free one. -/
theorem popHead_rule {B : Build} {env : Env} {s : State} {P : Nat × State → Prop}
    (hunlock : ∀ r, P r → P (r.1, r.2.setMutex false)) (hplain : P (popUnlocked B env s))
    (hnull : s.pool.head.ptr = 0 → P (0, s))
    (htake : s.pool.head.ptr ≠ 0 → ∀ tag, P (s.pool.head.ptr,
      (s.setTaggedHead ⟨revealNext B s.mem s.pool.head.ptr, tag⟩).onAllocHook B
        s.pool.head.ptr)) : P (popHead B env s) := by
  unfold popHead
  cases B.threadSafety with
  | none => exact hplain
  | mutex =>
    simp only [MutexPolicy.popHead_eq]
    exact hunlock _ hplain
  | lockfree =>
    simp only [LockFreePolicy.popHead, popLoop_lone]
    split
    · rename_i h0
      exact hnull h0
    · rename_i h0
      exact htake h0 _

/-- A push is what the hook leaves, linked under some tag if the hook lets it, with the mutex free
after it or not. -/
theorem pushHead_rule {B : Build} {env : Env} {s : State} {a : Nat} {P : State → Prop}
    (hunlock : ∀ s', P s' → P (s'.setMutex false))
    (hskip : ∀ t, s.onFreeHook B a = (false, t) → P t)
    (hlink : ∀ t tag, s.onFreeHook B a = (true, t) →
      P ((t.storeNext B a t.pool.head.ptr).setTaggedHead ⟨a, tag⟩)) : P (pushHead B env s a) := by
  rcases hhook : s.onFreeHook B a with ⟨enqueue, t⟩
  have hplain : P (pushUnlocked B s a) := by
    unfold pushUnlocked
    rw [hhook]
    cases enqueue with
    | false => exact hskip t hhook
    | true => exact hlink t t.pool.head.tag hhook
  unfold pushHead
  cases B.threadSafety with
  | none => exact hplain
  | mutex =>
    simp only [MutexPolicy.pushHead_eq]
    exact hunlock _ hplain
  | lockfree =>
    simp only [LockFreePolicy.pushHead, hhook]
    cases enqueue with
    | false => exact hskip t hhook
    | true =>
      simp only [Bool.not_true, Bool.false_eq_true, if_false, pushLoop_lone]
      exact hlink t _ hhook

section Invariant

variable {B : Build} {s : State} {others : List (Nat × Region)} {free held : List Nat}

/-- The tail of a pop, on a slot whose link passes the integrity check and whose stamps are those
of a free slot. -/
theorem pop_tail_freed {a : Nat}
    (hl : revealNext B s.mem a = 0 ∨ B.poolAlignment ∣ revealNext B s.mem a)
    (hs : StampedFree B s.mem a s.pool.blockSize) :
    ((s.setWorld (readNext B s.toWorld a).2).setHead (readNext B s.toWorld a).1).onAllocHook B a =
      s.vend B a s.pool.head.tag := by
  rw [readNext_eq hl]
  exact onAllocHook_freed (s := s.setTaggedHead ⟨revealNext B s.mem a, s.pool.head.tag⟩) hs

/-- The link of the first free slot is null or the next slot, so the integrity check passes. -/
theorem PoolInv.link_aligned {a : Nat} (I : PoolInv B s others (a :: free) held) :
    revealNext B s.mem a = 0 ∨ B.poolAlignment ∣ revealNext B s.mem a := by
  obtain ⟨-, -, hc⟩ := Chain.cons_iff.mp I.chain
  by_cases h0 : revealNext B s.mem a = 0
  · exact Or.inl h0
  · obtain ⟨t, ht, -⟩ := hc.eq_cons h0
    right
    exact (I.layout.slot_spec (I.free_slot (by rw [ht]; simp))).2.1

theorem PoolInv.pop_hook {a : Nat} (I : PoolInv B s others (a :: free) held) (tag : Nat) :
    (s.setTaggedHead ⟨revealNext B s.mem a, tag⟩).onAllocHook B a = s.vend B a tag :=
  onAllocHook_freed (s := s.setTaggedHead ⟨revealNext B s.mem a, tag⟩)
    (I.freed a (List.mem_cons_self ..))

theorem PoolInv.pop_tail {a : Nat} (I : PoolInv B s others (a :: free) held) :
    ((s.setWorld (readNext B s.toWorld a).2).setHead (readNext B s.toWorld a).1).onAllocHook B a =
      s.vend B a s.pool.head.tag :=
  pop_tail_freed I.link_aligned (I.freed a (List.mem_cons_self ..))

theorem PoolInv.head_eq {a : Nat} (I : PoolInv B s others (a :: free) held) :
    s.pool.head.ptr = a ∧ a ≠ 0 := by
  obtain ⟨h1, h2, -⟩ := Chain.cons_iff.mp I.chain
  exact ⟨h1, h2⟩

/-- Everything a pop can do, in a state described by its free list: vend the first free slot,
fail and change nothing, or grow and vend the first slot of the new chunk. -/
inductive PopResult (B : Build) (s : State) : List Nat → Nat × State → Prop where
  | vend {a : Nat} {rest : List Nat} (tag : Nat) :
      PopResult B s (a :: rest) (a, s.vend B a tag)
  | fail {heap : Heap} : s.heap.SameLive heap → PopResult B s [] (0, { s with heap := heap })
  | grow {add backing addr : Nat} {heap : Heap} (tag : Nat) :
      Grown B s add backing addr heap → 2 ≤ s.pool.growFactor →
      PopResult B s [] (backing, (linkChunk B s add backing addr heap).vend B backing tag)

/-- With `head_` null the outcome does not depend on what the slots hold: a fresh chunk is in good
order. -/
theorem popUnlocked_empty (L : Layout B s others) (h0 : s.pool.head.ptr = 0) (env : Env) :
    PopResult B s [] (popUnlocked B env s) := by
  unfold popUnlocked
  rw [if_pos h0]
  by_cases hf : s.pool.growFactor < 2
  · rw [if_pos hf]
    exact .fail ⟨rfl, rfl⟩
  · rw [if_neg hf]
    rcases growPool_cases B env s with ⟨heap, hsame, he⟩ | ⟨add, backing, addr, heap, hg, he⟩
    · rw [he]
      exact .fail hsame
    · rw [he]
      have hpos := (growthCount_some hg.count).2.2.1
      obtain ⟨-, hin⟩ := initializeFreeList_spec (m := s.mem) L.dims hpos hg.fits.le
      obtain ⟨hlink, hstamp⟩ := hin 0 hpos
      simp only [Nat.zero_mul, Nat.add_zero] at hlink hstamp
      have haligned : revealNext B (linkChunk B s add backing addr heap).mem backing = 0 ∨
          B.poolAlignment ∣ revealNext B (linkChunk B s add backing addr heap).mem backing := by
        simp only [linkChunk, hlink]
        split
        · right
          exact Nat.dvd_add hg.aligned (L.stride_align.mul_left _)
        · exact Or.inl rfl
      have htail := pop_tail_freed (s := linkChunk B s add backing addr heap) haligned hstamp
      show PopResult B s [] (backing, _)
      rw [show (linkChunk B s add backing addr heap).pool.head.ptr = backing from rfl, htail]
      exact .grow _ hg (by omega)

/-- No pop leaves the mutex held. -/
theorem PopResult.unlock {r : Nat × State} (h : PopResult B s free r)
    (hm : s.pool.mutex = false) : PopResult B s free (r.1, r.2.setMutex false) := by
  have hfree : r.2.setMutex false = r.2 := by
    refine State.setMutex_free ?_
    cases h <;> exact hm
  rw [hfree]
  exact h

theorem popHead_null (L : Layout B s others) (hm : s.pool.mutex = false)
    (h0 : s.pool.head.ptr = 0) (env : Env) : PopResult B s [] (popHead B env s) := by
  refine popHead_rule (fun r h => h.unlock hm) (popUnlocked_empty L h0 env) ?_ ?_
  · intro _
    exact .fail (⟨rfl, rfl⟩ : s.heap.SameLive s.heap)
  · intro hne
    exact absurd h0 hne

theorem popUnlocked_vend {a : Nat} (I : PoolInv B s others (a :: free) held) (env : Env) :
    popUnlocked B env s = (a, s.vend B a s.pool.head.tag) := by
  obtain ⟨hhead, hne⟩ := I.head_eq
  unfold popUnlocked
  rw [if_neg (by omega)]
  show (s.pool.head.ptr, _) = _
  simp only [hhead]
  rw [I.pop_tail]

theorem popHead_result (I : PoolInv B s others free held) (env : Env) :
    PopResult B s free (popHead B env s) := by
  cases free with
  | nil => exact popHead_null I.layout I.unlocked (I.head_zero_iff.mpr rfl) env
  | cons a rest =>
    obtain ⟨hhead, hne⟩ := I.head_eq
    refine popHead_rule (fun r h => h.unlock I.unlocked) ?_ ?_ ?_
    · rw [popUnlocked_vend I env]
      exact .vend _
    · intro h0
      omega
    · intro _ tag
      rw [hhead, I.pop_hook]
      exact .vend _

theorem pushHead_held (I : PoolInv B s others free held) {a : Nat} (ha : a ∈ held) (env : Env) :
    ∃ tag, pushHead B env s a = s.takeBack B a tag := by
  have hhook := onFreeHook_held (I.vended a ha)
  refine pushHead_rule (P := fun s' => ∃ tag, s' = s.takeBack B a tag) ?_ ?_ ?_
  · rintro _ ⟨tag, rfl⟩
    exact ⟨tag, State.setMutex_free I.unlocked⟩
  · intro t ht
    rw [hhook] at ht
    cases ht
  · intro t tag ht
    rw [hhook] at ht
    cases ht
    exact ⟨tag, rfl⟩

theorem pushHead_freed (I : PoolInv B s others free held) (hh : B.hardening = true) {a : Nat}
    (ha : a ∈ free) (env : Env) :
    pushHead B env s a = s.setWorld (s.report .doubleFree a) := by
  have hhook := onFreeHook_freed hh (I.freed a ha)
  refine pushHead_rule (P := fun s' => s' = s.setWorld (s.report .doubleFree a)) ?_ ?_ ?_
  · rintro _ rfl
    exact State.setMutex_free I.unlocked
  · intro t ht
    rw [hhook] at ht
    exact (Prod.mk.inj ht).2.symm
  · intro t _ ht
    rw [hhook] at ht
    cases (Prod.mk.inj ht).1

theorem PopResult.inv {r : Nat × State} (h : PopResult B s free r)
    (I : PoolInv B s others free held) :
    ∃ free', PoolInv B r.2 others free' (if r.1 = 0 then held else r.1 :: held) := by
  cases h with
  | @vend a rest tag =>
    rw [if_neg I.head_eq.2]
    exact ⟨rest, I.vend tag⟩
  | fail hsame => exact ⟨[], I.sameHeap hsame⟩
  | grow tag hg _ =>
    rw [if_neg hg.nonnull]
    exact ⟨_, I.grow hg tag⟩

end Invariant

/-! ## Whatever the memory holds -/

theorem readNext_heap (B : Build) (w : World) (slot : Nat) :
    (readNext B w slot).2.heap = w.heap := by
  simp only [readNext]
  split <;> rfl

theorem onAlloc_heap (B : Build) (w : World) (slot blockSize : Nat) :
    (onAlloc B w slot blockSize).heap = w.heap := by
  unfold onAlloc
  split <;> (simp only []; split <;> rfl)

theorem onFree_heap (B : Build) (w : World) (slot blockSize : Nat) :
    (onFree B w slot blockSize).2.heap = w.heap := by
  unfold onFree
  generalize readGuard w.mem slot blockSize = guard
  by_cases h1 : guard = guardFreed
  · simp only [if_pos h1, World.report_heap]
  · by_cases h2 : guard = guardAllocated
    · simp only [if_neg h1, if_neg (not_not.mpr h2)]
    · simp only [if_neg h1, if_pos h2, World.report_heap]

theorem onAllocHook_frame (B : Build) (s : State) (a : Nat) :
    (s.onAllocHook B a).heap = s.heap ∧ (s.onAllocHook B a).pool = s.pool := by
  have h := onAlloc_heap B s.toWorld a s.pool.blockSize
  unfold State.onAllocHook
  generalize onAlloc B s.toWorld a s.pool.blockSize = w at h ⊢
  split
  · exact ⟨h, rfl⟩
  · exact ⟨rfl, rfl⟩

theorem onFreeHook_frame (B : Build) (s : State) (a : Nat) :
    (s.onFreeHook B a).2.heap = s.heap ∧ (s.onFreeHook B a).2.pool = s.pool := by
  have h := onFree_heap B s.toWorld a s.pool.blockSize
  unfold State.onFreeHook
  generalize onFree B s.toWorld a s.pool.blockSize = r at h ⊢
  split
  · exact ⟨h, rfl⟩
  · exact ⟨rfl, rfl⟩

/-- What a pop does to the heap and to the shape of the pool, and what it answers: the head if
there is one, else null, or the first slot of a fresh chunk. -/
inductive PopFrame (B : Build) (s : State) : Nat × State → Prop where
  | vend {s' : State} : s.pool.head.ptr ≠ 0 → s.pool.SameShape s'.pool →
      s.heap.SameLive s'.heap → PopFrame B s (s.pool.head.ptr, s')
  | fail {s' : State} : s.pool.head.ptr = 0 → s.pool.SameShape s'.pool →
      s.heap.SameLive s'.heap → PopFrame B s (0, s')
  | grew {add backing addr : Nat} {heap : Heap} {s' : State} : Grown B s add backing addr heap →
      s.pool.head.ptr = 0 → 2 ≤ s.pool.growFactor → s'.heap = heap →
      (linkChunk B s add backing addr heap).pool.SameShape s'.pool → PopFrame B s (backing, s')

/-- What a call does to the heap and to the shape of the pool: nothing, or one growth. -/
inductive Frame (B : Build) (s : State) : State → Prop where
  | same {s' : State} : s.pool.SameShape s'.pool → s.heap.SameLive s'.heap → Frame B s s'
  | grew {add backing addr : Nat} {heap : Heap} {s' : State} : Grown B s add backing addr heap →
      s'.heap = heap → (linkChunk B s add backing addr heap).pool.SameShape s'.pool → Frame B s s'

theorem PopFrame.frame {B : Build} {s : State} {r : Nat × State} (h : PopFrame B s r) :
    Frame B s r.2 := by
  cases h with
  | vend _ h1 h2 => exact .same h1 h2
  | fail _ h1 h2 => exact .same h1 h2
  | grew hg _ _ h1 h2 => exact .grew hg h1 h2

theorem pop_tail_frame (B : Build) (s : State) (a : Nat) :
    (((s.setWorld (readNext B s.toWorld a).2).setHead
      (readNext B s.toWorld a).1).onAllocHook B a).heap = s.heap ∧
    s.pool.SameShape (((s.setWorld (readNext B s.toWorld a).2).setHead
      (readNext B s.toWorld a).1).onAllocHook B a).pool := by
  obtain ⟨h1, h2⟩ := onAllocHook_frame B
    ((s.setWorld (readNext B s.toWorld a).2).setHead (readNext B s.toWorld a).1) a
  rw [h1, h2]
  exact ⟨readNext_heap B s.toWorld a, rfl⟩

theorem popUnlocked_frame (B : Build) (env : Env) (s : State) :
    PopFrame B s (popUnlocked B env s) := by
  unfold popUnlocked
  by_cases h0 : s.pool.head.ptr = 0
  · rw [if_pos h0]
    by_cases hf : s.pool.growFactor < 2
    · rw [if_pos hf]
      exact .fail h0 rfl ⟨rfl, rfl⟩
    · rw [if_neg hf]
      rcases growPool_cases B env s with ⟨heap, hsame, he⟩ | ⟨add, backing, addr, heap, hg, he⟩
      · rw [he]
        exact .fail h0 rfl hsame
      · rw [he]
        obtain ⟨h1, h2⟩ := pop_tail_frame B (linkChunk B s add backing addr heap) backing
        exact .grew hg h0 (by omega) h1 h2
  · rw [if_neg h0]
    obtain ⟨h1, h2⟩ := pop_tail_frame B s s.pool.head.ptr
    exact .vend h0 h2 ⟨congrArg (·.ledger.live) h1, congrArg (·.ledger.invalid) h1⟩

theorem popHead_frame (B : Build) (env : Env) (s : State) : PopFrame B s (popHead B env s) := by
  refine popHead_rule ?_ (popUnlocked_frame B env s) ?_ ?_
  · intro r h
    cases h with
    | vend h0 h1 h2 => exact .vend h0 (h1.trans rfl) h2
    | fail h0 h1 h2 => exact .fail h0 (h1.trans rfl) h2
    | grew hg h0 hf h1 h2 => exact .grew hg h0 hf h1 (h2.trans rfl)
  · intro h0
    exact .fail h0 rfl ⟨rfl, rfl⟩
  · intro h0 tag
    obtain ⟨h1, h2⟩ := onAllocHook_frame B
      (s.setTaggedHead ⟨revealNext B s.mem s.pool.head.ptr, tag⟩) s.pool.head.ptr
    refine .vend h0 ?_ ⟨congrArg (·.ledger.live) h1, congrArg (·.ledger.invalid) h1⟩
    rw [h2]
    rfl

theorem pushHead_frame (B : Build) (env : Env) (s : State) (a : Nat) :
    (pushHead B env s a).heap = s.heap ∧ s.pool.SameShape (pushHead B env s a).pool := by
  have hhook := onFreeHook_frame B s a
  refine pushHead_rule
    (P := fun s' => s'.heap = s.heap ∧ s.pool.SameShape s'.pool) ?_ ?_ ?_
  · rintro s' ⟨h1, h2⟩
    exact ⟨h1, h2.trans rfl⟩
  · intro t ht
    rw [ht] at hhook
    exact ⟨hhook.1, .of_eq hhook.2⟩
  · intro t tag ht
    rw [ht] at hhook
    exact ⟨hhook.1, (PoolStruct.SameShape.of_eq hhook.2).trans rfl⟩

namespace Frame

variable {B : Build} {s s' : State}

/-- The layout survives every call, also one on a pool with corrupted slots. -/
theorem layout {others : List (Nat × Region)} (h : Frame B s s') (L : Layout B s others) :
    Layout B s' others := by
  cases h with
  | same h1 h2 => exact L.same h1 h2.1
  | grew hg h1 h2 => exact (L.grow hg).same h2 (by rw [h1]; rfl)

theorem blockSize (h : Frame B s s') : s'.pool.blockSize = s.pool.blockSize := by
  cases h with
  | same h1 _ => exact h1.blockSize
  | grew _ _ h2 => exact h2.blockSize

end Frame

end MemoryPool
