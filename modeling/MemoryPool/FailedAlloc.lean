import MemoryPool.HeapBalance

/-!
# MemoryPool.FailedAlloc

An allocation that fails is as if it had not been made.

A growth that fails after the backing was obtained leaves a trace in the heap's history, and
nowhere else. `State.Alike` is equality up to that history: memory, reports and pool are the same,
and the same regions are outstanding.

* `popHead_alike`, `pushHead_alike`, `Client.exec_alike`: every operation answers alike in states
  that are alike, and leaves them alike.
* `Client.run_alike`: so does every continuation.
* `Client.Step.unlocked`: no run leaves the mutex held.
* `failed_alloc_noop`: every failed allocation in every reachable state.
-/

namespace MemoryPool

open ByteMem

def Heap.Alike (h h' : Heap) : Prop := h.ledger.Alike h'.ledger

namespace Heap.Alike

variable {h h' : Heap}

theorem admissible (a : h.Alike h') {B : Build} {r : Region} {align : Nat} :
    h'.Admissible B r align ↔ h.Admissible B r align := by
  constructor
  · rintro ⟨h1, h2, h3, h4⟩
    exact ⟨h1, h2, h3, Ledger.Alike.forall_live a (P := fun k => Region.Apart r k) |>.mp h4⟩
  · rintro ⟨h1, h2, h3, h4⟩
    exact ⟨h1, h2, h3, Ledger.Alike.forall_live a (P := fun k => Region.Apart r k) |>.mpr h4⟩

theorem obtain (a : h.Alike h') {r : Region} (hr : ∀ e ∈ h.ledger.live, Region.Apart r e.2)
    (hr' : ∀ e ∈ h'.ledger.live, Region.Apart r e.2) : (h.obtain r hr).Alike (h'.obtain r hr') :=
  Ledger.Alike.obtain a r

theorem release (a : h.Alike h') (kind : RegionKind) (base : Nat) :
    (h.release kind base).Alike (h'.release kind base) := 
  Ledger.Alike.release a fun r => r.kind = kind ∧ r.base = base

end Heap.Alike

theorem Heap.SameLive.alike {h h' : Heap} (hs : h.SameLive h') : h.Alike h' :=
  ⟨by rw [hs.1], hs.2⟩

namespace World

def withHeap (w : World) (h : Heap) : World := { w with heap := h }

theorem operatorNew_alike (B : Build) (w : World) {h : Heap} (a : w.heap.Alike h)
    (kind : RegionKind) (bytes align : Nat) (answer : Option Nat) :
    ∃ h', (w.operatorNew B kind bytes align answer).2.heap.Alike h' ∧
      (w.withHeap h).operatorNew B kind bytes align answer =
        ((w.operatorNew B kind bytes align answer).1,
          (w.operatorNew B kind bytes align answer).2.withHeap h') := by
  unfold operatorNew
  cases answer with
  | none => exact ⟨h, a, rfl⟩
  | some base =>
    by_cases had : w.heap.Admissible B ⟨kind, base, bytes⟩ align
    · have had' : h.Admissible B ⟨kind, base, bytes⟩ align := a.admissible.mpr had
      simp only [dif_pos had]
      exact ⟨_, a.obtain had.fresh had'.fresh, dif_pos had'⟩
    · have had' : ¬ h.Admissible B ⟨kind, base, bytes⟩ align := fun hx => had (a.admissible.mp hx)
      simp only [dif_neg had]
      exact ⟨h, a, dif_neg had'⟩

end World

def State.withHeap (s : State) (h : Heap) : State := { s with heap := h }

/-- Equal up to the history of the heap. -/
def State.Alike (s s' : State) : Prop := ∃ h, s.heap.Alike h ∧ s' = s.withHeap h

namespace State.Alike

variable {s s' : State}

theorem pool (a : s.Alike s') : s'.pool = s.pool := by
  obtain ⟨h, -, rfl⟩ := a
  rfl

theorem heap (a : s.Alike s') : s.heap.Alike s'.heap := by
  obtain ⟨h, ha, rfl⟩ := a
  exact ha

theorem setMutex (a : s.Alike s') (held : Bool) : (s.setMutex held).Alike (s'.setMutex held) := by
  obtain ⟨h, ha, rfl⟩ := a
  exact ⟨h, ha, rfl⟩

theorem setTaggedHead (a : s.Alike s') (head : TaggedHead) :
    (s.setTaggedHead head).Alike (s'.setTaggedHead head) := by
  obtain ⟨h, ha, rfl⟩ := a
  exact ⟨h, ha, rfl⟩

theorem setHead (a : s.Alike s') (ptr : Nat) : (s.setHead ptr).Alike (s'.setHead ptr) := by
  obtain ⟨h, ha, rfl⟩ := a
  exact ⟨h, ha, rfl⟩

theorem storeNext (a : s.Alike s') (B : Build) (slot next : Nat) :
    (s.storeNext B slot next).Alike (s'.storeNext B slot next) := by
  obtain ⟨h, ha, rfl⟩ := a
  exact ⟨h, ha, rfl⟩

end State.Alike

/-! ## The hooks do not look at the heap -/

theorem readNext_withHeap (B : Build) (w : World) (h : Heap) (slot : Nat) :
    readNext B (w.withHeap h) slot = ((readNext B w slot).1, (readNext B w slot).2.withHeap h) := by
  unfold readNext World.withHeap
  simp only []
  split <;> rfl

theorem onAlloc_withHeap (B : Build) (w : World) (h : Heap) (slot blockSize : Nat) :
    onAlloc B (w.withHeap h) slot blockSize = (onAlloc B w slot blockSize).withHeap h := by
  unfold onAlloc
  by_cases h1 : readGuard w.mem slot blockSize ≠ guardFreed
  · have h1' : readGuard (w.withHeap h).mem slot blockSize ≠ guardFreed := h1
    simp only [if_pos h1, if_pos h1']
    cases hp : payloadIsPoison B w.mem slot blockSize <;>
      simp [World.withHeap, World.report, hp]
  · have h1' : ¬ readGuard (w.withHeap h).mem slot blockSize ≠ guardFreed := h1
    simp only [if_neg h1, if_neg h1']
    cases hp : payloadIsPoison B w.mem slot blockSize <;>
      simp [World.withHeap, World.report, hp]

theorem onFree_withHeap (B : Build) (w : World) (h : Heap) (slot blockSize : Nat) :
    onFree B (w.withHeap h) slot blockSize =
      ((onFree B w slot blockSize).1, (onFree B w slot blockSize).2.withHeap h) := by
  unfold onFree World.withHeap
  simp only []
  split
  · rfl
  · split <;> rfl

section Calls

variable {s s' : State} (B : Build) (env : Env)

theorem readNext_alike (a : s.Alike s') (slot : Nat) :
    (readNext B s'.toWorld slot).1 = (readNext B s.toWorld slot).1 ∧
      (s.setWorld (readNext B s.toWorld slot).2).Alike
        (s'.setWorld (readNext B s'.toWorld slot).2) := by
  obtain ⟨h, ha, rfl⟩ := a
  have he : readNext B (s.withHeap h).toWorld slot = _ := readNext_withHeap B s.toWorld h slot
  rw [he]
  refine ⟨rfl, h, ?_, rfl⟩
  rw [show (s.setWorld (readNext B s.toWorld slot).2).heap = s.heap from
    readNext_heap B s.toWorld slot]
  exact ha

theorem onAllocHook_alike (a : s.Alike s') (block : Nat) :
    (s.onAllocHook B block).Alike (s'.onAllocHook B block) := by
  obtain ⟨h, ha, rfl⟩ := a
  refine ⟨h, ?_, ?_⟩
  · rw [(onAllocHook_frame B s block).1]
    exact ha
  · have he : onAlloc B (s.withHeap h).toWorld block s.pool.blockSize = _ :=
      onAlloc_withHeap B s.toWorld h block s.pool.blockSize
    unfold State.onAllocHook
    split
    · rw [show (s.withHeap h).pool = s.pool from rfl, he]
      rfl
    · rfl

theorem onFreeHook_alike (a : s.Alike s') (block : Nat) :
    (s'.onFreeHook B block).1 = (s.onFreeHook B block).1 ∧
      (s.onFreeHook B block).2.Alike (s'.onFreeHook B block).2 := by
  obtain ⟨h, ha, rfl⟩ := a
  have he : onFree B (s.withHeap h).toWorld block s.pool.blockSize = _ :=
    onFree_withHeap B s.toWorld h block s.pool.blockSize
  have hhook : (s.withHeap h).onFreeHook B block =
      ((s.onFreeHook B block).1, (s.onFreeHook B block).2.withHeap h) := by
    unfold State.onFreeHook
    rw [show (s.withHeap h).pool = s.pool from rfl, he]
    generalize onFree B s.toWorld block s.pool.blockSize = r
    split <;> rfl
  rw [hhook]
  refine ⟨rfl, h, ?_, rfl⟩
  rw [(onFreeHook_frame B s block).1]
  exact ha

/-- The guards of a growth look at the pool, and the two requests are answered alike. -/
theorem growPool_alike (a : s.Alike s') :
    (growPool B env s').1 = (growPool B env s).1 ∧
      (growPool B env s).2.Alike (growPool B env s').2 := by
  obtain ⟨h, ha, rfl⟩ := a
  unfold growPool
  rw [show growthCount B (s.withHeap h).pool = growthCount B s.pool from rfl]
  cases growthCount B s.pool with
  | none => exact ⟨rfl, h, ha, rfl⟩
  | some add =>
    simp only [show (s.withHeap h).pool = s.pool from rfl]
    obtain ⟨h₁, ha₁, he₁⟩ := World.operatorNew_alike B s.toWorld ha .backing
      (B.mul add (slotStride B s.pool.blockSize)) B.poolAlignment env.backing
    rw [show (s.withHeap h).toWorld = s.toWorld.withHeap h from rfl, he₁]
    generalize s.toWorld.operatorNew B .backing (B.mul add (slotStride B s.pool.blockSize))
      B.poolAlignment env.backing = r₁ at ha₁ ⊢
    obtain ⟨backing, w₁⟩ := r₁
    cases backing with
    | none => exact ⟨rfl, h₁, ha₁, rfl⟩
    | some backing =>
      obtain ⟨h₂, ha₂, he₂⟩ := World.operatorNew_alike B w₁ ha₁ .chunkNode B.sizeofChunk
        B.ptrBytes env.object
      simp only [he₂]
      generalize w₁.operatorNew B .chunkNode B.sizeofChunk B.ptrBytes env.object = r₂ at ha₂ ⊢
      obtain ⟨addr, w₂⟩ := r₂
      cases addr with
      | none => exact ⟨rfl, _, ha₂.release .backing backing, rfl⟩
      | some addr => exact ⟨rfl, h₂, ha₂, rfl⟩

theorem pop_tail_alike (a : s.Alike s') (block : Nat) :
    (((s.setWorld (readNext B s.toWorld block).2).setHead
      (readNext B s.toWorld block).1).onAllocHook B block).Alike
    (((s'.setWorld (readNext B s'.toWorld block).2).setHead
      (readNext B s'.toWorld block).1).onAllocHook B block) := by
  obtain ⟨h1, h2⟩ := readNext_alike B a block
  rw [h1]
  exact onAllocHook_alike B (h2.setHead _) block

theorem popUnlocked_alike (a : s.Alike s') :
    (popUnlocked B env s').1 = (popUnlocked B env s).1 ∧
      (popUnlocked B env s).2.Alike (popUnlocked B env s').2 := by
  unfold popUnlocked
  rw [a.pool]
  by_cases h0 : s.pool.head.ptr = 0
  · simp only [if_pos h0]
    by_cases hf : s.pool.growFactor < 2
    · simp only [if_pos hf]
      exact ⟨rfl, a⟩
    · obtain ⟨h1, h2⟩ := growPool_alike B env a
      simp only [if_neg hf]
      rw [h1]
      cases (growPool B env s).1 with
      | false => exact ⟨rfl, h2⟩
      | true =>
        refine ⟨by rw [h2.pool]; rfl, ?_⟩
        have htail := pop_tail_alike B h2 (growPool B env s).2.pool.head.ptr
        simpa [h2.pool] using htail
  · simp only [if_neg h0]
    have htail := pop_tail_alike B a s.pool.head.ptr
    simpa [a.pool] using htail

theorem popHead_alike (a : s.Alike s') :
    (popHead B env s').1 = (popHead B env s).1 ∧
      (popHead B env s).2.Alike (popHead B env s').2 := by
  obtain ⟨h1, h2⟩ := popUnlocked_alike B env a
  unfold popHead
  cases B.threadSafety with
  | none => exact ⟨h1, h2⟩
  | mutex =>
    simp only [MutexPolicy.popHead_eq]
    exact ⟨h1, h2.setMutex false⟩
  | lockfree =>
    simp only [LockFreePolicy.popHead]
    rw [popLoop_lone, popLoop_lone, a.pool]
    split
    · exact ⟨rfl, a⟩
    · have hm : s'.mem = s.mem := by
        obtain ⟨h, -, rfl⟩ := a
        rfl
      rw [hm]
      exact ⟨rfl, onAllocHook_alike B (a.setTaggedHead _) _⟩

theorem pushHead_alike (a : s.Alike s') (block : Nat) :
    (pushHead B env s block).Alike (pushHead B env s' block) := by
  obtain ⟨h1, h2⟩ := onFreeHook_alike B a block
  have hun : (pushUnlocked B s block).Alike (pushUnlocked B s' block) := by
    unfold pushUnlocked
    generalize s.onFreeHook B block = r at h1 h2 ⊢
    generalize s'.onFreeHook B block = r' at h1 h2 ⊢
    obtain ⟨enqueue, t⟩ := r
    obtain ⟨enqueue', t'⟩ := r'
    obtain rfl : enqueue' = enqueue := h1
    cases enqueue' with
    | false => exact h2
    | true =>
      show ((t.storeNext B block t.pool.head.ptr).setHead block).Alike
        ((t'.storeNext B block t'.pool.head.ptr).setHead block)
      rw [h2.pool]
      exact (h2.storeNext B _ _).setHead _
  unfold pushHead
  cases B.threadSafety with
  | none => exact hun
  | mutex =>
    simp only [MutexPolicy.pushHead_eq]
    exact hun.setMutex false
  | lockfree =>
    simp only [LockFreePolicy.pushHead]
    generalize s.onFreeHook B block = r at h1 h2 ⊢
    generalize s'.onFreeHook B block = r' at h1 h2 ⊢
    obtain ⟨enqueue, t⟩ := r
    obtain ⟨enqueue', t'⟩ := r'
    obtain rfl : enqueue' = enqueue := h1
    cases enqueue' with
    | false => exact h2
    | true =>
      simp only [Bool.not_true, Bool.false_eq_true, if_false, pushLoop_lone]
      rw [h2.pool]
      exact (h2.storeNext B _ _).setTaggedHead _

end Calls

/-! ## Continuations -/

theorem memoryPoolFree_alike {s s' : State} (B : Build) (env : Env) (a : s.Alike s')
    (block : Nat) : ∃ t t', memoryPoolFree B env (some s) block = some t ∧
      memoryPoolFree B env (some s') block = some t' ∧ t.Alike t' := by
  show ∃ t t', (if block = 0 then some s else if !isBlockInRange B s.pool block then some s
      else some (pushHead B env s block)) = some t ∧
    (if block = 0 then some s' else if !isBlockInRange B s'.pool block then some s'
      else some (pushHead B env s' block)) = some t' ∧ t.Alike t'
  rw [a.pool]
  split
  · exact ⟨s, s', rfl, rfl, a⟩
  · split
    · exact ⟨s, s', rfl, rfl, a⟩
    · exact ⟨_, _, rfl, rfl, pushHead_alike B env a block⟩

theorem Heap.Alike.releaseRegions :
    ∀ {l : List Region} {h h' : Heap}, h.Alike h' →
      (h.releaseRegions l).Alike (h'.releaseRegions l) := by
  intro l
  induction l with
  | nil => intro h h' a; exact a
  | cons r l ih => intro h h' a; exact ih (a.release r.kind r.base)

theorem memoryPoolDestroy_alike {s s' : State} (B : Build) (a : s.Alike s') :
    (memoryPoolDestroy s.toWorld (some s.pool)).heap.Alike
      (memoryPoolDestroy s'.toWorld (some s'.pool)).heap := by
  rw [memoryPoolDestroy_heap B, memoryPoolDestroy_heap B, a.pool]
  exact a.heap.releaseRegions

namespace Client

def Alike (c c' : Client) : Prop := c.pool.Alike c'.pool ∧ c'.held = c.held

variable {B : Build} {c c' : Client}

theorem exec_alike (a : c.Alike c') (call : Call) :
    ∃ e d d', exec B c call = some (e, d) ∧ exec B c' call = some (e, d') ∧ d.Alike d' := by
  obtain ⟨s, held⟩ := c
  obtain ⟨s', held'⟩ := c'
  obtain ⟨hs, hheld⟩ := a
  obtain rfl : held' = held := hheld
  cases call with
  | alloc env =>
    obtain ⟨h1, h2⟩ := popHead_alike B env hs
    have hnew : newChunk s' (popHead B env s').2 = newChunk s (popHead B env s).2 := by
      unfold newChunk
      rw [h2.pool, hs.pool]
    simp only [exec, memoryPoolAlloc_some]
    rw [h1, hnew]
    exact ⟨_, _, _, rfl, rfl, h2, rfl⟩
  | free env block =>
    obtain ⟨t, t', h1, h2, h3⟩ := memoryPoolFree_alike B env hs block
    simp only [exec, h1, h2]
    exact ⟨_, _, _, rfl, rfl, h3, rfl⟩
  | write addr byte =>
    refine ⟨_, _, _, rfl, rfl, ?_, rfl⟩
    obtain ⟨h, ha, rfl⟩ := hs
    exact ⟨h, ha, rfl⟩

/-- By induction on the calls still to come. -/
theorem run_alike : ∀ (calls : List Call) {c c' : Client}, c.Alike c' →
    ∃ es d d', Lts.script (exec B) c calls = some (es, d) ∧
      Lts.script (exec B) c' calls = some (es, d') ∧ d.Alike d' := by
  intro calls
  induction calls with
  | nil => intro c c' a; exact ⟨[], c, c', rfl, rfl, a⟩
  | cons call calls ih =>
    intro c c' a
    obtain ⟨e, c₁, c₁', h1, h2, a₁⟩ := exec_alike (B := B) a call
    obtain ⟨es, d, d', h3, h4, ad⟩ := ih a₁
    refine ⟨e :: es, d, d', ?_, ?_, ad⟩
    · simp only [Lts.script, h1, h3, Option.map_some]
    · simp only [Lts.script, h2, h4, Option.map_some]

end Client

/-! ## The mutex is free between calls -/

theorem popHead_unlocked {B : Build} {env : Env} {s : State} (h : s.pool.mutex = false) :
    (popHead B env s).2.pool.mutex = false := by
  have hun : (popUnlocked B env s).2.pool.mutex = false := by
    have he := popUnlocked_setMutex B env s false
    rw [State.setMutex_free h] at he
    rw [he]
    rfl
  refine popHead_rule (P := fun r => r.2.pool.mutex = false) ?_ hun ?_ ?_
  · intro r _
    rfl
  · intro _
    exact h
  · intro _ tag
    rw [(onAllocHook_frame B _ _).2]
    exact h

theorem pushHead_unlocked {B : Build} {env : Env} {s : State} (h : s.pool.mutex = false)
    (block : Nat) : (pushHead B env s block).pool.mutex = false := by
  have hhook := (onFreeHook_frame B s block).2
  rw [← hhook] at h
  refine pushHead_rule (P := fun s' => s'.pool.mutex = false) ?_ ?_ ?_
  · intro s' _
    rfl
  · intro t ht
    rw [ht] at h
    exact h
  · intro t tag ht
    rw [ht] at h
    exact h

theorem Client.Step.unlocked {B : Build} {c c' : Client} {e : Client.Event}
    (hstep : Client.Step B c e c') (h : c.pool.pool.mutex = false) :
    c'.pool.pool.mutex = false := by
  cases hstep with
  | @alloc env block s' ha =>
    rw [memoryPoolAlloc_some] at ha
    cases ha
    exact popHead_unlocked h
  | @free env block s' hf =>
    have hf' : (if block = 0 then some c.pool
        else if !isBlockInRange B c.pool.pool block then some c.pool
        else some (pushHead B env c.pool block)) = some s' := hf
    split at hf'
    · cases hf'
      exact h
    · split at hf'
      · cases hf'
        exact h
      · cases hf'
        exact pushHead_unlocked h block
  | write => exact h

/-! ## A failed allocation -/

section Failure

variable {B : Build} {env : Env} {s s' : State} {others : List (Nat × Region)}

theorem PopFrame.null {r : Nat × State} (h : PopFrame B s r) (h0 : r.1 = 0) :
    s.pool.head.ptr = 0 := by
  cases h with
  | vend hne _ _ => exact absurd h0 hne
  | fail hnull _ _ => exact hnull
  | grew hg _ _ _ _ => exact absurd h0 hg.nonnull

theorem PopResult.null {r : Nat × State} (h : PopResult B s [] r) (h0 : r.1 = 0) :
    ∃ heap, s.heap.SameLive heap ∧ r.2 = { s with heap := heap } := by
  cases h with
  | fail hsame => exact ⟨_, hsame, rfl⟩
  | grow tag hg _ => exact absurd h0 hg.nonnull

theorem memoryPoolAlloc_failed (L : Layout B s others) (hm : s.pool.mutex = false)
    (h : memoryPoolAlloc B env (some s) = (0, some s')) :
    s.pool.head.ptr = 0 ∧ ∃ heap, s.heap.SameLive heap ∧ s' = { s with heap := heap } := by
  rw [memoryPoolAlloc_some] at h
  obtain ⟨hz, hs⟩ := Prod.mk.inj h
  have h0 := (popHead_frame B env s).null hz
  refine ⟨h0, ?_⟩
  rw [← Option.some.inj hs]
  exact (popHead_null L hm h0 env).null hz

/-- With memory for the backing and for the descriptor, an allocation on an empty list grows the
pool and returns the first slot of the new chunk. -/
theorem memoryPoolAlloc_grows (hts : B.threadSafety ≠ .lockfree) (h0 : s.pool.head.ptr = 0)
    (hf : 2 ≤ s.pool.growFactor) {add backing addr spurious : Nat}
    (hadd : growthCount B s.pool = some add)
    (h1 : s.heap.Admissible B ⟨.backing, backing, B.mul add (slotStride B s.pool.blockSize)⟩
      B.poolAlignment)
    (h2 : (s.heap.obtain _ h1.fresh).Admissible B ⟨.chunkNode, addr, B.sizeofChunk⟩ B.ptrBytes) :
    (memoryPoolAlloc B ⟨some backing, some addr, spurious⟩ (some s)).1 = backing := by
  have hgrow : (growPool B ⟨some backing, some addr, spurious⟩ s).1 = true ∧
      (growPool B ⟨some backing, some addr, spurious⟩ s).2.pool.head.ptr = backing := by
    unfold growPool
    simp only [hadd, World.operatorNew, dif_pos h1, dif_pos h2]
    exact ⟨trivial, trivial⟩
  have hun : (popUnlocked B ⟨some backing, some addr, spurious⟩ s).1 = backing := by
    unfold popUnlocked
    simp only [if_pos h0, if_neg (Nat.not_lt.mpr hf), hgrow.1, Bool.not_true, Bool.false_eq_true,
      if_false]
    exact hgrow.2
  rw [memoryPoolAlloc_some]
  unfold popHead
  cases hk : B.threadSafety with
  | none => exact hun
  | mutex =>
    simp only [MutexPolicy.popHead_eq]
    exact hun
  | lockfree => exact absurd hk hts

end Failure

/-- In every state a run from creation reaches, under any policy, hardened or not: whatever made
the allocation fail, pool, memory, reports and outstanding regions are as before; every list of
later calls, with the same allocator answers, has the same outcome as if it had not been made, and
so has a destroy after them; and as soon as the allocator has room, the next allocation grows the
pool. -/
theorem failed_alloc_noop {B : Build} {env : Env} {w w' : World} {call : CreateCall}
    {p : PoolStruct} (hr : call.InRange B) (hcreate : call.run B env w = (some p, w'))
    {es : List Client.Event} {c : Client} (hrun : (Client.lts B).Run ⟨⟨w', p⟩, []⟩ es c)
    {env' : Env} {s' : State} (h : memoryPoolAlloc B env' (some c.pool) = (0, some s')) :
    (s'.pool = c.pool.pool ∧ s'.mem = c.pool.mem ∧ s'.reports = c.pool.reports ∧
      s'.heap.ledger.live = c.pool.heap.ledger.live ∧
      s'.heap.ledger.invalid = c.pool.heap.ledger.invalid) ∧
    (∀ calls, ∃ es' d d', Lts.script (Client.exec B) c calls = some (es', d) ∧
      Lts.script (Client.exec B) ⟨s', c.held⟩ calls = some (es', d') ∧ d.Alike d' ∧
      (memoryPoolDestroy d.pool.toWorld (some d.pool.pool)).heap.Alike
        (memoryPoolDestroy d'.pool.toWorld (some d'.pool.pool)).heap) ∧
    (B.threadSafety ≠ .lockfree → 2 ≤ s'.pool.growFactor →
      ∀ add backing addr spurious, growthCount B s'.pool = some add →
      ∀ h1 : s'.heap.Admissible B
        ⟨.backing, backing, B.mul add (slotStride B s'.pool.blockSize)⟩ B.poolAlignment,
      (s'.heap.obtain _ h1.fresh).Admissible B ⟨.chunkNode, addr, B.sizeofChunk⟩ B.ptrBytes →
      (memoryPoolAlloc B ⟨some backing, some addr, spurious⟩ (some s')).1 = backing ∧
        backing ≠ 0) := by
  have C := CreateCall.created hr hcreate
  have L := (Client.run_layout hrun C.inv.layout).1
  have hm : c.pool.pool.mutex = false :=
    hrun.invariant (I := fun d => d.pool.pool.mutex = false)
      (fun _ _ _ hd hstep => Client.Step.unlocked hstep hd) C.inv.unlocked
  obtain ⟨h0, heap, hsame, rfl⟩ := memoryPoolAlloc_failed L hm h
  refine ⟨⟨rfl, rfl, rfl, hsame.1, hsame.2⟩, ?_, ?_⟩
  · intro calls
    have a : c.Alike ⟨{ c.pool with heap := heap }, c.held⟩ := ⟨⟨heap, hsame.alike, rfl⟩, rfl⟩
    obtain ⟨es', d, d', h1, h2, ad⟩ := Client.run_alike (B := B) calls a
    exact ⟨es', d, d', h1, h2, ad, memoryPoolDestroy_alike B ad.1⟩
  · intro hts hf add backing addr spurious hadd h1 h2
    have h0' : ({ c.pool with heap := heap } : State).pool.head.ptr = 0 := h0
    exact ⟨memoryPoolAlloc_grows hts h0' hf hadd h1 h2, h1.nonnull⟩

/-- The descriptor of the new chunk cannot be had; the second try has both. -/
theorem failed_alloc_noop_x64 :
    let B := Build.x64 true .mutex
    let c : Client := ⟨(popHead B firstEnv (firstClient B).pool).2, [0x1000]⟩
    let s' := (popHead B ⟨some 0x2000, none, 0⟩ c.pool).2
    memoryPoolAlloc B ⟨some 0x2000, none, 0⟩ (some c.pool) = (0, some s') ∧
      s'.pool = c.pool.pool ∧ (memoryPoolAlloc B secondEnv (some s')).1 = 0x2000 := by
  have hrun : (Client.lts (Build.x64 true .mutex)).Run (firstClient (Build.x64 true .mutex))
      [.alloc firstEnv 0x1000 none] ⟨(popHead (Build.x64 true .mutex) firstEnv
        (firstClient (Build.x64 true .mutex)).pool).2, [0x1000]⟩ :=
    .single (.alloc (Prod.ext (by decide +kernel) rfl))
  have hfail : memoryPoolAlloc (Build.x64 true .mutex) ⟨some 0x2000, none, 0⟩
      (some (popHead (Build.x64 true .mutex) firstEnv
        (firstClient (Build.x64 true .mutex)).pool).2) = (0, some _) :=
    Prod.ext (by decide +kernel) rfl
  obtain ⟨⟨h1, -⟩, -, h2⟩ := failed_alloc_noop (by decide)
    (firstCall_run true .mutex (by decide)) hrun hfail
  exact ⟨hfail, h1, (h2 (by decide) (by decide +kernel) 1 0x2000 0x200 0 (by decide +kernel)
    (by decide +kernel) (by decide +kernel)).1⟩

end MemoryPool
