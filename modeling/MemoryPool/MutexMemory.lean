import MemoryPool.MutexList

/-!
# MemoryPool.MutexMemory

What the threads of the `MUTEX` build see of one another in memory, as long as they free what they
hold.

* `Kept.held_step`: a byte of a held block changes where its holder writes it and nowhere else,
  neither by the calls of other threads, growths included, nor by their writes.
* `Kept.reports_step`: the hardening hooks find every slot in order, so nothing is reported.
-/

namespace MemoryPool

namespace Mutex

open ByteMem LinkedList

/-- What a byte is after an event, if only `t` writes it. -/
def Event.store {τ : Type*} [DecidableEq τ] (t : τ) (addr : Nat) (value : UInt8) :
    Event τ → UInt8
  | .write u x byte => if u = t ∧ x = addr then byte else value
  | _ => value

def Event.frees {τ : Type*} [DecidableEq τ] (t : τ) (block : Nat) : Event τ → Bool
  | .free u b => decide (u = t ∧ b = block)
  | _ => false

section Memory

variable {τ : Type*} {B : Build} {t : τ} {answer : Option Nat} {m m' : Machine τ} {o : Outcome τ}
  {others : List (Nat × Region)} {free : List Nat} {block addr : Nat}

/-- Two threads do not hold the same block. -/
theorem Listed.held_exclusive (I : Listed B m free) {u : τ} (ht : block ∈ (m.threads t).held)
    (hu : block ∈ (m.threads u).held) : u = t :=
  I.shares.exclusive u t block (List.mem_append_right _ hu) (List.mem_append_right _ ht)

theorem Listed.link_aligned (I : Listed B m free) (L : Layout B m.shared.toState others)
    (hno : ∀ u backing, (m.threads u).pc ≠ .seedHead backing) (hhead : free.head? = some block) :
    revealNext B m.shared.mem block = 0 ∨ B.poolAlignment ∣ revealNext B m.shared.mem block := by
  obtain ⟨rest, rfl⟩ := List.head?_eq_some_iff.mp hhead
  obtain ⟨-, -, hc⟩ := Chain.cons_iff.mp (I.chain hno)
  by_cases h0 : revealNext B m.shared.mem block = 0
  · exact Or.inl h0
  · obtain ⟨tail, ht, -⟩ := hc.eq_cons h0
    right
    exact (L.slot_spec (I.shares.free_mem (by rw [ht]; simp))).2.1

theorem Kept.reports_instr (K : Kept B others m)
    (h : instr B t answer m.shared (m.threads t).pc = some o) :
    o.shared.reports = m.shared.reports := by
  obtain ⟨hI, ⟨pend, L, -⟩, -, free, I⟩ := K
  have hP := I.threads t
  cases hpc : (m.threads t).pc <;> rw [hpc] at h hP
  case loadLink block =>
    have hno : ∀ u backing, (m.threads u).pc ≠ .seedHead backing :=
      no_seed hI (t := t) (by rw [hpc]; rfl) (by simp [hpc])
    have hread := readNext_eq (w := m.shared.toWorld) (I.link_aligned L hno hP)
    simp only [instr, hread] at h
    cases h
    rfl
  case onAlloc block =>
    obtain ⟨hg, hp⟩ := hP.2 hP.1
    simp only [instr, onAlloc_freed (w := m.shared.toWorld) hg hp] at h
    cases h
    rfl
  case onFree block =>
    simp only [instr, onFree_allocated (w := m.shared.toWorld) (hP.2 hP.1)] at h
    cases h
    rfl
  case newBacking add =>
    simp only [instr] at h
    rcases World.operatorNew_cases B m.shared.toWorld .backing
      (B.mul add (slotStride B m.shared.pool.blockSize)) B.poolAlignment answer with
      he | ⟨base, ha, he⟩
    · rw [he] at h
      cases h
      rfl
    · rw [he] at h
      cases h
      rfl
  case newChunk add backing =>
    simp only [instr] at h
    rcases World.operatorNew_cases B m.shared.toWorld .chunkNode B.sizeofChunk B.ptrBytes answer
      with he | ⟨base, ha, he⟩
    · rw [he] at h
      cases h
      rfl
    · rw [he] at h
      cases h
      rfl
  all_goals
    simp only [instr] at h
    (repeat' split at h) <;> cases h <;> rfl

variable [DecidableEq τ]

theorem Step.blockSize {e : Event τ} (h : Step B m e m') :
    m'.shared.pool.blockSize = m.shared.pool.blockSize := by
  cases h with
  | alloc _ => rfl
  | free _ _ => rfl
  | write _ _ _ => rfl
  | instr h => exact (instr_fields h).1

theorem Kept.reports_step {e : Event τ} (K : Kept B others m)
    (h : ((lts B τ).restrict (Honest B)).step m e m') : m'.shared.reports = m.shared.reports := by
  obtain ⟨-, hs⟩ := h
  cases hs with
  | alloc _ => rfl
  | free _ _ => rfl
  | write _ _ _ => rfl
  | instr h => exact K.reports_instr h

/-- A block stays with the thread that does not free it, and its bytes are the thread's. -/
theorem Kept.held_step {e : Event τ} (K : Kept B others m)
    (h : ((lts B τ).restrict (Honest B)).step m e m') (hheld : block ∈ (m.threads t).held)
    (hfree : e.frees t block = false) (hl : block ≤ addr)
    (hu : addr < block + m.shared.pool.blockSize) :
    block ∈ (m'.threads t).held ∧ m'.shared.pool.blockSize = m.shared.pool.blockSize ∧
      m'.shared.mem addr = Event.store t addr (m.shared.mem addr) e := by
  obtain ⟨-, hs⟩ := h
  obtain ⟨hI, P, -, free, I⟩ := K
  cases hs with
  | @alloc u _ =>
    refine ⟨?_, rfl, rfl⟩
    by_cases ht : t = u
    · subst ht
      simpa [Machine.move] using hheld
    · simpa [Machine.move, ht] using hheld
  | @free u b _ _ =>
    refine ⟨?_, rfl, rfl⟩
    by_cases ht : t = u
    · subst ht
      have hne : block ≠ b := by
        rintro rfl
        simp [Event.frees] at hfree
      simpa [Machine.move] using (List.mem_erase_of_ne hne).mpr hheld
    · simpa [Machine.move, ht] using hheld
  | @write u b x byte hb hlb hub =>
    refine ⟨hheld, rfl, ?_⟩
    show set m.shared.mem x byte addr = if u = t ∧ x = addr then byte else m.shared.mem addr
    by_cases hx : x = addr
    · subst hx
      -- the byte lies in one slot only
      obtain rfl : b = block := by
        obtain ⟨pend, L, -⟩ := P
        have hsize := L.dims.block
        by_contra hne
        have := L.slots_apart (I.held_slot hb) (I.held_slot hheld) hne
        omega
      rw [if_pos ⟨I.held_exclusive hheld hb, rfl⟩]
      exact if_pos rfl
    · rw [if_neg (fun h => hx h.2), set_other (Ne.symm hx)]
  | @instr u answer o h =>
    have hframe := I.frame hI P h block (I.held_slot hheld) (I.held_apart hheld)
    obtain ⟨pend, L, -⟩ := P
    have hsize := L.dims.block
    refine ⟨?_, (instr_fields h).1, hframe addr hl (by omega)⟩
    by_cases ht : t = u
    · subst ht
      simp only [Machine.move, Function.update_self, Thread.after_held]
      exact List.mem_append_right _ hheld
    · simpa [Machine.move, ht] using hheld

theorem Kept.held_run {es : List (Event τ)} (K : Kept B others m)
    (h : ((lts B τ).restrict (Honest B)).Run m es m') (hheld : block ∈ (m.threads t).held)
    (hfree : ∀ e ∈ es, e.frees t block = false) (hl : block ≤ addr)
    (hu : addr < block + m.shared.pool.blockSize) :
    block ∈ (m'.threads t).held ∧ m'.shared.pool.blockSize = m.shared.pool.blockSize ∧
      m'.shared.mem addr = es.foldl (Event.store t addr) (m.shared.mem addr) := by
  induction h with
  | nil => exact ⟨hheld, rfl, rfl⟩
  | @snoc m₁ m₂ es e hrun hs ih =>
    obtain ⟨hheld₁, hsize, hmem⟩ := ih fun e he => hfree e (List.mem_append_left _ he)
    obtain ⟨hheld₂, hsize₂, hmem₂⟩ := (K.of_run hrun).held_step hs hheld₁
      (hfree e (by simp)) hl (by rwa [hsize])
    refine ⟨hheld₂, hsize₂.trans hsize, ?_⟩
    rw [hmem₂, hmem, List.foldl_append]
    rfl

end Memory

/-! ## Schedules to run examples on -/

/-- A thread writes into the block that it got from the growth, while the other goes on with its
free. -/
def writeWhileFreeing : List (Event Bool) :=
  .write true 0x3004 7 :: go false (List.replicate 3 none) ++ .write true 0x3005 9 ::
    go false (List.replicate 2 none)

theorem writing_run : ∃ m m', ((lts (Build.x64 false .mutex) Bool).restrict
    (Honest (Build.x64 false .mutex))).Run growingMachine overtakenFree m ∧
      ((lts (Build.x64 false .mutex) Bool).restrict
        (Honest (Build.x64 false .mutex))).Run m writeWhileFreeing m' ∧
      (m.threads true).held = [0x3000] := by
  have h : ((Lts.script (execHonest (Build.x64 false .mutex)) growingMachine overtakenFree).bind
      fun r => (Lts.script (execHonest (Build.x64 false .mutex)) r.2 writeWhileFreeing).map
        fun q => (r.1, (r.2.threads true).held, q.1)) =
      some (overtakenFree, [0x3000], writeWhileFreeing) := by decide +kernel
  obtain ⟨⟨es, m⟩, hr, h⟩ := Option.bind_eq_some_iff.mp h
  obtain ⟨⟨es', m'⟩, hr', hx⟩ := Option.map_eq_some_iff.mp h
  simp only [Prod.mk.injEq] at hx
  obtain ⟨rfl, hheld, rfl⟩ := hx
  obtain ⟨m₁, hrun, rfl⟩ := Lts.script_run execHonest_step id (by rw [hr]; rfl)
  obtain ⟨m₂, hrun', rfl⟩ := Lts.script_run execHonest_step id (by rw [hr']; rfl)
  exact ⟨_, _, hrun, hrun', hheld⟩

/-- A block goes from one thread to the other and back, hardened. -/
def handOver : List (Event Bool) :=
  .alloc false :: go false (List.replicate 7 none) ++ .write false 0x1004 7 ::
  .free false 0x1000 :: .alloc true :: go false (List.replicate 7 none) ++
    go true (List.replicate 7 none)

theorem handOver_run : ∃ m, ((lts (Build.x64 true .mutex) Bool).restrict
    (Honest (Build.x64 true .mutex))).Run
      (.start (firstClient (Build.x64 true .mutex)).pool) handOver m ∧
      (m.threads true).held = [0x1000] := by
  have h : (Lts.script (execHonest (Build.x64 true .mutex))
      (.start (firstClient (Build.x64 true .mutex)).pool) handOver).map
      (fun r => (r.1, (r.2.threads true).held)) = some (handOver, [0x1000]) := by decide +kernel
  exact Lts.script_run execHonest_step (fun m : Machine Bool => (m.threads true).held) h

end Mutex

section Theorems

open Mutex

variable {τ : Type*} [DecidableEq τ] {B : Build} {env : Env} {w w' : World} {call : CreateCall}
  {p : PoolStruct} {es : List (Event τ)} {m : Machine τ}

/-- MUTEX build, any number of threads that free what they hold, any interleaving. From any state
on, as long as a thread does not free a block that it holds, the block stays its own, and each byte
of the block is what the thread has last written there. -/
theorem mutex_held_bytes (hr : call.InRange B) (hcreate : call.run B env w = (some p, w'))
    (hrun : ((lts B τ).restrict (Honest B)).Run (.start ⟨w', p⟩) es m) :
    ∀ t, ∀ block ∈ (m.threads t).held, ∀ es' m',
      ((lts B τ).restrict (Honest B)).Run m es' m' → (∀ e ∈ es', e.frees t block = false) →
        block ∈ (m'.threads t).held ∧ (∀ u, block ∈ (m'.threads u).held → u = t) ∧
        ∀ addr, block ≤ addr → addr < block + p.blockSize →
          m'.shared.mem addr = es'.foldl (Event.store t addr) (m.shared.mem addr) := by
  have C := CreateCall.created hr hcreate
  have K₀ : Kept B w.heap.ledger.live (Machine.start ⟨w', p⟩ : Machine τ) :=
    .start C.overflow C.inv
  have hsize : m.shared.pool.blockSize = p.blockSize := by
    refine hrun.invariant (I := fun d => d.shared.pool.blockSize = p.blockSize) ?_ rfl
    rintro d e d' hd ⟨-, hs⟩
    exact (Step.blockSize hs).trans hd
  have K := K₀.of_run hrun
  intro t block hheld es' m' hrun' hfree
  have hpos : 0 < m.shared.pool.blockSize := by
    obtain ⟨-, ⟨pend, L, -⟩, -, -⟩ := id K
    exact L.block_pos
  obtain ⟨hheld', -, -⟩ := K.held_run hrun' hheld hfree (le_refl block) (by omega)
  refine ⟨hheld', fun u hu => ?_, fun addr hl hu => ?_⟩
  · obtain ⟨-, -, -, free, I⟩ := K.of_run hrun'
    exact I.held_exclusive hheld' hu
  · exact (K.held_run hrun' hheld hfree hl (by rwa [hsize])).2.2

theorem mutex_held_bytes_x64 : ∃ m m' : Machine Bool,
    ((lts (Build.x64 false .mutex) Bool).restrict (Honest (Build.x64 false .mutex))).Run m
      writeWhileFreeing m' ∧
    0x3000 ∈ (m'.threads true).held ∧ m'.shared.mem 0x3004 = 7 ∧ m'.shared.mem 0x3005 = 9 ∧
      m'.shared.mem 0x3006 = m.shared.mem 0x3006 := by
  obtain ⟨m, m', hrun, hrun', hheld⟩ := writing_run
  have hcreate : firstCall.run (Build.x64 false .mutex) firstEnv World.start =
      (some firstPool, (firstClient (Build.x64 false .mutex)).pool.toWorld) :=
    firstCall_run false .mutex (by decide)
  obtain ⟨h1, -, h2⟩ := mutex_held_bytes (by decide) hcreate hrun true 0x3000 (by simp [hheld])
    writeWhileFreeing m' hrun' (by decide)
  exact ⟨m, m', hrun', h1, h2 0x3004 (by decide) (by decide), h2 0x3005 (by decide) (by decide),
    h2 0x3006 (by decide) (by decide)⟩

/-- MUTEX build, hardened or not, any number of threads that free what they hold and write into what
they hold, any interleaving: nothing is ever reported, every block a thread holds has its guard
word intact, and every free one is marked as freed and poisoned. -/
theorem mutex_no_false_positives (hr : call.InRange B)
    (hcreate : call.run B env w = (some p, w'))
    (hrun : ((lts B τ).restrict (Honest B)).Run (.start ⟨w', p⟩) es m) :
    m.shared.reports = w.reports ∧
      (∀ t, ∀ block ∈ (m.threads t).held, StampedHeld B m.shared.mem block p.blockSize) ∧
      ∃ free, Shares (m.shared.pool.slots B) free (m.owned B) ∧
        ∀ block ∈ free, StampedFree B m.shared.mem block p.blockSize := by
  have C := CreateCall.created hr hcreate
  have K₀ : Kept B w.heap.ledger.live (Machine.start ⟨w', p⟩ : Machine τ) :=
    .start C.overflow C.inv
  obtain ⟨K, hreports, hsize⟩ : Kept B w.heap.ledger.live m ∧ m.shared.reports = w'.reports ∧
      m.shared.pool.blockSize = p.blockSize := by
    refine hrun.invariant (I := fun d => Kept B w.heap.ledger.live d ∧
      d.shared.reports = w'.reports ∧ d.shared.pool.blockSize = p.blockSize) ?_ ⟨K₀, rfl, rfl⟩
    rintro d e d' ⟨hd, hrep, hsize⟩ hs
    refine ⟨hd.of_run (.single hs), (hd.reports_step hs).trans hrep, ?_⟩
    exact (Step.blockSize hs.2).trans hsize
  obtain ⟨-, -, -, free, I⟩ := K
  rw [← hsize]
  exact ⟨hreports.trans C.reports, I.vended, free, I.shares, I.freed⟩

theorem mutex_no_false_positives_x64 : ∃ m : Machine Bool, (m.threads true).held = [0x1000] ∧
    m.shared.reports = [] ∧ StampedHeld (Build.x64 true .mutex) m.shared.mem 0x1000 16 := by
  obtain ⟨m, hrun, hheld⟩ := handOver_run
  have hcreate : firstCall.run (Build.x64 true .mutex) firstEnv World.start =
      (some firstPool, (firstClient (Build.x64 true .mutex)).pool.toWorld) :=
    firstCall_run true .mutex (by decide)
  obtain ⟨h1, h2, -⟩ := mutex_no_false_positives (by decide) hcreate hrun
  exact ⟨m, hheld, h1, h2 true 0x1000 (by simp [hheld])⟩

end Theorems

end MemoryPool
