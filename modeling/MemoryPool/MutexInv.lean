import MemoryPool.Lib.Chain
import MemoryPool.Mutex

/-!
# MemoryPool.MutexInv

What holds of the `MUTEX` build under every interleaving: the thread in the critical section is the
one that holds the mutex, the cells spell out the list of chunks, and a descriptor under
construction is none of them.

* `instr_owner`, `instr_outside`, `instr_pool`: what an instruction can do, said once.
* `instr_inv`: what its own thread knows afterwards; `PcInv.same`, `PcInv.outside`: what the others
  still know.
* `Inv.step`: every step keeps the invariant.
-/

namespace MemoryPool

namespace Mutex

open LinkedList

section Invariant

variable {τ : Type*}

/-- The descriptors linked so far, as cells and as heap regions. -/
structure Linked (B : Build) (s : Shared τ) : Prop where
  list : Chain (fun a => (s.nodes a).next) 0 s.overflow (s.pool.overflow.map Chunk.addr)
  cells : ∀ c ∈ s.pool.overflow, (s.nodes c.addr).backing = c.backing ∧
    (s.nodes c.addr).blockCount = c.blockCount
  live : ∀ c ∈ s.pool.overflow,
    ∃ e ∈ s.heap.ledger.live, e.2 = ⟨.chunkNode, c.addr, B.sizeofChunk⟩

structure Unlinked (B : Build) (heap : Heap) (chunks : List Chunk) (chunk : Nat) : Prop where
  nonnull : chunk ≠ 0
  fresh : ∀ c ∈ chunks, c.addr ≠ chunk
  live : ∃ e ∈ heap.ledger.live, e.2 = ⟨.chunkNode, chunk, B.sizeofChunk⟩

def sumOf (B : Build) (s : Shared τ) (chunks : List Chunk) : Nat :=
  chunks.foldl (fun total chunk => B.add total chunk.blockCount) s.pool.blockCount

/-- What a thread knows at each of its instructions. -/
def PcInv (B : Build) (s : Shared τ) : Pc → Prop
  | .sumCount total chunk => ∃ done rest, s.pool.overflow = done ++ rest ∧
      Chain (fun a => (s.nodes a).next) 0 chunk (rest.map Chunk.addr) ∧ total = sumOf B s done
  | .sumNext total chunk => ∃ done rest, s.pool.overflow = done ++ rest ∧
      Chain (fun a => (s.nodes a).next) 0 (s.nodes chunk).next (rest.map Chunk.addr) ∧
      total = sumOf B s done
  | .newBacking add | .newChunk add _ => growthCount B s.pool = some add
  | .initBacking add _ chunk | .initCount add _ chunk | .loadOverflow add _ chunk =>
    growthCount B s.pool = some add ∧ Unlinked B s.heap s.pool.overflow chunk
  | .initNext add _ chunk next =>
    growthCount B s.pool = some add ∧ Unlinked B s.heap s.pool.overflow chunk ∧ next = s.overflow
  | .initSlot add _ chunk _ =>
    growthCount B s.pool = some add ∧ Unlinked B s.heap s.pool.overflow chunk ∧
      (s.nodes chunk).next = s.overflow
  | .linkChunk _ chunk =>
    growthCount B s.pool ≠ none ∧ Unlinked B s.heap s.pool.overflow chunk ∧
      (s.nodes chunk).next = s.overflow
  | .walkBacking _ chunk => chunk = 0 ∨ ∃ c ∈ s.pool.overflow, c.addr = chunk
  | .walkCount _ chunk _ | .walkNext _ chunk => ∃ c ∈ s.pool.overflow, c.addr = chunk
  | _ => True

/-- The mutex is held by the thread in the critical section, and by no other. -/
structure Inv (B : Build) (m : Machine τ) : Prop where
  exclusive : ∀ t, (m.threads t).pc.critical = true ↔ m.shared.owner = some t
  linked : Linked B m.shared
  threads : ∀ t, PcInv B m.shared (m.threads t).pc

variable {B : Build} {t : τ} {answer : Option Nat} {s s' : Shared τ} {pc : Pc} {o : Outcome τ}

theorem Linked.same (L : Linked B s) (hp : s'.pool.overflow = s.pool.overflow)
    (ho : s'.overflow = s.overflow) (hn : s'.nodes = s.nodes) (hh : s'.heap = s.heap) :
    Linked B s' := by
  refine ⟨?_, ?_, ?_⟩
  · rw [hp, ho, hn]; exact L.list
  · rw [hp, hn]; exact L.cells
  · rw [hp, hh]; exact L.live

theorem cell_linked {f : Nat → Nat} {a : Nat} {chunks : List Chunk}
    (h : Chain f 0 a (chunks.map Chunk.addr)) : a = 0 ∨ ∃ c ∈ chunks, c.addr = a := by
  by_cases h0 : a = 0
  · exact Or.inl h0
  · obtain ⟨rest, hsplit, -⟩ := h.eq_cons h0
    right
    exact List.mem_map.mp (hsplit ▸ List.mem_cons_self ..)

theorem Linked.setNode (L : Linked B s) {chunk : Nat}
    (U : Unlinked B s.heap s.pool.overflow chunk) (node : Node) :
    Linked B (s.setNode chunk node) := by
  have hne : ∀ c ∈ s.pool.overflow, (s.setNode chunk node).nodes c.addr = s.nodes c.addr := by
    intro c hc
    exact if_neg (U.fresh c hc)
  refine ⟨L.list.congr ?_, fun c hc => ?_, L.live⟩
  · intro a ha
    obtain ⟨c, hc, rfl⟩ := List.mem_map.mp ha
    rw [hne c hc]
  · rw [hne c hc]
    exact L.cells c hc

theorem Linked.link (L : Linked B s) {chunk : Nat} (U : Unlinked B s.heap s.pool.overflow chunk)
    (hnext : (s.nodes chunk).next = s.overflow) : Linked B (s.link chunk) := by
  refine ⟨?_, ?_, ?_⟩
  · exact L.list.push U.nonnull hnext fun _ _ => rfl
  · intro c hc
    rcases List.mem_cons.mp hc with rfl | hc
    · exact ⟨rfl, rfl⟩
    · exact L.cells c hc
  · intro c hc
    rcases List.mem_cons.mp hc with rfl | hc
    · exact U.live
    · exact L.live c hc

/-! ## What an instruction can do -/

theorem instr_owner (h : instr B t answer s pc = some o) :
    (o.pc.critical = pc.critical ∧ o.shared.owner = s.owner) ∨
      (pc.critical = false ∧ o.pc.critical = true ∧ s.owner = none ∧ o.shared.owner = some t) ∨
      (pc.critical = true ∧ o.pc.critical = false ∧ o.shared.owner = none) := by
  cases pc <;> simp only [instr] at h <;> (repeat' split at h) <;> cases h <;>
    simp [Pc.critical, Shared.setOwner, Shared.setWorld, Shared.setNode, Shared.setMem,
      Shared.setHead, Shared.link, noGrowth, *]

theorem instr_outside (h : instr B t answer s pc = some o) (hc : pc.critical = false) :
    o.shared = s.setOwner o.shared.owner := by
  cases pc <;> simp only [Pc.critical, Bool.true_eq_false] at hc <;> simp only [instr] at h <;>
    (repeat' split at h) <;> cases h <;> rfl

theorem write_critical {l : Loc} (h : instr B t answer s pc = some o)
    (hw : (.write, l) ∈ o.accesses) : pc.critical = true := by
  cases pc <;> simp only [Pc.critical] <;> simp only [instr] at h <;>
    (repeat' split at h) <;> cases h <;> simp at hw

/-- The chunk list changes where a chunk is linked and nowhere else. -/
theorem instr_pool (h : instr B t answer s pc = some o) :
    (∃ head growCount, o.shared.pool = { s.pool with head := head, growCount := growCount }) ∨
      ∃ backing chunk, pc = .linkChunk backing chunk ∧ o.shared = s.link chunk := by
  cases pc with
  | linkChunk backing chunk => cases h; exact Or.inr ⟨_, _, rfl, rfl⟩
  | _ =>
    left
    simp only [instr] at h
    (repeat' split at h) <;> cases h <;> exact ⟨_, _, rfl⟩

theorem instr_walkOverflow {block : Nat} (h : instr B t answer s pc = some o)
    (hpc : o.pc = .walkOverflow block) :
    pc = .walkFirst block ∧ blockInChunk B s.pool s.pool.backing s.pool.blockCount block = false ∧
      o.shared.pool = s.pool := by
  cases pc with
  | walkFirst b =>
    cases h
    simp only [] at hpc
    split at hpc
    · cases hpc
    · rename_i hno
      cases hpc
      exact ⟨rfl, Bool.eq_false_iff.mpr hno, rfl⟩
  | _ =>
    simp only [instr] at h
    (repeat' split at h) <;> cases h <;> simp only [noGrowth] at hpc <;> cases hpc

theorem instr_chunks (h : instr B t answer s pc = some o) :
    ∀ c ∈ s.pool.overflow, c ∈ o.shared.pool.overflow := by
  intro c hc
  rcases instr_pool h with ⟨head, growCount, hp⟩ | ⟨backing, chunk, -, hs⟩
  · rw [hp]; exact hc
  · rw [hs]; exact List.mem_cons_of_mem _ hc

/-- Every instruction keeps the list in order, and what its own thread knows. -/
theorem instr_inv (L : Linked B s) (hP : PcInv B s pc) (h : instr B t answer s pc = some o) :
    Linked B o.shared ∧ PcInv B o.shared o.pc := by
  cases pc with
  | sumFirst =>
    cases h
    exact ⟨L, [], s.pool.overflow, rfl, L.list, rfl⟩
  | sumCount total chunk =>
    obtain ⟨done, rest, hsplit, hchain, rfl⟩ := hP
    simp only [instr] at h
    split at h
    · rename_i h0
      rw [h0] at hchain
      have hrest : rest = [] := List.map_eq_nil_iff.mp (Chain.nil_iff.mp hchain)
      have htotal : sumOf B s done = totalCount B s.pool := by
        rw [hrest, List.append_nil] at hsplit
        rw [← hsplit]
        rfl
      rw [htotal, addFor_total] at h
      split at h
      · cases h; exact ⟨L, trivial⟩
      · rename_i add hadd
        cases h
        exact ⟨L, hadd⟩
    · rename_i h0
      cases h
      obtain ⟨cells, hcells, hnext⟩ := hchain.eq_cons h0
      cases rest with
      | nil => cases hcells
      | cons c rest =>
        obtain ⟨rfl, rfl⟩ := List.cons.inj hcells
        refine ⟨L, done ++ [c], rest, by simp [hsplit], hnext, ?_⟩
        have hcount := (L.cells c (by simp [hsplit])).2
        simp [sumOf, hcount]
  | sumNext total chunk => cases h; exact ⟨L, hP⟩
  | newBacking add =>
    simp only [instr] at h
    rcases World.operatorNew_cases B s.toWorld .backing (B.mul add (slotStride B s.pool.blockSize))
      B.poolAlignment answer with he | ⟨base, ha, he⟩
    · rw [he] at h
      cases h
      exact ⟨L, trivial⟩
    · rw [he] at h
      cases h
      refine ⟨⟨L.list, L.cells, fun c hc => ?_⟩, hP⟩
      obtain ⟨e, hm, heq⟩ := L.live c hc
      exact ⟨e, List.mem_cons_of_mem _ hm, heq⟩
  | newChunk add backing =>
    simp only [instr] at h
    rcases World.operatorNew_cases B s.toWorld .chunkNode B.sizeofChunk B.ptrBytes answer with
      he | ⟨base, ha, he⟩
    · rw [he] at h
      cases h
      refine ⟨⟨L.list, L.cells, fun c hc => ?_⟩, trivial⟩
      obtain ⟨e, hm, heq⟩ := L.live c hc
      exact ⟨e, Ledger.mem_release hm (by simp [heq]), heq⟩
    · rw [he] at h
      cases h
      refine ⟨⟨L.list, L.cells, fun c hc => ?_⟩, hP, ha.nonnull, fun c hc => ?_, ?_⟩
      · obtain ⟨e, hm, heq⟩ := L.live c hc
        exact ⟨e, List.mem_cons_of_mem _ hm, heq⟩
      · obtain ⟨e, hm, heq⟩ := L.live c hc
        have hap := (ha.fresh e hm).1
        rw [heq] at hap
        exact hap.symm
      · exact ⟨_, List.mem_cons_self .., rfl⟩
  | initBacking add backing chunk => cases h; exact ⟨L.setNode hP.2 _, hP.1, hP.2⟩
  | initCount add backing chunk => cases h; exact ⟨L.setNode hP.2 _, hP.1, hP.2⟩
  | loadOverflow add backing chunk => cases h; exact ⟨L, hP.1, hP.2, rfl⟩
  | initNext add backing chunk next =>
    cases h
    refine ⟨L.setNode hP.2.1 _, hP.1, hP.2.1, ?_⟩
    simp [Shared.setNode, hP.2.2]
  | initSlot add backing chunk i =>
    obtain ⟨hadd, hU, hnext⟩ := hP
    simp only [instr] at h
    split at h
    · cases h
      exact ⟨L.same rfl rfl rfl rfl, hadd, hU, hnext⟩
    · cases h
      refine ⟨L.same rfl rfl rfl rfl, ?_, hU, hnext⟩
      intro hnone
      exact by cases hnone.symm.trans hadd
  | linkChunk backing chunk =>
    cases h
    exact ⟨L.link hP.2.1 hP.2.2, trivial⟩
  | walkOverflow block => cases h; exact ⟨L, cell_linked L.list⟩
  | walkBacking block chunk =>
    simp only [instr] at h
    split at h
    · cases h; exact ⟨L, trivial⟩
    · rename_i hne
      cases h
      exact ⟨L, hP.resolve_left hne⟩
  | walkCount block chunk backing =>
    cases h
    refine ⟨L, ?_⟩
    split
    · trivial
    · exact hP
  | walkNext block chunk =>
    cases h
    refine ⟨L, ?_⟩
    obtain ⟨c, hc, rfl⟩ := hP
    rcases L.list.next_mem (List.mem_map.mpr ⟨c, hc, rfl⟩) with h0 | hm
    · exact Or.inl h0
    · obtain ⟨d, hd, heq⟩ := List.mem_map.mp hm
      exact Or.inr ⟨d, hd, heq⟩
  | loadLink block => cases h; exact ⟨L.same rfl rfl rfl (readNext_heap B s.toWorld block), trivial⟩
  | onAlloc block => cases h; exact ⟨L.same rfl rfl rfl (onAlloc_heap B s.toWorld block _), trivial⟩
  | onFree block =>
    have hheap := onFree_heap B s.toWorld block s.pool.blockSize
    simp only [instr, Option.some.injEq] at h
    subst h
    generalize MemoryPool.onFree B s.toWorld block s.pool.blockSize = result at hheap ⊢
    refine ⟨L.same rfl rfl rfl hheap, ?_⟩
    dsimp only
    split <;> trivial
  | _ =>
    simp only [instr] at h
    (repeat' split at h) <;> cases h <;> refine ⟨L.same rfl rfl rfl rfl, ?_⟩ <;> trivial

/-! ## One thread while another moves -/

theorem PcInv.same (hp : s'.pool = s.pool) (ho : s'.overflow = s.overflow)
    (hn : s'.nodes = s.nodes) (hh : s'.heap = s.heap) (hP : PcInv B s pc) : PcInv B s' pc := by
  cases pc <;> simp only [PcInv, sumOf, hp, ho, hn, hh] at hP ⊢ <;> exact hP

/-- Outside the critical section a thread only knows of descriptors that they are linked. -/
theorem PcInv.outside (hc : pc.critical = false)
    (hmono : ∀ c ∈ s.pool.overflow, c ∈ s'.pool.overflow) (hP : PcInv B s pc) : PcInv B s' pc := by
  have hlinked : ∀ chunk, (∃ c ∈ s.pool.overflow, c.addr = chunk) →
      ∃ c ∈ s'.pool.overflow, c.addr = chunk := by
    rintro chunk ⟨c, hm, rfl⟩
    exact ⟨c, hmono c hm, rfl⟩
  cases pc with
  | walkBacking block chunk => exact hP.imp id (hlinked chunk)
  | walkCount block chunk backing => exact hlinked chunk hP
  | walkNext block chunk => exact hlinked chunk hP
  | idle => trivial
  | lock => trivial
  | walkFirst block => trivial
  | walkOverflow block => trivial
  | lockPush block => trivial
  | _ => cases hc

variable {m m' : Machine τ}

theorem Inv.start {s : State} (h : s.pool.overflow = []) : Inv B (Machine.start s : Machine τ) := by
  refine ⟨fun t => ?_, ⟨?_, ?_, ?_⟩, fun t => trivial⟩
  · simp [Machine.start, Pc.critical]
  · simpa [Machine.start, h] using Chain.nil
  · simp [Machine.start, h]
  · simp [Machine.start, h]

/-! ## The steps -/

variable [DecidableEq τ] {e : Event τ}

theorem Inv.quiet (I : Inv B m) {th : Thread} (hc : (m.threads t).pc.critical = false)
    (hc' : th.pc.critical = false) (hP : PcInv B m.shared th.pc) :
    Inv B (m.move t m.shared th) := by
  refine ⟨fun t' => ?_, I.linked, fun t' => ?_⟩
  · by_cases ht : t' = t
    · subst ht
      have h := I.exclusive t'
      rw [hc] at h
      simpa [Machine.move, hc'] using h
    · simpa [Machine.move, ht] using I.exclusive t'
  · by_cases ht : t' = t
    · subst ht; simpa [Machine.move] using hP
    · simpa [Machine.move, ht] using I.threads t'

theorem Inv.exclusive_instr (I : Inv B m) (h : instr B t answer m.shared (m.threads t).pc = some o)
    (t' : τ) : ((m.move t o.shared ((m.threads t).after o)).threads t').pc.critical = true ↔
      o.shared.owner = some t' := by
  have ht := I.exclusive t
  have ht' := I.exclusive t'
  by_cases htt : t' = t
  · subst htt
    have hpc : ((m.move t' o.shared ((m.threads t').after o)).threads t').pc = o.pc := by
      simp [Machine.move, Thread.after]
    rw [hpc]
    rcases instr_owner h with ⟨h1, h2⟩ | ⟨-, h2, -, h4⟩ | ⟨-, h2, h3⟩
    · rw [h1, h2]; exact ht
    · simp [h2, h4]
    · simp [h2, h3]
  · have hpc : ((m.move t o.shared ((m.threads t).after o)).threads t').pc =
        (m.threads t').pc := by
      simp [Machine.move, htt]
    rw [hpc]
    rcases instr_owner h with ⟨-, h2⟩ | ⟨-, -, h3, h4⟩ | ⟨h1, -, h3⟩
    · rw [h2]; exact ht'
    · rw [h3] at ht'
      simp [ht', h4, Ne.symm htt]
    · rw [ht.mp h1] at ht'
      simp [ht', h3, Ne.symm htt]

theorem Inv.step (I : Inv B m) (h : Step B m e m') : Inv B m' := by
  cases h with
  | @alloc t hidle => exact I.quiet (by rw [hidle]; rfl) rfl trivial
  | @free t block hidle _ => exact I.quiet (by rw [hidle]; rfl) rfl trivial
  | write _ _ _ =>
    exact ⟨I.exclusive, I.linked.same rfl rfl rfl rfl,
      fun t => (I.threads t).same rfl rfl rfl rfl⟩
  | @instr t answer o h =>
    obtain ⟨hL, hP⟩ := instr_inv I.linked (I.threads t) h
    refine ⟨I.exclusive_instr h, hL, fun t' => ?_⟩
    by_cases ht : t' = t
    · subst ht; simpa [Machine.move, Thread.after] using hP
    · simp only [Machine.move, Function.update_of_ne ht]
      cases hc : (m.threads t).pc.critical with
      | false =>
        rw [instr_outside h hc]
        exact (I.threads t').same rfl rfl rfl rfl
      | true =>
        -- the other thread is outside: the mutex has one owner
        have hc' : (m.threads t').pc.critical = false := by
          by_contra hcc
          have h1 := (I.exclusive t).mp hc
          rw [(I.exclusive t').mp (by simpa using hcc)] at h1
          exact ht (Option.some.inj h1)
        exact (I.threads t').outside hc' (instr_chunks h)

theorem Inv.along {es : List (Event τ)} (I : Inv B m) (h : (lts B τ).Run m es m') : Inv B m' :=
  h.invariant (fun _ _ _ hI hs => hI.step hs) I

theorem Inv.of_run {G : Machine τ → Event τ → Prop} {es : List (Event τ)} (I : Inv B m)
    (h : ((lts B τ).guard G).Run m es m') : Inv B m' := I.along h.of_guard

end Invariant

end Mutex

end MemoryPool
