import MemoryPool.Linearize

/-!
# MemoryPool.LockFreeHooks

The hardening hooks of a `LOCKFREE` build find every slot in good order, under every interleaving
of clients that free what they hold and write into what they hold: the guard of a popped slot is
`GUARD_FREED` and its payload is poison, the guard of a block passed to `push_head` is
`GUARD_ALLOCATED`, whatever a third thread reads of the slot meanwhile.
-/

namespace MemoryPool

namespace LockFree

open ByteMem

/-- What the next instruction of a thread, if it is one of the hooks' reads, will find. -/
def SlotInOrder (B : Build) (s : State) : Pc → Prop
  | .allocGuard block | .allocPoison block =>
    readGuard s.mem block s.pool.blockSize = guardFreed ∧
      Poisoned B s.mem block s.pool.blockSize
  | .freeGuard block => readGuard s.mem block s.pool.blockSize = guardAllocated
  | _ => True

theorem PcInv.slotInOrder {B : Build} {s : State} {current : Prop} {pc : Pc}
    (h : PcInv B s current pc) : SlotInOrder B s pc := by
  cases pc with
  | allocGuard block => exact h.2 h.1
  | allocPoison block => exact h.2 h.1
  | freeGuard block => exact h.2 h.1
  | _ => trivial

/-- One thread is about to run `on_alloc` on the first block, which the other had, wrote into and
freed; that one is about to run `on_free` on the second. -/
def hookSchedule : List (Action Bool) :=
  [.call true .pop, .go true false, .go true false,
    .call false .pop, .go false false, .go false false, .go false false, .go false false,
    .go false false, .go false false, .go false false,
    .call false .pop, .go false false, .go false false, .go false false, .go false false,
    .go false false, .go false false, .go false false,
    .write false 0x1000 0x100F 7,
    .call false (.push 0x1000), .go false false, .go false false, .go false false,
    .go false false, .go false false, .go false false,
    .go true false, .go true false, .go true true, .go true false, .go true false,
    .write false 0x1020 0x1020 9,
    .call false (.push 0x1020)]

theorem hook_run : ∃ es m, ((lts (Build.x64 true .lockfree) Bool).guard
    (InWindow (Build.x64 true .lockfree))).Run (pairMachine true) es m ∧
      ((m.threads true).pc, (m.threads false).pc, m.pool.pool.blockSize) =
        (.allocGuard 0x1000, .freeGuard 0x1020, 16) := by
  have h : (Lts.script (exec (Build.x64 true .lockfree)) (pairMachine true) hookSchedule).map
      (fun r => ((r.2.threads true).pc, (r.2.threads false).pc, r.2.pool.pool.blockSize)) =
        some (.allocGuard 0x1000, .freeGuard 0x1020, 16) := by decide +kernel
  obtain ⟨⟨es, m⟩, hr, hm⟩ := Option.map_eq_some_iff.mp h
  obtain ⟨m', hrun, rfl⟩ := script_run id hookSchedule (by rw [hr]; rfl)
  exact ⟨es, _, hrun, hm⟩

end LockFree

section Theorems

variable {τ : Type*} [DecidableEq τ] {B : Build} {env : Env} {w w' : World}
  {blockSize blockCount : Nat} {p : PoolStruct} {es : List (LockFree.Event τ)}
  {m : LockFree.Machine τ}

/-- Fixed pool, any number of threads, any interleaving in the tag window: nothing is ever reported,
and wherever a thread is about to run a check of `on_alloc` or `on_free`, the slot is in order. -/
theorem lockfree_no_false_positives (hbs : blockSize < B.modulus)
    (hcreate : memoryPoolCreate B env w blockSize blockCount = (some p, w'))
    (hrun : ((LockFree.lts B τ).guard (LockFree.InWindow B)).Run (.start ⟨w', p⟩) es m) :
    m.pool.reports = w'.reports ∧
      ∀ t, LockFree.SlotInOrder B m.pool (m.threads t).pc := by
  have I := LockFree.Inv.start (τ := τ) hbs hcreate
  have hw : w'.reports = w.reports := (memoryPoolCreate_created hbs hcreate).reports
  obtain ⟨⟨free, I', -⟩, -⟩ := I.run hrun
  refine ⟨I'.reports.trans hw.symm, ?_⟩
  intro t
  exact (I'.threads t).here.slotInOrder

theorem lockfree_no_false_positives_x64 :
    ∃ m : LockFree.Machine Bool, m.pool.reports = [] ∧
      readGuard m.pool.mem 0x1000 16 = guardFreed ∧
      Poisoned (Build.x64 true .lockfree) m.pool.mem 0x1000 16 ∧
      readGuard m.pool.mem 0x1020 16 = guardAllocated := by
  obtain ⟨es, m, hrun, hm⟩ := LockFree.hook_run
  simp only [Prod.mk.injEq] at hm
  obtain ⟨h1, h2, h3⟩ := hm
  obtain ⟨hrep, horder⟩ :=
    lockfree_no_false_positives (by decide) (LockFree.pairPool_create true) hrun
  have ht := horder true
  have hf := horder false
  rw [h1] at ht
  rw [h2] at hf
  simp only [LockFree.SlotInOrder, h3] at ht hf
  exact ⟨m, hrep, ht.1, ht.2, hf⟩

end Theorems

end MemoryPool
