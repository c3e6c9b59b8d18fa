import MemoryPool.LockFreeHooks

/-!
# MemoryPool.LockFreeMemory

What the threads of a `LOCKFREE` build see of one another in memory, as long as they free what they
hold.

* `instr_outside`: an instruction writes into the block that its call has in hand and nowhere else.
* `Inv.held_step`, `Inv.held_run`: a byte of a held block changes where its holder writes it, and no
  pop returns the block.
-/

namespace MemoryPool

namespace LockFree

open ByteMem

section Events

variable {τ : Type*} [DecidableEq τ]

/-- What a byte is after an event, if only `t` writes it. -/
def Event.store (t : τ) (addr : Nat) (value : UInt8) : Event τ → UInt8
  | .write u x byte => if u = t ∧ x = addr then byte else value
  | _ => value

def Event.pushes (t : τ) (block : Nat) : Event τ → Bool
  | .call u (.push b) => decide (u = t ∧ b = block)
  | _ => false

end Events

section Memory

variable {τ : Type*} {B : Build} {others : List (Nat × Region)} {reports : List Report}
  {p : PoolStruct} {m m' : Machine τ} {free : List Nat} {t : τ} {block addr : Nat}

/-- A check that reports or not, whatever it looks at. -/
theorem ite_mem {c : Prop} [Decidable c] (w w' : World) {mem : Mem} (h : w.mem = mem)
    (h' : w'.mem = mem) : (if c then w else w').mem = mem := by
  split
  · exact h
  · exact h'

theorem instr_outside {spurious : Bool} {current : Prop} {s s' : State} {pc pc' : Pc}
    {label : Label} (d : SlotDims B s.pool.blockSize) (hp : PcInv B s current pc)
    (h : instr B spurious s pc = some (label, s', pc')) {x : Nat}
    (hx : ∀ b ∈ pc.block, x < b ∨ b + slotStride B s.pool.blockSize ≤ x) :
    s'.mem x = s.mem x := by
  have hlink := d.link
  have hsize := d.block
  have hown : ∀ b, pc.block = [b] → x < b ∨ b + slotStride B s.pool.blockSize ≤ x :=
    fun b hb => hx b (by rw [hb]; exact List.mem_singleton_self b)
  cases pc with
  | allocStamp b =>
    have hap := hown b rfl
    have hguard := d.guard hp
    cases h
    exact writeGuard_outside (by omega)
  | freePoison b doubleFree =>
    have hap := hown b rfl
    cases h
    exact poisonPayload_outside (by omega)
  | freeStamp b doubleFree =>
    have hap := hown b rfl
    have hguard := d.guard hp.1
    cases h
    exact writeGuard_outside (by omega)
  | pushWrite b expected =>
    have hap := hown b rfl
    cases h
    exact writeNext_outside (by omega)
  | allocGuard b =>
    simp only [instr] at h
    generalize readGuard s.mem b s.pool.blockSize = word at h
    cases h
    exact congrFun (ite_mem (s.report _ b) s.toWorld rfl rfl) x
  | allocPoison b =>
    simp only [instr] at h
    cases h
    exact congrFun (ite_mem (s.report _ b) s.toWorld rfl rfl) x
  | freeGuard b =>
    simp only [instr] at h
    generalize readGuard s.mem b s.pool.blockSize = word at h
    cases h
    refine congrFun (ite_mem (s.report _ b) _ rfl ?_) x
    exact ite_mem (s.report _ b) s.toWorld rfl rfl
  | _ =>
    simp only [instr] at h
    (repeat' split at h) <;> cases h <;> rfl

theorem instr_blockSize {spurious : Bool} {s s' : State} {pc pc' : Pc} {label : Label}
    (h : instr B spurious s pc = some (label, s', pc')) :
    s'.pool.blockSize = s.pool.blockSize := by
  cases pc <;> simp only [instr] at h <;> (repeat' split at h) <;> cases h <;> rfl

variable [DecidableEq τ]

theorem Step.blockSize {e : Event τ} (h : Step B m e m') :
    m'.pool.pool.blockSize = m.pool.pool.blockSize := by
  cases h with
  | pop _ => rfl
  | push _ _ => rfl
  | write _ _ _ => rfl
  | instr h => exact instr_blockSize h

/-- A block stays with the thread that does not push it, its bytes are the thread's, and a pop
returns another block. -/
theorem Inv.held_step (I : Inv B others reports p m free) {e : Event τ} (h : Step B m e m')
    (hheld : block ∈ (m.threads t).held) (hpush : e.pushes t block = false) (hl : block ≤ addr)
    (hu : addr < block + m.pool.pool.blockSize) :
    block ∈ (m'.threads t).held ∧ (∀ u, e ≠ .instr u (.ret block)) ∧
      m'.pool.mem addr = Event.store t addr (m.pool.mem addr) e := by
  have hmine : block ∈ (m.threads t).owned := List.mem_append_right _ hheld
  have hslot : block ∈ m.pool.pool.slots B := I.shares.owned_mem (t := t) hmine
  have hsize := I.layout.dims.block
  cases h with
  | @pop u _ =>
    refine ⟨?_, by simp, rfl⟩
    by_cases ht : t = u
    · subst ht
      simpa [Machine.move] using hheld
    · simpa [Machine.move, ht] using hheld
  | @push u b _ _ =>
    refine ⟨?_, by simp, rfl⟩
    by_cases ht : t = u
    · subst ht
      have hne : block ≠ b := by
        rintro rfl
        simp [Event.pushes] at hpush
      simpa [Machine.move] using (List.mem_erase_of_ne hne).mpr hheld
    · simpa [Machine.move, ht] using hheld
  | @write u b x byte hb hlb hub =>
    refine ⟨hheld, by simp, ?_⟩
    have hb' : b ∈ (m.threads u).owned := List.mem_append_right _ hb
    show set m.pool.mem x byte addr = if u = t ∧ x = addr then byte else m.pool.mem addr
    by_cases hx : x = addr
    · subst hx
      -- the byte lies in one slot only
      obtain rfl : b = block := by
        by_contra hne
        have := I.layout.slots_apart (I.shares.owned_mem (t := u) hb') hslot hne
        omega
      rw [if_pos ⟨I.shares.exclusive u t b hb' hmine, rfl⟩]
      exact if_pos rfl
    · rw [if_neg (fun h => hx h.2), set_other (Ne.symm hx)]
  | @instr u spurious label s pc h =>
    have hin : block ∉ (m.threads u).pc.block := by
      intro hin
      obtain rfl := I.shares.exclusive u t block (List.mem_append_left _ hin) hmine
      exact (List.nodup_append.mp (I.shares.owned_nodup u)).2.2 block hin block hheld rfl
    refine ⟨?_, ?_, ?_⟩
    · by_cases ht : t = u
      · subst ht
        simp only [Machine.move, Function.update_self]
        cases label with
        | ret b =>
          simp only [Thread.after]
          split
          · exact hheld
          · exact List.mem_cons_of_mem _ hheld
        | _ => exact hheld
      · simpa [Machine.move, ht] using hheld
    · rintro v he
      cases he
      -- a pop returns what it has in hand, or null
      have h0 : block ≠ 0 := (I.layout.slot_spec hslot).1
      cases hpc : (m.threads u).pc <;> rw [hpc] at h hin <;> simp only [LockFree.instr] at h <;>
        (repeat' split at h) <;> cases h
      · exact h0 rfl
      · exact hin (List.mem_singleton_self block)
    · refine instr_outside I.layout.dims (I.threads u).here h fun b hb => ?_
      have hne : b ≠ block := by
        rintro rfl
        exact hin hb
      have hbs := I.shares.owned_mem (t := u) (List.mem_append_left _ hb)
      have := I.layout.slots_apart hbs hslot hne
      omega

theorem Inv.held_run (I : Inv B others reports p m free) {es : List (Event τ)}
    (h : ((lts B τ).guard (InWindow B)).Run m es m') (hheld : block ∈ (m.threads t).held)
    (hpush : ∀ e ∈ es, e.pushes t block = false) (hl : block ≤ addr)
    (hu : addr < block + m.pool.pool.blockSize) :
    block ∈ (m'.threads t).held ∧ m'.pool.pool.blockSize = m.pool.pool.blockSize ∧
      (∀ u, .instr u (.ret block) ∉ es) ∧
      m'.pool.mem addr = es.foldl (Event.store t addr) (m.pool.mem addr) := by
  induction h with
  | nil => exact ⟨hheld, rfl, by simp, rfl⟩
  | @snoc m₁ m₂ es e hrun hs ih =>
    obtain ⟨hheld₁, hsize, hret, hmem⟩ := ih fun e he => hpush e (List.mem_append_left _ he)
    obtain ⟨⟨free₁, I₁, -⟩, -⟩ := I.run hrun
    obtain ⟨hheld₂, hret₂, hmem₂⟩ := I₁.held_step hs.2 hheld₁ (hpush e (by simp)) hl
      (by rwa [hsize])
    refine ⟨hheld₂, hs.2.blockSize.trans hsize, fun u hu => ?_, ?_⟩
    · rcases List.mem_append.mp hu with hu | hu
      · exact hret u hu
      · exact hret₂ u (List.mem_singleton.mp hu).symm
    · rw [hmem₂, hmem, List.foldl_append]
      rfl

end Memory

/-! ## A pop that sleeps on a link which is no link any more -/

/-- One thread has loaded the head and read its link; the other has popped that block. -/
def sleepSchedule : List (Action Bool) :=
  [.call true .pop, .go true false, .go true false,
    .call false .pop, .go false false, .go false false, .go false false, .go false false,
    .go false false, .go false false, .go false false]

/-- The holder writes over the link and behind it while the other goes on. -/
def wakeSchedule : List (Action Bool) :=
  [.write false 0x1000 0x1001 7, .go true false, .go true false, .go true false, .go true false,
    .go true false, .write false 0x1000 0x1008 9, .go true false, .go true false]

def wakeEvents : List (Event Bool) :=
  [.write false 0x1001 7, .instr true .load, .instr true .quiet, .instr true (.cas (.pop 0x1020)),
    .instr true .quiet, .instr true .quiet, .write false 0x1008 9, .instr true .quiet,
    .instr true (.ret 0x1020)]

theorem wake_run : ∃ es m m', ((lts (Build.x64 true .lockfree) Bool).guard
    (InWindow (Build.x64 true .lockfree))).Run (pairMachine true) es m ∧
      ((lts (Build.x64 true .lockfree) Bool).guard
        (InWindow (Build.x64 true .lockfree))).Run m wakeEvents m' ∧
      (m.threads false).held = [0x1000] := by
  have h : ((Lts.script (exec (Build.x64 true .lockfree)) (pairMachine true) sleepSchedule).bind
      fun r => (Lts.script (exec (Build.x64 true .lockfree)) r.2 wakeSchedule).map
        fun q => ((r.2.threads false).held, q.1)) = some ([0x1000], wakeEvents) := by
    decide +kernel
  obtain ⟨⟨es, m⟩, hr, h⟩ := Option.bind_eq_some_iff.mp h
  obtain ⟨⟨es', m'⟩, hr', hx⟩ := Option.map_eq_some_iff.mp h
  simp only [Prod.mk.injEq] at hx
  obtain ⟨hheld, rfl⟩ := hx
  obtain ⟨m₁, hrun, rfl⟩ := script_run id sleepSchedule (by rw [hr]; rfl)
  obtain ⟨m₂, hrun', rfl⟩ := script_run id wakeSchedule (by rw [hr']; rfl)
  exact ⟨_, _, _, hrun, hrun', hheld⟩

end LockFree

section Theorems

open LockFree

variable {τ : Type*} [DecidableEq τ] {B : Build} {env : Env} {w w' : World}
  {blockSize blockCount : Nat} {p : PoolStruct} {es : List (Event τ)} {m : Machine τ}

/-- LOCKFREE build, fixed pool, any number of threads, any interleaving in the tag window. From any
state on, as long as a thread does not push a block that it holds, the block stays its own, no pop
returns it to anybody, and each byte of it is what the thread has last written there: neither the
hooks nor the speculative read of a link by a sleeping pop can tell. -/
theorem lockfree_held_bytes (hbs : blockSize < B.modulus)
    (hcreate : memoryPoolCreate B env w blockSize blockCount = (some p, w'))
    (hrun : ((lts B τ).guard (InWindow B)).Run (.start ⟨w', p⟩) es m) :
    ∀ t, ∀ block ∈ (m.threads t).held, ∀ es' m',
      ((lts B τ).guard (InWindow B)).Run m es' m' → (∀ e ∈ es', e.pushes t block = false) →
        block ∈ (m'.threads t).held ∧ (∀ u, block ∈ (m'.threads u).held → u = t) ∧
        (∀ u, .instr u (.ret block) ∉ es') ∧
        ∀ addr, block ≤ addr → addr < block + p.blockSize →
          m'.pool.mem addr = es'.foldl (Event.store t addr) (m.pool.mem addr) := by
  obtain ⟨⟨free, I, -⟩, -⟩ := (Inv.start hbs hcreate).run hrun
  have hsize : m.pool.pool.blockSize = p.blockSize := I.shape.blockSize
  intro t block hheld es' m' hrun' hpush
  obtain ⟨⟨free', I', -⟩, -⟩ := I.run hrun'
  have hpos := I.layout.block_pos
  obtain ⟨hheld', -, hret, -⟩ := I.held_run hrun' hheld hpush (le_refl block) (by omega)
  refine ⟨hheld', fun u hu => ?_, hret, fun addr hl hu => ?_⟩
  · exact I'.shares.exclusive u t block (List.mem_append_right _ hu)
      (List.mem_append_right _ hheld')
  · exact (I.held_run hrun' hheld hpush hl (by rwa [hsize])).2.2.2

theorem lockfree_held_bytes_x64 : ∃ m m' : Machine Bool,
    ((lts (Build.x64 true .lockfree) Bool).guard (InWindow (Build.x64 true .lockfree))).Run m
      wakeEvents m' ∧
    0x1000 ∈ (m'.threads false).held ∧ m'.pool.mem 0x1001 = 7 ∧ m'.pool.mem 0x1008 = 9 ∧
      m'.pool.mem 0x1000 = m.pool.mem 0x1000 := by
  obtain ⟨es, m, m', hrun, hrun', hheld⟩ := wake_run
  obtain ⟨h1, -, -, h2⟩ := lockfree_held_bytes (by decide) (pairPool_create true) hrun false 0x1000
    (by simp [hheld]) wakeEvents m' hrun' (by decide)
  exact ⟨m, m', hrun', h1, h2 0x1001 (by decide) (by decide), h2 0x1008 (by decide) (by decide),
    h2 0x1000 (by decide) (by decide)⟩

end Theorems

end MemoryPool
