import MemoryPool.MutexInv

/-!
# MemoryPool.LockDiscipline

Who may touch what without the mutex.

All writes of the pool functions are made under the mutex (`write_critical`). What `free_skeleton`
reads before it takes the mutex are the fields set at creation, the cells of descriptors that are
linked already, and `overflow_`. The first two are settled: nobody writes them any more. `overflow_`
is not, as long as `grow_pool` can link another chunk.

* `Inv.race_iff`: the one race of the build.
* `lock_discipline_broken`: a thread reads `overflow_` while another is about to write it.
* `lock_discipline_when`: no such thing as long as frees of pointers outside the first chunk wait
  until no growth is possible.
-/

namespace MemoryPool

namespace Mutex

section Discipline

variable {τ : Type*} {B : Build} {t : τ} {m m' : Machine τ}

/-! ## What is settled -/

/-- What nobody writes any more, whatever threads do. -/
def Settled (B : Build) : Loc → Machine τ → Prop
  | .fields, _ => True
  | .overflow, m => growthCount B m.shared.pool = none
  | .backing a, m | .blockCount a, m | .next a, m => ∃ c ∈ m.shared.pool.overflow, c.addr = a
  | .head, _ | .link _, _ | .payload _, _ => False

/-- The descriptor a thread writes is not linked, and the thread that links one could grow. -/
theorem Inv.settled_unwritten (I : Inv B m) (l : Loc) (hl : Settled B l m) (t : τ) :
    ¬ Accesses B m t .write l := by
  rintro ⟨answer, o, h, hw⟩
  have hP := I.threads t
  cases hpc : (m.threads t).pc with
  | initBacking add backing chunk =>
    rw [hpc] at h hP
    cases h
    obtain rfl : l = .backing chunk := by simpa using hw
    obtain ⟨c, hc, heq⟩ := hl
    exact hP.2.fresh c hc heq
  | initCount add backing chunk =>
    rw [hpc] at h hP
    cases h
    obtain rfl : l = .blockCount chunk := by simpa using hw
    obtain ⟨c, hc, heq⟩ := hl
    exact hP.2.fresh c hc heq
  | initNext add backing chunk next =>
    rw [hpc] at h hP
    cases h
    obtain rfl : l = .next chunk := by simpa using hw
    obtain ⟨c, hc, heq⟩ := hl
    exact hP.2.1.fresh c hc heq
  | linkChunk backing chunk =>
    rw [hpc] at h hP
    cases h
    obtain rfl : l = .overflow := by simpa using hw
    exact hP.1 hl
  | _ =>
    -- the head, a link or a payload, or no write at all
    rw [hpc] at h
    simp only [instr] at h
    (repeat' split at h) <;> cases h <;> cases l <;> first | exact hl | simp [noGrowth] at hw

theorem write_overflow (ha : Accesses B m t .write .overflow) :
    ∃ backing chunk, (m.threads t).pc = .linkChunk backing chunk := by
  obtain ⟨answer, o, h, hw⟩ := ha
  cases hpc : (m.threads t).pc with
  | linkChunk backing chunk => exact ⟨backing, chunk, rfl⟩
  | _ =>
    rw [hpc] at h
    simp only [instr] at h
    (repeat' split at h) <;> cases h <;> simp [noGrowth] at hw

/-- What a thread reads outside the critical section is settled, `overflow_` apart. -/
theorem Inv.unlocked_settled (I : Inv B m) {k : AccessKind} {l : Loc}
    (ha : Accesses B m t k l) (hno : m.shared.owner ≠ some t)
    (hover : ∀ block, (m.threads t).pc = .walkOverflow block →
      growthCount B m.shared.pool = none) : Settled B l m := by
  obtain ⟨answer, o, h, hw⟩ := ha
  have hP := I.threads t
  have hc : ¬ (m.threads t).pc.critical = true := fun hc => hno ((I.exclusive t).mp hc)
  cases hpc : (m.threads t).pc with
  | idle => rw [hpc] at h; cases h
  | lock =>
    rw [hpc] at h
    simp only [instr] at h
    split at h <;> cases h
    cases hw
  | lockPush block =>
    rw [hpc] at h
    simp only [instr] at h
    split at h <;> cases h
    cases hw
  | walkFirst block =>
    rw [hpc] at h
    cases h
    obtain ⟨-, rfl⟩ : k = .read ∧ l = .fields := by simpa using hw
    trivial
  | walkOverflow block =>
    rw [hpc] at h
    cases h
    obtain ⟨-, rfl⟩ : k = .read ∧ l = .overflow := by simpa using hw
    exact hover block hpc
  | walkBacking block chunk =>
    rw [hpc] at h hP
    simp only [instr] at h
    split at h
    · cases h; cases hw
    · rename_i hne
      cases h
      obtain ⟨-, rfl⟩ : k = .read ∧ l = .backing chunk := by simpa using hw
      exact hP.resolve_left hne
  | walkCount block chunk backing =>
    rw [hpc] at h hP
    cases h
    rcases (by simpa using hw : k = .read ∧ l = .blockCount chunk ∨ k = .read ∧ l = .fields) with
      ⟨-, rfl⟩ | ⟨-, rfl⟩
    · exact hP
    · trivial
  | walkNext block chunk =>
    rw [hpc] at h hP
    cases h
    obtain ⟨-, rfl⟩ : k = .read ∧ l = .next chunk := by simpa using hw
    exact hP
  | _ => exact absurd (by rw [hpc]; rfl) hc

variable [DecidableEq τ] {e : Event τ}

/-- Once no growth is possible none is: the chunks stay what they are. -/
theorem Inv.growth_over (I : Inv B m) (h : Step B m e m')
    (hnone : growthCount B m.shared.pool = none) : growthCount B m'.shared.pool = none := by
  cases h with
  | alloc _ => exact hnone
  | free _ _ => exact hnone
  | write _ _ _ => exact hnone
  | @instr t answer o h =>
    rcases instr_pool h with ⟨head, growCount, hp⟩ | ⟨backing, chunk, hpc, -⟩
    · show growthCount B o.shared.pool = none
      rw [hp]
      exact hnone
    · have hP := I.threads t
      rw [hpc] at hP
      exact absurd hnone hP.1

theorem Step.chunks (h : Step B m e m') :
    ∀ c ∈ m.shared.pool.overflow, c ∈ m'.shared.pool.overflow := by
  cases h with
  | alloc _ =>
    intro _ hc
    exact hc
  | free _ _ =>
    intro _ hc
    exact hc
  | write _ _ _ =>
    intro _ hc
    exact hc
  | instr h => exact instr_chunks h

theorem Inv.settled_step (I : Inv B m) (h : Step B m e m') (l : Loc) (hl : Settled B l m) :
    Settled B l m' := by
  have hlinked : ∀ a, (∃ c ∈ m.shared.pool.overflow, c.addr = a) →
      ∃ c ∈ m'.shared.pool.overflow, c.addr = a := by
    rintro a ⟨c, hc, rfl⟩
    exact ⟨c, h.chunks c hc, rfl⟩
  cases l with
  | fields => trivial
  | overflow => exact I.growth_over h hl
  | backing a => exact hlinked a hl
  | blockCount a => exact hlinked a hl
  | next a => exact hlinked a hl
  | head => exact hl
  | link slot => exact hl
  | payload slot => exact hl

/-! ## When there is no race -/

/-- A free gets past the first chunk only when `grow_pool` has no growth left, or with no other
thread around. -/
def WalksSettled (B : Build) (m : Machine τ) : Event τ → Prop
  | .instr t _ =>
    match (m.threads t).pc with
    | .walkFirst block =>
      blockInChunk B m.shared.pool m.shared.pool.backing m.shared.pool.blockCount block = true ∨
        growthCount B m.shared.pool = none ∨ ∀ t', t' = t
    | _ => True
  | _ => True

def OverflowSettled (B : Build) (m : Machine τ) : Prop :=
  ∀ t block, (m.threads t).pc = .walkOverflow block →
    growthCount B m.shared.pool = none ∨ ∀ t', t' = t

theorem Inv.walk_step (I : Inv B m) (h : Step B m e m') (hw : WalksSettled B m e)
    (hO : OverflowSettled B m) : OverflowSettled B m' := by
  have hkeep : ∀ t block, (m.threads t).pc = .walkOverflow block →
      growthCount B m'.shared.pool = none ∨ ∀ t', t' = t := by
    intro t block hpc
    exact (hO t block hpc).imp (I.growth_over h) id
  intro t' block hpc
  cases h with
  | @alloc t hidle =>
    by_cases ht : t' = t
    · subst ht; simp [Machine.move] at hpc
    · exact hkeep t' block (by simpa [Machine.move, ht] using hpc)
  | @free t b hidle _ =>
    by_cases ht : t' = t
    · subst ht; simp [Machine.move] at hpc
    · exact hkeep t' block (by simpa [Machine.move, ht] using hpc)
  | write _ _ _ => exact hkeep t' block hpc
  | @instr t answer o h =>
    by_cases ht : t' = t
    · subst ht
      have hpc' : o.pc = .walkOverflow block := by simpa [Machine.move, Thread.after] using hpc
      obtain ⟨hfirst, hno, hpool⟩ := instr_walkOverflow h hpc'
      simp only [WalksSettled, hfirst, hno, Bool.false_eq_true, false_or] at hw
      show growthCount B o.shared.pool = none ∨ ∀ t, t = t'
      rw [hpool]
      exact hw
    · exact hkeep t' block (by simpa [Machine.move, ht] using hpc)

theorem Inv.disciplined (I : Inv B m) (hO : OverflowSettled B m) :
    (system B τ).Disciplined m := by
  by_cases hone : ∃ t : τ, ∀ t', t' = t
  · obtain ⟨t₀, hone⟩ := hone
    rintro t k l - ⟨t', hne, -⟩
    exact absurd ((hone t').trans (hone t).symm) hne
  · have hover : ∀ t block, (m.threads t).pc = .walkOverflow block →
        growthCount B m.shared.pool = none := by
      intro t block hpc
      exact (hO t block hpc).resolve_right fun h => hone ⟨t, h⟩
    refine Locked.disciplined (L := system B τ) (I := Inv B)
      (fun _ _ _ hI hs => hI.step hs.2) (fun l _ _ _ hI hl hs => hI.settled_step hs.2 l hl)
      (fun l _ t hI hl => hI.settled_unwritten l hl t) I ?_
    intro t k l ha hno
    exact I.unlocked_settled ha hno (hover t)

theorem Inv.no_race (I : Inv B m) (h : (system B τ).Disciplined m) : ¬ (system B τ).Race m := by
  refine h.no_race (fun t t' ht ht' => ?_) fun t l ha => ?_
  · exact Option.some.inj (ht.symm.trans ht')
  · obtain ⟨answer, o, hi, hw⟩ := ha
    exact (I.exclusive t).mp (write_critical hi hw)

/-- The one race there is. -/
theorem Inv.race_iff (I : Inv B m) : (system B τ).Race m ↔
    ∃ t t' block backing chunk, (m.threads t).pc = .walkOverflow block ∧
      (m.threads t').pc = .linkChunk backing chunk := by
  constructor
  · rintro ⟨t, t', k, l, hne, ha, hw⟩
    have ht' : m.shared.owner = some t' := by
      obtain ⟨answer, o, hi, hm⟩ := hw
      exact (I.exclusive t').mp (write_critical hi hm)
    have hno : m.shared.owner ≠ some t := fun ht => hne (Option.some.inj (ht.symm.trans ht'))
    by_contra hnone
    have hlink : ∀ block, (m.threads t).pc = .walkOverflow block →
        growthCount B m.shared.pool = none := by
      intro block hpc
      exfalso
      obtain ⟨answer, o, hi, hm⟩ := ha
      rw [hpc] at hi
      cases hi
      obtain ⟨-, rfl⟩ : k = .read ∧ l = .overflow := by simpa using hm
      obtain ⟨backing, chunk, hpc'⟩ := write_overflow hw
      exact hnone ⟨t, t', block, backing, chunk, hpc, hpc'⟩
    exact I.settled_unwritten l (I.unlocked_settled ha hno hlink) t' hw
  · rintro ⟨t, t', block, backing, chunk, hpc, hpc'⟩
    refine ⟨t, t', .read, .overflow, ?_, ⟨none, _, by rw [hpc]; rfl, by simp⟩,
      ⟨none, _, by rw [hpc']; rfl, by simp⟩⟩
    rintro rfl
    rw [hpc] at hpc'
    cases hpc'

end Discipline

/-! ## A schedule to run examples on -/

def growingMachine : Machine Bool := .start (firstClient (Build.x64 false .mutex)).pool

def go (t : Bool) (answers : List (Option Nat)) : List (Event Bool) := answers.map (.instr t)

/-- One thread has the blocks of both chunks and frees `block`, up to the end of the test of the
first chunk; the other grows the pool, up to the link of its chunk. -/
def freeWhileGrowing (block : Nat) : List (Event Bool) :=
  .alloc false :: go false (List.replicate 6 none) ++
  .alloc false :: go false
    ([none, none, none, none, some 0x2000, some 0x200] ++ List.replicate 12 none) ++
  .free false block :: .instr false none ::
  .alloc true :: go true
    ([none, none, none, none, none, none, some 0x3000, some 0x300] ++ List.replicate 6 none)

instance (B : Build) (m : Machine Bool) (e : Event Bool) : Decidable (WalksSettled B m e) :=
  match e with
  | .instr t _ =>
    decidable_of_iff ((match (m.threads t).pc with
      | .walkFirst block => decide (blockInChunk B m.shared.pool m.shared.pool.backing
          m.shared.pool.blockCount block = true ∨
          growthCount B m.shared.pool = none ∨ ∀ t', t' = t)
      | _ => true) = true) (by
        simp only [WalksSettled]
        split <;> simp)
  | .alloc _ | .free .. | .write .. => .isTrue trivial

theorem free_second_run : ∃ m, ((lts (Build.x64 false .mutex) Bool).guard
    fun m e => FreesHeld m e ∧ True).Run growingMachine (freeWhileGrowing 0x2000) m ∧
      ((m.threads false).pc, (m.threads true).pc) =
        (.walkOverflow 0x2000, .linkChunk 0x3000 0x300) :=
  script_run (fun m : Machine Bool => ((m.threads false).pc, (m.threads true).pc))
    (freeWhileGrowing 0x2000) (by decide +kernel)

theorem free_first_run : ∃ m, ((lts (Build.x64 false .mutex) Bool).guard
    fun m e => FreesHeld m e ∧ WalksSettled (Build.x64 false .mutex) m e).Run growingMachine
      (freeWhileGrowing 0x1000) m ∧
      ((m.threads false).pc, (m.threads true).pc) =
        (.lockPush 0x1000, .linkChunk 0x3000 0x300) :=
  script_run (fun m : Machine Bool => ((m.threads false).pc, (m.threads true).pc))
    (freeWhileGrowing 0x1000) (by decide +kernel)

end Mutex

section Theorems

open Mutex

/-- Two threads and a pool of one block: one thread frees a block of the second chunk and is about
to read `overflow_` without the mutex, the other is about to write it. -/
theorem lock_discipline_broken :
    ∃ (p : PoolStruct) (w' : World) (es : List (Event Bool)) (m : Machine Bool),
      memoryPoolCreateDynamic (Build.x64 false .mutex) firstEnv World.start 16 1 2 = (some p, w') ∧
      ((lts (Build.x64 false .mutex) Bool).guard FreesHeld).Run (.start ⟨w', p⟩) es m ∧
      (m.threads false).pc = .walkOverflow 0x2000 ∧
      (m.threads true).pc = .linkChunk 0x3000 0x300 ∧
      m.shared.owner ≠ some false ∧
      (system (Build.x64 false .mutex) Bool).Race m ∧
      ¬ (system (Build.x64 false .mutex) Bool).Disciplined m := by
  obtain ⟨m, hrun, hm⟩ := free_second_run
  obtain ⟨hfree, hgrow⟩ := Prod.mk.inj hm
  have hrun' := hrun.mono fun _ _ h => h.1
  have I := Inv.of_run (Inv.start rfl) hrun'
  have hrace := I.race_iff.mpr ⟨false, true, _, _, _, hfree, hgrow⟩
  refine ⟨firstPool, _, _, m, firstCall_run false .mutex (by decide), hrun', hfree, hgrow, ?_,
    hrace, fun h => I.no_race h hrace⟩
  intro ho
  have hc := (I.exclusive false).mpr ho
  rw [hfree] at hc
  cases hc

/-- MUTEX build, dynamic pool, any number of threads and any interleaving: in every run in which no
free gets past the first chunk while the pool can still grow, no thread is ever about to access a
location without the mutex that another thread can still write, and there is no race. -/
theorem lock_discipline_when {τ : Type*} [DecidableEq τ] {B : Build} {env : Env} {w w' : World}
    {blockSize blockCount growthFactor : Nat} {p : PoolStruct}
    (hr : (CreateCall.dynamic blockSize blockCount growthFactor).InRange B)
    (hcreate : memoryPoolCreateDynamic B env w blockSize blockCount growthFactor = (some p, w'))
    {es : List (Event τ)} {m : Machine τ}
    (hrun : ((lts B τ).guard fun m e => FreesHeld m e ∧ WalksSettled B m e).Run
      (.start ⟨w', p⟩) es m) :
    (system B τ).Disciplined m ∧ ¬ (system B τ).Race m := by
  have C := CreateCall.created hr hcreate
  obtain ⟨I, hO⟩ : Inv B m ∧ OverflowSettled B m := by
    refine hrun.invariant (I := fun m => Inv B m ∧ OverflowSettled B m)
      (fun m e m' hI hs => ?_) ⟨Inv.start C.overflow, ?_⟩
    · exact ⟨hI.1.step hs.2, hI.1.walk_step hs.2 hs.1.2 hI.2⟩
    · intro t block hpc
      cases hpc
  exact ⟨I.disciplined hO, I.no_race (I.disciplined hO)⟩

theorem lock_discipline_when_x64 :
    ∃ m : Machine Bool, (m.threads false).pc = .lockPush 0x1000 ∧
      (m.threads true).pc = .linkChunk 0x3000 0x300 ∧
      (system (Build.x64 false .mutex) Bool).Disciplined m ∧
      ¬ (system (Build.x64 false .mutex) Bool).Race m := by
  obtain ⟨m, hrun, hm⟩ := free_first_run
  obtain ⟨hfree, hgrow⟩ := Prod.mk.inj hm
  have hcreate : memoryPoolCreateDynamic (Build.x64 false .mutex) firstEnv World.start 16 1 2 =
      (some firstPool, (firstClient (Build.x64 false .mutex)).pool.toWorld) :=
    firstCall_run false .mutex (by decide)
  exact ⟨m, hfree, hgrow, lock_discipline_when (by decide) hcreate hrun⟩

end Theorems

end MemoryPool
