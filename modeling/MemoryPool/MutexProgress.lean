import MemoryPool.Growth
import MemoryPool.LockDiscipline
import MemoryPool.MutexWalk

/-!
# MemoryPool.MutexProgress

The calls of the `MUTEX` build make progress. There is one mutex, the thread that holds it never
waits, and it releases it: no state is a deadlock (`Inv.canGo`). And a call executes a bounded
number of instructions, however the threads are scheduled: the walk of a free and the sum of
`grow_pool` go through the chunks once, `initialize_free_list` through the new slots (`Left`,
`budget`).
-/

namespace MemoryPool

namespace Mutex

open ByteMem LinkedList

section Enabled

variable {τ : Type*} {B : Build} {t : τ} {answer : Option Nat} {s : Shared τ} {pc : Pc}
  {m : Machine τ}

/-- The thread has a next instruction, whatever the allocator answers. -/
def CanGo (B : Build) (m : Machine τ) (t : τ) : Prop :=
  ∀ answer, ∃ o, instr B t answer m.shared (m.threads t).pc = some o

/-- Only the acquisition of the mutex waits. -/
theorem instr_enabled (hidle : pc ≠ .idle)
    (hfree : s.owner = none ∨ pc ≠ .lock ∧ ∀ block, pc ≠ .lockPush block) :
    ∃ o, instr B t answer s pc = some o := by
  cases pc with
  | idle => exact absurd rfl hidle
  | lock =>
    rcases hfree with ho | ⟨hl, -⟩
    · simp only [instr, ho]
      exact ⟨_, rfl⟩
    · exact absurd rfl hl
  | lockPush block =>
    rcases hfree with ho | ⟨-, hl⟩
    · simp only [instr, ho]
      exact ⟨_, rfl⟩
    · exact absurd rfl (hl block)
  | _ =>
    simp only [instr]
    (repeat' split) <;> exact ⟨_, rfl⟩

theorem Inv.canGo (I : Inv B m) (hidle : (m.threads t).pc ≠ .idle) :
    CanGo B m t ∨ ∃ u, m.shared.owner = some u ∧ CanGo B m u := by
  cases ho : m.shared.owner with
  | none => exact Or.inl fun answer => instr_enabled hidle (Or.inl ho)
  | some u =>
    have hc := (I.exclusive u).mpr ho
    refine Or.inr ⟨u, rfl, fun answer => instr_enabled ?_ (Or.inr ⟨?_, fun block => ?_⟩)⟩ <;>
      (intro hpc; rw [hpc] at hc; cases hc)

theorem Inv.alone (I : Inv B m) {u : τ} (hu : u ≠ t) (hc : (m.threads t).pc.critical = true) :
    (m.threads u).pc.critical = false := by
  by_contra hcu
  have ht := (I.exclusive t).mp hc
  rw [(I.exclusive u).mp (by simpa using hcu)] at ht
  exact hu (Option.some.inj ht)

end Enabled

section Budget

variable {τ : Type*} {B : Build} {t : τ} {answer : Option Nat} {s : Shared τ} {pc : Pc}
  {o : Outcome τ} {n : Nat}

/-- No chunk that `grow_pool` can add has more slots than this. -/
def Shared.growth (s : Shared τ) : Nat :=
  (s.pool.blockCount + slotSum s.pool.overflow) * s.pool.growFactor

/-- A call has at most `n` instructions to go. -/
def Left (s : Shared τ) (n : Nat) : Pc → Prop
  | .idle => True
  | .lock => 2 * s.pool.overflow.length + s.growth + 19 ≤ n
  | .testHead => 2 * s.pool.overflow.length + s.growth + 18 ≤ n
  | .sumFirst => 2 ≤ s.pool.growFactor ∧ 2 * s.pool.overflow.length + s.growth + 17 ≤ n
  | .sumCount _ chunk => 2 ≤ s.pool.growFactor ∧
      ∃ rest, From s chunk rest ∧ 2 * rest.length + s.growth + 16 ≤ n
  | .sumNext _ chunk => 2 ≤ s.pool.growFactor ∧
      ∃ rest, From s (s.nodes chunk).next rest ∧ 2 * rest.length + s.growth + 17 ≤ n
  | .newBacking add => add + 15 ≤ n
  | .newChunk add _ => add + 14 ≤ n
  | .initBacking add _ _ => add + 13 ≤ n
  | .initCount add _ _ => add + 12 ≤ n
  | .loadOverflow add _ _ => add + 11 ≤ n
  | .initNext add _ _ _ => add + 10 ≤ n
  | .initSlot add _ _ i => add - i + 9 ≤ n
  | .linkChunk _ _ => 8 ≤ n
  | .seedHead _ => 7 ≤ n
  | .countGrowth => 6 ≤ n
  | .loadHead => 5 ≤ n
  | .loadLink _ => 4 ≤ n
  | .storeHead _ _ => 3 ≤ n
  | .onAlloc _ => 2 ≤ n
  | .unlock _ => 1 ≤ n
  | .walkFirst block => ∃ k, WalkLeft s k (.walkFirst block) ∧ k + 6 ≤ n
  | .walkOverflow block => ∃ k, WalkLeft s k (.walkOverflow block) ∧ k + 6 ≤ n
  | .walkBacking block chunk => ∃ k, WalkLeft s k (.walkBacking block chunk) ∧ k + 6 ≤ n
  | .walkCount block chunk backing =>
    ∃ k, WalkLeft s k (.walkCount block chunk backing) ∧ k + 6 ≤ n
  | .walkNext block chunk => ∃ k, WalkLeft s k (.walkNext block chunk) ∧ k + 6 ≤ n
  | .lockPush _ => 6 ≤ n
  | .onFree _ => 5 ≤ n
  | .pushHead _ => 4 ≤ n
  | .pushLink _ _ => 3 ≤ n
  | .storeBlock _ => 2 ≤ n
  | .unlockPush => 1 ≤ n

theorem Left.walking {block : Nat} (hw : pc.walking = some block) :
    Left s n pc ↔ ∃ k, WalkLeft s k pc ∧ k + 6 ≤ n := by
  cases pc <;> first | exact Iff.rfl | cases hw

theorem totalCount_le (B : Build) (p : PoolStruct) :
    totalCount B p ≤ p.blockCount + slotSum p.overflow := by
  unfold totalCount slotSum
  generalize p.blockCount = a
  induction p.overflow generalizing a with
  | nil => simp
  | cons c rest ih =>
    rw [List.foldl_cons, List.map_cons, List.sum_cons]
    refine (ih _).trans ?_
    have : B.add a c.blockCount ≤ a + c.blockCount := Nat.mod_le _ _
    omega

theorem growthCount_le {add : Nat} (hF : 2 ≤ s.pool.growFactor)
    (hlt : s.pool.growFactor < B.modulus) (h : growthCount B s.pool = some add) :
    add ≤ s.growth := by
  obtain ⟨-, rfl, -, -⟩ := growthCount_some h
  rw [Geometric.sub_one hF hlt]
  exact Nat.mul_le_mul (totalCount_le B s.pool) (Nat.sub_le _ _)

/-- An instruction of the call uses up one of those it had left. -/
theorem instr_left (L : Linked B s) (hI : PcInv B s pc) (hlt : s.pool.growFactor < B.modulus)
    (hleft : Left s n pc) (h : instr B t answer s pc = some o) :
    0 < n ∧ Left o.shared (n - 1) o.pc := by
  cases hw : pc.walking with
  | some block =>
    obtain ⟨k, hk, hn⟩ := (Left.walking hw).mp hleft
    have hpos := hk.pos (by simp [hw])
    refine ⟨by omega, ?_⟩
    rcases (instr_walk hw h).2.2 with hl | hl | hl
    · exact (Left.walking hl).mpr ⟨k - 1, (instr_walkLeft L hk (by simp [hl]) h).2, by omega⟩
    · rw [hl]
      show 6 ≤ n - 1
      omega
    · rw [hl]
      trivial
  | none =>
    cases pc with
    | idle => cases h
    | lock =>
      have hleft : 2 * s.pool.overflow.length + s.growth + 19 ≤ n := hleft
      simp only [instr] at h
      split at h <;> cases h
      refine ⟨by omega, ?_⟩
      show 2 * s.pool.overflow.length + s.growth + 18 ≤ n - 1
      omega
    | testHead =>
      have hleft : 2 * s.pool.overflow.length + s.growth + 18 ≤ n := hleft
      cases h
      refine ⟨by omega, ?_⟩
      dsimp only
      split
      · split
        · show 1 ≤ n - 1
          omega
        · rename_i hF
          exact ⟨by omega, by omega⟩
      · show 5 ≤ n - 1
        omega
    | sumFirst =>
      obtain ⟨hF, hn⟩ := hleft
      cases h
      refine ⟨by omega, hF, s.pool.overflow, ⟨List.suffix_refl _, L.list⟩, ?_⟩
      show 2 * s.pool.overflow.length + s.growth + 16 ≤ n - 1
      omega
    | sumCount total chunk =>
      obtain ⟨hF, rest, hf, hn⟩ := hleft
      obtain ⟨-, hP⟩ := instr_inv L hI h
      simp only [instr] at h
      split at h
      · split at h
        · cases h
          refine ⟨by omega, ?_⟩
          show 1 ≤ n - 1
          omega
        · rename_i add _
          cases h
          have hle := growthCount_le hF hlt hP
          refine ⟨by omega, ?_⟩
          show add + 15 ≤ n - 1
          omega
      · rename_i h0
        cases h
        cases rest with
        | nil => exact absurd hf.2.start_eq_nil h0
        | cons c rest =>
          rw [List.length_cons] at hn
          refine ⟨by omega, hF, rest, hf.succ, ?_⟩
          show 2 * rest.length + s.growth + 17 ≤ n - 1
          omega
    | sumNext total chunk =>
      obtain ⟨hF, rest, hf, hn⟩ := hleft
      cases h
      refine ⟨by omega, hF, rest, hf, ?_⟩
      show 2 * rest.length + s.growth + 16 ≤ n - 1
      omega
    | newBacking add =>
      have hleft : add + 15 ≤ n := hleft
      simp only [instr] at h
      split at h <;> cases h
      · refine ⟨by omega, ?_⟩
        show 1 ≤ n - 1
        omega
      · refine ⟨by omega, ?_⟩
        show add + 14 ≤ n - 1
        omega
    | newChunk add backing =>
      have hleft : add + 14 ≤ n := hleft
      simp only [instr] at h
      split at h <;> cases h
      · refine ⟨by omega, ?_⟩
        show 1 ≤ n - 1
        omega
      · refine ⟨by omega, ?_⟩
        show add + 13 ≤ n - 1
        omega
    | initSlot add backing chunk i =>
      have hleft : add - i + 9 ≤ n := hleft
      simp only [instr] at h
      split at h <;> cases h
      · refine ⟨by omega, ?_⟩
        show add - (i + 1) + 9 ≤ n - 1
        omega
      · refine ⟨by omega, ?_⟩
        show 8 ≤ n - 1
        omega
    | storeHead block next =>
      have hleft : 3 ≤ n := hleft
      cases h
      refine ⟨by omega, ?_⟩
      dsimp only
      split
      · show 2 ≤ n - 1
        omega
      · show 1 ≤ n - 1
        omega
    | lockPush block =>
      have hleft : 6 ≤ n := hleft
      simp only [instr] at h
      split at h <;> cases h
      refine ⟨by omega, ?_⟩
      dsimp only
      split
      · show 5 ≤ n - 1
        omega
      · show 4 ≤ n - 1
        omega
    | onFree block =>
      have hleft : 5 ≤ n := hleft
      simp only [instr, Option.some.injEq] at h
      subst h
      refine ⟨by omega, ?_⟩
      dsimp only
      generalize (MemoryPool.onFree B s.toWorld block s.pool.blockSize).1 = enqueue
      split
      · show 4 ≤ n - 1
        omega
      · show 1 ≤ n - 1
        omega
    | onAlloc block =>
      simp only [instr, Option.some.injEq] at h
      subst h
      simp only [Left] at hleft ⊢
      omega
    | walkFirst _ => cases hw
    | walkOverflow _ => cases hw
    | walkBacking _ _ => cases hw
    | walkCount _ _ _ => cases hw
    | walkNext _ _ => cases hw
    | _ =>
      cases h
      simp only [Left] at hleft ⊢
      exact ⟨by omega, by first | trivial | omega⟩

theorem growth_grows (h : instr B t answer s pc = some o) :
    s.pool.overflow.length ≤ o.shared.pool.overflow.length ∧ s.growth ≤ o.shared.growth ∧
      o.shared.pool.growFactor = s.pool.growFactor := by
  rcases instr_pool h with ⟨head, growCount, hp⟩ | ⟨backing, new, -, hs⟩
  · unfold Shared.growth
    rw [hp]
    exact ⟨le_refl _, le_refl _, rfl⟩
  · rw [hs]
    refine ⟨Nat.le_succ _, Nat.mul_le_mul_right _ ?_, rfl⟩
    simp only [Shared.link, slotSum, List.map_cons, List.sum_cons]
    omega

theorem Left.owner (hleft : Left s n pc) (owner : Option τ) : Left (s.setOwner owner) n pc := by
  cases pc <;> exact hleft

theorem Left.setMem (hleft : Left s n pc) (mem : Mem) : Left (s.setMem mem) n pc := by
  cases pc <;> exact hleft

/-- A growth elsewhere gives a call that waits, or has not loaded `overflow_` yet, more to do. -/
theorem Left.other {pc' : Pc} (hleft : Left s n pc) (hpc : PcInv B s pc) (hI : PcInv B s pc')
    (hone : pc.critical = true → pc'.critical = false) (h : instr B t answer s pc' = some o) :
    ∃ n', Left o.shared n' pc ∧ n' + 3 * s.pool.overflow.length + s.growth ≤
      n + 3 * o.shared.pool.overflow.length + o.shared.growth := by
  obtain ⟨hlen, hgrowth, -⟩ := growth_grows h
  cases hc : pc.critical with
  | true =>
    rw [instr_outside h (hone hc)]
    exact ⟨n, hleft.owner _, le_refl _⟩
  | false =>
    cases hw : pc.walking with
    | some block =>
      obtain ⟨k, hk, hn⟩ := (Left.walking hw).mp hleft
      obtain ⟨k', hk', hle⟩ := hk.other hpc hI h
      exact ⟨k' + 6, (Left.walking hw).mpr ⟨k', hk', le_refl _⟩, by omega⟩
    | none =>
      cases pc with
      | idle => exact ⟨0, trivial, by omega⟩
      | lock =>
        have hleft : 2 * s.pool.overflow.length + s.growth + 19 ≤ n := hleft
        exact ⟨2 * o.shared.pool.overflow.length + o.shared.growth + 19, le_refl _, by omega⟩
      | lockPush block => exact ⟨n, hleft, by omega⟩
      | _ => simp [Pc.critical, Pc.walking] at hc hw

end Budget

section System

variable {τ : Type*} [DecidableEq τ] {B : Build} {t : τ} {m m' : Machine τ}

theorem growFactor_along {es : List (Event τ)} (h : (lts B τ).Run m es m') :
    m'.shared.pool.growFactor = m.shared.pool.growFactor := by
  induction h with
  | nil => rfl
  | snoc _ hs ih =>
    rw [← ih]
    cases hs with
    | alloc _ => rfl
    | free _ _ => rfl
    | write _ _ _ => rfl
    | instr h => exact (growth_grows h).2.2

theorem call_left {e : Event τ} (hs : Step B m e m') (hcall : e.isCall t = true) :
    Left m'.shared (3 * m'.shared.pool.overflow.length + m'.shared.growth + 19)
      (m'.threads t).pc := by
  cases hs with
  | @alloc u _ =>
    obtain rfl : u = t := of_decide_eq_true hcall
    simp only [Machine.move, Function.update_self]
    show 2 * _ + _ + 19 ≤ _
    omega
  | @free u block _ _ =>
    obtain rfl : u = t := of_decide_eq_true hcall
    simp only [Machine.move, Function.update_self]
    exact ⟨3 * m.shared.pool.overflow.length + 3, le_refl _, by omega⟩
  | instr _ => cases hcall
  | write _ _ _ => cases hcall

/-- From a call on, the instructions the thread has executed and those it has to go are bounded by
the chunks there are and by the next growth. -/
theorem budget (hI : Inv B m) (hlt : m.shared.pool.growFactor < B.modulus)
    (hleft : Left m.shared (3 * m.shared.pool.overflow.length + m.shared.growth + 19)
      (m.threads t).pc)
    {es : List (Event τ)} (hrun : (lts B τ).Run m es m') (hno : ∀ e ∈ es, e.isCall t = false) :
    ∃ n, Left m'.shared n (m'.threads t).pc ∧ es.countP (Event.isInstr t) + n ≤
      3 * m'.shared.pool.overflow.length + m'.shared.growth + 19 := by
  induction hrun with
  | nil => exact ⟨_, hleft, by simp⟩
  | @snoc m₁ m₂ es e hrun hs ih =>
    obtain ⟨n, hn, hle⟩ := ih fun e he => hno e (by simp [he])
    have he := hno e (by simp)
    have hI₁ : Inv B m₁ := hI.along hrun
    rw [List.countP_append, List.countP_singleton]
    cases hs with
    | @alloc u _ =>
      have hu : t ≠ u := fun ht => by simp [Event.isCall, ht] at he
      simp only [Machine.move, Function.update_of_ne hu]
      exact ⟨n, hn, by simpa [Event.isInstr] using hle⟩
    | @free u block _ _ =>
      have hu : t ≠ u := fun ht => by simp [Event.isCall, ht] at he
      simp only [Machine.move, Function.update_of_ne hu]
      exact ⟨n, hn, by simpa [Event.isInstr] using hle⟩
    | write _ _ _ =>
      refine ⟨n, hn.setMem _, ?_⟩
      show _ ≤ 3 * m₁.shared.pool.overflow.length + m₁.shared.growth + 19
      simpa [Event.isInstr] using hle
    | @instr u answer o h =>
      by_cases hu : t = u
      · subst hu
        have hlt₁ : m₁.shared.pool.growFactor < B.modulus := by rwa [growFactor_along hrun]
        obtain ⟨hpos, hn'⟩ := instr_left hI₁.linked (hI₁.threads t) hlt₁ hn h
        obtain ⟨hlen, hgrowth, -⟩ := growth_grows h
        refine ⟨n - 1, by simpa [Machine.move, Thread.after] using hn', ?_⟩
        simp only [Event.isInstr, decide_true, if_true]
        show _ ≤ 3 * o.shared.pool.overflow.length + o.shared.growth + 19
        omega
      · obtain ⟨n', hn', hle'⟩ := hn.other (hI₁.threads t) (hI₁.threads u)
          (fun hc => hI₁.alone (Ne.symm hu) hc) h
        refine ⟨n', by simpa [Machine.move, hu] using hn', ?_⟩
        simp only [Event.isInstr, Ne.symm hu, decide_false, Bool.false_eq_true, if_false]
        show _ ≤ 3 * o.shared.pool.overflow.length + o.shared.growth + 19
        omega

end System

end Mutex

section Theorems

open Mutex

/-- MUTEX build, fixed or dynamic pool, any number of threads that free what they like and write
into blocks they hold, any interleaving. A thread inside a call has a next instruction, or waits for
a thread that has the mutex and has one. And each call executes, up to any state, at most three
instructions for each chunk, one for each slot of a growth and 19 others, however the threads are
scheduled. -/
theorem mutex_progress {τ : Type*} [DecidableEq τ] {B : Build} {env : Env} {w w' : World}
    {call : CreateCall} {p : PoolStruct} (hr : call.InRange B)
    (hcreate : call.run B env w = (some p, w')) {es : List (Event τ)} {m : Machine τ}
    (hrun : (lts B τ).Run (.start ⟨w', p⟩) es m) :
    (∀ t, (m.threads t).pc ≠ .idle →
      CanGo B m t ∨ ∃ u, m.shared.owner = some u ∧ CanGo B m u) ∧
    ∀ t es₁ e es₂, es = es₁ ++ e :: es₂ → e.isCall t = true → (∀ e ∈ es₂, e.isCall t = false) →
      es₂.countP (Event.isInstr t) ≤ 3 * m.shared.pool.overflow.length +
        (m.shared.pool.blockCount + slotSum m.shared.pool.overflow) * m.shared.pool.growFactor +
        19 := by
  have C := CreateCall.created hr hcreate
  have I : Inv B (Machine.start ⟨w', p⟩ : Machine τ) := .start C.overflow
  refine ⟨fun t => (I.along hrun).canGo, ?_⟩
  rintro t es₁ e es₂ rfl hcall hno
  obtain ⟨m₁, hr₁, hr₂⟩ := hrun.append_inv
  obtain ⟨m₂, hs, hr₂⟩ := (show (lts B τ).Run m₁ ([e] ++ es₂) m from hr₂).append_inv
  have hs := hs.single_inv
  have hlt : m₂.shared.pool.growFactor < B.modulus := by
    rw [growFactor_along (.snoc hr₁ hs)]
    exact C.factor
  obtain ⟨n, -, hle⟩ := budget ((I.along hr₁).step hs) hlt (call_left hs hcall) hr₂ hno
  exact (Nat.le_add_right _ _).trans hle

/-- One thread is about to read `overflow_`, the other to write it. -/
theorem mutex_progress_x64 : ∃ m : Machine Bool,
    (m.threads false).pc = .walkOverflow 0x2000 ∧
    (m.threads true).pc = .linkChunk 0x3000 0x300 ∧
    (∀ t, (m.threads t).pc ≠ .idle → CanGo (Build.x64 false .mutex) m t ∨
      ∃ u, m.shared.owner = some u ∧ CanGo (Build.x64 false .mutex) m u) ∧
    (go true ([none, none, none, none, none, none, some 0x3000, some 0x300] ++
        List.replicate 6 none)).countP (Event.isInstr true) ≤
      3 * m.shared.pool.overflow.length +
        (m.shared.pool.blockCount + slotSum m.shared.pool.overflow) * m.shared.pool.growFactor +
        19 := by
  obtain ⟨m, hrun, hm⟩ := free_second_run
  obtain ⟨h1, h2⟩ : _ ∧ _ := by simpa using hm
  have hcreate : firstCall.run (Build.x64 false .mutex) firstEnv World.start =
      (some firstPool, (firstClient (Build.x64 false .mutex)).pool.toWorld) :=
    firstCall_run false .mutex (by decide)
  obtain ⟨hgo, hbound⟩ := mutex_progress (by decide) hcreate hrun.of_guard
  exact ⟨m, h1, h2, hgo,
    hbound true ((freeWhileGrowing 0x2000).take 28) (.alloc true) _ (by decide) rfl (by decide)⟩

end Theorems

end MemoryPool
