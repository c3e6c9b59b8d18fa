import MemoryPool.LockFree

/-!
# MemoryPool.LockFreeAlone

One thread with the lock-free pool to itself: instruction by instruction it computes what
`LockFreePolicy.popHead` and `LockFreePolicy.pushHead` compute in one go, spurious failures of the
compare-exchange included.

* `Alone.popLoop`, `Alone.pushLoop`: the retry loops, by induction on the loops.
* `pop_alone`, `push_alone`: whole calls, as runs of the machine.
-/

namespace MemoryPool

namespace LockFree

open ByteMem

/-- Instructions of one thread with no other in between. -/
inductive Alone (B : Build) : State → Pc → State → Pc → Prop where
  | refl {s : State} {pc : Pc} : Alone B s pc s pc
  | cons {s s₁ s' : State} {pc pc₁ pc' : Pc} {label : Label} (spurious : Bool) :
      instr B spurious s pc = some (label, s₁, pc₁) → Alone B s₁ pc₁ s' pc' →
      Alone B s pc s' pc'

def Returns (B : Build) (s : State) (pc : Pc) (block : Nat) (s' : State) : Prop :=
  ∃ pc', Alone B s pc s' pc' ∧ instr B false s' pc' = some (.ret block, s', .idle)

namespace Alone

variable {B : Build} {s s₁ s' : State} {pc pc₁ pc' : Pc}

theorem trans (h : Alone B s pc s₁ pc₁) (h' : Alone B s₁ pc₁ s' pc') : Alone B s pc s' pc' := by
  induction h with
  | refl => exact h'
  | cons spurious hi _ ih => exact .cons spurious hi (ih h')

theorem onAllocHook (B : Build) (s : State) (block : Nat) :
    Alone B s (if B.hardening then .allocGuard block else .popRet block)
      (s.onAllocHook B block) (.popRet block) := by
  unfold State.onAllocHook
  cases hh : B.hardening with
  | false => exact .refl
  | true =>
    refine .cons false rfl (.cons false rfl (.cons false rfl ?_))
    simp only [if_true, onAlloc]
    split <;> exact .refl

/-- The three instructions of `on_free`. A double free ends the call. -/
theorem onFreeHook (B : Build) (s : State) (block : Nat) :
    Alone B s (if B.hardening then .freeGuard block else .pushLoad block)
      (s.onFreeHook B block).2 (if (s.onFreeHook B block).1 then .pushLoad block else .idle) := by
  unfold State.onFreeHook
  cases hh : B.hardening with
  | false => exact .refl
  | true =>
    refine .cons false rfl (.cons false rfl (.cons false rfl ?_))
    simp only [if_true, onFree]
    by_cases h1 : readGuard s.mem block s.pool.blockSize = guardFreed
    · simp only [if_pos h1, decide_eq_true h1]
      exact .refl
    · simp only [if_neg h1, decide_eq_false h1]
      by_cases h2 : readGuard s.mem block s.pool.blockSize ≠ guardAllocated
      · simp only [if_pos h2]
        exact .refl
      · simp only [if_neg h2]
        exact .refl

theorem popCas_fails {spurious : Bool} {expected : TaggedHead} {next : Nat}
    (h : spurious = true ∨ s.pool.head ≠ expected) :
    instr B spurious s (.popCas expected next) = some (.load, s, .popTest s.pool.head) := if_pos h

theorem pushCas_fails {spurious : Bool} {expected : TaggedHead} {block : Nat}
    (h : spurious = true ∨ s.pool.head ≠ expected) :
    instr B spurious s (.pushCas block expected) = some (.load, s, .pushWrite block s.pool.head) :=
  if_pos h

theorem popLoop (B : Build) (spurious : Nat) (expected : TaggedHead) (s : State) :
    Returns B s (.popTest expected) (LockFreePolicy.popLoop B spurious expected s).1
      (LockFreePolicy.popLoop B spurious expected s).2 := by
  induction spurious, expected using LockFreePolicy.popLoop.induct B s with
  | case1 spurious expected h0 =>
    rw [LockFreePolicy.popLoop, if_pos h0]
    exact ⟨_, .refl, by simp [instr, h0]⟩
  | case2 h0 =>
    rw [LockFreePolicy.popLoop, if_neg h0]
    simp only [if_true]
    refine ⟨.popRet s.pool.head.ptr, .cons false (if_neg h0) (.cons false (if_neg (by simp)) ?_),
      rfl⟩
    exact onAllocHook B _ _
  | case3 expected h0 hne ih =>
    obtain ⟨pc, hrun, hret⟩ := ih
    rw [LockFreePolicy.popLoop, if_neg h0]
    simp only [if_neg hne]
    exact ⟨pc, .cons false (if_neg h0) (.cons false (popCas_fails (Or.inr hne)) hrun), hret⟩
  | case4 expected h0 spurious ih =>
    obtain ⟨pc, hrun, hret⟩ := ih
    rw [LockFreePolicy.popLoop, if_neg h0]
    exact ⟨pc, .cons false (if_neg h0) (.cons true (popCas_fails (Or.inl rfl)) hrun), hret⟩

theorem pushLoop (B : Build) (block spurious : Nat) (expected : TaggedHead) (s : State) :
    Alone B s (.pushWrite block expected)
      (LockFreePolicy.pushLoop B block spurious expected s) .idle := by
  induction spurious, expected, s using LockFreePolicy.pushLoop.induct B block with
  | case1 s =>
    rw [LockFreePolicy.pushLoop]
    simp only [if_true]
    exact .cons false rfl (.cons false (if_neg (by simp [State.storeNext])) .refl)
  | case2 expected s stored hne ih =>
    rw [LockFreePolicy.pushLoop]
    simp only [if_neg hne]
    exact .cons false rfl (.cons false (pushCas_fails (Or.inr hne)) ih)
  | case3 expected s stored spurious ih =>
    rw [LockFreePolicy.pushLoop]
    exact .cons false rfl (.cons true (pushCas_fails (Or.inl rfl)) ih)

variable {τ : Type*} [DecidableEq τ]

theorem run (h : Alone B s pc s' pc') :
    ∀ {m : Machine τ} {t : τ}, m.pool = s → (m.threads t).pc = pc →
      ∃ es m', (lts B τ).Run m es m' ∧ m'.pool = s' ∧ (m'.threads t).pc = pc' := by
  induction h with
  | refl =>
    intro m t hs hpc
    exact ⟨[], m, .nil, hs, hpc⟩
  | @cons s s₁ s' pc pc₁ pc' label spurious hi _ ih =>
    intro m t hs hpc
    subst hs hpc
    have hafter : ((m.threads t).after m.cas pc₁ label).pc = pc₁ := by cases label <;> rfl
    obtain ⟨es, m', hrun, h1, h2⟩ := @ih
      (m.move t s₁ ((m.threads t).after m.cas pc₁ label) (label.count m.cas)) t rfl
      (by simpa [Machine.move] using hafter)
    exact ⟨_, m', .cons (.instr hi) hrun, h1, h2⟩

end Alone

section Calls

variable {τ : Type*} [DecidableEq τ] {B : Build} {m : Machine τ} {t : τ}

/-- A call of `pop_head` with no other thread in between. -/
theorem pop_alone (env : Env) (hidle : (m.threads t).pc = .idle) :
    ∃ es m', (lts B τ).Run m (.call t .pop :: es ++
        [.instr t (.ret (LockFreePolicy.popHead B env m.pool).1)]) m' ∧
      m'.pool = (LockFreePolicy.popHead B env m.pool).2 ∧ (m'.threads t).pc = .idle := by
  obtain ⟨pc, hrun, hret⟩ := Alone.popLoop B env.spurious m.pool.pool.head m.pool
  have hall : Alone B m.pool .popLoad _ pc := .cons false rfl hrun
  obtain ⟨es, m₁, hr, hpool, hpc⟩ := hall.run
    (m := m.move t m.pool { m.threads t with pc := .popLoad } m.cas) (t := t) rfl
    (by simp [Machine.move])
  rw [← hpool, ← hpc] at hret
  refine ⟨es, _, .snoc (.cons (.pop hidle) hr) (.instr hret), hpool, ?_⟩
  simp [Machine.move, Thread.after]

theorem push_alone (env : Env) {block : Nat} (hidle : (m.threads t).pc = .idle)
    (hheld : block ∈ (m.threads t).held) :
    ∃ es m', (lts B τ).Run m (.call t (.push block) :: es) m' ∧
      m'.pool = LockFreePolicy.pushHead B env m.pool block ∧ (m'.threads t).pc = .idle := by
  have hall : Alone B m.pool (if B.hardening then .freeGuard block else .pushLoad block)
      (LockFreePolicy.pushHead B env m.pool block) .idle := by
    have hhook := Alone.onFreeHook B m.pool block
    unfold LockFreePolicy.pushHead
    generalize m.pool.onFreeHook B block = result at hhook ⊢
    obtain ⟨enqueue, s⟩ := result
    cases enqueue with
    | false => exact hhook
    | true =>
      exact hhook.trans (.cons false rfl (Alone.pushLoop B block env.spurious s.pool.head s))
  obtain ⟨es, m', hr, hpool, hpc⟩ := hall.run
    (m := m.move t m.pool
      { m.threads t with
        pc := if B.hardening then .freeGuard block else .pushLoad block
        held := (m.threads t).held.erase block } m.cas) (t := t) rfl
    (by simp [Machine.move])
  exact ⟨es, m', .cons (.push hidle hheld) hr, hpool, hpc⟩

end Calls

end LockFree

end MemoryPool
