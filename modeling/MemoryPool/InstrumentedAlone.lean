import MemoryPool.InstrumentedCorrect
import MemoryPool.InstrumentedThreads

/-!
# MemoryPool.InstrumentedAlone

One thread with the decorator to itself: step by step it computes what `allocate`, `try_allocate`
and `deallocate` compute in one go, whether the pop is one step or the steps of its critical
section.

* `Alone.popWhole`, `Alone.popSplit`: the pop in either granularity.
* `Alone.recordAllocation`, `Alone.notifyIfGrew`, `Alone.deallocate`: what is around the pool.
* `allocate_alone`, `deallocate_alone`: whole calls, as runs of the machine.
-/

namespace MemoryPool

namespace Threaded

open InstrumentedPool

/-- Steps of one thread with no other in between, up to the return. -/
inductive Alone {τ : Type*} (B : Build) (t : τ) (whole : Bool) :
    InstrumentedPool → Option τ → Pc → InstrumentedPool → Option τ → Pc → Prop where
  | refl {ip : InstrumentedPool} {owner : Option τ} {pc : Pc} :
      Alone B t whole ip owner pc ip owner pc
  | cons {ip ip' : InstrumentedPool} {owner owner' : Option τ} {pc pc' : Pc} {o : Outcome τ}
      (env : StepEnv) : env.whole = whole → instr B t env ip owner pc = some o →
      o.returned = none → Alone B t whole o.ip o.owner o.pc ip' owner' pc' →
      Alone B t whole ip owner pc ip' owner' pc'

namespace Alone

variable {τ : Type*} {B : Build} {t : τ} {whole : Bool} {ip ip₁ ip' : InstrumentedPool}
  {owner owner₁ owner' : Option τ} {pc pc₁ pc' : Pc} {block : Nat}

theorem trans (h : Alone B t whole ip owner pc ip₁ owner₁ pc₁)
    (h' : Alone B t whole ip₁ owner₁ pc₁ ip' owner' pc') :
    Alone B t whole ip owner pc ip' owner' pc' := by
  induction h with
  | refl => exact h'
  | cons env hw hi h0 _ ih => exact .cons env hw hi h0 (ih h')

theorem popWhole (env : Env) {s : State} (hs : ip.pool = some s) :
    Alone B t true ip none .pop { ip with pool := some (popHead B env s).2 } none
      (popped (popHead B env s).1) := by
  have h : Pool.tryAllocate B env ip.pool =
      ((popHead B env s).1, some (popHead B env s).2) := by
    rw [hs]
    rfl
  have hi : instr B t ⟨env, false, true⟩ ip none .pop = some
      { ip := { ip with pool := some (popHead B env s).2 }, owner := none,
        pc := popped (popHead B env s).1,
        label := if (popHead B env s).1 = 0 then .quiet else .took } := by
    simp only [instr, if_true, h]
  exact .cons _ rfl hi rfl .refl

theorem popHead_mutex (hB : B.threadSafety = .mutex) (env : Env) {s : State}
    (hu : s.pool.mutex = false) : popHead B env s = popUnlocked B env s := by
  have h := popUnlocked_setMutex B env s false
  rw [State.setMutex_free hu] at h
  simp only [popHead, hB, MutexPolicy.popHead_eq]
  exact h.symm

/-- The critical section of `MutexPolicy::pop_head`. -/
theorem popSplit (hB : B.threadSafety = .mutex) (env : Env) {s : State} (hs : ip.pool = some s)
    (hu : s.pool.mutex = false) :
    Alone B t false ip none .pop { ip with pool := some (popHead B env s).2 } none
      (popped (popHead B env s).1) := by
  have hlock : instr B t ⟨env, false, false⟩ ip none .pop = some
      { ip := ip, owner := some t, pc := .popGrow } := by
    simp [instr, hB, hs]
  have htake : ∀ (ip : InstrumentedPool) (s : State), ip.pool = some s →
      Alone B t false ip (some t) .popTake { ip with pool := some (takeHead B s).2 } none
        (popped (takeHead B s).1) := by
    intro ip s hs
    have hi : instr B t ⟨env, false, false⟩ ip (some t) .popTake = some
        { ip := { ip with pool := some (takeHead B s).2 }, owner := some t,
          pc := .popUnlock (takeHead B s).1, label := .took } := by
      simp only [instr, hs]
    exact .cons _ rfl hi rfl (.cons ⟨env, false, false⟩ rfl rfl rfl .refl)
  rw [popHead_mutex hB env hu]
  refine .cons _ rfl hlock rfl ?_
  unfold popUnlocked
  by_cases h0 : s.pool.head.ptr = 0
  · rw [if_pos h0]
    by_cases hf : s.pool.growFactor < 2
    · have hi : instr B t ⟨env, false, false⟩ ip (some t) .popGrow = some
          { ip := ip, owner := some t, pc := .popUnlock 0 } := by
        simp only [instr, hs, if_pos h0, if_pos hf]
      rw [if_pos hf]
      have hip : { ip with pool := some s } = ip := by rw [← hs]
      refine .cons _ rfl hi rfl (.cons ⟨env, false, false⟩ rfl rfl rfl ?_)
      simp only [Bool.not_false, if_true, hip]
      exact .refl
    · rw [if_neg hf]
      have hi : instr B t ⟨env, false, false⟩ ip (some t) .popGrow = some
          { ip := { ip with pool := some (growPool B env s).2 }, owner := some t,
            pc := if (growPool B env s).1 then .popTake else .popUnlock 0 } := by
        simp only [instr, hs, if_pos h0, if_neg hf]
      refine .cons _ rfl hi rfl ?_
      generalize growPool B env s = r
      obtain ⟨ready, s'⟩ := r
      cases ready with
      | false => exact .cons ⟨env, false, false⟩ rfl rfl rfl .refl
      | true => exact htake { ip with pool := some s' } s' rfl
  · have hi : instr B t ⟨env, false, false⟩ ip (some t) .popGrow = some
        { ip := ip, owner := some t, pc := .popTake } := by
      simp only [instr, hs, if_neg h0]
    rw [if_neg h0]
    exact .cons _ rfl hi rfl (htake ip s hs)

/-! ## Around the pool -/

theorem recordFailure (ip : InstrumentedPool) (owner : Option τ) (env : Env) :
    Alone B t whole ip owner .countFailure (ip.recordFailure B) owner .idle :=
  .cons ⟨env, false, whole⟩ rfl rfl rfl (.cons ⟨env, false, whole⟩ rfl rfl rfl .refl)

theorem recordAllocation (ip : InstrumentedPool) (owner : Option τ) (env : CallEnv)
    (block : Nat) :
    Alone B t whole ip owner (.countAllocation block) (ip.recordAllocation B env) owner
      (.readGrowths block) := by
  let e : StepEnv := ⟨env.pool, false, whole⟩
  rw [recordAllocation_eq]
  refine .cons e rfl rfl rfl (.cons e rfl rfl rfl (.cons e rfl rfl rfl ?_))
  by_cases h : ip.peakLive < B.add ip.live 1
  · rw [Nat.max_eq_right h.le]
    exact .cons e rfl ((if_pos h).trans (if_neg (by simp [e]))) rfl .refl
  · rw [Nat.max_eq_left (Nat.le_of_not_lt h)]
    exact .cons e rfl (if_neg h) rfl .refl

theorem notifyIfGrew (ip : InstrumentedPool) (owner : Option τ) (env : CallEnv) (block : Nat) :
    Alone B t whole ip owner (.readGrowths block) (ip.notifyIfGrew env) owner (.ret block) := by
  let e : StepEnv := ⟨env.pool, false, whole⟩
  rw [notifyIfGrew_eq]
  refine .cons e rfl rfl rfl (.cons e rfl rfl rfl ?_)
  by_cases h : ip.lastGrowths < memoryPoolGrowths ip.pool
  · rw [if_pos h]
    refine .cons e rfl ((if_pos h).trans (if_neg (by simp [e]))) rfl ?_
    exact .cons e rfl rfl rfl .refl
  · rw [if_neg h]
    exact .cons e rfl (if_neg h) rfl .refl

theorem deallocate (ip : InstrumentedPool) (env : CallEnv) (block : Nat) :
    Alone B t whole ip none (if block = 0 then .pushNull else .countDeallocation block)
      (ip.deallocate B env block) none .idle := by
  let e : StepEnv := ⟨env.pool, false, whole⟩
  rw [deallocate_eq]
  by_cases h0 : block = 0
  · subst h0
    simp only [if_true]
    exact .cons e rfl rfl rfl .refl
  · simp only [if_neg h0]
    refine .cons e rfl rfl rfl (.cons e rfl rfl rfl ?_)
    by_cases hl : 0 < ip.live
    · rw [if_pos hl]
      refine .cons e rfl ((if_pos hl).trans (if_neg (by simp [e]))) rfl ?_
      exact .cons e rfl rfl rfl .refl
    · rw [if_neg hl]
      refine .cons e rfl (if_neg hl) rfl ?_
      exact .cons e rfl rfl rfl .refl

/-! ## Runs -/

variable [DecidableEq τ]

theorem run (h : Alone B t whole ip owner pc ip' owner' pc') :
    ∀ {m : Machine τ}, m.ip = ip → m.owner = owner → (m.threads t).pc = pc →
      ∃ es m', (lts B τ).Run m es m' ∧ (∀ e ∈ es, ∃ env, e = .instr t env ∧ env.whole = whole) ∧
        m'.ip = ip' ∧ m'.owner = owner' ∧ m'.threads t = ⟨pc', (m.threads t).held⟩ := by
  induction h with
  | refl =>
    intro m hip howner hpc
    exact ⟨[], m, .nil, by simp, hip, howner, by rw [← hpc]⟩
  | @cons _ _ _ _ _ _ o env hw hi h0 _ ih =>
    intro m hip howner hpc
    subst hip howner hpc
    have hthread : (m.after t o).threads t = ⟨o.pc, (m.threads t).held⟩ := by
      simp [Machine.after, Thread.after, h0]
    obtain ⟨es, m', hrun, hes, h1, h2, h3⟩ := @ih (m.after t o) rfl rfl (by rw [hthread])
    refine ⟨.instr t env :: es, m', .cons (.instr hi) hrun, ?_, h1, h2, ?_⟩
    · intro e he
      rcases List.mem_cons.mp he with rfl | he
      · exact ⟨env, rfl, hw⟩
      · exact hes e he
    · rw [h3, hthread]

end Alone

section Calls

variable {τ : Type*} [DecidableEq τ] {B : Build} {m : Machine τ} {t : τ}

/-- A call of `allocate` or `try_allocate` with no other thread in between. -/
theorem allocate_alone (env : CallEnv) (verb : Session.Verb) (whole : Bool) {s : State}
    (hs : m.ip.pool = some s)
    (hpop : whole = false → B.threadSafety = .mutex ∧ s.pool.mutex = false)
    (hidle : (m.threads t).pc = .idle) (hfree : m.owner = none) {block : Nat}
    {ip' : InstrumentedPool} (h : verb.run B env m.ip = (block, ip')) :
    ∃ es m', (lts B τ).Run m (.alloc t verb :: es) m' ∧
      (∀ e ∈ es, ∃ env, e = .instr t env ∧ env.whole = whole) ∧ m'.ip = ip' ∧ m'.owner = none ∧
      m'.threads t =
        ⟨.idle, if block = 0 then (m.threads t).held else block :: (m.threads t).held⟩ := by
  have hcall : (lts B τ).step m (.alloc t verb) (m.move t { m.threads t with pc := .pop }) :=
    .alloc hidle
  have hrest : Alone B t whole m.ip none .pop
      { m.ip with pool := some (popHead B env.pool s).2 } none
      (popped (popHead B env.pool s).1) := by
    cases whole with
    | true => exact .popWhole env.pool hs
    | false => exact .popSplit (hpop rfl).1 env.pool hs (hpop rfl).2
  rw [Session.Verb.run_eq hs] at h
  by_cases h0 : (popHead B env.pool s).1 = 0
  · rw [if_pos h0] at h
    cases h
    rw [popped, if_pos h0] at hrest
    obtain ⟨es, m', hrun, hes, h1, h2, h3⟩ := (hrest.trans (.recordFailure _ none env.pool)).run
      (m := m.move t { m.threads t with pc := .pop }) rfl hfree (by simp [Machine.move])
    refine ⟨es, m', .cons hcall hrun, hes, h1, h2, ?_⟩
    rw [h3, if_pos rfl]
    simp [Machine.move]
  · rw [if_neg h0] at h
    cases h
    rw [popped, if_neg h0] at hrest
    obtain ⟨es, m', hrun, hes, h1, h2, h3⟩ :=
      ((hrest.trans (.recordAllocation _ none env _)).trans (.notifyIfGrew _ none env _)).run
        (m := m.move t { m.threads t with pc := .pop }) rfl hfree (by simp [Machine.move])
    let last : StepEnv := ⟨env.pool, false, whole⟩
    let o : Outcome τ := { ip := m'.ip, owner := m'.owner, pc := .idle,
                           returned := some (popHead B env.pool s).1 }
    have hret : instr B t last m'.ip m'.owner (m'.threads t).pc = some o := by
      rw [h3]
      rfl
    have hthread : (m'.after t o).threads t = (m'.threads t).after o := by simp [Machine.after]
    have hstep : (lts B τ).step m' (.instr t last) (m'.after t o) := .instr hret
    refine ⟨es ++ [.instr t last], m'.after t o, .cons hcall (.snoc hrun hstep), ?_, h1, h2, ?_⟩
    · intro e he
      rcases List.mem_append.mp he with he | he
      · exact hes e he
      · obtain rfl := List.mem_singleton.mp he
        exact ⟨last, rfl, rfl⟩
    · rw [hthread, h3, if_neg h0]
      simp [Thread.after, Machine.move, o]

theorem deallocate_alone (env : CallEnv) (block : Nat) (hidle : (m.threads t).pc = .idle)
    (hfree : m.owner = none) :
    ∃ es m', (lts B τ).Run m (.deallocate t block :: es) m' ∧
      (∀ e ∈ es, ∃ env, e = .instr t env) ∧ m'.ip = m.ip.deallocate B env block ∧
      m'.owner = none ∧ m'.threads t = ⟨.idle, (m.threads t).held.erase block⟩ := by
  have hcall : (lts B τ).step m (.deallocate t block)
      (m.move t ⟨if block = 0 then .pushNull else .countDeallocation block,
        (m.threads t).held.erase block⟩) := .deallocate hidle
  have hall : Alone B t true m.ip none _ _ none .idle := .deallocate m.ip env block
  obtain ⟨es, m', hrun, hes, h1, h2, h3⟩ := hall.run
      (m := m.move t ⟨if block = 0 then .pushNull else .countDeallocation block,
        (m.threads t).held.erase block⟩) rfl hfree (by simp [Machine.move])
  refine ⟨es, m', .cons hcall hrun, ?_, h1, h2, ?_⟩
  · intro e he
    obtain ⟨env, he, -⟩ := hes e he
    exact ⟨env, he⟩
  · rw [h3]
    simp [Machine.move]

end Calls

end Threaded

end MemoryPool
