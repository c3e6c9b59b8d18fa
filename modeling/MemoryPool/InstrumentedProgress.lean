import MemoryPool.GrowthNotices
import MemoryPool.Lib.Progress

/-!
# MemoryPool.InstrumentedProgress

The retry loops of `InstrumentedPool` under interleaving: the one that raises `peak_live_`, the one
that raises `last_growths_` and the one that lowers `live_`. A loop goes round again only because
another thread has changed its counter since, and a call changes each counter at most once. So the
steps of a run are paid for by its calls, and only the pool's own mutex ever makes a thread wait.

A `fetch_add` on `live_` sets back the threads that are about to lower it, like a successful
compare-exchange.
-/

namespace MemoryPool

namespace Threaded

/-- A compare-exchange fails only if the comparison does. -/
def Strong {τ : Type*} (_ : Machine τ) : Event τ → Prop
  | .instr _ env => env.spurious = false
  | _ => True

instance {τ : Type*} (m : Machine τ) (e : Event τ) : Decidable (Strong m e) :=
  match e with
  | .instr _ env => inferInstanceAs (Decidable (env.spurious = false))
  | .alloc .. | .deallocate .. | .write .. => .isTrue trivial

/-- The steps left for an undisturbed thread, and one for each of `n` others that a change of a
counter sets back. -/
def Pc.rank (n : Nat) : Pc → Nat
  | .idle => 0
  | .ret _ => 1
  | .notifyGrew _ _ => 2
  | .raiseLast _ _ _ => n + 3
  | .loadLast _ _ => n + 4
  | .readGrowths _ => n + 5
  | .raisePeak _ _ _ => 2 * n + 6
  | .loadPeak _ _ => 2 * n + 7
  | .addLive _ => 3 * n + 8
  | .countAllocation _ => 3 * n + 9
  | .exhausted => 1
  | .countFailure => 2
  | .popUnlock _ => 3 * n + 10
  | .popTake => 3 * n + 11
  | .popGrow => 3 * n + 12
  | .pop => 3 * n + 13
  | .push _ => 1
  | .pushNull => 1
  | .lowerLive _ _ => n + 2
  | .loadLive _ => n + 3
  | .countDeallocation _ => n + 4

/-- The counters that the loops compare, `live_`, `peak_live_` and `last_growths_`. -/
structure Counters where
  live : Nat
  peakLive : Nat
  lastGrowths : Nat

def counters (ip : InstrumentedPool) : Counters := ⟨ip.live, ip.peakLive, ip.lastGrowths⟩

/-- A thread whose `expected` is out of date goes round its loop once more. -/
def again (now expected : Nat) : Nat := if now = expected then 0 else 1

theorem again_current (now : Nat) : again now now = 0 := if_pos rfl

theorem again_stale {now expected : Nat} (h : now ≠ expected) : again now expected = 1 := if_neg h

theorem again_le (now expected : Nat) : again now expected ≤ 1 := by
  unfold again
  split <;> omega

def Pc.again (c : Counters) : Pc → Nat
  | .raisePeak _ _ peak => Threaded.again c.peakLive peak
  | .raiseLast _ _ last => Threaded.again c.lastGrowths last
  | .lowerLive _ live => Threaded.again c.live live
  | _ => 0

def Pc.left (n : Nat) (c : Counters) (pc : Pc) : Nat := pc.rank n + pc.again c

theorem Pc.again_le (c : Counters) (pc : Pc) : pc.again c ≤ 1 := by
  unfold Pc.again
  split
  · exact Threaded.again_le _ _
  · exact Threaded.again_le _ _
  · exact Threaded.again_le _ _
  · omega

theorem Pc.left_le (n : Nat) (c : Counters) (pc : Pc) : pc.left n c ≤ 3 * n + 13 := by
  have h := pc.again_le c
  unfold Pc.left
  cases pc <;> simp only [Pc.rank, Pc.again] at h ⊢ <;> omega

theorem Pc.left_idle (n : Nat) (c : Counters) : Pc.idle.left n c = 0 := rfl

theorem popped_left (n block : Nat) (c : Counters) : (popped block).left n c ≤ 3 * n + 9 := by
  unfold popped
  split <;> simp only [Pc.left, Pc.rank, Pc.again] <;> omega

section Instr

variable {τ : Type*} {B : Build} {t : τ} {env : StepEnv} {ip : InstrumentedPool} {owner : Option τ}
  {pc : Pc} {o : Outcome τ}

/-- A step is paid for by the thread that takes it, and so is the setback of the others if it
changes one of the counters. -/
theorem instr_left (n : Nat) (h : instr B t env ip owner pc = some o)
    (hstrong : env.spurious = false) :
    ∃ setback, o.pc.left n (counters o.ip) + 1 + setback * n ≤ pc.left n (counters ip) ∧
      (counters o.ip = counters ip ∨ setback = 1) := by
  cases pc with
  | idle => cases h
  | pop =>
    refine ⟨0, ?_, ?_⟩
    · obtain ⟨-, rfl | rfl⟩ := instr_pop h
      · refine (Nat.add_le_add_right (Nat.add_le_add_right (popped_left n _ _) 1) _).trans ?_
        simp only [Pc.left, Pc.rank, Pc.again]
        omega
      · simp only [Pc.left, Pc.rank, Pc.again]
        omega
    · obtain ⟨-, rfl | rfl⟩ := instr_pop h <;> exact Or.inl rfl
  | popGrow =>
    simp only [instr] at h
    refine ⟨0, ?_, ?_⟩
    · (repeat' split at h) <;> cases h <;> simp only [Pc.left, Pc.rank, Pc.again] <;> omega
    · (repeat' split at h) <;> cases h <;> exact Or.inl rfl
  | popUnlock block =>
    cases h
    refine ⟨0, ?_, Or.inl rfl⟩
    refine (Nat.add_le_add_right (Nat.add_le_add_right (popped_left n _ _) 1) _).trans ?_
    simp only [Pc.left, Pc.rank, Pc.again]
    omega
  | addLive block =>
    cases h
    refine ⟨1, ?_, Or.inr rfl⟩
    simp only [Pc.left, Pc.rank, Pc.again]
    omega
  | raisePeak block live peak =>
    simp only [instr] at h
    split at h
    · split at h
      · -- another thread has changed the peak
        rename_i hne
        cases h
        have hstale : ip.peakLive ≠ peak := hne.resolve_left (by simp [hstrong])
        refine ⟨0, ?_, Or.inl rfl⟩
        simp only [Pc.left, Pc.rank, Pc.again, counters, again_current, again_stale hstale]
        omega
      · cases h
        refine ⟨1, ?_, Or.inr rfl⟩
        simp only [Pc.left, Pc.rank, Pc.again]
        omega
    · cases h
      refine ⟨0, ?_, Or.inl rfl⟩
      simp only [Pc.left, Pc.rank, Pc.again]
      omega
  | raiseLast block growths last =>
    simp only [instr] at h
    split at h
    · split at h
      · rename_i hne
        cases h
        have hstale : ip.lastGrowths ≠ last := hne.resolve_left (by simp [hstrong])
        refine ⟨0, ?_, Or.inl rfl⟩
        simp only [Pc.left, Pc.rank, Pc.again, counters, again_current, again_stale hstale]
        omega
      · cases h
        refine ⟨1, ?_, Or.inr rfl⟩
        simp only [Pc.left, Pc.rank, Pc.again]
        omega
    · cases h
      refine ⟨0, ?_, Or.inl rfl⟩
      simp only [Pc.left, Pc.rank, Pc.again]
      omega
  | lowerLive block live =>
    simp only [instr] at h
    split at h
    · split at h
      · rename_i hne
        cases h
        have hstale : ip.live ≠ live := hne.resolve_left (by simp [hstrong])
        refine ⟨0, ?_, Or.inl rfl⟩
        simp only [Pc.left, Pc.rank, Pc.again, counters, again_current, again_stale hstale]
        omega
      · cases h
        refine ⟨1, ?_, Or.inr rfl⟩
        simp only [Pc.left, Pc.rank, Pc.again]
        omega
    · cases h
      refine ⟨0, ?_, Or.inl rfl⟩
      simp only [Pc.left, Pc.rank, Pc.again]
      omega
  | popTake =>
    simp only [instr] at h
    split at h
    · cases h
    · cases h
      refine ⟨0, ?_, Or.inl rfl⟩
      simp only [Pc.left, Pc.rank, Pc.again]
      omega
  | push block =>
    simp only [instr] at h
    split at h <;> cases h
    refine ⟨0, ?_, Or.inl rfl⟩
    simp only [Pc.left, Pc.rank, Pc.again]
    omega
  | _ =>
    cases h
    refine ⟨0, ?_, Or.inl rfl⟩
    simp only [Pc.left, Pc.rank, Pc.again, counters, again_current]
    omega

end Instr

section System

variable {τ : Type*}

def Event.role : Event τ → Lts.Role τ
  | .alloc t _ | .deallocate t _ => .call t
  | .instr t _ => .own t
  | .write _ _ _ => .other

def Event.isCall (e : Event τ) : Bool := e.role.isCall

def Event.isStep (e : Event τ) : Bool := e.role.isOwn

variable [Fintype τ]

def Machine.left (m : Machine τ) (t : τ) : Nat :=
  (m.threads t).pc.left (Fintype.card τ - 1) (counters m.ip)

/-- The threads inside a call. -/
def Machine.busy (m : Machine τ) : Finset τ :=
  Finset.univ.filter fun t => (m.threads t).pc ≠ .idle

theorem Machine.left_sum_le (m : Machine τ) :
    ∑ t, m.left t ≤ (3 * Fintype.card τ + 10) * m.busy.card := by
  refine Lts.sum_le_busy (fun t ht => ?_) fun t => ?_
  · have hidle : (m.threads t).pc = .idle := by simpa [Machine.busy] using ht
    rw [Machine.left, hidle, Pc.left_idle]
  · have hpos : 0 < Fintype.card τ := Fintype.card_pos_iff.mpr ⟨t⟩
    have := (m.threads t).pc.left_le (Fintype.card τ - 1) (counters m.ip)
    unfold Machine.left
    omega

theorem charged [DecidableEq τ] (B : Build) : Lts.Charged ((lts B τ).guard Strong)
    (fun _ => True) Event.role Machine.left (3 * Fintype.card τ + 10) := by
  refine ⟨fun _ _ _ _ _ => trivial, ?_, ?_, ?_⟩
  · rintro m e m' t - ⟨-, hs⟩ hr
    have hpos : 0 < Fintype.card τ := Fintype.card_pos_iff.mpr ⟨t⟩
    have hcall : ∀ th, (m.threads t).pc = .idle → (m.move t th).left t ≤
        m.left t + (3 * Fintype.card τ + 10) ∧ ∀ u ≠ t, (m.move t th).left u ≤ m.left u := by
      intro th hidle
      refine ⟨?_, fun u hu => by simp [Machine.left, Machine.move, hu]⟩
      have := th.pc.left_le (Fintype.card τ - 1) (counters m.ip)
      simp only [Machine.left, Machine.move, Function.update_self, hidle, Pc.left_idle]
      omega
    cases hs with
    | @alloc t' verb hidle =>
      obtain rfl : t' = t := by simpa [Event.role] using hr
      exact hcall _ hidle
    | @deallocate t' block hidle =>
      obtain rfl : t' = t := by simpa [Event.role] using hr
      exact hcall _ hidle
    | instr _ => cases hr
    | write _ => cases hr
  · rintro m e m' t - ⟨hG, hs⟩ hr
    cases hs with
    | alloc _ => cases hr
    | deallocate _ => cases hr
    | write _ => cases hr
    | @instr t' env o h =>
      obtain rfl : t' = t := by simpa [Event.role] using hr
      obtain ⟨setback, hleft, hsame⟩ := instr_left (Fintype.card τ - 1) h hG
      refine ⟨setback, ?_, fun u hu => ?_⟩
      · unfold Machine.left
        rw [Machine.after_pc]
        exact hleft
      · unfold Machine.left
        rw [Machine.after_other _ _ hu]
        rcases hsame with hsame | rfl
        · show (m.threads u).pc.left _ (counters o.ip) ≤ _
          rw [hsame]
          exact Nat.le_add_right _ _
        · have := (m.threads u).pc.again_le (counters (m.after t' o).ip)
          simp only [Pc.left]
          omega
  · rintro m e m' - ⟨-, hs⟩ hr u
    cases hs with
    | alloc _ => cases hr
    | deallocate _ => cases hr
    | instr _ => cases hr
    | write _ => exact le_refl _

end System

/-! ## Who can go on -/

section Waiting

variable {τ : Type*} {B : Build} {m m' : Machine τ} {t : τ}

/-- The pool is there, and the mutex is held by a thread in the critical section of a pop. -/
structure Ready (B : Build) (m : Machine τ) : Prop where
  pool : m.ip.pool.isSome = true
  exclusive : Exclusive m
  unlocked : B.threadSafety ≠ .mutex → m.owner = none

theorem memoryPoolAlloc_isSome {env : Env} {pool : Option State} (h : pool.isSome = true) :
    (memoryPoolAlloc B env pool).2.isSome = true := by
  obtain ⟨s, rfl⟩ := Option.isSome_iff_exists.mp h
  rfl

theorem memoryPoolFree_isSome {env : Env} {pool : Option State} {block : Nat}
    (h : pool.isSome = true) : (memoryPoolFree B env pool block).isSome = true := by
  obtain ⟨s, rfl⟩ := Option.isSome_iff_exists.mp h
  simp only [memoryPoolFree, freeSkeleton]
  split
  · rfl
  · split <;> rfl

theorem instr_ready {env : StepEnv} {ip : InstrumentedPool} {owner : Option τ} {pc : Pc}
    {o : Outcome τ} (hpool : ip.pool.isSome = true) (h : instr B t env ip owner pc = some o) :
    o.ip.pool.isSome = true ∧ (B.threadSafety ≠ .mutex → owner = none → o.owner = none) := by
  cases pc with
  | pop =>
    simp only [instr] at h
    split at h
    · cases h
    · split at h
      · cases h
        exact ⟨memoryPoolAlloc_isSome hpool, fun _ _ => rfl⟩
      · split at h
        · rename_i hts _
          cases h
          exact ⟨hpool, fun hne _ => absurd hts hne⟩
        · cases h
  | push block =>
    simp only [instr] at h
    split at h <;> cases h
    exact ⟨memoryPoolFree_isSome hpool, fun _ _ => rfl⟩
  | pushNull =>
    cases h
    exact ⟨memoryPoolFree_isSome hpool, fun _ h => h⟩
  | popUnlock block =>
    cases h
    exact ⟨hpool, fun _ _ => rfl⟩
  | popTake =>
    simp only [instr] at h
    split at h <;> cases h
    exact ⟨rfl, fun _ h => h⟩
  | _ =>
    simp only [instr] at h
    (repeat' split at h) <;> cases h <;>
      first | exact ⟨hpool, fun _ h => h⟩ | exact ⟨rfl, fun _ h => h⟩

theorem Ready.start (s : State) (observers : List Nat) :
    Ready B (Machine.start s observers : Machine τ) :=
  ⟨rfl, .start s observers, fun _ => rfl⟩

variable [DecidableEq τ]

theorem Ready.step {e : Event τ} (R : Ready B m) (h : Step B m e m') : Ready B m' := by
  have X := R.exclusive.step h
  cases h with
  | alloc _ => exact ⟨R.pool, X, R.unlocked⟩
  | deallocate _ => exact ⟨R.pool, X, R.unlocked⟩
  | write _ => exact ⟨rfl, X, R.unlocked⟩
  | instr h =>
    obtain ⟨hpool, howner⟩ := instr_ready R.pool h
    exact ⟨hpool, X, fun hne => howner hne (R.unlocked hne)⟩

/-- Thread `t` has a next step, and its compare-exchange fails only if the comparison does. -/
def CanGo (B : Build) (m : Machine τ) (t : τ) : Prop :=
  ∃ env m', ((lts B τ).guard Strong).step m (.instr t env) m'

def calmEnv : StepEnv := ⟨⟨none, none, 0⟩, false, true⟩

theorem canGo_of_instr (h : (instr B t calmEnv m.ip m.owner (m.threads t).pc).isSome = true) :
    CanGo B m t := by
  obtain ⟨o, ho⟩ := Option.isSome_iff_exists.mp h
  exact ⟨calmEnv, _, rfl, .instr ho⟩

theorem Ready.canGo_critical (R : Ready B m) (hc : (m.threads t).pc.critical = true) :
    CanGo B m t := by
  obtain ⟨s, hs⟩ := Option.isSome_iff_exists.mp R.pool
  refine canGo_of_instr ?_
  cases hpc : (m.threads t).pc with
  | popGrow =>
    simp only [instr, hs]
    (repeat' split) <;> rfl
  | popTake => simp only [instr, hs, Option.isSome_some]
  | popUnlock block => rfl
  | _ => rw [hpc] at hc; cases hc

/-- A thread inside a call goes on, or waits for the thread that holds the mutex. -/
theorem Ready.canGo (R : Ready B m) (ht : (m.threads t).pc ≠ .idle) : CanGo B m t ∨
    B.threadSafety = .mutex ∧ ∃ u, m.owner = some u ∧ CanGo B m u := by
  cases ho : m.owner with
  | some u =>
    have hmutex : B.threadSafety = .mutex := by
      by_contra hne
      rw [R.unlocked hne] at ho
      cases ho
    exact Or.inr ⟨hmutex, u, rfl, R.canGo_critical ((R.exclusive u).mpr ho)⟩
  | none =>
    left
    cases hpc : (m.threads t).pc with
    | idle => exact absurd hpc ht
    | popGrow => exact R.canGo_critical (by rw [hpc]; rfl)
    | popTake => exact R.canGo_critical (by rw [hpc]; rfl)
    | popUnlock block => exact R.canGo_critical (by rw [hpc]; rfl)
    | _ =>
      refine canGo_of_instr ?_
      simp only [hpc, ho, instr, calmEnv, if_true]
      (repeat' split) <;> rfl

end Waiting

section Theorems

variable {τ : Type*} [Fintype τ] [DecidableEq τ] {B : Build} {s : State} {observers : List Nat}
  {es : List (Event τ)} {m : Machine τ}

/-- Any number of threads on an `InstrumentedPool`, any interleaving, exchanges that fail only if
the comparison does. A run takes at most `3 T + 10` steps for each of its calls, `T` the number of
threads. A thread inside a call has a next step, or waits for a thread that holds the mutex of a
`MUTEX` build and has one. And whatever state was reached, the calls in progress are completed
within `3 T + 10` steps for each of them. -/
theorem instrumented_progress
    (hrun : ((lts B τ).guard Strong).Run (Machine.start s observers) es m) :
    es.countP Event.isStep ≤ (3 * Fintype.card τ + 10) * es.countP Event.isCall ∧
    (∀ t, (m.threads t).pc ≠ .idle → CanGo B m t ∨
      B.threadSafety = .mutex ∧ ∃ u, m.owner = some u ∧ CanGo B m u) ∧
    ∀ es' m', ((lts B τ).guard Strong).Run m es' m' → (∀ e ∈ es', e.isCall = false) →
      es'.countP Event.isStep ≤ (3 * Fintype.card τ + 10) * m.busy.card := by
  have R : Ready B m := hrun.invariant (fun _ _ _ R h => R.step h.2) (.start s observers)
  refine ⟨?_, fun t ht => R.canGo ht, fun es' m' hrun' hno => ?_⟩
  · have h := (charged B).run hrun trivial
    have hzero : ∑ t, (Machine.start s observers : Machine τ).left t = 0 :=
      Finset.sum_eq_zero fun t _ => Pc.left_idle _ _
    rw [hzero] at h
    exact (Nat.le_add_right _ _).trans h
  · exact ((charged B).run_quiet hrun' trivial hno).trans m.left_sum_le

theorem instrumented_progress_x64 : ∃ m : Machine Bool, (m.threads true).held = [0x2000] ∧
    behindSchedule.countP Event.isStep ≤ 16 * behindSchedule.countP Event.isCall ∧
    ∀ t, (m.threads t).pc ≠ .idle → CanGo (Build.x64 false .mutex) m t ∨
      (Build.x64 false .mutex).threadSafety = .mutex ∧
        ∃ u, m.owner = some u ∧ CanGo (Build.x64 false .mutex) m u := by
  have h : (Lts.script (Lts.only Strong (exec (Build.x64 false .mutex)))
      (Machine.start (firstClient (Build.x64 false .mutex)).pool [7]) behindSchedule).map
        (fun r => (r.1, (r.2.threads true).held)) = some (behindSchedule, [0x2000]) := by
    decide +kernel
  obtain ⟨m, hrun, hm⟩ := Lts.script_run
    (Lts.only_step fun m a e m' h => (exec_step m a e m' h).2)
    (fun m : Machine Bool => (m.threads true).held) h
  obtain ⟨h1, h2, -⟩ := instrumented_progress hrun
  exact ⟨m, hm, h1, h2⟩

end Theorems

end Threaded

end MemoryPool
