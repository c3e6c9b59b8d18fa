import MemoryPool.DiagnosticsCorrect
import MemoryPool.LockFreeMemory
import MemoryPool.MutexSerial

/-!
# MemoryPool.Drain

What threads that free nothing get out of a pool, whatever they have done to it before.

A drain starts when no thread is inside a call. Until the next free the list only gets shorter, but
for growths, so that once a call has returned null no block is left that nobody has.

* `LockFree.Draining`, `Mutex.Draining`: what a drain keeps.
* `lockfree_drain`, `mutex_drain`: when it ends, every slot has been vended to one thread or was
  held from before.
-/

namespace MemoryPool

namespace LockFree

open LinkedList

/-- Outside the pool functions, or in `pop_head`. -/
def Pc.popping : Pc → Bool
  | .freeGuard _ | .freePoison _ _ | .freeStamp _ _ => false
  | .pushLoad _ | .pushWrite _ _ | .pushCas _ _ => false
  | _ => true

section Drain

variable {τ : Type*} [DecidableEq τ]

def Event.vended (t : τ) : Event τ → Option Nat
  | .instr u (.ret block) => if u = t ∧ block ≠ 0 then some block else none
  | _ => none

/-- The blocks that a thread's pops have returned, the last first. -/
def vended (t : τ) (es : List (Event τ)) : List Nat := (es.filterMap (Event.vended t)).reverse

theorem vended_snoc (t : τ) (es : List (Event τ)) (e : Event τ) :
    vended t (es ++ [e]) = (e.vended t).toList ++ vended t es :=
  Lts.filterMap_reverse_snoc (Event.vended t) es e

/-- What holds of `m` after a run `es` from `m₀` in which nobody pushes. -/
structure Draining (m₀ : Machine τ) (es : List (Event τ)) (m : Machine τ) : Prop where
  popping : ∀ t, (m.threads t).pc.popping = true
  held : ∀ t, (m.threads t).held = vended t es ++ (m₀.threads t).held
  empty : ((∃ t e, (m.threads t).pc = .popTest e ∧ e.ptr = 0) ∨ ∃ t, .instr t (.ret 0) ∈ es) →
    m.pool.pool.head.ptr = 0

variable {B : Build} {others : List (Nat × Region)} {reports : List Report} {p : PoolStruct}
  {m₀ m m' : Machine τ} {free : List Nat} {es : List (Event τ)} {t : τ}

/-- An instruction of a pop: what it returns as null it has loaded as null, and only an exchange
changes `head_`, which is then not null. -/
theorem instr_popping {spurious : Bool} {s s' : State} {pc pc' : Pc} {label : Label}
    (h : instr B spurious s pc = some (label, s', pc')) (hpc : pc.popping = true) :
    pc'.popping = true ∧ (∀ e, pc' = .popTest e → s'.pool.head = e) ∧
      (label = .ret 0 → (∃ e, pc = .popTest e ∧ e.ptr = 0) ∨ pc = .popRet 0) ∧
      (s'.pool.head = s.pool.head ∨ ∃ next, pc = .popCas s.pool.head next) := by
  cases pc with
  | popTest expected =>
    simp only [instr] at h
    split at h
    · rename_i h0
      cases h
      exact ⟨rfl, (fun e he => by cases he), fun _ => Or.inl ⟨expected, rfl, h0⟩, Or.inl rfl⟩
    · cases h
      exact ⟨rfl, (fun e he => by cases he), (fun hl => by cases hl), Or.inl rfl⟩
  | popCas expected next =>
    simp only [instr] at h
    split at h
    · cases h
      refine ⟨rfl, fun e he => ?_, (fun hl => by cases hl), Or.inl rfl⟩
      cases he
      rfl
    · rename_i hcas
      obtain rfl : s.pool.head = expected := not_not.mp fun hne => hcas (Or.inr hne)
      cases h
      refine ⟨?_, fun e he => ?_, (fun hl => by cases hl), Or.inr ⟨next, rfl⟩⟩
      · split <;> rfl
      · split at he <;> cases he
  | popLoad =>
    cases h
    refine ⟨rfl, fun e he => ?_, (fun hl => by cases hl), Or.inl rfl⟩
    cases he
    rfl
  | popRet block =>
    cases h
    refine ⟨rfl, (fun e he => by cases he), fun hl => ?_, Or.inl rfl⟩
    cases hl
    exact Or.inr rfl
  | allocGuard block =>
    simp only [instr, Option.some.injEq, Prod.mk.injEq] at h
    obtain ⟨rfl, rfl, rfl⟩ := h
    exact ⟨rfl, (fun e he => by cases he), (fun hl => by cases hl), Or.inl rfl⟩
  | allocPoison block =>
    simp only [instr, Option.some.injEq, Prod.mk.injEq] at h
    obtain ⟨rfl, rfl, rfl⟩ := h
    exact ⟨rfl, (fun e he => by cases he), (fun hl => by cases hl), Or.inl rfl⟩
  | allocStamp block =>
    cases h
    exact ⟨rfl, (fun e he => by cases he), (fun hl => by cases hl), Or.inl rfl⟩
  | idle => cases h
  | _ => cases hpc

theorem Draining.start (hidle : ∀ t, (m₀.threads t).pc = .idle) : Draining m₀ [] m₀ := by
  refine ⟨fun t => by rw [hidle t]; rfl, fun t => rfl, ?_⟩
  rintro (⟨t, e, he, -⟩ | ⟨t, ht⟩)
  · rw [hidle t] at he
    cases he
  · cases ht

theorem Draining.step {e : Event τ} (D : Draining m₀ es m) (I : Inv B others reports p m free)
    (h : Step B m e m') (hpush : ∀ t block, e ≠ .call t (.push block)) :
    Draining m₀ (es ++ [e]) m' := by
  cases h with
  | push _ _ => exact absurd rfl (hpush _ _)
  | @pop u hidle =>
    refine ⟨Machine.forall_move (fun _ th => th.pc.popping = true) rfl fun t _ => D.popping t,
      Machine.forall_move (fun t th => th.held = vended t _ ++ (m₀.threads t).held)
        (by simpa [vended_snoc, Event.vended] using D.held u)
        (fun t _ => by simpa [vended_snoc, Event.vended] using D.held t), ?_⟩
    rintro (⟨t, e, he, h0⟩ | ⟨t, ht⟩)
    · revert t
      refine Machine.forall_move (fun _ th => th.pc = .popTest e → _) (fun he => by cases he)
        fun t _ he => D.empty (Or.inl ⟨t, e, he, h0⟩)
    · exact D.empty (Or.inr ⟨t, by simpa using ht⟩)
  | write _ _ _ =>
    refine ⟨D.popping, fun t => ?_, ?_⟩
    · rw [vended_snoc]
      exact D.held t
    · rintro (ht | ⟨t, ht⟩)
      · exact D.empty (Or.inl ht)
      · exact D.empty (Or.inr ⟨t, by simpa using ht⟩)
  | @instr u spurious label s pc h =>
    obtain ⟨hpop, hload, hnull, hhead⟩ := instr_popping h (D.popping u)
    refine ⟨Machine.forall_move (fun _ th => th.pc.popping = true) (by cases label <;> exact hpop)
        fun t _ => D.popping t,
      Machine.forall_move (fun t th => th.held = vended t _ ++ (m₀.threads t).held) ?_
        fun t ht => ?_, ?_⟩
    · rw [vended_snoc, List.append_assoc, ← D.held u]
      cases label with
      | ret block => by_cases h0 : block = 0 <;> simp [Thread.after, Event.vended, h0]
      | _ => simp [Thread.after, Event.vended]
    · rw [vended_snoc, List.append_assoc, ← D.held t]
      cases label <;> simp [Event.vended, Ne.symm ht]
    · -- a list that a thread has seen empty stays so
      have hstay : m.pool.pool.head.ptr = 0 → s.pool.head.ptr = 0 := by
        intro h0
        rcases hhead with hsame | ⟨next, hpc⟩
        · rw [hsame, h0]
        · have hP := (I.threads u).here
          rw [hpc] at hP
          exact absurd h0 hP.1
      show _ → s.pool.head.ptr = 0
      rintro (⟨t, e, he, h0⟩ | ⟨t, ht⟩)
      · revert t
        refine Machine.forall_move (fun _ th => th.pc = .popTest e → _) (fun he => ?_)
          fun t _ he => hstay (D.empty (Or.inl ⟨t, e, he, h0⟩))
        have hpc : pc = .popTest e := by cases label <;> exact he
        rw [hload e hpc, h0]
      · rcases List.mem_append.mp ht with ht | ht
        · exact hstay (D.empty (Or.inr ⟨t, ht⟩))
        · obtain ⟨rfl, rfl⟩ : t = u ∧ label = .ret 0 := by simpa [eq_comm] using ht
          rcases hnull rfl with ⟨e, hpc, h0⟩ | hpc
          · exact hstay (D.empty (Or.inl ⟨t, e, hpc, h0⟩))
          · have hslot : 0 ∈ m.pool.pool.slots B := by
              refine I.shares.owned_mem (t := t) (List.mem_append_left _ ?_)
              rw [hpc]
              exact List.mem_cons_self ..
            exact absurd rfl (I.layout.slot_spec hslot).1

theorem Draining.run (I : Inv B others reports p m₀ free) (hidle : ∀ t, (m₀.threads t).pc = .idle)
    (h : ((lts B τ).guard (InWindow B)).Run m₀ es m)
    (hpush : ∀ t block, .call t (.push block) ∉ es) : Draining m₀ es m := by
  induction h with
  | nil => exact .start hidle
  | @snoc m₁ m₂ es e hrun hs ih =>
    obtain ⟨⟨free₁, I₁, -⟩, -⟩ := I.run hrun
    refine (ih fun t block he => hpush t block (List.mem_append_left _ he)).step I₁ hs.2 ?_
    rintro t block rfl
    exact hpush t block (by simp)

end Drain

/-! ## A drain in which an exchange fails -/

def churnSchedule : List (Action Bool) :=
  .call false .pop :: List.replicate 4 (.go false false) ++
    [.write false 0x1000 0x1000 7, .call false (.push 0x1000)] ++
    List.replicate 3 (.go false false)

/-- While one thread is between its reads and its exchange, the other pops the block. -/
def drainSchedule : List (Action Bool) :=
  [.call true .pop, .go true false, .go true false, .call false .pop] ++
    List.replicate 4 (.go false false) ++ List.replicate 4 (.go true false) ++
    .call false .pop :: List.replicate 2 (.go false false)

def drainEvents : List (Event Bool) :=
  [.call true .pop, .instr true .load, .instr true .quiet, .call false .pop, .instr false .load,
    .instr false .quiet, .instr false (.cas (.pop 0x1000)), .instr false (.ret 0x1000),
    .instr true .load, .instr true .quiet, .instr true (.cas (.pop 0x1010)),
    .instr true (.ret 0x1010), .call false .pop, .instr false .load, .instr false (.ret 0)]

theorem drain_run : ∃ es m m', ((lts (Build.x64 false .lockfree) Bool).guard
    (InWindow (Build.x64 false .lockfree))).Run (pairMachine false) es m ∧
      ((lts (Build.x64 false .lockfree) Bool).guard
        (InWindow (Build.x64 false .lockfree))).Run m drainEvents m' ∧
      ((∀ t, (m.threads t).pc = .idle ∧ (m.threads t).held = []) ∧
        ∀ t, (m'.threads t).pc = .idle) := by
  have h : ((Lts.script (exec (Build.x64 false .lockfree)) (pairMachine false) churnSchedule).bind
      fun r => (Lts.script (exec (Build.x64 false .lockfree)) r.2 drainSchedule).map
        fun q => (q.1, decide ((∀ t, (r.2.threads t).pc = .idle ∧ (r.2.threads t).held = []) ∧
          ∀ t, (q.2.threads t).pc = .idle))) = some (drainEvents, true) := by
    decide +kernel
  obtain ⟨⟨es, m⟩, hr, h⟩ := Option.bind_eq_some_iff.mp h
  obtain ⟨⟨es', m'⟩, hr', hx⟩ := Option.map_eq_some_iff.mp h
  simp only [Prod.mk.injEq, decide_eq_true_eq] at hx
  obtain ⟨rfl, hidle⟩ := hx
  obtain ⟨m₁, hrun, rfl⟩ := script_run id churnSchedule (by rw [hr]; rfl)
  obtain ⟨m₂, hrun', rfl⟩ := script_run id drainSchedule (by rw [hr']; rfl)
  exact ⟨_, _, _, hrun, hrun', hidle⟩

end LockFree

namespace Mutex

open LinkedList

/-- Outside the pool functions, or in an allocation. -/
def Pc.allocating : Pc → Bool
  | .walkFirst _ | .walkOverflow _ | .walkBacking _ _ | .walkCount _ _ _ | .walkNext _ _ => false
  | .lockPush _ | .onFree _ | .pushHead _ | .pushLink _ _ | .storeBlock _ | .unlockPush => false
  | _ => true

/-- Inside `grow_pool`, the chunk not linked yet. -/
def Pc.growing : Pc → Bool
  | .sumFirst | .sumCount _ _ | .sumNext _ _ | .newBacking _ | .newChunk _ _ => true
  | .initBacking _ _ _ | .initCount _ _ _ | .loadOverflow _ _ _ | .initNext _ _ _ _ => true
  | .initSlot _ _ _ _ | .linkChunk _ _ => true
  | _ => false

section Instructions

variable {τ : Type*} {B : Build} {t : τ} {answer : Option Nat} {s : Shared τ} {pc : Pc}
  {o : Outcome τ}

theorem instr_allocating (h : instr B t answer s pc = some o) (hpc : pc.allocating = true) :
    o.pc.allocating = true := by
  cases pc with
  | testHead =>
    cases h
    dsimp only
    split
    · split <;> rfl
    · rfl
  | storeHead block next =>
    cases h
    dsimp only
    split <;> rfl
  | _ =>
    simp only [Pc.allocating, Bool.false_eq_true] at hpc
    all_goals
      simp only [instr] at h
      (repeat' split at h) <;> cases h <;> rfl

theorem instr_returned (h : instr B t answer s pc = some o) (hpc : pc.allocating = true) :
    o.returned = 0 ∨ pc = .unlock o.returned := by
  cases instr_move h with
  | outside _ _ _ hret => exact Or.inl hret
  | acquire _ _ _ hret => exact Or.inl hret
  | onward _ _ hret => exact Or.inl hret
  | refused hst _ =>
    rw [hst] at hpc
    cases hpc
  | alloc hst _ _ hret =>
    rw [hret]
    exact Or.inr hst
  | free _ _ _ hret => exact Or.inl hret
  | release _ _ _ hret => exact Or.inl hret

/-- Only a pool with a growth factor of two or more gets into `grow_pool`. -/
theorem instr_growing (h : instr B t answer s pc = some o) (ho : o.pc.growing = true) :
    pc.growing = true ∨ 2 ≤ s.pool.growFactor := by
  cases pc with
  | testHead =>
    cases h
    right
    by_contra hlt
    revert ho
    dsimp only
    split
    · rw [if_pos (by omega)]
      exact fun ho => by cases ho
    · exact fun ho => by cases ho
  | walkFirst block =>
    cases h
    revert ho
    dsimp only
    split <;> exact fun ho => by cases ho
  | walkCount block chunk backing =>
    cases h
    revert ho
    dsimp only
    split <;> exact fun ho => by cases ho
  | storeHead block next =>
    cases h
    revert ho
    dsimp only
    split <;> exact fun ho => by cases ho
  | lockPush block =>
    simp only [instr] at h
    split at h <;> cases h
    revert ho
    dsimp only
    split <;> exact fun ho => by cases ho
  | onFree block =>
    simp only [instr, Option.some.injEq] at h
    subst h
    revert ho
    dsimp only
    split <;> exact fun ho => by cases ho
  | _ =>
    simp only [instr] at h
    (repeat' split at h) <;> cases h <;> first | exact Or.inl rfl | cases ho

/-- An allocation that finds no free block takes none, and links none unless the pool grows. -/
theorem instr_exhausted (hP : PcList B s [] pc) (hpc : pc.allocating = true)
    (hno : ∀ backing, pc ≠ .seedHead backing) (h : instr B t answer s pc = some o)
    (hsame : o.shared.pool.overflow.length = s.pool.overflow.length) :
    o.shared.pool.head = s.pool.head ∧ ∀ backing, o.pc ≠ .seedHead backing := by
  cases pc with
  | seedHead backing => exact absurd rfl (hno backing)
  | storeHead block next => cases hP.1
  | linkChunk backing chunk =>
    cases h
    simp [Shared.link] at hsame
  | testHead =>
    cases h
    refine ⟨rfl, fun backing => ?_⟩
    dsimp only
    split
    · split <;> simp
    · simp
  | newBacking add =>
    obtain ⟨hp, -, -, ho⟩ := instr_newBacking h
    refine ⟨by rw [hp], fun backing => ?_⟩
    rcases ho with ho | ⟨_, ho⟩ <;> simp [ho]
  | newChunk add backing =>
    obtain ⟨hp, -, -, ho⟩ := instr_newChunk h
    refine ⟨by rw [hp], fun backing => ?_⟩
    rcases ho with ho | ⟨_, ho⟩ <;> simp [ho]
  | _ =>
    simp only [Pc.allocating, Bool.false_eq_true] at hpc
    all_goals
      simp only [instr] at h
      (repeat' split at h) <;> cases h <;> exact ⟨rfl, fun _ hs => by cases hs⟩

theorem instr_overflow (h : instr B t answer s pc = some o) :
    s.pool.overflow.length ≤ o.shared.pool.overflow.length := by
  rcases instr_pool h with ⟨head, growCount, hp⟩ | ⟨backing, chunk, -, hs⟩
  · rw [hp]
  · rw [hs]
    exact Nat.le_succ _

theorem instr_fixed (hpc : pc.growing = false) (hfixed : s.pool.growFactor < 2)
    (h : instr B t answer s pc = some o) : o.pc.growing = false ∧
      o.shared.pool.growFactor = s.pool.growFactor ∧
      o.shared.pool.overflow = s.pool.overflow := by
  refine ⟨?_, ?_⟩
  · by_contra ho
    rcases instr_growing h (by simpa using ho) with hg | hg
    · rw [hpc] at hg
      cases hg
    · omega
  · rcases instr_pool h with ⟨head, growCount, hp⟩ | ⟨backing, chunk, hl, -⟩
    · rw [hp]
      exact ⟨rfl, rfl⟩
    · rw [hl] at hpc
      cases hpc

end Instructions

section Drain

variable {τ : Type*} {B : Build} {t : τ} {answer : Option Nat} {m₀ m m' : Machine τ} {o : Outcome τ}
  {others : List (Nat × Region)} {free : List Nat}

/-- No block is free and none is on its way. -/
structure Exhausted (m : Machine τ) : Prop where
  head : m.shared.pool.head.ptr = 0
  seed : ∀ t backing, (m.threads t).pc ≠ .seedHead backing

theorem Exhausted.free_nil (E : Exhausted m) (I : Listed B m free) : free = [] := by
  have hc := I.chain E.seed
  rw [E.head] at hc
  exact Chain.nil_iff.mp hc

/-- A call that is about to return null has found the list empty, and holds the mutex. -/
def Nulled (m : Machine τ) : Prop :=
  ∀ t, (m.threads t).pc = .unlock 0 → m.shared.pool.head.ptr = 0

theorem Nulled.start (s : State) : Nulled (Machine.start s : Machine τ) := by
  intro t ht
  cases ht

theorem Kept.null_instr (K : Kept B others m)
    (h : instr B t answer m.shared (m.threads t).pc = some o) (ho : o.pc = .unlock 0) :
    o.shared.pool.head.ptr = 0 := by
  obtain ⟨hI, ⟨pend, L, -⟩, -, free, I⟩ := id K
  have hP := I.threads t
  have hfree : (m.threads t).pc.critical = true →
      (∀ backing, (m.threads t).pc ≠ .seedHead backing) → free = [] →
        m.shared.pool.head.ptr = 0 := by
    rintro hc hno rfl
    exact (I.chain (no_seed hI hc hno)).start_eq_nil
  cases hpc : (m.threads t).pc <;> rw [hpc] at h hP hfree
  case testHead =>
    cases h
    dsimp only at ho
    split at ho
    · assumption
    · cases ho
  case newBacking add =>
    obtain ⟨hp, -⟩ := instr_newBacking h
    rw [hp]
    exact hfree rfl (by simp) hP
  case newChunk add backing =>
    obtain ⟨hp, -⟩ := instr_newChunk h
    rw [hp]
    exact hfree rfl (by simp) hP
  case sumCount total chunk =>
    have hhead := hfree rfl (by simp) hP
    simp only [instr] at h
    (repeat' split at h) <;> cases h <;> exact hhead
  case storeHead block next =>
    obtain ⟨rest, rfl⟩ := List.head?_eq_some_iff.mp hP.1
    have h0 : block ≠ 0 := (L.slot_spec (I.shares.free_mem (List.mem_cons_self ..))).1
    cases h
    dsimp only at ho
    split at ho
    · cases ho
    · cases ho
      exact absurd rfl h0
  case onAlloc block =>
    have hslot := I.owned_slot (t := t) (a := block) (by rw [hpc]; exact List.mem_cons_self ..)
    cases h
    cases ho
    exact absurd rfl (L.slot_spec hslot).1
  case walkFirst block =>
    cases h
    dsimp only at ho
    split at ho <;> cases ho
  case walkCount block chunk backing =>
    cases h
    dsimp only at ho
    split at ho <;> cases ho
  case lockPush block =>
    simp only [instr] at h
    split at h <;> cases h
    dsimp only at ho
    split at ho <;> cases ho
  case onFree block =>
    simp only [instr, Option.some.injEq] at h
    subst h
    dsimp only at ho
    split at ho <;> cases ho
  all_goals
    simp only [instr] at h
    (repeat' split at h) <;> cases h <;> cases ho

variable [DecidableEq τ]

theorem Kept.nulled_step {e : Event τ} (K : Kept B others m) (N : Nulled m)
    (h : Step B m e m') : Nulled m' := by
  cases h with
  | alloc _ =>
    exact Machine.forall_move (fun _ th => th.pc = .unlock 0 → _) (fun ht => by cases ht)
      fun t _ => N t
  | free _ _ =>
    exact Machine.forall_move (fun _ th => th.pc = .unlock 0 → _) (fun ht => by cases ht)
      fun t _ => N t
  | write _ _ _ => exact N
  | @instr u answer o h =>
    refine Machine.forall_move (fun _ th => th.pc = .unlock 0 → _) (K.null_instr h)
      fun t htu ht => ?_
    -- the thread that returns null has the mutex, so the other leaves the pool alone
    have hc : (m.threads u).pc.critical = false := by
      by_contra hcc
      have hu := (K.inv.exclusive u).mp (by simpa using hcc)
      rw [(K.inv.exclusive t).mp (by rw [ht]; rfl)] at hu
      exact htu (Option.some.inj hu)
    show o.shared.pool.head.ptr = 0
    rw [instr_outside h hc]
    exact N t ht

theorem Step.overflow_length {e : Event τ} (h : Step B m e m') :
    m.shared.pool.overflow.length ≤ m'.shared.pool.overflow.length := by
  cases h with
  | alloc _ => exact le_refl _
  | free _ _ => exact le_refl _
  | write _ _ _ => exact le_refl _
  | instr h => exact instr_overflow h

/-- While nobody frees, what is exhausted stays so until the pool grows. -/
theorem Exhausted.step {e : Event τ} (E : Exhausted m) (K : Kept B others m)
    (hall : ∀ t, (m.threads t).pc.allocating = true) (h : Step B m e m')
    (hfree : ∀ t block, e ≠ .free t block)
    (hsame : m'.shared.pool.overflow.length = m.shared.pool.overflow.length) : Exhausted m' := by
  obtain ⟨-, -, -, free, I⟩ := id K
  obtain rfl := E.free_nil I
  cases h with
  | free _ _ => exact absurd rfl (hfree _ _)
  | write _ _ _ => exact ⟨E.head, E.seed⟩
  | alloc _ =>
    exact ⟨E.head, Machine.forall_move (fun _ th => ∀ backing, th.pc ≠ .seedHead backing)
      (fun backing hs => by cases hs) fun t _ => E.seed t⟩
  | @instr u answer o h =>
    obtain ⟨hhead, hno⟩ := instr_exhausted (I.threads u) (hall u) (E.seed u) h hsame
    exact ⟨(congrArg TaggedHead.ptr hhead).trans E.head,
      Machine.forall_move (fun _ th => ∀ backing, th.pc ≠ .seedHead backing) hno
        fun t _ => E.seed t⟩

/-- The instruction that returns null leaves the pool exhausted. -/
theorem Nulled.commit {e : Event τ} (N : Nulled m) (K : Kept B others m) (h : Step B m e m')
    (hc : m.commit e = some (.alloc t 0)) : Exhausted m' := by
  cases h with
  | alloc _ => cases hc
  | free _ _ => cases hc
  | write _ _ _ => cases hc
  | @instr u answer o h =>
    have hpc : (m.threads u).pc = .unlock 0 := by
      simp only [Machine.commit] at hc
      split at hc
      · rename_i hpc
        obtain ⟨rfl, rfl⟩ := Commit.alloc.inj (Option.some.inj hc)
        exact hpc
      · cases hc
      · split at hc <;> cases hc
      · cases hc
    have hno := no_seed K.inv (t := u) (by rw [hpc]; rfl) (by simp [hpc])
    have hhead := N u hpc
    rw [hpc] at h
    cases h
    exact ⟨hhead, Machine.forall_move (fun _ th => ∀ backing, th.pc ≠ .seedHead backing)
      (fun backing hs => by cases hs) fun t _ => hno t⟩

def Commit.vended (t : τ) : Commit τ → Option Nat
  | .alloc u block => if u = t ∧ block ≠ 0 then some block else none
  | _ => none

/-- An allocation hands over what its commit says. -/
theorem vended_instr (h : instr B t answer m.shared (m.threads t).pc = some o)
    (hall : (m.threads t).pc.allocating = true) (u : τ) :
    ((m.commit (.instr t answer)).bind (Commit.vended u)).toList =
      if u = t then o.given else [] := by
  cases hpc : (m.threads t).pc <;> rw [hpc] at h hall
  case unlock block =>
    cases h
    by_cases hu : u = t
    · subst hu
      by_cases h0 : block = 0 <;>
        simp [Machine.commit, hpc, Commit.vended, Outcome.given, h0]
    · simp [Machine.commit, hpc, Commit.vended, hu, Ne.symm hu]
  case storeBlock => cases hall
  case walkBacking => cases hall
  all_goals
    have hret := (instr_returned h hall).resolve_right (by simp)
    simp [Machine.commit, hpc, Outcome.given, hret]

/-- The blocks that a thread's allocations have returned, the last first. -/
def vended (t : τ) (rs : List (Event τ × Option (Commit τ))) : List Nat :=
  (rs.filterMap fun r => r.2.bind (Commit.vended t)).reverse

/-- What holds of `m` after a run `rs` from `m₀` in which nobody frees. -/
structure Draining (m₀ : Machine τ) (rs : List (Event τ × Option (Commit τ))) (m : Machine τ) :
    Prop where
  allocating : ∀ t, (m.threads t).pc.allocating = true
  held : ∀ t, (m.threads t).held = vended t rs ++ (m₀.threads t).held

variable {rs : List (Event τ × Option (Commit τ))}

theorem Draining.start (hidle : ∀ t, (m₀.threads t).pc = .idle) : Draining m₀ [] m₀ :=
  ⟨fun t => by rw [hidle t]; rfl, fun _ => rfl⟩

theorem Draining.step {r : Event τ × Option (Commit τ)} (D : Draining m₀ rs m)
    (h : (recorded B τ).step m r m') (hfree : ∀ t block, r.1 ≠ .free t block) :
    Draining m₀ (rs ++ [r]) m' := by
  obtain ⟨e, commit⟩ := r
  obtain ⟨⟨-, hs⟩, hcommit⟩ := h
  obtain rfl : commit = m.commit e := hcommit
  replace hs : Step B m e m' := hs
  have hvended : ∀ t, vended t (rs ++ [(e, m.commit e)]) =
      ((m.commit e).bind (Commit.vended t)).toList ++ vended t rs :=
    fun t => Lts.filterMap_reverse_snoc _ rs (e, m.commit e)
  cases hs with
  | free _ _ => exact absurd rfl (hfree _ _)
  | write _ _ _ =>
    refine ⟨D.allocating, fun t => ?_⟩
    rw [hvended]
    exact D.held t
  | @alloc u _ =>
    refine ⟨Machine.forall_move (fun _ th => th.pc.allocating = true) rfl
        fun t _ => D.allocating t,
      Machine.forall_move (fun t th => th.held = vended t _ ++ (m₀.threads t).held) ?_
        fun t _ => ?_⟩
    · rw [hvended]
      exact D.held u
    · rw [hvended]
      exact D.held t
  | @instr u answer o h =>
    refine ⟨Machine.forall_move (fun _ th => th.pc.allocating = true)
        (instr_allocating h (D.allocating u)) fun t _ => D.allocating t,
      Machine.forall_move (fun t th => th.held = vended t _ ++ (m₀.threads t).held) ?_
        fun t ht => ?_⟩
    · rw [hvended, List.append_assoc, ← D.held u, Thread.after_held,
        vended_instr h (D.allocating u), if_pos rfl]
    · rw [hvended, List.append_assoc, ← D.held t, vended_instr h (D.allocating u), if_neg ht]
      rfl

theorem Draining.run (hidle : ∀ t, (m₀.threads t).pc = .idle) (h : (recorded B τ).Run m₀ rs m)
    (hfree : ∀ r ∈ rs, ∀ t block, r.1 ≠ .free t block) : Draining m₀ rs m := by
  induction h with
  | nil => exact .start hidle
  | @snoc m₁ m₂ rs r _ hs ih =>
    exact (ih fun q hq => hfree q (List.mem_append_left _ hq)).step hs (hfree r (by simp))

/-- After a null answer and no growth since, the pool is exhausted. -/
theorem Draining.exhausted {rs₀ : List (Event τ × Option (Commit τ))} {m₁ : Machine τ}
    (D : Draining m₀ rs₀ m₁) (K : Kept B others m₁) (N : Nulled m₁)
    (h : (recorded B τ).Run m₁ rs m) (hfree : ∀ r ∈ rs, ∀ t block, r.1 ≠ .free t block) :
    m₁.shared.pool.overflow.length ≤ m.shared.pool.overflow.length ∧ Nulled m ∧
      ((∃ t, some (.alloc t 0) ∈ rs.map Prod.snd) →
        m.shared.pool.overflow.length = m₁.shared.pool.overflow.length → Exhausted m) := by
  suffices Kept B others m ∧ Draining m₀ (rs₀ ++ rs) m ∧
      m₁.shared.pool.overflow.length ≤ m.shared.pool.overflow.length ∧ Nulled m ∧
      ((∃ t, some (.alloc t 0) ∈ rs.map Prod.snd) →
        m.shared.pool.overflow.length = m₁.shared.pool.overflow.length → Exhausted m) from this.2.2
  induction h with
  | nil =>
    refine ⟨K, by simpa using D, le_refl _, N, ?_⟩
    rintro ⟨t, ht⟩
    cases ht
  | @snoc d d' rs r _ hs ih =>
    obtain ⟨Kd, Dd, hle, Nd, hE⟩ := ih fun q hq => hfree q (List.mem_append_left _ hq)
    have hr := hfree r (by simp)
    obtain ⟨⟨hH, hstep⟩, hcommit⟩ := id hs
    have hle' := Step.overflow_length hstep
    refine ⟨Kd.of_run (.single hs.1), ?_, hle.trans hle', Kd.nulled_step Nd hstep, ?_⟩
    · rw [← List.append_assoc]
      exact Dd.step hs hr
    · rintro ⟨t, ht⟩ hlen
      rw [List.map_append, List.mem_append, List.map_singleton, List.mem_singleton] at ht
      rcases ht with ht | ht
      · exact (hE ⟨t, ht⟩ (by omega)).step Kd Dd.allocating hstep hr (by omega)
      · exact Nd.commit Kd hstep (by rw [← hcommit, ← ht])

/-- A pool with a growth factor below two never links a chunk. -/
theorem fixed_run {es : List (Event τ)} (hidle : ∀ t, (m₀.threads t).pc = .idle)
    (hfixed : m₀.shared.pool.growFactor < 2)
    (h : ((lts B τ).restrict (Honest B)).Run m₀ es m) :
    m.shared.pool.overflow = m₀.shared.pool.overflow := by
  suffices (∀ t, (m.threads t).pc.growing = false) ∧
      m.shared.pool.growFactor = m₀.shared.pool.growFactor ∧
      m.shared.pool.overflow = m₀.shared.pool.overflow from this.2.2
  refine h.invariant (I := fun d => (∀ t, (d.threads t).pc.growing = false) ∧
    d.shared.pool.growFactor = m₀.shared.pool.growFactor ∧
    d.shared.pool.overflow = m₀.shared.pool.overflow) ?_
    ⟨fun t => by rw [hidle t]; rfl, rfl, rfl⟩
  rintro d e d' ⟨hgrow, hfactor, hover⟩ ⟨-, hs⟩
  have hmoved : ∀ {u : τ} {s : Shared τ} {th : Thread}, th.pc.growing = false →
      ∀ t, ((d.move u s th).threads t).pc.growing = false := fun hth =>
    Machine.forall_move (fun _ th => th.pc.growing = false) hth fun t _ => hgrow t
  cases hs with
  | alloc _ => exact ⟨hmoved rfl, hfactor, hover⟩
  | free _ _ => exact ⟨hmoved rfl, hfactor, hover⟩
  | write _ _ _ => exact ⟨hgrow, hfactor, hover⟩
  | @instr u answer o h =>
    obtain ⟨h1, h2, h3⟩ := instr_fixed (hgrow u) (by omega) h
    exact ⟨hmoved h1, h2.trans hfactor, h3.trans hover⟩

end Drain

/-! ## A drain of a pool that grows once -/

def firstRound : List (Event Bool) :=
  .alloc false :: go false (List.replicate 6 none) ++ .free false 0x1000 ::
    go false (List.replicate 6 none)

def growRound : List (Event Bool) :=
  .alloc false :: .alloc true :: go false (List.replicate 6 none) ++
    go true ([none, none, none, none, some 0x2000, some 0x200] ++ List.replicate 12 none)

/-- The allocator refuses. -/
def lastRound : List (Event Bool) :=
  .alloc true :: go true (List.replicate 8 none)

theorem drain_run : ∃ rs m rs₁ m₁ rs₂ m',
    (recorded (Build.x64 false .mutex) Bool).Run growingMachine rs m ∧
      (recorded (Build.x64 false .mutex) Bool).Run m rs₁ m₁ ∧
      (recorded (Build.x64 false .mutex) Bool).Run m₁ rs₂ m' ∧
      (rs₁.map Prod.fst, rs₁.filterMap Prod.snd) =
        (growRound, [.alloc false 0x1000, .alloc true 0x2000]) ∧
      (rs₂.map Prod.fst, rs₂.filterMap Prod.snd) = (lastRound, [.alloc true 0]) ∧
      (∀ t, (m.threads t).pc = .idle ∧ (m.threads t).held = []) ∧
      (∀ t, (m'.threads t).pc = .idle) ∧
      m'.shared.pool.overflow = m₁.shared.pool.overflow ∧ m'.shared.pool.capacity = 2 := by
  have h : ((Lts.script (execRecorded (Build.x64 false .mutex)) growingMachine firstRound).bind
      fun r => (Lts.script (execRecorded (Build.x64 false .mutex)) r.2 growRound).bind
        fun q => (Lts.script (execRecorded (Build.x64 false .mutex)) q.2 lastRound).map
          fun x => ((q.1.map Prod.fst, q.1.filterMap Prod.snd),
            (x.1.map Prod.fst, x.1.filterMap Prod.snd),
            decide ((∀ t, (r.2.threads t).pc = .idle ∧ (r.2.threads t).held = []) ∧
              (∀ t, (x.2.threads t).pc = .idle) ∧
              x.2.shared.pool.overflow = q.2.shared.pool.overflow ∧
              x.2.shared.pool.capacity = 2))) =
      some ((growRound, [.alloc false 0x1000, .alloc true 0x2000]),
        (lastRound, [.alloc true 0]), true) := by
    decide +kernel
  obtain ⟨⟨rs, m⟩, hr, h⟩ := Option.bind_eq_some_iff.mp h
  obtain ⟨⟨rs₁, m₁⟩, hr₁, h⟩ := Option.bind_eq_some_iff.mp h
  obtain ⟨⟨rs₂, m'⟩, hr₂, hx⟩ := Option.map_eq_some_iff.mp h
  obtain ⟨hx₁, hx₂, hx⟩ := (by simpa only [Prod.mk.injEq, decide_eq_true_eq] using hx :
    (_ ∧ _) ∧ (_ ∧ _) ∧ _)
  obtain ⟨d, hrun, rfl⟩ := Lts.script_run execRecorded_step id (by rw [hr]; rfl)
  obtain ⟨d₁, hrun₁, rfl⟩ := Lts.script_run execRecorded_step id (by rw [hr₁]; rfl)
  obtain ⟨d₂, hrun₂, rfl⟩ := Lts.script_run execRecorded_step id (by rw [hr₂]; rfl)
  exact ⟨_, _, _, _, _, _, hrun, hrun₁, hrun₂, Prod.ext hx₁.1 hx₁.2, Prod.ext hx₂.1 hx₂.2, hx⟩

end Mutex

section Theorems

variable {τ : Type*} [DecidableEq τ] {B : Build} {env : Env} {w w' : World} {p : PoolStruct}

/-- LOCKFREE build, fixed pool, hardened or not, any number of threads, any interleaving in the tag
window. Whatever the threads have done, once no call is running: what they get until the next free,
no call running at the end, and what they held before are different slots. Together with what is
still on the free list they are all the slots, and if a pop has returned null, nothing is. -/
theorem lockfree_drain {blockSize blockCount : Nat} {es : List (LockFree.Event τ)}
    {m : LockFree.Machine τ} (hbs : blockSize < B.modulus)
    (hcreate : memoryPoolCreate B env w blockSize blockCount = (some p, w'))
    (hrun : ((LockFree.lts B τ).guard (LockFree.InWindow B)).Run (.start ⟨w', p⟩) es m)
    (hidle : ∀ t, (m.threads t).pc = .idle) :
    ∀ es' m', ((LockFree.lts B τ).guard (LockFree.InWindow B)).Run m es' m' →
      (∀ t block, .call t (.push block) ∉ es') → (∀ t, (m'.threads t).pc = .idle) →
      ∃ free, LinkedList.Chain (revealNext B m'.pool.mem) 0 m'.pool.pool.head.ptr free ∧
        Shares (slotsOf (slotStride B blockSize) p.backing blockCount) free
          (fun t => LockFree.vended t es' ++ (m.threads t).held) ∧
        (∀ threads : Finset τ,
          (∀ t ∉ threads, LockFree.vended t es' ++ (m.threads t).held = []) →
            free.length + ∑ t ∈ threads, (LockFree.vended t es' ++ (m.threads t).held).length =
              blockCount) ∧
        ((∃ t, .instr t (.ret 0) ∈ es') → free = []) := by
  obtain ⟨⟨free₀, I₀, -⟩, -⟩ := (LockFree.Inv.start (τ := τ) hbs hcreate).run hrun
  intro es' m' hrun' hpush hidle'
  obtain ⟨⟨free, I, -⟩, -⟩ := I₀.run hrun'
  have D := LockFree.Draining.run I₀ hidle hrun' hpush
  have hshares := I.shares
  rw [I.shape.slots, LockFree.slots_start hcreate] at hshares
  have howned : ∀ t, LockFree.vended t es' ++ (m.threads t).held = (m'.threads t).owned := by
    intro t
    rw [← D.held t, LockFree.Thread.owned, hidle' t]
    rfl
  have hall := hshares.rearrange fun t => .of_eq (howned t)
  have hnodup : (slotsOf (slotStride B blockSize) p.backing blockCount).Nodup := by
    have h := I.layout.slots_nodup
    rwa [I.shape.slots, LockFree.slots_start hcreate] at h
  refine ⟨free, I.chain, hall, fun threads hout => ?_, fun hnull => ?_⟩
  · rw [hall.sum_length hnodup threads hout]
    simp [slotsOf]
  · have hc := I.chain
    rw [D.empty (Or.inr hnull)] at hc
    exact LinkedList.Chain.nil_iff.mp hc

theorem lockfree_drain_x64 : ∃ m m' : LockFree.Machine Bool,
    ((LockFree.lts (Build.x64 false .lockfree) Bool).guard
      (LockFree.InWindow (Build.x64 false .lockfree))).Run m LockFree.drainEvents m' ∧
    Shares (slotsOf 16 0x1000 2) []
      (fun t => LockFree.vended t LockFree.drainEvents ++ (m.threads t).held) ∧
    LockFree.vended false LockFree.drainEvents = [0x1000] ∧
    LockFree.vended true LockFree.drainEvents = [0x1010] := by
  obtain ⟨es, m, m', hrun, hrun', hidle, hidle'⟩ := LockFree.drain_run
  obtain ⟨free, -, hall, -, hnull⟩ := lockfree_drain (by decide) (LockFree.pairPool_create false)
    hrun (fun t => (hidle t).1) LockFree.drainEvents m' hrun' (by simp [LockFree.drainEvents])
    hidle'
  obtain rfl := hnull ⟨false, by simp [LockFree.drainEvents]⟩
  exact ⟨m, m', hrun', hall, by decide, by decide⟩

open Mutex in
/-- MUTEX build, fixed or dynamic pool, any number of threads that free what they hold, any
interleaving. Whatever the threads have done, once no call is running: what they get until the next
free, no call running at the end, and what they held before are different slots. Together with what
is still on the free list they are all the slots, those of the chunks added meanwhile included. If
an allocation has returned null and the pool is fixed, or has not grown since, nothing is on the
list. -/
theorem mutex_drain {call : CreateCall} {rs : List (Event τ × Option (Commit τ))} {m : Machine τ}
    (hr : call.InRange B) (hcreate : call.run B env w = (some p, w'))
    (hrun : (recorded B τ).Run (.start ⟨w', p⟩) rs m) (hidle : ∀ t, (m.threads t).pc = .idle) :
    ∀ rs₁ m₁ rs₂ m', (recorded B τ).Run m rs₁ m₁ → (recorded B τ).Run m₁ rs₂ m' →
      (∀ r ∈ rs₁ ++ rs₂, ∀ t block, r.1 ≠ .free t block) →
      (∀ t, (m'.threads t).pc = .idle) →
      ∃ free, LinkedList.Chain (revealNext B m'.shared.mem) 0 m'.shared.pool.head.ptr free ∧
        Shares (m'.shared.pool.slots B) free
          (fun t => vended t (rs₁ ++ rs₂) ++ (m.threads t).held) ∧
        (∀ threads : Finset τ, (∀ t ∉ threads, vended t (rs₁ ++ rs₂) ++ (m.threads t).held = []) →
          free.length + ∑ t ∈ threads, (vended t (rs₁ ++ rs₂) ++ (m.threads t).held).length =
            m'.shared.pool.capacity) ∧
        ((∃ t, some (.alloc t 0) ∈ rs₂.map Prod.snd) →
          (call.growthFactor < 2 ∨ m'.shared.pool.overflow = m₁.shared.pool.overflow) →
            free = []) := by
  have C := CreateCall.created hr hcreate
  have K₀ : Kept B w.heap.ledger.live (Machine.start ⟨w', p⟩ : Machine τ) :=
    .start C.overflow C.inv
  obtain ⟨K, N⟩ : Kept B w.heap.ledger.live m ∧ Nulled m := by
    refine (recorded_honest hrun).invariant (I := fun d => Kept B w.heap.ledger.live d ∧ Nulled d)
      ?_ ⟨K₀, .start _⟩
    rintro d e d' ⟨Kd, Nd⟩ hs
    exact ⟨Kd.of_run (.single hs), Kd.nulled_step Nd hs.2⟩
  intro rs₁ m₁ rs₂ m' hrun₁ hrun₂ hfree hidle'
  have hfree₁ : ∀ r ∈ rs₁, ∀ t block, r.1 ≠ .free t block :=
    fun r h => hfree r (List.mem_append_left _ h)
  have hfree₂ : ∀ r ∈ rs₂, ∀ t block, r.1 ≠ .free t block :=
    fun r h => hfree r (List.mem_append_right _ h)
  have D := Draining.run hidle (hrun₁.trans hrun₂) hfree
  have D₁ := Draining.run hidle hrun₁ hfree₁
  have K₁ := K.of_run (recorded_honest hrun₁)
  obtain ⟨-, N₁, -⟩ := (Draining.start hidle).exhausted K N hrun₁ hfree₁
  obtain ⟨-, -, hE⟩ := D₁.exhausted K₁ N₁ hrun₂ hfree₂
  have K' := K₁.of_run (recorded_honest hrun₂)
  obtain ⟨-, ⟨pend, L, -⟩, -, free, I⟩ := K'
  have howned : ∀ t, vended t (rs₁ ++ rs₂) ++ (m.threads t).held = m'.owned B t := by
    intro t
    rw [← D.held t, Machine.owned, hidle' t]
    rfl
  have hall := I.shares.rearrange fun t => .of_eq (howned t)
  refine ⟨free, I.chain fun t backing hs => ?_, hall, fun threads hout => ?_,
    fun hnull hsame => ?_⟩
  · rw [hidle' t] at hs
    cases hs
  · rw [hall.sum_length L.slots_nodup threads hout, PoolStruct.length_slots]
  · have hlen : m'.shared.pool.overflow = m₁.shared.pool.overflow := by
      rcases hsame with hfixed | hsame
      · have hstart : ∀ {qs : List (Event τ × Option (Commit τ))} {d : Machine τ},
            (recorded B τ).Run (.start ⟨w', p⟩) qs d → d.shared.pool.overflow = p.overflow := by
          intro qs d hd
          refine fixed_run (fun _ => rfl) ?_ (recorded_honest hd)
          exact (CreateCall.run_fields hcreate).2.trans_lt hfixed
        rw [hstart ((hrun.trans hrun₁).trans hrun₂), hstart (hrun.trans hrun₁)]
      · exact hsame
    exact (hE hnull (by rw [hlen])).free_nil I

open Mutex in
/-- The second block is that of the chunk which the drain itself has added. -/
theorem mutex_drain_x64 : ∃ (m m' : Machine Bool) (rs : List (Event Bool × Option (Commit Bool))),
    (recorded (Build.x64 false .mutex) Bool).Run m rs m' ∧
      rs.map Prod.fst = growRound ++ lastRound ∧
      Shares (m'.shared.pool.slots (Build.x64 false .mutex)) []
        (fun t => vended t rs ++ (m.threads t).held) ∧
      vended false rs = [0x1000] ∧ vended true rs = [0x2000] ∧ m'.shared.pool.capacity = 2 := by
  obtain ⟨rs, m, rs₁, m₁, rs₂, m', hrun, hrun₁, hrun₂, h₁, h₂, hidle, hidle', hsame, hcap⟩ :=
    Mutex.drain_run
  obtain ⟨hes₁, hcs₁⟩ := Prod.ext_iff.mp h₁
  obtain ⟨hes₂, hcs₂⟩ := Prod.ext_iff.mp h₂
  dsimp only at hes₁ hcs₁ hes₂ hcs₂
  have hes : (rs₁ ++ rs₂).map Prod.fst = growRound ++ lastRound := by
    rw [List.map_append, hes₁, hes₂]
  have hvended : ∀ t, vended t (rs₁ ++ rs₂) =
      ([.alloc false 0x1000, .alloc true 0x2000, .alloc true 0].filterMap
        (Commit.vended t)).reverse := by
    intro t
    have hcs : (rs₁ ++ rs₂).filterMap Prod.snd =
        [.alloc false 0x1000, .alloc true 0x2000, .alloc true 0] := by
      rw [List.filterMap_append, hcs₁, hcs₂]
      rfl
    rw [← hcs, List.filterMap_filterMap]
    rfl
  have hfree : ∀ r ∈ rs₁ ++ rs₂, ∀ t block, r.1 ≠ .free t block := by
    intro r hr t block he
    have hmem : Event.free t block ∈ growRound ++ lastRound :=
      hes ▸ he ▸ List.mem_map_of_mem hr
    simp [growRound, lastRound, go] at hmem
  have hcreate : firstCall.run (Build.x64 false .mutex) firstEnv World.start =
      (some firstPool, (firstClient (Build.x64 false .mutex)).pool.toWorld) :=
    firstCall_run false .mutex (by decide)
  obtain ⟨free, -, hall, -, hnull⟩ := mutex_drain (by decide) hcreate hrun (fun t => (hidle t).1)
    rs₁ m₁ rs₂ m' hrun₁ hrun₂ hfree hidle'
  have hmem : Commit.alloc true 0 ∈ rs₂.filterMap Prod.snd := by rw [hcs₂]; simp
  obtain ⟨r, hr, hrc⟩ := List.mem_filterMap.mp hmem
  obtain rfl := hnull ⟨true, List.mem_map.mpr ⟨r, hr, hrc⟩⟩ (Or.inr hsame)
  exact ⟨m, m', rs₁ ++ rs₂, hrun₁.trans hrun₂, hes, hall, by rw [hvended]; rfl,
    by rw [hvended]; rfl, hcap⟩

end Theorems

end MemoryPool
