import Mathlib.Logic.Function.Basic
import MemoryPool.Instrumented

/-!
# MemoryPool.InstrumentedThreads

`InstrumentedPool` driven by any number of threads.

`instr` is a thread's next step inside `allocate`, `try_allocate` or `deallocate`: one operation of
the pool, one access to one of the atomics, or one notification. A pop of the pool is a single
step, or, in a `MUTEX` build, the steps of its critical section: lock, grow when the list is empty
(the increment of `grow_count_` is there), take the head, unlock. A `compare_exchange_weak` may
fail though the comparison holds, and reloads its `expected`.

`off`, `mostOff`, `mostLive`, `failed`, `raised` and `told` are ghosts: no step looks at them.
-/

namespace MemoryPool

/-- `pop_head` once the list is not empty. -/
def takeHead (B : Build) (s : State) : Nat × State :=
  let block := s.pool.head.ptr
  let next := readNext B s.toWorld block
  (block, ((s.setWorld next.2).setHead next.1).onAllocHook B block)

namespace Threaded

open ByteMem

inductive Pc where
  | idle
  -- allocate, try_allocate: the pool
  | pop
  | popGrow
  | popTake
  | popUnlock (block : Nat)
  -- a failure
  | countFailure
  | exhausted
  -- record_allocation
  | countAllocation (block : Nat)
  | addLive (block : Nat)
  | loadPeak (block live : Nat)
  | raisePeak (block live peak : Nat)
  -- notify_if_grew
  | readGrowths (block : Nat)
  | loadLast (block growths : Nat)
  | raiseLast (block growths last : Nat)
  | notifyGrew (block growths : Nat)
  | ret (block : Nat)
  -- deallocate
  | countDeallocation (block : Nat)
  | loadLive (block : Nat)
  | lowerLive (block live : Nat)
  | push (block : Nat)
  | pushNull
  deriving DecidableEq

/-- Between `lock_guard`'s acquire and its release in `pop_head`. -/
def Pc.critical : Pc → Bool
  | .popGrow | .popTake | .popUnlock _ => true
  | _ => false

def Pc.popping : Pc → Bool
  | .pop | .popGrow | .popTake | .popUnlock _ => true
  | _ => false

/-- Inside the pop, or right after it. -/
def Pc.uncounted : Pc → Bool
  | .popGrow | .popTake | .popUnlock _ | .countFailure | .countAllocation _ => true
  | _ => false

/-- What a step does that the ghosts record: a block leaves the free list or goes back to it, a call
fails, `last_growths_` is raised, a growth is notified. -/
inductive Label where
  | quiet
  | took
  | gave
  | failed
  | raised (growths : Nat)
  | told (growths : Nat)
  deriving DecidableEq

structure Outcome (τ : Type*) where
  ip : InstrumentedPool
  owner : Option τ
  pc : Pc
  label : Label := .quiet
  returned : Option Nat := none

/-- What the environment decides of one step: the answers to the pool's requests for memory, whether
a compare-exchange fails for no reason, and whether a pop is one step. -/
structure StepEnv where
  pool : Env
  spurious : Bool
  whole : Bool
  deriving DecidableEq

section Instructions

variable {τ : Type*}

/-- Where a call goes on with what the pool has answered. -/
def popped (block : Nat) : Pc := if block = 0 then .countFailure else .countAllocation block

/-- The next step of thread `t`. There is none while it waits for the mutex, and none outside the
calls. -/
def instr (B : Build) (t : τ) (env : StepEnv) (ip : InstrumentedPool) (owner : Option τ) :
    Pc → Option (Outcome τ)
  | .idle => none
  | .pop =>
    match owner with
    | some _ => none
    | none =>
      if env.whole then
        let result := Pool.tryAllocate B env.pool ip.pool
        some { ip := { ip with pool := result.2 }, owner := none, pc := popped result.1,
               label := if result.1 = 0 then .quiet else .took }
      else
        match B.threadSafety, ip.pool with
        | .mutex, some _ => some { ip := ip, owner := some t, pc := .popGrow }
        | _, _ => none
  | .popGrow =>
    match ip.pool with
    | none => none
    | some s =>
      if s.pool.head.ptr = 0 then
        if s.pool.growFactor < 2 then some { ip := ip, owner := owner, pc := .popUnlock 0 }
        else
          let result := growPool B env.pool s
          some { ip := { ip with pool := some result.2 }, owner := owner,
                 pc := if result.1 then .popTake else .popUnlock 0 }
      else some { ip := ip, owner := owner, pc := .popTake }
  | .popTake =>
    match ip.pool with
    | none => none
    | some s =>
      let result := takeHead B s
      some { ip := { ip with pool := some result.2 }, owner := owner, pc := .popUnlock result.1,
             label := .took }
  | .popUnlock block => some { ip := ip, owner := none, pc := popped block }
  | .countFailure =>
    some { ip := { ip with allocationFailures := B.add ip.allocationFailures 1 },
           owner := owner, pc := .exhausted }
  | .exhausted =>
    some { ip := ip.notify .exhausted, owner := owner, pc := .idle, label := .failed }
  | .countAllocation block =>
    some { ip := { ip with allocations := B.add ip.allocations 1 }, owner := owner,
           pc := .addLive block }
  | .addLive block =>
    some { ip := { ip with live := B.add ip.live 1 }, owner := owner,
           pc := .loadPeak block (B.add ip.live 1) }
  | .loadPeak block live =>
    some { ip := ip, owner := owner, pc := .raisePeak block live ip.peakLive }
  | .raisePeak block live peak =>
    if peak < live then
      if env.spurious = true ∨ ip.peakLive ≠ peak then
        some { ip := ip, owner := owner, pc := .raisePeak block live ip.peakLive }
      else
        some { ip := { ip with peakLive := live }, owner := owner, pc := .readGrowths block }
    else some { ip := ip, owner := owner, pc := .readGrowths block }
  | .readGrowths block =>
    some { ip := ip, owner := owner, pc := .loadLast block (memoryPoolGrowths ip.pool) }
  | .loadLast block growths =>
    some { ip := ip, owner := owner, pc := .raiseLast block growths ip.lastGrowths }
  | .raiseLast block growths last =>
    if last < growths then
      if env.spurious = true ∨ ip.lastGrowths ≠ last then
        some { ip := ip, owner := owner, pc := .raiseLast block growths ip.lastGrowths }
      else
        some { ip := { ip with lastGrowths := growths }, owner := owner,
               pc := .notifyGrew block growths, label := .raised growths }
    else some { ip := ip, owner := owner, pc := .ret block }
  | .notifyGrew block growths =>
    some { ip := ip.notify .grew, owner := owner, pc := .ret block, label := .told growths }
  | .ret block => some { ip := ip, owner := owner, pc := .idle, returned := some block }
  | .countDeallocation block =>
    some { ip := { ip with deallocations := B.add ip.deallocations 1 }, owner := owner,
           pc := .loadLive block }
  | .loadLive block => some { ip := ip, owner := owner, pc := .lowerLive block ip.live }
  | .lowerLive block live =>
    if 0 < live then
      if env.spurious = true ∨ ip.live ≠ live then
        some { ip := ip, owner := owner, pc := .lowerLive block ip.live }
      else
        some { ip := { ip with live := B.sub live 1 }, owner := owner, pc := .push block }
    else some { ip := ip, owner := owner, pc := .push block }
  | .push block =>
    match owner with
    | some _ => none
    | none =>
      some { ip := { ip with pool := Pool.deallocate B env.pool ip.pool block }, owner := none,
             pc := .idle, label := .gave }
  | .pushNull =>
    some { ip := { ip with pool := Pool.deallocate B env.pool ip.pool 0 }, owner := owner,
           pc := .idle }

end Instructions

structure Thread where
  pc : Pc
  held : List Nat

structure Machine (τ : Type*) where
  ip : InstrumentedPool
  owner : Option τ
  threads : τ → Thread
  off : Nat
  mostOff : Nat
  mostLive : Nat
  failed : Nat
  raised : List Nat
  told : List Nat

inductive Event (τ : Type*) where
  | alloc (t : τ) (verb : Session.Verb)
  | deallocate (t : τ) (block : Nat)
  | instr (t : τ) (env : StepEnv)
  | write (t : τ) (addr : Nat) (byte : UInt8)
  deriving DecidableEq

namespace Label

def off (label : Label) (off : Nat) : Nat :=
  match label with
  | .took => off + 1
  | .gave => off - 1
  | _ => off

def failures (label : Label) (failed : Nat) : Nat :=
  match label with
  | .failed => failed + 1
  | _ => failed

def raises (label : Label) (raised : List Nat) : List Nat :=
  match label with
  | .raised growths => growths :: raised
  | _ => raised

def tells (label : Label) (told : List Nat) : List Nat :=
  match label with
  | .told growths => growths :: told
  | _ => told

end Label

def Thread.after {τ : Type*} (th : Thread) (o : Outcome τ) : Thread :=
  ⟨o.pc, o.returned.toList ++ th.held⟩

namespace Machine

variable {τ : Type*}

/-- A fresh decorator around a fresh pool. -/
def start (s : State) (observers : List Nat) : Machine τ where
  ip := { InstrumentedPool.adopt (some s) with observers := observers }
  owner := none
  threads _ := ⟨.idle, []⟩
  off := 0
  mostOff := 0
  mostLive := 0
  failed := 0
  raised := []
  told := []

variable [DecidableEq τ]

def move (m : Machine τ) (t : τ) (th : Thread) : Machine τ :=
  { m with threads := Function.update m.threads t th }

/-- The machine after a step, and what the ghosts record of it. -/
def after (m : Machine τ) (t : τ) (o : Outcome τ) : Machine τ where
  ip := o.ip
  owner := o.owner
  threads := Function.update m.threads t ((m.threads t).after o)
  off := o.label.off m.off
  mostOff := max m.mostOff (o.label.off m.off)
  mostLive := max m.mostLive o.ip.live
  failed := o.label.failures m.failed
  raised := o.label.raises m.raised
  told := o.label.tells m.told

end Machine

section System

variable {τ : Type*} [DecidableEq τ]

/-- A thread calls `allocate`, `try_allocate` or `deallocate`, or takes its next step, or writes a
byte somewhere. -/
inductive Step (B : Build) : Machine τ → Event τ → Machine τ → Prop where
  | alloc {m : Machine τ} {t : τ} {verb : Session.Verb} : (m.threads t).pc = .idle →
      Step B m (.alloc t verb) (m.move t { m.threads t with pc := .pop })
  | deallocate {m : Machine τ} {t : τ} {block : Nat} : (m.threads t).pc = .idle →
      Step B m (.deallocate t block)
        (m.move t ⟨if block = 0 then .pushNull else .countDeallocation block,
          (m.threads t).held.erase block⟩)
  | instr {m : Machine τ} {t : τ} {env : StepEnv} {o : Outcome τ} :
      instr B t env m.ip m.owner (m.threads t).pc = some o →
      Step B m (.instr t env) (m.after t o)
  | write {m : Machine τ} {t : τ} {addr : Nat} {byte : UInt8} {s : State} : m.ip.pool = some s →
      Step B m (.write t addr byte)
        { m with ip := { m.ip with pool := some { s with mem := set s.mem addr byte } } }

def lts (B : Build) (τ : Type*) [DecidableEq τ] : Lts (Machine τ) (Event τ) := ⟨Step B⟩

/-- Threads deallocate and write what they hold. -/
def OwnBlocks (m : Machine τ) : Event τ → Prop
  | .deallocate t block => block = 0 ∨ block ∈ (m.threads t).held
  | .write t addr _ => ∃ b ∈ (m.threads t).held, b ≤ addr ∧
      addr < b + memoryPoolBlockSize m.ip.pool
  | _ => True

def exec (B : Build) (m : Machine τ) (e : Event τ) : Option (Event τ × Machine τ) :=
  match e with
  | .alloc t _ =>
    if (m.threads t).pc = .idle then some (e, m.move t { m.threads t with pc := .pop }) else none
  | .deallocate t block =>
    if (m.threads t).pc = .idle ∧ (block = 0 ∨ block ∈ (m.threads t).held) then
      some (e, m.move t ⟨if block = 0 then .pushNull else .countDeallocation block,
        (m.threads t).held.erase block⟩)
    else none
  | .instr t env => (instr B t env m.ip m.owner (m.threads t).pc).map fun o => (e, m.after t o)
  | .write .. => none

theorem exec_step {B : Build} (m : Machine τ) (i e : Event τ) (m' : Machine τ)
    (h : exec B m i = some (e, m')) : ((lts B τ).guard OwnBlocks).step m e m' := by
  unfold exec at h
  cases i with
  | alloc t verb =>
    simp only at h
    split at h
    · rename_i hidle
      cases h
      exact ⟨trivial, .alloc hidle⟩
    · cases h
  | deallocate t block =>
    simp only at h
    split at h
    · rename_i hok
      cases h
      exact ⟨hok.2, .deallocate hok.1⟩
    · cases h
  | instr t env =>
    obtain ⟨o, ho, heq⟩ := Option.map_eq_some_iff.mp h
    cases heq
    exact ⟨trivial, .instr ho⟩
  | write t addr byte => cases h

end System

/-! ## The mutex -/

section Exclusion

variable {τ : Type*} {B : Build} {t : τ} {env : StepEnv} {ip : InstrumentedPool} {owner : Option τ}
  {pc : Pc} {o : Outcome τ} {m m' : Machine τ}

theorem popped_critical (block : Nat) : (popped block).critical = false := by
  unfold popped
  split <;> rfl

theorem popped_uncounted (block : Nat) : (popped block).uncounted = true := by
  unfold popped
  split <;> rfl

/-- A pop in one step, or the first of its steps. -/
theorem instr_pop (h : instr B t env ip owner .pop = some o) : owner = none ∧
    (o = { ip := { ip with pool := (Pool.tryAllocate B env.pool ip.pool).2 }, owner := none,
           pc := popped (Pool.tryAllocate B env.pool ip.pool).1,
           label := if (Pool.tryAllocate B env.pool ip.pool).1 = 0 then .quiet else .took } ∨
      o = { ip := ip, owner := some t, pc := .popGrow }) := by
  simp only [instr] at h
  split at h
  · cases h
  · refine ⟨rfl, ?_⟩
    split at h
    · cases h
      exact Or.inl rfl
    · split at h
      · cases h
        exact Or.inr rfl
      · cases h

/-- A pop of the pool leaves the counters alone, and ends before them. -/
theorem instr_popping (h : instr B t env ip owner pc = some o) (hpc : pc.popping = true) :
    (∃ pool, o.ip = { ip with pool := pool }) ∧ o.pc.uncounted = true ∧
      (o.label = .quiet ∨ o.label = .took) ∧ o.returned = none := by
  cases pc with
  | pop =>
    obtain ⟨-, rfl | rfl⟩ := instr_pop h
    · refine ⟨⟨_, rfl⟩, popped_uncounted _, ?_, rfl⟩
      dsimp only
      split
      · exact Or.inl rfl
      · exact Or.inr rfl
    · exact ⟨⟨_, rfl⟩, rfl, Or.inl rfl, rfl⟩
  | popGrow =>
    simp only [instr] at h
    (repeat' split at h) <;> cases h <;> exact ⟨⟨_, rfl⟩, rfl, Or.inl rfl, rfl⟩
  | popTake =>
    simp only [instr] at h
    split at h
    · cases h
    · cases h
      exact ⟨⟨_, rfl⟩, rfl, Or.inr rfl, rfl⟩
  | popUnlock block =>
    cases h
    exact ⟨⟨_, rfl⟩, popped_uncounted _, Or.inl rfl, rfl⟩
  | _ => cases hpc

theorem instr_owner (h : instr B t env ip owner pc = some o) :
    (o.pc.critical = pc.critical ∧ o.owner = owner) ∨
      (pc.critical = false ∧ o.pc.critical = true ∧ owner = none ∧ o.owner = some t) ∨
      (pc.critical = true ∧ o.pc.critical = false ∧ o.owner = none) := by
  cases pc with
  | pop =>
    obtain ⟨rfl, rfl | rfl⟩ := instr_pop h
    · exact Or.inl ⟨popped_critical _, rfl⟩
    · exact Or.inr (Or.inl ⟨rfl, rfl, rfl, rfl⟩)
  | popUnlock block =>
    cases h
    exact Or.inr (Or.inr ⟨rfl, popped_critical _, rfl⟩)
  | _ =>
    simp only [instr] at h
    (repeat' split at h) <;> cases h <;> simp [Pc.critical, *]

/-- The mutex is held by the thread in the critical section, and by no other. -/
def Exclusive (m : Machine τ) : Prop :=
  ∀ t, (m.threads t).pc.critical = true ↔ m.owner = some t

theorem Exclusive.start (s : State) (observers : List Nat) :
    Exclusive (Machine.start s observers : Machine τ) := by
  intro t
  simp [Machine.start, Pc.critical]

theorem Exclusive.other (X : Exclusive m) (hc : (m.threads t).pc.critical = true) {t' : τ}
    (ht : t' ≠ t) : (m.threads t').pc.critical = false := by
  by_contra hcc
  have h1 := (X t).mp hc
  rw [(X t').mp (by simpa using hcc)] at h1
  exact ht (Option.some.inj h1)

variable [DecidableEq τ]

@[simp] theorem Machine.after_pc (m : Machine τ) (t : τ) (o : Outcome τ) :
    ((m.after t o).threads t).pc = o.pc := by
  simp [Machine.after, Thread.after]

theorem Machine.after_other (m : Machine τ) {t t' : τ} (o : Outcome τ) (ht : t' ≠ t) :
    (m.after t o).threads t' = m.threads t' := by
  simp [Machine.after, ht]

theorem Machine.move_other (m : Machine τ) {t t' : τ} (th : Thread) (ht : t' ≠ t) :
    (m.move t th).threads t' = m.threads t' := by
  simp [Machine.move, ht]

theorem Exclusive.step (X : Exclusive m) {e : Event τ} (h : Step B m e m') : Exclusive m' := by
  have hcall : ∀ t th, (m.threads t).pc = .idle → th.pc.critical = false →
      Exclusive (m.move t th) := by
    intro t th hidle hc t'
    by_cases ht : t' = t
    · subst ht
      have hx := X t'
      rw [hidle] at hx
      simp only [Machine.move, Function.update_self]
      rw [hc]
      exact hx
    · rw [Machine.move_other _ _ ht]
      exact X t'
  cases h with
  | alloc hidle => exact hcall _ _ hidle rfl
  | deallocate hidle =>
    refine hcall _ _ hidle ?_
    dsimp only
    split <;> rfl
  | write _ => exact X
  | @instr t env o h =>
    intro t'
    have hx := X t
    have hx' := X t'
    by_cases ht : t' = t
    · subst ht
      rw [Machine.after_pc]
      show o.pc.critical = true ↔ o.owner = some t'
      rcases instr_owner h with ⟨h1, h2⟩ | ⟨-, h2, -, h4⟩ | ⟨-, h2, h3⟩
      · rw [h1, h2]; exact hx
      · simp [h2, h4]
      · simp [h2, h3]
    · rw [Machine.after_other _ _ ht]
      show (m.threads t').pc.critical = true ↔ o.owner = some t'
      rcases instr_owner h with ⟨-, h2⟩ | ⟨-, -, h3, h4⟩ | ⟨h1, -, h3⟩
      · rw [h2]; exact hx'
      · rw [h3] at hx'
        simp [hx', h4, Ne.symm ht]
      · rw [hx.mp h1] at hx'
        simp [hx', h3, Ne.symm ht]

end Exclusion

end Threaded

end MemoryPool
