import MemoryPool.Pool

/-!
# MemoryPool.Policy

The thread-safety policies as one thread drives them: `SingleThreadedPolicy`, `MutexPolicy` and
`LockFreePolicy`, each with its `pop_head` and `push_head`.

The lock-free loops retry on a failed `compare_exchange_weak`. With one thread the comparison can
only fail spuriously, `env.spurious` times in a call; the loops are still written with the
comparison, and terminate because `expected` is reloaded on failure.
-/

namespace MemoryPool

open ByteMem

namespace State

def setWorld (s : State) (w : World) : State := { s with toWorld := w }

def setHead (s : State) (ptr : Nat) : State :=
  { s with pool := { s.pool with head := { s.pool.head with ptr := ptr } } }

/-- A successful compare-exchange of the tagged head. -/
def setTaggedHead (s : State) (head : TaggedHead) : State :=
  { s with pool := { s.pool with head := head } }

/-- The policies' call of `on_alloc`, compiled in when hardened. -/
def onAllocHook (B : Build) (s : State) (block : Nat) : State :=
  if B.hardening then s.setWorld (onAlloc B s.toWorld block s.pool.blockSize) else s

def onFreeHook (B : Build) (s : State) (block : Nat) : Bool × State :=
  if B.hardening then
    let result := onFree B s.toWorld block s.pool.blockSize
    (result.1, s.setWorld result.2)
  else (true, s)

def storeNext (B : Build) (s : State) (slot next : Nat) : State :=
  { s with mem := writeNext B s.mem slot next }

end State

/-- The body of `pop_head` that `SingleThreadedPolicy` runs as it is and `MutexPolicy` under its
lock. -/
def popUnlocked (B : Build) (env : Env) (s : State) : Nat × State :=
  let (ready, s) :=
    if s.pool.head.ptr = 0 then
      if s.pool.growFactor < 2 then (false, s) else growPool B env s
    else (true, s)
  if !ready then (0, s)
  else
    let block := s.pool.head.ptr
    let next := readNext B s.toWorld block
    let s := (s.setWorld next.2).setHead next.1
    (block, s.onAllocHook B block)

def pushUnlocked (B : Build) (s : State) (block : Nat) : State :=
  let (enqueue, s) := s.onFreeHook B block
  if !enqueue then s
  else (s.storeNext B block s.pool.head.ptr).setHead block

namespace SingleThreadedPolicy

def popHead (B : Build) (env : Env) (s : State) : Nat × State := popUnlocked B env s

def pushHead (B : Build) (s : State) (block : Nat) : State := pushUnlocked B s block

end SingleThreadedPolicy

namespace MutexPolicy

def lock (s : State) : State := { s with pool := { s.pool with mutex := true } }

def unlock (s : State) : State := { s with pool := { s.pool with mutex := false } }

def popHead (B : Build) (env : Env) (s : State) : Nat × State :=
  let (block, s) := popUnlocked B env (lock s)
  (block, unlock s)

def pushHead (B : Build) (s : State) (block : Nat) : State := unlock (pushUnlocked B (lock s) block)

end MutexPolicy

namespace LockFreePolicy

def popLoop (B : Build) (spurious : Nat) (expected : TaggedHead) (s : State) : Nat × State :=
  if expected.ptr = 0 then (0, s)
  else
    let next := revealNext B s.mem expected.ptr
    let desired : TaggedHead := ⟨next, B.add expected.tag 1⟩
    match spurious with
    | 0 =>
      if s.pool.head = expected then
        (expected.ptr, (s.setTaggedHead desired).onAllocHook B expected.ptr)
      else popLoop B 0 s.pool.head s
    | spurious + 1 => popLoop B spurious s.pool.head s
  termination_by (spurious, if s.pool.head = expected then 0 else 1)
  decreasing_by
    · rename_i hne
      right
      simp [hne]
    · left; omega

def popHead (B : Build) (env : Env) (s : State) : Nat × State :=
  popLoop B env.spurious s.pool.head s

def pushLoop (B : Build) (block : Nat) (spurious : Nat) (expected : TaggedHead) (s : State) :
    State :=
  let stored := s.storeNext B block expected.ptr
  let desired : TaggedHead := ⟨block, B.add expected.tag 1⟩
  match spurious with
  | 0 =>
    if s.pool.head = expected then stored.setTaggedHead desired
    else pushLoop B block 0 s.pool.head stored
  | spurious + 1 => pushLoop B block spurious s.pool.head stored
  termination_by (spurious, if s.pool.head = expected then 0 else 1)
  decreasing_by
    · rename_i hne
      right
      simp [State.storeNext, hne]
    · left; omega

def pushHead (B : Build) (env : Env) (s : State) (block : Nat) : State :=
  let (enqueue, s) := s.onFreeHook B block
  if !enqueue then s
  else pushLoop B block env.spurious s.pool.head s

end LockFreePolicy

/-- `ActivePolicy::pop_head`. -/
def popHead (B : Build) (env : Env) (s : State) : Nat × State :=
  match B.threadSafety with
  | .none => SingleThreadedPolicy.popHead B env s
  | .mutex => MutexPolicy.popHead B env s
  | .lockfree => LockFreePolicy.popHead B env s

def pushHead (B : Build) (env : Env) (s : State) (block : Nat) : State :=
  match B.threadSafety with
  | .none => SingleThreadedPolicy.pushHead B s block
  | .mutex => MutexPolicy.pushHead B s block
  | .lockfree => LockFreePolicy.pushHead B env s block

/-! ## What the policies have in common when one thread drives them -/

/-- The state with the mutex held or not. Nothing in the pool code but the lock guards looks at
it. -/
def State.setMutex (s : State) (held : Bool) : State :=
  { s with pool := { s.pool with mutex := held } }

theorem State.setMutex_toWorld (s : State) (held : Bool) :
    (s.setMutex held).toWorld = s.toWorld := rfl

theorem State.setMutex_blockSize (s : State) (held : Bool) :
    (s.setMutex held).pool.blockSize = s.pool.blockSize := rfl

theorem growPool_setMutex (B : Build) (env : Env) (s : State) (held : Bool) :
    growPool B env (s.setMutex held) =
      ((growPool B env s).1, (growPool B env s).2.setMutex held) := by
  have hc : growthCount B (s.setMutex held).pool = growthCount B s.pool := rfl
  unfold growPool
  rw [hc]
  cases growthCount B s.pool with
  | none => rfl
  | some add =>
    simp only [State.setMutex]
    split
    · rfl
    · split <;> rfl

theorem onAllocHook_setMutex (B : Build) (s : State) (held : Bool) (block : Nat) :
    (s.setMutex held).onAllocHook B block = (s.onAllocHook B block).setMutex held := by
  unfold State.onAllocHook
  cases B.hardening <;> rfl

theorem onFreeHook_setMutex (B : Build) (s : State) (held : Bool) (block : Nat) :
    (s.setMutex held).onFreeHook B block =
      ((s.onFreeHook B block).1, (s.onFreeHook B block).2.setMutex held) := by
  unfold State.onFreeHook
  cases B.hardening with
  | false => rfl
  | true =>
    simp only [if_true, State.setMutex_toWorld, State.setMutex_blockSize]
    generalize onFree B s.toWorld block s.pool.blockSize = r
    rfl

theorem popUnlocked_setMutex (B : Build) (env : Env) (s : State) (held : Bool) :
    popUnlocked B env (s.setMutex held) =
      ((popUnlocked B env s).1, (popUnlocked B env s).2.setMutex held) := by
  have hrest : ∀ t : State,
      (((t.setMutex held).setWorld (readNext B t.toWorld t.pool.head.ptr).2).setHead
        (readNext B t.toWorld t.pool.head.ptr).1).onAllocHook B t.pool.head.ptr =
      (((t.setWorld (readNext B t.toWorld t.pool.head.ptr).2).setHead
        (readNext B t.toWorld t.pool.head.ptr).1).onAllocHook B t.pool.head.ptr).setMutex held := by
    intro t
    exact onAllocHook_setMutex B ((t.setWorld (readNext B t.toWorld t.pool.head.ptr).2).setHead
      (readNext B t.toWorld t.pool.head.ptr).1) held t.pool.head.ptr
  unfold popUnlocked
  by_cases h0 : s.pool.head.ptr = 0
  · have h0' : (s.setMutex held).pool.head.ptr = 0 := h0
    rw [if_pos h0, if_pos h0']
    by_cases hf : s.pool.growFactor < 2
    · have hf' : (s.setMutex held).pool.growFactor < 2 := hf
      rw [if_pos hf, if_pos hf']
      rfl
    · have hf' : ¬ (s.setMutex held).pool.growFactor < 2 := hf
      rw [if_neg hf, if_neg hf', growPool_setMutex]
      rcases growPool B env s with ⟨ready, t⟩
      cases ready with
      | false => rfl
      | true => exact Prod.ext rfl (hrest t)
  · have h0' : ¬ (s.setMutex held).pool.head.ptr = 0 := h0
    rw [if_neg h0, if_neg h0']
    exact Prod.ext rfl (hrest s)

theorem pushUnlocked_setMutex (B : Build) (s : State) (held : Bool) (block : Nat) :
    pushUnlocked B (s.setMutex held) block = (pushUnlocked B s block).setMutex held := by
  unfold pushUnlocked
  rw [onFreeHook_setMutex]
  rcases s.onFreeHook B block with ⟨enqueue, t⟩
  cases enqueue <;> rfl

theorem popLoop_lone (B : Build) (spurious : Nat) (s : State) :
    LockFreePolicy.popLoop B spurious s.pool.head s =
      if s.pool.head.ptr = 0 then (0, s)
      else (s.pool.head.ptr,
        (s.setTaggedHead ⟨revealNext B s.mem s.pool.head.ptr, B.add s.pool.head.tag 1⟩).onAllocHook
          B s.pool.head.ptr) := by
  induction spurious with
  | zero => rw [LockFreePolicy.popLoop]; simp
  | succ k ih =>
    rw [LockFreePolicy.popLoop]
    split
    · rfl
    · simp only [ih]
      rw [if_neg (by assumption)]

theorem pushLoop_lone (B : Build) (block spurious : Nat) (s : State) :
    LockFreePolicy.pushLoop B block spurious s.pool.head s =
      (s.storeNext B block s.pool.head.ptr).setTaggedHead
        ⟨block, B.add s.pool.head.tag 1⟩ := by
  induction spurious generalizing s with
  | zero => rw [LockFreePolicy.pushLoop]; simp
  | succ k ih =>
    rw [LockFreePolicy.pushLoop]
    have hs := ih (s.storeNext B block s.pool.head.ptr)
    have hidem : (s.storeNext B block s.pool.head.ptr).storeNext B block s.pool.head.ptr =
        s.storeNext B block s.pool.head.ptr := by
      simp only [State.storeNext, writeNext, write_write]
    refine hs.trans ?_
    show ((s.storeNext B block s.pool.head.ptr).storeNext B block s.pool.head.ptr).setTaggedHead
      _ = _
    rw [hidem]
    rfl

end MemoryPool
