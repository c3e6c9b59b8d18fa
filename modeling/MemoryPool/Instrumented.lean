import MemoryPool.Lib.Cas
import MemoryPool.Client

/-!
# MemoryPool.Instrumented

`InstrumentedPool`, the decorator over `Pool` that counts and notifies, as one thread drives it.

The five counters and `last_growths_` are `std::atomic<size_t>`: they count modulo `2 ^ width`, and
the compare-exchange loops may fail spuriously. Observers are pointers; what they are told is kept
in the order of the calls (`delivered`).
-/

namespace MemoryPool

open ByteMem

structure PoolStats where
  allocations : Nat
  deallocations : Nat
  allocationFailures : Nat
  live : Nat
  peakLive : Nat
  deriving DecidableEq

inductive PoolEvent where
  | exhausted
  | grew
  | destroyed
  deriving DecidableEq

/-- One call of `on_pool_event`. -/
structure Delivery where
  observer : Nat
  event : PoolEvent
  stats : PoolStats
  deriving DecidableEq

structure InstrumentedPool where
  pool : Option State
  allocations : Nat
  deallocations : Nat
  allocationFailures : Nat
  live : Nat
  peakLive : Nat
  observers : List Nat
  lastGrowths : Nat
  delivered : List Delivery

/-- The environment of one call: that of the pool, and the spurious failures of each of the three
loops. -/
structure CallEnv where
  pool : Env
  live : Nat
  peakLive : Nat
  lastGrowths : Nat
  deriving DecidableEq

/-- `Pool::allocate`; `none` is `std::bad_alloc` thrown. -/
def Pool.allocate (B : Build) (env : Env) (handle : Option State) : Option Nat × Option State :=
  let (block, handle) := memoryPoolAlloc B env handle
  (if block = 0 then none else some block, handle)

theorem Pool.allocate_eq {B : Build} {env : Env} {handle handle' : Option State} {block : Nat}
    (h : memoryPoolAlloc B env handle = (block, handle')) :
    Pool.allocate B env handle = (if block = 0 then none else some block, handle') := by
  unfold Pool.allocate
  rw [h]

def Pool.tryAllocate (B : Build) (env : Env) (handle : Option State) : Nat × Option State :=
  memoryPoolAlloc B env handle

def Pool.deallocate (B : Build) (env : Env) (handle : Option State) (block : Nat) :
    Option State :=
  memoryPoolFree B env handle block

namespace InstrumentedPool

def adopt (pool : Option State) : InstrumentedPool := ⟨pool, 0, 0, 0, 0, 0, [], 0, []⟩

def addObserver (ip : InstrumentedPool) (observer : Nat) : InstrumentedPool :=
  { ip with observers := ip.observers ++ [observer] }

def stats (ip : InstrumentedPool) : PoolStats :=
  ⟨ip.allocations, ip.deallocations, ip.allocationFailures, ip.live, ip.peakLive⟩

def notify (ip : InstrumentedPool) (event : PoolEvent) : InstrumentedPool :=
  let snapshot := ip.stats
  { ip with
    delivered := ip.delivered ++ ip.observers.map fun observer => ⟨observer, event, snapshot⟩ }

def recordAllocation (B : Build) (env : CallEnv) (ip : InstrumentedPool) : InstrumentedPool :=
  let ip := { ip with allocations := B.add ip.allocations 1 }
  let live := B.add ip.live 1
  let ip := { ip with live := live }
  let peak := ip.peakLive
  { ip with
    peakLive :=
      (casLoop ip.peakLive env.peakLive peak fun peak =>
        if peak < live then some live else none).1 }

def notifyIfGrew (env : CallEnv) (ip : InstrumentedPool) : InstrumentedPool :=
  let growths := memoryPoolGrowths ip.pool
  let last := ip.lastGrowths
  let (cell, won) := casLoop ip.lastGrowths env.lastGrowths last fun last =>
    if last < growths then some growths else none
  let ip := { ip with lastGrowths := cell }
  if won then ip.notify .grew else ip

def recordFailure (B : Build) (ip : InstrumentedPool) : InstrumentedPool :=
  notify { ip with allocationFailures := B.add ip.allocationFailures 1 } .exhausted

/-- `allocate`; `none` is `std::bad_alloc` thrown. -/
def allocate (B : Build) (env : CallEnv) (ip : InstrumentedPool) : Option Nat × InstrumentedPool :=
  match Pool.allocate B env.pool ip.pool with
  | (none, handle) => (none, recordFailure B { ip with pool := handle })
  | (some block, handle) =>
    (some block, notifyIfGrew env (recordAllocation B env { ip with pool := handle }))

def tryAllocate (B : Build) (env : CallEnv) (ip : InstrumentedPool) : Nat × InstrumentedPool :=
  let (block, handle) := Pool.tryAllocate B env.pool ip.pool
  let ip := { ip with pool := handle }
  if block = 0 then (0, recordFailure B ip)
  else (block, notifyIfGrew env (recordAllocation B env ip))

/-- `deallocate`. The counters come first, then the pool decides. -/
def deallocate (B : Build) (env : CallEnv) (ip : InstrumentedPool) (block : Nat) :
    InstrumentedPool :=
  let ip :=
    if block ≠ 0 then
      let ip := { ip with deallocations := B.add ip.deallocations 1 }
      let live := ip.live
      { ip with
        live := (casLoop ip.live env.live live fun live =>
          if 0 < live then some (B.sub live 1) else none).1 }
    else ip
  { ip with pool := Pool.deallocate B env.pool ip.pool block }

end InstrumentedPool

/-- A client of an instrumented pool: besides the pool, the blocks it holds and the most it has
held so far. -/
structure Session where
  ip : InstrumentedPool
  held : List Nat
  most : Nat

namespace Session

inductive Verb where
  | allocate
  | tryAllocate
  deriving DecidableEq

def Verb.run (B : Build) (env : CallEnv) (ip : InstrumentedPool) : Verb → Nat × InstrumentedPool
  | .allocate =>
    match ip.allocate B env with
    | (none, ip) => (0, ip)
    | (some block, ip) => (block, ip)
  | .tryAllocate => ip.tryAllocate B env

/-- `block` is null for a call that failed; `grown` is the chunk the core acquired during it. -/
inductive Event where
  | alloc (verb : Verb) (env : CallEnv) (block : Nat) (grown : Option Chunk)
  | deallocate (env : CallEnv) (block : Nat)
  | write (addr : Nat) (byte : UInt8)
  deriving DecidableEq

inductive Step (B : Build) : Session → Event → Session → Prop where
  | alloc {c : Session} {verb : Verb} {env : CallEnv} {block : Nat} {ip' : InstrumentedPool}
      {s s' : State} : c.ip.pool = some s → verb.run B env c.ip = (block, ip') →
      ip'.pool = some s' →
      Step B c (.alloc verb env block (newChunk s s'))
        (if block = 0 then ⟨ip', c.held, c.most⟩
        else ⟨ip', block :: c.held, max c.most (c.held.length + 1)⟩)
  | deallocate {c : Session} {env : CallEnv} {block : Nat} :
      Step B c (.deallocate env block)
        ⟨c.ip.deallocate B env block, c.held.erase block, c.most⟩
  | write {c : Session} {addr : Nat} {byte : UInt8} {s : State} : c.ip.pool = some s →
      Step B c (.write addr byte)
        { c with ip := { c.ip with pool := some { s with mem := set s.mem addr byte } } }

def lts (B : Build) : Lts Session Event := ⟨Step B⟩

/-- A fresh decorator around a pool some of whose blocks are vended already. -/
def start (s : State) (observers held : List Nat) : Session :=
  ⟨{ InstrumentedPool.adopt (some s) with observers := observers }, held, held.length⟩

/-- `live_` is the number of blocks outstanding, `peak_live_` the most there have been. -/
def Exact (c : Session) : Prop :=
  c.ip.stats.live = c.held.length ∧ c.ip.stats.peakLive = c.most

def slots (B : Build) (c : Session) : List Nat :=
  match c.ip.pool with
  | none => []
  | some s => s.pool.slots B

/-- What `is_block_in_range` says of a pointer. -/
def inRange (B : Build) (c : Session) (block : Nat) : Bool :=
  match c.ip.pool with
  | none => false
  | some s => isBlockInRange B s.pool block

def head (c : Session) : Nat :=
  match c.ip.pool with
  | none => 0
  | some s => s.pool.head.ptr

/-- Any pointer may be deallocated but a slot on the free list; writes go to held blocks. -/
def Allowed (B : Build) (c : Session) : Event → Prop
  | .alloc .. => True
  | .deallocate _ block => block ∈ c.held ∨ block ∉ c.slots B
  | .write addr _ => ∃ b ∈ c.held, b ≤ addr ∧ addr < b + memoryPoolBlockSize c.ip.pool

instance (B : Build) (c : Session) (e : Event) : Decidable (Allowed B c e) :=
  match e with
  | .alloc .. => .isTrue trivial
  | .deallocate _ block => inferInstanceAs (Decidable (block ∈ c.held ∨ block ∉ c.slots B))
  | .write addr _ => inferInstanceAs
      (Decidable (∃ b ∈ c.held, b ≤ addr ∧ addr < b + memoryPoolBlockSize c.ip.pool))

/-- A pointer that the range check rejects is deallocated only while nothing is outstanding. -/
def RejectedWhenIdle (B : Build) (c : Session) : Event → Prop
  | .deallocate _ block => block ≠ 0 → c.inRange B block = false → c.held = []
  | _ => True

instance (B : Build) (c : Session) (e : Event) : Decidable (RejectedWhenIdle B c e) :=
  match e with
  | .alloc .. => .isTrue trivial
  | .deallocate _ block => inferInstanceAs
      (Decidable (block ≠ 0 → c.inRange B block = false → c.held = []))
  | .write .. => .isTrue trivial

/-- What one call should tell the observers: that it failed, or that the core grew, with the
counters as the call left them. -/
def expectedDeliveries (c : Session) (e : Event) (c' : Session) : List Delivery :=
  match e with
  | .alloc _ _ block grown =>
    (if block = 0 then c.ip.observers.map fun o => ⟨o, .exhausted, c'.ip.stats⟩ else []) ++
      if grown.isSome then c.ip.observers.map fun o => ⟨o, .grew, c'.ip.stats⟩ else []
  | _ => []

/-- The call told them that and nothing else. -/
def Faithful (c : Session) (e : Event) (c' : Session) : Prop :=
  c'.ip.delivered = c.ip.delivered ++ c.expectedDeliveries e c'

/-- Allocations find `last_growths_` up to date, or the free list empty, or nobody to tell. -/
def GrowthsSeen (c : Session) : Event → Prop
  | .alloc .. =>
    c.ip.lastGrowths = memoryPoolGrowths c.ip.pool ∨ c.head = 0 ∨ c.ip.observers = []
  | _ => True

instance (c : Session) (e : Event) : Decidable (GrowthsSeen c e) :=
  match e with
  | .alloc .. => inferInstanceAs (Decidable (_ ∨ _ ∨ _))
  | .deallocate .. => .isTrue trivial
  | .write .. => .isTrue trivial

inductive Call where
  | alloc (verb : Verb) (env : CallEnv)
  | deallocate (env : CallEnv) (block : Nat)
  | write (addr : Nat) (byte : UInt8)

def exec (B : Build) (G : Session → Event → Prop) [∀ c e, Decidable (G c e)] (c : Session)
    (call : Call) : Option (Event × Session) :=
  match c.ip.pool with
  | none => none
  | some s =>
    match call with
    | .alloc verb env =>
      match verb.run B env c.ip with
      | (block, ip') =>
        match ip'.pool with
        | none => none
        | some s' =>
          let e : Event := .alloc verb env block (newChunk s s')
          if G c e then
            some (e, if block = 0 then ⟨ip', c.held, c.most⟩
              else ⟨ip', block :: c.held, max c.most (c.held.length + 1)⟩)
          else none
    | .deallocate env block =>
      if G c (.deallocate env block) then
        some (.deallocate env block, ⟨c.ip.deallocate B env block, c.held.erase block, c.most⟩)
      else none
    | .write addr byte =>
      if G c (.write addr byte) then
        some (.write addr byte,
          { c with ip := { c.ip with pool := some { s with mem := set s.mem addr byte } } })
      else none

theorem exec_step {B : Build} {G : Session → Event → Prop} [∀ c e, Decidable (G c e)]
    (c : Session) (call : Call) (e : Event) (c' : Session) (h : exec B G c call = some (e, c')) :
    ((lts B).guard G).step c e c' := by
  unfold exec at h
  split at h
  · cases h
  · rename_i s hs
    cases call with
    | alloc verb env =>
      simp only at h
      split at h
      · cases h
      · rename_i s' hs'
        split at h
        · rename_i hG
          cases h
          exact ⟨hG, .alloc hs rfl hs'⟩
        · cases h
    | deallocate env block =>
      simp only at h
      split at h
      · rename_i hG
        cases h
        exact ⟨hG, .deallocate⟩
      · cases h
    | write addr byte =>
      simp only at h
      split at h
      · rename_i hG
        cases h
        exact ⟨hG, .write hs⟩
      · cases h

end Session

end MemoryPool
