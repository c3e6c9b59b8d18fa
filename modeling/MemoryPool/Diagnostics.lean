import MemoryPool.Api

/-!
# MemoryPool.Diagnostics

The diagnostic surface (`PBR_MEMORY_POOL_DIAGNOSTICS`): the `memory_pool_debug_*` walk over the
free list, and `FreeListIterator` / `FreeListView` of `free_list_iterator.hpp`.

Both walks follow pointers stored in the slots and stop at null, so nothing in their text bounds
them. They take the number of loop tests allowed; `none` is a walk that did not get to its end.
-/

namespace MemoryPool

def memoryPoolDebugFreeListHead : Option State → Nat
  | none => 0
  | some s => s.pool.head.ptr

def memoryPoolDebugFreeListNext (B : Build) (pool : Option State) (current : Nat) :
    Nat × Option State :=
  match pool with
  | none => (0, none)
  | some s =>
    if current = 0 then (0, some s)
    else
      let next := readNext B s.toWorld current
      (next.1, some (s.setWorld next.2))

/-- The loop of `memory_pool_debug_free_count`. -/
def freeCountLoop (B : Build) : Nat → Nat → Nat → State → Option (Nat × State)
  | 0, _, _, _ => none
  | tests + 1, slot, count, s =>
    if slot = 0 then some (count, s)
    else
      let next := readNext B s.toWorld slot
      freeCountLoop B tests next.1 (B.add count 1) (s.setWorld next.2)

def memoryPoolDebugFreeCount (B : Build) (tests : Nat) : Option State → Option (Nat × Option State)
  | none => some (0, none)
  | some s => (freeCountLoop B tests s.pool.head.ptr 0 s).map fun r => (r.1, some r.2)

/-- `FreeListIterator`. `pool` is whether `pool_` is not null; it then points to the pool of the
state the operations are given. -/
structure FreeListIterator where
  pool : Bool
  current : Nat

def poolPointer (pool : Bool) (s : State) : Option State := if pool then some s else none

namespace FreeListIterator

/-- `operator*`. -/
def deref (it : FreeListIterator) : Nat := it.current

/-- `operator==` compares the current slot alone. -/
def eq (it rhs : FreeListIterator) : Bool := it.current == rhs.current

/-- `operator++`. -/
def increment (B : Build) (it : FreeListIterator) (s : State) : FreeListIterator × State :=
  let next := memoryPoolDebugFreeListNext B (poolPointer it.pool s) it.current
  (⟨it.pool, next.1⟩, next.2.getD s)

end FreeListIterator

/-- `FreeListView`, with its `pool_` as in the iterator. -/
structure FreeListView where
  pool : Bool

namespace FreeListView

def begin (v : FreeListView) (s : State) : FreeListIterator :=
  ⟨v.pool, memoryPoolDebugFreeListHead (poolPointer v.pool s)⟩

/-- `end()`. Its null slot is what marks the end. -/
def endIterator (v : FreeListView) : FreeListIterator := ⟨v.pool, 0⟩

end FreeListView

/-- A loop `for (; it != last; ++it)`: the slots it visits, the iterator it ends with, and the
state. -/
def iterate (B : Build) : Nat → FreeListIterator → FreeListIterator → State →
    Option (List Nat × FreeListIterator × State)
  | 0, _, _, _ => none
  | tests + 1, it, last, s =>
    if it.eq last then some ([], it, s)
    else
      let next := it.increment B s
      (iterate B tests next.1 last next.2).map fun r => (it.deref :: r.1, r.2)

end MemoryPool
