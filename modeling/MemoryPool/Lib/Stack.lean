import Mathlib.Data.List.Perm.Basic
import MemoryPool.Lib.Lts

/-!
# MemoryPool.Lib.Stack

What a pool of reusable items is for, stated without any memory: a last-in first-out stack of
free items and the items vended to clients.

* `Stack.lts`: the plain stack, one `push` or `pop` at a time.
* `Vending.lts`: the stack together with the vended items. Vending takes the top; on an empty
  stack a whole batch of fresh items may be pushed first; an item is taken back only if it is
  vended.
-/

inductive StackOp (α : Type*) where
  | pop (b : α)
  | push (b : α)
  deriving DecidableEq

namespace Stack

variable {α : Type*}

inductive Step : List α → StackOp α → List α → Prop where
  | pop {b : α} {l : List α} : Step (b :: l) (.pop b) l
  | push {b : α} {l : List α} : Step l (.push b) (b :: l)

def lts (α : Type*) : Lts (List α) (StackOp α) := ⟨Step⟩

end Stack

/-- The free items, top first, and the vended ones. -/
structure Vending (α : Type*) where
  free : List α
  vended : List α

namespace Vending

variable {α : Type*}

/-- `vend fresh b`: `b` is handed out, after the batch `fresh` was pushed (`[]` if none was).
`accept b`: `b` is taken back. `refuse p`: `p` is not vended and nothing happens. `quiet`: the
clients do something else. -/
inductive Event (α : Type*) where
  | vend (fresh : List α) (b : α)
  | exhausted
  | accept (b : α)
  | refuse (p : α)
  | quiet

variable [DecidableEq α]

inductive Step : Vending α → Event α → Vending α → Prop where
  | pop {b : α} {l v : List α} : Step ⟨b :: l, v⟩ (.vend [] b) ⟨l, b :: v⟩
  | grow {b : α} {l v : List α} : Step ⟨[], v⟩ (.vend (b :: l) b) ⟨l, b :: v⟩
  | exhausted {v : List α} : Step ⟨[], v⟩ .exhausted ⟨[], v⟩
  | accept {b : α} {l v : List α} : b ∈ v → Step ⟨l, v⟩ (.accept b) ⟨b :: l, v.erase b⟩
  | refuse {p : α} {l v : List α} : p ∉ v → Step ⟨l, v⟩ (.refuse p) ⟨l, v⟩
  | quiet {s : Vending α} : Step s .quiet s

def lts (α : Type*) [DecidableEq α] : Lts (Vending α) (Event α) := ⟨Step⟩

end Vending
