import Mathlib.Tactic.Common

/-!
# MemoryPool.Lib.Cas

The retry loop around `compare_exchange_weak`, as one thread runs it:

`while (next(expected) && !cell.compare_exchange_weak(expected, *next(expected))) {}`

A failed exchange, spurious or not, reloads `expected` from the cell. `casLoop` answers the new
content of the cell and whether the loop ended by a successful exchange; `casLoop_lone` says that
with the cell to itself a thread gets the same as without any retry.
-/

variable {α : Type*} [DecidableEq α]

def casOnce (cell : α) (next : α → Option α) : α × Bool :=
  match next cell with
  | none => (cell, false)
  | some v => (v, true)

/-- The first argument after the cell counts the exchanges that fail for no reason. When they are
used up, only a stale `expected` can fail, once: the reload is of a cell nobody else writes. -/
def casLoop (cell : α) : Nat → α → (α → Option α) → α × Bool
  | 0, expected, next =>
    match next expected with
    | none => (cell, false)
    | some v => if cell = expected then (v, true) else casOnce cell next
  | spurious + 1, expected, next =>
    match next expected with
    | none => (cell, false)
    | some _ => casLoop cell spurious cell next

theorem casLoop_lone (cell : α) (spurious : Nat) (next : α → Option α) :
    casLoop cell spurious cell next = casOnce cell next := by
  induction spurious with
  | zero =>
    unfold casLoop casOnce
    cases next cell <;> simp
  | succ k ih =>
    unfold casLoop
    rw [ih]
    unfold casOnce
    cases next cell <;> rfl

/-- A tag that counts exchanges modulo `M` still tells two instants apart when fewer than `M`
exchanges lie between them. -/
theorem eq_of_tag_eq {M snap now : Nat} (hle : snap ≤ now) (hwindow : now - snap < M)
    (htag : snap % M = now % M) : snap = now := by
  have h := Nat.sub_mod_eq_zero_of_mod_eq htag.symm
  rw [Nat.mod_eq_of_lt hwindow] at h
  omega
