import MemoryPool.Lib.Bytes
import MemoryPool.Lib.Ledger
import MemoryPool.Platform

/-!
# MemoryPool.World

What the pool code acts on besides its own struct: the bytes of memory, the process heap behind
`::operator new` / `new`, and the log of calls to the hardening violation handler (a handler that
returns).

The heap keeps a ledger of regions. A region that `::operator new` may return is `Admissible`:
not null, aligned, inside the address space, and disjoint from every region outstanding. The
allocator is the environment's: each request comes with the address it would answer (`none` for
`std::bad_alloc`), and an address that is not admissible is no answer of an allocator, so it
counts as a failure. Every behaviour of a correct allocator is some sequence of answers.
-/

namespace MemoryPool

open ByteMem

inductive RegionKind where
  | backing
  | poolStruct
  | chunkNode
  -- what the adapters request, with all that the release has to name again
  | aligned (alignment : Nat)
  | upstream (bytes alignment : Nat)
  deriving DecidableEq

/-- A region of the heap: what it was requested for, its first byte and its size. -/
structure Region where
  kind : RegionKind
  base : Nat
  bytes : Nat
  deriving DecidableEq

def Region.Apart (r r' : Region) : Prop :=
  r.base ≠ r'.base ∧ (r.base + r.bytes ≤ r'.base ∨ r'.base + r'.bytes ≤ r.base)

instance (r r' : Region) : Decidable (r.Apart r') :=
  inferInstanceAs (Decidable (_ ∧ (_ ∨ _)))

theorem Region.Apart.symm {r r' : Region} (h : r.Apart r') : r'.Apart r := ⟨h.1.symm, h.2.symm⟩

/-- The process heap. Outstanding regions are pairwise apart, by construction. -/
structure Heap where
  ledger : Ledger Region
  apart : (ledger.live.map Prod.snd).Pairwise Region.Apart

namespace Heap

def empty : Heap := ⟨Ledger.empty, .nil⟩

/-- What `::operator new(bytes, std::align_val_t{align})` may return. -/
structure Admissible (B : Build) (h : Heap) (r : Region) (align : Nat) : Prop where
  nonnull : r.base ≠ 0
  aligned : r.base % align = 0
  fits : r.base + r.bytes < B.modulus
  fresh : ∀ e ∈ h.ledger.live, Region.Apart r e.2

instance (B : Build) (h : Heap) (r : Region) (align : Nat) : Decidable (h.Admissible B r align) :=
  decidable_of_iff (r.base ≠ 0 ∧ r.base % align = 0 ∧ r.base + r.bytes < B.modulus ∧
    ∀ e ∈ h.ledger.live, Region.Apart r e.2)
    ⟨fun ⟨h1, h2, h3, h4⟩ => ⟨h1, h2, h3, h4⟩, fun ⟨h1, h2, h3, h4⟩ => ⟨h1, h2, h3, h4⟩⟩

def obtain (h : Heap) (r : Region) (hr : ∀ e ∈ h.ledger.live, Region.Apart r e.2) : Heap where
  ledger := h.ledger.obtain r
  apart := by
    simp only [Ledger.live_obtain, List.map_cons, List.pairwise_cons, List.mem_map]
    exact ⟨by rintro _ ⟨e, he, rfl⟩; exact hr e he, h.apart⟩

def release (h : Heap) (kind : RegionKind) (base : Nat) : Heap where
  ledger := h.ledger.release fun r => r.kind = kind ∧ r.base = base
  apart := by
    obtain ⟨gone, hp⟩ := h.ledger.release_sub fun r => r.kind = kind ∧ r.base = base
    have hpw := h.apart.perm (hp.map Prod.snd) Region.Apart.symm
    rw [List.map_append] at hpw
    exact (List.pairwise_append.mp hpw).2.1

/-- The same regions outstanding, and no release that was out of order in between. -/
def SameLive (h h' : Heap) : Prop :=
  h'.ledger.live = h.ledger.live ∧ h'.ledger.invalid = h.ledger.invalid

theorem release_obtain (h : Heap) (r : Region) (hr : ∀ e ∈ h.ledger.live, Region.Apart r e.2) :
    h.SameLive ((h.obtain r hr).release r.kind r.base) :=
  h.ledger.release_obtain (by simp)

end Heap

/-- The kinds of violation passed to the handler (the `HARDENING_*` constants): `use-after-free`,
`buffer-overflow`, `double-free`, `free-list-corruption`. -/
inductive Violation where
  | useAfterFree
  | overflow
  | doubleFree
  | freelistCorruption
  deriving DecidableEq

def Violation.kind : Violation → String
  | .useAfterFree => "use-after-free"
  | .overflow => "buffer-overflow"
  | .doubleFree => "double-free"
  | .freelistCorruption => "free-list-corruption"

structure Report where
  violation : Violation
  block : Nat
  deriving DecidableEq

structure World where
  mem : Mem
  heap : Heap
  reports : List Report

namespace World

def start : World := ⟨fun _ => 0, Heap.empty, []⟩

/-- `report`: call the installed handler, which returns. -/
def report (w : World) (violation : Violation) (block : Nat) : World :=
  { w with reports := w.reports ++ [⟨violation, block⟩] }

/-- `::operator new` and `new`, with the environment's answer. `none` is `std::bad_alloc`. -/
def operatorNew (B : Build) (w : World) (kind : RegionKind) (bytes align : Nat)
    (answer : Option Nat) : Option Nat × World :=
  match answer with
  | none => (none, w)
  | some base =>
    if h : w.heap.Admissible B ⟨kind, base, bytes⟩ align then
      (some base, { w with heap := w.heap.obtain ⟨kind, base, bytes⟩ h.fresh })
    else (none, w)

def operatorDelete (w : World) (kind : RegionKind) (base : Nat) : World :=
  { w with heap := w.heap.release kind base }

def releaseBacking (w : World) (backing : Nat) : World := w.operatorDelete .backing backing

@[simp] theorem report_heap (w : World) (v : Violation) (b : Nat) :
    (w.report v b).heap = w.heap := rfl

/-- Everything a request can do: fail and change nothing, or hand out an admissible region. -/
theorem operatorNew_cases (B : Build) (w : World) (kind : RegionKind) (bytes align : Nat)
    (answer : Option Nat) :
    w.operatorNew B kind bytes align answer = (none, w) ∨
      ∃ base, ∃ h : w.heap.Admissible B ⟨kind, base, bytes⟩ align,
        w.operatorNew B kind bytes align answer =
          (some base, { w with heap := w.heap.obtain ⟨kind, base, bytes⟩ h.fresh }) := by
  unfold operatorNew
  split
  · left; rfl
  · rename_i base
    split
    · rename_i h; right; exact ⟨base, h, rfl⟩
    · left; rfl

end World

end MemoryPool
