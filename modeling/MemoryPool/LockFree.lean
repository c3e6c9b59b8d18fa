import Mathlib.Logic.Function.Basic
import MemoryPool.Client

/-!
# MemoryPool.LockFree

`LockFreePolicy` with any number of threads, one instruction at a time.

`Pc` is where a thread stands inside `pop_head` or `push_head`, with the locals it has there.
`instr` is its next access to shared memory: the load of `head_`, the speculative read of the head
slot's link, the write of the pushed block's link, the compare-exchange, and the reads and writes
of `on_alloc` and `on_free` when hardened. Between the instructions of one thread any others may
run, and holders write into their own blocks (`Step`).

`cas` and `snap` are ghosts: no instruction looks at them.
-/

namespace MemoryPool

namespace LockFree

open ByteMem

inductive Pc where
  | idle
  -- pop_head
  | popLoad
  | popTest (expected : TaggedHead)
  | popCas (expected : TaggedHead) (next : Nat)
  -- on_alloc
  | allocGuard (block : Nat)
  | allocPoison (block : Nat)
  | allocStamp (block : Nat)
  | popRet (block : Nat)
  -- on_free
  | freeGuard (block : Nat)
  | freePoison (block : Nat) (doubleFree : Bool)
  | freeStamp (block : Nat) (doubleFree : Bool)
  -- push_head
  | pushLoad (block : Nat)
  | pushWrite (block : Nat) (expected : TaggedHead)
  | pushCas (block : Nat) (expected : TaggedHead)
  deriving DecidableEq

/-- The block a call has in its hands: popped and not yet returned, or passed to `push_head` and
not yet published. -/
def Pc.block : Pc → List Nat
  | .allocGuard b | .allocPoison b | .allocStamp b | .popRet b => [b]
  | .freeGuard b | .freePoison b _ | .freeStamp b _ => [b]
  | .pushLoad b | .pushWrite b _ | .pushCas b _ => [b]
  | .idle | .popLoad | .popTest _ | .popCas _ _ => []

def Pc.expected : Pc → Option TaggedHead
  | .popTest e | .popCas e _ | .pushWrite _ e | .pushCas _ e => some e
  | _ => none

/-- What an instruction does that is seen from outside: it loads `head_` into `expected`, it is a
successful compare-exchange, `pop_head` returns, or none of these. -/
inductive Label where
  | quiet
  | load
  | cas (op : StackOp Nat)
  | ret (block : Nat)
  deriving DecidableEq

/-- The next instruction of a thread. A weak compare-exchange may fail though the comparison holds
(`spurious`); failing, it loads `head_` into `expected`. -/
def instr (B : Build) (spurious : Bool) (s : State) : Pc → Option (Label × State × Pc)
  | .idle => none
  | .popLoad => some (.load, s, .popTest s.pool.head)
  | .popTest expected =>
    if expected.ptr = 0 then some (.ret 0, s, .idle)
    else some (.quiet, s, .popCas expected (revealNext B s.mem expected.ptr))
  | .popCas expected next =>
    if spurious = true ∨ s.pool.head ≠ expected then some (.load, s, .popTest s.pool.head)
    else
      some (.cas (.pop expected.ptr), s.setTaggedHead ⟨next, B.add expected.tag 1⟩,
        if B.hardening then .allocGuard expected.ptr else .popRet expected.ptr)
  | .allocGuard block =>
    some (.quiet,
      s.setWorld (if readGuard s.mem block s.pool.blockSize ≠ guardFreed then
        s.report .freelistCorruption block else s.toWorld),
      .allocPoison block)
  | .allocPoison block =>
    some (.quiet,
      s.setWorld (if !payloadIsPoison B s.mem block s.pool.blockSize then
        s.report .useAfterFree block else s.toWorld),
      .allocStamp block)
  | .allocStamp block =>
    some (.quiet, { s with mem := writeGuard s.mem block s.pool.blockSize guardAllocated },
      .popRet block)
  | .popRet block => some (.ret block, s, .idle)
  | .freeGuard block =>
    let guard := readGuard s.mem block s.pool.blockSize
    some (.quiet,
      s.setWorld (if guard = guardFreed then s.report .doubleFree block
        else if guard ≠ guardAllocated then s.report .overflow block else s.toWorld),
      .freePoison block (decide (guard = guardFreed)))
  | .freePoison block doubleFree =>
    some (.quiet, { s with mem := poisonPayload B s.mem block s.pool.blockSize },
      .freeStamp block doubleFree)
  | .freeStamp block doubleFree =>
    some (.quiet, { s with mem := writeGuard s.mem block s.pool.blockSize guardFreed },
      if doubleFree then .idle else .pushLoad block)
  | .pushLoad block => some (.load, s, .pushWrite block s.pool.head)
  | .pushWrite block expected =>
    some (.quiet, s.storeNext B block expected.ptr, .pushCas block expected)
  | .pushCas block expected =>
    if spurious = true ∨ s.pool.head ≠ expected then
      some (.load, s, .pushWrite block s.pool.head)
    else
      some (.cas (.push block), s.setTaggedHead ⟨block, B.add expected.tag 1⟩, .idle)

structure Thread where
  pc : Pc
  held : List Nat
  snap : Nat

/-- The blocks that are this thread's, in its hands or inside a call. -/
def Thread.owned (th : Thread) : List Nat := th.pc.block ++ th.held

/-- The pool and its threads; `cas` counts the successful compare-exchanges so far. -/
structure Machine (τ : Type*) where
  pool : State
  threads : τ → Thread
  cas : Nat

inductive Op where
  | pop
  | push (block : Nat)
  deriving DecidableEq

inductive Event (τ : Type*) where
  | call (t : τ) (op : Op)
  | instr (t : τ) (label : Label)
  | write (t : τ) (addr : Nat) (byte : UInt8)
  deriving DecidableEq

def Thread.after (th : Thread) (cas : Nat) (pc : Pc) : Label → Thread
  | .quiet | .cas _ => { th with pc := pc }
  | .load => { th with pc := pc, snap := cas }
  | .ret block => { th with pc := pc, held := if block = 0 then th.held else block :: th.held }

def Label.count (cas : Nat) : Label → Nat
  | .cas _ => cas + 1
  | _ => cas

namespace Machine

variable {τ : Type*}

def start (s : State) : Machine τ := ⟨s, fun _ => ⟨.idle, [], 0⟩, 0⟩

variable [DecidableEq τ]

def move (m : Machine τ) (t : τ) (s : State) (th : Thread) (cas : Nat) : Machine τ :=
  ⟨s, Function.update m.threads t th, cas⟩

/-- What holds of the thread that moves and of all the others. -/
theorem forall_move {m : Machine τ} {t : τ} {s : State} {th : Thread} {cas : Nat}
    (P : τ → Thread → Prop) (ht : P t th) (h : ∀ u, u ≠ t → P u (m.threads u)) :
    ∀ u, P u ((m.move t s th cas).threads u) :=
  (Function.forall_update_iff m.threads P).mpr ⟨ht, h⟩

end Machine

section System

variable {τ : Type*} [DecidableEq τ]

/-- A thread that is outside the pool functions calls `pop_head`, or `push_head` with a block it
holds. A thread inside one executes its next instruction. A holder writes a byte of its block. -/
inductive Step (B : Build) : Machine τ → Event τ → Machine τ → Prop where
  | pop {m : Machine τ} {t : τ} : (m.threads t).pc = .idle →
      Step B m (.call t .pop) (m.move t m.pool { m.threads t with pc := .popLoad } m.cas)
  | push {m : Machine τ} {t : τ} {block : Nat} : (m.threads t).pc = .idle →
      block ∈ (m.threads t).held →
      Step B m (.call t (.push block)) (m.move t m.pool
        { m.threads t with
          pc := if B.hardening then .freeGuard block else .pushLoad block
          held := (m.threads t).held.erase block } m.cas)
  | instr {m : Machine τ} {t : τ} {spurious : Bool} {label : Label} {s : State} {pc : Pc} :
      instr B spurious m.pool (m.threads t).pc = some (label, s, pc) →
      Step B m (.instr t label)
        (m.move t s ((m.threads t).after m.cas pc label) (label.count m.cas))
  | write {m : Machine τ} {t : τ} {block addr : Nat} {byte : UInt8} :
      block ∈ (m.threads t).held → block ≤ addr → addr < block + m.pool.pool.blockSize →
      Step B m (.write t addr byte)
        { m with pool := { m.pool with mem := set m.pool.mem addr byte } }

def lts (B : Build) (τ : Type*) [DecidableEq τ] : Lts (Machine τ) (Event τ) := ⟨Step B⟩

/-- The tag-width proviso: fewer than `2 ^ width` successful compare-exchanges lie between a
thread's snapshot of `head_` and a compare-exchange of its own that succeeds. -/
def InWindow (B : Build) (m : Machine τ) : Event τ → Prop
  | .instr t (.cas _) => m.cas - (m.threads t).snap < B.modulus
  | _ => True

instance (B : Build) (m : Machine τ) (e : Event τ) : Decidable (InWindow B m e) :=
  match e with
  | .instr t (.cas _) => inferInstanceAs (Decidable (m.cas - (m.threads t).snap < B.modulus))
  | .instr _ .quiet | .instr _ .load | .instr _ (.ret _) => .isTrue trivial
  | .call .. | .write .. => .isTrue trivial

inductive Action (τ : Type*) where
  | call (t : τ) (op : Op)
  | go (t : τ) (spurious : Bool)
  | write (t : τ) (block addr : Nat) (byte : UInt8)

def exec (B : Build) (m : Machine τ) : Action τ → Option (Event τ × Machine τ)
  | .call t .pop =>
    if (m.threads t).pc = .idle then
      some (.call t .pop, m.move t m.pool { m.threads t with pc := .popLoad } m.cas)
    else none
  | .call t (.push block) =>
    if (m.threads t).pc = .idle ∧ block ∈ (m.threads t).held then
      some (.call t (.push block), m.move t m.pool
        { m.threads t with
          pc := if B.hardening then .freeGuard block else .pushLoad block
          held := (m.threads t).held.erase block } m.cas)
    else none
  | .go t spurious =>
    match instr B spurious m.pool (m.threads t).pc with
    | none => none
    | some (label, s, pc) =>
      if InWindow B m (.instr t label) then
        some (.instr t label,
          m.move t s ((m.threads t).after m.cas pc label) (label.count m.cas))
      else none
  | .write t block addr byte =>
    if block ∈ (m.threads t).held ∧ block ≤ addr ∧ addr < block + m.pool.pool.blockSize then
      some (.write t addr byte, { m with pool := { m.pool with mem := set m.pool.mem addr byte } })
    else none

theorem exec_step {B : Build} (m : Machine τ) (a : Action τ) (e : Event τ) (m' : Machine τ)
    (h : exec B m a = some (e, m')) : ((lts B τ).guard (InWindow B)).step m e m' := by
  cases a with
  | call t op =>
    cases op with
    | pop =>
      simp only [exec] at h
      split at h
      · rename_i hidle
        cases h
        exact ⟨trivial, .pop hidle⟩
      · cases h
    | push block =>
      simp only [exec] at h
      split at h
      · rename_i hok
        cases h
        exact ⟨trivial, .push hok.1 hok.2⟩
      · cases h
  | go t spurious =>
    simp only [exec] at h
    split at h
    · cases h
    · rename_i heq
      split at h
      · rename_i hw
        cases h
        exact ⟨hw, .instr heq⟩
      · cases h
  | write t block addr byte =>
    simp only [exec] at h
    split at h
    · rename_i hok
      cases h
      exact ⟨trivial, .write hok.1 hok.2.1 hok.2.2⟩
    · cases h

theorem script_run {γ : Type} {B : Build} {m : Machine τ} {es : List (Event τ)} {x : γ}
    (g : Machine τ → γ) (schedule : List (Action τ))
    (h : (Lts.script (exec B) m schedule).map (fun r => (r.1, g r.2)) = some (es, x)) :
    ∃ m', ((lts B τ).guard (InWindow B)).Run m es m' ∧ g m' = x :=
  Lts.script_run exec_step g h

/-- The successful compare-exchange an event is, if it is one. -/
def Event.op : Event τ → Option (StackOp Nat)
  | .instr _ (.cas op) => some op
  | _ => none

/-- The successful compare-exchanges of a run, in order. -/
def history (es : List (Event τ)) : List (StackOp Nat) := es.filterMap Event.op

end System

end LockFree

end MemoryPool
