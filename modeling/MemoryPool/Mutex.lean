import Mathlib.Logic.Function.Basic
import MemoryPool.Client
import MemoryPool.Lib.Discipline

/-!
# MemoryPool.Mutex

The `MUTEX` build with any number of threads, one access to shared memory at a time.

What a thread shares with others are cells: `head_` and `overflow_` of the pool, the three fields
of each chunk descriptor, and the bytes of the slots. `instr` is a thread's next instruction inside
`memory_pool_alloc` or `memory_pool_free`, together with the locations it reads and writes; the
mutex is acquired and released by instructions of their own. `free_skeleton` walks the chunk list
before the mutex is acquired; `grow_pool` runs under it.

`State.pool.overflow`, the list of chunks linked so far, is a ghost here: the instructions go by
the cells. The fields of the pool that nothing writes after creation are read with whatever
instruction needs them.
-/

namespace MemoryPool

namespace Mutex

open ByteMem

/-- A non-atomic location: a cell of the pool or of the descriptor at `addr`, the link of a slot, or
the rest of the slot's bytes. `fields` are the pool's fields that are set at creation. -/
inductive Loc where
  | fields
  | head
  | overflow
  | backing (addr : Nat)
  | blockCount (addr : Nat)
  | next (addr : Nat)
  | link (slot : Nat)
  | payload (slot : Nat)
  deriving DecidableEq

structure Node where
  backing : Nat
  blockCount : Nat
  next : Nat

inductive Pc where
  | idle
  -- pop_head
  | lock
  | testHead
  -- grow_pool: the running sum
  | sumFirst
  | sumCount (total chunk : Nat)
  | sumNext (total chunk : Nat)
  -- grow_pool: the allocations and the descriptor
  | newBacking (add : Nat)
  | newChunk (add backing : Nat)
  | initBacking (add backing chunk : Nat)
  | initCount (add backing chunk : Nat)
  | loadOverflow (add backing chunk : Nat)
  | initNext (add backing chunk next : Nat)
  -- grow_pool: initialize_free_list and the links
  | initSlot (add backing chunk i : Nat)
  | linkChunk (backing chunk : Nat)
  | seedHead (backing : Nat)
  | countGrowth
  -- pop_head, the list not empty
  | loadHead
  | loadLink (block : Nat)
  | storeHead (block next : Nat)
  | onAlloc (block : Nat)
  | unlock (block : Nat)
  -- free_skeleton
  | walkFirst (block : Nat)
  | walkOverflow (block : Nat)
  | walkBacking (block chunk : Nat)
  | walkCount (block chunk backing : Nat)
  | walkNext (block chunk : Nat)
  -- push_head
  | lockPush (block : Nat)
  | onFree (block : Nat)
  | pushHead (block : Nat)
  | pushLink (block head : Nat)
  | storeBlock (block : Nat)
  | unlockPush
  deriving DecidableEq

/-- Between `lock_guard`'s acquire and its release. -/
def Pc.critical : Pc → Bool
  | .idle | .lock => false
  | .walkFirst _ | .walkOverflow _ | .walkBacking _ _ | .walkCount _ _ _ | .walkNext _ _ => false
  | .lockPush _ => false
  | _ => true

/-- The pool, its cells, and the thread that holds the mutex. -/
structure Shared (τ : Type*) extends State where
  overflow : Nat
  nodes : Nat → Node
  owner : Option τ

/-- What an instruction did: the locations it accessed, what it left, where the thread is now, and
the block the call returned, if it returned one. -/
structure Outcome (τ : Type*) where
  accesses : List (AccessKind × Loc)
  shared : Shared τ
  pc : Pc
  returned : Nat := 0

/-- `grow_pool` after the running sum: the guards, as in `growthCount`. -/
def addFor (B : Build) (pool : PoolStruct) (total : Nat) : Option Nat :=
  if wouldOverflowProduct B total (B.sub pool.growFactor 1) then none
  else
    let add := B.mul total (B.sub pool.growFactor 1)
    if add = 0 then none
    else if wouldOverflowProduct B add (slotStride B pool.blockSize) then none
    else some add

theorem addFor_total (B : Build) (pool : PoolStruct) :
    addFor B pool (totalCount B pool) = growthCount B pool := rfl

namespace Shared

variable {τ : Type*}

def setNode (s : Shared τ) (addr : Nat) (node : Node) : Shared τ :=
  { s with nodes := fun a => if a = addr then node else s.nodes a }

def setMem (s : Shared τ) (mem : Mem) : Shared τ := { s with mem := mem }

def setWorld (s : Shared τ) (w : World) : Shared τ := { s with toWorld := w }

def setHead (s : Shared τ) (ptr : Nat) : Shared τ := { s with toState := s.toState.setHead ptr }

def setOwner (s : Shared τ) (owner : Option τ) : Shared τ := { s with owner := owner }

def link (s : Shared τ) (chunk : Nat) : Shared τ :=
  { s with
    overflow := chunk
    pool := { s.pool with
      overflow := ⟨chunk, (s.nodes chunk).backing, (s.nodes chunk).blockCount⟩ ::
        s.pool.overflow } }

end Shared

section Instructions

variable {τ : Type*}

/-- A growth that did not come about: `pop_head` returns null. -/
def noGrowth (accesses : List (AccessKind × Loc)) (s : Shared τ) : Outcome τ :=
  { accesses := accesses, shared := s, pc := .unlock 0 }

/-- The next instruction of thread `t`. `answer` is what the allocator answers if it is asked. There
is none while the thread waits for the mutex, and none outside the pool functions. -/
def instr (B : Build) (t : τ) (answer : Option Nat) (s : Shared τ) : Pc → Option (Outcome τ)
  | .idle => none
  | .lock =>
    match s.owner with
    | some _ => none
    | none => some { accesses := [], shared := s.setOwner (some t), pc := .testHead }
  | .testHead =>
    some { accesses := [(.read, .head), (.read, .fields)], shared := s,
           pc := if s.pool.head.ptr = 0 then
               if s.pool.growFactor < 2 then .unlock 0 else .sumFirst
             else .loadHead }
  | .sumFirst =>
    some { accesses := [(.read, .fields), (.read, .overflow)], shared := s,
           pc := .sumCount s.pool.blockCount s.overflow }
  | .sumCount total chunk =>
    if chunk = 0 then
      match addFor B s.pool total with
      | none => some (noGrowth [(.read, .fields)] s)
      | some add => some { accesses := [(.read, .fields)], shared := s, pc := .newBacking add }
    else
      some { accesses := [(.read, .blockCount chunk)], shared := s,
             pc := .sumNext (B.add total (s.nodes chunk).blockCount) chunk }
  | .sumNext total chunk =>
    some { accesses := [(.read, .next chunk)], shared := s,
           pc := .sumCount total (s.nodes chunk).next }
  | .newBacking add =>
    match s.toWorld.operatorNew B .backing (B.mul add (slotStride B s.pool.blockSize))
        B.poolAlignment answer with
    | (none, w) => some (noGrowth [] (s.setWorld w))
    | (some backing, w) =>
      some { accesses := [], shared := s.setWorld w, pc := .newChunk add backing }
  | .newChunk add backing =>
    match s.toWorld.operatorNew B .chunkNode B.sizeofChunk B.ptrBytes answer with
    | (none, w) => some (noGrowth [] (s.setWorld (w.releaseBacking backing)))
    | (some chunk, w) =>
      some { accesses := [], shared := s.setWorld w, pc := .initBacking add backing chunk }
  | .initBacking add backing chunk =>
    some { accesses := [(.write, .backing chunk)],
           shared := s.setNode chunk { s.nodes chunk with backing := backing },
           pc := .initCount add backing chunk }
  | .initCount add backing chunk =>
    some { accesses := [(.write, .blockCount chunk)],
           shared := s.setNode chunk { s.nodes chunk with blockCount := add },
           pc := .loadOverflow add backing chunk }
  | .loadOverflow add backing chunk =>
    some { accesses := [(.read, .overflow)], shared := s,
           pc := .initNext add backing chunk s.overflow }
  | .initNext add backing chunk next =>
    some { accesses := [(.write, .next chunk)],
           shared := s.setNode chunk { s.nodes chunk with next := next },
           pc := .initSlot add backing chunk 0 }
  | .initSlot add backing chunk i =>
    let stride := slotStride B s.pool.blockSize
    if i + 1 < add then
      let slot := B.add backing (B.mul i stride)
      let next := B.add backing (B.mul (i + 1) stride)
      some { accesses := [(.write, .link slot), (.write, .payload slot)],
             shared := s.setMem (MemoryPool.initSlot B s.mem slot next s.pool.blockSize),
             pc := .initSlot add backing chunk (i + 1) }
    else
      let slot := B.add backing (B.mul (add - 1) stride)
      some { accesses := [(.write, .link slot), (.write, .payload slot)],
             shared := s.setMem (MemoryPool.initSlot B s.mem slot 0 s.pool.blockSize),
             pc := .linkChunk backing chunk }
  | .linkChunk backing chunk =>
    some { accesses := [(.write, .overflow)], shared := s.link chunk, pc := .seedHead backing }
  | .seedHead backing =>
    some { accesses := [(.write, .head)], shared := s.setHead backing, pc := .countGrowth }
  | .countGrowth =>
    some { accesses := [],
           shared := { s with pool := { s.pool with growCount := B.add s.pool.growCount 1 } },
           pc := .loadHead }
  | .loadHead =>
    some { accesses := [(.read, .head)], shared := s, pc := .loadLink s.pool.head.ptr }
  | .loadLink block =>
    let result := readNext B s.toWorld block
    some { accesses := [(.read, .link block)], shared := s.setWorld result.2,
           pc := .storeHead block result.1 }
  | .storeHead block next =>
    some { accesses := [(.write, .head)], shared := s.setHead next,
           pc := if B.hardening then .onAlloc block else .unlock block }
  | .onAlloc block =>
    some { accesses := [(.read, .payload block), (.write, .payload block)],
           shared := s.setWorld (MemoryPool.onAlloc B s.toWorld block s.pool.blockSize),
           pc := .unlock block }
  | .unlock block =>
    some { accesses := [], shared := s.setOwner none, pc := .idle, returned := block }
  | .walkFirst block =>
    some { accesses := [(.read, .fields)], shared := s,
           pc := if blockInChunk B s.pool s.pool.backing s.pool.blockCount block then
               .lockPush block
             else .walkOverflow block }
  | .walkOverflow block =>
    some { accesses := [(.read, .overflow)], shared := s, pc := .walkBacking block s.overflow }
  | .walkBacking block chunk =>
    if chunk = 0 then some { accesses := [], shared := s, pc := .idle }
    else
      some { accesses := [(.read, .backing chunk)], shared := s,
             pc := .walkCount block chunk (s.nodes chunk).backing }
  | .walkCount block chunk backing =>
    some { accesses := [(.read, .blockCount chunk), (.read, .fields)], shared := s,
           pc := if blockInChunk B s.pool backing (s.nodes chunk).blockCount block then
               .lockPush block
             else .walkNext block chunk }
  | .walkNext block chunk =>
    some { accesses := [(.read, .next chunk)], shared := s,
           pc := .walkBacking block (s.nodes chunk).next }
  | .lockPush block =>
    match s.owner with
    | some _ => none
    | none =>
      some { accesses := [], shared := s.setOwner (some t),
             pc := if B.hardening then .onFree block else .pushHead block }
  | .onFree block =>
    let result := MemoryPool.onFree B s.toWorld block s.pool.blockSize
    some { accesses := [(.read, .payload block), (.write, .payload block)],
           shared := s.setWorld result.2,
           pc := if result.1 then .pushHead block else .unlockPush }
  | .pushHead block =>
    some { accesses := [(.read, .head)], shared := s, pc := .pushLink block s.pool.head.ptr }
  | .pushLink block head =>
    some { accesses := [(.write, .link block)], shared := s.setMem (writeNext B s.mem block head),
           pc := .storeBlock block }
  | .storeBlock block =>
    some { accesses := [(.write, .head)], shared := s.setHead block, pc := .unlockPush }
  | .unlockPush => some { accesses := [], shared := s.setOwner none, pc := .idle }

end Instructions

structure Thread where
  pc : Pc
  held : List Nat

structure Machine (τ : Type*) where
  shared : Shared τ
  threads : τ → Thread

inductive Event (τ : Type*) where
  | alloc (t : τ)
  | free (t : τ) (block : Nat)
  | instr (t : τ) (answer : Option Nat)
  | write (t : τ) (addr : Nat) (byte : UInt8)
  deriving DecidableEq

def Thread.after (th : Thread) (o : Outcome τ) : Thread :=
  ⟨o.pc, if o.returned = 0 then th.held else o.returned :: th.held⟩

namespace Machine

variable {τ : Type*}

def start (s : State) : Machine τ :=
  ⟨{ toState := s, overflow := 0, nodes := fun _ => ⟨0, 0, 0⟩, owner := none },
    fun _ => ⟨.idle, []⟩⟩

variable [DecidableEq τ]

def move (m : Machine τ) (t : τ) (s : Shared τ) (th : Thread) : Machine τ :=
  ⟨s, Function.update m.threads t th⟩

/-- What holds of the thread that moves and of all the others. -/
theorem forall_move {m : Machine τ} {t : τ} {s : Shared τ} {th : Thread} (P : τ → Thread → Prop)
    (ht : P t th) (h : ∀ u, u ≠ t → P u (m.threads u)) :
    ∀ u, P u ((m.move t s th).threads u) :=
  (Function.forall_update_iff m.threads P).mpr ⟨ht, h⟩

end Machine

section System

variable {τ : Type*} [DecidableEq τ]

/-- A thread calls `memory_pool_alloc`, or `memory_pool_free` with a pointer that is not null; it
executes its next instruction; or it writes a byte of a block it holds. -/
inductive Step (B : Build) : Machine τ → Event τ → Machine τ → Prop where
  | alloc {m : Machine τ} {t : τ} : (m.threads t).pc = .idle →
      Step B m (.alloc t) (m.move t m.shared { m.threads t with pc := .lock })
  | free {m : Machine τ} {t : τ} {block : Nat} : (m.threads t).pc = .idle → block ≠ 0 →
      Step B m (.free t block)
        (m.move t m.shared ⟨.walkFirst block, (m.threads t).held.erase block⟩)
  | instr {m : Machine τ} {t : τ} {answer : Option Nat} {o : Outcome τ} :
      instr B t answer m.shared (m.threads t).pc = some o →
      Step B m (.instr t answer) (m.move t o.shared ((m.threads t).after o))
  | write {m : Machine τ} {t : τ} {block addr : Nat} {byte : UInt8} :
      block ∈ (m.threads t).held → block ≤ addr → addr < block + m.shared.pool.blockSize →
      Step B m (.write t addr byte)
        { m with shared := m.shared.setMem (set m.shared.mem addr byte) }

def lts (B : Build) (τ : Type*) [DecidableEq τ] : Lts (Machine τ) (Event τ) := ⟨Step B⟩

def FreesHeld (m : Machine τ) : Event τ → Prop
  | .free t block => block ∈ (m.threads t).held
  | _ => True

def Accesses (B : Build) (m : Machine τ) (t : τ) (kind : AccessKind) (loc : Loc) : Prop :=
  ∃ answer o, instr B t answer m.shared (m.threads t).pc = some o ∧ (kind, loc) ∈ o.accesses

def system (B : Build) (τ : Type*) [DecidableEq τ] : Locked (Machine τ) (Event τ) τ Loc where
  toLts := (lts B τ).guard FreesHeld
  accesses := Accesses B
  holds m t := m.shared.owner = some t

/-- The machine executed, for threads that free what they hold. -/
def exec (B : Build) (m : Machine τ) (e : Event τ) : Option (Event τ × Machine τ) :=
  match e with
  | .alloc t =>
    if (m.threads t).pc = .idle then
      some (e, m.move t m.shared { m.threads t with pc := .lock })
    else none
  | .free t block =>
    if (m.threads t).pc = .idle ∧ block ≠ 0 ∧ block ∈ (m.threads t).held then
      some (e, m.move t m.shared ⟨.walkFirst block, (m.threads t).held.erase block⟩)
    else none
  | .instr t answer =>
    match instr B t answer m.shared (m.threads t).pc with
    | none => none
    | some o => some (e, m.move t o.shared ((m.threads t).after o))
  | .write t addr byte =>
    if ∃ block ∈ (m.threads t).held, block ≤ addr ∧ addr < block + m.shared.pool.blockSize then
      some (e, { m with shared := m.shared.setMem (set m.shared.mem addr byte) })
    else none

theorem exec_step {B : Build} (m : Machine τ) (i e : Event τ) (m' : Machine τ)
    (h : exec B m i = some (e, m')) : ((lts B τ).guard FreesHeld).step m e m' := by
  cases i with
  | alloc t =>
    simp only [exec] at h
    split at h
    · rename_i hidle; cases h; exact ⟨trivial, .alloc hidle⟩
    · cases h
  | free t block =>
    simp only [exec] at h
    split at h
    · rename_i hok; cases h; exact ⟨hok.2.2, .free hok.1 hok.2.1⟩
    · cases h
  | instr t answer =>
    simp only [exec] at h
    split at h
    · cases h
    · rename_i heq; cases h; exact ⟨trivial, .instr heq⟩
  | write t addr byte =>
    simp only [exec] at h
    split at h
    · rename_i hok
      obtain ⟨block, hheld, hl, hu⟩ := hok
      cases h
      exact ⟨trivial, .write hheld hl hu⟩
    · cases h

def execIf (B : Build) (G : Machine τ → Event τ → Prop) [∀ m e, Decidable (G m e)]
    (m : Machine τ) (e : Event τ) : Option (Event τ × Machine τ) :=
  if G m e then exec B m e else none

theorem exec_event {B : Build} {m m' : Machine τ} {i e : Event τ}
    (h : exec B m i = some (e, m')) : i = e := by
  cases i <;> simp only [exec] at h <;> split at h <;> cases h <;> rfl

theorem execIf_step {B : Build} {G : Machine τ → Event τ → Prop} [∀ m e, Decidable (G m e)]
    (m : Machine τ) (i e : Event τ) (m' : Machine τ) (h : execIf B G m i = some (e, m')) :
    ((lts B τ).guard fun m e => FreesHeld m e ∧ G m e).step m e m' := by
  unfold execIf at h
  split at h
  · rename_i hG
    obtain ⟨hf, hs⟩ := exec_step m i e m' h
    rw [exec_event h] at hG
    exact ⟨⟨hf, hG⟩, hs⟩
  · cases h

theorem script_run {γ : Type} {B : Build} {G : Machine τ → Event τ → Prop}
    [∀ m e, Decidable (G m e)] {m : Machine τ} {es : List (Event τ)} {x : γ}
    (g : Machine τ → γ) (schedule : List (Event τ))
    (h : (Lts.script (execIf B G) m schedule).map (fun r => (r.1, g r.2)) = some (es, x)) :
    ∃ m', ((lts B τ).guard fun m e => FreesHeld m e ∧ G m e).Run m es m' ∧ g m' = x :=
  Lts.script_run execIf_step g h

end System

end Mutex

end MemoryPool
