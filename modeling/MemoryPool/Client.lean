import MemoryPool.Lib.Lts
import MemoryPool.Lib.Stack
import MemoryPool.PolicyCorrect

/-!
# MemoryPool.Client

A client that drives one pool from one thread: it creates the pool, allocates, frees any pointer
it likes, and writes bytes. `held` is the list of blocks it was given and did not pass to
`memory_pool_free` since.

`Client.lts` has every behaviour; what a client is trusted with is a guard on its steps
(`OwnWrites`, `Proper`). `Client.Step.effect` says what a step that is allowed can do under the
invariant. `Client.refines` is the step lemma of the refinement: it is a step of the abstract stack
of free slots.
-/

namespace MemoryPool

open ByteMem LinkedList

/-- The two create functions with their arguments. -/
inductive CreateCall where
  | fixed (blockSize blockCount : Nat)
  | dynamic (blockSize blockCount growthFactor : Nat)

def CreateCall.InRange (B : Build) : CreateCall → Prop
  | .fixed blockSize blockCount => blockSize < B.modulus ∧ blockCount < B.modulus
  | .dynamic blockSize blockCount growthFactor =>
    blockSize < B.modulus ∧ blockCount < B.modulus ∧ growthFactor < B.modulus

instance (B : Build) (call : CreateCall) : Decidable (call.InRange B) :=
  match call with
  | .fixed .. => inferInstanceAs (Decidable (_ ∧ _))
  | .dynamic .. => inferInstanceAs (Decidable (_ ∧ _ ∧ _))

def CreateCall.run (B : Build) (env : Env) (w : World) : CreateCall → Option PoolStruct × World
  | .fixed blockSize blockCount => memoryPoolCreate B env w blockSize blockCount
  | .dynamic blockSize blockCount growthFactor =>
    memoryPoolCreateDynamic B env w blockSize blockCount growthFactor

def CreateCall.blockCount : CreateCall → Nat
  | .fixed _ blockCount => blockCount
  | .dynamic _ blockCount _ => blockCount

def CreateCall.growthFactor : CreateCall → Nat
  | .fixed .. => 0
  | .dynamic _ _ growthFactor => growthFactor

structure Client where
  pool : State
  held : List Nat

/-- The chunk a call linked, if it linked one. -/
def newChunk (s s' : State) : Option Chunk :=
  if s'.pool.overflow = s.pool.overflow then none else s'.pool.overflow.head?

theorem newChunk_same {s s' : State} (h : s.pool.SameShape s'.pool) : newChunk s s' = none := by
  unfold newChunk
  rw [if_pos (by rw [h])]

theorem newChunk_grew {B : Build} {s s' : State} {add backing addr : Nat} {heap : Heap}
    (h : (linkChunk B s add backing addr heap).pool.SameShape s'.pool) :
    newChunk s s' = some ⟨addr, backing, add⟩ := by
  have hl : s'.pool.overflow = ⟨addr, backing, add⟩ :: s.pool.overflow := by
    rw [h]
    rfl
  unfold newChunk
  rw [if_neg (by simp [hl]), hl]
  rfl

namespace Client

inductive Event where
  | alloc (env : Env) (block : Nat) (grown : Option Chunk)
  | free (env : Env) (block : Nat)
  | write (addr : Nat) (byte : UInt8)
  deriving DecidableEq

inductive Step (B : Build) : Client → Event → Client → Prop where
  | alloc {c : Client} {env : Env} {block : Nat} {s' : State} :
      memoryPoolAlloc B env (some c.pool) = (block, some s') →
      Step B c (.alloc env block (newChunk c.pool s'))
        ⟨s', if block = 0 then c.held else block :: c.held⟩
  | free {c : Client} {env : Env} {block : Nat} {s' : State} :
      memoryPoolFree B env (some c.pool) block = some s' →
      Step B c (.free env block) ⟨s', c.held.erase block⟩
  | write {c : Client} {addr : Nat} {byte : UInt8} :
      Step B c (.write addr byte) ⟨{ c.pool with mem := set c.pool.mem addr byte }, c.held⟩

def lts (B : Build) : Lts Client Event := ⟨Step B⟩

/-- Writes go to the bytes of blocks the client holds. -/
def OwnWrites (c : Client) : Event → Prop
  | .write addr _ => ∃ b ∈ c.held, b ≤ addr ∧ addr < b + c.pool.pool.blockSize
  | _ => True

/-- Frees are of blocks the client holds, or of pointers that are no slot (null, foreign,
misaligned). -/
def ProperFrees (B : Build) (c : Client) : Event → Prop
  | .free _ block => block ∈ c.held ∨ block ∉ c.pool.pool.slots B
  | _ => True

def Proper (B : Build) (c : Client) (e : Event) : Prop := OwnWrites c e ∧ ProperFrees B c e

/-- What the pool tolerates: a hardened pool any free, a default one proper frees. -/
def Tolerated (B : Build) (c : Client) (e : Event) : Prop :=
  OwnWrites c e ∧ (B.hardening = true ∨ ProperFrees B c e)

theorem Proper.tolerated {B : Build} {c : Client} {e : Event} (h : Proper B c e) :
    Tolerated B c e := ⟨h.1, Or.inr h.2⟩

instance (c : Client) (e : Event) : Decidable (OwnWrites c e) :=
  match e with
  | .write addr _ =>
    inferInstanceAs (Decidable (∃ b ∈ c.held, b ≤ addr ∧ addr < b + c.pool.pool.blockSize))
  | .alloc .. => .isTrue trivial
  | .free .. => .isTrue trivial

instance (B : Build) (c : Client) (e : Event) : Decidable (ProperFrees B c e) :=
  match e with
  | .free _ block => inferInstanceAs (Decidable (block ∈ c.held ∨ block ∉ c.pool.pool.slots B))
  | .alloc .. => .isTrue trivial
  | .write .. => .isTrue trivial

instance (B : Build) (c : Client) (e : Event) : Decidable (Proper B c e) :=
  inferInstanceAs (Decidable (_ ∧ _))

/-- The reports a step gives rise to: one for the free of a slot that is not vended. -/
def expectedReports (B : Build) (c : Client) : Event → List Report
  | .free _ block =>
    if block ∈ c.pool.pool.slots B ∧ block ∉ c.held then [⟨.doubleFree, block⟩] else []
  | _ => []

/-- How the client's calls are events of the abstract stack. A call that linked a chunk brought
all slots of that chunk, in ascending order. -/
inductive Matches (stride : Nat) : Event → Vending.Event Nat → Prop where
  | vend {env : Env} {block : Nat} :
    block ≠ 0 → Matches stride (.alloc env block none) (.vend [] block)
  | grow {env : Env} {block : Nat} {chunk : Chunk} : block ≠ 0 →
      Matches stride (.alloc env block (some chunk))
        (.vend (slotsOf stride chunk.backing chunk.blockCount) block)
  | exhausted {env : Env} : Matches stride (.alloc env 0 none) .exhausted
  | accept {env : Env} {block : Nat} : Matches stride (.free env block) (.accept block)
  | refuse {env : Env} {block : Nat} : Matches stride (.free env block) (.refuse block)
  | write {addr : Nat} {byte : UInt8} : Matches stride (.write addr byte) .quiet

inductive Call where
  | alloc (env : Env)
  | free (env : Env) (block : Nat)
  | write (addr : Nat) (byte : UInt8)

def exec (B : Build) (c : Client) : Call → Option (Event × Client)
  | .alloc env =>
    match memoryPoolAlloc B env (some c.pool) with
    | (_, none) => none
    | (block, some s') =>
      some (.alloc env block (newChunk c.pool s'),
        ⟨s', if block = 0 then c.held else block :: c.held⟩)
  | .free env block =>
    match memoryPoolFree B env (some c.pool) block with
    | none => none
    | some s' => some (.free env block, ⟨s', c.held.erase block⟩)
  | .write addr byte =>
    some (.write addr byte, ⟨{ c.pool with mem := set c.pool.mem addr byte }, c.held⟩)

/-- The allowed steps, with what `f` sees of each. -/
def observed {δ : Type} (B : Build) (G : Client → Event → Prop)
    (f : Client → Event → Client → δ) : Lts Client δ where
  step c a c' := ∃ e, G c e ∧ Step B c e c' ∧ a = f c e c'

def execIf {δ : Type} (B : Build) (G : Client → Event → Prop) [∀ c e, Decidable (G c e)]
    (f : Client → Event → Client → δ) (c : Client) (call : Call) : Option (δ × Client) :=
  match exec B c call with
  | none => none
  | some (e, c') => if G c e then some (f c e c', c') else none

theorem exec_step {B : Build} {c c' : Client} {call : Call} {e : Event}
    (h : exec B c call = some (e, c')) : Step B c e c' := by
  cases call with
  | alloc env =>
    simp only [exec] at h
    split at h
    · cases h
    · rename_i heq
      cases h
      exact .alloc heq
  | free env block =>
    simp only [exec] at h
    split at h
    · cases h
    · rename_i heq
      cases h
      exact .free heq
  | write addr byte =>
    cases h
    exact .write

theorem execIf_step {δ : Type} {B : Build} {G : Client → Event → Prop}
    [∀ c e, Decidable (G c e)] {f : Client → Event → Client → δ} (c : Client) (call : Call) (a : δ)
    (c' : Client) (h : execIf B G f c call = some (a, c')) : (observed B G f).step c a c' := by
  unfold execIf at h
  split at h
  · cases h
  · rename_i e c₁ heq
    split at h
    · rename_i hG
      cases h
      exact ⟨e, hG, exec_step heq, rfl⟩
    · cases h

theorem observed_run {B : Build} {G : Client → Event → Prop} {c c' : Client} {es : List Event}
    (hrun : (observed B G fun _ e _ => e).Run c es c') : ((lts B).guard G).Run c es c' := by
  induction hrun with
  | nil => exact .nil
  | snoc _ hs ih =>
    obtain ⟨e, hG, hstep, rfl⟩ := hs
    exact .snoc ih ⟨hG, hstep⟩

theorem script_run (B : Build) (G : Client → Event → Prop) [∀ c e, Decidable (G c e)]
    (c : Client) (calls : List Call) (es : List Event)
    (h : (Lts.script (execIf B G fun _ e _ => e) c calls).map (fun r => (r.1, ())) =
      some (es, ())) : ∃ c', ((lts B).guard G).Run c es c' := by
  obtain ⟨c', hrun, -⟩ := Lts.script_run execIf_step (fun _ => ()) h
  exact ⟨c', observed_run hrun⟩

/-- A script and one more call, with what `g` sees of that call. -/
theorem script_step {γ : Type} (B : Build) (G : Client → Event → Prop)
    [∀ c e, Decidable (G c e)] (c : Client) (calls : List Call) (call : Call)
    (g : Client → Event → Client → γ) (x : γ)
    (h : ((Lts.script (execIf B G fun _ e _ => e) c calls).bind fun r =>
      (exec B r.2 call).map fun q => g r.2 q.1 q.2) = some x) :
    ∃ es d e d', ((lts B).guard G).Run c es d ∧ Step B d e d' ∧ g d e d' = x := by
  obtain ⟨⟨es, d⟩, hr, h⟩ := Option.bind_eq_some_iff.mp h
  obtain ⟨⟨e, d'⟩, he, hx⟩ := Option.map_eq_some_iff.mp h
  obtain ⟨d₁, hrun, hd⟩ := Lts.script_run execIf_step id (by rw [hr]; rfl)
  subst hd
  exact ⟨es, _, e, d', observed_run hrun, exec_step he, hx⟩

/-- Two scripts and one more call, with what `g` sees of the traces and of the states between
them. -/
theorem script_stretch {γ : Type} (B : Build) (G K : Client → Event → Prop)
    [∀ c e, Decidable (G c e)] [∀ c e, Decidable (K c e)] (c : Client) (calls calls' : List Call)
    (call : Call) (g : List Event → Client → List Event → Client → Event → Client → γ) (x : γ)
    (h : ((Lts.script (execIf B G fun _ e _ => e) c calls).bind fun r =>
      (Lts.script (execIf B K fun _ e _ => e) r.2 calls').bind fun q =>
        (exec B q.2 call).map fun z => g r.1 r.2 q.1 q.2 z.1 z.2) = some x) :
    ∃ es d es' d' e d'', ((lts B).guard G).Run c es d ∧ ((lts B).guard K).Run d es' d' ∧
      Step B d' e d'' ∧ g es d es' d' e d'' = x := by
  obtain ⟨⟨es, d⟩, hr, h⟩ := Option.bind_eq_some_iff.mp h
  obtain ⟨⟨es', d'⟩, hr', h⟩ := Option.bind_eq_some_iff.mp h
  obtain ⟨⟨e, d''⟩, he, hx⟩ := Option.map_eq_some_iff.mp h
  obtain ⟨d₁, hrun, hd⟩ := Lts.script_run execIf_step id (by rw [hr]; rfl)
  subst hd
  obtain ⟨d₂, hrun', hd'⟩ := Lts.script_run execIf_step id (by rw [hr']; rfl)
  subst hd'
  exact ⟨es, _, es', _, e, d'', observed_run hrun, observed_run hrun', exec_step he, hx⟩

end Client

/-! ## Creation -/

structure Created (B : Build) (w : World) (p : PoolStruct) (w' : World) : Prop where
  inv : PoolInv B ⟨w', p⟩ w.heap.ledger.live
    (slotsOf (slotStride B p.blockSize) p.backing p.blockCount) []
  overflow : p.overflow = []
  growCount : p.growCount = 0
  reports : w'.reports = w.reports
  invalid : w'.heap.ledger.invalid = w.heap.ledger.invalid
  factor : p.growFactor < B.modulus
  fixed : B.threadSafety = .lockfree → p.growFactor = 0

theorem memoryPoolCreate_created {B : Build} {env : Env} {w w' : World} {blockSize blockCount : Nat}
    {p : PoolStruct} (hbs : blockSize < B.modulus)
    (h : memoryPoolCreate B env w blockSize blockCount = (some p, w')) : Created B w p w' := by
  have L := Layout.create hbs h
  obtain ⟨-, hn, backing, addr, heap, hne, -, hfit, -, hinv, rfl, rfl⟩ := memoryPoolCreate_some h
  refine ⟨?_, rfl, rfl, rfl, hinv, B.modulus_pos, fun _ => rfl⟩
  obtain ⟨-, hin⟩ := initializeFreeList_spec (m := w.mem) L.dims hn hfit.le
  refine ⟨L, initializeFreeList_chain L.dims hne hn hfit.le, ?_, ?_, ?_, rfl⟩
  · simp [PoolStruct.slots, PoolStruct.chunks]
  · intro a ha
    obtain ⟨i, hi, rfl⟩ := mem_slotsOf.mp ha
    exact (hin i hi).2
  · intro a ha
    cases ha

theorem PoolInv.setGrowFactor {B : Build} {w : World} {p : PoolStruct}
    {others : List (Nat × Region)} {free held : List Nat}
    (I : PoolInv B ⟨w, p⟩ others free held) (growFactor : Nat) :
    PoolInv B ⟨w, { p with growFactor := growFactor }⟩ others free held := by
  obtain ⟨h1, h2, h3, h4, h5, h6, h7, h8⟩ := I.layout
  exact ⟨⟨h1, h2, h3, h4, h5, h6, h7, h8⟩, I.chain, I.parts, I.freed, I.vended, I.unlocked⟩

theorem memoryPoolCreateDynamic_some {B : Build} {env : Env} {w w' : World}
    {blockSize blockCount growthFactor : Nat} {p : PoolStruct}
    (h : memoryPoolCreateDynamic B env w blockSize blockCount growthFactor = (some p, w')) :
    B.threadSafety ≠ .lockfree ∧ 2 ≤ growthFactor ∧
      ∃ q, memoryPoolCreate B env w blockSize blockCount = (some q, w') ∧
        p = { q with growFactor := growthFactor } := by
  unfold memoryPoolCreateDynamic at h
  split at h
  · cases h
  · rename_i hts
    split at h
    · cases h
    · rename_i hfactor
      split at h
      · cases h
      · rename_i q w₁ hc
        cases h
        exact ⟨by simpa using hts, Nat.le_of_not_lt hfactor, q, hc, rfl⟩

theorem CreateCall.created {B : Build} {env : Env} {w w' : World} {call : CreateCall}
    {p : PoolStruct} (hr : call.InRange B) (h : call.run B env w = (some p, w')) :
    Created B w p w' := by
  cases call with
  | fixed blockSize blockCount => exact memoryPoolCreate_created hr.1 h
  | dynamic blockSize blockCount growthFactor =>
    obtain ⟨hts, -, q, hc, rfl⟩ := memoryPoolCreateDynamic_some h
    have C := memoryPoolCreate_created hr.1 hc
    exact ⟨C.inv.setGrowFactor growthFactor, C.overflow, C.growCount, C.reports, C.invalid,
      hr.2.2, fun hlf => absurd hlf hts⟩

theorem CreateCall.run_fields {B : Build} {env : Env} {w w' : World} {call : CreateCall}
    {p : PoolStruct} (h : call.run B env w = (some p, w')) :
    p.blockCount = call.blockCount ∧ p.growFactor = call.growthFactor := by
  cases call with
  | fixed blockSize blockCount =>
    obtain ⟨-, -, _, _, _, -, -, -, -, -, rfl, -⟩ := memoryPoolCreate_some h
    exact ⟨rfl, rfl⟩
  | dynamic blockSize blockCount growthFactor =>
    obtain ⟨-, -, q, hc, rfl⟩ := memoryPoolCreateDynamic_some h
    obtain ⟨-, -, _, _, _, -, -, -, -, -, rfl, -⟩ := memoryPoolCreate_some hc
    exact ⟨rfl, rfl⟩

/-! ## A pool to run examples on -/

def firstEnv : Env := ⟨some 0x1000, some 0x100, 0⟩

def secondEnv : Env := ⟨some 0x2000, some 0x200, 0⟩

def firstCall : CreateCall := .dynamic 16 1 2

def firstPool : PoolStruct := ⟨0x100, 0x1000, ⟨0x1000, 0⟩, 16, 1, 16, [], 2, 0, false⟩

def firstClient (B : Build) : Client :=
  ⟨⟨(firstCall.run B firstEnv World.start).2, firstPool⟩, []⟩

theorem firstCall_run (hardening : Bool) (threadSafety : ThreadSafety)
    (h : threadSafety ≠ .lockfree) :
    firstCall.run (Build.x64 hardening threadSafety) firstEnv World.start =
      (some firstPool, (firstClient (Build.x64 hardening threadSafety)).pool.toWorld) := by
  refine Prod.ext ?_ rfl
  cases threadSafety with
  | none => cases hardening <;> decide
  | mutex => cases hardening <;> decide
  | lockfree => exact absurd rfl h

/-! ## One step -/

theorem memoryPoolAlloc_some (B : Build) (env : Env) (s : State) :
    memoryPoolAlloc B env (some s) = ((popHead B env s).1, some (popHead B env s).2) := rfl

theorem memoryPoolFree_frame (B : Build) (env : Env) (s : State) (block : Nat) :
    ∃ s', memoryPoolFree B env (some s) block = some s' ∧ s.pool.SameShape s'.pool ∧
      s.heap.SameLive s'.heap := by
  show ∃ s', (if block = 0 then some s else if !isBlockInRange B s.pool block then some s
    else some (pushHead B env s block)) = some s' ∧ _
  split
  · exact ⟨s, rfl, rfl, rfl, rfl⟩
  · split
    · exact ⟨s, rfl, rfl, rfl, rfl⟩
    · obtain ⟨h1, h2⟩ := pushHead_frame B env s block
      exact ⟨_, rfl, h2, congrArg (·.ledger.live) h1, congrArg (·.ledger.invalid) h1⟩

theorem memoryPoolFree_foreign {B : Build} {s : State} {others : List (Nat × Region)}
    (L : Layout B s others) {block : Nat} (h : block ∉ s.pool.slots B) (env : Env) :
    memoryPoolFree B env (some s) block = some s := by
  have hr : isBlockInRange B s.pool block = false :=
    Bool.eq_false_iff.mpr fun hr => h (L.isBlockInRange_iff.mp hr)
  show (if block = 0 then some s else if !isBlockInRange B s.pool block then some s
    else some (pushHead B env s block)) = some s
  rw [hr]
  split <;> rfl

theorem memoryPoolFree_accepted {B : Build} {s : State} {block : Nat} (h0 : block ≠ 0)
    (hr : isBlockInRange B s.pool block = true) (env : Env) :
    memoryPoolFree B env (some s) block = some (pushHead B env s block) := by
  show (if block = 0 then some s else if !isBlockInRange B s.pool block then some s
    else some (pushHead B env s block)) = _
  rw [if_neg h0, hr]
  rfl

theorem memoryPoolFree_slot {B : Build} {s : State} {others : List (Nat × Region)}
    (L : Layout B s others) {block : Nat} (h : block ∈ s.pool.slots B) (env : Env) :
    memoryPoolFree B env (some s) block = some (pushHead B env s block) :=
  memoryPoolFree_accepted (L.slot_spec h).1 (L.isBlockInRange_iff.mpr h) env

section Writes

variable {B : Build} {s : State} {others : List (Nat × Region)} {free held : List Nat}

theorem PoolInv.write (I : PoolInv B s others free held) {b addr : Nat} {byte : UInt8}
    (hb : b ∈ held) (hl : b ≤ addr) (hu : addr < b + s.pool.blockSize) :
    PoolInv B { s with mem := set s.mem addr byte } others free held := by
  have d := I.layout.dims
  have hslot := I.held_slot hb
  have hout : ∀ x, (x < b ∨ b + slotStride B s.pool.blockSize ≤ x) →
      set s.mem addr byte x = s.mem x := by
    intro x hx
    exact set_other (by have := d.block; omega)
  have hother : ∀ a ∈ s.pool.slots B, a ≠ b →
      SameOn s.mem (set s.mem addr byte) a (slotStride B s.pool.blockSize) := by
    intro a ha hab
    exact I.other_slot hslot ha hab hout
  have hfree : ∀ a ∈ free, a ≠ b := by
    rintro a ha rfl
    exact I.disjoint ha hb
  refine ⟨I.layout.same rfl rfl, ?_, I.parts, ?_, ?_, I.unlocked⟩
  · exact I.chain.congr fun a ha => revealNext_same d (hother a (I.free_slot ha) (hfree a ha))
  · intro a ha
    exact (I.freed a ha).same d (hother a (I.free_slot ha) (hfree a ha))
  · intro a ha
    by_cases hab : a = b
    · subst hab
      intro hh
      -- the guard word lies behind the block
      refine (readGuard_congr fun x hx _ => set_other ?_).trans (I.vended a ha hh)
      have : a + s.pool.blockSize ≤ x := hx
      omega
    · exact (I.vended a ha).same d (hother a (I.held_slot ha) hab)

end Writes

namespace Client

variable {B : Build} {c c' : Client} {e : Event} {others : List (Nat × Region)} {free : List Nat}

theorem Step.frame (h : Step B c e c') : Frame B c.pool c'.pool := by
  cases h with
  | @alloc env block s' h =>
    rw [memoryPoolAlloc_some] at h
    cases h
    exact (popHead_frame B env c.pool).frame
  | @free env block s' h =>
    obtain ⟨s'', h1, h2, h3⟩ := memoryPoolFree_frame B env c.pool block
    rw [h] at h1
    cases h1
    exact .same h2 h3
  | write => exact .same rfl ⟨rfl, rfl⟩

/-- What a tolerated step does, by the free list it finds. -/
inductive Effect (B : Build) (c : Client) : List Nat → Event → Client → Prop where
  | vend {env : Env} {a : Nat} {rest : List Nat} (tag : Nat) :
      Effect B c (a :: rest) (.alloc env a none) ⟨c.pool.vend B a tag, a :: c.held⟩
  | fail {env : Env} {heap : Heap} : c.pool.heap.SameLive heap →
      Effect B c [] (.alloc env 0 none) ⟨{ c.pool with heap := heap }, c.held⟩
  | grow {env : Env} {add backing addr : Nat} {heap : Heap} (tag : Nat) :
      Grown B c.pool add backing addr heap → 2 ≤ c.pool.pool.growFactor →
      Effect B c [] (.alloc env backing (some ⟨addr, backing, add⟩))
        ⟨(linkChunk B c.pool add backing addr heap).vend B backing tag, backing :: c.held⟩
  | takeBack {free : List Nat} {env : Env} {block : Nat} (tag : Nat) : block ∈ c.held →
      Effect B c free (.free env block) ⟨c.pool.takeBack B block tag, c.held.erase block⟩
  -- a double free, which only a hardened pool tolerates
  | refuse {free : List Nat} {env : Env} {block : Nat} : block ∈ free →
      Effect B c free (.free env block)
        ⟨c.pool.setWorld (c.pool.report .doubleFree block), c.held⟩
  | ignore {free : List Nat} {env : Env} {block : Nat} : block ∉ c.pool.pool.slots B →
      Effect B c free (.free env block) c
  | write {free : List Nat} {addr b : Nat} {byte : UInt8} : b ∈ c.held → b ≤ addr →
      addr < b + c.pool.pool.blockSize →
      Effect B c free (.write addr byte)
        ⟨{ c.pool with mem := set c.pool.mem addr byte }, c.held⟩

theorem Step.effect (I : PoolInv B c.pool others free c.held) (hstep : Step B c e c')
    (hok : Tolerated B c e) : Effect B c free e c' := by
  cases hstep with
  | @alloc env block s' h =>
    rw [memoryPoolAlloc_some] at h
    have hres := popHead_result I env
    generalize popHead B env c.pool = r at h hres
    cases h
    cases hres with
    | @vend a rest tag =>
      have hnew : newChunk c.pool (c.pool.vend B a tag) = none := if_pos rfl
      rw [hnew]
      simp only [if_neg I.head_eq.2]
      exact .vend tag
    | @fail heap hsame =>
      have hnew : newChunk c.pool { c.pool with heap := heap } = none := if_pos rfl
      rw [hnew]
      exact .fail hsame
    | @grow add backing addr heap tag hg hf =>
      have hnew : newChunk c.pool ((linkChunk B c.pool add backing addr heap).vend B backing tag) =
          some ⟨addr, backing, add⟩ := if_neg (by simp [State.vend, linkChunk])
      rw [hnew]
      simp only [if_neg hg.nonnull]
      exact .grow tag hg hf
  | @free env block s' h =>
    by_cases hheld : block ∈ c.held
    · obtain ⟨tag, ht⟩ := pushHead_held I hheld env
      rw [memoryPoolFree_slot I.layout (I.held_slot hheld), ht] at h
      cases h
      exact .takeBack tag hheld
    · rw [List.erase_of_not_mem hheld]
      by_cases hslot : block ∈ c.pool.pool.slots B
      · have hfree : block ∈ free := (I.slot_iff.mp hslot).resolve_right hheld
        have hh : B.hardening = true := by
          rcases hok.2 with hh | hp | hp
          · exact hh
          · exact absurd hp hheld
          · exact absurd hslot hp
        rw [memoryPoolFree_slot I.layout hslot, pushHead_freed I hh hfree] at h
        cases h
        exact .refuse hfree
      · rw [memoryPoolFree_foreign I.layout hslot] at h
        cases h
        exact .ignore hslot
  | @write addr byte =>
    obtain ⟨b, hb, hl, hu⟩ := hok.1
    exact .write hb hl hu

/-- One step of the client is one step of the abstract stack, and keeps the invariant; it
reports what is expected, and a reported free changes nothing else. -/
theorem refines (I : PoolInv B c.pool others free c.held) (hstep : Step B c e c')
    (hok : Tolerated B c e) :
    ∃ d free', PoolInv B c'.pool others free' c'.held ∧
      Matches (slotStride B c.pool.pool.blockSize) e d ∧
      Vending.Step ⟨free, c.held⟩ d ⟨free', c'.held⟩ ∧
      c'.pool.reports = c.pool.reports ++ expectedReports B c e ∧
      (expectedReports B c e ≠ [] →
        c'.pool.mem = c.pool.mem ∧ c'.pool.pool = c.pool.pool) := by
  cases hstep.effect I hok with
  | @vend env a rest tag =>
    exact ⟨_, rest, I.vend tag, .vend I.head_eq.2, .pop, (List.append_nil _).symm,
      by simp [expectedReports]⟩
  | fail hsame =>
    exact ⟨_, [], I.sameHeap hsame, .exhausted, .exhausted, (List.append_nil _).symm,
      by simp [expectedReports]⟩
  | @grow env add backing addr heap tag hg _ =>
    have hs := slotsOf_eq_cons (slotStride B c.pool.pool.blockSize) backing
      (growthCount_some hg.count).2.2.1
    refine ⟨_, _, I.grow hg tag, .grow hg.nonnull, ?_, (List.append_nil _).symm,
      by simp [expectedReports]⟩
    show Vending.Step _ (.vend (slotsOf _ backing add) backing) _
    rw [hs]
    exact .grow
  | @takeBack _ env block tag hheld =>
    have hx : expectedReports B c (.free env block) = [] := if_neg fun hx => hx.2 hheld
    rw [hx]
    exact ⟨_, _, I.takeBack hheld tag, .accept, .accept hheld, (List.append_nil _).symm,
      fun hn => absurd rfl hn⟩
  | @refuse _ env block hfree =>
    have hheld : block ∉ c.held := I.disjoint hfree
    have hx : expectedReports B c (.free env block) = [⟨.doubleFree, block⟩] :=
      if_pos ⟨I.free_slot hfree, hheld⟩
    rw [hx]
    exact ⟨_, _, I.report _ _, .refuse, .refuse hheld, rfl, fun _ => ⟨rfl, rfl⟩⟩
  | @ignore _ env block hslot =>
    have hheld : block ∉ c.held := fun hh => hslot (I.held_slot hh)
    have hx : expectedReports B c (.free env block) = [] := if_neg fun hx => hslot hx.1
    rw [hx]
    exact ⟨_, _, I, .refuse, .refuse hheld, (List.append_nil _).symm, fun hn => absurd rfl hn⟩
  | write hb hl hu =>
    exact ⟨_, _, I.write hb hl hu, .write, .quiet, (List.append_nil _).symm,
      by simp [expectedReports]⟩

end Client

end MemoryPool
