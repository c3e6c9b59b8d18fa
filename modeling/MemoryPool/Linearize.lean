import MemoryPool.LockFreeInv

/-!
# MemoryPool.Linearize

The lock-free pool is an atomic stack of slots.

The successful compare-exchanges of a run, in the order they occur, are its history
(`LockFree.history`), and `LockFree.Inv.run` makes it a run of the abstract stack. What is left is
what the calls have to do with the history, which `CallInv` follows through the code: a call of
`pop_head` returns the block of its own exchange, and null only after it saw the stack empty.

* `lockfree_partition`: no block is lost or vended twice.
* `lockfree_linearizes`: the history, the tag and the calls.
-/

namespace MemoryPool

namespace LockFree

open ByteMem LinkedList

section Calls

variable {τ : Type*}

def Event.marks (t : τ) : Event τ → Prop
  | .call t' _ | .instr t' (.cas _) | .instr t' (.ret _) => t' = t
  | _ => False

/-- `P` held of the events up to some instant, and since then `t` neither began nor ended a call
nor had a successful exchange. -/
def Since (t : τ) (P : List (Event τ) → Prop) (es : List (Event τ)) : Prop :=
  ∃ es₁ es₂, es = es₁ ++ es₂ ∧ P es₁ ∧ ∀ e ∈ es₂, ¬ e.marks t

/-- The thread is inside a call of `op` and has had no successful exchange in it. -/
def Pending (t : τ) (op : Op) : List (Event τ) → Prop :=
  Since t fun es => ∃ es₀, es = es₀ ++ [.call t op]

/-- The thread is inside a call of `pop_head`, and its one successful exchange took `block`. -/
def Popped (t : τ) (block : Nat) : List (Event τ) → Prop :=
  Since t fun es => ∃ es₀, es = es₀ ++ [.instr t (.cas (.pop block))] ∧ Pending t .pop es₀

/-- The thread is inside a call of `pop_head`, and at some instant of it the stack, which started
as `slots`, was empty. -/
def SawEmpty (slots : List Nat) (t : τ) : List (Event τ) → Prop :=
  Since t fun es => Pending t .pop es ∧ (Stack.lts Nat).Run slots (history es) []

/-- What the events so far say about the call a thread is in. -/
def CallInv (slots : List Nat) (t : τ) (es : List (Event τ)) : Pc → Prop
  | .idle => True
  | .popLoad | .popCas _ _ => Pending t .pop es
  | .popTest expected => Pending t .pop es ∧ (expected.ptr = 0 → SawEmpty slots t es)
  | .allocGuard b | .allocPoison b | .allocStamp b | .popRet b => Popped t b es
  | .freeGuard b | .freePoison b _ | .freeStamp b _ => Pending t (.push b) es
  | .pushLoad b | .pushWrite b _ | .pushCas b _ => Pending t (.push b) es

/-- What a run says about its next event: an exchange belongs to a call that has had none, a pop
returns the block of its exchange, or null if it saw the stack empty. -/
def Explained (slots : List Nat) (es : List (Event τ)) : Event τ → Prop
  | .instr t (.cas (.pop _)) => Pending t .pop es
  | .instr t (.cas (.push block)) => Pending t (.push block) es
  | .instr t (.ret block) => if block = 0 then SawEmpty slots t es else Popped t block es
  | _ => True

variable {t : τ} {P : List (Event τ) → Prop} {es : List (Event τ)} {e : Event τ}

theorem Since.now (h : P es) : Since t P es := ⟨es, [], by simp, h, by simp⟩

theorem Since.append (h : Since t P es) (he : ¬ e.marks t) : Since t P (es ++ [e]) := by
  obtain ⟨es₁, es₂, rfl, hP, hq⟩ := h
  refine ⟨es₁, es₂ ++ [e], by simp, hP, ?_⟩
  intro e' he'
  rcases List.mem_append.mp he' with h | h
  · exact hq e' h
  · obtain rfl : e' = e := by simpa using h
    exact he

theorem CallInv.append {slots : List Nat} {pc : Pc} (h : CallInv slots t es pc)
    (he : ¬ e.marks t) : CallInv slots t (es ++ [e]) pc := by
  cases pc with
  | idle => trivial
  | popTest expected => exact ⟨h.1.append he, fun h0 => (h.2 h0).append he⟩
  | _ => exact Since.append h he

end Calls

section Steps

variable {τ : Type*} {B : Build} {others : List (Nat × Region)} {reports : List Report}
  {p : PoolStruct} {m m' : Machine τ} {free slots : List Nat} {es : List (Event τ)} {e : Event τ}

/-- An instruction of the thread itself. Only a load of `head_` has to look at the stack: if the
value is null, the stack is empty at that instant. -/
theorem CallInv.instr {t : τ} {spurious : Bool} {label : Label} {s : State} {pc : Pc}
    (I : Inv B others reports p m free) (hr : (Stack.lts Nat).Run slots (history es) free)
    (h : LockFree.instr B spurious m.pool (m.threads t).pc = some (label, s, pc))
    (C : CallInv slots t es (m.threads t).pc) :
    CallInv slots t (es ++ [.instr t label]) pc := by
  have hempty : Pending t .pop es → m.pool.pool.head.ptr = 0 → SawEmpty slots t es := by
    intro hp h0
    have hc := I.chain
    rw [h0] at hc
    rw [Chain.nil_iff.mp hc] at hr
    exact Since.now ⟨hp, hr⟩
  have hload : ¬ (Event.instr t Label.load).marks t := id
  have hquiet : ¬ (Event.instr t Label.quiet).marks t := id
  cases hpc : (m.threads t).pc with
  | idle => rw [hpc] at h; cases h
  | popLoad =>
    rw [hpc] at h C
    cases h
    exact ⟨Since.append C hload, fun h0 => (hempty C h0).append hload⟩
  | popTest expected =>
    rw [hpc] at h C
    simp only [LockFree.instr] at h
    split at h
    · cases h; trivial
    · cases h; exact C.1.append hquiet
  | popCas expected next =>
    rw [hpc] at h C
    simp only [LockFree.instr] at h
    split at h
    · cases h
      exact ⟨Since.append C hload, fun h0 => (hempty C h0).append hload⟩
    · cases h
      have hp : Popped t expected.ptr (es ++ [.instr t (.cas (.pop expected.ptr))]) :=
        Since.now ⟨es, rfl, C⟩
      split
      · exact hp
      · exact hp
  | allocGuard block =>
    rw [hpc] at h C
    simp only [LockFree.instr, Option.some.injEq, Prod.mk.injEq] at h
    obtain ⟨rfl, -, rfl⟩ := h
    exact Since.append C hquiet
  | allocPoison block =>
    rw [hpc] at h C
    simp only [LockFree.instr, Option.some.injEq, Prod.mk.injEq] at h
    obtain ⟨rfl, -, rfl⟩ := h
    exact Since.append C hquiet
  | allocStamp block => rw [hpc] at h C; cases h; exact Since.append C hquiet
  | popRet block => rw [hpc] at h; cases h; trivial
  | freeGuard block =>
    rw [hpc] at h C
    simp only [LockFree.instr, Option.some.injEq, Prod.mk.injEq] at h
    obtain ⟨rfl, -, rfl⟩ := h
    exact Since.append C hquiet
  | freePoison block doubleFree => rw [hpc] at h C; cases h; exact Since.append C hquiet
  | freeStamp block doubleFree =>
    rw [hpc] at h C
    cases h
    split
    · trivial
    · exact Since.append C hquiet
  | pushLoad block => rw [hpc] at h C; cases h; exact Since.append C hload
  | pushWrite block expected => rw [hpc] at h C; cases h; exact Since.append C hquiet
  | pushCas block expected =>
    rw [hpc] at h C
    simp only [LockFree.instr] at h
    split at h
    · cases h; exact Since.append C hload
    · cases h; trivial

variable [DecidableEq τ]

theorem CallInv.step (I : Inv B others reports p m free)
    (hr : (Stack.lts Nat).Run slots (history es) free) (h : Step B m e m')
    (C : ∀ t, CallInv slots t es (m.threads t).pc) (t : τ) :
    CallInv slots t (es ++ [e]) (m'.threads t).pc := by
  cases h with
  | @pop t₀ hidle =>
    by_cases ht : t = t₀
    · subst ht
      have hp : Pending t .pop (es ++ [.call t .pop]) := Since.now ⟨es, rfl⟩
      simpa [Machine.move, CallInv] using hp
    · simpa [Machine.move, ht] using (C t).append (e := .call t₀ .pop) (Ne.symm ht)
  | @push t₀ block hidle hheld =>
    by_cases ht : t = t₀
    · subst ht
      have hp : Pending t (.push block) (es ++ [.call t (.push block)]) := Since.now ⟨es, rfl⟩
      cases hh : B.hardening <;> simpa [Machine.move, hh, CallInv] using hp
    · simpa [Machine.move, ht] using (C t).append (e := .call t₀ (.push block)) (Ne.symm ht)
  | @instr t₀ spurious label s pc h =>
    by_cases ht : t = t₀
    · subst ht
      have hC := CallInv.instr I hr h (C t)
      cases label <;> simpa [Machine.move, Thread.after] using hC
    · have hm : ¬ (Event.instr t₀ label).marks t := by
        cases label with
        | quiet => exact id
        | load => exact id
        | cas op => exact Ne.symm ht
        | ret block => exact Ne.symm ht
      simpa [Machine.move, ht] using (C t).append hm
  | @write t₀ block addr byte _ _ _ => exact (C t).append id

/-- The invariant over a run: the history so far led to the free list there is. -/
theorem CallInv.run (I : Inv B others reports p m free)
    (C : ∀ t, CallInv free t [] (m.threads t).pc)
    (h : ((lts B τ).guard (InWindow B)).Run m es m') (t : τ) :
    CallInv free t es (m'.threads t).pc := by
  induction h generalizing t with
  | nil => exact C t
  | snoc hrun hs ih =>
    obtain ⟨⟨free', I', hr⟩, -⟩ := I.run hrun
    exact CallInv.step I' hr hs.2 (fun t => ih t) t

/-- What the invariant says of the next event. -/
theorem CallInv.explained (I : Inv B others reports p m free)
    (C : ∀ t, CallInv slots t es (m.threads t).pc) (h : Step B m e m') :
    Explained slots es e := by
  cases h with
  | pop _ => trivial
  | push _ _ => trivial
  | write _ _ _ => trivial
  | @instr t spurious label s pc h =>
    have hC := C t
    cases hpc : (m.threads t).pc with
    | idle => rw [hpc] at h; cases h
    | popTest expected =>
      rw [hpc] at h hC
      simp only [LockFree.instr] at h
      split at h
      · rename_i h0
        cases h
        exact hC.2 h0
      · cases h; trivial
    | popCas expected next =>
      rw [hpc] at h hC
      simp only [LockFree.instr] at h
      split at h
      · cases h; trivial
      · cases h; exact hC
    | pushCas block expected =>
      rw [hpc] at h hC
      simp only [LockFree.instr] at h
      split at h
      · cases h; trivial
      · cases h; exact hC
    | popRet block =>
      have hslot : block ∈ m.pool.pool.slots B :=
        I.shares.owned_mem (t := t) (by simp [Thread.owned, hpc, Pc.block])
      rw [hpc] at h hC
      cases h
      show if block = 0 then _ else Popped t block es
      rw [if_neg (I.layout.slot_spec hslot).1]
      exact hC
    | allocGuard block =>
      rw [hpc] at h
      simp only [LockFree.instr, Option.some.injEq, Prod.mk.injEq] at h
      obtain ⟨rfl, -, -⟩ := h
      trivial
    | allocPoison block =>
      rw [hpc] at h
      simp only [LockFree.instr, Option.some.injEq, Prod.mk.injEq] at h
      obtain ⟨rfl, -, -⟩ := h
      trivial
    | freeGuard block =>
      rw [hpc] at h
      simp only [LockFree.instr, Option.some.injEq, Prod.mk.injEq] at h
      obtain ⟨rfl, -, -⟩ := h
      trivial
    | _ => rw [hpc] at h; cases h; trivial

end Steps

/-! ## A schedule to run examples on -/

def pairPool : PoolStruct := ⟨0x100, 0x1000, ⟨0x1000, 0⟩, 16, 2, 16, [], 0, 0, false⟩

def pairMachine (hardening : Bool) : Machine Bool :=
  .start ⟨(memoryPoolCreate (Build.x64 hardening .lockfree) firstEnv World.start 16 2).2, pairPool⟩

theorem pairPool_create (hardening : Bool) :
    memoryPoolCreate (Build.x64 hardening .lockfree) firstEnv World.start 16 2 =
      (some pairPool, (pairMachine hardening).pool.toWorld) := by
  refine Prod.ext ?_ rfl
  cases hardening <;> decide

/-- One thread reads `0x1010` as the link of the first block. Meanwhile the other pops both blocks,
writes into the second and pushes the first: the head has the same address, and the exchange fails
on the tag. When the first thread then has the block, the other starts a pop and loads null; it
is still to return it when the block is back. -/
def raceSchedule : List (Action Bool) :=
  [.call true .pop, .go true false, .go true false,
    .call false .pop, .go false false, .go false false, .go false false, .go false false,
    .call false .pop, .go false false, .go false false, .go false false, .go false false,
    .write false 0x1010 0x1013 7,
    .call false (.push 0x1000), .go false false, .go false false, .go false false,
    .go true false, .go true false, .go true false, .go true false,
    .call false .pop, .go false false,
    .call true (.push 0x1000), .go true false, .go true false, .go true false]

def raceEvents : List (Event Bool) :=
  [.call true .pop, .instr true .load, .instr true .quiet,
    .call false .pop, .instr false .load, .instr false .quiet, .instr false (.cas (.pop 0x1000)),
    .instr false (.ret 0x1000),
    .call false .pop, .instr false .load, .instr false .quiet, .instr false (.cas (.pop 0x1010)),
    .instr false (.ret 0x1010),
    .write false 0x1013 7,
    .call false (.push 0x1000), .instr false .load, .instr false .quiet,
    .instr false (.cas (.push 0x1000)),
    .instr true .load, .instr true .quiet, .instr true (.cas (.pop 0x1000)),
    .instr true (.ret 0x1000),
    .call false .pop, .instr false .load,
    .call true (.push 0x1000), .instr true .load, .instr true .quiet,
    .instr true (.cas (.push 0x1000))]

theorem race_run : ∃ m, ((lts (Build.x64 false .lockfree) Bool).guard
    (InWindow (Build.x64 false .lockfree))).Run (pairMachine false) raceEvents m ∧
      ((m.threads false).pc, (m.threads false).held, m.pool.pool.head) =
        (.popTest ⟨0, 4⟩, [0x1010], ⟨0x1000, 5⟩) :=
  script_run (fun m : Machine Bool => ((m.threads false).pc, (m.threads false).held,
    m.pool.pool.head)) raceSchedule (by decide +kernel)

end LockFree

section Theorems

open LinkedList

variable {τ : Type*} [DecidableEq τ] {B : Build} {env : Env} {w w' : World}
  {blockSize blockCount : Nat} {p : PoolStruct} {es : List (LockFree.Event τ)}
  {m : LockFree.Machine τ}

/-- Fixed pool, any number of threads, any interleaving of their instructions and of the holders'
writes in the tag window: the links spell out a finite list of distinct slots from `head_`, and
these together with the threads' blocks, those inside unfinished calls included, partition the
slots. -/
theorem lockfree_partition (hbs : blockSize < B.modulus)
    (hcreate : memoryPoolCreate B env w blockSize blockCount = (some p, w'))
    (hrun : ((LockFree.lts B τ).guard (LockFree.InWindow B)).Run (.start ⟨w', p⟩) es m) :
    ∃ free, Chain (revealNext B m.pool.mem) 0 m.pool.pool.head.ptr free ∧ free.Nodup ∧
      Shares (slotsOf (slotStride B blockSize) p.backing blockCount) free
        fun t => (m.threads t).owned := by
  have I := LockFree.Inv.start (τ := τ) hbs hcreate
  obtain ⟨⟨free, I', -⟩, -⟩ := I.run hrun
  refine ⟨free, I'.chain, I'.chain.nodup, ?_⟩
  have hs := I'.shares
  rw [I'.shape.slots, LockFree.slots_start hcreate] at hs
  exact hs

theorem lockfree_partition_x64 :
    ∃ (m : LockFree.Machine Bool) (free : List Nat),
      m.pool.pool.head = ⟨0x1000, 5⟩ ∧ (m.threads false).held = [0x1010] ∧
      Chain (revealNext (Build.x64 false .lockfree) m.pool.mem) 0 m.pool.pool.head.ptr free ∧
      free.Nodup ∧ Shares (slotsOf 16 0x1000 2) free fun t => (m.threads t).owned := by
  obtain ⟨m, hrun, hm⟩ := LockFree.race_run
  simp only [Prod.mk.injEq] at hm
  obtain ⟨free, hf⟩ := lockfree_partition (by decide) (LockFree.pairPool_create false) hrun
  exact ⟨m, free, hm.2.2, hm.2.1, hf⟩

/-- Same runs: the successful compare-exchanges, in order, are a run of the stack that starts as
the slots in ascending order and ends as the list that the links spell out; the tag counts them;
and whatever happens next, an exchange belongs to a call that has had none, a pop returns the block
of its exchange, and null only if the stack was empty at some instant of the call. -/
theorem lockfree_linearizes (hbs : blockSize < B.modulus)
    (hcreate : memoryPoolCreate B env w blockSize blockCount = (some p, w'))
    (hrun : ((LockFree.lts B τ).guard (LockFree.InWindow B)).Run (.start ⟨w', p⟩) es m) :
    (∃ free, (Stack.lts Nat).Run (slotsOf (slotStride B blockSize) p.backing blockCount)
        (LockFree.history es) free ∧
      Chain (revealNext B m.pool.mem) 0 m.pool.pool.head.ptr free) ∧
    m.pool.pool.head.tag = (LockFree.history es).length % B.modulus ∧
    ∀ e m', (LockFree.lts B τ).step m e m' →
      LockFree.Explained (slotsOf (slotStride B blockSize) p.backing blockCount) es e := by
  have I := LockFree.Inv.start (τ := τ) hbs hcreate
  obtain ⟨⟨free, I', hr⟩, hc⟩ := I.run hrun
  refine ⟨⟨free, hr, I'.chain⟩, ?_, ?_⟩
  · rw [I'.tag, hc]
    exact congrArg (· % B.modulus) (Nat.zero_add _)
  · intro e m' hstep
    exact LockFree.CallInv.explained I' (LockFree.CallInv.run I (fun _ => trivial) hrun) hstep

theorem lockfree_linearizes_x64 :
    ∃ m : LockFree.Machine Bool,
      (∃ free, (Stack.lts Nat).Run (slotsOf 16 0x1000 2)
          [.pop 0x1000, .pop 0x1010, .push 0x1000, .pop 0x1000, .push 0x1000] free ∧
        Chain (revealNext (Build.x64 false .lockfree) m.pool.mem) 0 m.pool.pool.head.ptr free) ∧
      m.pool.pool.head.tag = 5 ∧
      LockFree.SawEmpty (slotsOf 16 0x1000 2) false LockFree.raceEvents := by
  obtain ⟨m, hrun, hm⟩ := LockFree.race_run
  simp only [Prod.mk.injEq] at hm
  obtain ⟨h1, h2, h3⟩ := lockfree_linearizes (by decide) (LockFree.pairPool_create false) hrun
  have hret : LockFree.instr (Build.x64 false .lockfree) false m.pool (m.threads false).pc =
      some (.ret 0, m.pool, .idle) := by
    rw [hm.1]
    rfl
  exact ⟨m, h1, h2, h3 _ _ (.instr hret)⟩

end Theorems

end MemoryPool
