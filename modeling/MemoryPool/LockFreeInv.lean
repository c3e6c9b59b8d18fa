import MemoryPool.Lib.Cas
import MemoryPool.Lib.Shares
import MemoryPool.LockFree

/-!
# MemoryPool.LockFreeInv

What holds of the lock-free pool under every interleaving.

The tag of `head_` is the number of successful compare-exchanges modulo `2 ^ width`, and the tag
of a thread's `expected` is that number as it was at the thread's last load. So inside the window
an exchange of equal tags means that no exchange came in between (`ThreadInv.current`), and then
the link the thread read is the link of the top slot (`PcInv`), whoever held that slot meanwhile.

* `Inv.keep`: an instruction that leaves `head_` alone and writes into its own blocks only.
* `Inv.exchange`: a successful compare-exchange.
* `Inv.step`: every step keeps the invariant, and its exchange is a step of the abstract stack.
-/

namespace MemoryPool

namespace LockFree

open ByteMem LinkedList

/-- What a thread knows at each of its instructions. `current`: no successful compare-exchange
since the thread loaded `head_`. -/
def PcInv (B : Build) (s : State) (current : Prop) : Pc → Prop
  | .idle | .popLoad => True
  | .popTest expected => current → s.pool.head = expected
  | .popCas expected next => expected.ptr ≠ 0 ∧
      (current → s.pool.head = expected ∧ next = revealNext B s.mem expected.ptr)
  | .allocGuard block | .allocPoison block =>
    B.hardening = true ∧ StampedFree B s.mem block s.pool.blockSize
  | .allocStamp _ => B.hardening = true
  | .popRet block => StampedHeld B s.mem block s.pool.blockSize
  | .freeGuard block => B.hardening = true ∧ StampedHeld B s.mem block s.pool.blockSize
  | .freePoison _ doubleFree => B.hardening = true ∧ doubleFree = false
  | .freeStamp block doubleFree =>
    B.hardening = true ∧ doubleFree = false ∧ Poisoned B s.mem block s.pool.blockSize
  | .pushLoad block | .pushWrite block _ => StampedFree B s.mem block s.pool.blockSize
  | .pushCas block expected => StampedFree B s.mem block s.pool.blockSize ∧
      revealNext B s.mem block = expected.ptr

/-- A value `head_` may have had. -/
def HeadValue (B : Build) (s : State) (ptr : Nat) : Prop := ptr = 0 ∨ ptr ∈ s.pool.slots B

structure ThreadInv (B : Build) (s : State) (cas : Nat) (th : Thread) : Prop where
  vended : ∀ b ∈ th.held, StampedHeld B s.mem b s.pool.blockSize
  snap_le : th.snap ≤ cas
  snapshot : ∀ e, th.pc.expected = some e → e.tag = th.snap % B.modulus ∧ HeadValue B s e.ptr
  here : PcInv B s (th.snap = cas) th.pc

structure Inv {τ : Type*} (B : Build) (others : List (Nat × Region)) (reports : List Report)
    (p : PoolStruct) (m : Machine τ) (free : List Nat) : Prop where
  shape : p.SameShape m.pool.pool
  layout : Layout B m.pool others
  chain : Chain (revealNext B m.pool.mem) 0 m.pool.pool.head.ptr free
  shares : Shares (m.pool.pool.slots B) free fun t => (m.threads t).owned
  freed : ∀ a ∈ free, StampedFree B m.pool.mem a m.pool.pool.blockSize
  tag : m.pool.pool.head.tag = m.cas % B.modulus
  threads : ∀ t, ThreadInv B m.pool m.cas (m.threads t)
  reports : m.pool.reports = reports

/-! ## One thread while others move -/

/-- The pool after some instruction of another thread: the slots in `same` are as they were. -/
structure Elsewhere (B : Build) (s s' : State) (same : Nat → Prop) : Prop where
  shape : s.pool.SameShape s'.pool
  slots : ∀ b, same b → SameOn s.mem s'.mem b (slotStride B s.pool.blockSize)

section Others

variable {B : Build} {s s' : State} {same : Nat → Prop}

theorem Elsewhere.free (h : Elsewhere B s s' same) (d : SlotDims B s.pool.blockSize) {b : Nat}
    (hb : same b) (hs : StampedFree B s.mem b s.pool.blockSize) :
    StampedFree B s'.mem b s'.pool.blockSize := by
  rw [h.shape.blockSize]
  exact hs.same d (h.slots b hb)

theorem Elsewhere.held (h : Elsewhere B s s' same) (d : SlotDims B s.pool.blockSize) {b : Nat}
    (hb : same b) (hs : StampedHeld B s.mem b s.pool.blockSize) :
    StampedHeld B s'.mem b s'.pool.blockSize := by
  rw [h.shape.blockSize]
  exact hs.same d (h.slots b hb)

theorem Elsewhere.link (h : Elsewhere B s s' same) (d : SlotDims B s.pool.blockSize) {b : Nat}
    (hb : same b) : revealNext B s'.mem b = revealNext B s.mem b :=
  revealNext_same d (h.slots b hb)

/-- What a thread knows survives if its own blocks are untouched and, as long as its snapshot is
current, `head_` and the slot at the top are too. -/
theorem PcInv.other {current current' : Prop} {pc : Pc} (d : SlotDims B s.pool.blockSize)
    (h : Elsewhere B s s' same) (hown : ∀ b ∈ pc.block, same b)
    (hcur : current' → current ∧ s'.pool.head = s.pool.head ∧
      (s.pool.head.ptr ≠ 0 → same s.pool.head.ptr))
    (hp : PcInv B s current pc) : PcInv B s' current' pc := by
  cases pc with
  | idle => trivial
  | popLoad => trivial
  | popTest expected =>
    intro hc
    obtain ⟨h1, h2, -⟩ := hcur hc
    exact h2.trans (hp h1)
  | popCas expected next =>
    refine ⟨hp.1, fun hc => ?_⟩
    obtain ⟨h1, h2, h3⟩ := hcur hc
    obtain ⟨hh, hn⟩ := hp.2 h1
    rw [hh] at h3
    exact ⟨h2.trans hh, hn.trans (h.link d (h3 hp.1)).symm⟩
  | allocGuard block => exact ⟨hp.1, h.free d (hown _ (by simp [Pc.block])) hp.2⟩
  | allocPoison block => exact ⟨hp.1, h.free d (hown _ (by simp [Pc.block])) hp.2⟩
  | allocStamp block => exact hp
  | popRet block => exact h.held d (hown _ (by simp [Pc.block])) hp
  | freeGuard block => exact ⟨hp.1, h.held d (hown _ (by simp [Pc.block])) hp.2⟩
  | freePoison block doubleFree => exact hp
  | freeStamp block doubleFree =>
    refine ⟨hp.1, hp.2.1, ?_⟩
    rw [h.shape.blockSize]
    exact hp.2.2.congr ((h.slots block (hown _ (by simp [Pc.block]))).mono (le_refl _)
      (by have := d.block; omega))
  | pushLoad block => exact h.free d (hown _ (by simp [Pc.block])) hp
  | pushWrite block expected => exact h.free d (hown _ (by simp [Pc.block])) hp
  | pushCas block expected =>
    exact ⟨h.free d (hown _ (by simp [Pc.block])) hp.1,
      (h.link d (hown _ (by simp [Pc.block]))).trans hp.2⟩

theorem ThreadInv.other {cas cas' : Nat} {th : Thread} (d : SlotDims B s.pool.blockSize)
    (h : Elsewhere B s s' same) (hown : ∀ b ∈ th.owned, same b) (hle : cas ≤ cas')
    (hcur : cas = cas' → s'.pool.head = s.pool.head ∧
      (s.pool.head.ptr ≠ 0 → same s.pool.head.ptr))
    (T : ThreadInv B s cas th) : ThreadInv B s' cas' th := by
  refine ⟨?_, T.snap_le.trans hle, ?_, ?_⟩
  · intro b hb
    exact h.held d (hown b (List.mem_append_right _ hb)) (T.vended b hb)
  · intro e he
    unfold HeadValue
    rw [h.shape.slots]
    exact T.snapshot e he
  · refine PcInv.other d h (fun b hb => hown b (List.mem_append_left _ hb)) ?_ T.here
    intro hc
    have := T.snap_le
    exact ⟨by omega, hcur (by omega)⟩

theorem ThreadInv.advance {cas : Nat} {th : Thread} {pc : Pc} (d : SlotDims B s.pool.blockSize)
    (h : Elsewhere B s s' same) (hheld : ∀ b ∈ th.held, same b)
    (he : ∀ e, pc.expected = some e → th.pc.expected = some e)
    (hp : PcInv B s' (th.snap = cas) pc) (T : ThreadInv B s cas th) :
    ThreadInv B s' cas { th with pc := pc } := by
  refine ⟨fun b hb => h.held d (hheld b hb) (T.vended b hb), T.snap_le, ?_, hp⟩
  intro e hpc
  unfold HeadValue
  rw [h.shape.slots]
  exact T.snapshot e (he e hpc)

theorem Elsewhere.refl (B : Build) (s : State) (same : Nat → Prop) : Elsewhere B s s same :=
  ⟨.of_eq rfl, fun _ _ => .refl _ _ _⟩

theorem Elsewhere.mono {same' : Nat → Prop} (h : Elsewhere B s s' same)
    (hs : ∀ b, same' b → same b) : Elsewhere B s s' same' :=
  ⟨h.shape, fun b hb => h.slots b (hs b hb)⟩

end Others

theorem Elsewhere.inside {B : Build} {s : State} {others : List (Nat × Region)}
    (L : Layout B s others) {b : Nat} {mem : Mem} (hb : b ∈ s.pool.slots B)
    (hout : ∀ x, (x < b ∨ b + slotStride B s.pool.blockSize ≤ x) → mem x = s.mem x) :
    Elsewhere B s { s with mem := mem } fun a => a ∈ s.pool.slots B ∧ a ≠ b :=
  ⟨.of_eq rfl, fun _ ha => sameOn_of_outside hout (L.slots_apart hb ha.1 ha.2.symm)⟩

/-! ## The two kinds of change -/

section Steps

variable {τ : Type*} {B : Build} {others : List (Nat × Region)} {reports : List Report}
  {p : PoolStruct} {m : Machine τ} {free : List Nat} {t : τ}

theorem Inv.head_free (I : Inv B others reports p m free) (h : m.pool.pool.head.ptr ≠ 0) :
    m.pool.pool.head.ptr ∈ free := by
  obtain ⟨rest, hfree, -⟩ := I.chain.eq_cons h
  rw [hfree]
  exact List.mem_cons_self ..

theorem Inv.head_value (I : Inv B others reports p m free) :
    HeadValue B m.pool m.pool.pool.head.ptr := by
  by_cases h0 : m.pool.pool.head.ptr = 0
  · exact Or.inl h0
  · exact Or.inr (I.shares.free_mem (I.head_free h0))

/-- Inside the window a successful comparison means that the snapshot is current. -/
theorem Inv.current (I : Inv B others reports p m free)
    (he : (m.threads t).pc.expected = some m.pool.pool.head)
    (hw : m.cas - (m.threads t).snap < B.modulus) : (m.threads t).snap = m.cas := by
  have T := I.threads t
  refine eq_of_tag_eq T.snap_le hw ?_
  rw [← (T.snapshot _ he).1, I.tag]

section Writes

variable {block addr : Nat}

theorem Inv.elsewhere_write (I : Inv B others reports p m free) (hheld : block ∈ (m.threads t).held)
    (hl : block ≤ addr) (hu : addr < block + m.pool.pool.blockSize) (byte : UInt8) :
    Elsewhere B m.pool { m.pool with mem := set m.pool.mem addr byte }
      fun a => a ∈ m.pool.pool.slots B ∧ a ≠ block := by
  have hb := I.layout.dims.block
  refine .inside I.layout (I.shares.owned_mem (t := t) (List.mem_append_right _ hheld)) ?_
  intro x hx
  exact set_other (by omega)

/-- A holder's write is invisible to its own call: it lies in none of the blocks the call has in
its hands, short of the guard word, and not in the free list. -/
theorem Inv.thread_write (I : Inv B others reports p m free) (hheld : block ∈ (m.threads t).held)
    (hl : block ≤ addr) (hu : addr < block + m.pool.pool.blockSize) (byte : UInt8) :
    ThreadInv B { m.pool with mem := set m.pool.mem addr byte } m.cas (m.threads t) := by
  have d := I.layout.dims
  have T := I.threads t
  have h := I.elsewhere_write hheld hl hu byte
  have hmem : ∀ a ∈ (m.threads t).owned, a ∈ m.pool.pool.slots B := by
    intro a ha
    exact I.shares.owned_mem ha
  have hnd := List.nodup_append.mp (I.shares.owned_nodup t)
  refine ⟨?_, T.snap_le, T.snapshot, T.here.other d h ?_ ?_⟩
  · intro a ha
    by_cases hab : a = block
    · subst hab
      exact (T.vended a ha).set hu byte
    · exact h.held d ⟨hmem a (List.mem_append_right _ ha), hab⟩ (T.vended a ha)
  · intro a ha
    exact ⟨hmem a (List.mem_append_left _ ha), hnd.2.2 a ha block hheld⟩
  · intro hc
    refine ⟨hc, rfl, fun h0 => ⟨I.shares.free_mem (I.head_free h0), ?_⟩⟩
    intro hab
    exact I.shares.apart t _ (I.head_free h0) (hab ▸ List.mem_append_right _ hheld)

end Writes

theorem history_append (es es' : List (Event τ)) :
    history (es ++ es') = history es ++ history es' := List.filterMap_append

theorem history_single (e : Event τ) : history [e] = e.op.toList := by
  unfold history
  cases h : e.op <;> simp [h]

variable [DecidableEq τ]

theorem Machine.move_owned (m : Machine τ) (t : τ) (s : State) (th : Thread) (cas : Nat) :
    (fun t' => ((m.move t s th cas).threads t').owned) =
      Function.update (fun t' => (m.threads t').owned) t th.owned :=
  funext fun t' => Function.apply_update (fun _ => Thread.owned) m.threads t th t'

namespace Inv

/-- `head_` is left alone, and all that is written lies in the thread's own blocks. -/
theorem keep (I : Inv B others reports p m free) (mem : Mem) {th : Thread}
    (hown : th.owned.Perm (m.threads t).owned)
    (h : Elsewhere B m.pool { m.pool with mem := mem }
      fun a => a ∈ m.pool.pool.slots B ∧ a ∉ (m.threads t).owned)
    (T : ThreadInv B { m.pool with mem := mem } m.cas th) :
    Inv B others reports p (m.move t { m.pool with mem := mem } th m.cas) free := by
  have d := I.layout.dims
  have hfree : ∀ a ∈ free, a ∈ m.pool.pool.slots B ∧ a ∉ (m.threads t).owned := by
    intro a ha
    exact ⟨I.shares.free_mem ha, I.shares.apart t a ha⟩
  refine ⟨I.shape, I.layout.same rfl rfl, ?_, ?_, ?_, I.tag, ?_, I.reports⟩
  · exact I.chain.congr fun a ha => h.link d (hfree a ha)
  · rw [Machine.move_owned]
    refine I.shares.rearrange fun t' => ?_
    by_cases ht : t' = t
    · subst ht; simpa using hown
    · simp [ht]
  · intro a ha
    exact h.free d (hfree a ha) (I.freed a ha)
  · intro t'
    by_cases ht : t' = t
    · subst ht; simpa [Machine.move] using T
    · simp only [Machine.move, Function.update_of_ne ht]
      refine (I.threads t').other d h ?_ (le_refl _) ?_
      · intro b hb
        exact ⟨I.shares.owned_mem hb, fun hb' => ht (I.shares.exclusive t' t b hb hb')⟩
      · intro _
        exact ⟨rfl, fun h0 => hfree _ (I.head_free h0)⟩

/-- A successful compare-exchange: every other thread's snapshot is stale from now on. -/
theorem exchange (I : Inv B others reports p m free) {head : TaggedHead} {th : Thread}
    {free' : List Nat} (hchain : Chain (revealNext B m.pool.mem) 0 head.ptr free')
    (hshares : Shares (m.pool.pool.slots B) free'
      (Function.update (fun t' => (m.threads t').owned) t th.owned))
    (hfreed : ∀ a ∈ free', StampedFree B m.pool.mem a m.pool.pool.blockSize)
    (htag : head.tag = (m.cas + 1) % B.modulus)
    (T : ThreadInv B (m.pool.setTaggedHead head) (m.cas + 1) th) :
    Inv B others reports p (m.move t (m.pool.setTaggedHead head) th (m.cas + 1)) free' := by
  have h : Elsewhere B m.pool (m.pool.setTaggedHead head) fun _ => True :=
    ⟨rfl, fun _ _ => .refl _ _ _⟩
  refine ⟨I.shape.trans rfl, I.layout.same h.shape rfl, hchain, ?_, hfreed, htag, ?_, I.reports⟩
  · rw [Machine.move_owned]
    exact hshares
  · intro t'
    by_cases ht : t' = t
    · subst ht; simpa [Machine.move] using T
    · simp only [Machine.move, Function.update_of_ne ht]
      exact (I.threads t').other I.layout.dims h (fun _ _ => trivial) (by omega) (by omega)

/-! ## The instructions -/

theorem advance (I : Inv B others reports p m free) {pc : Pc}
    (hb : pc.block = (m.threads t).pc.block)
    (he : ∀ e, pc.expected = some e → (m.threads t).pc.expected = some e)
    (hp : PcInv B m.pool ((m.threads t).snap = m.cas) pc) :
    Inv B others reports p (m.move t m.pool { m.threads t with pc := pc } m.cas) free := by
  have h := Elsewhere.refl B m.pool
  refine I.keep m.pool.mem ?_ (h _) ?_
  · simp [Thread.owned, hb]
  · exact (I.threads t).advance I.layout.dims (h fun _ => True) (fun _ _ => trivial) he hp

theorem reload (I : Inv B others reports p m free) {pc : Pc}
    (hb : pc.block = (m.threads t).pc.block) (he : pc.expected = some m.pool.pool.head)
    (hp : PcInv B m.pool True pc) :
    Inv B others reports p
      (m.move t m.pool { m.threads t with pc := pc, snap := m.cas } m.cas) free := by
  refine I.keep m.pool.mem ?_ (.refl B m.pool _) ?_
  · simp [Thread.owned, hb]
  · refine ⟨(I.threads t).vended, le_refl _, ?_, by simpa using hp⟩
    intro e h
    obtain rfl : m.pool.pool.head = e := by simpa [he] using h
    exact ⟨I.tag, I.head_value⟩

theorem store (I : Inv B others reports p m free) {b : Nat} {mem : Mem} {pc : Pc}
    (hb : (m.threads t).pc.block = [b]) (hb' : pc.block = [b])
    (he : ∀ e, pc.expected = some e → (m.threads t).pc.expected = some e)
    (hout : ∀ x, (x < b ∨ b + slotStride B m.pool.pool.blockSize ≤ x) → mem x = m.pool.mem x)
    (hp : PcInv B { m.pool with mem := mem } ((m.threads t).snap = m.cas) pc) :
    Inv B others reports p
      (m.move t { m.pool with mem := mem } { m.threads t with pc := pc } m.cas) free := by
  have hown : (m.threads t).owned = b :: (m.threads t).held := by simp [Thread.owned, hb]
  have hmem : ∀ a ∈ (m.threads t).owned, a ∈ m.pool.pool.slots B := by
    intro a ha
    exact I.shares.owned_mem ha
  have hnd := I.shares.owned_nodup t
  simp only [hown] at hmem hnd
  have h := Elsewhere.inside I.layout (hmem b (List.mem_cons_self ..)) hout
  refine I.keep mem ?_ (h.mono ?_) ((I.threads t).advance I.layout.dims h ?_ he hp)
  · simp [Thread.owned, hb, hb']
  · rintro a ⟨ha, hno⟩
    refine ⟨ha, ?_⟩
    rintro rfl
    exact hno (hown ▸ List.mem_cons_self ..)
  · intro a ha
    refine ⟨hmem a (List.mem_cons_of_mem _ ha), ?_⟩
    rintro rfl
    exact (List.nodup_cons.mp hnd).1 ha

theorem popExchange (I : Inv B others reports p m free) {next : Nat} (pc : Pc)
    (hpc : (m.threads t).pc = .popCas m.pool.pool.head next)
    (hb : pc.block = [m.pool.pool.head.ptr]) (he : pc.expected = none)
    (hp : StampedFree B m.pool.mem m.pool.pool.head.ptr m.pool.pool.blockSize →
      PcInv B (m.pool.setTaggedHead ⟨next, B.add m.pool.pool.head.tag 1⟩)
        ((m.threads t).snap = m.cas + 1) pc)
    (hw : m.cas - (m.threads t).snap < B.modulus) :
    ∃ free', Inv B others reports p
        (m.move t (m.pool.setTaggedHead ⟨next, B.add m.pool.pool.head.tag 1⟩)
          { m.threads t with pc := pc } (m.cas + 1)) free' ∧
      Stack.Step free (.pop m.pool.pool.head.ptr) free' := by
  have T := I.threads t
  have hcur := I.current (t := t) (by rw [hpc]; rfl) hw
  have hhere := T.here
  rw [hpc] at hhere
  obtain ⟨hne, hlink⟩ := hhere
  obtain ⟨-, rfl⟩ := hlink hcur
  obtain ⟨rest, rfl, hchain⟩ := I.chain.eq_cons hne
  refine ⟨rest, I.exchange hchain ?_ ?_ ?_ ?_, .pop⟩
  · have hown : ({ m.threads t with pc := pc } : Thread).owned =
        m.pool.pool.head.ptr :: (m.threads t).owned := by
      have hb' : (m.threads t).pc.block = [] := by rw [hpc]; rfl
      simp [Thread.owned, hb, hb']
    rw [hown]
    exact I.shares.take t
  · intro a ha
    exact I.freed a (List.mem_cons_of_mem _ ha)
  · simp [Build.add, I.tag]
  · refine ⟨T.vended, T.snap_le.trans (by omega), ?_, hp (I.freed _ (List.mem_cons_self ..))⟩
    intro e h
    rw [he] at h
    cases h

theorem pushExchange (I : Inv B others reports p m free) {b : Nat}
    (hpc : (m.threads t).pc = .pushCas b m.pool.pool.head) :
    Inv B others reports p
      (m.move t (m.pool.setTaggedHead ⟨b, B.add m.pool.pool.head.tag 1⟩)
        { m.threads t with pc := .idle } (m.cas + 1)) (b :: free) := by
  have T := I.threads t
  have hhere := T.here
  rw [hpc] at hhere
  obtain ⟨hfree, hlink⟩ := hhere
  have hown : (m.threads t).owned = b :: (m.threads t).held := by
    simp [Thread.owned, hpc, Pc.block]
  have hslot : b ∈ m.pool.pool.slots B :=
    I.shares.owned_mem (t := t) (by simp [hown])
  refine I.exchange ?_ ?_ ?_ ?_ ?_
  · exact I.chain.push (I.layout.slot_spec hslot).1 hlink fun _ _ => rfl
  · exact I.shares.give (by rw [hown]; exact .refl _)
  · intro a ha
    rcases List.mem_cons.mp ha with rfl | ha
    · exact hfree
    · exact I.freed a ha
  · simp [Build.add, I.tag]
  · exact ⟨T.vended, T.snap_le.trans (by omega), (fun e h => by cases h), trivial⟩

/-- Every instruction keeps the invariant, and what it does to the free list is its exchange. -/
theorem instr (I : Inv B others reports p m free) {spurious : Bool} {label : Label} {s : State}
    {pc : Pc} (h : LockFree.instr B spurious m.pool (m.threads t).pc = some (label, s, pc))
    (hw : InWindow B m (.instr t label)) :
    ∃ free', Inv B others reports p
        (m.move t s ((m.threads t).after m.cas pc label) (label.count m.cas)) free' ∧
      (Stack.lts Nat).Run free (Event.instr t label).op.toList free' := by
  have d := I.layout.dims
  have T := I.threads t
  have hslot : ∀ b ∈ (m.threads t).pc.block, b ∈ m.pool.pool.slots B := by
    intro b hb
    exact I.shares.owned_mem (t := t) (List.mem_append_left _ hb)
  have hhere := T.here
  cases hpc : (m.threads t).pc with
  | idle => rw [hpc] at h; cases h
  | popLoad =>
    rw [hpc] at h
    cases h
    exact ⟨free, I.reload (by rw [hpc]; rfl) rfl fun _ => rfl, .nil⟩
  | popTest expected =>
    rw [hpc] at h hhere
    simp only [LockFree.instr] at h
    split at h
    · cases h
      exact ⟨free, I.advance (by rw [hpc]; rfl) (fun _ he => by cases he) trivial, .nil⟩
    · rename_i hne
      cases h
      refine ⟨free, I.advance (by rw [hpc]; rfl) (fun _ he => by rw [hpc]; exact he) ?_, .nil⟩
      exact ⟨hne, fun hc => ⟨hhere hc, rfl⟩⟩
  | popCas expected next =>
    rw [hpc] at h hhere
    simp only [LockFree.instr] at h
    split at h
    · cases h
      exact ⟨free, I.reload (by rw [hpc]; rfl) rfl fun _ => rfl, .nil⟩
    · rename_i hcmp
      push Not at hcmp
      obtain ⟨-, rfl⟩ := hcmp
      cases h
      obtain ⟨free', hI, hstep⟩ := I.popExchange
        (if B.hardening then .allocGuard _ else .popRet _) hpc
        (by split <;> rfl) (by split <;> rfl)
        (by
          intro hs
          split
          · rename_i hh; exact ⟨hh, hs⟩
          · rename_i hh; exact fun hh' => absurd hh' hh) hw
      exact ⟨free', hI, .single hstep⟩
  | allocGuard block =>
    rw [hpc] at h hhere
    obtain ⟨hh, hs⟩ := hhere
    simp only [LockFree.instr, (hs hh).1, ne_eq, not_true, if_false] at h
    cases h
    exact ⟨free, I.advance (by rw [hpc]; rfl) (fun _ he => by cases he) ⟨hh, hs⟩, .nil⟩
  | allocPoison block =>
    rw [hpc] at h hhere
    obtain ⟨hh, hs⟩ := hhere
    simp only [LockFree.instr, payloadIsPoison_iff.mpr (hs hh).2, Bool.not_true,
      Bool.false_eq_true, if_false] at h
    cases h
    exact ⟨free, I.advance (by rw [hpc]; rfl) (fun _ he => by cases he) hh, .nil⟩
  | allocStamp block =>
    rw [hpc] at h hhere
    cases h
    refine ⟨free, I.store (b := block) (by rw [hpc]; rfl) rfl (fun _ he => by cases he) ?_ ?_, .nil⟩
    · have := d.guard hhere
      intro x hx
      exact writeGuard_outside (by omega)
    · intro _
      exact readGuard_writeGuard _ (by decide)
  | popRet block =>
    have hb : block ≠ 0 := (I.layout.slot_spec (hslot block (by simp [hpc, Pc.block]))).1
    rw [hpc] at h hhere
    cases h
    refine ⟨free, I.keep m.pool.mem ?_ (.refl B m.pool _) ?_, .nil⟩
    · simp [Thread.owned, Thread.after, hb, hpc, Pc.block]
    · refine ⟨?_, T.snap_le, (fun _ he => by cases he), trivial⟩
      intro a ha
      simp only [Thread.after, if_neg hb, List.mem_cons] at ha
      rcases ha with rfl | ha
      · exact hhere
      · exact T.vended a ha
  | freeGuard block =>
    rw [hpc] at h hhere
    obtain ⟨hh, hs⟩ := hhere
    have hne : guardAllocated ≠ guardFreed := by decide
    simp only [LockFree.instr, hs hh, hne, ne_eq, not_true, if_false, decide_false] at h
    cases h
    exact ⟨free, I.advance (by rw [hpc]; rfl) (fun _ he => by cases he) ⟨hh, rfl⟩, .nil⟩
  | freePoison block doubleFree =>
    rw [hpc] at h hhere
    cases h
    refine ⟨free, I.store (b := block) (by rw [hpc]; rfl) rfl (fun _ he => by cases he) ?_ ?_, .nil⟩
    · have := d.block
      intro x hx
      exact poisonPayload_outside (by omega)
    · exact ⟨hhere.1, hhere.2, poisonPayload_poisoned B _ block _⟩
  | freeStamp block doubleFree =>
    rw [hpc] at h hhere
    obtain ⟨hh, rfl, hpoison⟩ := hhere
    cases h
    refine ⟨free, I.store (b := block) (by rw [hpc]; rfl) rfl (fun _ he => by cases he) ?_ ?_, .nil⟩
    · have := d.guard hh
      intro x hx
      exact writeGuard_outside (by omega)
    · intro _
      refine ⟨readGuard_writeGuard _ (by decide), ?_⟩
      intro x hl hu
      exact (writeGuard_outside (Or.inl hu)).trans (hpoison x hl hu)
  | pushLoad block =>
    rw [hpc] at h hhere
    cases h
    exact ⟨free, I.reload (by rw [hpc]; rfl) rfl hhere, .nil⟩
  | pushWrite block expected =>
    have hlt : block < B.modulus := by
      have := (I.layout.slot_spec (hslot block (by simp [hpc, Pc.block]))).2.2
      omega
    have hlt' : expected.ptr < B.modulus := by
      rcases (T.snapshot expected (by rw [hpc]; rfl)).2 with h0 | hs
      · rw [h0]; exact B.modulus_pos
      · have := (I.layout.slot_spec hs).2.2
        omega
    rw [hpc] at h hhere
    cases h
    have hlink := d.link
    have hblock := d.block
    refine ⟨free, I.store (b := block) (by rw [hpc]; rfl) rfl (fun _ he => by rw [hpc]; exact he)
      ?_ ?_, .nil⟩
    · intro x hx
      exact writeNext_outside (by omega)
    · exact ⟨StampedFree.writeNext hlink hhere, revealNext_writeNext _ hlt hlt'⟩
  | pushCas block expected =>
    rw [hpc] at h hhere
    simp only [LockFree.instr] at h
    split at h
    · cases h
      exact ⟨free, I.reload (by rw [hpc]; rfl) rfl hhere.1, .nil⟩
    · rename_i hcmp
      push Not at hcmp
      obtain ⟨-, rfl⟩ := hcmp
      cases h
      exact ⟨block :: free, I.pushExchange hpc, .single .push⟩

theorem step (I : Inv B others reports p m free) {e : Event τ} {m' : Machine τ}
    (h : Step B m e m') (hw : InWindow B m e) :
    ∃ free', Inv B others reports p m' free' ∧ (Stack.lts Nat).Run free e.op.toList free' := by
  cases h with
  | @pop t hidle =>
    refine ⟨free, I.advance ?_ (fun _ he => by cases he) trivial, .nil⟩
    rw [hidle]
    rfl
  | @push t block hidle hheld =>
    have T := I.threads t
    refine ⟨free, I.keep m.pool.mem ?_ (.refl B m.pool _) ?_, .nil⟩
    · have hp := (List.perm_cons_erase hheld).symm
      cases hh : B.hardening <;> simpa [Thread.owned, Pc.block, hidle] using hp
    · refine ⟨fun b hb => T.vended b (List.mem_of_mem_erase hb), T.snap_le, ?_, ?_⟩
      · intro e he
        cases hh : B.hardening <;> simp [Pc.expected, hh] at he
      · cases hh : B.hardening with
        | false =>
          intro hh'
          exact absurd hh' (by simp [hh])
        | true => exact ⟨hh, T.vended block hheld⟩
  | instr h => exact I.instr h hw
  | @write t block addr byte hheld hl hu =>
    refine ⟨free, ?_, .nil⟩
    have hI := I.keep (set m.pool.mem addr byte) (.refl _)
      ((I.elsewhere_write hheld hl hu byte).mono ?_) (I.thread_write hheld hl hu byte)
    · simpa [Machine.move] using hI
    · rintro a ⟨ha, hno⟩
      exact ⟨ha, fun hab => hno (hab ▸ List.mem_append_right _ hheld)⟩

end Inv

/-- A run of the machine is a run of the abstract stack, and the count is the number of its
operations. -/
theorem Inv.run (I : Inv B others reports p m free) {es : List (Event τ)} {m' : Machine τ}
    (h : ((lts B τ).guard (InWindow B)).Run m es m') :
    (∃ free', Inv B others reports p m' free' ∧ (Stack.lts Nat).Run free (history es) free') ∧
      m'.cas = m.cas + (history es).length := by
  induction h with
  | nil => exact ⟨⟨free, I, .nil⟩, rfl⟩
  | @snoc m₁ m₂ es e _ hs ih =>
    obtain ⟨⟨free₁, I₁, hr⟩, hc⟩ := ih
    obtain ⟨free₂, I₂, hr₂⟩ := I₁.step hs.2 hs.1
    rw [history_append, history_single]
    refine ⟨⟨free₂, I₂, hr.trans hr₂⟩, ?_⟩
    have hcount : m₂.cas = m₁.cas + e.op.toList.length := by
      cases hs.2 with
      | pop _ => rfl
      | push _ _ => rfl
      | write _ _ _ => rfl
      | @instr t spurious label s pc _ => cases label <;> rfl
    rw [List.length_append]
    omega

end Steps

theorem slots_start {B : Build} {env : Env} {w w' : World} {blockSize blockCount : Nat}
    {p : PoolStruct} (h : memoryPoolCreate B env w blockSize blockCount = (some p, w')) :
    p.slots B = slotsOf (slotStride B blockSize) p.backing blockCount := by
  obtain ⟨-, -, backing, addr, heap, -, -, -, -, -, rfl, -⟩ := memoryPoolCreate_some h
  simp [PoolStruct.slots, PoolStruct.chunks]

theorem Inv.start {τ : Type*} {B : Build} {env : Env} {w w' : World} {blockSize blockCount : Nat}
    {p : PoolStruct} (hbs : blockSize < B.modulus)
    (h : memoryPoolCreate B env w blockSize blockCount = (some p, w')) :
    Inv B w.heap.ledger.live w.reports p (Machine.start ⟨w', p⟩ : Machine τ)
      (slotsOf (slotStride B blockSize) p.backing blockCount) := by
  have C := memoryPoolCreate_created hbs h
  have hslots := slots_start h
  obtain ⟨-, -, backing, addr, heap, -, -, -, -, -, rfl, -⟩ := memoryPoolCreate_some h
  refine ⟨rfl, C.inv.layout, C.inv.chain, ?_, C.inv.freed, (Nat.zero_mod _).symm, ?_, C.reports⟩
  · have S := @Shares.all_free Nat τ _ C.inv.layout.slots_nodup
    rw [hslots] at S
    simpa [Machine.start, Thread.owned, Pc.block, hslots] using S
  · intro t
    exact ⟨fun _ hb => absurd hb List.not_mem_nil, le_refl _, (fun e he => by cases he), trivial⟩

end LockFree

end MemoryPool
