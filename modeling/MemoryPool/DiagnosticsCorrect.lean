import MemoryPool.Diagnostics
import MemoryPool.Refinement

/-!
# MemoryPool.DiagnosticsCorrect

The diagnostic walks on a pool in good order. That they end is not in their text: they end because
the free list is a chain, and a chain does not repeat a slot.

* `freeCountLoop_chain`, `iterate_chain`: both loops along a chain whose links pass the integrity
  check.
* `Client.run_order`: the free list of a client that frees only what it holds, spelled out by the
  trace of its calls.
* `diagnostic_walks`: every reachable state.
-/

namespace MemoryPool

open ByteMem LinkedList

section Walks

variable {B : Build} {s : State} {others : List (Nat × Region)} {free held : List Nat}

theorem Layout.slots_length (L : Layout B s others) : (s.pool.slots B).length < B.modulus := by
  have hsub : (0 :: s.pool.slots B) ⊆ List.range B.modulus := by
    intro a ha
    rw [List.mem_range]
    rcases List.mem_cons.mp ha with rfl | ha
    · exact B.modulus_pos
    · have := (L.slot_spec ha).2.2
      omega
  have hnd : (0 :: s.pool.slots B).Nodup :=
    List.nodup_cons.mpr ⟨fun h0 => (L.slot_spec h0).1 rfl, L.slots_nodup⟩
  have hle := (List.subperm_of_subset hnd hsub).length_le
  rw [List.length_cons, List.length_range] at hle
  omega

/-- The blocks of all chunks together. -/
def PoolStruct.capacity (p : PoolStruct) : Nat := (p.chunks.map Prod.snd).sum

theorem PoolStruct.length_slots (B : Build) (p : PoolStruct) :
    (p.slots B).length = p.capacity := by
  simp [PoolStruct.slots, PoolStruct.capacity, slotsOf, List.length_flatMap]

theorem PoolInv.free_length (I : PoolInv B s others free held) :
    free.length + held.length = s.pool.capacity := by
  rw [← PoolStruct.length_slots B, ← I.parts.length_eq, List.length_append]

theorem PoolInv.readNext_free (I : PoolInv B s others free held) {a : Nat} (ha : a ∈ free) :
    readNext B s.toWorld a = (revealNext B s.mem a, s.toWorld) := by
  refine readNext_eq ?_
  rcases I.chain.next_mem ha with h | h
  · exact Or.inl h
  · exact Or.inr (I.layout.slot_spec (I.free_slot h)).2.1

/-- By induction on the part of the chain that is left. -/
theorem freeCountLoop_chain :
    ∀ {l : List Nat} {tests slot count : Nat}, Chain (revealNext B s.mem) 0 slot l →
      (∀ a ∈ l, readNext B s.toWorld a = (revealNext B s.mem a, s.toWorld)) →
      l.length < tests → count + l.length < B.modulus →
      freeCountLoop B tests slot count s = some (count + l.length, s) := by
  intro l
  induction l with
  | nil =>
    intro tests slot count hc _ htests _
    obtain ⟨tests, rfl⟩ : ∃ k, tests = k + 1 := ⟨tests - 1, by simp at htests; omega⟩
    simp only [freeCountLoop, if_pos hc.start_eq_nil, List.length_nil, Nat.add_zero]
  | cons a l ih =>
    intro tests slot count hc hread htests hlt
    obtain ⟨tests, rfl⟩ : ∃ k, tests = k + 1 := ⟨tests - 1, by simp at htests; omega⟩
    obtain ⟨rfl, hne, hrest⟩ := Chain.cons_iff.mp hc
    simp only [List.length_cons] at htests hlt
    have hstep : freeCountLoop B (tests + 1) slot count s =
        freeCountLoop B tests (revealNext B s.mem slot) (B.add count 1) s := by
      simp only [freeCountLoop, if_neg hne, hread slot (List.mem_cons_self ..)]
      rfl
    rw [hstep, Build.add_eq (by omega),
      ih hrest (fun b hb => hread b (List.mem_cons_of_mem _ hb)) (by omega) (by omega),
      List.length_cons]
    congr 2
    omega

theorem iterate_chain :
    ∀ {l : List Nat} {tests slot : Nat}, Chain (revealNext B s.mem) 0 slot l →
      (∀ a ∈ l, readNext B s.toWorld a = (revealNext B s.mem a, s.toWorld)) →
      l.length < tests →
      iterate B tests ⟨true, slot⟩ ⟨true, 0⟩ s = some (l, ⟨true, 0⟩, s) := by
  intro l
  induction l with
  | nil =>
    intro tests slot hc _ htests
    obtain ⟨tests, rfl⟩ : ∃ k, tests = k + 1 := ⟨tests - 1, by simp at htests; omega⟩
    rw [hc.start_eq_nil]
    rfl
  | cons a l ih =>
    intro tests slot hc hread htests
    obtain ⟨tests, rfl⟩ : ∃ k, tests = k + 1 := ⟨tests - 1, by simp at htests; omega⟩
    obtain ⟨rfl, hne, hrest⟩ := Chain.cons_iff.mp hc
    have hinc : FreeListIterator.increment B ⟨true, slot⟩ s =
        (⟨true, revealNext B s.mem slot⟩, s) := by
      unfold FreeListIterator.increment memoryPoolDebugFreeListNext poolPointer
      simp only [if_true, if_neg hne, hread slot (List.mem_cons_self ..)]
      rfl
    have heq : FreeListIterator.eq ⟨true, slot⟩ ⟨true, 0⟩ = false := by
      simpa [FreeListIterator.eq] using hne
    have hlen : l.length < tests := by
      simp only [List.length_cons] at htests
      omega
    simp only [iterate, heq, hinc, Bool.false_eq_true, if_false,
      ih hrest (fun b hb => hread b (List.mem_cons_of_mem _ hb)) hlen]
    rfl

end Walks

/-! ## The order of the list -/

namespace Client

/-- The client frees blocks it holds and nothing else. -/
def OwnFrees (c : Client) : Event → Prop
  | .free _ block => block ∈ c.held
  | _ => True

instance (c : Client) (e : Event) : Decidable (OwnFrees c e) :=
  match e with
  | .free _ block => inferInstanceAs (Decidable (block ∈ c.held))
  | .alloc .. => .isTrue trivial
  | .write .. => .isTrue trivial

theorem OwnFrees.tolerated {B : Build} {c : Client} {e : Event} (hf : OwnFrees c e)
    (hw : OwnWrites c e) : Tolerated B c e := by
  cases e with
  | free env block => exact ⟨hw, .inr (.inl hf)⟩
  | alloc env block grown => exact ⟨hw, .inr trivial⟩
  | write addr byte => exact ⟨hw, .inr trivial⟩

def Event.vends (b : Nat) : Event → Bool
  | .alloc _ block _ => block == b
  | _ => false

/-- What an event makes of the list of blocks that wait for reuse. -/
def Event.reuse (e : Event) (freed : List Nat) : List Nat :=
  match e with
  | .alloc _ block _ => freed.erase block
  | .free _ block => block :: freed
  | .write .. => freed

/-- The blocks freed and not vended again since, the latest free first. -/
def freedBlocks (es : List Event) : List Nat := es.foldl (fun freed e => e.reuse freed) []

/-- The slots that were never vended, in address order within each chunk. -/
def neverVended (es : List Event) (slots : List Nat) : List Nat :=
  slots.filter fun a => !es.any fun e => e.vends a

theorem freedBlocks_snoc (es : List Event) (e : Event) :
    freedBlocks (es ++ [e]) = e.reuse (freedBlocks es) := by
  simp [freedBlocks]

theorem neverVended_snoc (es : List Event) (e : Event) (slots : List Nat) :
    neverVended (es ++ [e]) slots = (neverVended es slots).filter fun a => !e.vends a := by
  simp [neverVended, List.filter_filter, Bool.and_comm]

/-- Only a vend takes slots off that list. -/
theorem neverVended_same {es : List Event} {e : Event} (he : ∀ a, e.vends a = false)
    (slots : List Nat) : neverVended (es ++ [e]) slots = neverVended es slots := by
  simp [neverVended_snoc, he]

theorem neverVended_vend {es : List Event} {env : Env} {a : Nat} {grown : Option Chunk}
    {slots : List Nat} (hnd : slots.Nodup) :
    neverVended (es ++ [.alloc env a grown]) slots = (neverVended es slots).erase a := by
  have hnd' : (neverVended es slots).Nodup := hnd.filter _
  rw [neverVended_snoc, hnd'.erase_eq_filter]
  refine List.filter_congr fun b _ => ?_
  show (!(a == b)) = !(b == a)
  rw [BEq.comm]

theorem neverVended_append (es : List Event) (slots slots' : List Nat) :
    neverVended es (slots ++ slots') = neverVended es slots ++ neverVended es slots' :=
  List.filter_append ..

/-- What the trace says about a reachable state: the free list is the blocks freed, then the
slots never used. -/
structure Ordered (B : Build) (es : List Event) (c : Client) (free : List Nat) : Prop where
  order : free = freedBlocks es ++ neverVended es (c.pool.pool.slots B)
  known : ∀ e ∈ es, ∀ a, e.vends a = true → a = 0 ∨ a ∈ c.pool.pool.slots B

section

variable {B : Build} {c c' : Client} {e : Event} {es : List Event}
  {others : List (Nat × Region)} {free : List Nat}

/-- The step that vends the head of the list. -/
theorem Ordered.vend {rest : List Nat} {a tag : Nat} {env : Env} {grown : Option Chunk}
    (I : PoolInv B c.pool others (a :: rest) c.held) (O : Ordered B es c (a :: rest)) :
    Ordered B (es ++ [.alloc env a grown]) ⟨c.pool.vend B a tag, a :: c.held⟩ rest := by
  have hslots : (c.pool.vend B a tag).pool.slots B = c.pool.pool.slots B := rfl
  have hnd : (freedBlocks es ++ neverVended es (c.pool.pool.slots B)).Nodup := by
    rw [← O.order]
    exact (List.nodup_append.mp I.nodup).1
  refine ⟨?_, ?_⟩
  · rw [freedBlocks_snoc, hslots, neverVended_vend I.layout.slots_nodup]
    have herase : rest = (freedBlocks es ++ neverVended es (c.pool.pool.slots B)).erase a := by
      rw [← O.order, List.erase_cons_head]
    rw [herase, List.erase_append]
    split
    · rename_i ha
      rw [List.erase_of_not_mem fun h => (List.nodup_append.mp hnd).2.2 a ha a h rfl]
      rfl
    · rename_i ha
      rw [show Event.reuse (.alloc env a grown) (freedBlocks es) = (freedBlocks es).erase a
        from rfl, List.erase_of_not_mem ha]
  · intro e he b hb
    rw [hslots]
    rcases List.mem_append.mp he with he | he
    · exact O.known e he b hb
    · rw [List.mem_singleton.mp he] at hb
      obtain rfl : a = b := by simpa [Event.vends] using hb
      exact Or.inr (I.free_slot (List.mem_cons_self ..))

/-- The slots of a chunk linked on an empty list are the ones never used; all others have been. -/
theorem Ordered.link {add backing addr : Nat} {heap : Heap}
    (I : PoolInv B c.pool others [] c.held) (O : Ordered B es c [])
    (hg : Grown B c.pool add backing addr heap) :
    Ordered B es ⟨linkChunk B c.pool add backing addr heap, c.held⟩
      (slotsOf (slotStride B c.pool.pool.blockSize) backing add) := by
  have I' := I.link hg
  have hnil := List.append_eq_nil_iff.mp O.order.symm
  have hused : ∀ a ∈ c.pool.pool.slots B, (es.any fun e => e.vends a) = true := by
    intro a ha
    have := List.filter_eq_nil_iff.mp hnil.2 a ha
    simpa using this
  have hfresh : ∀ a ∈ slotsOf (slotStride B c.pool.pool.blockSize) backing add,
      (es.any fun e => e.vends a) = false := by
    intro a ha
    rw [List.any_eq_false]
    intro e he hv
    rcases O.known e he a hv with rfl | hold
    · exact (I'.layout.slot_spec (I'.free_slot ha)).1 rfl
    · have hheld : a ∈ c.held := by simpa using I.slot_iff.mp hold
      exact I'.disjoint ha hheld
  have hkeep : neverVended es (slotsOf (slotStride B c.pool.pool.blockSize) backing add) =
      slotsOf (slotStride B c.pool.pool.blockSize) backing add :=
    List.filter_eq_self.mpr fun a ha => by simp [hfresh a ha]
  refine ⟨?_, fun e he a hv => ?_⟩
  · have hdrop : ∀ l : List Nat, (∀ a ∈ l, a ∈ c.pool.pool.slots B) → neverVended es l = [] := by
      intro l hl
      refine List.filter_eq_nil_iff.mpr fun a ha => ?_
      simp [hused a (hl a ha)]
    rw [hnil.1, List.nil_append]
    simp only [linkChunk, PoolStruct.slots, PoolStruct.chunks, List.map_cons, List.flatMap_cons]
    rw [neverVended_append, neverVended_append, hkeep, hdrop, hdrop]
    · simp
    · intro a ha
      simp only [PoolStruct.slots, PoolStruct.chunks, List.flatMap_cons, List.mem_append]
      exact Or.inr ha
    · intro a ha
      simp only [PoolStruct.slots, PoolStruct.chunks, List.flatMap_cons, List.mem_append]
      exact Or.inl ha
  · rcases O.known e he a hv with h0 | hold
    · exact Or.inl h0
    · right
      exact (linkChunk_slots B c.pool add backing addr heap).mem_iff.mpr
        (List.mem_append_right _ hold)

theorem Ordered.fail {heap : Heap} {env : Env} (I : PoolInv B c.pool others [] c.held)
    (O : Ordered B es c []) :
    Ordered B (es ++ [.alloc env 0 none]) ⟨{ c.pool with heap := heap }, c.held⟩ [] := by
  have hnil := List.append_eq_nil_iff.mp O.order.symm
  refine ⟨?_, fun e he a hv => ?_⟩
  · rw [freedBlocks_snoc, hnil.1]
    show [] = [] ++ neverVended _ (c.pool.pool.slots B)
    rw [neverVended_vend I.layout.slots_nodup, hnil.2]
    rfl
  · rcases List.mem_append.mp he with he | he
    · exact O.known e he a hv
    · rw [List.mem_singleton.mp he] at hv
      obtain rfl : 0 = a := by simpa [Event.vends] using hv
      exact Or.inl rfl

/-- A step that vends nothing and keeps the slots. -/
theorem Ordered.quiet {free' : List Nat} (O : Ordered B es c free)
    (he : ∀ a, e.vends a = false) (hs : c'.pool.pool.slots B = c.pool.pool.slots B)
    (hf : ∀ l, free = freedBlocks es ++ l → free' = e.reuse (freedBlocks es) ++ l) :
    Ordered B (es ++ [e]) c' free' := by
  refine ⟨?_, fun e' he' a hv => ?_⟩
  · rw [freedBlocks_snoc, neverVended_same he, hs]
    exact hf _ O.order
  · rw [hs]
    rcases List.mem_append.mp he' with he' | he'
    · exact O.known e' he' a hv
    · rw [List.mem_singleton.mp he', he a] at hv
      cases hv

theorem Step.order (I : PoolInv B c.pool others free c.held) (O : Ordered B es c free)
    (hstep : Step B c e c') (hw : OwnWrites c e) (hf : OwnFrees c e) :
    ∃ free', PoolInv B c'.pool others free' c'.held ∧ Ordered B (es ++ [e]) c' free' := by
  cases hstep.effect I (hf.tolerated hw) with
  | @vend env a rest tag => exact ⟨rest, I.vend tag, O.vend I⟩
  | fail hsame => exact ⟨[], I.sameHeap hsame, O.fail I⟩
  | @grow env add backing addr heap tag hg _ =>
    have O' := O.link I hg
    have I' := I.link hg
    rw [slotsOf_eq_cons _ _ (growthCount_some hg.count).2.2.1] at O' I'
    exact ⟨_, I.grow hg tag, O'.vend I'⟩
  | takeBack tag hheld =>
    refine ⟨_, I.takeBack hheld tag, O.quiet (fun _ => rfl) rfl fun l hl => ?_⟩
    rw [hl]
    rfl
  | refuse hfree => exact absurd hf (I.disjoint hfree)
  | ignore hslot => exact absurd (I.held_slot hf) hslot
  | write hb hl hu =>
    exact ⟨_, I.write hb hl hu, O.quiet (fun _ => rfl) rfl fun l hl => hl⟩

theorem run_order {p : PoolStruct} {w : World} (C : PoolInv B ⟨w, p⟩ others
      (slotsOf (slotStride B p.blockSize) p.backing p.blockCount) []) (hover : p.overflow = [])
    (hrun : ((lts B).guard fun c e => OwnWrites c e ∧ OwnFrees c e).Run ⟨⟨w, p⟩, []⟩ es c) :
    ∃ free, PoolInv B c.pool others free c.held ∧ Ordered B es c free := by
  induction hrun with
  | nil =>
    refine ⟨_, C, ?_, fun e he => by cases he⟩
    simp [freedBlocks, neverVended, PoolStruct.slots, PoolStruct.chunks, hover]
  | snoc _ hs ih =>
    obtain ⟨free, I, O⟩ := ih
    exact Step.order I O hs.2 hs.1.1 hs.1.2

end

end Client

/-- Fixed or dynamic, default or hardened, after any run of a client that writes into and frees
the blocks it holds: both walks end, within as many loop tests as there are slots and one, and
leave the pool as it is. They meet the same slots, each once, as many as there are blocks not
vended; these are the blocks that so many allocations return, in that order; and they are the
blocks freed, the latest free first, followed by the slots never used. -/
theorem diagnostic_walks {B : Build} {env : Env} {w w' : World} {call : CreateCall}
    {p : PoolStruct} (hr : call.InRange B) (hcreate : call.run B env w = (some p, w'))
    {es : List Client.Event} {c : Client}
    (hrun : ((Client.lts B).guard fun c e => Client.OwnWrites c e ∧ Client.OwnFrees c e).Run
      ⟨⟨w', p⟩, []⟩ es c) :
    ∃ visited : List Nat,
      visited.length + c.held.length = c.pool.pool.capacity ∧
      (∀ tests, c.pool.pool.capacity < tests →
        memoryPoolDebugFreeCount B tests (some c.pool) = some (visited.length, some c.pool)) ∧
      (∀ tests, c.pool.pool.capacity < tests →
        iterate B tests (FreeListView.begin ⟨true⟩ c.pool) (FreeListView.endIterator ⟨true⟩)
          c.pool = some (visited, FreeListView.endIterator ⟨true⟩, c.pool)) ∧
      visited.Nodup ∧ (∀ a ∈ visited, a ∈ c.pool.pool.slots B) ∧
      (∀ envs : List Env, envs.length = visited.length →
        drain B envs (some c.pool) = visited) ∧
      visited = Client.freedBlocks es ++ Client.neverVended es (c.pool.pool.slots B) := by
  have C := CreateCall.created hr hcreate
  obtain ⟨free, I, O⟩ := Client.run_order C.inv C.overflow hrun
  have hlen := I.free_length
  have hlt := I.layout.slots_length
  rw [PoolStruct.length_slots] at hlt
  refine ⟨free, hlen, ?_, ?_, I.chain.nodup, fun a ha => I.free_slot ha,
    fun envs henvs => drain_eq I henvs, O.order⟩
  · intro tests htests
    unfold memoryPoolDebugFreeCount
    simp only
    rw [freeCountLoop_chain I.chain (fun a ha => I.readNext_free ha) (by omega) (by omega)]
    simp
  · intro tests htests
    exact iterate_chain I.chain (fun a ha => I.readNext_free ha) (by omega)

/-- Three slots: two are vended, the first comes back, and the walk meets it before the one never
used. -/
theorem diagnostic_walks_x64 :
    ∃ c : Client,
      ((Client.lts (Build.x64 true .none)).guard
        fun c e => Client.OwnWrites c e ∧ Client.OwnFrees c e).Run
        ⟨⟨((CreateCall.fixed 16 3).run (Build.x64 true .none) firstEnv World.start).2,
          ⟨0x100, 0x1000, ⟨0x1000, 0⟩, 16, 3, 16, [], 0, 0, false⟩⟩, []⟩
        [.alloc firstEnv 0x1000 none, .alloc firstEnv 0x1020 none, .write 0x1008 7,
          .free firstEnv 0x1000] c ∧
      memoryPoolDebugFreeCount (Build.x64 true .none) 4 (some c.pool) = some (2, some c.pool) ∧
      iterate (Build.x64 true .none) 4 (FreeListView.begin ⟨true⟩ c.pool)
        (FreeListView.endIterator ⟨true⟩) c.pool =
        some ([0x1000, 0x1040], FreeListView.endIterator ⟨true⟩, c.pool) := by
  have hscript : (Lts.script (Client.execIf (Build.x64 true .none)
        (fun c e => Client.OwnWrites c e ∧ Client.OwnFrees c e) fun _ e _ => e)
        ⟨⟨((CreateCall.fixed 16 3).run (Build.x64 true .none) firstEnv World.start).2,
          ⟨0x100, 0x1000, ⟨0x1000, 0⟩, 16, 3, 16, [], 0, 0, false⟩⟩, []⟩
        [.alloc firstEnv, .alloc firstEnv, .write 0x1008 7, .free firstEnv 0x1000]).map
          (fun r => (r.1, r.2.pool.pool.slots (Build.x64 true .none), r.2.pool.pool.capacity)) =
      some ([.alloc firstEnv 0x1000 none, .alloc firstEnv 0x1020 none, .write 0x1008 7,
        .free firstEnv 0x1000], [0x1000, 0x1020, 0x1040], 3) := by decide +kernel
  obtain ⟨c, hrun, hc⟩ := Lts.script_run Client.execIf_step
    (fun c => (c.pool.pool.slots (Build.x64 true .none), c.pool.pool.capacity)) hscript
  obtain ⟨hslots, hcap⟩ := Prod.mk.inj hc
  have hrun := Client.observed_run hrun
  obtain ⟨visited, -, h1, h2, -, -, -, hv⟩ :=
    diagnostic_walks (show (CreateCall.fixed 16 3).InRange (Build.x64 true .none) by decide)
      (Prod.ext (by decide) rfl) hrun
  rw [hslots] at hv
  obtain rfl : visited = [0x1000, 0x1040] := hv.trans (by decide)
  rw [hcap] at h1 h2
  exact ⟨c, hrun, h1 4 (by decide), h2 4 (by decide)⟩

end MemoryPool
