import MemoryPool.Client

/-!
# MemoryPool.ClientMemory

What a client has in its blocks stays there. Every write of a pool operation (the link of a pushed
block, the initialisation of a chunk, poison and guard stamps) lies in the slot the operation is
about or in a chunk that was not there before, and these are apart from every other vended block.

* `Client.Step.held_same`: one step, one vended block.
* `Client.Step.live_kept`: no step releases a region.
* `client_memory_kept`: every reachable state, and every stretch of a run that spares a block.
-/

namespace MemoryPool

open ByteMem

/-- A region that is outstanding holds the whole block. -/
def BackedBy (s : State) (e : Nat × Region) (block : Nat) : Prop :=
  e ∈ s.heap.ledger.live ∧ e.2.kind = .backing ∧ e.2.base ≤ block ∧
    block + s.pool.blockSize ≤ e.2.base + e.2.bytes

theorem Layout.backed {B : Build} {s : State} {others : List (Nat × Region)}
    (L : Layout B s others) {block : Nat} (h : block ∈ s.pool.slots B) :
    ∃ e, BackedBy s e block := by
  obtain ⟨c, hc, hbc⟩ := Layout.mem_slots.mp h
  have hin := slotsOf_inside hbc
  have hle := L.stride_ge
  obtain ⟨own, hlive, hown⟩ := L.owned
  obtain ⟨e, he, her⟩ := List.mem_map.mp (hown.mem_iff.mpr (Layout.chunk_region hc))
  refine ⟨e, hlive.mem_iff.mpr (List.mem_append_left _ he), ?_⟩
  rw [her]
  exact ⟨rfl, hin.1, by simp only []; omega⟩

theorem Frame.live_kept {B : Build} {s s' : State} (h : Frame B s s') {e : Nat × Region}
    (he : e ∈ s.heap.ledger.live) : e ∈ s'.heap.ledger.live := by
  cases h with
  | same _ hl =>
    rw [hl.1]
    exact he
  | grew hg hheap _ =>
    rw [hheap, hg.live]
    exact List.mem_cons_of_mem _ (List.mem_cons_of_mem _ he)

namespace Client

def Event.IsCall : Event → Prop
  | .alloc .. | .free .. => True
  | .write .. => False

/-- The event neither gives the block away nor writes into it. -/
def Spares (block blockSize : Nat) : Event → Prop
  | .alloc .. => True
  | .free _ b => b ≠ block
  | .write addr _ => addr < block ∨ block + blockSize ≤ addr

instance (block blockSize : Nat) (e : Event) : Decidable (Spares block blockSize e) :=
  match e with
  | .alloc .. => .isTrue trivial
  | .free _ b => inferInstanceAs (Decidable (b ≠ block))
  | .write addr _ => inferInstanceAs (Decidable (addr < block ∨ block + blockSize ≤ addr))

section

variable {B : Build} {c c' : Client} {e : Event} {others : List (Nat × Region)} {free : List Nat}

theorem Step.live_kept (hstep : Step B c e c') {r : Nat × Region}
    (hr : r ∈ c.pool.heap.ledger.live) : r ∈ c'.pool.heap.ledger.live :=
  hstep.frame.live_kept hr

theorem Step.alloc_held {env : Env} {block : Nat} {grown : Option Chunk}
    (hstep : Step B c (.alloc env block grown) c') (h0 : block ≠ 0) : block ∈ c'.held := by
  generalize he : Event.alloc env block grown = e at hstep
  cases hstep with
  | @alloc env₁ block₁ s' _ =>
    obtain rfl : block = block₁ := by cases he; rfl
    show block ∈ if block = 0 then c.held else block :: c.held
    rw [if_neg h0]
    exact List.mem_cons_self ..
  | free _ => cases he
  | write => cases he

theorem Step.held_kept (hstep : Step B c e c') {b : Nat} (hb : b ∈ c.held)
    (hs : ∀ env, e ≠ .free env b) : b ∈ c'.held := by
  cases hstep with
  | @alloc env block s' _ =>
    show b ∈ if block = 0 then c.held else block :: c.held
    split
    · exact hb
    · exact List.mem_cons_of_mem _ hb
  | @free env block s' _ =>
    have hne : b ≠ block := by
      rintro rfl
      exact hs env rfl
    exact (List.mem_erase_of_ne hne).mpr hb
  | write => exact hb

/-- A call after which the block is still vended did not give it away. -/
theorem Step.spares (I : PoolInv B c.pool others free c.held) (hstep : Step B c e c')
    (hcall : e.IsCall) {b : Nat} (hb' : b ∈ c'.held) : Spares b c.pool.pool.blockSize e := by
  cases hstep with
  | alloc _ => trivial
  | @free env block s' _ =>
    rintro rfl
    exact List.Nodup.not_mem_erase (List.nodup_append.mp I.nodup).2.1 hb'
  | write => exact hcall.elim

theorem vend_same {s : State} {a b : Nat} {free held : List Nat}
    (I : PoolInv B s others (a :: free) held) (hb : b ∈ held) (tag : Nat) :
    SameOn s.mem (s.vend B a tag).mem b s.pool.blockSize := by
  have d := I.layout.dims
  have hne : b ≠ a := by
    rintro rfl
    exact I.disjoint (List.mem_cons_self ..) hb
  refine (I.other_slot (I.free_slot (List.mem_cons_self ..)) (I.held_slot hb) hne
    fun x hx => ?_).mono (le_refl _) (by have := d.block; omega)
  exact vendedMem_outside d (by have := d.block; omega)

theorem Step.held_same (I : PoolInv B c.pool others free c.held) (hstep : Step B c e c')
    (hok : Tolerated B c e) {b : Nat} (hb : b ∈ c.held)
    (hs : Spares b c.pool.pool.blockSize e) :
    SameOn c.pool.mem c'.pool.mem b c.pool.pool.blockSize := by
  have d := I.layout.dims
  have hblock := d.block
  cases hstep.effect I hok with
  | vend tag => exact vend_same I hb tag
  | fail _ => exact .refl _ _ _
  | @grow env add backing addr heap tag hg _ =>
    have I' := I.link hg
    rw [slotsOf_eq_cons _ _ (growthCount_some hg.count).2.2.1] at I'
    have hlink := I.link_same hg hb
    have hvend := vend_same I' hb tag
    intro x hl hu
    rw [hvend x hl hu, hlink x hl (by omega)]
  | takeBack tag hheld =>
    exact (I.other_slot (I.held_slot hheld) (I.held_slot hb) (Ne.symm hs) fun x hx =>
      takenMem_outside d hx).mono (le_refl _) (by omega)
  | refuse _ => exact .refl _ _ _
  | ignore _ => exact .refl _ _ _
  | @write _ addr b' byte _ _ _ =>
    intro x hl hu
    simp only [Spares] at hs
    exact set_other (by omega)

theorem run_inv (I : PoolInv B c.pool others free c.held) {es : List Event}
    (hrun : ((lts B).guard (Tolerated B)).Run c es c') :
    ∃ free', PoolInv B c'.pool others free' c'.held ∧
      c'.pool.pool.blockSize = c.pool.pool.blockSize := by
  refine hrun.invariant (I := fun d => ∃ free', PoolInv B d.pool others free' d.held ∧
    d.pool.pool.blockSize = c.pool.pool.blockSize) ?_ ⟨free, I, rfl⟩
  rintro d e d' ⟨free₁, I₁, hbs⟩ ⟨hok, hstep⟩
  obtain ⟨-, free₂, I₂, -, -, -, -⟩ := refines I₁ hstep hok
  exact ⟨free₂, I₂, (Step.frame hstep).blockSize.trans hbs⟩

/-- The step lemma carried through a run: a block that no step gives away or writes into stays
vended, in the region it was in, with the bytes it had. -/
theorem run_kept (I : PoolInv B c.pool others free c.held) {b : Nat} (hb : b ∈ c.held)
    {es : List Event} (hrun : ((lts B).guard (Tolerated B)).Run c es c')
    (hs : ∀ e ∈ es, Spares b c.pool.pool.blockSize e) :
    b ∈ c'.held ∧ SameOn c.pool.mem c'.pool.mem b c.pool.pool.blockSize ∧
      ∀ r, BackedBy c.pool r b → BackedBy c'.pool r b := by
  induction hrun with
  | nil => exact ⟨hb, .refl _ _ _, fun r hr => hr⟩
  | @snoc c₁ c₂ es e hrun₁ hstep ih =>
    obtain ⟨hb₁, hsame, hback⟩ := ih fun e he => hs e (by simp [he])
    obtain ⟨free₁, I₁, hbs⟩ := run_inv I hrun₁
    have hse := hs e (by simp)
    rw [← hbs] at hse
    have hlast := hstep.2.held_same I₁ hstep.1 hb₁ hse
    refine ⟨hstep.2.held_kept hb₁ ?_, ?_, ?_⟩
    · rintro env rfl
      exact hse rfl
    · intro x hl hu
      rw [hlast x hl (by omega), hsame x hl hu]
    · intro r hr
      obtain ⟨h1, h2, h3, h4⟩ := hback r hr
      refine ⟨hstep.2.live_kept h1, h2, h3, ?_⟩
      rw [(Step.frame hstep.2).blockSize]
      exact h4

end

end Client

section Theorems

variable {B : Build} {env : Env} {w w' : World} {call : CreateCall} {p : PoolStruct}
  {es : List Client.Event} {c : Client}

/-- Any build, fixed or dynamic. In every reachable state every vended block lies in an
outstanding region; a call leaves the bytes of every block that is vended before and after it, and
the region, as they are; and so does any stretch of a run that spares the block. -/
theorem client_memory_kept (hr : call.InRange B) (hcreate : call.run B env w = (some p, w'))
    (hrun : ((Client.lts B).guard (Client.Tolerated B)).Run ⟨⟨w', p⟩, []⟩ es c) :
    (∀ b ∈ c.held, ∃ r, BackedBy c.pool r b) ∧
    (∀ e c', Client.Tolerated B c e → (Client.lts B).step c e c' → e.IsCall →
      ∀ b ∈ c.held, b ∈ c'.held →
        SameOn c.pool.mem c'.pool.mem b p.blockSize ∧
        ∀ r, BackedBy c.pool r b → BackedBy c'.pool r b) ∧
    ∀ es' c', ((Client.lts B).guard (Client.Tolerated B)).Run c es' c' →
      ∀ b ∈ c.held, (∀ e ∈ es', Client.Spares b p.blockSize e) →
        b ∈ c'.held ∧ SameOn c.pool.mem c'.pool.mem b p.blockSize ∧
        ∀ r, BackedBy c.pool r b → BackedBy c'.pool r b := by
  have C := CreateCall.created hr hcreate
  obtain ⟨free, I, hbs⟩ := Client.run_inv C.inv hrun
  rw [← hbs]
  refine ⟨fun b hb => I.layout.backed (I.held_slot hb), ?_, ?_⟩
  · intro e c' hok hstep hcall b hb hb'
    have hs := Client.Step.spares I hstep hcall hb'
    refine (Client.run_kept I hb (.single ⟨hok, hstep⟩) ?_).2
    intro e' he'
    rw [List.mem_singleton.mp he']
    exact hs
  · intro es' c' hrun' b hb hs
    exact Client.run_kept I hb hrun' hs

/-- A byte written into the first block is still there after a growth, a free and a double free. -/
theorem client_memory_kept_x64 :
    ∃ c c' : Client,
      ((Client.lts (Build.x64 true .none)).guard (Client.Tolerated (Build.x64 true .none))).Run
        (firstClient (Build.x64 true .none)) [.alloc firstEnv 0x1000 none, .write 0x1008 7] c ∧
      ((Client.lts (Build.x64 true .none)).guard (Client.Tolerated (Build.x64 true .none))).Run c
        [.alloc secondEnv 0x2000 (some ⟨0x200, 0x2000, 1⟩), .free firstEnv 0x2000,
          .free firstEnv 0x2000] c' ∧
      0x1000 ∈ c'.held ∧ c'.pool.mem 0x1008 = c.pool.mem 0x1008 := by
  obtain ⟨c', hrun⟩ := Client.script_run (Build.x64 true .none) Client.OwnWrites
    (firstClient (Build.x64 true .none))
    [.alloc firstEnv, .write 0x1008 7, .alloc secondEnv, .free firstEnv 0x2000,
      .free firstEnv 0x2000]
    ([.alloc firstEnv 0x1000 none, .write 0x1008 7] ++
      [.alloc secondEnv 0x2000 (some ⟨0x200, 0x2000, 1⟩), .free firstEnv 0x2000,
        .free firstEnv 0x2000]) (by decide +kernel)
  have hrun : Lts.Run ((Client.lts _).guard (Client.Tolerated (Build.x64 true .none))) _ _ _ :=
    hrun.mono fun _ _ h => ⟨h, Or.inl rfl⟩
  obtain ⟨c, h1, h2⟩ := hrun.append_inv
  obtain ⟨c₁, h0, hw⟩ := Lts.Run.snoc_inv
    (show Lts.Run _ _ ([Client.Event.alloc firstEnv 0x1000 none] ++ [.write 0x1008 7]) c from h1)
  obtain ⟨c₀, -, ha⟩ := Lts.Run.snoc_inv
    (show Lts.Run _ _ ([] ++ [Client.Event.alloc firstEnv 0x1000 none]) c₁ from h0)
  have hheld : 0x1000 ∈ c.held :=
    hw.2.held_kept (ha.2.alloc_held (by decide)) (by simp)
  obtain ⟨-, -, h3⟩ := client_memory_kept (by decide) (firstCall_run true .none (by decide)) h1
  obtain ⟨h4, h5, -⟩ := h3 _ _ h2 0x1000 hheld (by decide)
  exact ⟨c, c', h1, h2, h4, h5 _ (by decide) (by decide)⟩

end Theorems

end MemoryPool
