import MemoryPool.HeapBalance
import MemoryPool.Lib.Trail

/-!
# MemoryPool.Corruption

What the operation that detects a violation does to the free list, when the handler returns. The
slots may have been overwritten in any way, so nothing is assumed of the links; the chain from
`head_` is the trail that they make up to null, through slots or not.

* `popHead_taken`, `pushHead_hardened`: the two operations on arbitrary memory.
* `reports_not_worse_when`: in any reachable state, when a reported call leaves `head_` null or at a
  slot and links no slot twice.
* `reports_make_worse`: an overwritten link becomes `head_`; a slot whose guard was overwritten is
  linked twice.
-/

namespace MemoryPool

open ByteMem LinkedList

theorem revealNext_lt {B : Build} {m : Mem} {a : Nat} (ha : a < B.modulus) :
    revealNext B m a < B.modulus := by
  unfold revealNext
  split
  · exact xorLink_lt ha (read_lt m B.ptrBytes a)
  · exact read_lt m B.ptrBytes a

/-! ## The operations on arbitrary memory -/

section Operations

variable {B : Build} {s : State}

/-- A pop of a non-null head, whatever it points to: the head's link becomes the head, and a guard
word is stamped. -/
theorem popHead_taken (hh : B.hardening = true) (h0 : s.pool.head.ptr ≠ 0) (env : Env) :
    (popHead B env s).2.mem =
        writeGuard s.mem s.pool.head.ptr s.pool.blockSize guardAllocated ∧
      (popHead B env s).2.pool.head.ptr = revealNext B s.mem s.pool.head.ptr := by
  have hhook : ∀ (t : State) (a : Nat), (t.onAllocHook B a).mem =
      writeGuard t.mem a t.pool.blockSize guardAllocated := by
    intro t a
    unfold State.onAllocHook
    rw [if_pos hh]
    exact onAlloc_mem B t.toWorld a t.pool.blockSize
  have hun : (popUnlocked B env s).2.mem =
        writeGuard s.mem s.pool.head.ptr s.pool.blockSize guardAllocated ∧
      (popUnlocked B env s).2.pool.head.ptr = revealNext B s.mem s.pool.head.ptr := by
    have hread := readNext_mem B s.toWorld s.pool.head.ptr
    have hfst := readNext_fst B s.toWorld s.pool.head.ptr
    unfold popUnlocked
    rw [if_neg h0]
    simp only [Bool.not_true]
    generalize readNext B s.toWorld s.pool.head.ptr = r at hread hfst
    refine ⟨(hhook _ _).trans ?_, ?_⟩
    · show writeGuard r.2.mem _ _ _ = _
      rw [hread]
      rfl
    · show (((s.setWorld r.2).setHead r.1).onAllocHook B s.pool.head.ptr).pool.head.ptr = _
      rw [(onAllocHook_frame B _ _).2, ← hfst]
      rfl
  refine popHead_rule (P := fun r => r.2.mem = writeGuard s.mem s.pool.head.ptr s.pool.blockSize
    guardAllocated ∧ r.2.pool.head.ptr = revealNext B s.mem s.pool.head.ptr) ?_ hun ?_ ?_
  · rintro r ⟨h1, h2⟩
    exact ⟨h1, h2⟩
  · intro hnull
    exact absurd hnull h0
  · intro _ tag
    refine ⟨hhook _ _, ?_⟩
    rw [(onAllocHook_frame B _ _).2]
    rfl

theorem onFreeHook_hardened (hh : B.hardening = true) (a : Nat) :
    s.onFreeHook B a = ((onFree B s.toWorld a s.pool.blockSize).1,
      s.setWorld (onFree B s.toWorld a s.pool.blockSize).2) := by
  unfold State.onFreeHook
  rw [if_pos hh]

/-- `push_head` on arbitrary memory: the slot is stamped and poisoned, and linked unless its guard
was `GUARD_FREED`. -/
theorem pushHead_hardened (hh : B.hardening = true) (env : Env) (a : Nat) :
    (readGuard s.mem a s.pool.blockSize = guardFreed →
      (pushHead B env s a).mem = freedMem B s.mem a s.pool.blockSize ∧
      (pushHead B env s a).pool.head.ptr = s.pool.head.ptr) ∧
    (readGuard s.mem a s.pool.blockSize ≠ guardFreed →
      (pushHead B env s a).mem =
        writeNext B (freedMem B s.mem a s.pool.blockSize) a s.pool.head.ptr ∧
      (pushHead B env s a).pool.head.ptr = a) := by
  have hfst := onFree_fst B s.toWorld a s.pool.blockSize
  have hmem := onFree_mem B s.toWorld a s.pool.blockSize
  have hhook := onFreeHook_hardened hh (s := s) a
  generalize onFree B s.toWorld a s.pool.blockSize = r at hfst hmem hhook
  obtain ⟨enqueue, w⟩ := r
  refine pushHead_rule (P := fun s' =>
    (readGuard s.mem a s.pool.blockSize = guardFreed →
      s'.mem = freedMem B s.mem a s.pool.blockSize ∧ s'.pool.head.ptr = s.pool.head.ptr) ∧
    (readGuard s.mem a s.pool.blockSize ≠ guardFreed →
      s'.mem = writeNext B (freedMem B s.mem a s.pool.blockSize) a s.pool.head.ptr ∧
      s'.pool.head.ptr = a)) ?_ ?_ ?_
  · rintro s' ⟨h1, h2⟩
    exact ⟨h1, h2⟩
  · intro t ht
    cases hhook.symm.trans ht
    have hg : readGuard s.mem a s.pool.blockSize = guardFreed := by simpa using hfst
    exact ⟨fun _ => ⟨hmem, rfl⟩, fun hn => absurd hg hn⟩
  · intro t tag ht
    cases hhook.symm.trans ht
    have hg : readGuard s.mem a s.pool.blockSize ≠ guardFreed := by simpa using hfst
    exact ⟨fun hf => absurd hf hg,
      fun _ => ⟨congrArg (writeNext B · a s.pool.head.ptr) hmem, rfl⟩⟩

end Operations

/-! ## Operations that have nothing to report -/

section Quiet

variable {B : Build} {s : State} {others : List (Nat × Region)}

/-- An empty list is grown by slots in good order, or not at all. -/
theorem popHead_empty (L : Layout B s others) (h0 : s.pool.head.ptr = 0) (env : Env) :
    (popHead B env s).2.reports = s.reports ∧
      (popHead B env s).2.pool.head.ptr < B.modulus := by
  have hres := popUnlocked_empty L h0 env
  have hun : (popUnlocked B env s).2.reports = s.reports ∧
      (popUnlocked B env s).2.pool.head.ptr < B.modulus := by
    generalize popUnlocked B env s = r at hres
    cases hres with
    | fail _ =>
      refine ⟨rfl, ?_⟩
      show s.pool.head.ptr < _
      rw [h0]
      exact B.modulus_pos
    | grow tag hg _ =>
      refine ⟨rfl, revealNext_lt ?_⟩
      have := hg.fits
      omega
  refine popHead_rule
    (P := fun r => r.2.reports = s.reports ∧ r.2.pool.head.ptr < B.modulus) ?_ hun ?_ ?_
  · rintro r ⟨h1, h2⟩
    exact ⟨h1, h2⟩
  · intro _
    refine ⟨rfl, ?_⟩
    rw [h0]
    exact B.modulus_pos
  · intro hne
    exact absurd h0 hne

end Quiet

/-! ## The list -/

/-- The addresses that the links lead to, from `head_` on and up to null, slots or not. -/
def OnList (B : Build) (s : State) (a : Nat) : Prop :=
  Visits (revealNext B s.mem) {a | a ≠ 0} s.pool.head.ptr a

/-- No slot occurs twice on the chain from `head_`. -/
def NoRepeat (B : Build) (s : State) : Prop :=
  Simple (revealNext B s.mem) {a | a ≠ 0} {a | a ∈ s.pool.slots B} s.pool.head.ptr

/-- Whether a value is null or a slot start. -/
def NullOrSlot (B : Build) (s : State) (ptr : Nat) : Prop := ptr = 0 ∨ ptr ∈ s.pool.slots B

/-- The call left `head_` null or at a slot, and linked no slot twice. -/
structure NotWorse (B : Build) (s s' : State) : Prop where
  head : NullOrSlot B s' s'.pool.head.ptr
  chain : NoRepeat B s → NoRepeat B s'

/-! ## What a call that reports is told by the state before it -/

/-- The bytes it writes: of an allocation the guard word behind the head, of a double free the
payload, of any other free that reports the whole slot. -/
def Overwrites (B : Build) (s : State) : Client.Event → Nat → Prop
  | .alloc .., x =>
    s.pool.head.ptr + s.pool.blockSize ≤ x ∧ x < s.pool.head.ptr + s.pool.blockSize + guardBytes
  | .free _ block, x =>
    (readGuard s.mem block s.pool.blockSize = guardFreed ∧
      block + B.ptrBytes ≤ x ∧ x < block + s.pool.blockSize) ∨
    (readGuard s.mem block s.pool.blockSize ≠ guardFreed ∧
      block ≤ x ∧ x < block + s.pool.blockSize + guardBytes)
  | .write .., _ => False

/-- What becomes the head is null or a slot: of an allocation the link of the head, of a double
free, which is dropped, the head as it is. -/
def HeadSound (B : Build) (s : State) : Client.Event → Prop
  | .alloc .. => NullOrSlot B s (revealNext B s.mem s.pool.head.ptr)
  | .free _ block =>
    readGuard s.mem block s.pool.blockSize = guardFreed → NullOrSlot B s s.pool.head.ptr
  | .write .. => True

/-- No link on the list has a byte that the call writes. A free that is not dropped writes the link
of its block, so that block is not on the list. -/
def SparesLinks (B : Build) (s : State) (e : Client.Event) : Prop :=
  ∀ a, OnList B s a → ∀ x, a ≤ x → x < a + B.ptrBytes → ¬ Overwrites B s e x

def Contained (B : Build) (s : State) (e : Client.Event) : Prop :=
  HeadSound B s e ∧ (NoRepeat B s → SparesLinks B s e)

/-- A link on the list, not that of the block that is freed, has a byte that the call writes. -/
def Entangled (B : Build) (s : State) (e : Client.Event) : Prop :=
  ∃ a, OnList B s a ∧ (∀ env, e ≠ .free env a) ∧
    ∃ x, a ≤ x ∧ x < a + B.ptrBytes ∧ Overwrites B s e x

/-- `Contained` is enough for the call to make nothing worse. Its part on the head is necessary,
and all of it is unless the list is entangled with what the call writes, which no list of slots
is. -/
structure ContainedExactly (B : Build) (s s' : State) (e : Client.Event) : Prop where
  enough : Contained B s e → NotWorse B s s'
  head : NotWorse B s s' → HeadSound B s e
  needed : ¬ Entangled B s e → NotWorse B s s' → Contained B s e
  slots : (∀ a, OnList B s a → a ∈ s.pool.slots B) → ¬ Entangled B s e

section Lists

variable {B : Build} {s s' : State} {others : List (Nat × Region)} {e : Client.Event} {a : Nat}

/-- It is enough to follow the list. -/
theorem ContainedExactly.of_list (hhead : NullOrSlot B s' s'.pool.head.ptr ↔ HeadSound B s e)
    (hspared : SparesLinks B s e → NoRepeat B s → NoRepeat B s')
    (hback : ¬ Entangled B s e → NoRepeat B s → NoRepeat B s' → SparesLinks B s e)
    (hslots : (∀ a, OnList B s a → a ∈ s.pool.slots B) → ¬ Entangled B s e) :
    ContainedExactly B s s' e where
  enough := fun ⟨h1, h2⟩ => ⟨hhead.mpr h1, fun hs => hspared (h2 hs) hs⟩
  head := fun h => hhead.mp h.head
  needed := fun he h => ⟨hhead.mp h.head, fun hs => hback he hs (h.chain hs)⟩
  slots := hslots

/-- A slot's link is apart from its own guard word and from every other slot. -/
theorem alloc_not_entangled (hh : B.hardening = true) (L : Layout B s others)
    (hin : ∀ a, OnList B s a → a ∈ s.pool.slots B) (env : Env) (block : Nat)
    (grown : Option Chunk) : ¬ Entangled B s (.alloc env block grown) := by
  rintro ⟨a, ha, -, x, hl, hu, hx⟩
  have hhead := hin s.pool.head.ptr (visits_self ha.start)
  have hptr := L.ptr_le_block
  have hguard := L.stride_guard hh
  unfold Overwrites at hx
  by_cases hne : a = s.pool.head.ptr
  · omega
  · rcases L.slots_apart (hin a ha) hhead hne with h | h <;> omega

theorem free_not_entangled (hh : B.hardening = true) (L : Layout B s others) {block : Nat}
    (hb : block ∈ s.pool.slots B) (hin : ∀ a, OnList B s a → a ∈ s.pool.slots B) (env : Env) :
    ¬ Entangled B s (.free env block) := by
  rintro ⟨a, ha, hfree, x, hl, hu, hx⟩
  have hptr := L.ptr_le_block
  have hguard := L.stride_guard hh
  have hne : a ≠ block := fun h => hfree env (h ▸ rfl)
  have hout : block ≤ x ∧ x < block + s.pool.blockSize + guardBytes := by
    rcases hx with ⟨-, hx⟩ | ⟨-, hx⟩ <;> omega
  rcases L.slots_apart (hin a ha) hb hne with h | h <;> omega

theorem overwrites_dropped {env : Env} {block x : Nat}
    (hg : readGuard s.mem block s.pool.blockSize = guardFreed) :
    Overwrites B s (.free env block) x ↔ block + B.ptrBytes ≤ x ∧ x < block + s.pool.blockSize := by
  simp [Overwrites, hg]

theorem overwrites_pushed {env : Env} {block x : Nat}
    (hg : readGuard s.mem block s.pool.blockSize ≠ guardFreed) :
    Overwrites B s (.free env block) x ↔
      block ≤ x ∧ x < block + s.pool.blockSize + guardBytes := by
  simp [Overwrites, hg]

theorem link_spared {m : Mem} (hm : ∀ x, ¬ Overwrites B s e x → m x = s.mem x)
    (h : ∀ x, a ≤ x → x < a + B.ptrBytes → ¬ Overwrites B s e x) :
    revealNext B m a = revealNext B s.mem a :=
  revealNext_congr fun x hl hu => hm x (h x hl hu)

theorem not_overwritten (he : ¬ Entangled B s e) (ha : OnList B s a)
    (hfree : ∀ env, e ≠ .free env a) :
    ∀ x, a ≤ x → x < a + B.ptrBytes → ¬ Overwrites B s e x :=
  fun x hl hu hx => he ⟨a, ha, hfree, x, hl, hu, hx⟩

theorem alloc_contained (hh : B.hardening = true) (L : Layout B s others)
    (h0 : s.pool.head.ptr ≠ 0) (hshape : s.pool.SameShape s'.pool)
    (hmem : s'.mem = writeGuard s.mem s.pool.head.ptr s.pool.blockSize guardAllocated)
    (hhead : s'.pool.head.ptr = revealNext B s.mem s.pool.head.ptr) (env : Env) (block : Nat)
    (grown : Option Chunk) : ContainedExactly B s s' (.alloc env block grown) := by
  have hslots := hshape.slots B
  refine .of_list ?_ (fun hspare hs => ?_)
    (fun he _ _ a ha => not_overwritten he ha fun env => by simp)
    fun hin => alloc_not_entangled hh L hin env block grown
  · unfold NullOrSlot
    rw [hslots, hhead]
    rfl
  · -- the new list is the rest of the old one
    unfold NoRepeat
    rw [hslots, hhead]
    refine (Simple.congr fun c hc => ?_).mpr ((simple_iff h0).mp hs).2
    refine link_spared (fun x hx => ?_) (hspare c (Visits.of_next h0 hc))
    rw [hmem]
    refine writeGuard_outside ?_
    unfold Overwrites at hx
    omega

theorem doubleFree_contained (hh : B.hardening = true) (L : Layout B s others) {block : Nat}
    (hb : block ∈ s.pool.slots B) (hshape : s.pool.SameShape s'.pool)
    (hg : readGuard s.mem block s.pool.blockSize = guardFreed)
    (hmem : s'.mem = freedMem B s.mem block s.pool.blockSize)
    (hhead : s'.pool.head.ptr = s.pool.head.ptr) (env : Env) :
    ContainedExactly B s s' (.free env block) := by
  have hslots := hshape.slots B
  refine .of_list ?_ (fun hspare hs => ?_) (fun he _ _ a ha => ?_)
    fun hin => free_not_entangled hh L hb hin env
  · unfold NullOrSlot
    rw [hslots, hhead]
    exact ⟨fun h _ => h, fun h => h hg⟩
  · unfold NoRepeat
    rw [hslots, hhead]
    refine (Simple.congr fun c hc => ?_).mpr hs
    refine link_spared (fun x hx => ?_) (hspare c hc)
    rw [hmem]
    refine freedMem_stamped hg ?_
    rw [overwrites_dropped hg] at hx
    omega
  · by_cases hab : a = block
    · intro x hl hu hx
      rw [overwrites_dropped hg] at hx
      omega
    · exact not_overwritten he ha fun env' h => hab (Client.Event.free.inj h).2.symm

theorem pushed_contained (hh : B.hardening = true) (L : Layout B s others)
    (hlt : s.pool.head.ptr < B.modulus) {block : Nat} (hb : block ∈ s.pool.slots B)
    (hshape : s.pool.SameShape s'.pool)
    (hg : readGuard s.mem block s.pool.blockSize ≠ guardFreed)
    (hmem : s'.mem = writeNext B (freedMem B s.mem block s.pool.blockSize) block s.pool.head.ptr)
    (hhead : s'.pool.head.ptr = block) (env : Env) :
    ContainedExactly B s s' (.free env block) := by
  have hslots := hshape.slots B
  have hslot := L.slot_spec hb
  have hblock := L.dims.link
  have hptr := B.ptr_wide
  have hout : ∀ x, ¬ Overwrites B s (.free env block) x → s'.mem x = s.mem x := by
    intro x hx
    rw [overwrites_pushed hg] at hx
    rw [hmem, writeNext_outside (by omega), freedMem_outside hblock (by omega)]
  have hlink : revealNext B s'.mem block = s.pool.head.ptr := by
    rw [hmem]
    exact revealNext_writeNext _ (by omega) hlt
  have hpush : (∀ c, OnList B s c → c ≠ block → revealNext B s'.mem c = revealNext B s.mem c) →
      (NoRepeat B s' ↔ ¬ OnList B s block ∧ NoRepeat B s) := by
    intro hn
    unfold NoRepeat
    rw [hslots, hhead]
    exact simple_push_iff hn hslot.1 hb hlink
  have hown : Overwrites B s (.free env block) block := by
    rw [overwrites_pushed hg]
    omega
  refine .of_list ⟨fun _ hf => absurd hf hg, fun _ => ?_⟩ (fun hspare hs => ?_)
    (fun he _ hs' a ha => ?_) fun hin => free_not_entangled hh L hb hin env
  · unfold NullOrSlot
    rw [hslots, hhead]
    exact Or.inr hb
  · refine (hpush fun c hc _ => link_spared hout (hspare c hc)).mpr ⟨fun hv => ?_, hs⟩
    exact absurd hown (hspare block hv block (le_refl block) (by omega))
  · have hother : ∀ c, OnList B s c → c ≠ block →
        ∀ x, c ≤ x → x < c + B.ptrBytes → ¬ Overwrites B s (.free env block) x :=
      fun c hc hne => not_overwritten he hc fun env' h => hne (Client.Event.free.inj h).2.symm
    refine hother a ha ?_
    rintro rfl
    exact ((hpush fun c hc hne => link_spared hout (hother c hc hne)).mp hs').1 ha

end Lists

/-! ## Every reachable state -/

namespace Client

variable {B : Build} {c c' : Client} {e : Event} {others : List (Nat × Region)}

/-- Writes go to bytes of the pool's slots: a free slot's link, payload or guard, or a held block
and what lies behind it. -/
def SlotWrites (B : Build) (c : Client) : Event → Prop
  | .write addr _ => ∃ a ∈ c.pool.pool.slots B,
      a ≤ addr ∧ addr < a + slotStride B c.pool.pool.blockSize
  | _ => True

instance (c : Client) (e : Event) : Decidable (SlotWrites B c e) :=
  match e with
  | .write addr _ => inferInstanceAs (Decidable (∃ a ∈ c.pool.pool.slots B,
      a ≤ addr ∧ addr < a + slotStride B c.pool.pool.blockSize))
  | .alloc .. => .isTrue trivial
  | .free .. => .isTrue trivial

/-- Whatever was written, `head_` holds a value of a pointer's width. -/
theorem Step.head_lt (hh : B.hardening = true) (L : Layout B c.pool others)
    (hlt : c.pool.pool.head.ptr < B.modulus) (hstep : Step B c e c') :
    c'.pool.pool.head.ptr < B.modulus := by
  cases hstep with
  | @alloc env block s' h =>
    rw [memoryPoolAlloc_some] at h
    by_cases h0 : c.pool.pool.head.ptr = 0
    · have ht := (popHead_empty L h0 env).2
      cases h
      exact ht
    · have ht := (popHead_taken hh h0 env).2
      cases h
      rw [ht]
      exact revealNext_lt hlt
  | @free env block s' h =>
    by_cases hb : block ∈ c.pool.pool.slots B
    · rw [memoryPoolFree_slot L hb] at h
      cases h
      obtain ⟨hdouble, hpush⟩ := pushHead_hardened (s := c.pool) hh env block
      by_cases hg : readGuard c.pool.mem block c.pool.pool.blockSize = guardFreed
      · rw [(hdouble hg).2]
        exact hlt
      · rw [(hpush hg).2]
        have := (L.slot_spec hb).2.2
        omega
    · rw [memoryPoolFree_foreign L hb] at h
      cases h
      exact hlt
  | write => exact hlt

theorem run_head_lt (hh : B.hardening = true) (L : Layout B c.pool others)
    (hlt : c.pool.pool.head.ptr < B.modulus) {es : List Event} (hrun : (lts B).Run c es c') :
    Layout B c'.pool others ∧ c'.pool.pool.head.ptr < B.modulus := by
  refine hrun.invariant (I := fun d => Layout B d.pool others ∧
    d.pool.pool.head.ptr < B.modulus) ?_ ⟨L, hlt⟩
  rintro d e d' ⟨hL, hd⟩ hstep
  exact ⟨(Step.frame hstep).layout hL, Step.head_lt hh hL hd hstep⟩

theorem Step.contained (hh : B.hardening = true) (L : Layout B c.pool others)
    (hlt : c.pool.pool.head.ptr < B.modulus) (hstep : Step B c e c')
    (hrep : c'.pool.reports ≠ c.pool.reports) : ContainedExactly B c.pool c'.pool e := by
  cases hstep with
  | @alloc env block s' h =>
    rw [memoryPoolAlloc_some] at h
    by_cases h0 : c.pool.pool.head.ptr = 0
    · have hq := (popHead_empty L h0 env).1
      cases h
      exact absurd hq hrep
    · obtain ⟨hmem, hhead⟩ := popHead_taken hh h0 env
      have hf := popHead_frame B env c.pool
      generalize popHead B env c.pool = r at h hf hmem hhead
      cases h
      cases hf with
      | vend _ hshape _ => exact alloc_contained hh L h0 hshape hmem hhead env _ _
      | fail h _ _ => exact absurd h h0
      | grew _ h _ _ _ => exact absurd h h0
  | @free env block s' h =>
    by_cases hb : block ∈ c.pool.pool.slots B
    · rw [memoryPoolFree_slot L hb] at h
      have hshape := (pushHead_frame B env c.pool block).2
      obtain ⟨hdouble, hpush⟩ := pushHead_hardened (s := c.pool) hh env block
      cases h
      by_cases hg : readGuard c.pool.mem block c.pool.pool.blockSize = guardFreed
      · obtain ⟨hmem, hhead⟩ := hdouble hg
        exact doubleFree_contained hh L hb hshape hg hmem hhead env
      · obtain ⟨hmem, hhead⟩ := hpush hg
        exact pushed_contained hh L hlt hb hshape hg hmem hhead env
    · rw [memoryPoolFree_foreign L hb] at h
      cases h
      exact absurd rfl hrep
  | write => exact absurd rfl hrep

end Client

/-- Hardened build, any policy, any run from creation, whatever is freed and whatever bytes are
written: a call that reports a violation leaves `head_` null or at a slot and links no slot twice,
if the state it found was one the operation contains, and only then where the list consists of
slots. -/
theorem reports_not_worse_when {B : Build} (hh : B.hardening = true) {env : Env} {w w' : World}
    {call : CreateCall} {p : PoolStruct} (hr : call.InRange B)
    (hcreate : call.run B env w = (some p, w')) {es : List Client.Event} {c : Client}
    (hrun : (Client.lts B).Run ⟨⟨w', p⟩, []⟩ es c) {e : Client.Event} {c' : Client}
    (hstep : (Client.lts B).step c e c') (hrep : c'.pool.reports ≠ c.pool.reports) :
    ContainedExactly B c.pool c'.pool e := by
  have C := CreateCall.created hr hcreate
  obtain ⟨L, hlt⟩ := Client.run_head_lt hh C.inv.layout C.inv.head_lt hrun
  exact Client.Step.contained hh L hlt hstep hrep

/-- The second free of a block that is on the list, guard intact and payload overwritten, is
reported, dropped and contained. -/
theorem reports_not_worse_when_x64 :
    ∃ c e c', Client.Step (Build.x64 true .none) c e c' ∧
      c'.pool.reports ≠ c.pool.reports ∧ NotWorse (Build.x64 true .none) c.pool c'.pool := by
  obtain ⟨es, c, e, c', hrun, hstep, hx⟩ := Client.script_step (Build.x64 true .none)
    (Client.SlotWrites (Build.x64 true .none)) (firstClient (Build.x64 true .none))
    [.alloc firstEnv, .write 0x1008 7, .free firstEnv 0x1000] (.free firstEnv 0x1000)
    (fun c e c' => (decide (c'.pool.reports ≠ c.pool.reports ∧ e = .free firstEnv 0x1000),
      (c.pool.pool.head.ptr, revealNext (Build.x64 true .none) c.pool.mem 0x1000),
      c.pool.pool.slots (Build.x64 true .none), readGuard c.pool.mem 0x1000 c.pool.pool.blockSize))
    (true, (0x1000, 0), [0x1000], guardFreed) (by decide +kernel)
  simp only [Prod.mk.injEq] at hx
  obtain ⟨hcall, ⟨hhead, hlink⟩, hslots, hguard⟩ := hx
  obtain ⟨hrep, rfl⟩ := of_decide_eq_true hcall
  refine ⟨c, _, c', hstep, hrep, (reports_not_worse_when rfl (by decide)
    (firstCall_run true .none (by decide)) hrun.of_guard hstep hrep).enough ⟨?_, ?_⟩⟩
  · intro _
    unfold NullOrSlot
    rw [hhead, hslots]
    decide
  · intro _ a ha x hl hu hx
    unfold OnList at ha
    rw [hhead] at ha
    rw [overwrites_dropped hguard] at hx
    rcases ha.eq_or_next with rfl | hnull
    · omega
    · rw [hlink] at hnull
      exact hnull.start rfl

/-- A freed block's link is overwritten with a zero byte: the next allocation reports it and leaves
`head_ = 1`. A freed block's guard is overwritten: its second free is reported and links the block
to itself. -/
theorem reports_make_worse :
    (∃ es c e c', ((Client.lts (Build.x64 true .none)).guard
        (Client.SlotWrites (Build.x64 true .none))).Run (firstClient (Build.x64 true .none)) es c ∧
      Client.Step (Build.x64 true .none) c e c' ∧ c'.pool.reports ≠ c.pool.reports ∧
      ¬ NullOrSlot (Build.x64 true .none) c'.pool c'.pool.pool.head.ptr) ∧
    ∃ es c e c', ((Client.lts (Build.x64 true .none)).guard
        (Client.SlotWrites (Build.x64 true .none))).Run (firstClient (Build.x64 true .none)) es c ∧
      Client.Step (Build.x64 true .none) c e c' ∧ c'.pool.reports ≠ c.pool.reports ∧
      NoRepeat (Build.x64 true .none) c.pool ∧ ¬ NoRepeat (Build.x64 true .none) c'.pool := by
  constructor
  · obtain ⟨es, c, e, c', hrun, hstep, hx⟩ := Client.script_step (Build.x64 true .none)
      (Client.SlotWrites (Build.x64 true .none)) (firstClient (Build.x64 true .none))
      [.alloc firstEnv, .free firstEnv 0x1000, .write 0x1000 0] (.alloc firstEnv)
      (fun c _ c' => (decide (c'.pool.reports ≠ c.pool.reports), c'.pool.pool.head.ptr,
        c'.pool.pool.slots (Build.x64 true .none))) (true, 1, [0x1000]) (by decide +kernel)
    simp only [Prod.mk.injEq] at hx
    obtain ⟨hrep, hhead, hslots⟩ := hx
    refine ⟨es, c, e, c', hrun, hstep, of_decide_eq_true hrep, ?_⟩
    unfold NullOrSlot
    rw [hhead, hslots]
    decide
  · obtain ⟨es, c, e, c', hrun, hstep, hx⟩ := Client.script_step (Build.x64 true .none)
      (Client.SlotWrites (Build.x64 true .none)) (firstClient (Build.x64 true .none))
      [.alloc firstEnv, .free firstEnv 0x1000, .write 0x1010 0] (.free firstEnv 0x1000)
      (fun c _ c' => (decide (c'.pool.reports ≠ c.pool.reports),
        (c.pool.pool.head.ptr, revealNext (Build.x64 true .none) c.pool.mem 0x1000,
          c.pool.pool.slots (Build.x64 true .none)),
        (c'.pool.pool.head.ptr, revealNext (Build.x64 true .none) c'.pool.mem 0x1000,
          c'.pool.pool.slots (Build.x64 true .none))))
      (true, (0x1000, 0, [0x1000]), (0x1000, 0x1000, [0x1000])) (by decide +kernel)
    simp only [Prod.mk.injEq] at hx
    obtain ⟨hrep, ⟨h1, h2, h3⟩, h4, h5, h6⟩ := hx
    refine ⟨es, c, e, c', hrun, hstep, of_decide_eq_true hrep, ?_, ?_⟩
    · unfold NoRepeat
      rw [h1, simple_iff (by simp), h2]
      exact ⟨fun _ hv => hv.start rfl, simple_of_not_mem fun h => h rfl⟩
    · unfold NoRepeat
      rw [h4, simple_iff (by simp), h5, h6]
      exact fun h => h.1 (List.mem_singleton_self _) (visits_self (by simp))

end MemoryPool
