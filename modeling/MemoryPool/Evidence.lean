import MemoryPool.Corruption

/-!
# MemoryPool.Evidence

What a hardened pool can still tell, however late it is asked. A misuse leaves a mark in its slot:
a guard word that is not `GUARD_ALLOCATED`, a payload that is not all poison. The detecting call
reads the mark later, after any number of other operations.

* `SlotStep`: everything one step can do to the bytes of one slot, also when links were
  overwritten and `head_` leads anywhere.
* `Client.Step.slotStep`: no step does anything else.
* `run_marked`: a mark that one step keeps, a run keeps.
* `evidence_kept`: the three kinds of evidence.
* `poison_restored`: the free that wipes out a mark.
-/

namespace MemoryPool

open ByteMem LinkedList

section Operations

variable {B : Build} {s : State} {others : List (Nat × Region)}

/-- With `head_` null an allocation writes to a fresh chunk or nowhere. -/
theorem popHead_null_same (L : Layout B s others) (h0 : s.pool.head.ptr = 0) (env : Env) {a : Nat}
    (ha : a ∈ s.pool.slots B) :
    SameOn s.mem (popHead B env s).2.mem a (slotStride B s.pool.blockSize) ∧
      (popHead B env s).1 ≠ a := by
  have hne := (L.slot_spec ha).1
  have hun : SameOn s.mem (popUnlocked B env s).2.mem a (slotStride B s.pool.blockSize) ∧
      (popUnlocked B env s).1 ≠ a := by
    have hres := popUnlocked_empty L h0 env
    generalize popUnlocked B env s = r at hres
    cases hres with
    | fail _ => exact ⟨.refl _ _ _, Ne.symm hne⟩
    | @grow add backing addr heap tag hg _ =>
      have hpos := (growthCount_some hg.count).2.2.1
      have L' := L.grow hg
      have hfirst : backing ∈ slotsOf (slotStride B s.pool.blockSize) backing add :=
        mem_slotsOf.mpr ⟨0, hpos, by omega⟩
      have hslots := linkChunk_slots B s add backing addr heap
      have hnd := hslots.nodup_iff.mp L'.slots_nodup
      have hab : backing ≠ a := (List.nodup_append.mp hnd).2.2 backing hfirst a ha
      have hslot := hslots.mem_iff.mpr (List.mem_append_left _ hfirst)
      have haslot := hslots.mem_iff.mpr (List.mem_append_right _ ha)
      refine ⟨?_, hab⟩
      have hlink := L.link_same hg ha
      have hvend : SameOn (linkChunk B s add backing addr heap).mem
          ((linkChunk B s add backing addr heap).vend B backing tag).mem a
          (slotStride B s.pool.blockSize) := by
        have d := L.dims
        refine sameOn_of_outside (a := backing) (fun x hx => ?_) (L'.slots_apart hslot haslot hab)
        exact vendedMem_outside d (by have := d.block; omega)
      intro x hl hu
      rw [hvend x hl hu, hlink x hl hu]
  refine popHead_rule (P := fun r =>
    SameOn s.mem r.2.mem a (slotStride B s.pool.blockSize) ∧ r.1 ≠ a) ?_ hun ?_ ?_
  · rintro r ⟨h1, h2⟩
    exact ⟨h1, h2⟩
  · intro _
    exact ⟨.refl _ _ _, Ne.symm hne⟩
  · intro hhead
    exact absurd h0 hhead

/-! ## What is reported -/

theorem onFree_reports (B : Build) (w : World) (slot blockSize : Nat) :
    (onFree B w slot blockSize).2.reports = w.reports ++
      (if readGuard w.mem slot blockSize = guardFreed then [⟨.doubleFree, slot⟩]
        else if readGuard w.mem slot blockSize ≠ guardAllocated then [⟨.overflow, slot⟩]
        else []) := by
  unfold onFree
  generalize readGuard w.mem slot blockSize = guard
  by_cases h1 : guard = guardFreed
  · simp only [if_pos h1]
    rfl
  · by_cases h2 : guard = guardAllocated
    · simp only [if_neg h1, if_neg (not_not.mpr h2), List.append_nil]
    · simp only [if_neg h1, if_pos h2]
      rfl

theorem pushHead_reports (hh : B.hardening = true) (env : Env) (a : Nat) :
    (pushHead B env s a).reports = (onFree B s.toWorld a s.pool.blockSize).2.reports := by
  have hhook := onFreeHook_hardened hh (s := s) a
  generalize onFree B s.toWorld a s.pool.blockSize = r at hhook
  refine pushHead_rule (P := fun s' => s'.reports = r.2.reports) ?_ ?_ ?_
  · intro s' h
    exact h
  · intro t ht
    obtain ⟨-, rfl⟩ := Prod.mk.inj (hhook.symm.trans ht)
    rfl
  · intro t tag ht
    obtain ⟨-, rfl⟩ := Prod.mk.inj (hhook.symm.trans ht)
    rfl

/-- More reports, and the use of freed memory among them if the payload is not all poison. -/
def Reported (B : Build) (reports reports' : List Report) (m : Mem) (slot blockSize : Nat) : Prop :=
  ∃ l, reports' = reports ++ l ∧ (¬ Poisoned B m slot blockSize → ⟨.useAfterFree, slot⟩ ∈ l)

theorem onAlloc_reports (B : Build) (w : World) (slot blockSize : Nat) :
    Reported B w.reports (onAlloc B w slot blockSize).reports w.mem slot blockSize := by
  have key : ∀ w' : World, w'.mem = w.mem → ∀ l, w'.reports = w.reports ++ l →
      Reported B w.reports
        (if !payloadIsPoison B w'.mem slot blockSize then w'.report .useAfterFree slot
          else w').reports w.mem slot blockSize := by
    intro w' hm l hl
    rw [hm]
    split
    · refine ⟨l ++ [⟨.useAfterFree, slot⟩], ?_, fun _ => by simp⟩
      simp only [World.report, hl, List.append_assoc]
    · rename_i hp
      refine ⟨l, hl, fun hn => absurd ?_ hn⟩
      exact payloadIsPoison_iff.mp (by simpa using hp)
  unfold onAlloc
  by_cases h1 : readGuard w.mem slot blockSize ≠ guardFreed
  · simp only [if_pos h1]
    exact key (w.report .freelistCorruption slot) rfl _ rfl
  · simp only [if_neg h1]
    exact key w rfl [] (List.append_nil _).symm

theorem readNext_reports (B : Build) (w : World) (slot : Nat) :
    ∃ l, (readNext B w slot).2.reports = w.reports ++ l := by
  simp only [readNext]
  split
  · exact ⟨_, rfl⟩
  · exact ⟨[], (List.append_nil _).symm⟩

theorem popHead_reports (hh : B.hardening = true) (h0 : s.pool.head.ptr ≠ 0) (env : Env) :
    Reported B s.reports (popHead B env s).2.reports s.mem s.pool.head.ptr s.pool.blockSize := by
  have hhook : ∀ (t : State) (a : Nat),
      Reported B t.reports (t.onAllocHook B a).reports t.mem a t.pool.blockSize := by
    intro t a
    unfold State.onAllocHook
    rw [if_pos hh]
    exact onAlloc_reports B t.toWorld a t.pool.blockSize
  have hun : Reported B s.reports (popUnlocked B env s).2.reports s.mem s.pool.head.ptr
      s.pool.blockSize := by
    obtain ⟨l, hl⟩ := readNext_reports B s.toWorld s.pool.head.ptr
    have hmem := readNext_mem B s.toWorld s.pool.head.ptr
    unfold popUnlocked
    rw [if_neg h0]
    simp only [Bool.not_true]
    generalize readNext B s.toWorld s.pool.head.ptr = r at hl hmem
    obtain ⟨l', hl', hx⟩ := hhook ((s.setWorld r.2).setHead r.1) s.pool.head.ptr
    refine ⟨l ++ l', ?_, fun hn => List.mem_append_right _ (hx ?_)⟩
    · rw [← List.append_assoc, ← hl]
      exact hl'
    · show ¬ Poisoned B r.2.mem _ _
      rw [hmem]
      exact hn
  refine popHead_rule (P := fun r => Reported B s.reports r.2.reports s.mem s.pool.head.ptr
    s.pool.blockSize) ?_ hun ?_ ?_
  · intro r h
    exact h
  · intro hnull
    exact absurd hnull h0
  · intro _ tag
    exact hhook _ _

end Operations

/-! ## One step and the bytes of one slot -/

/-- Everything one step can do to slot `a`. The stamp of an allocation goes wherever `head_` leads;
it is the only write that may start outside the slots. -/
inductive SlotStep (B : Build) (a : Nat) (c c' : Client) : Client.Event → Prop where
  | aside {env : Env} {block : Nat} {grown : Option Chunk} : c.pool.pool.head.ptr = 0 → block ≠ a →
      SameOn c.pool.mem c'.pool.mem a (slotStride B c.pool.pool.blockSize) →
      SlotStep B a c c' (.alloc env block grown)
  | stamp {env : Env} {grown : Option Chunk} : c.pool.pool.head.ptr ≠ 0 →
      c'.pool.mem = writeGuard c.pool.mem c.pool.pool.head.ptr c.pool.pool.blockSize
        guardAllocated →
      SlotStep B a c c' (.alloc env c.pool.pool.head.ptr grown)
  | other {env : Env} {b : Nat} : b ≠ a →
      SameOn c.pool.mem c'.pool.mem a (slotStride B c.pool.pool.blockSize) →
      SlotStep B a c c' (.free env b)
  | own {env : Env} : (∀ x, a + B.ptrBytes ≤ x →
        c'.pool.mem x = freedMem B c.pool.mem a c.pool.pool.blockSize x) →
      SlotStep B a c c' (.free env a)
  | write {addr : Nat} {byte : UInt8} : c'.pool.mem = set c.pool.mem addr byte →
      SlotStep B a c c' (.write addr byte)

section Steps

variable {B : Build} {c c' : Client} {e : Client.Event} {others : List (Nat × Region)} {a : Nat}

theorem Client.Step.slotStep (hh : B.hardening = true) (L : Layout B c.pool others)
    (ha : a ∈ c.pool.pool.slots B) (hstep : Client.Step B c e c') : SlotStep B a c c' e := by
  cases hstep with
  | @alloc env block s' h =>
    rw [memoryPoolAlloc_some] at h
    obtain ⟨hblock, hs⟩ := Prod.mk.inj h
    rw [← Option.some.inj hs, ← hblock]
    by_cases h0 : c.pool.pool.head.ptr = 0
    · obtain ⟨hsame, hne⟩ := popHead_null_same L h0 env ha
      exact .aside h0 hne hsame
    · have hmem := (popHead_taken hh h0 env).1
      have hf := popHead_frame B env c.pool
      have hhead : (popHead B env c.pool).1 = c.pool.pool.head.ptr := by
        generalize popHead B env c.pool = r at hf
        cases hf with
        | vend _ _ _ => rfl
        | fail h _ _ => exact absurd h h0
        | grew _ h _ _ _ => exact absurd h h0
      rw [hhead]
      exact .stamp h0 hmem
  | @free env block s' h =>
    by_cases hb : block ∈ c.pool.pool.slots B
    · rw [memoryPoolFree_slot L hb] at h
      rw [← Option.some.inj h]
      obtain ⟨hdouble, hpush⟩ := pushHead_hardened (s := c.pool) hh env block
      have d := L.dims
      by_cases hba : block = a
      · subst hba
        refine .own fun x hx => ?_
        show (pushHead B env c.pool block).mem x = _
        by_cases hg : readGuard c.pool.mem block c.pool.pool.blockSize = guardFreed
        · rw [(hdouble hg).1]
        · rw [(hpush hg).1]
          exact writeNext_outside (Or.inr hx)
      · refine .other hba (sameOn_of_outside (fun x hx => ?_) (L.slots_apart hb ha hba))
        show (pushHead B env c.pool block).mem x = _
        have hlink := d.link
        have hguard := d.guard hh
        have hblock := d.block
        have hfreed : freedMem B c.pool.mem block c.pool.pool.blockSize x = c.pool.mem x :=
          freedMem_outside hlink (by omega)
        by_cases hg : readGuard c.pool.mem block c.pool.pool.blockSize = guardFreed
        · rw [(hdouble hg).1, hfreed]
        · rw [(hpush hg).1, writeNext_outside (by omega), hfreed]
    · rw [memoryPoolFree_foreign L hb] at h
      rw [← Option.some.inj h]
      exact .other (fun hba => hb (hba ▸ ha)) (.refl _ _ _)
  | write => exact .write rfl

end Steps

/-! ## Marks that last -/

/-- The guard word that the next allocation stamps behind `head_` keeps clear of the bytes from
`lo` to `hi`. -/
def StampClear (s : State) (lo hi : Nat) : Prop :=
  s.pool.head.ptr = 0 ∨ s.pool.head.ptr + s.pool.blockSize + guardBytes ≤ lo ∨
    hi ≤ s.pool.head.ptr + s.pool.blockSize

/-- The slot is not freed, no allocation stamps its guard word, and the client does not restore
it. -/
def LeavesGuard (a : Nat) (c : Client) : Client.Event → Prop
  | .alloc .. => StampClear c.pool (a + c.pool.pool.blockSize)
      (a + c.pool.pool.blockSize + guardBytes)
  | .free _ b => b ≠ a
  | .write addr byte =>
    readGuard (set c.pool.mem addr byte) a c.pool.pool.blockSize ≠ guardAllocated

/-- The slot is neither vended nor freed, and the client does not restore its payload. -/
def LeavesPayload (B : Build) (a : Nat) (c : Client) : Client.Event → Prop
  | .alloc _ block _ => block ≠ a
  | .free _ b => b ≠ a
  | .write addr byte => ¬ Poisoned B (set c.pool.mem addr byte) a c.pool.pool.blockSize

/-- No allocation stamps the guard word of `a`, and the client does not touch it. Any pointer may
be freed, `a` itself too. -/
def KeepsStamp (a : Nat) (c : Client) : Client.Event → Prop
  | .alloc .. => StampClear c.pool (a + c.pool.pool.blockSize)
      (a + c.pool.pool.blockSize + guardBytes)
  | .free .. => True
  | .write addr byte => readGuard (set c.pool.mem addr byte) a c.pool.pool.blockSize = guardFreed

instance (s : State) (lo hi : Nat) : Decidable (StampClear s lo hi) :=
  inferInstanceAs (Decidable (_ ∨ _ ∨ _))

instance (a : Nat) (c : Client) (e : Client.Event) : Decidable (LeavesGuard a c e) :=
  match e with
  | .alloc .. => inferInstanceAs (Decidable (StampClear _ _ _))
  | .free _ b => inferInstanceAs (Decidable (b ≠ a))
  | .write addr byte => inferInstanceAs (Decidable (readGuard (set c.pool.mem addr byte) a
      c.pool.pool.blockSize ≠ guardAllocated))

section Marks

variable {B : Build} {c c' : Client} {e : Client.Event} {others : List (Nat × Region)} {a : Nat}

theorem stamp_guard_same {m : Mem} {s : State} (h0 : s.pool.head.ptr ≠ 0)
    (hclear : StampClear s (a + s.pool.blockSize) (a + s.pool.blockSize + guardBytes)) :
    readGuard (writeGuard m s.pool.head.ptr s.pool.blockSize guardAllocated) a s.pool.blockSize =
      readGuard m a s.pool.blockSize := by
  refine readGuard_congr fun x hl hu => writeGuard_outside ?_
  rcases hclear with h | h | h
  · exact absurd h h0
  · right; omega
  · left; omega

theorem SlotStep.guard_left (d : SlotDims B c.pool.pool.blockSize) (hh : B.hardening = true)
    (h : SlotStep B a c c' e) (hk : LeavesGuard a c e)
    (hq : readGuard c.pool.mem a c.pool.pool.blockSize ≠ guardAllocated) :
    readGuard c'.pool.mem a c.pool.pool.blockSize ≠ guardAllocated := by
  have hguard := d.guard hh
  cases h with
  | aside _ _ hsame =>
    rw [readGuard_congr (hsame.mono (by omega) (by omega))]
    exact hq
  | stamp h0 hm =>
    rw [hm, stamp_guard_same h0 hk]
    exact hq
  | other _ hsame =>
    rw [readGuard_congr (hsame.mono (by omega) (by omega))]
    exact hq
  | own _ => exact absurd rfl hk
  | write hm =>
    rw [hm]
    exact hk

theorem SlotStep.payload_left (d : SlotDims B c.pool.pool.blockSize) (hh : B.hardening = true)
    (h : SlotStep B a c c' e) (hk : LeavesPayload B a c e)
    (hq : ¬ Poisoned B c.pool.mem a c.pool.pool.blockSize) :
    ¬ Poisoned B c'.pool.mem a c.pool.pool.blockSize := by
  have hguard := d.guard hh
  have hback : ∀ {m : Mem}, SameOn c.pool.mem m a (slotStride B c.pool.pool.blockSize) →
      ¬ Poisoned B m a c.pool.pool.blockSize := by
    intro m hsame hp
    exact hq fun x hl hu => (hsame x (by omega) (by omega)).symm.trans (hp x hl hu)
  cases h with
  | aside _ _ hsame => exact hback hsame
  | stamp _ hm =>
    -- wherever it goes, the stamp leaves the byte that is not poison, or makes it its own
    intro hp
    refine hq fun x hl hu => ?_
    by_contra hx
    have hpx := hp x hl hu
    rw [hm] at hpx
    exact writeGuard_ne_poison hx hpx
  | other _ hsame => exact hback hsame
  | own _ => exact absurd rfl hk
  | write hm =>
    rw [hm]
    exact hk

theorem SlotStep.stamp_kept (d : SlotDims B c.pool.pool.blockSize) (hh : B.hardening = true)
    (h : SlotStep B a c c' e) (hk : KeepsStamp a c e)
    (hq : readGuard c.pool.mem a c.pool.pool.blockSize = guardFreed) :
    readGuard c'.pool.mem a c.pool.pool.blockSize = guardFreed := by
  have hguard := d.guard hh
  have hlink := d.link
  cases h with
  | aside _ _ hsame =>
    rw [readGuard_congr (hsame.mono (by omega) (by omega))]
    exact hq
  | stamp h0 hm =>
    rw [hm, stamp_guard_same h0 hk]
    exact hq
  | other _ hsame =>
    rw [readGuard_congr (hsame.mono (by omega) (by omega))]
    exact hq
  | own hm =>
    refine (readGuard_congr fun x hl _ => hm x ?_).trans (freedMem_guard B c.pool.mem a _)
    omega
  | write hm =>
    rw [hm]
    exact hk

/-- The run lemma for all marks: what one step that meets `K` keeps, a run of such steps keeps. -/
theorem run_marked {Q : Client → Prop} {K : Client → Client.Event → Prop}
    (hh : B.hardening = true)
    (hkeep : ∀ {d d' : Client} {e : Client.Event}, SlotDims B d.pool.pool.blockSize →
      d'.pool.pool.blockSize = d.pool.pool.blockSize → SlotStep B a d d' e → K d e → Q d → Q d')
    (L : Layout B c.pool others) (ha : a ∈ c.pool.pool.slots B) (hq : Q c)
    {es : List Client.Event} (hrun : ((Client.lts B).guard K).Run c es c') :
    Layout B c'.pool others ∧ a ∈ c'.pool.pool.slots B ∧ Q c' := by
  refine hrun.invariant (I := fun d => Layout B d.pool others ∧ a ∈ d.pool.pool.slots B ∧ Q d)
    ?_ ⟨L, ha, hq⟩
  rintro d e d' ⟨Ld, hd, hqd⟩ ⟨hk, hstep⟩
  have hframe : Frame B d.pool d'.pool := Client.Step.frame hstep
  refine ⟨hframe.layout Ld, ?_, hkeep Ld.dims hframe.blockSize (hstep.slotStep hh Ld hd) hk hqd⟩
  cases hframe with
  | same h _ => exact h.slots B ▸ hd
  | grew _ _ h =>
    rw [h.slots B]
    exact (linkChunk_slots B d.pool _ _ _ _).mem_iff.mpr (List.mem_append_right _ hd)

/-- A free reads the guard word of its slot. -/
theorem Client.Step.free_reports (hh : B.hardening = true) (L : Layout B c.pool others)
    (ha : a ∈ c.pool.pool.slots B) {env : Env} (hstep : Client.Step B c (.free env a) c') :
    c'.pool.reports = c.pool.reports ++
      (if readGuard c.pool.mem a c.pool.pool.blockSize = guardFreed then [⟨.doubleFree, a⟩]
        else if readGuard c.pool.mem a c.pool.pool.blockSize ≠ guardAllocated
          then [⟨.overflow, a⟩] else []) := by
  cases hstep with
  | free h =>
    rw [memoryPoolFree_slot L ha] at h
    rw [← Option.some.inj h, pushHead_reports hh]
    exact onFree_reports B c.pool.toWorld a c.pool.pool.blockSize

/-- The allocation that vends a slot reads its payload. -/
theorem Client.Step.alloc_reports (hh : B.hardening = true) (L : Layout B c.pool others)
    (ha : a ∈ c.pool.pool.slots B) {env : Env} {grown : Option Chunk}
    (hstep : Client.Step B c (.alloc env a grown) c') :
    Reported B c.pool.reports c'.pool.reports c.pool.mem a c.pool.pool.blockSize := by
  have hs := hstep.slotStep hh L ha
  generalize he : Client.Event.alloc env a grown = e at hstep hs
  cases hstep with
  | @alloc env' block s' h =>
    obtain ⟨-, rfl, -⟩ := Client.Event.alloc.inj he
    rw [memoryPoolAlloc_some] at h
    have hpool := Option.some.inj (Prod.mk.inj h).2
    have hhead : c.pool.pool.head.ptr ≠ 0 ∧ a = c.pool.pool.head.ptr := by
      cases hs with
      | aside _ hne _ => exact absurd rfl hne
      | stamp h0 _ => exact ⟨h0, rfl⟩
    have hrep := popHead_reports hh hhead.1 env'
    rw [hpool, ← hhead.2] at hrep
    exact hrep
  | free _ => cases he
  | write => cases he

end Marks

/-- Hardened build, any policy, any slot of the pool in any state a run from creation reaches,
whatever was freed and whatever bytes were written: a guard word that is not `GUARD_ALLOCATED`
makes the next free of the slot report; a payload that is not all poison makes the allocation that
next vends the slot report, unless a free of the slot comes between; and a slot stamped free
reports its next free. Any number of other steps may come between: frees of other slots and of
foreign pointers, growths, allocations that keep their stamp clear of the slot's guard word. -/
theorem evidence_kept {B : Build} (hh : B.hardening = true) {env : Env} {w w' : World}
    {call : CreateCall} {p : PoolStruct} (hr : call.InRange B)
    (hcreate : call.run B env w = (some p, w')) {es : List Client.Event} {c : Client}
    (hrun : (Client.lts B).Run ⟨⟨w', p⟩, []⟩ es c) {a : Nat} (ha : a ∈ c.pool.pool.slots B) :
    (readGuard c.pool.mem a c.pool.pool.blockSize ≠ guardAllocated →
      ∀ es' d, ((Client.lts B).guard (LeavesGuard a)).Run c es' d →
      ∀ env' d', (Client.lts B).step d (.free env' a) d' →
        ∃ violation, (violation = .doubleFree ∨ violation = .overflow) ∧
          d'.pool.reports = d.pool.reports ++ [⟨violation, a⟩]) ∧
    (¬ Poisoned B c.pool.mem a c.pool.pool.blockSize →
      ∀ es' d, ((Client.lts B).guard (LeavesPayload B a)).Run c es' d →
      ∀ env' grown d', (Client.lts B).step d (.alloc env' a grown) d' →
        ∃ l, d'.pool.reports = d.pool.reports ++ l ∧ ⟨.useAfterFree, a⟩ ∈ l) ∧
    (readGuard c.pool.mem a c.pool.pool.blockSize = guardFreed →
      ∀ es' d, ((Client.lts B).guard (KeepsStamp a)).Run c es' d →
      ∀ env' d', (Client.lts B).step d (.free env' a) d' →
        d'.pool.reports = d.pool.reports ++ [⟨.doubleFree, a⟩]) := by
  have C := CreateCall.created hr hcreate
  have L := (Client.run_layout hrun C.inv.layout).1
  refine ⟨?_, ?_, ?_⟩
  · intro hq es' d hrun' env' d' hstep
    obtain ⟨Ld, hd, hmark⟩ := run_marked
      (Q := fun d => readGuard d.pool.mem a d.pool.pool.blockSize ≠ guardAllocated) hh
      (fun dims hbs hs hk hq => by rw [hbs]; exact hs.guard_left dims hh hk hq) L ha hq hrun'
    rw [Client.Step.free_reports hh Ld hd hstep]
    by_cases hfreed : readGuard d.pool.mem a d.pool.pool.blockSize = guardFreed
    · rw [if_pos hfreed]
      exact ⟨.doubleFree, Or.inl rfl, rfl⟩
    · rw [if_neg hfreed, if_pos hmark]
      exact ⟨.overflow, Or.inr rfl, rfl⟩
  · intro hq es' d hrun' env' grown d' hstep
    obtain ⟨Ld, hd, hmark⟩ := run_marked
      (Q := fun d => ¬ Poisoned B d.pool.mem a d.pool.pool.blockSize) hh
      (fun dims hbs hs hk hq => by rw [hbs]; exact hs.payload_left dims hh hk hq) L ha hq hrun'
    obtain ⟨l, hl, huse⟩ := Client.Step.alloc_reports hh Ld hd hstep
    exact ⟨l, hl, huse hmark⟩
  · intro hq es' d hrun' env' d' hstep
    obtain ⟨Ld, hd, hmark⟩ := run_marked
      (Q := fun d => readGuard d.pool.mem a d.pool.pool.blockSize = guardFreed) hh
      (fun dims hbs hs hk hq => by rw [hbs]; exact hs.stamp_kept dims hh hk hq) L ha hq hrun'
    rw [Client.Step.free_reports hh Ld hd hstep, if_pos hmark]

/-- The guard of the first block is overwritten; the pool grows, the new block comes back, and the
free of the first block reports. -/
theorem evidence_kept_x64 :
    ∃ d d' : Client, Client.Step (Build.x64 true .none) d (.free firstEnv 0x1000) d' ∧
      ∃ violation, (violation = .doubleFree ∨ violation = .overflow) ∧
        d'.pool.reports = d.pool.reports ++ [⟨violation, 0x1000⟩] := by
  obtain ⟨es, c, es', d, e, d', hrun, hrun', hstep, hx⟩ := Client.script_stretch
    (Build.x64 true .none) (Client.SlotWrites (Build.x64 true .none)) (LeavesGuard 0x1000)
    (firstClient (Build.x64 true .none)) [.alloc firstEnv, .write 0x1010 0]
    [.alloc secondEnv, .free firstEnv 0x2000] (.free firstEnv 0x1000)
    (fun _ c _ _ e _ => (c.pool.pool.slots (Build.x64 true .none), c.pool.pool.blockSize,
      readGuard c.pool.mem 0x1000 16, e))
    ([0x1000], 16, 0xA110CA7EA110CA00, .free firstEnv 0x1000) (by decide +kernel)
  simp only [Prod.mk.injEq] at hx
  obtain ⟨hslots, hbs, hguard, rfl⟩ := hx
  obtain ⟨h, -⟩ := evidence_kept rfl (by decide) (firstCall_run true .none (by decide))
    hrun.of_guard (show 0x1000 ∈ c.pool.pool.slots _ by rw [hslots]; decide)
  rw [hbs, hguard] at h
  exact ⟨d, d', hstep, h (by decide) es' d hrun' firstEnv d' hstep⟩

/-- A freed block is written into; freeing it again is reported and fills it with poison; the
allocation that vends it has nothing left to report. -/
theorem poison_restored :
    ∃ c d d', (Client.lts (Build.x64 true .none)).Run (firstClient (Build.x64 true .none))
        [.alloc firstEnv 0x1000 none, .free firstEnv 0x1000, .write 0x1008 7] c ∧
      0x1000 ∈ c.pool.pool.slots (Build.x64 true .none) ∧
      ¬ Poisoned (Build.x64 true .none) c.pool.mem 0x1000 c.pool.pool.blockSize ∧
      (Client.lts (Build.x64 true .none)).Run c [.free firstEnv 0x1000] d ∧
      d.pool.reports = c.pool.reports ++ [⟨.doubleFree, 0x1000⟩] ∧
      Client.Step (Build.x64 true .none) d (.alloc firstEnv 0x1000 none) d' ∧
      d'.pool.reports = d.pool.reports := by
  obtain ⟨es, c, es', d, e, d', hrun, hrun', hstep, hx⟩ := Client.script_stretch
    (Build.x64 true .none) (Client.SlotWrites (Build.x64 true .none))
    (Client.SlotWrites (Build.x64 true .none)) (firstClient (Build.x64 true .none))
    [.alloc firstEnv, .free firstEnv 0x1000, .write 0x1008 7] [.free firstEnv 0x1000]
    (.alloc firstEnv)
    (fun es c es' d e d' => ([es, es', [e]], [c.pool.pool.slots (Build.x64 true .none),
      [(c.pool.mem 0x1008).toNat, c.pool.pool.blockSize]],
      [c.pool.reports, d.pool.reports, d'.pool.reports]))
    ([[.alloc firstEnv 0x1000 none, .free firstEnv 0x1000, .write 0x1008 7],
      [.free firstEnv 0x1000], [.alloc firstEnv 0x1000 none]], [[0x1000], [7, 16]],
      [[], [⟨.doubleFree, 0x1000⟩], [⟨.doubleFree, 0x1000⟩]]) (by decide +kernel)
  simp only [Prod.mk.injEq, List.cons.injEq, and_true] at hx
  obtain ⟨⟨rfl, rfl, rfl⟩, ⟨hslots, hbyte, hbs⟩, h1, h2, h3⟩ := hx
  refine ⟨c, d, d', hrun.of_guard, ?_, ?_, hrun'.of_guard, ?_, hstep, ?_⟩
  · rw [hslots]
    decide
  · intro hp
    have hdead := hp 0x1008 (by decide) (by rw [hbs]; decide)
    rw [hdead] at hbyte
    revert hbyte
    decide
  · rw [h1, h2]
    rfl
  · rw [h2, h3]

end MemoryPool
