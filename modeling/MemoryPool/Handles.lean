import MemoryPool.Store
import MemoryPool.Undecorated

/-!
# MemoryPool.Handles

The pools behind the handles of a program, each in good order while the others are called, grow,
come and go.

`held` says for every handle which blocks of its pool are out. No region belongs to two pools, so
what happens to one leaves the slots of the others alone (`Tended.change`).

* `Tended.create`, `Tended.destroy`, `Tended.alloc`, `Tended.free`, `Tended.foreign`,
  `Tended.write`: what a program can do to the pools.
-/

namespace MemoryPool

namespace Objects

open ByteMem LinkedList

structure Tended (B : Build) (m : Machine) (held : Nat → List Nat) : Prop where
  pool : ∀ h p, m.handles h = some p →
    ∃ others free, PoolInv B ⟨m.world, p⟩ others free (held h)
  apart : ∀ i j p q, i ≠ j → m.handles i = some p → m.handles j = some q →
    ∀ r ∈ q.regions B, r ∉ p.regions B
  fresh : ∀ h, m.created ≤ h → m.handles h = none ∧ held h = []

/-- The block that an allocation through `handle` was answered with is out. -/
def handOut (held : Nat → List Nat) (handle : Option Nat) (block : Nat) : Nat → List Nat :=
  match handle with
  | none => held
  | some h => if block = 0 then held else Function.update held h (block :: held h)

def takeIn (held : Nat → List Nat) (handle : Option Nat) (block : Nat) : Nat → List Nat :=
  match handle with
  | none => held
  | some h => Function.update held h ((held h).erase block)

theorem handOut_null (held : Nat → List Nat) (handle : Option Nat) :
    handOut held handle 0 = held := by
  cases handle <;> rfl

theorem handOut_other {held : Nat → List Nat} {handle : Option Nat} {j : Nat}
    (hj : handle ≠ some j) (block : Nat) : handOut held handle block j = held j := by
  cases handle with
  | none => rfl
  | some h =>
    simp only [handOut]
    split
    · rfl
    · exact Function.update_of_ne (fun heq => hj (congrArg some heq.symm)) _ _

theorem takeIn_other {held : Nat → List Nat} {handle : Option Nat} {j : Nat}
    (hj : handle ≠ some j) (block : Nat) : takeIn held handle block j = held j := by
  cases handle with
  | none => rfl
  | some h => exact Function.update_of_ne (fun heq => hj (congrArg some heq.symm)) _ _

section

variable {B : Build} {m m' : Machine} {held held' : Nat → List Nat} {h : Nat} {p : PoolStruct}

theorem Tended.start (B : Build) (w : World) : Tended B (Machine.start w) fun _ => [] where
  pool _ _ h := by cases h
  apart _ _ _ _ _ h := by cases h
  fresh _ _ := ⟨rfl, rfl⟩

theorem Tended.congr (T : Tended B m held) (hworld : m'.world = m.world)
    (hhandles : m'.handles = m.handles) (hcreated : m'.created = m.created) : Tended B m' held := by
  refine ⟨?_, ?_, ?_⟩
  · rw [hworld, hhandles]; exact T.pool
  · rw [hhandles]; exact T.apart
  · rw [hcreated, hhandles]; exact T.fresh

/-- One pool is new or changed, and nothing outside of its slots. -/
theorem Tended.change (T : Tended B m held) (hp : m'.handles h = some p)
    (hI : ∃ others free, PoolInv B ⟨m'.world, p⟩ others free (held' h))
    (hsame : ∀ j, j ≠ h → m'.handles j = m.handles j ∧ held' j = held j)
    (hcreated : m.created ≤ m'.created) (hlt : h < m'.created)
    (hmem : ∀ x, p.Outside B x → m'.world.mem x = m.world.mem x)
    (hlive : ∀ r ∈ m.world.heap.regions, r ∈ m'.world.heap.regions)
    (hnew : ∀ j q, j ≠ h → m.handles j = some q → ∀ r ∈ q.regions B, r ∉ p.regions B) :
    Tended B m' held' where
  pool j q hq := by
    by_cases hj : j = h
    · subst hj
      obtain rfl : p = q := Option.some.inj (hp.symm.trans hq)
      exact hI
    · obtain ⟨hhandle, hheld⟩ := hsame j hj
      rw [hhandle] at hq
      obtain ⟨others, free, Iq⟩ := T.pool j q hq
      obtain ⟨othersp, freep, Ip⟩ := hI
      have hreg : ∀ r ∈ q.regions B, r ∈ m'.world.heap.regions := fun r hr =>
        hlive r (Iq.layout.regions_live hr)
      obtain ⟨others', L⟩ : ∃ others', Layout B ⟨m'.world, q⟩ others' :=
        Iq.layout.elsewhere rfl hreg
      have hslots : ∀ a ∈ q.slots B,
          SameOn m.world.mem m'.world.mem a (slotStride B q.blockSize) := by
        intro a ha x hl hu
        refine hmem x fun b hb => ?_
        have hap := Ip.layout.apart_slot L (hnew j q hj hq) hb ha
        omega
      obtain ⟨others'', I'⟩ : ∃ others'', PoolInv B ⟨m'.world, q⟩ others'' free _ :=
        Iq.elsewhere rfl hreg hslots
      rw [hheld]
      exact ⟨others'', free, I'⟩
  apart i j q q' hij hi hj r hr := by
    by_cases hih : i = h
    · subst hih
      obtain rfl : p = q := Option.some.inj (hp.symm.trans hi)
      exact hnew j q' (Ne.symm hij) ((hsame j (Ne.symm hij)).1 ▸ hj) r hr
    · by_cases hjh : j = h
      · subst hjh
        obtain rfl : p = q' := Option.some.inj (hp.symm.trans hj)
        exact fun hr' => hnew i q hih ((hsame i hih).1 ▸ hi) r hr' hr
      · exact T.apart i j q q' hij ((hsame i hih).1 ▸ hi) ((hsame j hjh).1 ▸ hj) r hr
  fresh j hj := by
    obtain ⟨h1, h2⟩ := hsame j (by omega)
    obtain ⟨h3, h4⟩ := T.fresh j (hcreated.trans hj)
    exact ⟨h1.trans h3, h2.trans h4⟩

/-! ## Create and destroy -/

theorem Tended.create (T : Tended B m held) {call : CreateCall} (hr : call.InRange B) (env : Env) :
    Tended B (m.create B env call).2 held := by
  unfold Machine.create
  generalize hrun : call.run B env m.world = r
  obtain ⟨p, w'⟩ := r
  cases p with
  | none =>
    obtain ⟨heap, hl, rfl⟩ := CreateCall.run_none hrun
    refine ⟨fun h p hp => ?_, T.apart, T.fresh⟩
    obtain ⟨others, free, I⟩ := T.pool h p hp
    exact ⟨others, free, I.sameHeap hl⟩
  | some p =>
    have C := CreateCall.created hr hrun
    obtain ⟨own, hlive, hown⟩ := C.inv.layout.owned
    have hnd := w'.heap.regions_nodup
    rw [Heap.regions, (hlive.map Prod.snd).nodup_iff, List.map_append] at hnd
    have hheld := (T.fresh m.created (Nat.le_refl _)).2
    refine T.change (h := m.created) (p := p) (Function.update_self ..)
      ⟨_, _, hheld ▸ C.inv⟩ ?_ (Nat.le_succ _) (Nat.lt_succ_self _)
      (fun x hx => CreateCall.run_outside hr hrun hx) ?_ ?_
    · intro j hj
      exact ⟨Function.update_of_ne hj _ _, rfl⟩
    · intro r hr
      rw [Heap.regions, (hlive.map Prod.snd).mem_iff, List.map_append]
      exact List.mem_append_right _ hr
    · intro j q _ hq r hr hr'
      obtain ⟨others, free, I⟩ := T.pool j q hq
      exact (List.nodup_append.mp hnd).2.2 r (hown.mem_iff.mpr hr') r (I.layout.regions_live hr) rfl

theorem Tended.destroy (T : Tended B m held) (handle : Option Nat) :
    Tended B (m.destroy handle) held := by
  cases handle with
  | none => exact T
  | some h =>
    cases hp : m.handles h with
    | none =>
      refine T.congr ?_ ?_ rfl
      · simp only [Machine.destroy, hp]
        rfl
      · simp only [Machine.destroy]
        rw [← hp, Function.update_eq_self]
    | some p =>
      obtain ⟨others, free, I⟩ := T.pool h p hp
      obtain ⟨own, hlive, hown⟩ := I.layout.owned
      obtain ⟨hleft, -⟩ := I.layout.destroy
      have hother : ∀ j q, (m.destroy (some h)).handles j = some q → j ≠ h ∧ m.handles j = some q := by
        intro j q hq
        by_cases hj : j = h
        · subst hj
          simp [Machine.destroy] at hq
        · exact ⟨hj, by simpa [Machine.destroy, hj] using hq⟩
      refine ⟨?_, ?_, ?_⟩
      · intro j q hq
        obtain ⟨hj, hq⟩ := hother j q hq
        obtain ⟨others', free', Iq⟩ := T.pool j q hq
        have hreg : ∀ r ∈ q.regions B, r ∈ (m.destroy (some h)).world.heap.regions := by
          intro r hr
          have hin := Iq.layout.regions_live hr
          rw [Heap.regions, (hlive.map Prod.snd).mem_iff, List.map_append] at hin
          simp only [Machine.destroy, hp]
          rw [Heap.regions, (hleft.map Prod.snd).mem_iff]
          refine (List.mem_append.mp hin).resolve_left fun hr' => ?_
          exact T.apart h j p q (Ne.symm hj) hp hq r hr (hown.mem_iff.mp hr')
        have hmem : (m.destroy (some h)).world.mem = m.world.mem := by
          simp only [Machine.destroy, hp, memoryPoolDestroy_mem]
        obtain ⟨others'', I'⟩ : ∃ others'',
            PoolInv B ⟨(m.destroy (some h)).world, q⟩ others'' free' _ :=
          Iq.elsewhere rfl hreg fun a _ x _ _ => congrFun hmem x
        exact ⟨others'', free', I'⟩
      · intro i j q q' hij hi hj
        exact T.apart i j q q' hij (hother i q hi).2 (hother j q' hj).2
      · intro j hj
        obtain ⟨h1, h2⟩ := T.fresh j hj
        refine ⟨?_, h2⟩
        by_cases hjh : j = h
        · subst hjh
          exact Function.update_self ..
        · exact (Function.update_of_ne hjh _ _).trans h1

/-! ## Calls -/

theorem Tended.handle_lt (T : Tended B m held) (hp : m.handles h = some p) : h < m.created := by
  by_contra hle
  have hnone := (T.fresh h (Nat.le_of_not_lt hle)).1
  rw [hp] at hnone
  cases hnone

theorem deref_some (hp : m.handles h = some p) : m.deref (some h) = some ⟨m.world, p⟩ := by
  simp [Machine.deref, hp]

theorem Tended.alloc (T : Tended B m held) (handle : Option Nat) (env : Env) :
    Tended B (m.store handle (memoryPoolAlloc B env (m.deref handle)).2)
      (handOut held handle (memoryPoolAlloc B env (m.deref handle)).1) := by
  cases handle with
  | none => exact T
  | some h =>
    cases hp : m.handles h with
    | none =>
      have hnull : m.deref (some h) = none := by simp [Machine.deref, hp]
      rw [hnull]
      exact T
    | some p =>
      obtain ⟨others, free, I⟩ := T.pool h p hp
      obtain ⟨chunks, fresh, hm⟩ := popHead_moved B env ⟨m.world, p⟩
      have hres := popHead_result I env
      rw [deref_some hp, memoryPoolAlloc_some]
      generalize popHead B env ⟨m.world, p⟩ = r at hm hres
      obtain ⟨free', hinv⟩ := hres.inv I
      have hnd := r.2.heap.regions_nodup
      rw [hm.heap.nodup_iff] at hnd
      refine T.change (h := h) (p := r.2.pool) (Function.update_self ..) ⟨others, free', ?_⟩ ?_
        (Nat.le_refl _) (T.handle_lt hp) (fun x hx => hres.outside I hx) ?_ ?_
      · simp only [handOut]
        split
        · rename_i h0
          rw [if_pos h0] at hinv
          exact hinv
        · rename_i h0
          rw [if_neg h0] at hinv
          rw [Function.update_self]
          exact hinv
      · intro j hj
        refine ⟨Function.update_of_ne hj _ _, ?_⟩
        simp only [handOut]
        split
        · rfl
        · exact Function.update_of_ne hj _ _
      · intro r' hr'
        exact hm.heap.mem_iff.mpr (List.mem_append_right _ hr')
      · intro j q hj hq r' hr' hin
        obtain ⟨others', free', Iq⟩ := T.pool j q hq
        have hlive := Iq.layout.regions_live hr'
        rcases List.mem_append.mp (hm.regions.mem_iff.mp hin) with hin | hin
        · exact (List.nodup_append.mp hnd).2.2 r' hin r' hlive rfl
        · exact T.apart h j p q (Ne.symm hj) hp hq r' hr' hin

/-- A call on the pool that changes only slots of it and nothing of the heap. -/
theorem Tended.inside (T : Tended B m held) (hp : m.handles h = some p) {s : State}
    {block : List Nat} (hshape : p.SameShape s.pool) (hl : m.world.heap.SameLive s.heap)
    (hI : ∃ others free, PoolInv B s others free block)
    (hmem : ∀ x, s.pool.Outside B x → s.mem x = m.world.mem x) :
    Tended B (m.store (some h) (some s)) (Function.update held h block) := by
  refine T.change (h := h) (p := s.pool) (Function.update_self ..) ?_ ?_ (Nat.le_refl _)
    (T.handle_lt hp) hmem ?_ ?_
  · rw [Function.update_self]
    exact hI
  · intro j hj
    exact ⟨Function.update_of_ne hj _ _, Function.update_of_ne hj _ _⟩
  · intro r hr
    show r ∈ s.heap.regions
    rw [Heap.regions, hl.1]
    exact hr
  · intro j q hj hq r hr hin
    rw [hshape.regions] at hin
    exact T.apart h j p q (Ne.symm hj) hp hq r hr hin

theorem Tended.free (T : Tended B m held) (hp : m.handles h = some p) {block : Nat}
    (hb : block ∈ held h) (env : Env) :
    Tended B (m.store (some h) (memoryPoolFree B env (m.deref (some h)) block))
      (takeIn held (some h) block) := by
  obtain ⟨others, free, I⟩ := T.pool h p hp
  have hslot := I.held_slot hb
  obtain ⟨tag, ht⟩ := pushHead_held I hb env
  rw [deref_some hp, memoryPoolFree_slot I.layout hslot, ht]
  exact T.inside hp rfl ⟨rfl, rfl⟩ ⟨others, _, I.takeBack hb tag⟩
    fun x hx => takeBack_outside I.layout hslot tag hx

theorem Tended.foreign (T : Tended B m held) (hp : m.handles h = some p) {block : Nat}
    (hb : block ∉ p.slots B) (env : Env) :
    m.store (some h) (memoryPoolFree B env (m.deref (some h)) block) = m := by
  obtain ⟨others, free, I⟩ := T.pool h p hp
  rw [deref_some hp, memoryPoolFree_foreign I.layout hb]
  simp only [Machine.store]
  rw [← hp, Function.update_eq_self]

theorem Tended.write (T : Tended B m held) (hp : m.handles h = some p) {b addr : Nat}
    (hb : b ∈ held h) (hl : b ≤ addr) (hu : addr < b + p.blockSize) (byte : UInt8) :
    Tended B { m with world := { m.world with mem := set m.world.mem addr byte } } held := by
  obtain ⟨others, free, I⟩ := T.pool h p hp
  have hslot := I.held_slot hb
  have hle : p.blockSize ≤ slotStride B p.blockSize := I.layout.stride_ge
  let s' : State := ⟨{ m.world with mem := set m.world.mem addr byte }, p⟩
  have hstore : m.store (some h) (some s') = { m with world := s'.toWorld } := by
    simp only [Machine.store, s']
    rw [← hp, Function.update_eq_self]
  have hmem : ∀ x, s'.pool.Outside B x → s'.mem x = m.world.mem x := by
    intro x hx
    have hxb : x < b ∨ b + slotStride B p.blockSize ≤ x := hx b hslot
    exact set_other (by omega)
  have T' := T.inside (s := s') hp rfl ⟨rfl, rfl⟩ ⟨others, free, I.write hb hl hu⟩ hmem
  rwa [hstore, Function.update_eq_self] at T'

end

end Objects

end MemoryPool
