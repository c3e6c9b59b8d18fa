import MemoryPool.ClientMemory
import MemoryPool.Loans

/-!
# MemoryPool.Fleet

Any number of pools in one process, created, used and destroyed in any order by one thread, over
one heap and one memory.

A handle is the number of the `memory_pool_create` call that returned it. A call on a pool is the
step of a client of that pool (`Client.Step`) in the world as the others left it. So a pointer that
came from one pool may be passed to another one.

* `Inv.called`, `Inv.created`, `Inv.destroyed`, `Inv.wrote`: what one event does to the pools; the
  free list of every other pool is the list it was.
* `fleet_refines`: the calls on each handle are a run of its own stack, and when the last pool is
  destroyed the heap is as it was.
-/

namespace MemoryPool

open ByteMem LinkedList

/-- The pools by their handles; `none` is a pool that is destroyed. -/
structure Fleet where
  world : World
  pools : List (Option PoolStruct)
  held : Nat → List Nat

namespace Fleet

def start (w : World) : Fleet := ⟨w, [], fun _ => []⟩

inductive Event where
  | created (handle : Nat) (pool : PoolStruct)
  | refused
  | call (handle : Nat) (event : Client.Event)
  | write (addr : Nat) (byte : UInt8)
  | destroyed (handle : Nat)
  deriving DecidableEq

def pool (c : Fleet) (handle : Nat) : Option PoolStruct := c.pools[handle]?.join

theorem pool_some {c : Fleet} {h : Nat} {p : PoolStruct} :
    c.pool h = some p ↔ c.pools[h]? = some (some p) := Option.join_eq_some_iff

/-- What a client of the pool sees. -/
def client (c : Fleet) (handle : Nat) (pool : PoolStruct) : Client :=
  ⟨⟨c.world, pool⟩, c.held handle⟩

def put (c : Fleet) (handle : Nat) (d : Client) : Fleet :=
  ⟨d.pool.toWorld, c.pools.set handle (some d.pool.pool),
    Function.update c.held handle d.held⟩

inductive Step (B : Build) : Fleet → Event → Fleet → Prop where
  | created {c : Fleet} {env : Env} {call : CreateCall} {p : PoolStruct} {w' : World} :
      call.InRange B → call.run B env c.world = (some p, w') →
      Step B c (.created c.pools.length p)
        ⟨w', c.pools ++ [some p], Function.update c.held c.pools.length []⟩
  | refused {c : Fleet} {env : Env} {call : CreateCall} {w' : World} :
      call.run B env c.world = (none, w') → Step B c .refused { c with world := w' }
  | call {c : Fleet} {h : Nat} {p : PoolStruct} {e : Client.Event} {d : Client} :
      c.pool h = some p → e.IsCall → Client.Step B (c.client h p) e d →
      Step B c (.call h e) (c.put h d)
  | write {c : Fleet} {addr : Nat} {byte : UInt8} :
      Step B c (.write addr byte)
        { c with world := { c.world with mem := set c.world.mem addr byte } }
  | destroyed {c : Fleet} {h : Nat} {p : PoolStruct} : c.pool h = some p →
      Step B c (.destroyed h)
        { c with world := memoryPoolDestroy c.world (some p), pools := c.pools.set h none }

def lts (B : Build) : Lts Fleet Event := ⟨Step B⟩

/-- A hardened pool is freed any pointer, a default one a block of its own or no slot of it;
writes go to held blocks. -/
def Tolerated (B : Build) (c : Fleet) : Event → Prop
  | .call h e => ∀ p ∈ c.pool h, Client.Tolerated B (c.client h p) e
  | .write addr _ => ∃ h < c.pools.length, ∃ p ∈ c.pool h, ∃ b ∈ c.held h,
      b ≤ addr ∧ addr < b + p.blockSize
  | _ => True

instance (B : Build) (c : Client) (e : Client.Event) : Decidable (Client.Tolerated B c e) :=
  inferInstanceAs (Decidable (_ ∧ (_ ∨ _)))

instance (B : Build) (c : Fleet) (e : Event) : Decidable (c.Tolerated B e) :=
  match e with
  | .call h e => inferInstanceAs (Decidable (∀ p ∈ c.pool h, Client.Tolerated B (c.client h p) e))
  | .write addr _ => inferInstanceAs (Decidable (∃ h < c.pools.length, ∃ p ∈ c.pool h,
      ∃ b ∈ c.held h, b ≤ addr ∧ addr < b + p.blockSize))
  | .created .. => .isTrue trivial
  | .refused => .isTrue trivial
  | .destroyed _ => .isTrue trivial

/-- The calls on one handle. -/
def Event.on (handle : Nat) : Event → Option Client.Event
  | .call h e => if h = handle then some e else none
  | _ => none

inductive Call where
  | create (env : Env) (call : CreateCall)
  | alloc (handle : Nat) (env : Env)
  | free (handle : Nat) (env : Env) (block : Nat)
  | write (addr : Nat) (byte : UInt8)
  | destroy (handle : Nat)

def exec (B : Build) (c : Fleet) : Call → Option (Event × Fleet)
  | .create env call =>
    if call.InRange B then
      match call.run B env c.world with
      | (some p, w') => some (.created c.pools.length p,
          ⟨w', c.pools ++ [some p], Function.update c.held c.pools.length []⟩)
      | (none, w') => some (.refused, { c with world := w' })
    else none
  | .alloc h env =>
    match c.pool h with
    | none => none
    | some p => (Client.exec B (c.client h p) (.alloc env)).map fun r => (.call h r.1, c.put h r.2)
  | .free h env block =>
    match c.pool h with
    | none => none
    | some p =>
      (Client.exec B (c.client h p) (.free env block)).map fun r => (.call h r.1, c.put h r.2)
  | .write addr byte =>
    some (.write addr byte, { c with world := { c.world with mem := set c.world.mem addr byte } })
  | .destroy h =>
    match c.pool h with
    | none => none
    | some p => some (.destroyed h,
        { c with world := memoryPoolDestroy c.world (some p), pools := c.pools.set h none })

theorem exec_step {B : Build} (c : Fleet) (call : Call) (e : Event) (c' : Fleet)
    (h : exec B c call = some (e, c')) : (lts B).step c e c' := by
  cases call with
  | create env call =>
    simp only [exec] at h
    split at h
    · rename_i hr
      split at h
      · rename_i hc
        cases h
        exact .created hr hc
      · rename_i hc
        cases h
        exact .refused hc
    · cases h
  | alloc i env =>
    simp only [exec] at h
    split at h
    · cases h
    · rename_i p hp
      obtain ⟨⟨e', d⟩, hd, heq⟩ := Option.map_eq_some_iff.mp h
      cases heq
      refine .call hp ?_ (Client.exec_step hd)
      simp only [Client.exec] at hd
      split at hd <;> cases hd
      trivial
  | free i env block =>
    simp only [exec] at h
    split at h
    · cases h
    · rename_i p hp
      obtain ⟨⟨e', d⟩, hd, heq⟩ := Option.map_eq_some_iff.mp h
      cases heq
      refine .call hp ?_ (Client.exec_step hd)
      simp only [Client.exec] at hd
      split at hd <;> cases hd
      trivial
  | write addr byte =>
    cases h
    exact .write
  | destroy i =>
    simp only [exec] at h
    split at h
    · cases h
    · rename_i p hp
      cases h
      exact .destroyed hp

end Fleet

/-! ## What one call does to the rest -/

namespace Client

variable {B : Build} {c c' : Client} {e : Event} {others : List (Nat × Region)} {free : List Nat}

/-- A call changes no byte outside of the slots of its pool. -/
theorem Step.outside (I : PoolInv B c.pool others free c.held) (hstep : Step B c e c')
    (hok : Tolerated B c e) (hcall : e.IsCall) {x : Nat} (hx : c'.pool.pool.Outside B x) :
    c'.pool.mem x = c.pool.mem x := by
  cases hstep.effect I hok with
  | vend tag => exact vend_outside I.layout (I.free_slot (List.mem_cons_self ..)) tag hx
  | fail _ => rfl
  | grow tag hg hf => exact (PopResult.grow tag hg hf).outside I hx
  | takeBack tag hheld => exact takeBack_outside I.layout (I.held_slot hheld) tag hx
  | refuse _ => rfl
  | ignore _ => rfl
  | write _ _ _ => exact hcall.elim

end Client

/-- A call takes from the heap what it links to the pool. -/
theorem Frame.moved {B : Build} {s s' : State} (h : Frame B s s') :
    ∃ fresh, (s'.pool.regions B).Perm (fresh ++ s.pool.regions B) ∧
      s'.heap.regions.Perm (fresh ++ s.heap.regions) := by
  cases h with
  | same h1 h2 =>
    refine ⟨[], by rw [h1.regions]; exact .refl _, ?_⟩
    rw [Heap.regions, h2.1]
    exact .refl _
  | @grew add backing addr heap s' hg h1 h2 =>
    refine ⟨[⟨.chunkNode, addr, B.sizeofChunk⟩,
      ⟨.backing, backing, slotStride B s.pool.blockSize * add⟩], ?_, ?_⟩
    · rw [h2.regions]
      exact @List.perm_append_comm _ [_, _] [_, _] |>.append_right _
    · rw [h1, Heap.regions, hg.live]
      exact .refl _

namespace Fleet

def regionsOf (B : Build) (p : Option PoolStruct) : List Region := p.elim [] (PoolStruct.regions B)

/-- Every pool is in order, with the free list that `free` says; the heap has the pools' regions
and what was there at the start. -/
structure Inv (B : Build) (w : World) (c : Fleet) (free : Nat → List Nat) : Prop where
  pool : ∀ h p, c.pools[h]? = some (some p) →
    ∃ others, PoolInv B ⟨c.world, p⟩ others (free h) (c.held h)
  accounted : c.world.heap.regions.Perm (c.pools.flatMap (regionsOf B) ++ w.heap.regions)
  kept : ∀ e ∈ w.heap.ledger.live, e ∈ c.world.heap.ledger.live
  invalid : c.world.heap.ledger.invalid = w.heap.ledger.invalid

section

variable {B : Build} {w : World} {c c' : Fleet} {free : Nat → List Nat}

theorem Inv.start (B : Build) (w : World) : Inv B w (start w) fun _ => [] where
  pool _ _ h := by cases h
  accounted := .refl _
  kept _ h := h
  invalid := rfl

/-- No region belongs to two pools. -/
theorem apart_regions {pools : List (Option PoolStruct)} {heap : Heap} {rest : List Region}
    (hacc : heap.regions.Perm (pools.flatMap (regionsOf B) ++ rest)) {i j : Nat}
    {p q : PoolStruct} (hp : pools[i]? = some (some p)) (hq : pools[j]? = some (some q))
    (hij : i ≠ j) {r : Region} (hr : r ∈ p.regions B) : r ∉ q.regions B := by
  have hnd := heap.regions_nodup
  rw [hacc.nodup_iff] at hnd
  exact Store.flatMap_apart (f := regionsOf B) (List.nodup_append.mp hnd).1 hp hq hij hr

/-- What is left to show when the pool `j` is new or changed. -/
theorem Inv.change (I : Inv B w c free) {j : Nat} {p : PoolStruct} {free' : Nat → List Nat}
    (hp : c'.pools[j]? = some (some p))
    (hI : ∃ others, PoolInv B ⟨c'.world, p⟩ others (free' j) (c'.held j))
    (hsame : ∀ i q, i ≠ j → c'.pools[i]? = some (some q) →
      c.pools[i]? = some (some q) ∧ c'.held i = c.held i ∧ free' i = free i)
    (hmem : ∀ x, p.Outside B x → c'.world.mem x = c.world.mem x)
    (hacc : c'.world.heap.regions.Perm (c'.pools.flatMap (regionsOf B) ++ w.heap.regions))
    (hkept : ∀ e ∈ c.world.heap.ledger.live, e ∈ c'.world.heap.ledger.live)
    (hinvalid : c'.world.heap.ledger.invalid = c.world.heap.ledger.invalid) :
    Inv B w c' free' where
  pool i q hq := by
    by_cases hij : i = j
    · subst hij
      obtain rfl : p = q := Option.some.inj (Option.some.inj (hp.symm.trans hq))
      exact hI
    · obtain ⟨hq', hheld, hfree⟩ := hsame i q hij hq
      obtain ⟨others, Iq⟩ := I.pool i q hq'
      obtain ⟨othersp, Ip⟩ := hI
      have hreg : ∀ r ∈ q.regions B, r ∈ c'.world.heap.regions := by
        intro r hr
        obtain ⟨e, he, rfl⟩ := List.mem_map.mp (Iq.layout.regions_live hr)
        exact List.mem_map_of_mem (hkept e he)
      obtain ⟨others', L⟩ : ∃ others', Layout B ⟨c'.world, q⟩ others' :=
        Iq.layout.elsewhere rfl hreg
      have hslots : ∀ a ∈ q.slots B,
          SameOn c.world.mem c'.world.mem a (slotStride B q.blockSize) := by
        intro a ha x hl hu
        refine hmem x fun b hb => ?_
        have hap := Ip.layout.apart_slot L
          (fun r hr => apart_regions hacc hq hp hij hr) hb ha
        omega
      rw [hheld, hfree]
      exact Iq.elsewhere rfl hreg hslots
  accounted := hacc
  kept e he := hkept e (I.kept e he)
  invalid := hinvalid.trans I.invalid

/-- A call on a pool: one step of its stack, and the other pools keep their lists. -/
theorem Inv.called (I : Inv B w c free) {h : Nat} {p : PoolStruct} {e : Client.Event} {d : Client}
    (hp : c.pools[h]? = some (some p)) (hcall : e.IsCall) (hstep : Client.Step B (c.client h p) e d)
    (hok : Client.Tolerated B (c.client h p) e) :
    ∃ a rest, Client.Matches (slotStride B p.blockSize) e a ∧
      Vending.Step ⟨free h, c.held h⟩ a ⟨rest, d.held⟩ ∧ d.pool.pool.blockSize = p.blockSize ∧
      Inv B w (c.put h d) (Function.update free h rest) := by
  obtain ⟨others, Ip⟩ := I.pool h p hp
  have hlen := (List.getElem?_eq_some_iff.mp hp).1
  obtain ⟨a, rest, Id, hmatch, hvend, -, -⟩ := Client.refines (c := c.client h p) Ip hstep hok
  obtain ⟨fresh, hregions, hheap⟩ := hstep.frame.moved
  refine ⟨a, rest, hmatch, hvend, hstep.frame.blockSize, ?_⟩
  refine I.change (j := h) (p := d.pool.pool) (List.getElem?_set_self hlen) ?_ ?_
    (fun x hx => hstep.outside Ip hok hcall hx) ?_ (fun r hr => hstep.live_kept hr)
    hstep.frame.invalid
  · simp only [put, Function.update_self]
    exact ⟨others, Id⟩
  · intro i q hi hq
    exact ⟨(List.getElem?_set_ne (Ne.symm hi)).symm.trans hq, Function.update_of_ne hi _ _,
      Function.update_of_ne hi _ _⟩
  · have hset : (regionsOf B (some d.pool.pool)).Perm (fresh ++ regionsOf B (some p)) := hregions
    refine (hheap.trans (I.accounted.append_left fresh)).trans ?_
    rw [← List.append_assoc]
    exact (Store.flatMap_set hp hset).symm.append_right _

theorem Inv.refused (I : Inv B w c free) {heap : Heap} (h : c.world.heap.SameLive heap) :
    Inv B w { c with world := { c.world with heap := heap } } free where
  pool i p hp := by
    obtain ⟨others, Ip⟩ := I.pool i p hp
    exact ⟨others, Ip.sameHeap h⟩
  accounted := by
    rw [Heap.regions, h.1]
    exact I.accounted
  kept e he := by
    rw [h.1]
    exact I.kept e he
  invalid := h.2.trans I.invalid

theorem Inv.created (I : Inv B w c free) {env : Env} {call : CreateCall} {p : PoolStruct}
    {w' : World} (hr : call.InRange B) (hcreate : call.run B env c.world = (some p, w')) :
    Inv B w ⟨w', c.pools ++ [some p], Function.update c.held c.pools.length []⟩
      (Function.update free c.pools.length
        (slotsOf (slotStride B p.blockSize) p.backing p.blockCount)) := by
  have C := CreateCall.created hr hcreate
  obtain ⟨own, hlive, hown⟩ := C.inv.layout.owned
  refine I.change (j := c.pools.length) (p := p) (by simp) ?_ ?_
    (fun x hx => CreateCall.run_outside hr hcreate hx) ?_ ?_ C.invalid
  · simp only [Function.update_self]
    exact ⟨_, C.inv⟩
  · intro i q hi hq
    refine ⟨?_, Function.update_of_ne hi _ _, Function.update_of_ne hi _ _⟩
    have hlen := (List.getElem?_eq_some_iff.mp hq).1
    rw [List.length_append, List.length_singleton] at hlen
    rwa [List.getElem?_append_left (by omega)] at hq
  · simp only [List.flatMap_append, List.flatMap_cons, List.flatMap_nil, List.append_nil]
    refine (hlive.map Prod.snd).trans ?_
    rw [List.map_append]
    refine (hown.append I.accounted).trans ?_
    rw [← List.append_assoc]
    exact List.perm_append_comm.append_right _
  · intro e he
    exact hlive.mem_iff.mpr (List.mem_append_right _ he)

theorem Inv.wrote (I : Inv B w c free) {h : Nat} {p : PoolStruct}
    (hp : c.pools[h]? = some (some p)) {b addr : Nat} (hb : b ∈ c.held h) (hl : b ≤ addr)
    (hu : addr < b + p.blockSize) (byte : UInt8) :
    Inv B w { c with world := { c.world with mem := set c.world.mem addr byte } } free := by
  obtain ⟨others, Ip⟩ := I.pool h p hp
  refine I.change (j := h) (p := p) hp ⟨others, Ip.write hb hl hu⟩ (fun i q _ hq => ⟨hq, rfl, rfl⟩)
    (fun x hx => set_other ?_) I.accounted (fun _ he => he) rfl
  have hxb : x < b ∨ b + slotStride B p.blockSize ≤ x := hx b (Ip.held_slot hb)
  have hle : p.blockSize ≤ slotStride B p.blockSize := Ip.layout.stride_ge
  omega

/-- The regions of a destroyed pool go, and nothing else. -/
theorem Inv.destroyed (I : Inv B w c free) {h : Nat} {p : PoolStruct}
    (hp : c.pools[h]? = some (some p)) :
    Inv B w { c with
      world := memoryPoolDestroy c.world (some p), pools := c.pools.set h none } free := by
  obtain ⟨others, Ip⟩ := I.pool h p hp
  obtain ⟨own, hlive, hown⟩ := Ip.layout.owned
  obtain ⟨hleft, hinvalid⟩ := Ip.layout.destroy
  have hlen := (List.getElem?_eq_some_iff.mp hp).1
  have hset : (c.pools.flatMap (regionsOf B)).Perm
      (p.regions B ++ (c.pools.set h none).flatMap (regionsOf B)) := by
    have hback : (c.pools.set h none).set h (some p) = c.pools := by
      obtain ⟨_, hget⟩ := List.getElem?_eq_some_iff.mp hp
      rw [List.set_set, ← hget, List.set_getElem_self]
    have hnone : (c.pools.set h none)[h]? = some none := List.getElem?_set_self hlen
    have hgrow : (regionsOf B (some p)).Perm (p.regions B ++ regionsOf B none) := by
      rw [regionsOf, regionsOf, Option.elim_none, List.append_nil]
      exact .refl _
    have hf := Store.flatMap_set hnone hgrow
    rwa [hback] at hf
  have hrest : ((memoryPoolDestroy c.world (some p)).heap.regions).Perm
      ((c.pools.set h none).flatMap (regionsOf B) ++ w.heap.regions) := by
    refine (hleft.map Prod.snd).trans ?_
    have hall := hlive.map Prod.snd
    rw [List.map_append] at hall
    have hacc := I.accounted.trans (hset.append_right w.heap.regions)
    rw [List.append_assoc] at hacc
    have hboth := (hown.append_right _).symm.trans (hall.symm.trans hacc)
    exact (List.perm_append_left_iff _).mp hboth
  refine ⟨?_, hrest, ?_, hinvalid.trans I.invalid⟩
  · intro i q hq
    have hih : i ≠ h := by
      rintro rfl
      rw [List.getElem?_set_self hlen] at hq
      cases hq
    obtain ⟨others', Iq⟩ := I.pool i q ((List.getElem?_set_ne (Ne.symm hih)).symm.trans hq)
    refine Iq.elsewhere rfl (fun r hr => ?_) fun a _ x _ _ => ?_
    · exact hrest.mem_iff.mpr (List.mem_append_left _
        (List.mem_flatMap.mpr ⟨some q, List.mem_of_getElem? hq, hr⟩))
    · exact congrFun (memoryPoolDestroy_mem c.world p) x
  · intro e he
    refine hleft.mem_iff.mpr ((List.mem_append.mp (hlive.mem_iff.mp (I.kept e he))).resolve_left ?_)
    -- a region that was there at the start is no pool's
    intro hmine
    have hnd := c.world.heap.regions_nodup
    rw [I.accounted.nodup_iff] at hnd
    refine (List.nodup_append.mp hnd).2.2 e.2 ?_ e.2 (List.mem_map_of_mem he) rfl
    exact List.mem_flatMap.mpr ⟨some p, List.mem_of_getElem? hp,
      hown.mem_iff.mp (List.mem_map_of_mem hmine)⟩

/-- With no pool left, what is outstanding is what was outstanding at the start. -/
theorem Inv.balanced (I : Inv B w c free) (hnone : ∀ p ∈ c.pools, p = none) :
    w.heap.Balanced c.world.heap := by
  have hnil : c.pools.flatMap (regionsOf B) = [] :=
    List.flatMap_eq_nil_iff.mpr fun p hp => by rw [hnone p hp]; rfl
  have hacc := I.accounted
  rw [hnil, List.nil_append] at hacc
  have hlen : c.world.heap.ledger.live.length = w.heap.ledger.live.length := by
    have h := hacc.length_eq
    rwa [Heap.regions, Heap.regions, List.length_map, List.length_map] at h
  have hnd : w.heap.ledger.live.Nodup := w.heap.regions_nodup.of_map
  have hsub := List.subperm_of_subset hnd I.kept
  exact .of_live (hsub.perm_of_length_le hlen.le).symm I.invalid

/-! ## Runs -/

/-- The calls made on a handle are a run of a stack that starts with the first chunk of its pool;
while the pool is there, the stack is its free list and the blocks of it that are held. -/
def Traced (B : Build) (es : List Event) (c : Fleet) (free : Nat → List Nat) (h : Nat)
    (p : PoolStruct) : Prop :=
  ∃ ds v, List.Forall₂ (Client.Matches (slotStride B p.blockSize)) (es.filterMap (Event.on h)) ds ∧
    (Vending.lts Nat).Run ⟨slotsOf (slotStride B p.blockSize) p.backing p.blockCount, []⟩ ds v ∧
    ∀ q, c.pools[h]? = some (some q) → q.blockSize = p.blockSize ∧ v = ⟨free h, c.held h⟩

/-- An event that is no call on the handle and leaves its pool alone, or destroys it. -/
theorem Traced.keep {es : List Event} {e : Event} {free' : Nat → List Nat} {h : Nat}
    {p : PoolStruct} (T : Traced B es c free h p) (hon : e.on h = none)
    (hsame : ∀ q, c'.pools[h]? = some (some q) →
      c.pools[h]? = some (some q) ∧ c'.held h = c.held h ∧ free' h = free h) :
    Traced B (es ++ [e]) c' free' h p := by
  obtain ⟨ds, v, hA, hv, hnow⟩ := T
  refine ⟨ds, v, by simpa [List.filterMap_append, hon] using hA, hv, fun q hq => ?_⟩
  obtain ⟨hq', hheld, hfree⟩ := hsame q hq
  rw [hheld, hfree]
  exact hnow q hq'

/-- A call on the handle is the next step of its stack. -/
theorem Traced.call {es : List Event} {h : Nat} {p q : PoolStruct} {e : Client.Event} {d : Client}
    {a : Vending.Event Nat} {rest : List Nat} (T : Traced B es c free h p)
    (hq : c.pools[h]? = some (some q)) (hmatch : Client.Matches (slotStride B q.blockSize) e a)
    (hvend : Vending.Step ⟨free h, c.held h⟩ a ⟨rest, d.held⟩)
    (hsize : d.pool.pool.blockSize = q.blockSize) :
    Traced B (es ++ [.call h e]) (c.put h d) (Function.update free h rest) h p := by
  obtain ⟨ds, v, hA, hv, hnow⟩ := T
  obtain ⟨hqp, rfl⟩ := hnow q hq
  have hlen := (List.getElem?_eq_some_iff.mp hq).1
  rw [hqp] at hmatch
  refine ⟨ds ++ [a], ⟨rest, d.held⟩, ?_, .snoc hv hvend, ?_⟩
  · rw [List.filterMap_append]
    refine List.rel_append hA ?_
    simpa [Event.on] using hmatch
  · intro q' hq'
    obtain rfl : d.pool.pool = q' :=
      Option.some.inj (Option.some.inj ((List.getElem?_set_self hlen).symm.trans hq'))
    simp only [put, Function.update_self]
    exact ⟨hsize.trans hqp, trivial⟩

/-- A handle is not called before it is there. -/
theorem run_uncalled {es : List Event} (hrun : (lts B).Run (Fleet.start w) es c) :
    ∀ h, c.pools.length ≤ h → es.filterMap (Event.on h) = [] := by
  induction hrun with
  | nil => intro h _; rfl
  | snoc _ hs ih =>
    intro h hlen
    rw [List.filterMap_append]
    cases hs with
    | created _ _ =>
      rw [List.length_append, List.length_singleton] at hlen
      rw [ih h (by omega)]
      rfl
    | refused _ => rw [ih h hlen]; rfl
    | @call h' _ _ _ hp _ _ =>
      have hlt := (List.getElem?_eq_some_iff.mp (pool_some.mp hp)).1
      simp only [put, List.length_set] at hlen
      rw [ih h hlen]
      have hne : h' ≠ h := by omega
      simp [Event.on, hne]
    | write => rw [ih h hlen]; rfl
    | destroyed _ =>
      simp only [List.length_set] at hlen
      rw [ih h hlen]
      rfl

theorem run_traced {es : List Event}
    (hrun : ((lts B).guard (Tolerated B)).Run (Fleet.start w) es c) :
    ∃ free, Inv B w c free ∧ ∀ h p, .created h p ∈ es →
      h < c.pools.length ∧ Traced B es c free h p := by
  induction hrun with
  | nil => exact ⟨_, .start B w, fun h p hm => by cases hm⟩
  | @snoc c₁ c₂ es e hrun hs ih =>
    obtain ⟨free, I, hall⟩ := ih
    obtain ⟨hok, hs⟩ := hs
    cases hs with
    | @created env call p w' hr hcreate =>
      refine ⟨_, I.created hr hcreate, fun h q hm => ?_⟩
      rw [List.length_append, List.length_singleton]
      rcases List.mem_append.mp hm with hm | hm
      · obtain ⟨hlt, T⟩ := hall h q hm
        refine ⟨by omega, T.keep rfl fun q' hq' => ?_⟩
        rw [List.getElem?_append_left hlt] at hq'
        exact ⟨hq', Function.update_of_ne hlt.ne _ _, Function.update_of_ne hlt.ne _ _⟩
      · -- the new handle, which nobody has called yet
        obtain ⟨rfl, rfl⟩ : h = c₁.pools.length ∧ q = p := by simpa using hm
        refine ⟨by omega, [], _, ?_, .nil, fun q' hq' => ?_⟩
        · rw [List.filterMap_append, run_uncalled hrun.of_guard _ (Nat.le_refl _)]
          exact .nil
        · obtain rfl : q = q' := by simpa using hq'
          simp only [Function.update_self]
          exact ⟨trivial, trivial⟩
    | refused hc =>
      obtain ⟨heap, hsame, rfl⟩ := CreateCall.run_none hc
      refine ⟨free, I.refused hsame, fun h q hm => ?_⟩
      obtain ⟨hlt, T⟩ := hall h q (by simpa using hm)
      exact ⟨hlt, T.keep rfl fun q' hq' => ⟨hq', rfl, rfl⟩⟩
    | @call h' p e d hp hcall hstep =>
      obtain ⟨a, rest, hmatch, hvend, hsize, I'⟩ :=
        I.called (pool_some.mp hp) hcall hstep (hok p hp)
      refine ⟨_, I', fun h q hm => ?_⟩
      obtain ⟨hlt, T⟩ := hall h q (by simpa using hm)
      refine ⟨by simpa [put] using hlt, ?_⟩
      by_cases hh : h = h'
      · subst hh
        exact T.call (pool_some.mp hp) hmatch hvend hsize
      · refine T.keep (by simp [Event.on, Ne.symm hh]) fun q' hq' => ?_
        exact ⟨(List.getElem?_set_ne (Ne.symm hh)).symm.trans hq', Function.update_of_ne hh _ _,
          Function.update_of_ne hh _ _⟩
    | write =>
      obtain ⟨h', -, p, hp, b, hb, hl, hu⟩ := hok
      refine ⟨free, I.wrote (pool_some.mp hp) hb hl hu _, fun h q hm => ?_⟩
      obtain ⟨hlt, T⟩ := hall h q (by simpa using hm)
      exact ⟨hlt, T.keep rfl fun q' hq' => ⟨hq', rfl, rfl⟩⟩
    | @destroyed h' p hp =>
      refine ⟨free, I.destroyed (pool_some.mp hp), fun h q hm => ?_⟩
      obtain ⟨hlt, T⟩ := hall h q (by simpa using hm)
      refine ⟨by simpa using hlt, T.keep rfl fun q' hq' => ?_⟩
      have hh : h' ≠ h := by
        rintro rfl
        rw [List.getElem?_set_self hlt] at hq'
        cases hq'
      exact ⟨(List.getElem?_set_ne hh).symm.trans hq', rfl, rfl⟩

end

end Fleet

/-- Any number of pools, in any order of creations, calls, writes and destructions. The calls on
each handle, taken by themselves, are a run of a stack that starts with the first chunk of its pool
and knows nothing of the other pools; while the pool is there, the links in its slots spell out
that stack. The slots of different pools do not meet, and a block of one pool that is passed to
another one changes nothing. When no pool is left the heap is as it was. -/
theorem fleet_refines {B : Build} {w : World} {es : List Fleet.Event} {c : Fleet}
    (hrun : ((Fleet.lts B).guard (Fleet.Tolerated B)).Run (Fleet.start w) es c) :
    (∀ h p, .created h p ∈ es →
      ∃ ds v, List.Forall₂ (Client.Matches (slotStride B p.blockSize))
          (es.filterMap (Fleet.Event.on h)) ds ∧
        (Vending.lts Nat).Run ⟨slotsOf (slotStride B p.blockSize) p.backing p.blockCount, []⟩ ds v ∧
        ∀ q, c.pool h = some q → v.vended = c.held h ∧
          Chain (revealNext B c.world.mem) 0 q.head.ptr v.free ∧
          (v.free ++ v.vended).Perm (q.slots B)) ∧
    (∀ i j p q, i ≠ j → c.pool i = some p → c.pool j = some q →
      (∀ a ∈ p.slots B, ∀ b ∈ q.slots B,
        a + slotStride B p.blockSize ≤ b ∨ b + slotStride B q.blockSize ≤ a) ∧
      ∀ b ∈ c.held j, ∀ env, memoryPoolFree B env (some ⟨c.world, p⟩) b = some ⟨c.world, p⟩) ∧
    ((∀ p ∈ c.pools, p = none) → w.heap.Balanced c.world.heap) := by
  obtain ⟨free, I, htraced⟩ := Fleet.run_traced hrun
  refine ⟨fun h p hm => ?_, fun i j p q hij hp hq => ?_, I.balanced⟩
  · obtain ⟨-, ds, v, hA, hv, hnow⟩ := htraced h p hm
    refine ⟨ds, v, hA, hv, fun q hq => ?_⟩
    have hq := Fleet.pool_some.mp hq
    obtain ⟨-, rfl⟩ := hnow q hq
    obtain ⟨others, Iq⟩ := I.pool h q hq
    exact ⟨rfl, Iq.chain, Iq.parts⟩
  · have hp := Fleet.pool_some.mp hp
    have hq := Fleet.pool_some.mp hq
    obtain ⟨others, Ip⟩ := I.pool i p hp
    obtain ⟨others', Iq⟩ := I.pool j q hq
    have hapart : ∀ a ∈ p.slots B, ∀ b ∈ q.slots B,
        a + slotStride B p.blockSize ≤ b ∨ b + slotStride B q.blockSize ≤ a := fun a ha b hb =>
      Ip.layout.apart_slot Iq.layout
        (fun r hr => Fleet.apart_regions I.accounted hq hp (Ne.symm hij) hr) ha hb
    refine ⟨hapart, fun b hb env => memoryPoolFree_foreign Ip.layout (fun hslot => ?_) env⟩
    have hpos : 0 < slotStride B p.blockSize := Ip.layout.stride_pos
    have hpos' : 0 < slotStride B q.blockSize := Iq.layout.stride_pos
    rcases hapart b hslot b (Iq.held_slot hb) with h | h <;> omega

def thirdEnv : Env := ⟨some 0x3000, some 0x300, 0⟩

def otherPool : PoolStruct := ⟨0x300, 0x3000, ⟨0x3000, 0⟩, 32, 2, 16, [], 0, 0, false⟩

/-- A growing pool and a fixed one; a block of the first is passed to the second. -/
theorem fleet_refines_x64 : ∃ c : Fleet, World.start.heap.Balanced c.world.heap ∧
    ∃ ds v, List.Forall₂ (Client.Matches 32) [.alloc thirdEnv 0x3000 none, .free firstEnv 0x1000,
        .free firstEnv 0x3000] ds ∧
      (Vending.lts Nat).Run ⟨slotsOf 32 0x3000 2, []⟩ ds v := by
  have h : (Lts.script (Lts.only (Fleet.Tolerated (Build.x64 false .none))
        (Fleet.exec (Build.x64 false .none))) (Fleet.start World.start)
      [.create firstEnv firstCall, .create thirdEnv (.fixed 32 2), .alloc 0 firstEnv,
        .alloc 1 thirdEnv, .free 1 firstEnv 0x1000, .alloc 0 secondEnv, .write 0x1008 7,
        .destroy 0, .free 1 firstEnv 0x3000, .destroy 1]).map (fun r => (r.1, r.2.pools)) =
      some ([.created 0 firstPool, .created 1 otherPool, .call 0 (.alloc firstEnv 0x1000 none),
        .call 1 (.alloc thirdEnv 0x3000 none), .call 1 (.free firstEnv 0x1000),
        .call 0 (.alloc secondEnv 0x2000 (some ⟨0x200, 0x2000, 1⟩)), .write 0x1008 7,
        .destroyed 0, .call 1 (.free firstEnv 0x3000), .destroyed 1], [none, none]) := by
    decide +kernel
  obtain ⟨c, hrun, hpools⟩ := Lts.script_run (Lts.only_step Fleet.exec_step) Fleet.pools h
  obtain ⟨hstacks, -, hbalanced⟩ := fleet_refines hrun
  obtain ⟨ds, v, hA, hv, -⟩ := hstacks 1 otherPool (by simp)
  exact ⟨c, hbalanced (by rw [hpools]; simp), ds, v, hA, hv⟩

end MemoryPool
