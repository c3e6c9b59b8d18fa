import MemoryPool.Store

/-!
# MemoryPool.Loans

What is lent out of several pools and of the heap beside them.

A `Loan` is a request that was met: by a block of a pool, or by a region of the heap of its own.
`Store.Inv` accounts for everything: each pool has exactly its loans out, and the heap has exactly
the pools' regions, the loans' regions and what was there at the start.

* `Inv.step`, `Inv.beside`: what is left to show when one pool changes, or none.
* `Inv.create`, `Inv.tryAllocate`, `Inv.deallocate`, `Inv.operatorNew`, `Inv.operatorDelete`,
  `Inv.write`: the operations.
* `Inv.pairwise_apart`, `Inv.supplied`, `Inv.live`, `Inv.foreign`: what the invariant says of the
  loans.
* `Inv.lent`, `Inv.accepts`, `Inv.restored`: what it says of the operations.
* `Account`: the same for a user who finds the supplier of a loan again by computing it.
-/

namespace MemoryPool

open ByteMem LinkedList

inductive Source where
  | pool (index : Nat)
  | heap (kind : RegionKind)
  deriving DecidableEq

/-- The supplier is there, and what it has is large and aligned enough. -/
def Source.Suits (B : Build) (st : Store) (bytes alignment : Nat) : Source → Prop
  | .pool i => ∃ p, st.pools[i]? = some p ∧ bytes ≤ p.blockSize ∧ alignment ∣ B.poolAlignment
  | .heap _ => True

structure Loan where
  source : Source
  ptr : Nat
  bytes : Nat
  alignment : Nat
  deriving DecidableEq

namespace Loan

def block (l : Loan) (i : Nat) : Option Nat := if l.source = .pool i then some l.ptr else none

def region (l : Loan) : Option Region :=
  match l.source with
  | .pool _ => none
  | .heap kind => some ⟨kind, l.ptr, l.bytes⟩

/-- How many bytes the borrower may use. -/
def extent (st : Store) (l : Loan) : Nat :=
  match l.source with
  | .pool i => st.blockSize i
  | .heap _ => l.bytes

def Apart (st : Store) (l l' : Loan) : Prop :=
  l.ptr ≠ l'.ptr ∧ (l.ptr + l.extent st ≤ l'.ptr ∨ l'.ptr + l'.extent st ≤ l.ptr)

/-- The request suited the supplier, and the pointer suits the request. -/
structure Fits (B : Build) (st : Store) (l : Loan) : Prop where
  suits : l.source.Suits B st l.bytes l.alignment
  region : ∀ kind, l.source = .heap kind → l.ptr ≠ 0 ∧ l.alignment ∣ l.ptr

def blocksOf (loans : List Loan) (i : Nat) : List Nat := loans.filterMap fun l => l.block i

def regionsOf (loans : List Loan) : List Region := loans.filterMap Loan.region

theorem blocksOf_cons (l : Loan) (loans : List Loan) (i : Nat) :
    blocksOf (l :: loans) i = (l.block i).toList ++ blocksOf loans i := by
  simp only [blocksOf, List.filterMap_cons]
  cases l.block i <;> rfl

theorem regionsOf_cons (l : Loan) (loans : List Loan) :
    regionsOf (l :: loans) = l.region.toList ++ regionsOf loans := by
  simp only [regionsOf, List.filterMap_cons]
  cases l.region <;> rfl

end Loan

/-- A request is put to one supplier. -/
def Store.request (B : Build) (env : Env) (st : Store) (bytes alignment : Nat) :
    Source → Option Nat × Store
  | .pool i =>
    let (block, st) := st.tryAllocate B env i
    if block = 0 then (none, st) else (some block, st)
  | .heap kind => st.operatorNew B kind bytes alignment env.backing

/-- A loan goes back to its supplier. -/
def Store.giveBack (B : Build) (env : Env) (st : Store) (l : Loan) : Store :=
  match l.source with
  | .pool i => st.deallocate B env i l.ptr
  | .heap kind => st.operatorDelete kind l.ptr

/-- The loan is out in `st'` and is not in `st`; nothing else has changed hands. -/
structure Store.Lent (B : Build) (st st' : Store) (l : Loan) : Prop where
  live : ∀ i < st.pools.length, (st'.live B i).Perm ((l.block i).toList ++ st.live B i)
  foreign : (st'.foreign B).Perm (l.region.toList ++ st.foreign B)

/-- What the supplier can tell about a loan that comes back. -/
def Store.Accepts (B : Build) (st : Store) (l : Loan) : Prop :=
  match l.source with
  | .pool i => l.ptr ∈ st.live B i ∧ ∃ p, st.pools[i]? = some p ∧ isBlockInRange B p l.ptr = true
  | .heap kind => ⟨kind, l.ptr, l.bytes⟩ ∈ st.foreign B

theorem Loan.Apart.symm {st : Store} {a b : Loan} (h : a.Apart st b) : b.Apart st a :=
  ⟨h.1.symm, h.2.symm⟩

theorem Loan.Fits.mono {B : Build} {st st' : Store} {l : Loan} (h : l.Fits B st)
    (hg : st.Grew st') : l.Fits B st' := by
  refine ⟨?_, h.region⟩
  have hs := h.suits
  cases hl : l.source with
  | pool i =>
    rw [hl] at hs
    obtain ⟨p, hp, hb, ha⟩ := hs
    obtain ⟨chunks, p', hp', hgrown, -⟩ := hg i p hp
    exact ⟨p', hp', by rw [hgrown.blockSize]; exact hb, ha⟩
  | heap kind => trivial

/-! ## The invariant -/

namespace Store

structure Inv (B : Build) (w : World) (loans : List Loan) (st : Store) : Prop where
  pool : ∀ (i : Nat) (p : PoolStruct), st.pools[i]? = some p →
    ∃ others free, PoolInv B ⟨st.world, p⟩ others free (Loan.blocksOf loans i)
  accounted : st.world.heap.regions.Perm
    (st.pools.flatMap (PoolStruct.regions B) ++ (Loan.regionsOf loans ++ w.heap.regions))
  fits : ∀ l ∈ loans, l.Fits B st
  valid : st.world.heap.ledger.invalid = w.heap.ledger.invalid

theorem Inv.start (B : Build) (w : World) : Inv B w [] (start w) where
  pool _ _ h := by cases h
  accounted := .refl _
  fits _ h := by cases h
  valid := rfl

/-- The parts of two entries of a list have nothing in common if no part occurs twice. -/
theorem flatMap_apart {α β : Type*} {f : α → List β} {l : List α} (h : (l.flatMap f).Nodup)
    {i j : Nat} {a b : α} (ha : l[i]? = some a) (hb : l[j]? = some b) (hij : i ≠ j) {r : β}
    (hr : r ∈ f a) : r ∉ f b := by
  have hpw := (List.nodup_flatMap.mp h).2
  obtain ⟨hi, rfl⟩ := List.getElem?_eq_some_iff.mp ha
  obtain ⟨hj, rfl⟩ := List.getElem?_eq_some_iff.mp hb
  rcases Nat.lt_or_gt_of_ne hij with hlt | hlt
  · exact fun hr' => List.pairwise_iff_getElem.mp hpw i j hi hj hlt hr hr'
  · exact fun hr' => List.pairwise_iff_getElem.mp hpw j i hj hi hlt hr' hr

theorem flatMap_set {α β : Type*} {f : α → List β} {fresh : List β} {a b : α} :
    ∀ {l : List α} {i : Nat}, l[i]? = some a → (f b).Perm (fresh ++ f a) →
      ((l.set i b).flatMap f).Perm (fresh ++ l.flatMap f) := by
  intro l
  induction l with
  | nil => intro i h _; cases h
  | cons c l ih =>
    intro i h hf
    cases i with
    | zero =>
      obtain rfl : c = a := by simpa using h
      simp only [List.set_cons_zero, List.flatMap_cons]
      rw [← List.append_assoc]
      exact hf.append_right _
    | succ i =>
      simp only [List.set_cons_succ, List.flatMap_cons]
      refine ((ih h hf).append_left (f c)).trans ?_
      rw [← List.append_assoc, ← List.append_assoc]
      exact List.perm_append_comm.append_right _

section

variable {B : Build} {w : World} {loans loans' : List Loan} {st st' : Store}

theorem Inv.regions_apart (I : Inv B w loans st) {i j : Nat} {p q : PoolStruct}
    (hp : st.pools[i]? = some p) (hq : st.pools[j]? = some q) (hij : i ≠ j) {r : Region}
    (hr : r ∈ p.regions B) : r ∉ q.regions B := by
  have hnd := st.world.heap.regions_nodup
  rw [I.accounted.nodup_iff] at hnd
  exact flatMap_apart (List.nodup_append.mp hnd).1 hp hq hij hr

/-- What is left to show when one pool changes, or is new. -/
theorem Inv.step (I : Inv B w loans st) {j : Nat} {p : PoolStruct}
    (hp : st'.pools[j]? = some p)
    (hI : ∃ others free, PoolInv B ⟨st'.world, p⟩ others free (Loan.blocksOf loans' j))
    (hsame : ∀ (i : Nat) (q : PoolStruct), i ≠ j → st'.pools[i]? = some q →
      st.pools[i]? = some q ∧ Loan.blocksOf loans' i = Loan.blocksOf loans i)
    (hmem : ∀ x, p.Outside B x → st'.world.mem x = st.world.mem x)
    (hacc : st'.world.heap.regions.Perm
      (st'.pools.flatMap (PoolStruct.regions B) ++ (Loan.regionsOf loans' ++ w.heap.regions)))
    (hfits : ∀ l ∈ loans', l.Fits B st')
    (hvalid : st'.world.heap.ledger.invalid = w.heap.ledger.invalid) : Inv B w loans' st' where
  pool i q hq := by
    by_cases hij : i = j
    · subst hij
      obtain rfl : p = q := by rw [hp] at hq; simpa using hq
      exact hI
    · obtain ⟨hq', hheld⟩ := hsame i q hij hq
      obtain ⟨others, free, Iq⟩ := I.pool i q hq'
      obtain ⟨othersp, freep, Ip⟩ := hI
      have hnd := st'.world.heap.regions_nodup
      rw [hacc.nodup_iff] at hnd
      have hreg : ∀ r ∈ q.regions B, r ∈ st'.world.heap.regions := fun r hr =>
        hacc.mem_iff.mpr (List.mem_append_left _
          (List.mem_flatMap.mpr ⟨q, List.mem_of_getElem? hq, hr⟩))
      have hapart : ∀ r ∈ q.regions B, r ∉ p.regions B := fun r hr =>
        flatMap_apart (List.nodup_append.mp hnd).1 hq hp hij hr
      obtain ⟨others', L⟩ : ∃ others', Layout B ⟨st'.world, q⟩ others' :=
        Iq.layout.elsewhere rfl hreg
      have hslots : ∀ a ∈ q.slots B,
          SameOn st.world.mem st'.world.mem a (slotStride B q.blockSize) := by
        intro a ha x hl hu
        refine hmem x fun b hb => ?_
        have hap := Ip.layout.apart_slot L hapart hb ha
        omega
      obtain ⟨others'', I'⟩ : ∃ others'', PoolInv B ⟨st'.world, q⟩ others'' free _ :=
        Iq.elsewhere rfl hreg hslots
      rw [hheld]
      exact ⟨others'', free, I'⟩
  accounted := hacc
  fits := hfits
  valid := hvalid

/-- What is left to show when no pool changes. -/
theorem Inv.beside (I : Inv B w loans st) (hpools : st'.pools = st.pools)
    (hheld : ∀ i, Loan.blocksOf loans' i = Loan.blocksOf loans i)
    (hmem : ∀ (i : Nat) (p : PoolStruct), st.pools[i]? = some p → ∀ a ∈ p.slots B,
      SameOn st.world.mem st'.world.mem a (slotStride B p.blockSize))
    (hacc : st'.world.heap.regions.Perm
      (st.pools.flatMap (PoolStruct.regions B) ++ (Loan.regionsOf loans' ++ w.heap.regions)))
    (hfits : ∀ l ∈ loans', l.Fits B st')
    (hvalid : st'.world.heap.ledger.invalid = w.heap.ledger.invalid) : Inv B w loans' st' where
  pool i p hp := by
    rw [hpools] at hp
    obtain ⟨others, free, Ip⟩ := I.pool i p hp
    have hreg : ∀ r ∈ p.regions B, r ∈ st'.world.heap.regions := fun r hr =>
      hacc.mem_iff.mpr (List.mem_append_left _
        (List.mem_flatMap.mpr ⟨p, List.mem_of_getElem? hp, hr⟩))
    obtain ⟨others', I'⟩ : ∃ others', PoolInv B ⟨st'.world, p⟩ others' free _ :=
      Ip.elsewhere rfl hreg (hmem i p hp)
    rw [hheld]
    exact ⟨others', free, I'⟩
  accounted := by rw [hpools]; exact hacc
  fits := hfits
  valid := hvalid

/-! ## The operations -/

theorem Inv.perm (I : Inv B w loans st) (h : loans.Perm loans') : Inv B w loans' st where
  pool i p hp := by
    obtain ⟨others, free, Ip⟩ := I.pool i p hp
    exact ⟨others, free, Ip.perm_held (h.filterMap _)⟩
  accounted := I.accounted.trans (((h.filterMap _).append_right _).append_left _)
  fits l hl := I.fits l (h.mem_iff.mpr hl)
  valid := I.valid

theorem Inv.create (I : Inv B w loans st) {call : CreateCall} (hr : call.InRange B) (env : Env) :
    Inv B w loans (st.create B env call) ∧ st.Grew (st.create B env call) := by
  generalize hrun : call.run B env st.world = r
  obtain ⟨p, w'⟩ := r
  cases p with
  | none =>
    obtain ⟨heap, hl, rfl⟩ := CreateCall.run_none hrun
    simp only [Store.create, hrun]
    refine ⟨I.beside rfl (fun _ => rfl) (fun _ _ _ _ _ _ _ _ => rfl) ?_
      (fun l hl => (I.fits l hl).mono (.of_eq rfl)) (hl.2.trans I.valid), .of_eq rfl⟩
    rw [Heap.regions, hl.1]
    exact I.accounted
  | some p =>
    have C := CreateCall.created hr hrun
    obtain ⟨own, hlive, hown⟩ := C.inv.layout.owned
    have hg : st.Grew ⟨w', st.pools ++ [p]⟩ := .append rfl
    have hlast : (st.pools ++ [p])[st.pools.length]? = some p := by simp
    -- no loan is of a pool that did not exist
    have hnone : Loan.blocksOf loans st.pools.length = [] := by
      refine List.filterMap_eq_nil_iff.mpr fun l hl => ?_
      unfold Loan.block
      split
      · rename_i hs
        have hf := (I.fits l hl).suits
        rw [hs] at hf
        obtain ⟨q, hq, -⟩ := hf
        simp at hq
      · rfl
    have hinv := C.inv
    rw [← hnone] at hinv
    simp only [Store.create, hrun]
    refine ⟨I.step hlast ⟨_, _, hinv⟩ ?_ (fun x hx => CreateCall.run_outside hr hrun hx) ?_
      (fun l hl => (I.fits l hl).mono hg) (C.invalid.trans I.valid), hg⟩
    · intro i q hi hq
      refine ⟨?_, rfl⟩
      have hlen := (List.getElem?_eq_some_iff.mp hq).1
      rw [List.length_append, List.length_singleton] at hlen
      rwa [List.getElem?_append_left (by omega)] at hq
    · simp only [List.flatMap_append, List.flatMap_cons, List.flatMap_nil, List.append_nil]
      refine (hlive.map Prod.snd).trans ?_
      rw [List.map_append]
      refine (hown.append I.accounted).trans ?_
      rw [← List.append_assoc]
      exact List.perm_append_comm.append_right _

/-- A call of the core on one of the pools. -/
theorem Inv.called (I : Inv B w loans st) {i : Nat} {p : PoolStruct} (hp : st.pools[i]? = some p)
    {s : State} {chunks : List Chunk} {fresh : List Region}
    (hm : Moved B ⟨st.world, p⟩ s chunks fresh)
    (hI : ∃ others free, PoolInv B s others free (Loan.blocksOf loans' i))
    (hout : ∀ x, s.pool.Outside B x → s.mem x = st.world.mem x)
    (hsame : ∀ j, j ≠ i → Loan.blocksOf loans' j = Loan.blocksOf loans j)
    (hreg : Loan.regionsOf loans' = Loan.regionsOf loans)
    (hfits : ∀ l ∈ loans', l.Fits B (st.put i (some s))) :
    Inv B w loans' (st.put i (some s)) := by
  have hlen := (List.getElem?_eq_some_iff.mp hp).1
  refine I.step (List.getElem?_set_self hlen) hI ?_ hout ?_ hfits (hm.invalid.trans I.valid)
  · intro j q hj hq
    exact ⟨(List.getElem?_set_ne (Ne.symm hj)).symm.trans hq, hsame j hj⟩
  · rw [hreg]
    refine (hm.heap.trans (I.accounted.append_left fresh)).trans ?_
    rw [← List.append_assoc]
    exact (flatMap_set hp hm.regions).symm.append_right _

theorem tryAllocate_eq {i : Nat} {p : PoolStruct} (hp : st.pools[i]? = some p) (env : Env) :
    st.tryAllocate B env i =
      ((popHead B env ⟨st.world, p⟩).1, st.put i (some (popHead B env ⟨st.world, p⟩).2)) := by
  rw [tryAllocate, state_eq hp]
  rfl

theorem put_self {i : Nat} {p : PoolStruct} (hp : st.pools[i]? = some p) (world : World) :
    st.put i (some ⟨world, p⟩) = ⟨world, st.pools⟩ := by
  obtain ⟨hi, rfl⟩ := List.getElem?_eq_some_iff.mp hp
  simp only [put, List.set_getElem_self]

theorem blocksOf_self {l : Loan} {i : Nat} (h : l.source = .pool i) :
    Loan.blocksOf (l :: loans) i = l.ptr :: Loan.blocksOf loans i := by
  simp [Loan.blocksOf_cons, Loan.block, h]

theorem blocksOf_other {l : Loan} {i : Nat} (h : l.source ≠ .pool i) :
    Loan.blocksOf (l :: loans) i = Loan.blocksOf loans i := by
  simp [Loan.blocksOf_cons, Loan.block, h]

theorem regionsOf_pool {l : Loan} {i : Nat} (h : l.source = .pool i) :
    Loan.regionsOf (l :: loans) = Loan.regionsOf loans := by
  simp [Loan.regionsOf_cons, Loan.region, h]

theorem regionsOf_heap {l : Loan} {kind : RegionKind} (h : l.source = .heap kind) :
    Loan.regionsOf (l :: loans) = ⟨kind, l.ptr, l.bytes⟩ :: Loan.regionsOf loans := by
  simp [Loan.regionsOf_cons, Loan.region, h]

/-- `try_allocate` fails and changes nothing, or there is a block more out. -/
theorem Inv.tryAllocate (I : Inv B w loans st) {i : Nat} {p : PoolStruct}
    (hp : st.pools[i]? = some p) (env : Env) :
    st.Grew (st.tryAllocate B env i).2 ∧
    (((st.tryAllocate B env i).1 = 0 ∧ st.Unchanged (st.tryAllocate B env i).2 ∧
        Inv B w loans (st.tryAllocate B env i).2) ∨
      ((st.tryAllocate B env i).1 ≠ 0 ∧ ∀ bytes alignment, bytes ≤ p.blockSize →
        alignment ∣ B.poolAlignment →
        Inv B w (⟨.pool i, (st.tryAllocate B env i).1, bytes, alignment⟩ :: loans)
          (st.tryAllocate B env i).2)) := by
  obtain ⟨others, free, Ip⟩ := I.pool i p hp
  obtain ⟨chunks, fresh, hm⟩ := popHead_moved B env ⟨st.world, p⟩
  have hres := popHead_result Ip env
  rw [tryAllocate_eq hp]
  generalize popHead B env ⟨st.world, p⟩ = r at hm hres
  obtain ⟨free', hinv⟩ := hres.inv Ip
  have hg : st.Grew (st.put i (some r.2)) := .put hp hm.pool hm.fixed
  refine ⟨hg, ?_⟩
  by_cases h0 : r.1 = 0
  · rw [if_pos h0] at hinv
    refine Or.inl ⟨h0, ?_, I.called hp hm ⟨_, _, hinv⟩ (fun x hx => hres.outside Ip hx)
      (fun _ _ => rfl) rfl fun l hl => (I.fits l hl).mono hg⟩
    cases hres with
    | vend tag => exact absurd h0 Ip.head_eq.2
    | @fail heap hl =>
      have hpools := congrArg Store.pools (put_self hp { st.world with heap := heap })
      exact ⟨hpools, rfl, rfl, hl⟩
    | grow tag hgrown _ => exact absurd h0 hgrown.nonnull
  · rw [if_neg h0] at hinv
    refine Or.inr ⟨h0, fun bytes alignment hb ha => ?_⟩
    refine I.called hp hm ⟨others, free', ?_⟩ (fun x hx => hres.outside Ip hx) ?_ ?_ ?_
    · rw [blocksOf_self rfl]
      exact hinv
    · intro j hj
      exact blocksOf_other (by simpa using Ne.symm hj)
    · exact regionsOf_pool rfl
    · intro l hl
      rcases List.mem_cons.mp hl with rfl | hl
      · obtain ⟨chunks', p', hp', hgrown, -⟩ := hg i p hp
        exact ⟨⟨p', hp', by rw [hgrown.blockSize]; exact hb, ha⟩, fun kind h => by cases h⟩
      · exact (I.fits l hl).mono hg

/-- The pool accepts a block that is out, and has it back. -/
theorem Inv.deallocate {l : Loan} (I : Inv B w (l :: loans) st) {i : Nat}
    (hl : l.source = .pool i) (env : Env) :
    Inv B w loans (st.deallocate B env i l.ptr) ∧ st.Grew (st.deallocate B env i l.ptr) ∧
      ∃ p, st.pools[i]? = some p ∧ isBlockInRange B p l.ptr = true := by
  have hf := (I.fits l (List.mem_cons_self ..)).suits
  rw [hl] at hf
  obtain ⟨p, hp, -, -⟩ := hf
  obtain ⟨others, free, Ip⟩ := I.pool i p hp
  rw [blocksOf_self hl] at Ip
  have hslot := Ip.held_slot (List.mem_cons_self ..)
  have hfree : Pool.deallocate B env (some ⟨st.world, p⟩) l.ptr =
      some (pushHead B env ⟨st.world, p⟩ l.ptr) := memoryPoolFree_slot Ip.layout hslot env
  obtain ⟨h1, h2⟩ := pushHead_frame B env ⟨st.world, p⟩ l.ptr
  have hm : Moved B ⟨st.world, p⟩ (pushHead B env ⟨st.world, p⟩ l.ptr) [] [] :=
    .same h2 ⟨congrArg (·.ledger.live) h1, congrArg (·.ledger.invalid) h1⟩
  have hg := Grew.put hp hm.pool hm.fixed
  obtain ⟨tag, htag⟩ := pushHead_held Ip (List.mem_cons_self ..) env
  have hinv := Ip.takeBack (List.mem_cons_self ..) tag
  rw [List.erase_cons_head] at hinv
  rw [Store.deallocate, state_eq hp, hfree]
  refine ⟨I.called hp hm ⟨others, l.ptr :: free, ?_⟩ ?_ ?_ ?_ ?_, hg, p, hp,
    Ip.layout.isBlockInRange_iff.mpr hslot⟩
  · rw [htag]
    exact hinv
  · intro x hx
    rw [htag] at hx ⊢
    exact takeBack_outside Ip.layout hslot tag hx
  · intro j hj
    exact (blocksOf_other (by rw [hl]; simpa using Ne.symm hj)).symm
  · exact (regionsOf_pool hl).symm
  · intro l' hl'
    exact (I.fits l' (List.mem_cons_of_mem _ hl')).mono hg

/-- A request to the heap fails and changes nothing, or is met by a region of its own. -/
theorem Inv.operatorNew (I : Inv B w loans st) (kind : RegionKind) (bytes alignment : Nat)
    (answer : Option Nat) :
    st.operatorNew B kind bytes alignment answer = (none, st) ∨
    ∃ ptr world, st.operatorNew B kind bytes alignment answer = (some ptr, ⟨world, st.pools⟩) ∧
      world.mem = st.world.mem ∧ world.reports = st.world.reports ∧
      Inv B w (⟨.heap kind, ptr, bytes, alignment⟩ :: loans) ⟨world, st.pools⟩ := by
  rcases World.operatorNew_cases B st.world kind bytes alignment answer with he | ⟨ptr, ha, he⟩
  · left
    rw [Store.operatorNew, he]
  · right
    refine ⟨ptr, { st.world with heap := st.world.heap.obtain _ ha.fresh }, ?_, rfl, rfl, ?_⟩
    · rw [Store.operatorNew, he]
    refine I.beside rfl (fun i => blocksOf_other (by simp)) (fun _ _ _ _ _ _ _ _ => rfl) ?_ ?_
      I.valid
    · rw [regionsOf_heap rfl]
      exact (I.accounted.cons _).trans List.perm_middle.symm
    · intro l hl
      rcases List.mem_cons.mp hl with rfl | hl
      · exact ⟨trivial, fun _ _ => ⟨ha.nonnull, Nat.dvd_of_mod_eq_zero ha.aligned⟩⟩
      · exact (I.fits l hl).mono (.of_eq rfl)

/-- The heap accepts a region that is out, and has it back. -/
theorem Inv.operatorDelete {l : Loan} (I : Inv B w (l :: loans) st) {kind : RegionKind}
    (hl : l.source = .heap kind) : Inv B w loans (st.operatorDelete kind l.ptr) := by
  have hacc := I.accounted
  rw [regionsOf_heap hl] at hacc
  have hacc' := hacc.trans List.perm_middle
  obtain ⟨e, he, her⟩ := List.mem_map.mp (hacc'.mem_iff.mpr (List.mem_cons_self ..))
  have hlive := List.perm_cons_erase he
  obtain ⟨h1, h2⟩ := Heap.release_spec hlive
  rw [her] at h1 h2
  refine I.beside rfl (fun i => (blocksOf_other (by simp [hl])).symm)
    (fun _ _ _ _ _ _ _ _ => rfl) ?_ (fun l' hl' => ?_) (h2.trans I.valid)
  · refine (h1.map Prod.snd).trans ((List.perm_cons e.2).mp ?_)
    refine (hlive.map Prod.snd).symm.trans ?_
    rw [her]
    exact hacc'
  · exact (I.fits l' (List.mem_cons_of_mem _ hl')).mono (.of_eq rfl)

theorem Inv.request (I : Inv B w loans st) {source : Source} {bytes alignment : Nat}
    (hs : source.Suits B st bytes alignment) (env : Env) :
    st.Grew (st.request B env bytes alignment source).2 ∧
    (((st.request B env bytes alignment source).1 = none ∧
        st.Unchanged (st.request B env bytes alignment source).2 ∧
        Inv B w loans (st.request B env bytes alignment source).2) ∨
      ∃ ptr, (st.request B env bytes alignment source).1 = some ptr ∧
        Inv B w (⟨source, ptr, bytes, alignment⟩ :: loans)
          (st.request B env bytes alignment source).2) := by
  cases source with
  | pool i =>
    obtain ⟨p, hp, hb, ha⟩ := hs
    obtain ⟨hg, ⟨h0, hun, hinv⟩ | ⟨h0, hinv⟩⟩ := I.tryAllocate hp env
    · simp only [Store.request, if_pos h0]
      exact ⟨hg, Or.inl ⟨trivial, hun, hinv⟩⟩
    · simp only [Store.request, if_neg h0]
      exact ⟨hg, Or.inr ⟨_, rfl, hinv bytes alignment hb ha⟩⟩
  | heap kind =>
    simp only [Store.request]
    rcases I.operatorNew kind bytes alignment env.backing with he | ⟨ptr, world, he, -, -, hinv⟩
    · rw [he]
      exact ⟨.of_eq rfl, Or.inl ⟨rfl, .refl st, I⟩⟩
    · rw [he]
      exact ⟨.of_eq rfl, Or.inr ⟨ptr, rfl, hinv⟩⟩

theorem giveBack_length (B : Build) (env : Env) (st : Store) (l : Loan) :
    (st.giveBack B env l).pools.length = st.pools.length := by
  unfold Store.giveBack
  split
  · unfold Store.deallocate Store.put
    split
    · rfl
    · exact List.length_set
  · rfl

theorem Inv.giveBack {l : Loan} (I : Inv B w (l :: loans) st) (env : Env) :
    Inv B w loans (st.giveBack B env l) ∧ st.Grew (st.giveBack B env l) := by
  unfold Store.giveBack
  cases hs : l.source with
  | pool i =>
    obtain ⟨hinv, hg, -⟩ := I.deallocate hs env
    exact ⟨hinv, hg⟩
  | heap kind => exact ⟨I.operatorDelete hs, .of_eq rfl⟩

/-! ## What the invariant says of the loans -/

theorem Inv.region_mem (I : Inv B w loans st) {l : Loan} (hl : l ∈ loans) {kind : RegionKind}
    (hs : l.source = .heap kind) :
    (⟨kind, l.ptr, l.bytes⟩ : Region) ∈ st.world.heap.regions ∧
      ∀ (i : Nat) (p : PoolStruct), st.pools[i]? = some p →
        ⟨kind, l.ptr, l.bytes⟩ ∉ p.regions B := by
  have hmem : (⟨kind, l.ptr, l.bytes⟩ : Region) ∈ Loan.regionsOf loans :=
    List.mem_filterMap.mpr ⟨l, hl, by simp [Loan.region, hs]⟩
  have hnd := st.world.heap.regions_nodup
  rw [I.accounted.nodup_iff] at hnd
  refine ⟨I.accounted.mem_iff.mpr (List.mem_append_right _ (List.mem_append_left _ hmem)), ?_⟩
  intro i p hp hr
  exact (List.nodup_append.mp hnd).2.2 _ (List.mem_flatMap.mpr ⟨p, List.mem_of_getElem? hp, hr⟩)
    _ (List.mem_append_left _ hmem) rfl

theorem Inv.block_mem (I : Inv B w loans st) {l : Loan} (hl : l ∈ loans) {i : Nat}
    (hs : l.source = .pool i) :
    ∃ p others free, st.pools[i]? = some p ∧ l.bytes ≤ p.blockSize ∧
      l.alignment ∣ B.poolAlignment ∧ l.ptr ∈ p.slots B ∧
      PoolInv B ⟨st.world, p⟩ others free (Loan.blocksOf loans i) := by
  have hf := (I.fits l hl).suits
  rw [hs] at hf
  obtain ⟨p, hp, hb, ha⟩ := hf
  obtain ⟨others, free, Ip⟩ := I.pool i p hp
  exact ⟨p, others, free, hp, hb, ha,
    Ip.held_slot (List.mem_filterMap.mpr ⟨l, hl, by simp [Loan.block, hs]⟩), Ip⟩

theorem Inv.apart_pool_heap (I : Inv B w loans st) {a b : Loan} (ha : a ∈ loans) (hb : b ∈ loans)
    {i : Nat} {kind : RegionKind} (hi : a.source = .pool i) (hk : b.source = .heap kind) :
    a.Apart st b := by
  obtain ⟨p, others, free, hp, -, -, hslot, Ip⟩ := I.block_mem ha hi
  obtain ⟨hr, hn⟩ := I.region_mem hb hk
  obtain ⟨hne, hap⟩ := Ip.layout.apart_region hr (hn i p hp) hslot
  have hle : p.blockSize ≤ slotStride B p.blockSize := Ip.layout.stride_ge
  simp only [] at hne hap
  simp only [Loan.Apart, Loan.extent, hi, hk, blockSize_eq hp]
  omega

/-- Two loans have no byte in common. -/
theorem Inv.apart {a b : Loan} (I : Inv B w (a :: b :: loans) st) : a.Apart st b := by
  have ha : a ∈ a :: b :: loans := List.mem_cons_self ..
  have hb : b ∈ a :: b :: loans := List.mem_cons_of_mem _ (List.mem_cons_self ..)
  cases hsa : a.source with
  | pool i =>
    cases hsb : b.source with
    | pool j =>
      obtain ⟨p, others, free, hp, -, -, hslot, Ip⟩ := I.block_mem ha hsa
      obtain ⟨q, others', free', hq, -, -, hslot', Iq⟩ := I.block_mem hb hsb
      have hp0 : p.blockSize ≤ slotStride B p.blockSize := Ip.layout.stride_ge
      have hq0 : q.blockSize ≤ slotStride B q.blockSize := Iq.layout.stride_ge
      have hp1 : 0 < slotStride B p.blockSize := Ip.layout.stride_pos
      have hq1 : 0 < slotStride B q.blockSize := Iq.layout.stride_pos
      by_cases hij : i = j
      · subst hij
        obtain rfl : p = q := by rw [hp] at hq; simpa using hq
        have hnd := (List.nodup_append.mp Ip.nodup).2.1
        rw [blocksOf_self hsa, blocksOf_self hsb] at hnd
        have hne : a.ptr ≠ b.ptr := by
          intro he
          exact (List.nodup_cons.mp hnd).1 (by simp [he])
        have hap := Ip.layout.slots_apart hslot hslot' hne
        simp only [] at hap
        simp only [Loan.Apart, Loan.extent, hsa, hsb, blockSize_eq hp]
        omega
      · have hap := Ip.layout.apart_slot Iq.layout
          (fun r hr => I.regions_apart hq hp (Ne.symm hij) hr) hslot hslot'
        simp only [Loan.Apart, Loan.extent, hsa, hsb, blockSize_eq hp, blockSize_eq hq]
        omega
    | heap kind => exact I.apart_pool_heap ha hb hsa hsb
  | heap kind =>
    cases hsb : b.source with
    | pool j => exact (I.apart_pool_heap hb ha hsb hsa).symm
    | heap kind' =>
      have hnd := st.world.heap.regions_nodup
      rw [I.accounted.nodup_iff, regionsOf_heap hsa, regionsOf_heap hsb] at hnd
      have hnd' := (List.nodup_append.mp (List.nodup_append.mp hnd).2.1).1
      have hne : (⟨kind, a.ptr, a.bytes⟩ : Region) ≠ ⟨kind', b.ptr, b.bytes⟩ := by
        intro he
        exact (List.nodup_cons.mp hnd').1 (by simp [he])
      have hap := st.world.heap.apart_of (I.region_mem ha hsa).1 (I.region_mem hb hsb).1 hne
      simp only [Region.Apart] at hap
      simp only [Loan.Apart, Loan.extent, hsa, hsb]
      exact hap

theorem Inv.pairwise_apart (I : Inv B w loans st) : loans.Pairwise (Loan.Apart st) := by
  refine List.pairwise_iff_forall_sublist.mpr fun {a b} hsub => ?_
  obtain ⟨rest, hp⟩ := hsub.exists_perm_append
  exact (I.perm hp).apart

/-- Every loan is as large as requested and as aligned, inside a region that is outstanding. -/
structure Supplied (st : Store) (l : Loan) : Prop where
  nonnull : l.ptr ≠ 0
  aligned : l.alignment ∣ l.ptr
  large : l.bytes ≤ l.extent st
  backed : ∃ r ∈ st.world.heap.regions, r.base ≤ l.ptr ∧ l.ptr + l.extent st ≤ r.base + r.bytes

theorem Inv.supplied (I : Inv B w loans st) {l : Loan} (hl : l ∈ loans) : Supplied st l := by
  cases hs : l.source with
  | pool i =>
    obtain ⟨p, others, free, hp, hb, ha, hslot, Ip⟩ := I.block_mem hl hs
    obtain ⟨hne, hal, -⟩ := Ip.layout.slot_spec hslot
    obtain ⟨c, hc, hlc⟩ := (Layout.mem_slots (s := ⟨st.world, p⟩)).mp hslot
    have hin := slotsOf_inside hlc
    have hle : p.blockSize ≤ slotStride B p.blockSize := Ip.layout.stride_ge
    have hext : l.extent st = p.blockSize := by simp only [Loan.extent, hs, blockSize_eq hp]
    have hr := Ip.layout.regions_live (Layout.chunk_region (B := B) (s := ⟨st.world, p⟩) hc)
    refine ⟨hne, ha.trans hal, by omega, _, hr, hin.1, ?_⟩
    simp only [] at hin ⊢
    omega
  | heap kind =>
    obtain ⟨hne, hal⟩ := (I.fits l hl).region kind hs
    have hext : l.extent st = l.bytes := by simp only [Loan.extent, hs]
    refine ⟨hne, hal, by omega, _, (I.region_mem hl hs).1, le_refl _, ?_⟩
    simp only []
    omega

theorem Inv.live (I : Inv B w loans st) {i : Nat} (hi : i < st.pools.length) :
    (st.live B i).Perm (Loan.blocksOf loans i) := by
  have hp := List.getElem?_eq_getElem hi
  obtain ⟨others, free, Ip⟩ := I.pool i _ hp
  rw [Store.live, state_eq hp]
  exact Ip.liveBlocks

theorem Inv.foreign (I : Inv B w loans st) :
    (st.foreign B).Perm (Loan.regionsOf loans ++ w.heap.regions) := by
  have hnd := st.world.heap.regions_nodup
  rw [I.accounted.nodup_iff] at hnd
  obtain ⟨-, hnd2, hap⟩ := List.nodup_append.mp hnd
  refine (I.accounted.filter _).trans ?_
  rw [List.filter_append, List.filter_eq_nil_iff.mpr, List.nil_append, List.filter_eq_self.mpr]
  · intro r hr
    simp only [decide_eq_true_eq]
    exact fun hr' => hap r hr' r hr rfl
  · intro r hr
    simpa using hr

theorem Inv.lent {l : Loan} (I : Inv B w loans st) (I' : Inv B w (l :: loans) st')
    (hlen : st.pools.length ≤ st'.pools.length) : st.Lent B st' l where
  live i hi := by
    have h := I'.live (show i < st'.pools.length by omega)
    rw [Loan.blocksOf_cons] at h
    exact h.trans ((I.live hi).symm.append_left _)
  foreign := by
    have h := I'.foreign
    rw [Loan.regionsOf_cons, List.append_assoc] at h
    exact h.trans (I.foreign.symm.append_left _)

theorem Inv.accepts (I : Inv B w loans st) {l : Loan} (hl : l ∈ loans) : st.Accepts B l := by
  unfold Store.Accepts
  cases hs : l.source with
  | pool i =>
    obtain ⟨p, others, free, hp, -, -, hslot, Ip⟩ := I.block_mem hl hs
    refine ⟨(I.live (List.getElem?_eq_some_iff.mp hp).1).mem_iff.mpr ?_, p, hp,
      Ip.layout.isBlockInRange_iff.mpr hslot⟩
    exact List.mem_filterMap.mpr ⟨l, hl, by simp [Loan.block, hs]⟩
  | heap kind =>
    refine I.foreign.mem_iff.mpr (List.mem_append_left _ ?_)
    exact List.mem_filterMap.mpr ⟨l, hl, by simp [Loan.region, hs]⟩

/-- With the same loans out, only the pools have changed, and they by the chunks they have linked
meanwhile. -/
structure Restored (B : Build) (st st' : Store) : Prop where
  live : ∀ i < st.pools.length, (st'.live B i).Perm (st.live B i)
  foreign : (st'.foreign B).Perm (st.foreign B)
  pools : st.Grew st'
  fixed : st'.pools.length = st.pools.length → (∀ p ∈ st.pools, p.growFactor < 2) →
    st'.world.heap.regions.Perm st.world.heap.regions

theorem Inv.restored (I : Inv B w loans st) (I' : Inv B w loans' st') (hg : st.Grew st')
    (h : loans'.Perm loans) : Restored B st st' where
  live i hi := by
    have hlen := hg.length_le
    exact (I'.live (by omega)).trans ((h.filterMap _).trans (I.live hi).symm)
  foreign := I'.foreign.trans (((h.filterMap _).append_right _).trans I.foreign.symm)
  pools := hg
  fixed hlen hf := by
    have hacc := I'.accounted
    rw [hg.fixed hlen hf B] at hacc
    exact hacc.trans ((((h.filterMap _).append_right _).append_left _).trans I.accounted.symm)

/-- The borrower writes into what it has. -/
theorem Inv.write (I : Inv B w loans st) {l : Loan} (hl : l ∈ loans) {addr : Nat}
    (hlo : l.ptr ≤ addr) (hhi : addr < l.ptr + l.bytes) (byte : UInt8) :
    Inv B w loans (st.write addr byte) := by
  cases hs : l.source with
  | pool i =>
    obtain ⟨p, others, free, hp, hb, -, hslot, Ip⟩ := I.block_mem hl hs
    have hheld : l.ptr ∈ Loan.blocksOf loans i :=
      List.mem_filterMap.mpr ⟨l, hl, by simp [Loan.block, hs]⟩
    have hle : p.blockSize ≤ slotStride B p.blockSize := Ip.layout.stride_ge
    have hput : st.put i (some ⟨(st.write addr byte).world, p⟩) = st.write addr byte :=
      put_self hp (st.write addr byte).world
    have hwrite : PoolInv B ⟨(st.write addr byte).world, p⟩ others free (Loan.blocksOf loans i) :=
      Ip.write hheld hlo (by simp only []; omega)
    rw [← hput]
    refine I.called hp (.same rfl ⟨rfl, rfl⟩) ⟨others, free, hwrite⟩ (fun x hx => ?_)
      (fun _ _ => rfl) rfl fun l' hl' => (I.fits l' hl').mono ?_
    · have hx' : x < l.ptr ∨ l.ptr + slotStride B p.blockSize ≤ x := hx l.ptr hslot
      exact set_other (by omega)
    · rw [hput]
      exact .of_eq rfl
  | heap kind =>
    obtain ⟨hr, hn⟩ := I.region_mem hl hs
    refine I.beside rfl (fun _ => rfl) ?_ I.accounted
      (fun l' hl' => (I.fits l' hl').mono (.of_eq rfl)) I.valid
    intro i p hp a ha x hxl hxu
    obtain ⟨others, free, Ip⟩ := I.pool i p hp
    have hap := (Ip.layout.apart_region hr (hn i p hp) ha).2
    simp only [] at hap
    exact set_other (by omega)

end

/-! ## A user of the pools -/

/-- What a user has out, under entries of its own. The pools may change meanwhile, but not which
loan an entry stands for. -/
structure Account {α : Type*} (B : Build) (w : World) (loan : Store → α → Loan) (out : List α)
    (st : Store) : Prop where
  inv : Inv B w (out.map (loan st)) st
  stable : ∀ x ∈ out, ∀ st' : Store, st.Grew st' → loan st' x = loan st x

namespace Account

variable {α : Type*} {B : Build} {w : World} {loan : Store → α → Loan} {out out' : List α}
  {st st' : Store} {x : α}

theorem start (B : Build) (w : World) (loan : Store → α → Loan) :
    Account B w loan [] (Store.start w) where
  inv := Inv.start B w
  stable _ h := by cases h

/-- The loans of the new state are those the operation leaves out. -/
theorem next (hg : st.Grew st')
    (hs : ∀ x ∈ out, ∀ st'' : Store, st.Grew st'' → loan st'' x = loan st x)
    (hinv : Inv B w (out.map (loan st)) st') : Account B w loan out st' where
  inv := by
    rw [List.map_congr_left fun x hx => hs x hx st' hg]
    exact hinv
  stable x hx st'' h := (hs x hx st'' (hg.trans h)).trans (hs x hx st' hg).symm

theorem create (A : Account B w loan out st) {call : CreateCall} (hr : call.InRange B)
    (env : Env) :
    Account B w loan out (st.create B env call) ∧ st.Grew (st.create B env call) := by
  obtain ⟨hinv, hg⟩ := A.inv.create hr env
  exact ⟨next hg A.stable hinv, hg⟩

theorem write (A : Account B w loan out st) (hx : x ∈ out) {addr : Nat}
    (hlo : (loan st x).ptr ≤ addr) (hhi : addr < (loan st x).ptr + (loan st x).bytes)
    (byte : UInt8) : Account B w loan out (st.write addr byte) := by
  have hg : st.Grew (st.write addr byte) := .of_eq rfl
  exact next hg A.stable (A.inv.write (List.mem_map_of_mem hx) hlo hhi byte)

theorem request (A : Account B w loan out st) {source : Source} {bytes alignment : Nat}
    (hs : source.Suits B st bytes alignment) (entry : Nat → α)
    (hentry : ∀ ptr (st' : Store), st.Grew st' →
      loan st' (entry ptr) = ⟨source, ptr, bytes, alignment⟩) (env : Env) :
    st.Grew (st.request B env bytes alignment source).2 ∧
    (((st.request B env bytes alignment source).1 = none ∧
        st.Unchanged (st.request B env bytes alignment source).2 ∧
        Account B w loan out (st.request B env bytes alignment source).2) ∨
      ∃ ptr, (st.request B env bytes alignment source).1 = some ptr ∧
        st.Lent B (st.request B env bytes alignment source).2 (loan st (entry ptr)) ∧
        Account B w loan (entry ptr :: out) (st.request B env bytes alignment source).2) := by
  obtain ⟨hg, ⟨h0, hun, hinv⟩ | ⟨ptr, hp, hinv⟩⟩ := A.inv.request hs env
  · exact ⟨hg, Or.inl ⟨h0, hun, next hg A.stable hinv⟩⟩
  · rw [← hentry ptr st (.of_eq rfl)] at hinv
    refine ⟨hg, Or.inr ⟨ptr, hp, A.inv.lent hinv hg.length_le, next hg ?_ hinv⟩⟩
    intro x hx st'' h
    rcases List.mem_cons.mp hx with rfl | hx
    · rw [hentry ptr st'' h, hentry ptr st (.of_eq rfl)]
    · exact A.stable x hx st'' h

theorem giveBack (A : Account B w loan out st) {rest : List α} (hp : out.Perm (x :: rest))
    (env : Env) :
    Account B w loan rest (st.giveBack B env (loan st x)) ∧
      st.Grew (st.giveBack B env (loan st x)) ∧ st.Accepts B (loan st x) ∧
      (st.giveBack B env (loan st x)).Lent B st (loan st x) := by
  have I : Inv B w (loan st x :: rest.map (loan st)) st := A.inv.perm (hp.map _)
  obtain ⟨hinv, hg⟩ := I.giveBack env
  refine ⟨next hg (fun y hy => ?_) hinv, hg, I.accepts (List.mem_cons_self ..),
    hinv.lent I (giveBack_length B env st _).le⟩
  exact A.stable y (hp.mem_iff.mpr (List.mem_cons_of_mem _ hy))

theorem supplied (A : Account B w loan out st) (hx : x ∈ out) : Supplied st (loan st x) :=
  A.inv.supplied (List.mem_map_of_mem hx)

theorem restored (A : Account B w loan out st) (A' : Account B w loan out' st')
    (hg : st.Grew st') (h : out'.Perm out) : Restored B st st' := by
  refine A.inv.restored A'.inv hg ?_
  rw [List.map_congr_left fun x hx => A.stable x (h.mem_iff.mp hx) st' hg]
  exact h.map _

end Account

end Store

end MemoryPool
