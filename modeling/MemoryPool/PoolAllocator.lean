import MemoryPool.Lib.Lts
import MemoryPool.Loans

/-!
# MemoryPool.PoolAllocator

`PoolAllocator<T>`, the allocator of standard containers over a pool. Which side a request goes to
is computed anew when it is released; there is no record of where a pointer came from.

* `PoolAllocator.allocate_account`, `PoolAllocator.deallocate_eq`: one call.
* `PoolAllocator.Program`: containers that use any number of allocators, copies and rebinds.
* `allocator_paths`: every run.
-/

namespace MemoryPool

/-- What the allocator knows of `T`. -/
structure ElementType where
  size : Nat
  alignLog : Nat
  size_pos : 0 < size
  deriving DecidableEq

/-- `alignof(T)`. -/
def ElementType.alignment (type : ElementType) : Nat := 2 ^ type.alignLog

/-- `PoolAllocator<T>`: the number of its pool, and `T`. -/
structure PoolAllocator where
  pool : Nat
  type : ElementType
  deriving DecidableEq

namespace PoolAllocator

/-- `PoolAllocator(const PoolAllocator<U>&)`; a copy when the types are the same. -/
def rebind (other : PoolAllocator) (type : ElementType) : PoolAllocator := ⟨other.pool, type⟩

/-- `operator==`. -/
def equal (a rhs : PoolAllocator) : Bool := a.pool = rhs.pool

def routesToPool (B : Build) (st : Store) (a : PoolAllocator) (n : Nat) : Bool :=
  n = 1 && (a.type.size ≤ st.blockSize a.pool && a.type.alignment ≤ B.poolAlignment)

/-- `none` is `std::bad_alloc` thrown. The request is the call's first. -/
def allocateFallback (B : Build) (env : Env) (st : Store) (type : ElementType) (n : Nat) :
    Option Nat × Store :=
  if B.sizeMax / type.size < n then (none, st)
  else
    let bytes := B.mul n type.size
    st.operatorNew B (.aligned type.alignment) bytes type.alignment env.backing

def deallocateFallback (st : Store) (type : ElementType) (ptr : Nat) : Store :=
  st.operatorDelete (.aligned type.alignment) ptr

def allocate (B : Build) (env : Env) (st : Store) (a : PoolAllocator) (n : Nat) :
    Option Nat × Store :=
  if a.routesToPool B st n then
    let (block, st) := st.tryAllocate B env a.pool
    if block = 0 then (none, st) else (some block, st)
  else allocateFallback B env st a.type n

def deallocate (B : Build) (env : Env) (st : Store) (a : PoolAllocator) (ptr n : Nat) : Store :=
  if a.routesToPool B st n then st.deallocate B env a.pool ptr
  else deallocateFallback st a.type ptr

/-- What a container was given by `allocate(n)` and has not given back. -/
structure Allocation where
  allocator : PoolAllocator
  n : Nat
  ptr : Nat
  deriving DecidableEq

/-- The side that the predicate names. -/
def source (B : Build) (st : Store) (a : PoolAllocator) (n : Nat) : Source :=
  if a.routesToPool B st n then .pool a.pool else .heap (.aligned a.type.alignment)

def Allocation.loan (B : Build) (st : Store) (x : Allocation) : Loan where
  source := x.allocator.source B st x.n
  ptr := x.ptr
  bytes := x.n * x.allocator.type.size
  alignment := x.allocator.type.alignment

structure Program where
  store : Store
  allocators : List PoolAllocator
  outstanding : List Allocation

inductive Op where
  | create (env : Env) (call : CreateCall)
  | construct (pool : Nat) (type : ElementType)
  | rebind (allocator : Nat) (type : ElementType)
  | allocate (allocator : Nat) (env : Env) (n : Nat)
  | deallocate (allocator : Nat) (env : Env) (ptr n : Nat)
  | write (addr : Nat) (byte : UInt8)

inductive Reply where
  | done
  | badAlloc
  | pointer (ptr : Nat)
  deriving DecidableEq

/-- The allocation that `deallocate(ptr, n)` through `a` gives back: of an equal allocator for the
same type, with the same `n`. -/
def matching (a : PoolAllocator) (ptr n : Nat) (x : Allocation) : Bool :=
  a.equal x.allocator && (a.type = x.allocator.type && (x.ptr = ptr && x.n = n))

namespace Program

def start (w : World) : Program := ⟨.start w, [], []⟩

/-- One operation; `none` when it is not well formed: no such pool or allocator, nothing allocated
that the release matches, a write outside what is allocated. -/
def exec (B : Build) (m : Program) : Op → Option (Reply × Program)
  | .create env call =>
    if call.InRange B then some (.done, { m with store := m.store.create B env call }) else none
  | .construct pool type =>
    if pool < m.store.pools.length then
      some (.done, { m with allocators := m.allocators ++ [⟨pool, type⟩] })
    else none
  | .rebind allocator type =>
    match m.allocators[allocator]? with
    | none => none
    | some a => some (.done, { m with allocators := m.allocators ++ [a.rebind type] })
  | .allocate allocator env n =>
    match m.allocators[allocator]? with
    | none => none
    | some a =>
      match a.allocate B env m.store n with
      | (none, store) => some (.badAlloc, { m with store := store })
      | (some ptr, store) =>
        some (.pointer ptr,
          { m with store := store, outstanding := ⟨a, n, ptr⟩ :: m.outstanding })
  | .deallocate allocator env ptr n =>
    match m.allocators[allocator]? with
    | none => none
    | some a =>
      match Ledger.takeOut (a.matching ptr n) m.outstanding with
      | none => none
      | some (_, rest) =>
        some (.done, { m with store := a.deallocate B env m.store ptr n, outstanding := rest })
  | .write addr byte =>
    if ∃ x ∈ m.outstanding, x.ptr ≤ addr ∧ addr < x.ptr + x.n * x.allocator.type.size then
      some (.done, { m with store := m.store.write addr byte })
    else none

def lts (B : Build) : Lts Program (Op × Reply) where
  step m e m' := m.exec B e.1 = some (e.2, m')

end Program

/-! ## One call -/

section

variable {B : Build} {w : World} {loans : List Loan} {st st' : Store} {a b : PoolAllocator}

theorem equal_iff : a.equal b = true ↔ a.pool = b.pool := by simp [equal]

theorem routesToPool_iff {n : Nat} : a.routesToPool B st n = true ↔
    n = 1 ∧ a.type.size ≤ st.blockSize a.pool ∧ a.type.alignment ≤ B.poolAlignment := by
  simp [routesToPool]

/-- The block size of a pool never changes, so the predicate names the same side at any time. -/
theorem source_eq (hg : st.Grew st') (ha : a.pool < st.pools.length) (n : Nat) :
    a.source B st' n = a.source B st n := by
  have hr : a.routesToPool B st' n = a.routesToPool B st n := by
    rw [Bool.eq_iff_iff, routesToPool_iff, routesToPool_iff, hg.blockSize ha]
  simp only [source, hr]

theorem Allocation.loan_eq {x : Allocation} (hg : st.Grew st')
    (hx : x.allocator.pool < st.pools.length) : x.loan B st' = x.loan B st := by
  simp only [Allocation.loan, source_eq hg hx]

/-- A request that overflows is never made; any other goes to the side that the predicate names. -/
theorem allocate_eq (B : Build) (env : Env) (st : Store) (a : PoolAllocator) (n : Nat) :
    a.allocate B env st n = (none, st) ∨
      a.allocate B env st n =
        st.request B env (n * a.type.size) a.type.alignment (a.source B st n) := by
  by_cases hr : a.routesToPool B st n
  · right
    simp only [allocate, source, if_pos hr]
    rfl
  · simp only [allocate, source, if_neg hr, allocateFallback]
    split
    · left; rfl
    · rename_i hn
      right
      have hpos := B.modulus_pos
      rw [not_lt, Nat.le_div_iff_mul_le a.type.size_pos, Build.sizeMax] at hn
      rw [Build.mul_eq (by omega)]
      rfl

theorem source_suits (ha : a.pool < st.pools.length) (n : Nat) :
    (a.source B st n).Suits B st (n * a.type.size) a.type.alignment := by
  unfold source
  split
  · rename_i hr
    obtain ⟨rfl, hsize, halign⟩ := routesToPool_iff.mp hr
    have hp := List.getElem?_eq_getElem ha
    rw [Store.blockSize_eq hp] at hsize
    refine ⟨_, hp, by omega, ?_⟩
    exact Nat.pow_dvd_pow 2 ((Nat.pow_le_pow_iff_right (by omega)).mp halign)
  · trivial

/-- `allocate` throws and changes nothing, or what it returns is out. -/
theorem allocate_account {out : List Allocation}
    (A : Store.Account B w (Allocation.loan B) out st) (ha : a.pool < st.pools.length) (env : Env)
    (n : Nat) :
    st.Grew (a.allocate B env st n).2 ∧
    (((a.allocate B env st n).1 = none ∧ st.Unchanged (a.allocate B env st n).2 ∧
        Store.Account B w (Allocation.loan B) out (a.allocate B env st n).2) ∨
      ∃ ptr, (a.allocate B env st n).1 = some ptr ∧
        st.Lent B (a.allocate B env st n).2 (Allocation.loan B st ⟨a, n, ptr⟩) ∧
        Store.Account B w (Allocation.loan B) (⟨a, n, ptr⟩ :: out)
          (a.allocate B env st n).2) := by
  rcases allocate_eq B env st a n with he | he
  · rw [he]
    exact ⟨.of_eq rfl, Or.inl ⟨rfl, .refl st, A⟩⟩
  · rw [he]
    refine A.request (source_suits ha n) (fun ptr => ⟨a, n, ptr⟩) (fun ptr st' hg => ?_) env
    exact Allocation.loan_eq (x := ⟨a, n, ptr⟩) hg ha

/-- An equal allocator takes the way back. -/
theorem deallocate_eq (B : Build) (env : Env) (st : Store) {x : Allocation}
    (hpool : a.pool = x.allocator.pool) (htype : a.type = x.allocator.type) :
    a.deallocate B env st x.ptr x.n = st.giveBack B env (x.loan B st) := by
  obtain rfl : a = x.allocator := by
    rcases a with ⟨pool, type⟩
    simp only at hpool htype
    rw [hpool, htype]
  simp only [deallocate, Store.giveBack, Allocation.loan, source]
  by_cases hr : x.allocator.routesToPool B st x.n
  · simp only [if_pos hr]
  · simp only [if_neg hr]
    rfl

end

/-! ## Runs -/

namespace Program

variable {B : Build} {w : World} {m m' : Program}

structure Inv (B : Build) (w : World) (m : Program) : Prop where
  account : Store.Account B w (Allocation.loan B) m.outstanding m.store
  bound : ∀ a ∈ m.allocators, a.pool < m.store.pools.length

theorem Inv.start (B : Build) (w : World) : Inv B w (start w) where
  account := Store.Account.start B w _
  bound _ h := by cases h

theorem Inv.next (I : Inv B w m) {st' : Store} {out : List Allocation} (hg : m.store.Grew st')
    (A : Store.Account B w (Allocation.loan B) out st') :
    Inv B w { m with store := st', outstanding := out } where
  account := A
  bound a ha := (I.bound a ha).trans_le hg.length_le

theorem Inv.bind (I : Inv B w m) {a : PoolAllocator} (ha : a.pool < m.store.pools.length) :
    Inv B w { m with allocators := m.allocators ++ [a] } where
  account := I.account
  bound b hb := by
    rcases List.mem_append.mp hb with hb | hb
    · exact I.bound b hb
    · rw [List.mem_singleton.mp hb]
      exact ha

theorem Inv.exec (I : Inv B w m) {op : Op} {reply : Reply}
    (h : m.exec B op = some (reply, m')) : Inv B w m' ∧ m.store.Grew m'.store := by
  cases op with
  | create env call =>
    simp only [Program.exec] at h
    split at h
    · rename_i hr
      cases h
      obtain ⟨A, hg⟩ := I.account.create hr env
      exact ⟨I.next hg A, hg⟩
    · cases h
  | construct pool type =>
    simp only [Program.exec] at h
    split at h
    · rename_i hp
      cases h
      exact ⟨I.bind hp, .of_eq rfl⟩
    · cases h
  | rebind allocator type =>
    simp only [Program.exec] at h
    split at h
    · cases h
    · rename_i b hb
      cases h
      exact ⟨I.bind (I.bound b (List.mem_of_getElem? hb)), .of_eq rfl⟩
  | allocate allocator env n =>
    simp only [Program.exec] at h
    split at h
    · cases h
    · rename_i a ha
      obtain ⟨hg, hr⟩ := allocate_account I.account (I.bound a (List.mem_of_getElem? ha)) env n
      generalize a.allocate B env m.store n = r at h hg hr
      obtain ⟨answer, store⟩ := r
      rcases hr with ⟨hr, -, A⟩ | ⟨ptr, hr, -, A⟩
      · cases hr
        cases h
        exact ⟨I.next hg A, hg⟩
      · cases hr
        cases h
        exact ⟨I.next hg A, hg⟩
  | deallocate allocator env ptr n =>
    simp only [Program.exec] at h
    split at h
    · cases h
    · split at h
      · cases h
      · rename_i x rest hx
        cases h
        obtain ⟨hmatch, hperm⟩ := Ledger.takeOut_some hx
        simp only [matching, Bool.and_eq_true, decide_eq_true_eq, equal_iff] at hmatch
        obtain ⟨hpool, htype, rfl, rfl⟩ := hmatch
        rw [deallocate_eq B env m.store hpool htype]
        obtain ⟨A, hg, -⟩ := I.account.giveBack hperm env
        exact ⟨I.next hg A, hg⟩
  | write addr byte =>
    simp only [Program.exec] at h
    split at h
    · rename_i hw
      cases h
      obtain ⟨x, hx, hlo, hhi⟩ := hw
      exact ⟨I.next (.of_eq rfl) (I.account.write hx hlo hhi byte), .of_eq rfl⟩
    · cases h

theorem Inv.run {es : List (Op × Reply)} (hrun : (lts B).Run m es m') (I : Inv B w m) :
    Inv B w m' ∧ m.store.Grew m'.store := by
  refine hrun.invariant (I := fun n => Inv B w n ∧ m.store.Grew n.store) ?_ ⟨I, .of_eq rfl⟩
  rintro n e n' ⟨In, hg⟩ hstep
  obtain ⟨I', hg'⟩ := In.exec hstep
  exact ⟨I', hg.trans hg'⟩

end Program

open Program in
/-- Any allocators over any pools, in any order of calls. What is out is as large and as aligned as
the types need and shares no byte, and its route is the same for as long as it is out. An
allocation that throws changes nothing. A release through an equal allocator goes to the side that
has the pointer out, which accepts it and gets it back. When the same allocations are out again,
the same blocks and the same regions beside the pools are; a pool keeps the chunks it has linked
meanwhile. -/
theorem allocator_paths {B : Build} {w : World} {es es' : List (Op × Reply)} {m m' : Program}
    (hrun : (Program.lts B).Run (Program.start w) es m)
    (hrun' : (Program.lts B).Run m es' m') :
    (∀ x ∈ m.outstanding, Store.Supplied m.store (x.loan B m.store) ∧
      x.loan B m'.store = x.loan B m.store) ∧
    (m.outstanding.map (Allocation.loan B m.store)).Pairwise (Loan.Apart m.store) ∧
    (∀ a ∈ m.allocators, ∀ env n,
      ((a.allocate B env m.store n).1 = none →
        m.store.Unchanged (a.allocate B env m.store n).2) ∧
      ∀ ptr, (a.allocate B env m.store n).1 = some ptr →
        m.store.Lent B (a.allocate B env m.store n).2 (Allocation.loan B m.store ⟨a, n, ptr⟩)) ∧
    (∀ a ∈ m.allocators, ∀ x ∈ m.outstanding, a.equal x.allocator = true →
      a.type = x.allocator.type → ∀ env,
        m.store.Accepts B (x.loan B m.store) ∧
        a.deallocate B env m.store x.ptr x.n = m.store.giveBack B env (x.loan B m.store) ∧
        (a.deallocate B env m.store x.ptr x.n).Lent B m.store (x.loan B m.store)) ∧
    m.store.world.heap.ledger.invalid = w.heap.ledger.invalid ∧
    (m'.outstanding.Perm m.outstanding → Store.Restored B m.store m'.store) := by
  obtain ⟨I, -⟩ := (Inv.start B w).run hrun
  obtain ⟨I', hg⟩ := I.run hrun'
  refine ⟨?_, I.account.inv.pairwise_apart, ?_, ?_, I.account.inv.valid,
    I.account.restored I'.account hg⟩
  · intro x hx
    exact ⟨I.account.supplied hx, I.account.stable x hx m'.store hg⟩
  · intro a ha env n
    obtain ⟨-, ⟨hr, hun, -⟩ | ⟨ptr, hr, hlent, -⟩⟩ :=
      allocate_account I.account (I.bound a ha) env n
    · rw [hr]
      exact ⟨fun _ => hun, (fun ptr h => by cases h)⟩
    · rw [hr]
      refine ⟨(fun h => by cases h), ?_⟩
      rintro _ ⟨⟩
      exact hlent
  · intro a _ x hx hequal htype env
    have heq := deallocate_eq B env m.store (equal_iff.mp hequal) htype
    obtain ⟨-, -, haccepts, hlent⟩ := I.account.giveBack (List.perm_cons_erase hx) env
    rw [heq]
    exact ⟨haccepts, rfl, hlent⟩

/-! ## A program on one dynamic pool -/

/-- A type that fills the block. -/
def blockType : ElementType := ⟨16, 4, by decide⟩

/-- A type that does not fit the block. -/
def nodeType : ElementType := ⟨24, 3, by decide⟩

def firstProgram (B : Build) : Program where
  store := ⟨(firstClient B).pool.toWorld, [firstPool]⟩
  allocators := [⟨0, blockType⟩]
  outstanding := []

theorem firstProgram_run : ∃ es, (Program.lts (Build.x64 false .none)).Run
    (Program.start World.start) es (firstProgram (Build.x64 false .none)) := by
  have hcreate := firstCall_run false .none (by decide)
  have h1 : (Program.lts (Build.x64 false .none)).step (Program.start World.start)
      (.create firstEnv firstCall, .done)
      { firstProgram (Build.x64 false .none) with allocators := [] } := by
    show Program.exec _ _ _ = _
    simp only [Program.exec, if_pos (show firstCall.InRange (Build.x64 false .none) by decide),
      Store.create, Program.start, Store.start, hcreate, List.nil_append]
    rfl
  have h2 : (Program.lts (Build.x64 false .none)).step
      { firstProgram (Build.x64 false .none) with allocators := [] }
      (.construct 0 blockType, .done) (firstProgram (Build.x64 false .none)) := rfl
  exact ⟨_, .snoc (.single h1) h2⟩

theorem allocator_paths_x64 :
    ∃ es m', (Program.lts (Build.x64 false .none)).Run
        (firstProgram (Build.x64 false .none)) es m' ∧
      m'.outstanding = [] ∧
      Store.Restored (Build.x64 false .none) (firstProgram (Build.x64 false .none)).store
        m'.store := by
  obtain ⟨es₀, hrun₀⟩ := firstProgram_run
  obtain ⟨es, m', hrun, hm⟩ := Lts.script_reaches
    (Lts.answered_step (Program.lts (Build.x64 false .none)) fun _ _ _ _ h => h)
    (fun m : Program => m.outstanding)
    (show (Lts.script (Lts.answered (Program.exec (Build.x64 false .none)))
      (firstProgram (Build.x64 false .none))
      [.allocate 0 firstEnv 1, .rebind 0 nodeType, .allocate 1 ⟨some 0x3000, none, 0⟩ 1,
        .write 0x3010 7, .deallocate 0 firstEnv 0x1000 1, .rebind 0 nodeType,
        .deallocate 2 firstEnv 0x3000 1]).map (fun r => r.2.outstanding) = some [] by
      decide +kernel)
  exact ⟨es, m', hrun, hm, (allocator_paths hrun₀ hrun).2.2.2.2.2 (by rw [hm]; exact .refl _)⟩

/-- Two blocks are out at a time, and the pool keeps the chunk of the second. -/
theorem growth_stays :
    ∃ es₀ es m', (Program.lts (Build.x64 false .none)).Run (Program.start World.start) es₀
        (firstProgram (Build.x64 false .none)) ∧
      (Program.lts (Build.x64 false .none)).Run (firstProgram (Build.x64 false .none)) es m' ∧
      m'.outstanding = (firstProgram (Build.x64 false .none)).outstanding ∧
      ¬ m'.store.world.heap.regions.Perm
        (firstProgram (Build.x64 false .none)).store.world.heap.regions := by
  obtain ⟨es₀, hrun₀⟩ := firstProgram_run
  obtain ⟨es, m', hrun, hm⟩ := Lts.script_reaches
    (Lts.answered_step (Program.lts (Build.x64 false .none)) fun _ _ _ _ h => h)
    (fun m : Program => (m.outstanding, m.store.world.heap.regions.length))
    (show (Lts.script (Lts.answered (Program.exec (Build.x64 false .none)))
      (firstProgram (Build.x64 false .none))
      [.allocate 0 firstEnv 1, .allocate 0 secondEnv 1, .deallocate 0 firstEnv 0x1000 1,
        .deallocate 0 firstEnv 0x2000 1]).map
        (fun r => (r.2.outstanding, r.2.store.world.heap.regions.length)) = some ([], 4) by
      decide +kernel)
  obtain ⟨h1, h2⟩ : m'.outstanding = [] ∧ m'.store.world.heap.regions.length = 4 := by
    simpa using hm
  refine ⟨es₀, es, m', hrun₀, hrun, h1, fun hperm => ?_⟩
  have hlen := hperm.length_eq
  rw [h2] at hlen
  exact absurd hlen (by decide +kernel)

end PoolAllocator

end MemoryPool
