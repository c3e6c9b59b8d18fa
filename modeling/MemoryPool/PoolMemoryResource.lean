import Mathlib.Data.List.Find
import MemoryPool.Lib.Lts
import MemoryPool.Loans

/-!
# MemoryPool.PoolMemoryResource

`PoolMemoryResource`, the `std::pmr::memory_resource` over a pool, and chains of them. Each has
another resource as upstream, for the requests that its pool is not for; the last upstream is any
resource that honours its contract. It is modelled by what it hands out and takes back: a release
has to name the bytes and the alignment of the request.

* `MemoryResource.allocate_eq`, `MemoryResource.deallocate_eq`: a walk along the chain ends at the
  first link whose pool is for the request.
* `Program.Inv.equal_pools`: equal resources have the same chain of pools.
* `supplier_chain`: every run.
-/

namespace MemoryPool

/-- A `PoolMemoryResource`, with its address, the number of its pool and the resource that
`upstream_` points to; or the resource at the end of the chain. -/
inductive MemoryResource where
  | final
  | link (address pool : Nat) (upstream : MemoryResource)
  deriving DecidableEq

namespace MemoryResource

def address : MemoryResource → Option Nat
  | .final => none
  | .link address _ _ => some address

/-- `routes_to_pool`. -/
def routesToPool (B : Build) (st : Store) (pool bytes alignment : Nat) : Bool :=
  bytes ≤ st.blockSize pool && alignment ≤ B.poolAlignment

/-- `do_allocate`; `none` is an exception thrown. -/
def allocate (B : Build) (env : Env) (st : Store) (bytes alignment : Nat) :
    MemoryResource → Option Nat × Store
  | .final => st.operatorNew B (.upstream bytes alignment) bytes alignment env.backing
  | .link _ pool upstream =>
    if routesToPool B st pool bytes alignment then
      let (block, st) := st.tryAllocate B env pool
      if block = 0 then (none, st) else (some block, st)
    else upstream.allocate B env st bytes alignment

/-- `do_deallocate`. -/
def deallocate (B : Build) (env : Env) (st : Store) (ptr bytes alignment : Nat) :
    MemoryResource → Store
  | .final => st.operatorDelete (.upstream bytes alignment) ptr
  | .link _ pool upstream =>
    if routesToPool B st pool bytes alignment then st.deallocate B env pool ptr
    else upstream.deallocate B env st ptr bytes alignment

/-- `do_is_equal`, which compares the upstreams by address. The last resource is equal to itself
alone. -/
def isEqual : MemoryResource → MemoryResource → Bool
  | .link _ pool upstream, .link _ pool' upstream' =>
    pool' = pool && upstream'.address = upstream.address
  | .link .., .final => false
  | .final, other => other.address = none

/-- The pools along the chain. -/
def pools : MemoryResource → List Nat
  | .final => []
  | .link _ pool upstream => pool :: upstream.pools

/-- The first link whose block size covers the request, or the last resource. -/
def supplier (B : Build) (st : Store) (bytes alignment : Nat) (r : MemoryResource) : Source :=
  match r.pools.find? fun pool => bytes ≤ st.blockSize pool ∧ alignment ≤ B.poolAlignment with
  | some pool => .pool pool
  | none => .heap (.upstream bytes alignment)

/-- What was given by `allocate` and has not been given back. -/
structure Allocation where
  resource : MemoryResource
  bytes : Nat
  alignLog : Nat
  ptr : Nat
  deriving DecidableEq

def Allocation.loan (B : Build) (st : Store) (x : Allocation) : Loan where
  source := x.resource.supplier B st x.bytes (2 ^ x.alignLog)
  ptr := x.ptr
  bytes := x.bytes
  alignment := 2 ^ x.alignLog

structure Program where
  store : Store
  resources : List MemoryResource
  outstanding : List Allocation

/-- Alignments are powers of two and given by the exponent. -/
inductive Op where
  | create (env : Env) (call : CreateCall)
  | construct (pool : Nat) (upstream : Option Nat)
  | allocate (resource : Nat) (env : Env) (bytes alignLog : Nat)
  | deallocate (resource : Nat) (env : Env) (ptr bytes alignLog : Nat)
  | write (addr : Nat) (byte : UInt8)

inductive Reply where
  | done
  | thrown
  | pointer (ptr : Nat)
  deriving DecidableEq

/-- The allocation that a release through `r` gives back. -/
def matching (r : MemoryResource) (ptr bytes alignLog : Nat) (x : Allocation) : Bool :=
  r.isEqual x.resource && (x.ptr = ptr && (x.bytes = bytes && x.alignLog = alignLog))

namespace Program

def start (w : World) : Program := ⟨.start w, [], []⟩

/-- What `upstream_` of a new resource points to: the last resource, or one built before. -/
def upstream (m : Program) : Option Nat → Option MemoryResource
  | none => some .final
  | some k => m.resources[k]?

/-- One operation; `none` when it is not well formed: no such pool or resource, nothing allocated
that the release matches, a write outside what is allocated. -/
def exec (B : Build) (m : Program) : Op → Option (Reply × Program)
  | .create env call =>
    if call.InRange B then some (.done, { m with store := m.store.create B env call }) else none
  | .construct pool upstream =>
    if pool < m.store.pools.length then
      match m.upstream upstream with
      | none => none
      | some r =>
        some (.done, { m with resources := m.resources ++ [.link m.resources.length pool r] })
    else none
  | .allocate resource env bytes alignLog =>
    match m.resources[resource]? with
    | none => none
    | some r =>
      match r.allocate B env m.store bytes (2 ^ alignLog) with
      | (none, store) => some (.thrown, { m with store := store })
      | (some ptr, store) =>
        some (.pointer ptr,
          { m with store := store, outstanding := ⟨r, bytes, alignLog, ptr⟩ :: m.outstanding })
  | .deallocate resource env ptr bytes alignLog =>
    match m.resources[resource]? with
    | none => none
    | some r =>
      match Ledger.takeOut (r.matching ptr bytes alignLog) m.outstanding with
      | none => none
      | some (_, rest) =>
        some (.done,
          { m with store := r.deallocate B env m.store ptr bytes (2 ^ alignLog),
                   outstanding := rest })
  | .write addr byte =>
    if ∃ x ∈ m.outstanding, x.ptr ≤ addr ∧ addr < x.ptr + x.bytes then
      some (.done, { m with store := m.store.write addr byte })
    else none

def lts (B : Build) : Lts Program (Op × Reply) where
  step m e m' := m.exec B e.1 = some (e.2, m')

end Program

/-! ## Along the chain -/

section

variable {B : Build} {w : World} {st st' : Store} {r r' : MemoryResource} {bytes alignment : Nat}

theorem isEqual_link {address pool address' pool' : Nat} {upstream upstream' : MemoryResource} :
    (link address pool upstream).isEqual (link address' pool' upstream') = true ↔
      pool' = pool ∧ upstream'.address = upstream.address := by
  simp [isEqual]

theorem isEqual_final : final.isEqual r = true ↔ r = final := by
  cases r <;> simp [isEqual, MemoryResource.address]

theorem isEqual_equivalence : Equivalence fun r r' : MemoryResource => r.isEqual r' = true where
  refl r := by
    cases r with
    | final => rfl
    | link => exact isEqual_link.mpr ⟨rfl, rfl⟩
  symm {r r'} h := by
    cases r with
    | final =>
      rw [isEqual_final.mp h]
      rfl
    | link =>
      cases r' with
      | final => cases h
      | link =>
        obtain ⟨h1, h2⟩ := isEqual_link.mp h
        exact isEqual_link.mpr ⟨h1.symm, h2.symm⟩
  trans {r r' r''} h h' := by
    cases r with
    | final => rwa [isEqual_final.mp h] at h'
    | link =>
      cases r' with
      | final => cases h
      | link =>
        cases r'' with
        | final => cases h'
        | link =>
          obtain ⟨h1, h2⟩ := isEqual_link.mp h
          obtain ⟨h3, h4⟩ := isEqual_link.mp h'
          exact isEqual_link.mpr ⟨h3.trans h1, h4.trans h2⟩

theorem supplier_link (B : Build) (st : Store) (bytes alignment address pool : Nat)
    (upstream : MemoryResource) :
    (link address pool upstream).supplier B st bytes alignment =
      if routesToPool B st pool bytes alignment then .pool pool
      else upstream.supplier B st bytes alignment := by
  by_cases hr : bytes ≤ st.blockSize pool ∧ alignment ≤ B.poolAlignment
  · simp [supplier, pools, routesToPool, hr]
  · have hroute : routesToPool B st pool bytes alignment = false := by
      rw [routesToPool, ← Bool.decide_and]
      exact decide_eq_false hr
    simp [supplier, pools, hroute, hr]

theorem allocate_eq (B : Build) (env : Env) (st : Store) (bytes alignment : Nat)
    (r : MemoryResource) :
    r.allocate B env st bytes alignment =
      st.request B env bytes alignment (r.supplier B st bytes alignment) := by
  induction r with
  | final => rfl
  | link address pool upstream ih =>
    rw [allocate, supplier_link]
    split
    · rfl
    · exact ih

theorem deallocate_eq (B : Build) (env : Env) (st : Store) {l : Loan} (r : MemoryResource)
    (hl : l.source = r.supplier B st l.bytes l.alignment) :
    r.deallocate B env st l.ptr l.bytes l.alignment = st.giveBack B env l := by
  unfold Store.giveBack
  rw [hl]
  clear hl
  induction r with
  | final => rfl
  | link address pool upstream ih =>
    rw [deallocate, supplier_link]
    split
    · rfl
    · exact ih

/-- The block size of a pool never changes, so the supplier does not either. -/
theorem supplier_eq (hg : st.Grew st') (hr : ∀ i ∈ r.pools, i < st.pools.length)
    (hpools : r'.pools = r.pools) (bytes alignment : Nat) :
    r'.supplier B st' bytes alignment = r.supplier B st bytes alignment := by
  have hfind :
      (r.pools.find? fun pool => bytes ≤ st'.blockSize pool ∧ alignment ≤ B.poolAlignment) =
        r.pools.find? fun pool => bytes ≤ st.blockSize pool ∧ alignment ≤ B.poolAlignment := by
    refine List.find?_congr fun i hi => ?_
    rw [hg.blockSize (hr i hi)]
  simp only [supplier, hpools, hfind]

theorem supplier_suits (hr : ∀ i ∈ r.pools, i < st.pools.length) (bytes alignLog : Nat) :
    (r.supplier B st bytes (2 ^ alignLog)).Suits B st bytes (2 ^ alignLog) := by
  unfold supplier
  split
  · rename_i i hi
    have hfits := List.find?_some hi
    simp only [decide_eq_true_eq] at hfits
    have hp := List.getElem?_eq_getElem (hr i (List.mem_of_find?_eq_some hi))
    rw [Store.blockSize_eq hp] at hfits
    exact ⟨_, hp, hfits.1, Nat.pow_dvd_pow 2 ((Nat.pow_le_pow_iff_right (by omega)).mp hfits.2)⟩
  · trivial

end

/-! ## Runs -/

namespace Program

variable {B : Build} {w : World} {m m' : Program}

structure Inv (B : Build) (w : World) (m : Program) : Prop where
  account : Store.Account B w (Allocation.loan B) m.outstanding m.store
  bound : ∀ r ∈ m.resources, ∀ i ∈ r.pools, i < m.store.pools.length
  user : ∀ x ∈ m.outstanding, x.resource ∈ m.resources
  address : ∀ (k : Nat) (r : MemoryResource), m.resources[k]? = some r → r.address = some k
  closed : ∀ address pool upstream, .link address pool upstream ∈ m.resources →
    upstream = .final ∨ upstream ∈ m.resources

theorem Inv.start (B : Build) (w : World) : Inv B w (start w) where
  account := Store.Account.start B w _
  bound _ h := by cases h
  user _ h := by cases h
  address _ _ h := by cases h
  closed _ _ _ h := by cases h

/-- Resources with one address are one. -/
theorem Inv.address_inj (I : Inv B w m) {r r' : MemoryResource} (hr : r = .final ∨ r ∈ m.resources)
    (hr' : r' = .final ∨ r' ∈ m.resources) (h : r'.address = r.address) : r' = r := by
  have hsome : ∀ r ∈ m.resources, ∃ k, m.resources[k]? = some r ∧ r.address = some k := by
    intro r hr
    obtain ⟨k, hk⟩ := List.mem_iff_getElem?.mp hr
    exact ⟨k, hk, I.address k r hk⟩
  rcases hr with rfl | hr
  · rcases hr' with rfl | hr'
    · rfl
    · obtain ⟨k, -, hk⟩ := hsome r' hr'
      rw [hk] at h
      cases h
  · obtain ⟨k, hk, hka⟩ := hsome r hr
    rcases hr' with rfl | hr'
    · rw [hka] at h
      cases h
    · obtain ⟨k', hk', hka'⟩ := hsome r' hr'
      rw [hka, hka'] at h
      cases h
      rw [hk] at hk'
      exact (Option.some.inj hk').symm

/-- Equal resources have the same chain of pools. -/
theorem Inv.equal_pools (I : Inv B w m) {r r' : MemoryResource} (hr : r ∈ m.resources)
    (hr' : r' ∈ m.resources) (h : r.isEqual r' = true) : r.pools = r'.pools := by
  cases r with
  | final => rw [isEqual_final.mp h]
  | link =>
    cases r' with
    | final => cases h
    | link =>
      obtain ⟨hpool, haddr⟩ := isEqual_link.mp h
      rw [pools, pools, hpool, I.address_inj (I.closed _ _ _ hr) (I.closed _ _ _ hr') haddr]

/-- `do_allocate` throws and changes nothing, or what it returns is out. -/
theorem Inv.allocate (I : Inv B w m) {r : MemoryResource} (hr : r ∈ m.resources) (env : Env)
    (bytes alignLog : Nat) :
    m.store.Grew (r.allocate B env m.store bytes (2 ^ alignLog)).2 ∧
    (((r.allocate B env m.store bytes (2 ^ alignLog)).1 = none ∧
        m.store.Unchanged (r.allocate B env m.store bytes (2 ^ alignLog)).2 ∧
        Store.Account B w (Allocation.loan B) m.outstanding
          (r.allocate B env m.store bytes (2 ^ alignLog)).2) ∨
      ∃ ptr, (r.allocate B env m.store bytes (2 ^ alignLog)).1 = some ptr ∧
        m.store.Lent B (r.allocate B env m.store bytes (2 ^ alignLog)).2
          (Allocation.loan B m.store ⟨r, bytes, alignLog, ptr⟩) ∧
        Store.Account B w (Allocation.loan B) (⟨r, bytes, alignLog, ptr⟩ :: m.outstanding)
          (r.allocate B env m.store bytes (2 ^ alignLog)).2) := by
  rw [allocate_eq]
  refine I.account.request (supplier_suits (I.bound r hr) bytes alignLog)
    (fun ptr => ⟨r, bytes, alignLog, ptr⟩) (fun ptr st' hg => ?_) env
  simp only [Allocation.loan, supplier_eq hg (I.bound r hr) rfl]

/-- `do_deallocate` through an equal resource takes the way back. -/
theorem Inv.deallocate_eq (I : Inv B w m) {r : MemoryResource} (hr : r ∈ m.resources)
    {x : Allocation} (hx : x ∈ m.outstanding) (h : r.isEqual x.resource = true) (env : Env) :
    r.deallocate B env m.store x.ptr x.bytes (2 ^ x.alignLog) =
      m.store.giveBack B env (x.loan B m.store) := by
  refine MemoryResource.deallocate_eq B env m.store (l := x.loan B m.store) r ?_
  exact supplier_eq (.of_eq rfl) (I.bound r hr) (I.equal_pools hr (I.user x hx) h).symm _ _

theorem Inv.next (I : Inv B w m) {st' : Store} {out : List Allocation} (hg : m.store.Grew st')
    (hu : ∀ x ∈ out, x.resource ∈ m.resources)
    (A : Store.Account B w (Allocation.loan B) out st') :
    Inv B w { m with store := st', outstanding := out } where
  account := A
  bound r hr i hi := (I.bound r hr i hi).trans_le hg.length_le
  user := hu
  address := I.address
  closed := I.closed

theorem Inv.bind (I : Inv B w m) {pool : Nat} (hp : pool < m.store.pools.length)
    {upstream : MemoryResource} (hu : upstream = .final ∨ upstream ∈ m.resources) :
    Inv B w { m with resources := m.resources ++ [.link m.resources.length pool upstream] } where
  account := I.account
  bound r hr i hi := by
    rcases List.mem_append.mp hr with hr | hr
    · exact I.bound r hr i hi
    · rw [List.mem_singleton.mp hr, pools] at hi
      rcases List.mem_cons.mp hi with rfl | hi
      · exact hp
      · rcases hu with rfl | hu
        · cases hi
        · exact I.bound upstream hu i hi
  user x hx := List.mem_append_left _ (I.user x hx)
  address k r hk := by
    rcases Nat.lt_or_ge k m.resources.length with hlt | hge
    · rw [List.getElem?_append_left hlt] at hk
      exact I.address k r hk
    · rw [List.getElem?_append_right hge] at hk
      obtain ⟨hk0, hr⟩ := List.getElem?_eq_some_iff.mp hk
      simp only [List.length_singleton] at hk0
      obtain rfl : k = m.resources.length := by omega
      simp only [Nat.sub_self, List.getElem_cons_zero] at hr
      rw [← hr]
      rfl
  closed address pool' upstream' h := by
    rcases List.mem_append.mp h with h | h
    · exact (I.closed address pool' upstream' h).imp_right (List.mem_append_left _)
    · cases List.mem_singleton.mp h
      exact hu.imp_right (List.mem_append_left _)

theorem upstream_mem {upstream : Option Nat} {r : MemoryResource}
    (h : m.upstream upstream = some r) : r = .final ∨ r ∈ m.resources := by
  cases upstream with
  | none => exact Or.inl (Option.some.inj h).symm
  | some k => exact Or.inr (List.mem_of_getElem? h)

theorem Inv.exec (I : Inv B w m) {op : Op} {reply : Reply}
    (h : m.exec B op = some (reply, m')) : Inv B w m' ∧ m.store.Grew m'.store := by
  cases op with
  | create env call =>
    simp only [Program.exec] at h
    split at h
    · rename_i hr
      cases h
      obtain ⟨A, hg⟩ := I.account.create hr env
      exact ⟨I.next hg I.user A, hg⟩
    · cases h
  | construct pool upstream =>
    simp only [Program.exec] at h
    split at h
    · rename_i hp
      split at h
      · cases h
      · rename_i r hr
        cases h
        exact ⟨I.bind hp (upstream_mem hr), .of_eq rfl⟩
    · cases h
  | allocate resource env bytes alignLog =>
    simp only [Program.exec] at h
    split at h
    · cases h
    · rename_i r hr
      have hmem := List.mem_of_getElem? hr
      obtain ⟨hg, hres⟩ := I.allocate hmem env bytes alignLog
      generalize r.allocate B env m.store bytes (2 ^ alignLog) = result at h hg hres
      obtain ⟨answer, store⟩ := result
      rcases hres with ⟨ha, -, A⟩ | ⟨ptr, ha, -, A⟩
      · cases ha
        cases h
        exact ⟨I.next hg I.user A, hg⟩
      · cases ha
        cases h
        refine ⟨I.next hg (fun x hx => ?_) A, hg⟩
        rcases List.mem_cons.mp hx with rfl | hx
        · exact hmem
        · exact I.user x hx
  | deallocate resource env ptr bytes alignLog =>
    simp only [Program.exec] at h
    split at h
    · cases h
    · rename_i r hr
      split at h
      · cases h
      · rename_i x rest hx
        cases h
        obtain ⟨hmatch, hperm⟩ := Ledger.takeOut_some hx
        simp only [matching, Bool.and_eq_true, decide_eq_true_eq] at hmatch
        obtain ⟨hequal, rfl, rfl, rfl⟩ := hmatch
        have hmem : x ∈ m.outstanding := hperm.mem_iff.mpr (List.mem_cons_self ..)
        rw [I.deallocate_eq (List.mem_of_getElem? hr) hmem hequal]
        obtain ⟨A, hg, -⟩ := I.account.giveBack hperm env
        exact ⟨I.next hg (fun y hy => I.user y (hperm.mem_iff.mpr (List.mem_cons_of_mem _ hy))) A,
          hg⟩
  | write addr byte =>
    simp only [Program.exec] at h
    split at h
    · rename_i hw
      cases h
      obtain ⟨x, hx, hlo, hhi⟩ := hw
      exact ⟨I.next (.of_eq rfl) I.user (I.account.write hx hlo hhi byte), .of_eq rfl⟩
    · cases h

theorem Inv.run {es : List (Op × Reply)} (hrun : (lts B).Run m es m') (I : Inv B w m) :
    Inv B w m' ∧ m.store.Grew m'.store := by
  refine hrun.invariant (I := fun n => Inv B w n ∧ m.store.Grew n.store) ?_ ⟨I, .of_eq rfl⟩
  rintro n e n' ⟨In, hg⟩ hstep
  obtain ⟨I', hg'⟩ := In.exec hstep
  exact ⟨I', hg.trans hg'⟩

end Program

def isUpstream (r : Region) : Bool :=
  match r.kind with
  | .upstream .. => true
  | _ => false

/-- What the last resource has out. -/
def upstreamLive (st : Store) : List Region := st.world.heap.regions.filter isUpstream

theorem upstreamLive_eq (B : Build) (st : Store) :
    upstreamLive st = (st.foreign B).filter isUpstream := by
  rw [Store.foreign, List.filter_filter]
  refine List.filter_congr fun r _ => ?_
  cases hu : isUpstream r with
  | false => rfl
  | true =>
    rw [Bool.true_and, eq_comm, decide_eq_true_eq]
    intro hr
    obtain ⟨p, -, hr⟩ := List.mem_flatMap.mp hr
    simp only [PoolStruct.regions, List.mem_cons, List.mem_flatMap] at hr
    rcases hr with rfl | rfl | ⟨c, -, rfl | rfl | hr⟩ <;> simp [isUpstream] at *

open Program in
/-- Any resources over any pools, chained in any way, in any order of calls. `is_equal` is an
equivalence, and equal resources have the same supplier for every request. An allocation asks the
supplier and nobody else; if it throws nothing has changed. What is out is as large and as aligned
as requested and shares no byte, and its supplier is the same for as long as it is out. A release
through an equal resource goes to the supplier, which accepts it and gets it back. When the same
allocations are out again, so are the same blocks of every pool and the same regions of the last
resource. -/
theorem supplier_chain {B : Build} {w : World} {es es' : List (Op × Reply)} {m m' : Program}
    (hrun : (Program.lts B).Run (Program.start w) es m)
    (hrun' : (Program.lts B).Run m es' m') :
    (Equivalence fun r r' : MemoryResource => r.isEqual r' = true) ∧
    (∀ r ∈ m.resources, ∀ r' ∈ m.resources, r.isEqual r' = true → ∀ bytes alignment,
      r.supplier B m.store bytes alignment = r'.supplier B m.store bytes alignment) ∧
    (∀ r ∈ m.resources, ∀ env bytes alignLog,
      r.allocate B env m.store bytes (2 ^ alignLog) =
        m.store.request B env bytes (2 ^ alignLog)
          (r.supplier B m.store bytes (2 ^ alignLog)) ∧
      ((r.allocate B env m.store bytes (2 ^ alignLog)).1 = none →
        m.store.Unchanged (r.allocate B env m.store bytes (2 ^ alignLog)).2) ∧
      ∀ ptr, (r.allocate B env m.store bytes (2 ^ alignLog)).1 = some ptr →
        m.store.Lent B (r.allocate B env m.store bytes (2 ^ alignLog)).2
          (Allocation.loan B m.store ⟨r, bytes, alignLog, ptr⟩)) ∧
    (∀ x ∈ m.outstanding, Store.Supplied m.store (x.loan B m.store) ∧
      x.loan B m'.store = x.loan B m.store) ∧
    (m.outstanding.map (Allocation.loan B m.store)).Pairwise (Loan.Apart m.store) ∧
    (∀ r ∈ m.resources, ∀ x ∈ m.outstanding, r.isEqual x.resource = true → ∀ env,
      m.store.Accepts B (x.loan B m.store) ∧
      r.deallocate B env m.store x.ptr x.bytes (2 ^ x.alignLog) =
        m.store.giveBack B env (x.loan B m.store) ∧
      (r.deallocate B env m.store x.ptr x.bytes (2 ^ x.alignLog)).Lent B m.store
        (x.loan B m.store)) ∧
    m.store.world.heap.ledger.invalid = w.heap.ledger.invalid ∧
    (m'.outstanding.Perm m.outstanding →
      (∀ i < m.store.pools.length, (m'.store.live B i).Perm (m.store.live B i)) ∧
      (upstreamLive m'.store).Perm (upstreamLive m.store)) := by
  obtain ⟨I, -⟩ := (Inv.start B w).run hrun
  obtain ⟨I', hg⟩ := I.run hrun'
  refine ⟨isEqual_equivalence, ?_, ?_, ?_, I.account.inv.pairwise_apart, ?_, I.account.inv.valid,
    ?_⟩
  · intro r hr r' hr' h bytes alignment
    exact supplier_eq (.of_eq rfl) (I.bound r' hr') (I.equal_pools hr hr' h) bytes alignment
  · intro r hr env bytes alignLog
    refine ⟨allocate_eq B env m.store bytes _ r, ?_⟩
    obtain ⟨-, ⟨ha, hun, -⟩ | ⟨ptr, ha, hlent, -⟩⟩ := I.allocate hr env bytes alignLog
    · rw [ha]
      exact ⟨fun _ => hun, (fun ptr h => by cases h)⟩
    · rw [ha]
      refine ⟨(fun h => by cases h), ?_⟩
      rintro _ ⟨⟩
      exact hlent
  · intro x hx
    exact ⟨I.account.supplied hx, I.account.stable x hx m'.store hg⟩
  · intro r hr x hx hequal env
    have heq := I.deallocate_eq hr hx hequal env
    obtain ⟨-, -, haccepts, hlent⟩ := I.account.giveBack (List.perm_cons_erase hx) env
    rw [heq]
    exact ⟨haccepts, rfl, hlent⟩
  · intro hperm
    have hrest := I.account.restored I'.account hg hperm
    refine ⟨hrest.live, ?_⟩
    rw [upstreamLive_eq B, upstreamLive_eq B]
    exact hrest.foreign.filter _

/-- Two pools in a chain, with two heads that are equal; the second pool is exhausted once. -/
def chainProgram : List Op :=
  [.create firstEnv firstCall, .create ⟨some 0x4000, some 0x300, 0⟩ (.fixed 64 1),
    .construct 1 none, .construct 0 (some 0), .construct 0 (some 0), .allocate 1 firstEnv 8 3,
    .allocate 1 firstEnv 48 4, .allocate 2 ⟨some 0x8000, none, 0⟩ 100 5, .allocate 1 firstEnv 48 4,
    .write 0x4010 7, .deallocate 2 firstEnv 0x1000 8 3]

theorem supplier_chain_x64 :
    ∃ es m, (Program.lts (Build.x64 true .none)).Run (Program.start World.start) es m ∧
      m.outstanding.map Allocation.ptr = [0x8000, 0x4000] ∧
      (m.outstanding.map (Allocation.loan (Build.x64 true .none) m.store)).Pairwise
        (Loan.Apart m.store) := by
  have h : (Lts.script (Lts.answered (Program.exec (Build.x64 true .none)))
      (Program.start World.start) chainProgram).map
        (fun r => r.2.outstanding.map Allocation.ptr) = some [0x8000, 0x4000] := by
    decide +kernel
  obtain ⟨es, m, hrun, hm⟩ := Lts.script_reaches
    (Lts.answered_step (Program.lts (Build.x64 true .none)) fun _ _ _ _ h => h)
    (fun m : Program => m.outstanding.map Allocation.ptr) h
  exact ⟨es, m, hrun, hm, (supplier_chain hrun .nil).2.2.2.2.1⟩

end MemoryResource

end MemoryPool
