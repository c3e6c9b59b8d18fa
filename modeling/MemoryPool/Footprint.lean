import Mathlib.Tactic.Linarith
import MemoryPool.DiagnosticsCorrect
import MemoryPool.Growth
import MemoryPool.MutexSerial

/-!
# MemoryPool.Footprint

How large a dynamic pool gets. It grows when all of its slots are out and one more is asked for, so
what it has never exceeds the growth factor times what its clients have needed
(`Compact.step`). The threads of the `MUTEX` build do not make it grow more than one client with
their calls would (`Serial`).

And what it takes of the heap is what `memory_pool_metadata_bytes` says and the slots
(`PoolStruct.regions_bytes`, `Client.run_metered`): no block costs anything beside its slot.
-/

namespace MemoryPool

open ByteMem LinkedList

theorem PoolStruct.capacity_eq (p : PoolStruct) :
    p.capacity = p.blockCount + slotSum p.overflow := by
  simp [PoolStruct.capacity, PoolStruct.chunks, slotSum, List.map_map, Function.comp_def]

/-- A pool made with `N` blocks and factor `F`, of which no more than `peak` have been out. -/
def Compact (B : Build) (N F peak : Nat) (p : PoolStruct) : Prop :=
  ∃ k, Geometric B N F k p ∧ N * F ^ k ≤ max N (F * (peak - 1))

namespace Compact

variable {B : Build} {N F peak : Nat} {p : PoolStruct}

theorem start (hc : p.blockCount = N) (hf : p.growFactor = F) (ho : p.overflow = [])
    (hg : p.growCount = 0) (hN : N < B.modulus) : Compact B N F peak p := by
  refine ⟨0, ⟨hc, hf, by rw [ho]; rfl, hg, ?_, by simpa using hN⟩, by simp⟩
  rw [ho]
  simp [slotSum]

theorem capacity_le (C : Compact B N F peak p) :
    p.capacity = N * F ^ p.overflow.length ∧ p.capacity ≤ max N (F * (peak - 1)) := by
  obtain ⟨k, G, hle⟩ := C
  have hcap : p.capacity = N * F ^ k := by rw [p.capacity_eq, G.blockCount, G.total]
  rw [G.chunks, hcap]
  exact ⟨rfl, hle⟩

variable {c c' : Client} {e : Client.Event} {others : List (Nat × Region)} {free : List Nat}

/-- A growth finds all slots held, and the block it is for is one more. -/
theorem step (C : Compact B N F peak c.pool.pool) (hN : 0 < N) (hF : 2 ≤ F) (hlt : F < B.modulus)
    (I : PoolInv B c.pool others free c.held) (hstep : Client.Step B c e c')
    (hok : Client.Tolerated B c e) (hpeak : c'.held.length ≤ peak) :
    Compact B N F peak c'.pool.pool := by
  obtain ⟨k, G, hle⟩ := C
  have hcap : c.pool.pool.capacity = N * F ^ k := by
    rw [PoolStruct.capacity_eq, G.blockCount, G.total]
  have G' := (hstep.geometric I.layout hN hF hlt G).1
  cases hgrew : e.grew with
  | false =>
    rw [hgrew] at G'
    exact ⟨k, G', hle⟩
  | true =>
    rw [hgrew] at G'
    refine ⟨k + 1, G', le_max_of_le_right ?_⟩
    cases hstep.effect I hok with
    | grow tag hg hfactor =>
      have hall := I.free_length
      rw [List.length_nil, Nat.zero_add, hcap] at hall
      rw [List.length_cons, hall] at hpeak
      calc N * F ^ (k + 1) = F * (N * F ^ k) := by rw [Nat.pow_succ]; ring
        _ ≤ F * (peak - 1) := Nat.mul_le_mul_left _ (by omega)
    | _ => cases hgrew

end Compact

/-! ## What a pool takes of the heap -/

theorem PoolStruct.regions_bytes (B : Build) (p : PoolStruct) :
    ((p.regions B).map Region.bytes).sum =
      B.sizeofMemoryPool + p.overflow.length * B.sizeofChunk +
        p.capacity * slotStride B p.blockSize := by
  rw [p.capacity_eq]
  unfold PoolStruct.regions slotSum
  simp only [List.map_cons, List.sum_cons]
  induction p.overflow with
  | nil =>
    simp only [List.flatMap_nil, List.map_nil, List.sum_nil, List.length_nil]
    ring
  | cons c rest ih =>
    simp only [List.flatMap_cons, List.map_append, List.map_cons, List.map_nil, List.sum_append,
      List.sum_cons, List.sum_nil, List.length_cons]
    linarith

/-- `memory_pool_metadata_bytes` is the struct and the descriptors: its sum does not wrap. -/
def Metered (B : Build) (s : State) : Prop :=
  memoryPoolMetadataBytes B (some s) = B.sizeofMemoryPool + s.pool.overflow.length * B.sizeofChunk

/-- A pool with a growth factor below two keeps the one chunk it was made with. -/
theorem Client.Step.fixed {B : Build} {c c' : Client} {e : Client.Event} (h : Client.Step B c e c')
    (hfixed : c.pool.pool.growFactor < 2) : c.pool.pool.SameShape c'.pool.pool := by
  cases h with
  | @alloc env block s' h =>
    rw [memoryPoolAlloc_some] at h
    have hf := popHead_frame B env c.pool
    generalize popHead B env c.pool = r at h hf
    cases h
    cases hf with
    | vend _ h1 _ => exact h1
    | fail _ h1 _ => exact h1
    | grew _ _ hfactor _ _ => omega
  | @free env block s' h =>
    obtain ⟨s'', h1, h2, -⟩ := memoryPoolFree_frame B env c.pool block
    rw [h] at h1
    cases h1
    exact h2
  | write => rfl

theorem Client.run_metered {B : Build} {env : Env} {w w' : World} {call : CreateCall}
    {p : PoolStruct} (hr : call.InRange B) (hcreate : call.run B env w = (some p, w'))
    {es : List Client.Event} {c : Client} (hrun : (Client.lts B).Run ⟨⟨w', p⟩, []⟩ es c) :
    Metered B c.pool := by
  have C := CreateCall.created hr hcreate
  obtain ⟨hpc, hpf⟩ := CreateCall.run_fields hcreate
  cases call with
  | fixed blockSize N =>
    have hover : c.pool.pool.growFactor = 0 ∧ c.pool.pool.overflow = [] := by
      refine hrun.invariant (I := fun d => d.pool.pool.growFactor = 0 ∧
        d.pool.pool.overflow = []) ?_ ⟨hpf, C.overflow⟩
      rintro d e d' ⟨hf, ho⟩ hs
      rw [Client.Step.fixed hs (by omega)]
      exact ⟨hf, ho⟩
    simp [Metered, memoryPoolMetadataBytes, hover.2]
  | dynamic blockSize N F =>
    obtain ⟨-, hF, -⟩ := memoryPoolCreateDynamic_some hcreate
    have hN : 0 < N := by
      have h := (C.inv.layout.chunk_pos (p.backing, p.blockCount) (List.mem_cons_self ..)).2
      simp only [show p.blockCount = N from hpc] at h
      exact h
    obtain ⟨k, G, -⟩ : Compact B N F 0 p := .start hpc hpf C.overflow C.growCount hr.2.1
    obtain ⟨L, G'⟩ := Client.run_geometric hrun C.inv.layout hN hF hr.2.2 G
    have hexact := (G'.growthExact hN hF hr.2.2 L.stride_pos).metadata
    unfold Metered
    rw [hexact, G'.chunks]

/-- Of the heap of `s` the pool has as many bytes as `memory_pool_metadata_bytes` says and one
stride for each slot, the rest being as in `w`. -/
def HeapShare (B : Build) (w : World) (s : State) : Prop :=
  ∃ own, s.heap.ledger.live.Perm (own ++ w.heap.ledger.live) ∧
    (own.map fun e => e.2.bytes).sum =
      memoryPoolMetadataBytes B (some s) + s.pool.capacity * slotStride B s.pool.blockSize

/-! ## One client -/

/-- The client holds no more than `peak` blocks. -/
def Client.Within (B : Build) (peak : Nat) (c : Client) (e : Client.Event) (c' : Client) : Prop :=
  Client.Tolerated B c e ∧ c'.held.length ≤ peak

theorem Compact.along {B : Build} {N F peak : Nat} {c c' : Client} {es : List Client.Event}
    {others : List (Nat × Region)} (hN : 0 < N) (hF : 2 ≤ F) (hlt : F < B.modulus)
    (h : ((Client.lts B).restrict (Client.Within B peak)).Run c es c')
    (hI : ∃ free, PoolInv B c.pool others free c.held) (hC : Compact B N F peak c.pool.pool) :
    (∃ free, PoolInv B c'.pool others free c'.held) ∧ Compact B N F peak c'.pool.pool := by
  refine h.invariant (I := fun d => (∃ free, PoolInv B d.pool others free d.held) ∧
    Compact B N F peak d.pool.pool) ?_ ⟨hI, hC⟩
  rintro d e d' ⟨⟨free, I⟩, C⟩ ⟨⟨hok, hpeak⟩, hs⟩
  obtain ⟨-, free', I', -⟩ := Client.refines I hs hok
  exact ⟨⟨free', I'⟩, C.step hN hF hlt I hs hok hpeak⟩

/-! ## Threads -/

namespace Mutex

variable {τ : Type*} [DecidableEq τ] {B : Build} {N F peak : Nat} {m m' : Machine τ} {c : Client}
  {e : Event τ} {others : List (Nat × Region)}

/-- The threads hold, or have passed to frees that have not taken effect, no more than `peak`
blocks. -/
def Machine.Lends (B : Build) (peak : Nat) (m : Machine τ) : Prop :=
  ∀ blocks : List Nat, blocks.Nodup → (∀ b ∈ blocks, ∃ t, b ∈ m.lent B t) →
    blocks.length ≤ peak

def Within (B : Build) (peak : Nat) (m : Machine τ) (e : Event τ) (m' : Machine τ) : Prop :=
  Honest B m e m' ∧ m'.Lends B peak

theorem Serial.compact_step (S : Serial B others m c) (hts : B.threadSafety = .mutex)
    (C : Compact B N F peak c.pool.pool) (hN : 0 < N) (hF : 2 ≤ F) (hlt : F < B.modulus)
    (h : ((lts B τ).restrict (Within B peak)).step m e m') :
    ∃ c', Serial B others m' c' ∧ Compact B N F peak c'.pool.pool := by
  obtain ⟨⟨hH, hlends⟩, hs⟩ := h
  obtain ⟨ds, c', hIs, hrun, S'⟩ := S.step hts ⟨hH, hs⟩
  refine ⟨c', S', ?_⟩
  cases hcommit : m.commit e with
  | none =>
    rw [hcommit] at hIs
    cases hIs
    rwa [hrun.nil_inv]
  | some commit =>
    rw [hcommit] at hIs
    obtain ⟨d, ds, -, hnil, rfl⟩ := List.forall₂_cons_left_iff.mp hIs
    cases hnil
    obtain ⟨hproper, hstep⟩ := hrun.single_inv
    obtain ⟨free, I⟩ := S.inv
    obtain ⟨free', I'⟩ := S'.inv
    refine C.step hN hF hlt I hstep hproper.tolerated (hlends c'.held ?_ fun b hb => ?_)
    · exact (List.nodup_append.mp I'.nodup).2.1
    · exact (S'.held b).mp hb

/-! ## Three blocks out, four slots -/

def execWithin (B : Build) (peak : Nat) (m : Machine Bool) (e : Event Bool) :
    Option (Event Bool × Machine Bool) :=
  (execHonest B m e).filter fun r => decide ((r.2.lent B false ++ r.2.lent B true).length ≤ peak)

theorem execWithin_step {B : Build} {peak : Nat} (m : Machine Bool) (i e : Event Bool)
    (m' : Machine Bool) (h : execWithin B peak m i = some (e, m')) :
    ((lts B Bool).restrict (Within B peak)).step m e m' := by
  obtain ⟨h1, h2⟩ := Option.filter_eq_some_iff.mp h
  obtain ⟨hH, hs⟩ := execHonest_step m i e m' h1
  refine ⟨⟨hH, fun blocks hnodup hlent => ?_⟩, hs⟩
  have hsub : blocks ⊆ m'.lent B false ++ m'.lent B true := by
    intro b hb
    obtain ⟨t, ht⟩ := hlent b hb
    cases t with
    | false => exact List.mem_append_left _ ht
    | true => exact List.mem_append_right _ ht
  exact (hnodup.subperm hsub).length_le.trans (of_decide_eq_true h2)

theorem overtaken_within : ∃ m, ((lts (Build.x64 false .mutex) Bool).restrict
    (Within (Build.x64 false .mutex) 3)).Run growingMachine overtakenFree m ∧
      (m.shared.owner, m.shared.pool.overflow.length) = (none, 2) := by
  have h : (Lts.script (execWithin (Build.x64 false .mutex) 3) growingMachine overtakenFree).map
      (fun r => (r.1, r.2.shared.owner, r.2.shared.pool.overflow.length)) =
      some (overtakenFree, none, 2) := by decide +kernel
  exact Lts.script_run execWithin_step
    (fun m : Machine Bool => (m.shared.owner, m.shared.pool.overflow.length)) h

end Mutex

section Theorems

open Mutex

/-- A dynamic pool made with `N` blocks and factor `F`, and a client that the pool tolerates. If it
never holds more than `peak` blocks, the pool never has more than the larger of `N` and
`F * (peak - 1)`, whichever growths fail, and `k` overflow chunks only if that is at least
`N * F ^ k`. The same is true of honest threads of a `MUTEX` build under any interleaving, whenever
nobody holds the mutex. -/
theorem growth_on_demand {τ : Type*} [DecidableEq τ] {B : Build} {env : Env} {w w' : World}
    {blockSize N F : Nat} {p : PoolStruct}
    (hr : (CreateCall.dynamic blockSize N F).InRange B)
    (hcreate : memoryPoolCreateDynamic B env w blockSize N F = (some p, w')) (peak : Nat) :
    (∀ es c, ((Client.lts B).restrict (Client.Within B peak)).Run ⟨⟨w', p⟩, []⟩ es c →
      c.pool.pool.capacity = N * F ^ c.pool.pool.overflow.length ∧
        c.pool.pool.capacity ≤ max N (F * (peak - 1))) ∧
    (B.threadSafety = .mutex → ∀ (es : List (Event τ)) m,
      ((lts B τ).restrict (Within B peak)).Run (.start ⟨w', p⟩) es m → m.shared.owner = none →
        m.shared.pool.capacity = N * F ^ m.shared.pool.overflow.length ∧
          m.shared.pool.capacity ≤ max N (F * (peak - 1))) := by
  have hcall : (CreateCall.dynamic blockSize N F).run B env w = (some p, w') := hcreate
  have C := CreateCall.created hr hcall
  obtain ⟨hpc, hpf⟩ := CreateCall.run_fields hcall
  simp only [CreateCall.blockCount, CreateCall.growthFactor] at hpc hpf
  obtain ⟨-, hF, -⟩ := memoryPoolCreateDynamic_some hcreate
  have hN : 0 < N := by
    have h := (C.inv.layout.chunk_pos (p.backing, p.blockCount) (List.mem_cons_self ..)).2
    simp only [hpc] at h
    exact h
  have hstart : Compact B N F peak p := .start hpc hpf C.overflow C.growCount hr.2.1
  constructor
  · intro es c hrun
    exact (Compact.along hN hF hr.2.2 hrun ⟨_, C.inv⟩ hstart).2.capacity_le
  · intro hts es m hrun ho
    obtain ⟨c, S, hC⟩ : ∃ c, Serial B w.heap.ledger.live m c ∧
        Compact B N F peak c.pool.pool := by
      refine hrun.invariant (I := fun d => ∃ c, Serial B w.heap.ledger.live d c ∧
        Compact B N F peak c.pool.pool) ?_ ⟨_, .start C.overflow C.inv, hstart⟩
      rintro d e d' ⟨c, S, hC⟩ hs
      exact S.compact_step hts hC hN hF hr.2.2 hs
    have hpool := S.settled (S.entry_free ho)
    have h := hC.capacity_le
    rw [hpool] at h
    exact h

/-- The bound is met: three blocks are out and the pool has four. -/
theorem growth_on_demand_x64 : ∃ m : Machine Bool,
    ((lts (Build.x64 false .mutex) Bool).restrict (Within (Build.x64 false .mutex) 3)).Run
      growingMachine overtakenFree m ∧
    m.shared.pool.capacity = 1 * 2 ^ 2 ∧ m.shared.pool.capacity ≤ max 1 (2 * (3 - 1)) := by
  obtain ⟨m, hrun, hm⟩ := overtaken_within
  obtain ⟨ho, hlen⟩ : _ ∧ _ := by simpa using hm
  have hcreate : memoryPoolCreateDynamic (Build.x64 false .mutex) firstEnv World.start 16 1 2 =
      (some firstPool, (firstClient (Build.x64 false .mutex)).pool.toWorld) :=
    firstCall_run false .mutex (by decide)
  obtain ⟨h1, h2⟩ := (growth_on_demand (by decide) hcreate 3).2 rfl overtakenFree m hrun ho
  rw [hlen] at h1
  exact ⟨m, hrun, h1, h2⟩

/-- Of the heap a pool has exactly as many bytes as `memory_pool_metadata_bytes` says and
`slot_stride` for each slot, after any run of any client, whatever it frees or writes and whichever
growths fail. In a `MUTEX` build the same is true of honest threads under any interleaving, whenever
nobody holds the mutex. -/
theorem heap_footprint {τ : Type*} [DecidableEq τ] {B : Build} {env : Env} {w w' : World}
    {call : CreateCall} {p : PoolStruct} (hr : call.InRange B)
    (hcreate : call.run B env w = (some p, w')) :
    (∀ es c, (Client.lts B).Run ⟨⟨w', p⟩, []⟩ es c → HeapShare B w c.pool) ∧
    (B.threadSafety = .mutex → ∀ (es : List (Event τ)) m,
      ((lts B τ).restrict (Honest B)).Run (.start ⟨w', p⟩) es m → m.shared.owner = none →
        HeapShare B w m.shared.toState) := by
  have C := CreateCall.created hr hcreate
  have hclient : ∀ es c, (Client.lts B).Run ⟨⟨w', p⟩, []⟩ es c → HeapShare B w c.pool := by
    intro es c hrun
    obtain ⟨own, hlive, hown⟩ := (Client.run_layout hrun C.inv.layout).1.owned
    refine ⟨own, hlive, ?_⟩
    have hbytes := (hown.map Region.bytes).sum_eq
    rw [List.map_map] at hbytes
    rw [Client.run_metered hr hcreate hrun]
    exact hbytes.trans (c.pool.pool.regions_bytes B)
  refine ⟨hclient, fun hts es m hrun ho => ?_⟩
  obtain ⟨ds, c, hds, S⟩ : ∃ ds c, (Client.lts B).Run ⟨⟨w', p⟩, []⟩ ds c ∧
      Serial B w.heap.ledger.live m c := by
    refine hrun.invariant (I := fun d => ∃ ds c, (Client.lts B).Run ⟨⟨w', p⟩, []⟩ ds c ∧
      Serial B w.heap.ledger.live d c) ?_ ⟨[], _, .nil, .start C.overflow C.inv⟩
    rintro d e d' ⟨ds, c, hds, S⟩ hs
    obtain ⟨ds', c', -, hrun', S'⟩ := S.step hts hs
    exact ⟨ds ++ ds', c', hds.trans hrun'.of_guard, S'⟩
  rw [← S.settled (S.entry_free ho)]
  exact hclient ds c hds

theorem heap_footprint_x64 : ∃ m : Machine Bool,
    ((lts (Build.x64 false .mutex) Bool).restrict (Honest (Build.x64 false .mutex))).Run
      growingMachine overtakenFree m ∧
    HeapShare (Build.x64 false .mutex) World.start m.shared.toState := by
  obtain ⟨m, hrun, hm⟩ := overtaken_run
  obtain ⟨ho, -, -⟩ : _ ∧ _ ∧ _ := by simpa using hm
  have hcreate : firstCall.run (Build.x64 false .mutex) firstEnv World.start =
      (some firstPool, (firstClient (Build.x64 false .mutex)).pool.toWorld) :=
    firstCall_run false .mutex (by decide)
  exact ⟨m, hrun, (heap_footprint (by decide) hcreate).2 rfl overtakenFree m hrun ho⟩

end Theorems

end MemoryPool
