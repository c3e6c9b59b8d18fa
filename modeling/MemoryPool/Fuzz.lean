import MemoryPool.ClientMemory
import MemoryPool.InstrumentedCorrect
import MemoryPool.Neighbours
import MemoryPool.SizeArithmetic

/-!
# MemoryPool.Fuzz

The fuzzing harness `pool_fuzz.cpp`. It reads a byte buffer as a program over one
`InstrumentedPool`: allocate, free a live block, free null, free a foreign pointer. A shadow list of
the live blocks, each filled with a canary byte, says what every step has to find.

In `Run`, `throw` is an `expect` that fails and aborts, and `none` a loop that did not get to its
end within the tests it was given. `foreign` is the address of the local object of that name. The
storage of the vector `live` is not modelled.

* `doAlloc_sound`, `doFreeValid_sound`: one operation, with all its checks.
* `opcodeLoop_sound`, `drain_sound`: the two loops.
* `fuzz_clean`: whatever the bytes, no check of the harness ever fails.
-/

namespace MemoryPool

namespace Fuzz

open ByteMem InstrumentedPool

abbrev Run := ExceptT String Option

def unfinished {α : Type} : Run α := ExceptT.mk none

structure LiveBlock where
  ptr : Nat
  canary : UInt8
  deriving DecidableEq

/-- `MAX_LIVE`. -/
def maxLive : Nat := 1024

/-- The bytes that the cursor has not passed. -/
structure ByteReader where
  rest : List UInt8

def ByteReader.next (reader : ByteReader) : UInt8 × ByteReader :=
  match reader.rest with
  | [] => (0, reader)
  | byte :: rest => (byte, ⟨rest⟩)

def ByteReader.done (reader : ByteReader) : Bool := reader.rest.isEmpty

def expect (condition : Bool) (what : String) : Run Unit :=
  if condition then pure () else throw what

/-- `std::memset`, in the memory of the pool. -/
def memset (pool : InstrumentedPool) (block : Nat) (byte : UInt8) (bytes : Nat) :
    InstrumentedPool :=
  { pool with pool := pool.pool.map fun s => { s with mem := fill s.mem block bytes byte } }

def byteAt (pool : InstrumentedPool) (addr : Nat) : UInt8 :=
  match pool.pool with
  | none => 0
  | some s => s.mem addr

def doAlloc (B : Build) (env : CallEnv) (pool : InstrumentedPool) (live : List LiveBlock)
    (canary : UInt8) : Run (InstrumentedPool × List LiveBlock) :=
  if maxLive ≤ live.length then pure (pool, live)
  else
    let (block, pool) := pool.tryAllocate B env
    if block = 0 then pure (pool, live)
    else do
      live.forM fun held =>
        expect (held.ptr != block) "allocate returned an already-live block (free-list aliasing)"
      let bytes := memoryPoolBlockSize pool.pool
      pure (memset pool block canary bytes, live ++ [⟨block, canary⟩])

def doFreeValid (B : Build) (env : CallEnv) (pool : InstrumentedPool) (live : List LiveBlock)
    (index : Nat) : Run (InstrumentedPool × List LiveBlock) :=
  if live.isEmpty then pure (pool, live)
  else
    let position := index % live.length
    match live[position]? with
    | none => throw "std::out_of_range"
    | some target => do
      let bytes := memoryPoolBlockSize pool.pool
      (List.range bytes).forM fun i =>
        expect (byteAt pool (target.ptr + i) == target.canary)
          "canary mismatch (overlap or write to a live block)"
      pure (pool.deallocate B env target.ptr, live.eraseIdx position)

/-- What the leading bytes configure. -/
structure Config where
  blockSize : Nat
  blockCount : Nat
  dynamic : Bool
  growthFactor : Nat

def configure (B : Build) (reader : ByteReader) : Config × ByteReader :=
  let (size, reader) := reader.next
  let (count, reader) := reader.next
  let (mode, reader) := reader.next
  (⟨B.mul B.poolAlignment (1 + (size &&& 0x03).toNat), 1 + (count &&& 0x07).toNat,
    mode &&& 0x01 != 0, 2 + ((mode >>> 1) &&& 0x01).toNat⟩, reader)

def Config.call (config : Config) : CreateCall :=
  if config.dynamic then .dynamic config.blockSize config.blockCount config.growthFactor
  else .fixed config.blockSize config.blockCount

/-- What the two create calls, each turn of the opcode loop and each turn of the drain find. -/
structure Envs where
  create : Env
  fallback : Env
  turns : Nat → CallEnv
  drain : Nat → CallEnv

/-- The pool the bytes ask for, or else the fixed one. -/
def createPool (B : Build) (envs : Envs) (w : World) (config : Config) :
    Option PoolStruct × World :=
  match config.call.run B envs.create w with
  | (some pool, w) => (some pool, w)
  | (none, w) => memoryPoolCreate B envs.fallback w config.blockSize config.blockCount

/-- The `switch` on one opcode. -/
def turn (B : Build) (env : CallEnv) (foreign : Nat) (reader : ByteReader)
    (active : InstrumentedPool) (live : List LiveBlock) :
    Run (ByteReader × InstrumentedPool × List LiveBlock) :=
  let (opcode, reader) := reader.next
  match (opcode &&& 0x03).toNat with
  | 0 => do
    let (active, live) ← doAlloc B env active live (UInt8.ofNat (0xA0 + (live.length &&& 0x0F)))
    pure (reader, active, live)
  | 1 => do
    let (index, reader) := reader.next
    let (active, live) ← doFreeValid B env active live index.toNat
    pure (reader, active, live)
  | 2 => pure (reader, active.deallocate B env 0, live)
  | _ => pure (reader, { active with pool := memoryPoolFree B env.pool active.pool foreign }, live)

def opcodeLoop (B : Build) (envs : Nat → CallEnv) (foreign : Nat) :
    Nat → ByteReader → InstrumentedPool → List LiveBlock → Nat →
      Run (InstrumentedPool × List LiveBlock × Nat)
  | 0, _, _, _, _ => unfinished
  | tests + 1, reader, active, live, peak =>
    if reader.done then pure (active, live, peak)
    else do
      let (reader, active, live) ← turn B (envs tests) foreign reader active live
      let peak := if peak < live.length then live.length else peak
      expect (active.stats.live == live.length)
        "instrumented live count diverged from the shadow set"
      opcodeLoop B envs foreign tests reader active live peak

def drain (B : Build) (envs : Nat → CallEnv) :
    Nat → InstrumentedPool → List LiveBlock → Run InstrumentedPool
  | 0, _, _ => unfinished
  | tests + 1, active, live =>
    if live.isEmpty then pure active
    else do
      let (active, live) ← doFreeValid B (envs tests) active live 0
      drain B envs tests active live

/-- `~InstrumentedPool`: its body, then the member. -/
def destruct (w : World) (pool : InstrumentedPool) : World :=
  match (pool.notify .destroyed).pool with
  | none => w
  | some s => memoryPoolDestroy s.toWorld (some s.pool)

/-- `run_program`, to the world it leaves. -/
def runProgram (B : Build) (envs : Envs) (w : World) (foreign tests : Nat) (data : List UInt8) :
    Run World := do
  let (config, reader) := configure B ⟨data⟩
  let (pool, w) := createPool B envs w config
  expect pool.isSome "failed to create a pool from a valid configuration"
  match pool with
  | none => pure w
  | some pool => do
    let active := adopt (some ⟨w, pool⟩)
    let (active, live, peak) ← opcodeLoop B envs.turns foreign tests reader active [] 0
    let active ← drain B envs.drain tests active live
    let final := active.stats
    expect (final.live == 0) "blocks still live after draining"
    expect (final.allocations == final.deallocations)
      "allocation / deallocation counts unbalanced"
    expect (final.peakLive == peak)
      "instrumented peak-live disagrees with the observed high-water mark"
    pure (destruct w active)

end Fuzz

/-! ## One block filled, one block taken out of the list -/

section

open ByteMem

variable {B : Build} {s : State} {others : List (Nat × Region)} {free held : List Nat}

theorem PoolInv.fill (I : PoolInv B s others free held) {b : Nat} (hb : b ∈ held) (byte : UInt8) :
    ∀ n ≤ s.pool.blockSize,
      PoolInv B { s with mem := ByteMem.fill s.mem b n byte } others free held := by
  intro n
  induction n with
  | zero =>
    intro _
    rw [fill_zero]
    exact I
  | succ n ih =>
    intro hn
    rw [fill_succ]
    exact (ih (by omega)).write hb (Nat.le_add_right b n) (by simp only []; omega)

theorem perm_eraseIdx {l : List Nat} {i a : Nat} (h : l[i]? = some a) :
    (l.erase a).Perm (l.eraseIdx i) := by
  obtain ⟨hi, rfl⟩ := List.getElem?_eq_some_iff.mp h
  refine List.Perm.cons_inv (a := l[i]) ?_
  exact (List.perm_cons_erase (List.getElem_mem hi)).symm.trans
    (List.getElem_cons_eraseIdx_perm hi).symm

end

namespace Fuzz

open ByteMem InstrumentedPool

/-! ## What the shadow list says of the pool -/

structure Shadows (B : Build) (w : World) (s : State) (live : List LiveBlock) : Prop where
  inv : ∃ free, PoolInv B s w.heap.ledger.live free (live.map LiveBlock.ptr)
  canaries : ∀ b ∈ live, ∀ x, b.ptr ≤ x → x < b.ptr + s.pool.blockSize → s.mem x = b.canary
  reports : s.reports = w.reports
  invalid : s.heap.ledger.invalid = w.heap.ledger.invalid

/-- The counters: `count` blocks are out, and at most `most` ever were. -/
structure Tallies (B : Build) (ip : InstrumentedPool) (count most : Nat) : Prop where
  live : ip.live = count
  peakLive : ip.peakLive = most
  most_ge : count ≤ most
  balance : ip.allocations = B.add ip.deallocations count
  bound : ip.deallocations < B.modulus

def Sound (B : Build) (w : World) (active : InstrumentedPool) (live : List LiveBlock)
    (peak : Nat) : Prop :=
  ∃ s, active.pool = some s ∧ Shadows B w s live ∧ Tallies B active live.length peak

section Steps

variable {B : Build} {w : World} {s : State} {live : List LiveBlock}

theorem Shadows.count_lt (H : Shadows B w s live) : live.length < B.modulus := by
  obtain ⟨free, I⟩ := H.inv
  have h := I.held_length
  rwa [List.length_map] at h

/-- A pop that fails changes nothing the shadow list speaks of. -/
theorem Shadows.fail (H : Shadows B w s live) {env : Env} (h0 : (popHead B env s).1 = 0) :
    Shadows B w (popHead B env s).2 live := by
  obtain ⟨free, I⟩ := H.inv
  have hres := popHead_result I env
  generalize popHead B env s = r at hres h0
  cases hres with
  | vend tag => exact absurd h0 I.head_eq.2
  | fail hsame =>
    exact ⟨⟨[], I.sameHeap hsame⟩, H.canaries, H.reports, hsame.2.trans H.invalid⟩
  | grow tag hg _ => exact absurd h0 hg.nonnull

/-- A pop that succeeds brings a block that is not live; the others keep their canaries. -/
theorem Shadows.pop (H : Shadows B w s live) {env : Env} (h0 : (popHead B env s).1 ≠ 0)
    (canary : UInt8) :
    (∀ b ∈ live, b.ptr ≠ (popHead B env s).1) ∧
      Shadows B w
        { (popHead B env s).2 with
          mem := fill (popHead B env s).2.mem (popHead B env s).1
            (popHead B env s).2.pool.blockSize canary }
        (live ++ [⟨(popHead B env s).1, canary⟩]) := by
  obtain ⟨free, I⟩ := H.inv
  have hstep : Client.Step B ⟨s, live.map LiveBlock.ptr⟩
      (.alloc env (popHead B env s).1 (newChunk s (popHead B env s).2)) _ :=
    .alloc (memoryPoolAlloc_some B env s)
  rw [if_neg h0] at hstep
  have hok : Client.Tolerated B ⟨s, live.map LiveBlock.ptr⟩
      (.alloc env (popHead B env s).1 (newChunk s (popHead B env s).2)) :=
    ⟨trivial, Or.inr trivial⟩
  obtain ⟨-, free', I', -, -, hreports, -⟩ := Client.refines I hstep hok
  have hsize := hstep.frame.blockSize
  have hinvalid := hstep.frame.invalid
  have hsame : ∀ b ∈ live, SameOn s.mem (popHead B env s).2.mem b.ptr s.pool.blockSize :=
    fun b hb => hstep.held_same I hok (List.mem_map_of_mem hb) trivial
  simp only [Client.expectedReports, List.append_nil] at hreports
  generalize popHead B env s = r at I' hreports hsize hinvalid hsame
  have hfresh : ∀ b ∈ live, b.ptr ≠ r.1 := by
    intro b hb heq
    have hnd := (List.nodup_append.mp I'.nodup).2.1
    exact (List.nodup_cons.mp hnd).1 (heq ▸ List.mem_map_of_mem hb)
  have hperm : (r.1 :: live.map LiveBlock.ptr).Perm
      ((live ++ [LiveBlock.mk r.1 canary]).map LiveBlock.ptr) := by
    rw [List.map_append]
    exact (List.perm_append_singleton ..).symm
  refine ⟨hfresh, ⟨⟨free', (I'.fill (List.mem_cons_self ..) canary _ le_rfl).perm_held hperm⟩, ?_,
    hreports.trans H.reports, hinvalid.trans H.invalid⟩⟩
  intro b hb x hl hu
  rcases List.mem_append.mp hb with hb | hb
  · -- another block: its slot is apart from the one filled
    have hap := I'.layout.slots_apart (I'.held_slot (List.mem_cons_of_mem _
      (List.mem_map_of_mem hb))) (I'.held_slot (List.mem_cons_self ..)) (hfresh b hb)
    have hstride := I'.layout.stride_ge
    simp only [] at hu hap hstride
    refine (fill_outside (by omega)).trans ?_
    rw [hsize] at hu
    rw [hsame b hb x hl hu]
    exact H.canaries b hb x hl hu
  · rw [List.mem_singleton.mp hb] at hl hu ⊢
    exact fill_inside hl hu

/-- The block at `i` given back: the others keep their canaries. -/
theorem Shadows.push (H : Shadows B w s live) {i : Nat} {target : LiveBlock}
    (hi : live[i]? = some target) (env : Env) :
    ∃ s', memoryPoolFree B env (some s) target.ptr = some s' ∧
      Shadows B w s' (live.eraseIdx i) := by
  obtain ⟨free, I⟩ := H.inv
  obtain ⟨s', hfree, -, -⟩ := memoryPoolFree_frame B env s target.ptr
  have hheld : target.ptr ∈ live.map LiveBlock.ptr :=
    List.mem_map_of_mem (List.mem_of_getElem? hi)
  have hptr : (live.map LiveBlock.ptr)[i]? = some target.ptr := by
    rw [List.getElem?_map, hi]
    rfl
  have hstep : Client.Step B ⟨s, live.map LiveBlock.ptr⟩ (.free env target.ptr) _ := .free hfree
  have hok : Client.Tolerated B ⟨s, live.map LiveBlock.ptr⟩ (.free env target.ptr) :=
    ⟨trivial, Or.inr (Or.inl hheld)⟩
  obtain ⟨-, free', I', -, -, hreports, -⟩ := Client.refines I hstep hok
  have hquiet : Client.expectedReports B ⟨s, live.map LiveBlock.ptr⟩ (.free env target.ptr) = [] :=
    if_neg fun h => h.2 hheld
  rw [hquiet, List.append_nil] at hreports
  have hperm := perm_eraseIdx hptr
  have hmap : (live.map LiveBlock.ptr).eraseIdx i = (live.eraseIdx i).map LiveBlock.ptr :=
    List.eraseIdx_map ..
  rw [hmap] at hperm
  refine ⟨s', hfree, ⟨free', I'.perm_held hperm⟩, ?_, hreports.trans H.reports,
    hstep.frame.invalid.trans H.invalid⟩
  intro b hb x hl hu
  have hlive : b ∈ live := List.mem_of_mem_eraseIdx hb
  have hne : target.ptr ≠ b.ptr := by
    -- the pointers are pairwise different, so what is left is not the target
    intro heq
    have hmem := hperm.mem_iff.mpr (List.mem_map_of_mem (f := LiveBlock.ptr) hb)
    rw [heq] at hmem
    exact List.Nodup.not_mem_erase (List.nodup_append.mp I.nodup).2.1 hmem
  have hsize : s'.pool.blockSize = s.pool.blockSize := hstep.frame.blockSize
  rw [hsize] at hu
  have hsame := hstep.held_same I hok (List.mem_map_of_mem hlive) hne
  rw [hsame x hl hu]
  exact H.canaries b hlive x hl hu

/-- A pointer into memory that was taken before the pool came is no slot of it. -/
theorem Shadows.foreign (H : Shadows B w s live) {foreign : Nat}
    (hforeign : ∃ e ∈ w.heap.ledger.live, e.2.base ≤ foreign ∧ foreign < e.2.base + e.2.bytes)
    (env : Env) : memoryPoolFree B env (some s) foreign = some s := by
  obtain ⟨free, I⟩ := H.inv
  obtain ⟨e, he, hl, hu⟩ := hforeign
  refine memoryPoolFree_foreign I.layout (fun hslot => ?_) env
  have hap := I.layout.slot_apart_other hslot he
  have hpos := I.layout.stride_pos
  omega

end Steps

section Counters

variable {B : Build} {ip : InstrumentedPool} {count most : Nat}

theorem Tallies.allocated (T : Tallies B ip count most) (env : CallEnv) (pool : Option State)
    (hlt : count + 1 < B.modulus) :
    Tallies B (notifyIfGrew env (recordAllocation B env { ip with pool := pool })) (count + 1)
      (max most (count + 1)) := by
  obtain ⟨-, hstats, -⟩ :=
    notifyIfGrew_frame env (recordAllocation B env { ip with pool := pool })
  rw [recordAllocation_eq] at hstats ⊢
  generalize notifyIfGrew env _ = ip' at hstats ⊢
  obtain ⟨halloc, hdealloc, -, hlive, hpeak⟩ := PoolStats.mk.inj hstats
  have hadd : B.add ip.live 1 = count + 1 := by
    rw [T.live]
    exact Build.add_eq hlt
  refine ⟨hlive.trans hadd, ?_, le_max_right .., ?_, ?_⟩
  · rw [hpeak, T.peakLive, hadd]
  · rw [halloc, hdealloc, T.balance]
    simp only [Build.add, Nat.mod_add_mod, Nat.add_assoc]
  · rw [hdealloc]
    exact T.bound

theorem Tallies.refused (T : Tallies B ip count most) (pool : Option State) :
    Tallies B (recordFailure B { ip with pool := pool }) count most :=
  ⟨T.live, T.peakLive, T.most_ge, T.balance, T.bound⟩

theorem Tallies.deallocated (T : Tallies B ip (count + 1) most) (env : CallEnv) {block : Nat}
    (h0 : block ≠ 0) (hlt : count + 1 < B.modulus) :
    Tallies B (ip.deallocate B env block) count most := by
  rw [deallocate_eq]
  simp only [if_neg h0]
  refine ⟨?_, T.peakLive, Nat.le_of_succ_le T.most_ge, ?_, Nat.mod_lt _ B.modulus_pos⟩
  · rw [if_pos (by rw [T.live]; omega), T.live]
    exact Build.sub_eq (Nat.le_add_left 1 count) hlt
  · simp only [T.balance, Build.add, Nat.mod_add_mod]
    rw [show ip.deallocations + (count + 1) = ip.deallocations + 1 + count by omega]

end Counters

/-! ## The operations -/

theorem expect_true {what : String} : expect true what = pure () := rfl

theorem forM_expect {α : Type} {cond : α → Bool} {what : String} :
    ∀ {l : List α}, (∀ a ∈ l, cond a = true) →
      (l.forM fun a => expect (cond a) what) = pure () := by
  intro l
  induction l with
  | nil => intro _; rfl
  | cons a l ih =>
    intro h
    show (expect (cond a) what >>= fun _ => l.forM fun a => expect (cond a) what) = pure ()
    rw [h a (List.mem_cons_self ..), expect_true, pure_bind]
    exact ih fun b hb => h b (List.mem_cons_of_mem _ hb)

section Operations

variable {B : Build} {w : World} {pool : InstrumentedPool} {live : List LiveBlock} {peak : Nat}

theorem doAlloc_sound (S : Sound B w pool live peak) (env : CallEnv) (canary : UInt8) :
    ∃ pool' live', doAlloc B env pool live canary = pure (pool', live') ∧
      Sound B w pool' live' (max peak live'.length) ∧ live'.length ≤ live.length + 1 := by
  obtain ⟨s, hs, H, T⟩ := S
  have hquiet : max peak live.length = peak := max_eq_left T.most_ge
  have htry : pool.tryAllocate B env = _ := Session.Verb.run_eq hs .tryAllocate
  unfold doAlloc
  by_cases hmax : maxLive ≤ live.length
  · rw [if_pos hmax]
    exact ⟨pool, live, rfl, by rw [hquiet]; exact ⟨s, hs, H, T⟩, Nat.le_succ _⟩
  · rw [if_neg hmax, htry]
    by_cases h0 : (popHead B env.pool s).1 = 0
    · -- exhausted: the failure is counted and nothing else changes
      rw [if_pos h0]
      refine ⟨_, live, rfl, ?_, Nat.le_succ _⟩
      rw [hquiet]
      exact ⟨_, rfl, H.fail h0, T.refused _⟩
    · rw [if_neg h0]
      obtain ⟨hfresh, H'⟩ := H.pop h0 canary
      have hlt : live.length + 1 < B.modulus := by
        simpa using H'.count_lt
      have T' := T.allocated env (some (popHead B env.pool s).2) hlt
      have hpool : (notifyIfGrew env (recordAllocation B env
          { pool with pool := some (popHead B env.pool s).2 })).pool =
            some (popHead B env.pool s).2 := (recorded env _ rfl).1
      simp only [if_neg h0, forM_expect (fun b hb => bne_iff_ne.mpr (hfresh b hb)), pure_bind]
      generalize notifyIfGrew env _ = ip at T' hpool ⊢
      refine ⟨_, _, rfl, ⟨_, ?_, H', ?_⟩, by simp⟩
      · simp only [memset, hpool, memoryPoolBlockSize, Option.map_some]
      · rw [List.length_append]
        exact ⟨T'.live, T'.peakLive, T'.most_ge, T'.balance, T'.bound⟩

theorem doFreeValid_sound (S : Sound B w pool live peak) (env : CallEnv) (index : Nat) :
    ∃ pool' live', doFreeValid B env pool live index = pure (pool', live') ∧
      Sound B w pool' live' peak ∧ live'.length = live.length - 1 := by
  obtain ⟨s, hs, H, T⟩ := S
  unfold doFreeValid
  by_cases hempty : live.isEmpty = true
  · rw [if_pos hempty, List.isEmpty_iff.mp hempty]
    rw [List.isEmpty_iff.mp hempty] at H T
    exact ⟨pool, [], rfl, ⟨s, hs, H, T⟩, rfl⟩
  · have hne : live ≠ [] := by simpa using hempty
    have hpos := List.length_pos_of_ne_nil hne
    have hlt : index % live.length < live.length := Nat.mod_lt _ hpos
    obtain ⟨target, htarget⟩ : ∃ target, live[index % live.length]? = some target :=
      ⟨_, List.getElem?_eq_getElem hlt⟩
    have hmem := List.mem_of_getElem? htarget
    obtain ⟨s', hfree, H'⟩ := H.push htarget env.pool
    have hcanary : ∀ i ∈ List.range (memoryPoolBlockSize pool.pool),
        (byteAt pool (target.ptr + i) == target.canary) = true := by
      intro i hi
      have hi := List.mem_range.mp hi
      simp only [hs, memoryPoolBlockSize] at hi
      simp only [byteAt, hs, beq_iff_eq]
      exact H.canaries target hmem _ (Nat.le_add_right ..) (by omega)
    have hnull : target.ptr ≠ 0 := by
      obtain ⟨free, I⟩ := H.inv
      exact (I.layout.slot_spec (I.held_slot (List.mem_map_of_mem hmem))).1
    have hcount := H.count_lt
    have hlen : (live.eraseIdx (index % live.length)).length = live.length - 1 :=
      List.length_eraseIdx_of_lt hlt
    rw [if_neg hempty]
    simp only [htarget, forM_expect hcanary, pure_bind]
    refine ⟨_, _, rfl, ⟨s', ?_, H', ?_⟩, hlen⟩
    · rw [deallocate_eq]
      simp only [hs, hfree]
    · rw [hlen]
      obtain ⟨n, hn⟩ : ∃ n, live.length = n + 1 := ⟨live.length - 1, by omega⟩
      rw [hn] at T hcount ⊢
      exact T.deallocated env hnull hcount

end Operations

/-! ## The loops -/

theorem ByteReader.next_length (reader : ByteReader) :
    reader.next.2.rest.length = reader.rest.length - 1 := by
  obtain ⟨rest⟩ := reader
  cases rest <;> rfl

section Loops

variable {B : Build} {w : World} {foreign : Nat} {active : InstrumentedPool}
  {live : List LiveBlock} {peak : Nat}

theorem turn_sound (S : Sound B w active live peak)
    (hforeign : ∃ e ∈ w.heap.ledger.live, e.2.base ≤ foreign ∧ foreign < e.2.base + e.2.bytes)
    (env : CallEnv) (reader : ByteReader) :
    ∃ reader' active' live', turn B env foreign reader active live =
        pure (reader', active', live') ∧
      Sound B w active' live' (max peak live'.length) ∧ live'.length ≤ live.length + 1 ∧
      reader'.rest.length ≤ reader.rest.length - 1 := by
  obtain ⟨s, hs, H, T⟩ := id S
  have hquiet : max peak live.length = peak := max_eq_left T.most_ge
  have hread := reader.next_length
  unfold turn
  generalize reader.next = r at hread
  obtain ⟨opcode, rest⟩ := r
  simp only [] at hread ⊢
  split
  · obtain ⟨active', live', he, S', hlen⟩ := doAlloc_sound S env
      (UInt8.ofNat (0xA0 + (live.length &&& 0x0F)))
    rw [he, pure_bind]
    exact ⟨rest, active', live', rfl, S', hlen, hread.le⟩
  · obtain ⟨active', live', he, S', hlen⟩ := doFreeValid_sound S env rest.next.1.toNat
    have hmost : max peak live'.length = peak := max_eq_left (by have := T.most_ge; omega)
    have hread' := rest.next_length
    simp only [he, pure_bind]
    exact ⟨_, active', live', rfl, by rw [hmost]; exact S', by omega, by omega⟩
  · refine ⟨rest, _, live, rfl, ?_, Nat.le_succ _, hread.le⟩
    rw [hquiet, deallocate_eq]
    exact ⟨s, by simp only [hs]; rfl, H, ⟨T.live, T.peakLive, T.most_ge, T.balance, T.bound⟩⟩
  · refine ⟨rest, _, live, rfl, ?_, Nat.le_succ _, hread.le⟩
    rw [hquiet]
    refine ⟨s, ?_, H, ⟨T.live, T.peakLive, T.most_ge, T.balance, T.bound⟩⟩
    simp only [hs]
    exact H.foreign hforeign env.pool

/-- The bytes left are fewer than the tests left, and a turn takes at least one of each. -/
theorem opcodeLoop_sound (envs : Nat → CallEnv)
    (hforeign : ∃ e ∈ w.heap.ledger.live, e.2.base ≤ foreign ∧ foreign < e.2.base + e.2.bytes) :
    ∀ {tests : Nat} {reader : ByteReader} {active : InstrumentedPool} {live : List LiveBlock}
      {peak : Nat}, Sound B w active live peak → reader.rest.length < tests →
      ∃ active' live' peak', opcodeLoop B envs foreign tests reader active live peak =
          pure (active', live', peak') ∧
        Sound B w active' live' peak' ∧ live'.length ≤ live.length + reader.rest.length := by
  intro tests
  induction tests with
  | zero => intro reader active live peak _ hlt; exact absurd hlt (Nat.not_lt_zero _)
  | succ tests ih =>
    intro reader active live peak S hlt
    unfold opcodeLoop
    by_cases hdone : reader.done = true
    · rw [if_pos hdone]
      exact ⟨active, live, peak, rfl, S, Nat.le_add_right ..⟩
    · have hpos : 0 < reader.rest.length := by
        refine List.length_pos_of_ne_nil fun hnil => hdone ?_
        rw [ByteReader.done, hnil]
        rfl
      obtain ⟨reader', active', live', he, S', hlen, hread⟩ :=
        turn_sound S hforeign (envs tests) reader
      have hlive : (active'.stats.live == live'.length) = true := by
        obtain ⟨-, -, -, T⟩ := id S'
        exact beq_iff_eq.mpr T.live
      have hpeak : (if peak < live'.length then live'.length else peak) =
          max peak live'.length := by
        rw [max_def]
        split <;> split <;> omega
      rw [if_neg hdone, he]
      simp only [pure_bind, hlive, expect_true, hpeak]
      have hlt' : reader'.rest.length < tests := by omega
      obtain ⟨active₂, live₂, peak₂, he₂, S₂, hlen₂⟩ := ih S' hlt'
      exact ⟨active₂, live₂, peak₂, he₂, S₂, by omega⟩

theorem drain_sound (envs : Nat → CallEnv) :
    ∀ {tests : Nat} {active : InstrumentedPool} {live : List LiveBlock},
      Sound B w active live peak → live.length < tests →
      ∃ active', drain B envs tests active live = pure active' ∧ Sound B w active' [] peak := by
  intro tests
  induction tests with
  | zero => intro active live _ hlt; exact absurd hlt (Nat.not_lt_zero _)
  | succ tests ih =>
    intro active live S hlt
    unfold drain
    by_cases hempty : live.isEmpty = true
    · rw [if_pos hempty]
      rw [List.isEmpty_iff.mp hempty] at S
      exact ⟨active, rfl, S⟩
    · have hpos : 0 < live.length := List.length_pos_of_ne_nil (by simpa using hempty)
      obtain ⟨active', live', he, S', hlen⟩ := doFreeValid_sound S (envs tests) 0
      rw [if_neg hempty, he]
      simp only [pure_bind]
      exact ih S' (by omega)

end Loops

/-! ## The program -/

theorem configure_length (B : Build) (reader : ByteReader) :
    (configure B reader).2.rest.length ≤ reader.rest.length := by
  have h1 := reader.next_length
  have h2 := reader.next.2.next_length
  have h3 := reader.next.2.next.2.next_length
  show reader.next.2.next.2.next.2.rest.length ≤ reader.rest.length
  omega

theorem Config.inRange (B : Build) (reader : ByteReader) :
    (configure B reader).1.call.InRange B ∧
      (CreateCall.fixed (configure B reader).1.blockSize
        (configure B reader).1.blockCount).InRange B := by
  have hm := B.modulus_ge
  have hsize : (configure B reader).1.blockSize < B.modulus := Nat.mod_lt _ B.modulus_pos
  have hcount : (configure B reader).1.blockCount < B.modulus := by
    have h := (reader.next.2.next.1 &&& 0x07).toNat_lt
    show 1 + (reader.next.2.next.1 &&& 0x07).toNat < B.modulus
    omega
  have hfactor : (configure B reader).1.growthFactor < B.modulus := by
    have h := ((reader.next.2.next.2.next.1 >>> 1) &&& 0x01).toNat_lt
    show 2 + ((reader.next.2.next.2.next.1 >>> 1) &&& 0x01).toNat < B.modulus
    omega
  refine ⟨?_, hsize, hcount⟩
  unfold Config.call
  split
  · exact ⟨hsize, hcount, hfactor⟩
  · exact ⟨hsize, hcount⟩

theorem sound_created {B : Build} {w w₀ w' : World} {p : PoolStruct} (C : Created B w₀ p w')
    (hlive : w.heap.SameLive w₀.heap) (hreports : w₀.reports = w.reports) :
    Sound B w (adopt (some ⟨w', p⟩)) [] 0 := by
  have I := C.inv
  rw [hlive.1] at I
  refine ⟨_, rfl, ⟨⟨_, I⟩, by simp, C.reports.trans hreports, C.invalid.trans hlive.2⟩, ?_⟩
  exact ⟨rfl, rfl, le_rfl, (Nat.zero_mod _).symm, B.modulus_pos⟩

theorem createPool_sound {B : Build} {envs : Envs} {w w' : World} {reader : ByteReader}
    {p : PoolStruct} (h : createPool B envs w (configure B reader).1 = (some p, w')) :
    Sound B w (adopt (some ⟨w', p⟩)) [] 0 := by
  obtain ⟨hr, hfixed⟩ := Config.inRange B reader
  unfold createPool at h
  split at h
  · rename_i hc
    cases h
    exact sound_created (CreateCall.created hr hc) ⟨rfl, rfl⟩ rfl
  · rename_i w₁ hc
    -- the first create left the outstanding regions as they were
    obtain ⟨heap, hsame, rfl⟩ := CreateCall.run_none hc
    exact sound_created (memoryPoolCreate_created hfixed.1 h) hsame rfl

/-- Whatever the bytes, a create call that returns null was refused memory: the configuration
passes every check of `memory_pool_create`. -/
theorem configure_valid (B : Build) (reader : ByteReader)
    (halign : 64 * B.poolAlignment ≤ B.modulus) :
    createRequest B (configure B reader).1.blockSize (configure B reader).1.blockCount ≠ none := by
  have hptr : B.ptrBytes ≤ B.poolAlignment := B.align_ge
  have hpw := B.ptr_wide
  generalize hA : B.poolAlignment = A at halign hptr
  obtain ⟨k, hk, hsize⟩ : ∃ k ≤ 3, (configure B reader).1.blockSize = A * (1 + k) := by
    have hk : (reader.next.1 &&& 0x03).toNat ≤ 3 := by
      rw [UInt8.toNat_and]
      exact Nat.and_le_right
    refine ⟨_, hk, ?_⟩
    show B.mul B.poolAlignment _ = _
    rw [hA]
    refine Build.mul_eq ((Nat.mul_le_mul_left A (Nat.add_le_add_left hk 1)).trans_lt ?_)
    omega
  obtain ⟨n, hn, hcount⟩ : ∃ n ≤ 7, (configure B reader).1.blockCount = 1 + n := by
    refine ⟨_, ?_, rfl⟩
    rw [UInt8.toNat_and]
    exact Nat.and_le_right
  have hle : A * (1 + k) ≤ 4 * A := by
    rw [Nat.mul_comm]
    exact Nat.mul_le_mul_right A (by omega)
  have hge : A ≤ A * (1 + k) := Nat.le_mul_of_pos_right A (by omega)
  have hv : isValidBlockSize B (A * (1 + k)) = true :=
    isValidBlockSize_iff.mpr ⟨by omega, by omega, by rw [hA]; exact Nat.dvd_mul_right A _⟩
  have hstride : slotStride B (A * (1 + k)) ≤ 7 * A := by
    rcases slotStride_cases B (show A * (1 + k) < B.modulus by omega) with
      ⟨-, hs⟩ | ⟨-, hbig, -⟩ | ⟨-, -, hs⟩
    · omega
    · simp only [guardBytes] at hbig
      omega
    · have hr := (roundUp_bounds B (A * (1 + k) + guardBytes)).2
      simp only [guardBytes] at hr hs
      omega
  have hfit : slotStride B (A * (1 + k)) * (1 + n) < B.modulus := by
    have h := Nat.mul_le_mul hstride (show 1 + n ≤ 8 by omega)
    omega
  rw [hsize, hcount]
  unfold createRequest
  rw [hv, wouldOverflowProduct_eq_false_iff.mpr hfit]
  simp

theorem releaseChunks_reports :
    ∀ (chunks : List Chunk) (w : World), (releaseChunks w chunks).reports = w.reports := by
  intro chunks
  induction chunks with
  | nil => intro w; rfl
  | cons c chunks ih => intro w; exact ih _

/-- The destructor gives back all that the pool took, and calls no handler. -/
theorem Sound.destruct {B : Build} {w : World} {active : InstrumentedPool} {peak : Nat}
    (S : Sound B w active [] peak) (w' : World) :
    w.heap.Balanced (destruct w' active).heap ∧ (destruct w' active).reports = w.reports := by
  obtain ⟨s, hs, H, -⟩ := S
  obtain ⟨free, I⟩ := H.inv
  obtain ⟨hlive, hinvalid⟩ := I.layout.destroy
  have hd : Fuzz.destruct w' active = memoryPoolDestroy s.toWorld (some s.pool) := by
    simp only [Fuzz.destruct, notify, hs]
  rw [hd]
  exact ⟨.of_live hlive (hinvalid.trans H.invalid),
    (releaseChunks_reports s.pool.overflow s.toWorld).trans H.reports⟩

end Fuzz

/-- Every build, every byte buffer, every behaviour of the pool's allocator: the harness ends, and
the only check that can fail is the one that there is a pool. Otherwise every block was fresh, every
canary intact, the counters right after every opcode and at the end; the heap is as it was, and the
violation handler was never called. -/
theorem fuzz_clean {B : Build} {envs : Fuzz.Envs} {w : World} {foreign tests : Nat}
    {data : List UInt8}
    (hforeign : ∃ e ∈ w.heap.ledger.live, e.2.base ≤ foreign ∧ foreign < e.2.base + e.2.bytes)
    (htests : data.length < tests) :
    (((Fuzz.createPool B envs w (Fuzz.configure B ⟨data⟩).1).1 = none ∧
        Fuzz.runProgram B envs w foreign tests data =
          throw "failed to create a pool from a valid configuration") ∨
      ∃ w', Fuzz.runProgram B envs w foreign tests data = pure w' ∧ w.heap.Balanced w'.heap ∧
        w'.reports = w.reports) ∧
    (64 * B.poolAlignment ≤ B.modulus →
      createRequest B (Fuzz.configure B ⟨data⟩).1.blockSize
        (Fuzz.configure B ⟨data⟩).1.blockCount ≠ none) := by
  refine ⟨?_, Fuzz.configure_valid B ⟨data⟩⟩
  have hreader := Fuzz.configure_length B ⟨data⟩
  unfold Fuzz.runProgram
  rcases hcreate : Fuzz.createPool B envs w (Fuzz.configure B ⟨data⟩).1 with ⟨pool, w'⟩
  cases pool with
  | none => exact Or.inl ⟨rfl, by simp only [hcreate]; rfl⟩
  | some p =>
    right
    obtain ⟨active, live, peak, hloop, S, hlen⟩ := Fuzz.opcodeLoop_sound envs.turns
      hforeign (Fuzz.createPool_sound hcreate) (hreader.trans_lt htests)
    rw [List.length_nil, Nat.zero_add] at hlen
    obtain ⟨active', hdrain, S'⟩ := Fuzz.drain_sound envs.drain S
      ((hlen.trans hreader).trans_lt htests)
    obtain ⟨hheap, hreports⟩ := S'.destruct w'
    obtain ⟨-, -, -, T⟩ := id S'
    have hlive : (active'.stats.live == 0) = true := beq_iff_eq.mpr T.live
    have hbalance : (active'.stats.allocations == active'.stats.deallocations) = true :=
      beq_iff_eq.mpr (T.balance.trans (Nat.mod_eq_of_lt T.bound))
    have hpeak : (active'.stats.peakLive == peak) = true := beq_iff_eq.mpr T.peakLive
    refine ⟨Fuzz.destruct w' active', ?_, hheap, hreports⟩
    simp only [hcreate, Option.isSome_some, Fuzz.expect_true, pure_bind, hloop, hdrain, hlive,
      hbalance, hpeak]

/-- A world in which four bytes are taken: the local object. -/
def foreignWorld : World :=
  (World.start.operatorNew (Build.x64 true .mutex) (.aligned 4) 4 4 (some 0x10)).2

def chunkEnvs : Fuzz.Envs :=
  ⟨firstEnv, firstEnv, fun _ => calm secondEnv, fun _ => calm firstEnv⟩

/-- Three allocations, with a growth and a failure, a foreign free and a free out of order. -/
theorem fuzz_clean_x64 :
    ∃ w', Fuzz.runProgram (Build.x64 true .mutex) chunkEnvs foreignWorld 0x10 11
        [0, 0, 1, 0, 0, 3, 0, 1, 2, 2] = pure w' ∧
      foreignWorld.heap.Balanced w'.heap ∧ w'.reports = [] := by
  have hpool : (Fuzz.createPool (Build.x64 true .mutex) chunkEnvs foreignWorld
      (Fuzz.configure (Build.x64 true .mutex) ⟨[0, 0, 1, 0, 0, 3, 0, 1, 2, 2]⟩).1).1 ≠ none := by
    decide +kernel
  obtain ⟨hrun, -⟩ := fuzz_clean (B := Build.x64 true .mutex) (w := foreignWorld)
    (show ∃ e ∈ foreignWorld.heap.ledger.live, e.2.base ≤ 0x10 ∧ 0x10 < e.2.base + e.2.bytes by
      decide +kernel)
    (show [0, 0, 1, 0, 0, 3, 0, 1, 2, 2].length < 11 by decide)
  exact hrun.resolve_left fun h => hpool h.1

end MemoryPool
