import Mathlib.Data.List.Perm.Subperm
import MemoryPool.HeapBalance
import MemoryPool.Instrumented

/-!
# MemoryPool.InstrumentedCorrect

What the counters and the events of an `InstrumentedPool` say about the pool, in single-threaded
runs.

* `Verb.run_eq`, `deallocate_eq`: the calls without their retry loops.
* `live_exact_iff`: `live_` and `peak_live_` are right in every state of a run exactly if no
  rejected pointer is deallocated while a block is outstanding.
* `events_exact_iff`: observers are told what the pool did exactly if every allocation finds
  `last_growths_` up to date, or the free list empty.
-/

namespace MemoryPool

open ByteMem

/-! ## The calls, without the retry loops -/

namespace InstrumentedPool

theorem recordAllocation_eq (B : Build) (env : CallEnv) (ip : InstrumentedPool) :
    ip.recordAllocation B env =
      { ip with
        allocations := B.add ip.allocations 1
        live := B.add ip.live 1
        peakLive := max ip.peakLive (B.add ip.live 1) } := by
  simp only [recordAllocation, casLoop_lone, casOnce]
  by_cases h : ip.peakLive < B.add ip.live 1
  · simp only [if_pos h, Nat.max_eq_right h.le]
  · simp only [if_neg h, Nat.max_eq_left (Nat.le_of_not_lt h)]

theorem notifyIfGrew_eq (env : CallEnv) (ip : InstrumentedPool) :
    ip.notifyIfGrew env =
      if ip.lastGrowths < memoryPoolGrowths ip.pool then
        notify { ip with lastGrowths := memoryPoolGrowths ip.pool } .grew
      else ip := by
  simp only [notifyIfGrew, casLoop_lone, casOnce]
  by_cases h : ip.lastGrowths < memoryPoolGrowths ip.pool
  · simp only [if_pos h, if_true]
  · simp only [if_neg h]
    rfl

theorem notifyIfGrew_frame (env : CallEnv) (ip : InstrumentedPool) :
    (ip.notifyIfGrew env).pool = ip.pool ∧ (ip.notifyIfGrew env).stats = ip.stats ∧
      (ip.notifyIfGrew env).observers = ip.observers := by
  rw [notifyIfGrew_eq]
  split <;> exact ⟨rfl, rfl, rfl⟩

theorem recorded {B : Build} (env : CallEnv) (ip : InstrumentedPool) {s : State}
    (hs : ip.pool = some s) :
    (notifyIfGrew env (recordAllocation B env ip)).pool = some s ∧
      (notifyIfGrew env (recordAllocation B env ip)).lastGrowths =
        max ip.lastGrowths s.pool.growCount ∧
      (notifyIfGrew env (recordAllocation B env ip)).delivered =
        ip.delivered ++ if ip.lastGrowths < s.pool.growCount then
          ip.observers.map fun o =>
            ⟨o, .grew, (notifyIfGrew env (recordAllocation B env ip)).stats⟩
        else [] := by
  have hg : memoryPoolGrowths ip.pool = s.pool.growCount := by rw [hs]; rfl
  rw [recordAllocation_eq, notifyIfGrew_eq]
  simp only [hg]
  split
  · rename_i h
    exact ⟨hs, (Nat.max_eq_right h.le).symm, rfl⟩
  · rename_i h
    exact ⟨hs, (Nat.max_eq_left (Nat.le_of_not_lt h)).symm, (List.append_nil _).symm⟩

theorem deallocate_eq (B : Build) (env : CallEnv) (ip : InstrumentedPool) (block : Nat) :
    ip.deallocate B env block =
      { ip with
        deallocations := if block = 0 then ip.deallocations else B.add ip.deallocations 1
        live := if block = 0 then ip.live else if 0 < ip.live then B.sub ip.live 1 else ip.live
        pool := memoryPoolFree B env.pool ip.pool block } := by
  unfold deallocate
  by_cases h0 : block = 0
  · simp only [h0, ne_eq, not_true_eq_false, if_false, if_true]
    rfl
  · simp only [h0, ne_eq, not_false_eq_true, if_true, if_false, casLoop_lone, casOnce]
    by_cases hl : 0 < ip.live
    · simp only [if_pos hl]
      rfl
    · simp only [if_neg hl]
      rfl

end InstrumentedPool

namespace Session

open InstrumentedPool

theorem Verb.run_eq {B : Build} {env : CallEnv} {ip : InstrumentedPool} {s : State}
    (h : ip.pool = some s) (verb : Verb) :
    verb.run B env ip =
      if (popHead B env.pool s).1 = 0 then
        (0, recordFailure B { ip with pool := some (popHead B env.pool s).2 })
      else ((popHead B env.pool s).1,
        notifyIfGrew env
          (recordAllocation B env { ip with pool := some (popHead B env.pool s).2 })) := by
  cases verb with
  | allocate =>
    simp only [Verb.run, InstrumentedPool.allocate, Pool.allocate, h, memoryPoolAlloc_some]
    by_cases h0 : (popHead B env.pool s).1 = 0
    · simp only [if_pos h0]
    · simp only [if_neg h0]
  | tryAllocate =>
    simp only [Verb.run, InstrumentedPool.tryAllocate, Pool.tryAllocate, h, memoryPoolAlloc_some]

theorem Step.alloc_cases {B : Build} {c c' : Session} {verb : Verb} {env : CallEnv} {block : Nat}
    {grown : Option Chunk} {s : State} (hs : c.ip.pool = some s)
    (h : Step B c (.alloc verb env block grown) c') :
    ∃ r, r = popHead B env.pool s ∧ block = r.1 ∧ grown = newChunk s r.2 ∧
      ((r.1 = 0 ∧ c' = ⟨recordFailure B { c.ip with pool := some r.2 }, c.held, c.most⟩) ∨
        (r.1 ≠ 0 ∧ c' = ⟨notifyIfGrew env (recordAllocation B env { c.ip with pool := some r.2 }),
          r.1 :: c.held, max c.most (c.held.length + 1)⟩)) := by
  generalize he : Event.alloc verb env block grown = e at h
  cases h with
  | deallocate => cases he
  | write _ => cases he
  | @alloc _ _ block' ip' s₀ s' h1 h2 h3 =>
    cases he
    rw [hs] at h1
    cases h1
    rw [Verb.run_eq hs] at h2
    refine ⟨_, rfl, ?_⟩
    split at h2
    · rename_i h0
      cases h2
      cases h3
      exact ⟨h0.symm, rfl, Or.inl ⟨h0, rfl⟩⟩
    · rename_i h0
      cases h2
      rw [(notifyIfGrew_frame _ _).1, recordAllocation_eq] at h3
      cases h3
      exact ⟨rfl, rfl, Or.inr ⟨h0, by rw [if_neg h0]⟩⟩

def Inv (B : Build) (others : List (Nat × Region)) (c : Session) : Prop :=
  ∃ s free, c.ip.pool = some s ∧ PoolInv B s others free c.held

end Session

/-- Distinct positive numbers below a bound are fewer than the bound. -/
theorem length_lt_of_nodup {l : List Nat} {n : Nat} (hnd : l.Nodup) (hn : 0 < n)
    (h : ∀ a ∈ l, 0 < a ∧ a < n) : l.length < n := by
  have hnd0 : (0 :: l).Nodup := List.nodup_cons.mpr ⟨fun h0 => absurd (h 0 h0).1 (by omega), hnd⟩
  have hsub : 0 :: l ⊆ List.range n := by
    intro a ha
    rw [List.mem_range]
    rcases List.mem_cons.mp ha with rfl | ha
    · exact hn
    · exact (h a ha).2
  have hlen := (List.subperm_of_subset hnd0 hsub).length_le
  simp only [List.length_cons, List.length_range] at hlen
  omega

theorem PoolInv.held_length {B : Build} {s : State} {others : List (Nat × Region)}
    {free held : List Nat} (I : PoolInv B s others free held) : held.length < B.modulus := by
  refine length_lt_of_nodup (List.nodup_append.mp I.nodup).2.1 B.modulus_pos fun a ha => ?_
  obtain ⟨hne, -, hlt⟩ := I.layout.slot_spec (I.held_slot ha)
  omega

namespace Session

open InstrumentedPool

variable {B : Build} {others : List (Nat × Region)} {c c' : Session} {e : Event}

/-- One step, with the counters right before it: the pool stays in order, and the counters stay
right exactly if no rejected pointer met outstanding blocks. -/
theorem Step.exact_iff (hI : Inv B others c) (hx : Exact c) (hstep : Step B c e c')
    (hok : Allowed B c e) : Inv B others c' ∧ (Exact c' ↔ RejectedWhenIdle B c e) := by
  obtain ⟨s, free, hs, I⟩ := hI
  obtain ⟨hlive, hpeak⟩ := hx
  simp only [stats] at hlive hpeak
  cases hstep with
  | @alloc verb env block ip' s₀ s' h1 h2 h3 =>
    obtain ⟨r, hr, -, -, hc⟩ := Step.alloc_cases hs (.alloc h1 h2 h3)
    have hres := popHead_result I env.pool
    rw [← hr] at hres
    obtain ⟨free', I'⟩ := hres.inv I
    rcases hc with ⟨h0, hc⟩ | ⟨h0, hc⟩
    · rw [hc]
      rw [if_pos h0] at I'
      exact ⟨⟨r.2, free', rfl, I'⟩, iff_of_true ⟨hlive, hpeak⟩ trivial⟩
    · rw [hc]
      rw [if_neg h0] at I'
      obtain ⟨hp, hst, -⟩ := notifyIfGrew_frame env
        (recordAllocation B env { c.ip with pool := some r.2 })
      have hlen : c.held.length + 1 < B.modulus := I'.held_length
      rw [recordAllocation_eq] at hp hst
      refine ⟨⟨r.2, free', by rw [recordAllocation_eq]; exact hp, I'⟩, iff_of_true ?_ trivial⟩
      rw [recordAllocation_eq]
      refine ⟨(congrArg PoolStats.live hst).trans ?_, (congrArg PoolStats.peakLive hst).trans ?_⟩
      · simp only [stats, hlive, Build.add_eq hlen, List.length_cons]
      · simp only [stats, hlive, hpeak, Build.add_eq hlen]
  | @deallocate env block =>
    rw [deallocate_eq]
    have hhb := I.held_length
    have hslots : c.slots B = s.pool.slots B := by simp only [slots, hs]
    have hin : c.inRange B block = isBlockInRange B s.pool block := by simp only [inRange, hs]
    simp only [Allowed, hslots] at hok
    rcases hok with hb | hb
    · -- a vended block: the core takes it back, and the counter goes down with it
      have hslot := I.held_slot hb
      have hne := (I.layout.slot_spec hslot).1
      have hpos := List.length_pos_of_mem hb
      have hrange := I.layout.isBlockInRange_iff.mpr hslot
      obtain ⟨tag, ht⟩ := pushHead_held I hb env.pool
      refine ⟨⟨s.takeBack B block tag, _, ?_, I.takeBack hb tag⟩, iff_of_true ⟨?_, hpeak⟩ ?_⟩
      · simp only [hs, memoryPoolFree_slot I.layout hslot, ht]
      · have hm := B.modulus_ge
        simp only [stats, if_neg hne, hlive, if_pos hpos, List.length_erase_of_mem hb]
        rw [Build.sub_eq hpos hhb]
      · intro _ hrej
        rw [hin, hrange] at hrej
        cases hrej
    · have hheld : block ∉ c.held := fun h => hb (I.held_slot h)
      have hrange : isBlockInRange B s.pool block = false :=
        Bool.eq_false_iff.mpr fun h => hb (I.layout.isBlockInRange_iff.mp h)
      refine ⟨⟨s, free, ?_, ?_⟩, ?_⟩
      · simp only [hs, memoryPoolFree_foreign I.layout hb]
      · simp only [List.erase_of_not_mem hheld]
        exact I
      · simp only [Exact, stats, RejectedWhenIdle, List.erase_of_not_mem hheld, hpeak, hlive]
        by_cases hne : block = 0
        · simp [hne]
        · constructor
          · intro h _ _
            by_contra hnil
            have hpos := List.length_pos_of_ne_nil hnil
            have hm := B.modulus_ge
            rw [if_neg hne, if_pos hpos, Build.sub_eq hpos hhb] at h
            omega
          · intro h
            have hnil := h hne (hin.trans hrange)
            simp [hnil]
  | @write addr byte s₀ h1 =>
    rw [hs] at h1
    cases h1
    obtain ⟨b, hb, hl, hu⟩ := hok
    rw [hs] at hu
    exact ⟨⟨_, free, rfl, I.write hb hl hu⟩, iff_of_true ⟨hlive, hpeak⟩ trivial⟩

end Session

/-- From a fresh pool on, with deallocations of anything but free slots: in every state of a run
`live_` and `peak_live_` are right, if and only if in every step of it a pointer that the range
check rejects is deallocated only while nothing is outstanding. -/
theorem live_exact_iff {B : Build} {env : Env} {w w' : World} {call : CreateCall} {p : PoolStruct}
    (hr : call.InRange B) (hcreate : call.run B env w = (some p, w')) {observers : List Nat}
    {es : List Session.Event} {c : Session} :
    (((Session.lts B).guard (Session.Allowed B)).restrict fun _ _ c' => c'.Exact).Run
        (Session.start ⟨w', p⟩ observers []) es c ↔
      (((Session.lts B).guard (Session.Allowed B)).restrict
        fun c e _ => c.RejectedWhenIdle B e).Run (Session.start ⟨w', p⟩ observers []) es c := by
  have C := CreateCall.created hr hcreate
  refine Lts.restrict_iff (J := fun c => Session.Inv B w.heap.ledger.live c ∧ c.Exact) ?_ ?_
    ⟨⟨⟨w', p⟩, _, rfl, C.inv⟩, rfl, rfl⟩
  · rintro c e c' ⟨hI, hx⟩ hx' ⟨hok, hstep⟩
    exact ⟨(Session.Step.exact_iff hI hx hstep hok).1, hx'⟩
  · rintro c e c' ⟨hI, hx⟩ ⟨hok, hstep⟩
    exact (Session.Step.exact_iff hI hx hstep hok).2

def calm (env : Env) : CallEnv := ⟨env, 0, 0, 0⟩

/-- A foreign pointer passed while the pool is idle does no harm. -/
theorem live_exact_iff_x64 :
    ∃ c, (((Session.lts (Build.x64 false .none)).guard
        (Session.Allowed (Build.x64 false .none))).restrict fun _ _ c' => c'.Exact).Run
      (Session.start (firstClient (Build.x64 false .none)).pool [] [])
      [.deallocate (calm firstEnv) 0x10, .alloc .allocate (calm firstEnv) 0x1000 none] c := by
  have h : (Lts.script (Session.exec (Build.x64 false .none) fun c e =>
        Session.Allowed (Build.x64 false .none) c e ∧
          Session.RejectedWhenIdle (Build.x64 false .none) c e)
      (Session.start (firstClient (Build.x64 false .none)).pool [] [])
      [.deallocate (calm firstEnv) 0x10, .alloc .allocate (calm firstEnv)]).map
        (fun r => (r.1, ())) =
      some ([.deallocate (calm firstEnv) 0x10, .alloc .allocate (calm firstEnv) 0x1000 none], ()) :=
    by decide +kernel
  obtain ⟨c, hrun, -⟩ := Lts.script_run
    (L := ((Session.lts (Build.x64 false .none)).guard
      (Session.Allowed (Build.x64 false .none))).restrict
        fun c e _ => c.RejectedWhenIdle (Build.x64 false .none) e)
    (fun c i e c' hi => by
      obtain ⟨⟨hA, hR⟩, hs⟩ := Session.exec_step c i e c' hi
      exact ⟨hR, hA, hs⟩) (fun _ => ()) h
  exact ⟨c, (live_exact_iff (by decide) (firstCall_run false .none (by decide))).mpr hrun⟩

/-- A foreign pointer passed while one block is outstanding: `live_` drops to zero. -/
theorem live_drifts :
    ∃ c, ((Session.lts (Build.x64 false .none)).guard (Session.Allowed (Build.x64 false .none))).Run
        (Session.start (firstClient (Build.x64 false .none)).pool [] [])
        [.alloc .tryAllocate (calm firstEnv) 0x1000 none, .deallocate (calm firstEnv) 0x10] c ∧
      (c.held, c.ip.stats.live) = ([0x1000], 0) := by
  have h : (Lts.script
      (Session.exec (Build.x64 false .none) (Session.Allowed (Build.x64 false .none)))
      (Session.start (firstClient (Build.x64 false .none)).pool [] [])
      [.alloc .tryAllocate (calm firstEnv), .deallocate (calm firstEnv) 0x10]).map
        (fun r => (r.1, (r.2.held, r.2.ip.stats.live))) =
      some ([.alloc .tryAllocate (calm firstEnv) 0x1000 none, .deallocate (calm firstEnv) 0x10],
        ([0x1000], 0)) := by decide +kernel
  exact Lts.script_run Session.exec_step (fun c => (c.held, c.ip.stats.live)) h

/-! ## Events -/

theorem Layout.overflow_length {B : Build} {s : State} {others : List (Nat × Region)}
    (L : Layout B s others) : s.pool.overflow.length + 1 < B.modulus := by
  have hnd : (s.pool.chunks.map Prod.fst).Nodup := by
    refine List.pairwise_map.mpr (L.chunks_apart.imp_of_mem ?_)
    intro c d hc hd hap heq
    have h1 := Nat.mul_pos L.stride_pos (L.chunk_pos c hc).2
    have h2 := Nat.mul_pos L.stride_pos (L.chunk_pos d hd).2
    rcases hap with h | h <;> omega
  have hlen := length_lt_of_nodup hnd B.modulus_pos fun a ha => by
    obtain ⟨c, hc, rfl⟩ := List.mem_map.mp ha
    have h1 := (L.chunk_pos c hc).1
    have h2 := L.chunk_fit c hc
    omega
  simpa [PoolStruct.chunks] using hlen

def Counted (s : State) : Prop := s.pool.growCount = s.pool.overflow.length

theorem Frame.counted {B : Build} {s s' : State} {others : List (Nat × Region)}
    (h : Frame B s s') (L : Layout B s others) (hc : Counted s) : Counted s' := by
  have L' := (h.layout L).overflow_length
  cases h with
  | same h1 _ =>
    unfold Counted
    rw [h1]
    exact hc
  | @grew add backing addr heap s' hg _ h2 =>
    rw [h2] at L'
    simp only [linkChunk, List.length_cons] at L'
    unfold Counted at hc ⊢
    rw [h2]
    simp only [linkChunk, List.length_cons, hc]
    exact Build.add_eq (by omega)

theorem Client.run_counted {B : Build} {c c' : Client} {es : List Client.Event}
    {others : List (Nat × Region)} (hrun : (Client.lts B).Run c es c')
    (L : Layout B c.pool others) (hc : Counted c.pool) :
    Layout B c'.pool others ∧ Counted c'.pool := by
  refine hrun.invariant (I := fun d => Layout B d.pool others ∧ Counted d.pool) ?_ ⟨L, hc⟩
  rintro d e d' ⟨hL, hd⟩ hstep
  exact ⟨hstep.frame.layout hL, hstep.frame.counted hL hd⟩

namespace Session

open InstrumentedPool

variable {B : Build} {others : List (Nat × Region)} {c c' : Session} {e : Event}

/-- `last_growths_` never runs ahead of the core's counter. -/
def Behind (B : Build) (others : List (Nat × Region)) (c : Session) : Prop :=
  ∃ s, c.ip.pool = some s ∧ Layout B s others ∧ Counted s ∧
    c.ip.lastGrowths ≤ s.pool.growCount

/-- One step: what the observers are told is right exactly if `last_growths_` was up to date, or
the free list empty, or nobody listens. -/
theorem Step.faithful_iff (hI : Behind B others c) (hstep : Step B c e c') :
    Behind B others c' ∧ (c.Faithful e c' ↔ c.GrowthsSeen e) := by
  obtain ⟨s, hs, L, hcount, hle⟩ := hI
  cases hstep with
  | @alloc verb env block ip' s₀ s' h1 h2 h3 =>
    obtain ⟨r, hr, hb, hg, hc⟩ := Step.alloc_cases hs (.alloc h1 h2 h3)
    have hframe := popHead_frame B env.pool s
    rw [← hr] at hframe
    have L' := hframe.frame.layout L
    have hcount' := hframe.frame.counted L hcount
    rcases hc with ⟨h0, hc⟩ | ⟨h0, hc⟩
    · -- a failed call: the list was empty, and the core did not grow
      have hhead : c.head = 0 ∧ s.pool.SameShape r.2.pool := by
        simp only [head, hs]
        cases hframe with
        | vend hne _ _ => exact absurd h0 hne
        | fail h _ _ => exact ⟨h, by assumption⟩
        | grew hgr _ _ _ _ => exact absurd h0 hgr.nonnull
      rw [hc]
      refine ⟨⟨r.2, rfl, L', hcount', ?_⟩, iff_of_true ?_ (Or.inr (Or.inl hhead.1))⟩
      · rw [hhead.2]
        exact hle
      · simp only [Faithful, expectedDeliveries, hb, h0, hg, newChunk_same hhead.2]
        simp [recordFailure, notify, stats]
    · obtain ⟨hpool, hlast, hdel⟩ := recorded (B := B) env { c.ip with pool := some r.2 } rfl
      have hexp : ∀ c', c.expectedDeliveries (.alloc verb env block (newChunk s₀ s')) c' =
          if (newChunk s r.2).isSome then c.ip.observers.map fun o => ⟨o, .grew, c'.ip.stats⟩
          else [] := by
        intro c'
        simp only [expectedDeliveries, hb, if_neg h0, hg, List.nil_append]
      rw [hc]
      cases hframe with
      | @vend s₁ hne hsame _ =>
        have hgc : s₁.pool.growCount = s.pool.growCount := by rw [hsame]
        refine ⟨⟨_, hpool, L', hcount', ?_⟩, ?_⟩
        · simp only [hlast, hgc]
          exact max_le hle (le_refl _)
        · simp only [Faithful, hexp, newChunk_same hsame, hdel, GrowthsSeen, head, hs, hne,
            memoryPoolGrowths, false_or, hgc, List.append_cancel_left_eq]
          by_cases hlt : c.ip.lastGrowths < s.pool.growCount
          · simp [hlt, hlt.ne]
          · simp [show c.ip.lastGrowths = s.pool.growCount by omega]
      | fail h _ _ => exact absurd rfl h0
      | @grew add backing addr heap s₁ hgr h0' _ _ hshape =>
        have hnew : newChunk s s₁ = some ⟨addr, backing, add⟩ := by
          unfold newChunk
          rw [hshape]
          exact if_neg (by simp [linkChunk])
        have hlt : c.ip.lastGrowths < s₁.pool.growCount := by
          have hlen : s₁.pool.overflow.length = s.pool.overflow.length + 1 := by
            rw [hshape]
            rfl
          unfold Counted at hcount hcount'
          simp only at hcount'
          omega
        refine ⟨⟨_, hpool, L', hcount', ?_⟩, iff_of_true ?_ (Or.inr (Or.inl ?_))⟩
        · simp only [hlast]
          exact max_le hlt.le (le_refl _)
        · simp only [Faithful, hexp, hnew, hdel, if_pos hlt, Option.isSome_some, if_true]
        · simp only [head, hs]
          exact h0'
  | @deallocate env block =>
    obtain ⟨s', h1, h2, h3⟩ := memoryPoolFree_frame B env.pool s block
    rw [deallocate_eq]
    refine ⟨⟨s', by simp only [hs, h1], L.same h2 h3.1, ?_, ?_⟩, iff_of_true ?_ trivial⟩
    · unfold Counted
      rw [h2]
      exact hcount
    · rw [h2]
      exact hle
    · exact (List.append_nil _).symm
  | @write addr byte s₀ h1 =>
    rw [hs] at h1
    cases h1
    exact ⟨⟨_, rfl, L.same rfl rfl, hcount, hle⟩,
      iff_of_true (List.append_nil _).symm trivial⟩

end Session

/-- A pool with any history adopted by a decorator with any observers, and any run on it: what the
observers are told is what the pool did, call by call, if and only if every allocation call finds
`last_growths_` equal to the core's counter, or the free list empty (or has nobody to tell). -/
theorem events_exact_iff {B : Build} {env : Env} {w w' : World} {call : CreateCall}
    {p : PoolStruct} (hr : call.InRange B) (hcreate : call.run B env w = (some p, w'))
    {hs : List Client.Event} {d : Client} (hhist : (Client.lts B).Run ⟨⟨w', p⟩, []⟩ hs d)
    {observers : List Nat} {es : List Session.Event} {c : Session} :
    ((Session.lts B).restrict Session.Faithful).Run
        (Session.start d.pool observers d.held) es c ↔
      ((Session.lts B).restrict fun c e _ => c.GrowthsSeen e).Run
        (Session.start d.pool observers d.held) es c := by
  have C := CreateCall.created hr hcreate
  have hzero : Counted ⟨w', p⟩ := by
    unfold Counted
    rw [C.growCount, C.overflow]
    rfl
  obtain ⟨L, hcount⟩ := Client.run_counted hhist C.inv.layout hzero
  refine Lts.restrict_iff (J := Session.Behind B w.heap.ledger.live) ?_ ?_
    ⟨d.pool, rfl, L, hcount, Nat.zero_le _⟩
  · intro c e c' hI _ hstep
    exact (Session.Step.faithful_iff hI hstep).1
  · intro c e c' hI hstep
    exact (Session.Step.faithful_iff hI hstep).2

/-- A pool that grew before it was adopted: the first allocation that finds a free block tells the
observer `grew`, though nothing grew. -/
theorem spurious_grew :
    ∃ d c, (Client.lts (Build.x64 false .none)).Run (firstClient (Build.x64 false .none))
        [.alloc firstEnv 0x1000 none, .alloc secondEnv 0x2000 (some ⟨0x200, 0x2000, 1⟩),
          .free firstEnv 0x1000] d ∧
      (Session.lts (Build.x64 false .none)).Run (Session.start d.pool [7] d.held)
        [.alloc .tryAllocate (calm firstEnv) 0x1000 none] c ∧
      c.ip.delivered = [⟨7, .grew, ⟨1, 0, 0, 1, 1⟩⟩] := by
  have h : (Lts.script (Client.execIf (Build.x64 false .none) Client.OwnWrites fun _ e _ => e)
      (firstClient (Build.x64 false .none))
      [.alloc firstEnv, .alloc secondEnv, .free firstEnv 0x1000]).map (fun r => (r.1,
        (Lts.script (Session.exec (Build.x64 false .none) fun _ _ => True)
          (Session.start r.2.pool [7] r.2.held) [.alloc .tryAllocate (calm firstEnv)]).map
            fun q => (q.1, q.2.ip.delivered))) =
      some ([.alloc firstEnv 0x1000 none, .alloc secondEnv 0x2000 (some ⟨0x200, 0x2000, 1⟩),
          .free firstEnv 0x1000],
        some ([.alloc .tryAllocate (calm firstEnv) 0x1000 none],
          [⟨7, .grew, ⟨1, 0, 0, 1, 1⟩⟩])) := by decide +kernel
  obtain ⟨d, hd, hg⟩ := Lts.script_run Client.execIf_step
    (fun d => (Lts.script (Session.exec (Build.x64 false .none) fun _ _ => True)
      (Session.start d.pool [7] d.held) [.alloc .tryAllocate (calm firstEnv)]).map
        fun q => (q.1, q.2.ip.delivered)) h
  obtain ⟨c, hc, hdel⟩ := Lts.script_run Session.exec_step (fun c => c.ip.delivered) hg
  exact ⟨d, c, (Client.observed_run hd).of_guard, hc.of_guard, hdel⟩

theorem events_exact_iff_x64 :
    ∃ d c, (Client.lts (Build.x64 false .none)).Run (firstClient (Build.x64 false .none))
        [.alloc firstEnv 0x1000 none] d ∧
      ((Session.lts (Build.x64 false .none)).restrict Session.Faithful).Run
        (Session.start d.pool [7] d.held)
        [.alloc .tryAllocate (calm secondEnv) 0x2000 (some ⟨0x200, 0x2000, 1⟩)] c := by
  have h : (Lts.script (Client.execIf (Build.x64 false .none) Client.OwnWrites fun _ e _ => e)
      (firstClient (Build.x64 false .none)) [.alloc firstEnv]).map (fun r => (r.1,
        (Lts.script (Session.exec (Build.x64 false .none) Session.GrowthsSeen)
          (Session.start r.2.pool [7] r.2.held) [.alloc .tryAllocate (calm secondEnv)]).map
            fun q => (q.1, ()))) =
      some ([.alloc firstEnv 0x1000 none],
        some ([.alloc .tryAllocate (calm secondEnv) 0x2000 (some ⟨0x200, 0x2000, 1⟩)], ())) := by
    decide +kernel
  obtain ⟨d, hd, hg⟩ := Lts.script_run Client.execIf_step
    (fun d => (Lts.script (Session.exec (Build.x64 false .none) Session.GrowthsSeen)
      (Session.start d.pool [7] d.held) [.alloc .tryAllocate (calm secondEnv)]).map
        fun q => (q.1, ())) h
  obtain ⟨c, hc, -⟩ := Lts.script_run Session.exec_step (fun _ => ()) hg
  have hhist := (Client.observed_run hd).of_guard
  exact ⟨d, c, hhist, (events_exact_iff (by decide) (firstCall_run false .none (by decide))
    hhist).mpr hc⟩

end MemoryPool
