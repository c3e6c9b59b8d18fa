import MemoryPool.InstrumentedCorrect
import MemoryPool.InstrumentedThreads
import MemoryPool.Lib.Tally

/-!
# MemoryPool.GrowthNotices

`notify_if_grew` under every interleaving, whatever is freed and written.

A thread that has made the pool grow has not read the growth counter yet, and one that has read it
has not left the retry loop before `last_growths_` is at least what it read: so somebody is on the
way to cover the last growth (`Pc.covers`), or it is covered.

* `instr_pool`: what a step does to the pool, and that a growth has somebody to cover it.
* `Noticed.step`: the step lemma.
* `loop_leaves`: the retry loop, with nobody else raising `last_growths_`.
* `growth_notices`: the notifications.
-/

namespace MemoryPool

theorem Frame.growths {B : Build} {s s' : State} {others : List (Nat × Region)}
    (h : Frame B s s') (L : Layout B s others) (hc : Counted s) :
    s.pool.growCount ≤ s'.pool.growCount := by
  rw [hc, h.counted L hc]
  cases h with
  | same h _ => rw [h]
  | grew _ _ h =>
    rw [h]
    exact Nat.le_succ _

namespace Threaded

section Noticed

variable {τ : Type*}

/-- On the way to a `last_growths_` of at least `growths`. -/
def Pc.covers (growths : Nat) : Pc → Prop
  | .popTake | .countAllocation _ | .addLive _ | .loadPeak _ _ | .raisePeak _ _ _
  | .readGrowths _ => True
  | .popUnlock block => block ≠ 0
  | .loadLast _ seen | .raiseLast _ seen _ => seen = growths
  | _ => False

/-- Inside `allocate` or `try_allocate`. -/
def Pc.allocating : Pc → Bool
  | .idle | .countDeallocation _ | .loadLive _ | .lowerLive _ _ | .push _ | .pushNull => false
  | _ => true

/-- The value of `last_growths_` that the thread is about to notify. -/
def Pc.notifying : Pc → List Nat
  | .notifyGrew _ growths => [growths]
  | _ => []

def PcNoticed (ip : InstrumentedPool) : Pc → Prop
  | .popTake => ∃ s, ip.pool = some s ∧ s.pool.head.ptr ≠ 0
  | .loadLast _ growths => growths ≤ memoryPoolGrowths ip.pool
  | .raiseLast _ growths last => growths ≤ memoryPoolGrowths ip.pool ∧ last ≤ ip.lastGrowths
  | _ => True

structure Noticed (B : Build) (others : List (Nat × Region)) (observers : List Nat)
    (m : Machine τ) : Prop where
  exclusive : Exclusive m
  pool : ∃ s, m.ip.pool = some s ∧ Layout B s others ∧ Counted s
  observed : m.ip.observers = observers
  last_le : m.ip.lastGrowths ≤ memoryPoolGrowths m.ip.pool
  threads : ∀ t, PcNoticed m.ip (m.threads t).pc
  covered : memoryPoolGrowths m.ip.pool ≤ m.ip.lastGrowths ∨
    ∃ t, (m.threads t).pc.covers (memoryPoolGrowths m.ip.pool)
  head : (m.raised ++ [0]).head? = some m.ip.lastGrowths
  sorted : (m.raised ++ [0]).Pairwise (· > ·)
  told : Shares m.raised m.told fun t => (m.threads t).pc.notifying
  delivered : ∀ observer, m.ip.delivered.countP (fun d => d.observer = observer ∧ d.event = .grew) =
    m.told.length * observers.count observer

variable {B : Build} {t : τ} {env : StepEnv} {ip : InstrumentedPool} {owner : Option τ} {pc : Pc}
  {o : Outcome τ} {others : List (Nat × Region)} {observers : List Nat} {m m' : Machine τ}

theorem Pc.covers_outside {growths : Nat} (h : pc.allocating = false) : ¬ pc.covers growths := by
  cases pc <;> first | exact id | cases h

theorem Pc.notifying_outside (h : pc.allocating = false) : pc.notifying = [] := by
  cases pc <;> first | rfl | cases h

/-! ## What a step does -/

/-- The pool keeps its shape, or grows; whoever has made it grow is on the way to notice. -/
theorem instr_pool (h : instr B t env ip owner pc = some o) {s : State} (hs : ip.pool = some s) :
    ∃ s', o.ip.pool = some s' ∧ Frame B s s' ∧
      (s'.pool.growCount = s.pool.growCount ∨ ∀ growths, o.pc.covers growths) := by
  have hsame : o.ip.pool = ip.pool → ∃ s', o.ip.pool = some s' ∧ Frame B s s' ∧
      (s'.pool.growCount = s.pool.growCount ∨ ∀ growths, o.pc.covers growths) := by
    intro hp
    exact ⟨s, hp.trans hs, .same rfl ⟨rfl, rfl⟩, Or.inl rfl⟩
  cases pc with
  | pop =>
    obtain ⟨-, rfl | rfl⟩ := instr_pop h
    · have hf := popHead_frame B env.pool s
      refine ⟨(popHead B env.pool s).2, by simp only [hs]; rfl, hf.frame, ?_⟩
      simp only [Pool.tryAllocate, hs, memoryPoolAlloc_some]
      generalize popHead B env.pool s = r at hf
      cases hf with
      | vend _ h1 _ => left; rw [h1]
      | fail _ h1 _ => left; rw [h1]
      | grew hg _ _ _ _ =>
        right
        intro growths
        simp [popped, hg.nonnull, Pc.covers]
    · exact hsame rfl
  | popGrow =>
    simp only [instr, hs] at h
    split at h
    · split at h
      · cases h
        exact hsame rfl
      · cases h
        rcases growPool_cases B env.pool s with ⟨heap, hsame, he⟩ |
          ⟨add, backing, addr, heap, hg, he⟩
        · rw [he]
          exact ⟨_, rfl, .same rfl hsame, Or.inl rfl⟩
        · rw [he]
          exact ⟨_, rfl, .grew hg rfl rfl, Or.inr fun _ => trivial⟩
    · cases h
      exact hsame rfl
  | popTake =>
    simp only [instr, hs] at h
    cases h
    obtain ⟨h1, h2⟩ := pop_tail_frame B s s.pool.head.ptr
    refine ⟨_, rfl, .same h2 ⟨congrArg (·.ledger.live) h1, congrArg (·.ledger.invalid) h1⟩, ?_⟩
    left
    show (takeHead B s).2.pool.growCount = _
    rw [show (takeHead B s).2.pool = _ from h2]
  | push block =>
    simp only [instr] at h
    split at h
    · cases h
    · cases h
      obtain ⟨s', h1, h2, h3⟩ := memoryPoolFree_frame B env.pool s block
      refine ⟨s', by simp only [Pool.deallocate, hs, h1], .same h2 h3, ?_⟩
      left
      rw [h2]
  | pushNull =>
    cases h
    exact ⟨s, by simp only [hs]; rfl, .same rfl ⟨rfl, rfl⟩, Or.inl rfl⟩
  | _ =>
    simp only [instr] at h
    (repeat' split at h) <;> cases h <;> exact hsame rfl

theorem Pc.uncounted_notifying (h : pc.uncounted = true) : pc.notifying = [] := by
  cases pc <;> first | rfl | cases h

theorem instr_observers (h : instr B t env ip owner pc = some o) :
    o.ip.observers = ip.observers := by
  cases pc <;> simp only [instr] at h <;> (repeat' split at h) <;> cases h <;> rfl

/-- `last_growths_` is raised by the compare-exchange of `notify_if_grew`, and by nothing else. -/
theorem instr_last (h : instr B t env ip owner pc = some o) :
    (o.ip.lastGrowths = ip.lastGrowths ∧ o.pc.notifying = [] ∧ ∀ raised,
      o.label.raises raised = raised) ∨
      ∃ block growths, pc = .raiseLast block growths ip.lastGrowths ∧ ip.lastGrowths < growths ∧
        o = { ip := { ip with lastGrowths := growths }, owner := owner,
              pc := .notifyGrew block growths, label := .raised growths } := by
  by_cases hpop : pc.popping = true
  · left
    obtain ⟨⟨pool, hip⟩, hpc, hl, -⟩ := instr_popping h hpop
    refine ⟨by rw [hip], Pc.uncounted_notifying hpc, fun raised => ?_⟩
    rcases hl with hl | hl <;> rw [hl] <;> rfl
  cases pc with
  | raiseLast block growths last =>
    simp only [instr] at h
    split at h
    · rename_i hlt
      split at h
      · cases h
        exact Or.inl ⟨rfl, rfl, fun _ => rfl⟩
      · rename_i hcmp
        push Not at hcmp
        obtain ⟨-, rfl⟩ := hcmp
        cases h
        exact Or.inr ⟨block, growths, rfl, hlt, rfl⟩
    · cases h
      exact Or.inl ⟨rfl, rfl, fun _ => rfl⟩
  | pop | popGrow | popTake | popUnlock _ => exact absurd rfl hpop
  | _ =>
    left
    simp only [instr] at h
    (repeat' split at h) <;> cases h <;> exact ⟨rfl, rfl, fun _ => rfl⟩

/-- What is told of a growth is told right after the raise. -/
theorem instr_told (h : instr B t env ip owner pc = some o) :
    (pc.notifying = [] ∧ (∀ told, o.label.tells told = told) ∧
      ∀ observer, o.ip.delivered.countP (fun d => d.observer = observer ∧ d.event = .grew) =
        ip.delivered.countP fun d => d.observer = observer ∧ d.event = .grew) ∨
      ∃ block growths, pc = .notifyGrew block growths ∧
        o = { ip := ip.notify .grew, owner := owner, pc := .ret block,
              label := .told growths } := by
  by_cases hpop : pc.popping = true
  · left
    obtain ⟨⟨pool, hip⟩, -, hl, -⟩ := instr_popping h hpop
    refine ⟨?_, fun told => ?_, fun observer => by rw [hip]⟩
    · cases pc <;> first | rfl | cases hpop
    · rcases hl with hl | hl <;> rw [hl] <;> rfl
  cases pc with
  | notifyGrew block growths =>
    cases h
    exact Or.inr ⟨block, growths, rfl, rfl⟩
  | exhausted =>
    cases h
    refine Or.inl ⟨rfl, fun _ => rfl, fun observer => ?_⟩
    simp [InstrumentedPool.notify, List.countP_append, List.countP_map, Function.comp_def]
  | pop | popGrow | popTake | popUnlock _ => exact absurd rfl hpop
  | _ =>
    left
    simp only [instr] at h
    (repeat' split at h) <;> cases h <;> exact ⟨rfl, fun _ => rfl, fun _ => rfl⟩

/-- While another thread has the mutex, the pool stays as it is. -/
theorem instr_locked {t' : τ} (h : instr B t env ip (some t') pc = some o)
    (hc : pc.critical = false) :
    o.ip.pool = ip.pool := by
  cases pc with
  | pop =>
    obtain ⟨hnone, -⟩ := instr_pop h
    cases hnone
  | popGrow => cases hc
  | popTake => cases hc
  | push block => cases h
  | pushNull =>
    cases h
    cases hp : ip.pool <;> rfl
  | _ =>
    simp only [instr] at h
    (repeat' split at h) <;> cases h <;> rfl

theorem popped_noticed (block : Nat) : PcNoticed ip (popped block) := by
  unfold popped
  split <;> trivial

theorem instr_noticed (h : instr B t env ip owner pc = some o) (hn : PcNoticed ip pc) :
    PcNoticed o.ip o.pc := by
  cases pc with
  | pop =>
    obtain ⟨-, rfl | rfl⟩ := instr_pop h
    · exact popped_noticed _
    · trivial
  | popGrow =>
    simp only [instr] at h
    split at h
    · cases h
    · rename_i s hs
      split at h
      · split at h
        · cases h
          trivial
        · cases h
          rcases growPool_cases B env.pool s with ⟨heap, -, he⟩ | ⟨add, backing, addr, heap, hg, he⟩
          · rw [he]
            trivial
          · rw [he]
            exact ⟨_, rfl, hg.nonnull⟩
      · rename_i hhead
        cases h
        exact ⟨s, hs, hhead⟩
  | popUnlock block =>
    cases h
    exact popped_noticed _
  | readGrowths block =>
    cases h
    exact Nat.le_refl _
  | loadLast block growths =>
    cases h
    exact ⟨hn, Nat.le_refl _⟩
  | raiseLast block growths last =>
    simp only [instr] at h
    (repeat' split at h) <;> cases h <;> first | trivial | exact ⟨hn.1, Nat.le_refl _⟩
  | _ =>
    simp only [instr] at h
    (repeat' split at h) <;> cases h <;> trivial

/-- Who is on the way to a growth stays on it, or has covered it. -/
theorem instr_covers (h : instr B t env ip owner pc = some o) (hn : PcNoticed ip pc)
    (hsame : memoryPoolGrowths o.ip.pool = memoryPoolGrowths ip.pool)
    (hc : pc.covers (memoryPoolGrowths ip.pool)) :
    memoryPoolGrowths o.ip.pool ≤ o.ip.lastGrowths ∨ o.pc.covers (memoryPoolGrowths o.ip.pool) := by
  rw [hsame]
  cases pc with
  | popTake =>
    obtain ⟨s, hs, hne⟩ := hn
    simp only [instr, hs] at h
    cases h
    exact Or.inr hne
  | popUnlock block =>
    cases h
    right
    rw [popped, if_neg hc]
    trivial
  | readGrowths block =>
    cases h
    exact Or.inr rfl
  | raiseLast block growths last =>
    obtain rfl : growths = _ := hc
    simp only [instr] at h
    split at h
    · split at h
      · cases h
        exact Or.inr rfl
      · cases h
        exact Or.inl (Nat.le_refl _)
    · rename_i hle
      cases h
      have hlast : last ≤ ip.lastGrowths := hn.2
      left
      show _ ≤ ip.lastGrowths
      omega
  | loadLast block growths =>
    cases h
    exact Or.inr hc
  | addLive _ | loadPeak _ _ | countAllocation _ =>
    cases h
    exact Or.inr trivial
  | raisePeak block live peak =>
    simp only [instr] at h
    (repeat' split at h) <;> cases h <;> exact Or.inr trivial
  | _ => cases hc

/-- Between `notify_if_grew`'s read of the counter and its notification or return. -/
def Pc.retrying : Pc → Bool
  | .loadLast _ _ | .raiseLast _ _ _ => true
  | _ => false

theorem retrying_enabled (hpc : pc.retrying = true) : ∃ o, instr B t env ip owner pc = some o := by
  cases pc with
  | loadLast block growths => exact ⟨_, rfl⟩
  | raiseLast block growths last =>
    simp only [instr]
    (repeat' split) <;> exact ⟨_, rfl⟩
  | _ => cases hpc

/-- A step that stays in the loop has just loaded `last_growths_`. -/
theorem retrying_loads (h : instr B t env ip owner pc = some o) (hpc : pc.retrying = true)
    (hcalm : env.spurious = false) (hstay : o.pc.retrying = true) :
    (∀ block growths, pc ≠ .raiseLast block growths ip.lastGrowths) ∧
      ∃ block growths, o.pc = .raiseLast block growths o.ip.lastGrowths := by
  cases pc with
  | loadLast block growths =>
    cases h
    exact ⟨by simp, _, _, rfl⟩
  | raiseLast block growths last =>
    simp only [instr] at h
    split at h
    · split at h
      · rename_i hmiss
        have hne : ip.lastGrowths ≠ last := hmiss.resolve_left (by simp [hcalm])
        cases h
        refine ⟨?_, _, _, rfl⟩
        rintro block' growths' heq
        cases heq
        exact hne rfl
      · cases h
        cases hstay
    · cases h
      cases hstay
  | _ => cases hpc

/-! ## One step -/

theorem PcNoticed.mono {ip' : InstrumentedPool} (h : PcNoticed ip pc)
    (hgrow : memoryPoolGrowths ip.pool ≤ memoryPoolGrowths ip'.pool)
    (hlast : ip.lastGrowths ≤ ip'.lastGrowths) (hpop : pc = .popTake → ip'.pool = ip.pool) :
    PcNoticed ip' pc := by
  cases pc with
  | popTake =>
    obtain ⟨s, hs, hne⟩ := h
    exact ⟨s, (hpop rfl).trans hs, hne⟩
  | loadLast block growths => exact Nat.le_trans h hgrow
  | raiseLast block growths last => exact ⟨Nat.le_trans h.1 hgrow, Nat.le_trans h.2 hlast⟩
  | _ => trivial

theorem instr_last_le (h : instr B t env ip owner pc = some o) :
    ip.lastGrowths ≤ o.ip.lastGrowths := by
  rcases instr_last h with ⟨heq, -, -⟩ | ⟨block, growths, -, hlt, rfl⟩
  · exact Nat.le_of_eq heq.symm
  · exact Nat.le_of_lt hlt

theorem Noticed.start {w w' : World} {p : PoolStruct} (C : Created B w p w')
    (observers : List Nat) :
    Noticed B w.heap.ledger.live observers (Machine.start ⟨w', p⟩ observers : Machine τ) where
  exclusive := Exclusive.start _ _
  pool := ⟨⟨w', p⟩, rfl, C.inv.layout, by rw [Counted, C.growCount, C.overflow]; rfl⟩
  observed := rfl
  last_le := Nat.zero_le _
  threads _ := trivial
  covered := Or.inl (Nat.le_of_eq C.growCount)
  head := rfl
  sorted := List.pairwise_singleton _ _
  told := Shares.all_free .nil
  delivered := by simp [Machine.start, InstrumentedPool.adopt]

theorem Noticed.raised_le (N : Noticed B others observers m) {growths : Nat}
    (h : growths ∈ m.raised ++ [0]) : growths ≤ m.ip.lastGrowths := by
  have hhead := N.head
  have hsorted := N.sorted
  generalize m.raised ++ [0] = all at h hhead hsorted
  cases all with
  | nil => cases hhead
  | cons a all =>
    cases hhead
    rcases List.mem_cons.mp h with rfl | h
    · exact Nat.le_refl _
    · exact Nat.le_of_lt (List.rel_of_pairwise_cons hsorted h)

/-- What the notifications tell. -/
structure NoticesExact (observers : List Nat) (m : Machine τ) : Prop where
  growths : ∃ s, m.ip.pool = some s ∧ memoryPoolGrowths m.ip.pool = s.pool.overflow.length
  last_le : m.ip.lastGrowths ≤ memoryPoolGrowths m.ip.pool
  raised : m.raised.Pairwise (· > ·)
  raised_le : ∀ growths ∈ m.raised, 0 < growths ∧ growths ≤ m.ip.lastGrowths
  told : m.told.Nodup ∧ ∀ growths ∈ m.told, growths ∈ m.raised
  few : m.told.length ≤ memoryPoolGrowths m.ip.pool
  delivered : ∀ observer, m.ip.delivered.countP (fun d => d.observer = observer ∧ d.event = .grew) =
    m.told.length * observers.count observer
  settled : (∀ t, (m.threads t).pc.allocating = false) →
    m.ip.lastGrowths = memoryPoolGrowths m.ip.pool ∧ m.told.Perm m.raised

theorem Noticed.exact (N : Noticed B others observers m) : NoticesExact observers m := by
  obtain ⟨s, hs, -, hcounted⟩ := N.pool
  have hpos := List.pairwise_append.mp N.sorted
  have hraised : ∀ growths ∈ m.raised, 0 < growths ∧ growths ≤ m.ip.lastGrowths := fun g hg =>
    ⟨hpos.2.2 g hg 0 (List.mem_singleton_self 0), N.raised_le (List.mem_append_left _ hg)⟩
  have htold : m.told.Nodup ∧ ∀ growths ∈ m.told, growths ∈ m.raised :=
    ⟨N.told.free_nodup, fun _ hg => N.told.free_mem hg⟩
  refine ⟨⟨s, hs, by rw [hs]; exact hcounted⟩, N.last_le, hpos.1, hraised, htold, ?_, N.delivered,
    ?_⟩
  · refine le_trans ?_ N.last_le
    have hsub : m.told ⊆ List.range' 1 m.ip.lastGrowths := by
      intro g hg
      have := hraised g (htold.2 g hg)
      rw [List.mem_range'_1]
      omega
    simpa using (List.subperm_of_subset htold.1 hsub).length_le
  · intro hout
    have hnone : ∀ t, (m.threads t).pc.notifying = [] := fun t => Pc.notifying_outside (hout t)
    constructor
    · refine le_antisymm N.last_le (N.covered.resolve_right ?_)
      rintro ⟨t, hcov⟩
      exact Pc.covers_outside (hout t) hcov
    · refine (List.perm_ext_iff_of_nodup htold.1 (hpos.1.imp ?_)).mpr fun g => ?_
      · intro a b hab
        omega
      · rw [N.told.cover]
        simp [hnone]

variable [DecidableEq τ]

/-- A thread enters a call. -/
theorem Noticed.call (N : Noticed B others observers m) {th : Thread} (X : Exclusive (m.move t th))
    (hidle : (m.threads t).pc = .idle) (hn : PcNoticed m.ip th.pc) (hq : th.pc.notifying = []) :
    Noticed B others observers (m.move t th) where
  exclusive := X
  pool := N.pool
  observed := N.observed
  last_le := N.last_le
  threads t' := by
    by_cases ht : t' = t
    · subst ht
      simpa [Machine.move] using hn
    · rw [Machine.move_other _ _ ht]
      exact N.threads t'
  covered := by
    refine N.covered.imp_right ?_
    rintro ⟨t', ht'⟩
    refine ⟨t', ?_⟩
    by_cases ht : t' = t
    · rw [ht, hidle] at ht'
      cases ht'
    · rw [Machine.move_other _ _ ht]
      exact ht'
  head := N.head
  sorted := N.sorted
  told := by
    refine N.told.rearrange fun t' => ?_
    by_cases ht : t' = t
    · subst ht
      have hnone : (m.threads t').pc.notifying = [] := by rw [hidle]; rfl
      simp [Machine.move, hq, hnone]
    · rw [Machine.move_other _ _ ht]
  delivered := N.delivered

theorem Noticed.instr (N : Noticed B others observers m) (X : Exclusive (m.after t o))
    (h : instr B t env m.ip m.owner (m.threads t).pc = some o) :
    Noticed B others observers (m.after t o) := by
  obtain ⟨s, hs, L, hcounted⟩ := N.pool
  obtain ⟨s', hs', hframe, hgrew⟩ := instr_pool h hs
  have hgrow : memoryPoolGrowths m.ip.pool ≤ memoryPoolGrowths o.ip.pool := by
    rw [hs, hs']
    exact hframe.growths L hcounted
  have hobs := (instr_observers h).trans N.observed
  have hle := instr_last_le h
  have hn := N.threads t
  have hother : ∀ {t'}, t' ≠ t → (m.after t o).threads t' = m.threads t' :=
    fun ht => Machine.after_other _ _ ht
  have hown : ∀ t', ((m.after t o).threads t').pc.notifying =
      Function.update (fun t => (m.threads t).pc.notifying) t o.pc.notifying t' := by
    intro t'
    by_cases ht : t' = t
    · subst ht
      simp
    · simp [hother ht, ht]
  refine ⟨X, ⟨s', hs', hframe.layout L, hframe.counted L hcounted⟩, hobs, ?_, ?_, ?_, ?_, ?_, ?_,
    ?_⟩
  · rcases instr_last h with ⟨heq, -, -⟩ | ⟨block, growths, hpc, -, rfl⟩
    · show o.ip.lastGrowths ≤ _
      rw [heq]
      exact N.last_le.trans hgrow
    · rw [hpc] at hn
      exact hn.1
  · intro t'
    by_cases ht : t' = t
    · subst ht
      rw [Machine.after_pc]
      exact instr_noticed h hn
    · rw [hother ht]
      refine (N.threads t').mono hgrow hle fun hpop => ?_
      -- the thread at the head has the mutex, so this one has not
      have hheld := (N.exclusive t').mp (by rw [hpop]; rfl)
      rw [hheld] at h
      exact instr_locked h (N.exclusive.other (by rw [hpop]; rfl) (Ne.symm ht))
  · rcases hgrew with hsame | hcovers
    · have hsame : memoryPoolGrowths o.ip.pool = memoryPoolGrowths m.ip.pool := by
        rw [hs, hs']
        exact hsame
      rcases N.covered with hcov | ⟨t', hcov⟩
      · left
        exact (Nat.le_of_eq hsame).trans (hcov.trans hle)
      · by_cases ht : t' = t
        · subst ht
          refine (instr_covers h hn hsame hcov).imp_right fun hc => ⟨t', ?_⟩
          rw [Machine.after_pc]
          exact hc
        · refine Or.inr ⟨t', ?_⟩
          rw [hother ht]
          show (m.threads t').pc.covers (memoryPoolGrowths o.ip.pool)
          rw [hsame]
          exact hcov
    · refine Or.inr ⟨t, ?_⟩
      rw [Machine.after_pc]
      exact hcovers _
  · rcases instr_last h with ⟨heq, -, hr⟩ | ⟨block, growths, -, -, rfl⟩
    · show (o.label.raises m.raised ++ [0]).head? = some o.ip.lastGrowths
      rw [hr, heq]
      exact N.head
    · rfl
  · rcases instr_last h with ⟨-, -, hr⟩ | ⟨block, growths, -, hlt, rfl⟩
    · show (o.label.raises m.raised ++ [0]).Pairwise _
      rw [hr]
      exact N.sorted
    · refine List.pairwise_cons.mpr ⟨fun g hg => ?_, N.sorted⟩
      exact Nat.lt_of_le_of_lt (N.raised_le hg) hlt
  · rw [funext hown]
    rcases instr_last h with ⟨-, hq, hr⟩ | ⟨block, growths, hpc, hlt, rfl⟩
    · rw [hq]
      show Shares (o.label.raises m.raised) _ _
      rw [hr]
      rcases instr_told h with ⟨hpc, ht, -⟩ | ⟨block, growths, hpc, rfl⟩
      · show Shares m.raised (o.label.tells m.told) _
        rw [ht, ← hpc, Function.update_eq_self]
        exact N.told
      · refine N.told.give (List.Perm.of_eq ?_)
        rw [hpc]
        rfl
    · have hnew : growths ∉ m.raised := fun hm =>
        absurd (N.raised_le (List.mem_append_left _ hm)) (by omega)
      have T := N.told.gain hnew t
      rw [hpc] at T
      exact T
  · intro observer
    show o.ip.delivered.countP _ = (o.label.tells m.told).length * _
    rcases instr_told h with ⟨-, ht, hd⟩ | ⟨block, growths, -, rfl⟩
    · rw [ht, hd observer]
      exact N.delivered observer
    · have hnew : (m.ip.observers.map fun observer =>
          (⟨observer, .grew, m.ip.stats⟩ : Delivery)).countP
            (fun d => d.observer = observer ∧ d.event = .grew) = observers.count observer := by
        rw [N.observed, List.countP_map, List.count]
        simp [Function.comp_def, Bool.beq_eq_decide_eq]
      show (m.ip.delivered ++ _).countP _ = _
      rw [List.countP_append, N.delivered, hnew]
      simp [Label.tells, Nat.add_mul]

theorem Noticed.step (N : Noticed B others observers m) {e : Event τ} (h : Step B m e m') :
    Noticed B others observers m' := by
  have X := N.exclusive.step h
  cases h with
  | alloc hidle => exact N.call X hidle trivial rfl
  | deallocate hidle =>
    refine N.call X hidle ?_ ?_
    · dsimp only
      split <;> trivial
    · dsimp only
      split <;> rfl
  | @write t addr byte s hs =>
    obtain ⟨s₁, hs₁, L, hcounted⟩ := N.pool
    obtain rfl : s₁ = s := Option.some.inj (hs₁.symm.trans hs)
    have hgrowths : memoryPoolGrowths (some { s₁ with mem := ByteMem.set s₁.mem addr byte }) =
        memoryPoolGrowths m.ip.pool := by rw [hs]; rfl
    refine ⟨X, ⟨_, rfl, L.same rfl rfl, hcounted⟩, N.observed, ?_, ?_, ?_, N.head, N.sorted,
      N.told, N.delivered⟩
    · exact N.last_le.trans (Nat.le_of_eq hgrowths.symm)
    · intro t'
      have hn := N.threads t'
      dsimp only
      generalize (m.threads t').pc = pc at hn
      cases pc with
      | popTake =>
        obtain ⟨s₂, hs₂, hne⟩ := hn
        obtain rfl : s₁ = s₂ := Option.some.inj (hs₁.symm.trans hs₂)
        exact ⟨_, rfl, hne⟩
      | loadLast block growths => exact Nat.le_trans hn (Nat.le_of_eq hgrowths.symm)
      | raiseLast block growths last =>
        exact ⟨Nat.le_trans hn.1 (Nat.le_of_eq hgrowths.symm), hn.2⟩
      | _ => trivial
    · have hc := N.covered
      rw [← hgrowths] at hc
      exact hc
  | instr h => exact N.instr X h

/-- `last_growths_` never decreases. -/
theorem Step.last_le {e : Event τ} (h : Step B m e m') : m.ip.lastGrowths ≤ m'.ip.lastGrowths := by
  cases h with
  | instr h => exact instr_last_le h
  | _ => exact Nat.le_refl _

/-! ## The retry loop -/

def Event.stepOf (t : τ) : Event τ → Bool
  | .instr t' _ => t' = t
  | _ => false

/-- Nobody else advances `last_growths_`, thread `t`'s compare-exchange does not fail spuriously,
and `t` has not left the loop. -/
def Retries (t : τ) (m : Machine τ) (e : Event τ) (m' : Machine τ) : Prop :=
  (e.stepOf t = false → m'.ip.lastGrowths = m.ip.lastGrowths) ∧
    (∀ env, e = .instr t env → env.spurious = false) ∧ (m'.threads t).pc.retrying = true

/-- A step of another thread, or the entry into a call. -/
theorem Step.pc_eq {e : Event τ} (h : Step B m e m') (hpc : (m.threads t).pc ≠ .idle)
    (he : e.stepOf t = false) : (m'.threads t).pc = (m.threads t).pc := by
  have hmove : ∀ t' th, (m.threads t').pc = .idle →
      ((m.move t' th).threads t).pc = (m.threads t).pc := by
    intro t' th hidle
    rw [Machine.move_other]
    rintro rfl
    exact hpc hidle
  cases h with
  | alloc hidle => exact hmove _ _ hidle
  | deallocate hidle => exact hmove _ _ hidle
  | write _ => rfl
  | @instr t' env o h =>
    rw [Machine.after_other]
    rintro rfl
    simp [Event.stepOf] at he

/-- At most one step of the loop does not leave it. -/
theorem loop_leaves {es : List (Event τ)}
    (hrun : ((lts B τ).restrict (Retries t)).Run m es m') (hpc : (m.threads t).pc.retrying = true) :
    es.countP (Event.stepOf t) ≤ 1 := by
  suffices h : (m'.threads t).pc.retrying = true ∧ (es.countP (Event.stepOf t) = 0 ∨
      es.countP (Event.stepOf t) = 1 ∧
        ∃ block growths, (m'.threads t).pc = .raiseLast block growths m'.ip.lastGrowths) by
    omega
  induction hrun with
  | nil => exact ⟨hpc, Or.inl rfl⟩
  | @snoc m₁ m₂ es e _ hstep ih =>
    obtain ⟨hloop, hcount⟩ := ih
    obtain ⟨⟨hquiet, hcalm, hstay⟩, hstep⟩ := hstep
    refine ⟨hstay, ?_⟩
    rw [List.countP_append, List.countP_singleton]
    cases he : e.stepOf t with
    | false =>
      refine hcount.imp id fun ⟨h1, block, growths, h2⟩ => ⟨h1, block, growths, ?_⟩
      rw [hstep.pc_eq (by rintro hidle; rw [hidle] at hloop; cases hloop) he, h2, hquiet he]
    | true =>
      right
      cases hstep with
      | @instr t' env o h =>
        obtain rfl : t' = t := by simpa [Event.stepOf] using he
        rw [Machine.after_pc] at hstay ⊢
        obtain ⟨hstale, hload⟩ := retrying_loads h hloop (hcalm env rfl) hstay
        refine ⟨?_, hload⟩
        rcases hcount with h0 | ⟨-, block, growths, hfresh⟩
        · simp [h0]
        · exact absurd hfresh (hstale _ _)
      | _ => cases he

/-! ## Every run -/

/-- In every run of any number of threads, whatever they free and write: `last_growths_` is at most
the number of growths, and never decreases; each notification is that of an increase of its own,
and reaches every observer; with no allocation in progress the last growth is covered and nothing
is left to tell; and the retry loop of a call is left at its second step at the latest, once nobody
else advances the counter. -/
theorem growth_notices {env : Env} {w w' : World} {blockSize N F : Nat} {p : PoolStruct}
    (hr : (CreateCall.dynamic blockSize N F).InRange B)
    (hcreate : memoryPoolCreateDynamic B env w blockSize N F = (some p, w'))
    {es : List (Event τ)} (hrun : (lts B τ).Run (Machine.start ⟨w', p⟩ observers) es m) :
    NoticesExact observers m ∧
    (∀ es' m', (lts B τ).Run m es' m' → m.ip.lastGrowths ≤ m'.ip.lastGrowths) ∧
    ∀ t, (m.threads t).pc.retrying = true →
      (∀ env, ∃ o, instr B t env m.ip m.owner (m.threads t).pc = some o) ∧
      ∀ es' m', ((lts B τ).restrict (Retries t)).Run m es' m' →
        es'.countP (Event.stepOf t) ≤ 1 := by
  have hcall : (CreateCall.dynamic blockSize N F).run B env w = (some p, w') := hcreate
  have C := CreateCall.created hr hcall
  have N : Noticed B w.heap.ledger.live observers m :=
    hrun.invariant (fun _ _ _ N h => N.step h) (Noticed.start C observers)
  refine ⟨N.exact, ?_, fun t hpc => ⟨fun _ => retrying_enabled hpc, ?_⟩⟩
  · intro es' m' hrun'
    refine hrun'.invariant (I := fun m' => m.ip.lastGrowths ≤ m'.ip.lastGrowths) ?_ (Nat.le_refl _)
    intro m₁ _ m₂ h hstep
    exact h.trans (Step.last_le hstep)
  · intro es' m' hrun'
    exact loop_leaves hrun' hpc

end Noticed

/-- A pop in one step, or the steps of its critical section. -/
def popWhole : StepEnv := ⟨secondEnv, false, true⟩

def popSplit : StepEnv := ⟨secondEnv, false, false⟩

/-- The second thread's pop makes the pool grow; the first one, still at its counters then, reads
the growth counter first and notifies. -/
def behindSchedule : List (Event Bool) :=
  [.alloc false .allocate, .alloc true .allocate, .instr false popWhole] ++
    List.replicate 8 (.instr true popSplit) ++ List.replicate 9 (.instr false popWhole) ++
    List.replicate 4 (.instr true popSplit)

theorem growth_notices_x64 :
    ∃ m : Machine Bool, m.ip.delivered.length = 1 ∧ (m.threads false).held = [0x1000] ∧
      (m.threads true).held = [0x2000] ∧ NoticesExact [7] m := by
  have h : (Lts.script (exec (Build.x64 false .mutex))
      (Machine.start (firstClient (Build.x64 false .mutex)).pool [7]) behindSchedule).map
        (fun r => (r.1, (r.2.ip.delivered.length, (r.2.threads false).held,
          (r.2.threads true).held))) =
      some (behindSchedule, (1, [0x1000], [0x2000])) := by decide +kernel
  obtain ⟨m, hrun, hm⟩ := Lts.script_run exec_step
    (fun m : Machine Bool => (m.ip.delivered.length, (m.threads false).held,
      (m.threads true).held)) h
  obtain ⟨h1, h2, h3⟩ : _ ∧ _ ∧ _ := by simpa using hm
  have hcreate : memoryPoolCreateDynamic (Build.x64 false .mutex) firstEnv World.start 16 1 2 =
      (some firstPool, (firstClient (Build.x64 false .mutex)).pool.toWorld) :=
    firstCall_run false .mutex (by decide)
  exact ⟨m, h1, h2, h3, (growth_notices (by decide) hcreate hrun.of_guard).1⟩

end Threaded

end MemoryPool
