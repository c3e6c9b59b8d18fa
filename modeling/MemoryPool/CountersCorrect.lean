import MemoryPool.GrowthNotices

/-!
# MemoryPool.CountersCorrect

The counters of `InstrumentedPool` under every interleaving, for threads that deallocate and write
only what they hold.

A thread that is inside a call may have a block there (`Pc.owns`). Each counter counts the blocks of
some of the program points: `live_` those of `Pc.counts`, the difference of `allocations_` and
`deallocations_` those of `Pc.balances`. All are counted among the owned ones, which are off the
free list.

* `Stock.step`: the free list, and who owns what is off it.
* `Lives.step`, `Balanced.step`, `Failures.step`, `Peaks.step`: one counter each.
* `counters_exact`: every run.
-/

namespace MemoryPool

namespace Threaded

section Carried

/-- The block that a call has in its hands, and that is off the free list. -/
def Pc.owns : Pc → List Nat
  | .popUnlock block => if block = 0 then [] else [block]
  | .countAllocation block | .addLive block | .loadPeak block _ | .raisePeak block _ _
  | .readGrowths block | .loadLast block _ | .raiseLast block _ _ | .notifyGrew block _ | .ret block
  | .countDeallocation block | .loadLive block | .lowerLive block _ | .push block => [block]
  | _ => []

/-- The block of a call that `live_` has counted. -/
def Pc.counts : Pc → List Nat
  | .loadPeak block _ | .raisePeak block _ _ | .readGrowths block | .loadLast block _
  | .raiseLast block _ _ | .notifyGrew block _ | .ret block
  | .countDeallocation block | .loadLive block | .lowerLive block _ => [block]
  | _ => []

/-- The block of a call that `allocations_` has counted and `deallocations_` has not. -/
def Pc.balances : Pc → List Nat
  | .addLive block | .loadPeak block _ | .raisePeak block _ _ | .readGrowths block
  | .loadLast block _ | .raiseLast block _ _ | .notifyGrew block _ | .ret block
  | .countDeallocation block => [block]
  | _ => []

theorem Pc.counts_owned (pc : Pc) : pc.counts ⊆ pc.owns := by
  cases pc <;> first | exact List.Subset.refl _ | exact List.nil_subset _

theorem Pc.balances_owned (pc : Pc) : pc.balances ⊆ pc.owns := by
  cases pc <;> first | exact List.Subset.refl _ | exact List.nil_subset _

/-- Nothing is counted before the pop has ended. -/
theorem Pc.uncounted_counts {pc : Pc} (h : pc.uncounted = true) :
    pc.counts = [] ∧ pc.balances = [] := by
  cases pc <;> first | exact ⟨rfl, rfl⟩ | cases h

theorem Pc.popping_counts {pc : Pc} (h : pc.popping = true) :
    pc.counts = [] ∧ pc.balances = [] := by
  cases pc <;> first | exact ⟨rfl, rfl⟩ | cases h

theorem popped_owns (block : Nat) : (popped block).owns = if block = 0 then [] else [block] := by
  unfold popped
  split <;> rfl

variable {τ : Type*}

/-- What thread `t` holds, together with the block of its call. -/
def Machine.has (m : Machine τ) (f : Pc → List Nat) (t : τ) : List Nat :=
  f (m.threads t).pc ++ (m.threads t).held

variable [DecidableEq τ] {B : Build} {m m' : Machine τ} {t : τ} {f : Pc → List Nat}

theorem Machine.has_after (m : Machine τ) (t : τ) (o : Outcome τ) (f : Pc → List Nat) :
    (m.after t o).has f =
      Function.update (m.has f) t (f o.pc ++ (o.returned.toList ++ (m.threads t).held)) := by
  funext t'
  by_cases ht : t' = t
  · subst ht
    simp [Machine.has, Machine.after, Thread.after]
  · simp [Machine.has, Machine.after_other _ _ ht, ht]

/-- A step that hands the block on. -/
theorem Machine.has_keep {o : Outcome τ}
    (h : (f o.pc ++ o.returned.toList).Perm (f (m.threads t).pc)) (t' : τ) :
    ((m.after t o).has f t').Perm (m.has f t') := by
  rw [Machine.has_after]
  by_cases ht : t' = t
  · subst ht
    rw [Function.update_self, ← List.append_assoc]
    exact h.append_right _
  · rw [Function.update_of_ne ht]

/-- A call begins: the block it is given is still the thread's. -/
theorem Machine.has_call {e : Event τ} (h : ((lts B τ).guard OwnBlocks).step m e m')
    (he : ∀ t env, e ≠ .instr t env) (h0 : ∀ t, 0 ∉ (m.threads t).held)
    (hf : ∀ block, f .idle = [] ∧ f .pop = [] ∧ f .pushNull = [] ∧
      f (.countDeallocation block) = [block]) (t : τ) : (m'.has f t).Perm (m.has f t) := by
  obtain ⟨hown, hstep⟩ := h
  obtain ⟨hidle', hpop, hnull, hdeal⟩ := hf 0
  cases hstep with
  | @alloc t' verb hidle =>
    by_cases ht : t = t'
    · subst ht
      simp [Machine.has, Machine.move, hidle, hidle', hpop]
    · simp [Machine.has, Machine.move_other _ _ ht]
  | @deallocate t' block hidle =>
    by_cases ht : t = t'
    · subst ht
      simp only [Machine.has, Machine.move, Function.update_self, hidle, hidle', List.nil_append]
      by_cases hb : block = 0
      · rw [if_pos hb, hnull, hb, List.erase_of_not_mem (h0 t), List.nil_append]
      · rw [if_neg hb, (hf block).2.2.2]
        exact (List.perm_cons_erase (hown.resolve_left hb)).symm
    · simp [Machine.has, Machine.move_other _ _ ht]
  | write _ => exact List.Perm.refl _
  | instr h => exact absurd rfl (he _ _)

end Carried

/-! ## What is off the free list -/

section Stock

variable {τ : Type*} {B : Build} {t : τ} {env : StepEnv} {ip : InstrumentedPool} {owner : Option τ}
  {pc : Pc} {o : Outcome τ} {others : List (Nat × Region)} {observers : List Nat} {m m' : Machine τ}
  {s s' : State} {free off : List Nat}

/-- What a step does to the blocks off the free list. -/
inductive OffStep (pc : Pc) (o : Outcome τ) (off : List Nat) : List Nat → Prop where
  | keep : (∀ n, o.label.off n = n) → (o.pc.owns ++ o.returned.toList).Perm pc.owns →
      OffStep pc o off off
  | take {block : Nat} : o.label = .took → pc.owns = [] → o.pc.owns = [block] →
      o.returned = none → OffStep pc o off (block :: off)
  | give {block : Nat} : o.label = .gave → pc.owns = [block] → o.pc.owns = [] →
      o.returned = none → OffStep pc o off (off.erase block)

theorem instr_stock (h : instr B t env ip owner pc = some o) (hs : ip.pool = some s)
    (I : PoolInv B s others free off) (hn : PcNoticed ip pc)
    (hown : ∀ block ∈ pc.owns, block ∈ off) :
    ∃ s' free' off', o.ip.pool = some s' ∧ PoolInv B s' others free' off' ∧
      OffStep pc o off off' := by
  have hsame : o.ip.pool = ip.pool → (∀ n, o.label.off n = n) →
      (o.pc.owns ++ o.returned.toList).Perm pc.owns → ∃ s' free' off', o.ip.pool = some s' ∧
        PoolInv B s' others free' off' ∧ OffStep pc o off off' :=
    fun hp hl ho => ⟨s, free, off, hp.trans hs, I, .keep hl ho⟩
  cases pc with
  | pop =>
    obtain ⟨-, rfl | rfl⟩ := instr_pop h
    · have hr := popHead_result I env.pool
      obtain ⟨free', I'⟩ := hr.inv I
      simp only [Pool.tryAllocate, hs, memoryPoolAlloc_some]
      generalize popHead B env.pool s = r at I'
      by_cases h0 : r.1 = 0
      · rw [if_pos h0] at I'
        refine ⟨r.2, free', off, rfl, I', .keep (fun n => ?_) ?_⟩
        · simp [h0, Label.off]
        · simp only [popped_owns, if_pos h0]
          exact List.Perm.refl _
      · rw [if_neg h0] at I'
        refine ⟨r.2, free', r.1 :: off, rfl, I', .take ?_ rfl ?_ rfl⟩
        · simp [h0]
        · simp [popped_owns, h0]
    · exact hsame rfl (fun _ => rfl) (List.Perm.refl _)
  | popGrow =>
    simp only [instr, hs] at h
    split at h
    · rename_i h0
      split at h
      · cases h
        exact hsame rfl (fun _ => rfl) (List.Perm.refl _)
      · cases h
        obtain rfl : free = [] := I.head_zero_iff.mp h0
        rcases growPool_cases B env.pool s with ⟨heap, hsame, he⟩ |
          ⟨add, backing, addr, heap, hg, he⟩
        · rw [he]
          exact ⟨_, _, _, rfl, I.sameHeap hsame, .keep (fun _ => rfl) (List.Perm.refl _)⟩
        · rw [he]
          exact ⟨_, _, _, rfl, I.link hg, .keep (fun _ => rfl) (List.Perm.refl _)⟩
    · cases h
      exact hsame rfl (fun _ => rfl) (List.Perm.refl _)
  | popTake =>
    obtain ⟨s₁, hs₁, hne⟩ := hn
    obtain rfl : s = s₁ := Option.some.inj (hs.symm.trans hs₁)
    simp only [instr, hs] at h
    cases h
    cases free with
    | nil => exact absurd (I.head_zero_iff.mpr rfl) hne
    | cons a rest =>
      obtain ⟨hhead, ha⟩ := I.head_eq
      refine ⟨_, rest, a :: off, rfl, ?_, .take rfl rfl ?_ rfl⟩
      · simp only [takeHead, hhead]
        rw [I.pop_tail]
        exact I.vend _
      · simp [takeHead, hhead, Pc.owns, ha]
  | popUnlock block =>
    cases h
    refine hsame rfl (fun _ => rfl) ?_
    simp only [popped_owns, Option.toList_none, List.append_nil]
    exact List.Perm.refl _
  | push block =>
    simp only [instr] at h
    split at h
    · cases h
    · cases h
      have hb := hown block (List.mem_singleton_self _)
      obtain ⟨tag, ht⟩ := pushHead_held I hb env.pool
      refine ⟨s.takeBack B block tag, _, _, ?_, I.takeBack hb tag, .give rfl rfl rfl rfl⟩
      simp only [Pool.deallocate, hs, memoryPoolFree_slot I.layout (I.held_slot hb), ht]
  | pushNull =>
    cases h
    exact ⟨s, free, off, by simp only [hs]; rfl, I, .keep (fun _ => rfl) (List.Perm.refl _)⟩
  | _ =>
    simp only [instr] at h
    (repeat' split at h) <;> cases h <;> exact hsame rfl (fun _ => rfl) (List.Perm.refl _)

theorem Frame.slots_le (h : Frame B s s') :
    (s.pool.slots B).length ≤ (s'.pool.slots B).length := by
  cases h with
  | same h _ => rw [h.slots]
  | @grew add backing addr heap _ hg _ h =>
    rw [h]
    simp only [PoolStruct.slots, PoolStruct.chunks, linkChunk, List.map_cons, List.flatMap_cons,
      List.length_append]
    omega

/-- The pool is in order, and the threads own what is off its free list. -/
structure Stock (B : Build) (others : List (Nat × Region)) (m : Machine τ) (s : State)
    (free off : List Nat) : Prop where
  pool : m.ip.pool = some s
  inv : PoolInv B s others free off
  owned : Tally off (m.has Pc.owns)
  count : m.off = off.length
  off_le : m.off ≤ m.mostOff
  most_le : m.mostOff ≤ (s.pool.slots B).length

theorem Stock.off_slots (S : Stock B others m s free off) :
    m.off = (s.pool.slots B).length - free.length ∧ m.off ≤ (s.pool.slots B).length := by
  have := S.inv.parts.length_eq
  rw [List.length_append] at this
  have := S.count
  omega

theorem Stock.zero_held (S : Stock B others m s free off) (t : τ) : 0 ∉ (m.threads t).held :=
  fun h =>
    (S.inv.layout.slot_spec (S.inv.held_slot (S.owned.mem (List.mem_append_right _ h)))).1 rfl

theorem Stock.start {w w' : World} {p : PoolStruct} (C : Created B w p w') (observers : List Nat) :
    Stock B w.heap.ledger.live (Machine.start ⟨w', p⟩ observers : Machine τ) ⟨w', p⟩
      (slotsOf (slotStride B p.blockSize) p.backing p.blockCount) [] :=
  ⟨rfl, C.inv, Tally.none, rfl, Nat.le_refl _, Nat.zero_le _⟩

variable [DecidableEq τ]

theorem Stock.instr (S : Stock B others m s free off) (N : Noticed B others observers m)
    (h : instr B t env m.ip m.owner (m.threads t).pc = some o) :
    ∃ s' free' off', Stock B others (m.after t o) s' free' off' := by
  have hown : ∀ block ∈ (m.threads t).pc.owns, block ∈ off := fun b hb =>
    S.owned.mem (t := t) (List.mem_append_left _ hb)
  obtain ⟨s', free', off', hs', I', hoff⟩ := instr_stock h S.pool S.inv (N.threads t) hown
  obtain ⟨s₁, hs₁, hframe, -⟩ := instr_pool h S.pool
  obtain rfl : s' = s₁ := Option.some.inj (hs'.symm.trans hs₁)
  have hslots := Frame.slots_le hframe
  have hlen := I'.parts.length_eq
  have hcount := S.count
  have hmost := S.most_le
  rw [List.length_append] at hlen
  suffices hs : Tally off' ((m.after t o).has Pc.owns) ∧ o.label.off m.off = off'.length by
    refine ⟨s', free', off', hs', I', hs.1, hs.2, Nat.le_max_right _ _, ?_⟩
    show max m.mostOff (o.label.off m.off) ≤ _
    rw [hs.2]
    omega
  cases hoff with
  | keep hl hp => exact ⟨S.owned.same (Machine.has_keep hp), (hl _).trans hcount⟩
  | @take block hl hpc hpc' hret =>
    refine ⟨?_, by rw [hl, hcount]; rfl⟩
    have hb : block ∉ off := (List.nodup_cons.mp (List.nodup_append.mp I'.nodup).2.1).1
    have T := S.owned.gain hb t
    rw [Machine.has_after, hpc', hret]
    simp only [Machine.has, hpc] at T
    exact T
  | @give block hl hpc hpc' hret =>
    have T := S.owned.lose (t := t) (List.Perm.of_eq (by rw [Machine.has, hpc]; rfl))
    refine ⟨?_, by rw [hl, hcount, T.2]; rfl⟩
    rw [Machine.has_after, hpc', hret]
    exact T.1

theorem Stock.step (S : Stock B others m s free off) (N : Noticed B others observers m)
    {e : Event τ} (h : ((lts B τ).guard OwnBlocks).step m e m') :
    ∃ s' free' off', Stock B others m' s' free' off' := by
  have hcall := Machine.has_call (f := Pc.owns) h
  obtain ⟨hown, hstep⟩ := h
  cases hstep with
  | instr h => exact S.instr N h
  | alloc _ =>
    have T := S.owned.same (hcall (by simp) S.zero_held fun _ => ⟨rfl, rfl, rfl, rfl⟩)
    exact ⟨s, free, off, S.pool, S.inv, T, S.count, S.off_le, S.most_le⟩
  | deallocate _ =>
    have T := S.owned.same (hcall (by simp) S.zero_held fun _ => ⟨rfl, rfl, rfl, rfl⟩)
    exact ⟨s, free, off, S.pool, S.inv, T, S.count, S.off_le, S.most_le⟩
  | @write t addr byte s₁ hs₁ =>
    obtain rfl : s = s₁ := Option.some.inj (S.pool.symm.trans hs₁)
    obtain ⟨b, hb, hl, hu⟩ := hown
    rw [hs₁] at hu
    have I' : PoolInv B { s with mem := ByteMem.set s.mem addr byte } others free off :=
      S.inv.write (S.owned.mem (List.mem_append_right _ hb)) hl hu
    exact ⟨_, free, off, rfl, I', S.owned, S.count, S.off_le, S.most_le⟩

end Stock

/-! ## The live counter -/

section Lives

variable {τ : Type*} {B : Build} {t : τ} {env : StepEnv} {ip : InstrumentedPool} {owner : Option τ}
  {pc : Pc} {o : Outcome τ} {others : List (Nat × Region)} {observers : List Nat} {m m' : Machine τ}
  {s : State} {free off : List Nat}

/-- `live_` goes up by one in `record_allocation` and down by one in `deallocate`, unless the clamp
finds it at zero. -/
theorem instr_live (h : instr B t env ip owner pc = some o)
    (hpos : ∀ block live, pc = .lowerLive block live → 0 < live) :
    (o.ip.live = ip.live ∧ (o.pc.counts ++ o.returned.toList).Perm pc.counts) ∨
      (∃ block, pc = .addLive block ∧ o.ip.live = B.add ip.live 1 ∧ o.pc.counts = [block] ∧
        o.returned = none) ∨
      ∃ block, pc = .lowerLive block ip.live ∧ o.ip.live = B.sub ip.live 1 ∧ o.pc.counts = [] ∧
        o.returned = none := by
  by_cases hpop : pc.popping = true
  · left
    obtain ⟨⟨pool, hip⟩, hpc, -, hret⟩ := instr_popping h hpop
    rw [(Pc.uncounted_counts hpc).1, (Pc.popping_counts hpop).1, hret, hip]
    exact ⟨rfl, List.Perm.refl _⟩
  cases pc with
  | pop | popGrow | popTake | popUnlock _ => exact absurd rfl hpop
  | addLive block =>
    cases h
    exact Or.inr (Or.inl ⟨block, rfl, rfl, rfl, rfl⟩)
  | lowerLive block live =>
    have hlive := hpos block live rfl
    simp only [instr, if_pos hlive] at h
    split at h
    · cases h
      exact Or.inl ⟨rfl, List.Perm.refl _⟩
    · rename_i hcmp
      push Not at hcmp
      obtain ⟨-, rfl⟩ := hcmp
      cases h
      exact Or.inr (Or.inr ⟨block, rfl, rfl, rfl, rfl⟩)
  | _ =>
    left
    simp only [instr] at h
    (repeat' split at h) <;> cases h <;> exact ⟨rfl, List.Perm.refl _⟩

/-- What the loop of `deallocate` compares with is `live_` as it was read, with the block of the
call counted in it. -/
theorem instr_lowers (h : instr B t env ip owner pc = some o) {block live : Nat}
    (ho : o.pc = .lowerLive block live) : live = ip.live ∧ pc.counts = [block] := by
  by_cases hpop : pc.popping = true
  · have hpc := (instr_popping h hpop).2.1
    rw [ho] at hpc
    cases hpc
  cases pc with
  | pop | popGrow | popTake | popUnlock _ => exact absurd rfl hpop
  | loadLive block =>
    cases h
    cases ho
    exact ⟨rfl, rfl⟩
  | lowerLive block live =>
    simp only [instr] at h
    (repeat' split at h) <;> cases h <;> cases ho
    exact ⟨rfl, rfl⟩
  | _ =>
    simp only [instr] at h
    (repeat' split at h) <;> cases h <;> cases ho

/-- `live_` is the number of blocks counted, and the loop of `deallocate` never starts from zero. -/
structure Lives (m : Machine τ) (live : List Nat) : Prop where
  counted : Tally live (m.has Pc.counts)
  live_eq : m.ip.live = live.length
  lowers : ∀ t block seen, (m.threads t).pc = .lowerLive block seen → 0 < seen

theorem Lives.start (s : State) (observers : List Nat) :
    Lives (Machine.start s observers : Machine τ) [] :=
  ⟨Tally.none, rfl, fun _ _ _ h => by cases h⟩

theorem Lives.le_off {live : List Nat} (V : Lives m live) (S : Stock B others m s free off) :
    m.ip.live ≤ m.off := by
  rw [V.live_eq, S.count]
  refine V.counted.length_le S.owned fun t => ?_
  exact List.append_subset.mpr ⟨fun b hb => List.mem_append_left _ (Pc.counts_owned _ hb),
    fun b hb => List.mem_append_right _ hb⟩

/-- A block in the hands of a call that has not counted it is counted by nobody. -/
theorem Stock.uncounted {f : Pc → List Nat} (S : Stock B others m s free off) {items : List Nat}
    (T : Tally items (m.has f)) (hf : ∀ pc, f pc ⊆ pc.owns) {block : Nat}
    (hown : (m.threads t).pc.owns = [block]) (hno : f (m.threads t).pc = []) : block ∉ items := by
  have hmem : ∀ t, m.has f t ⊆ m.has Pc.owns t := by
    intro t
    exact List.append_subset.mpr ⟨fun b hb => List.mem_append_left _ (hf _ hb),
      fun b hb => List.mem_append_right _ hb⟩
  have hhas : m.has Pc.owns t = block :: (m.threads t).held := by rw [Machine.has, hown]; rfl
  refine T.uncounted S.owned hmem (t := t) (by rw [hhas]; exact List.mem_cons_self ..) ?_
  rw [Machine.has, hno, List.nil_append]
  have hnd := S.owned.owned_nodup t
  rw [hhas] at hnd
  exact (List.nodup_cons.mp hnd).1

variable [DecidableEq τ]

theorem Lives.instr {live : List Nat} (V : Lives m live) (S : Stock B others m s free off)
    (S' : ∃ s' free' off', Stock B others (m.after t o) s' free' off')
    (h : instr B t env m.ip m.owner (m.threads t).pc = some o) :
    ∃ live', Lives (m.after t o) live' := by
  have hpos : 0 < live.length ∨ (m.threads t).pc.counts = [] := by
    cases hc : (m.threads t).pc.counts with
    | nil => exact Or.inr rfl
    | cons b _ =>
      left
      refine List.length_pos_of_mem (V.counted.mem (t := t) (a := b) ?_)
      rw [Machine.has, hc]
      exact List.mem_cons_self ..
  have hlowers : ∀ t' block seen, ((m.after t o).threads t').pc = .lowerLive block seen →
      0 < seen := by
    intro t' block seen hpc
    by_cases ht : t' = t
    · subst ht
      rw [Machine.after_pc] at hpc
      obtain ⟨rfl, hc⟩ := instr_lowers h hpc
      rw [V.live_eq]
      exact hpos.resolve_right (by rw [hc]; simp)
    · rw [Machine.after_other _ _ ht] at hpc
      exact V.lowers t' block seen hpc
  rcases instr_live h (V.lowers t) with ⟨hl, hp⟩ | ⟨block, hpc, hl, hc, hr⟩ |
    ⟨block, hpc, hl, hc, hr⟩
  · exact ⟨live, V.counted.same (Machine.has_keep hp), hl.trans V.live_eq, hlowers⟩
  · have hnew : block ∉ live := S.uncounted V.counted Pc.counts_owned (t := t)
      (by rw [hpc]; rfl) (by rw [hpc]; rfl)
    have T : Tally (block :: live) ((m.after t o).has Pc.counts) := by
      have T := V.counted.gain hnew t
      rw [Machine.has_after, hc, hr]
      simp only [Machine.has, hpc] at T
      exact T
    obtain ⟨s', free', off', S'⟩ := S'
    have hlen : (block :: live).length ≤ off'.length := T.length_le S'.owned fun t =>
      List.append_subset.mpr ⟨fun b hb => List.mem_append_left _ (Pc.counts_owned _ hb),
        fun b hb => List.mem_append_right _ hb⟩
    have hlt := S'.inv.held_length
    refine ⟨_, T, ?_, hlowers⟩
    rw [List.length_cons] at hlen ⊢
    show o.ip.live = _
    rw [hl, V.live_eq]
    exact Build.add_eq (by omega)
  · have hhas : m.has Pc.counts t = block :: (m.threads t).held := by rw [Machine.has, hpc]; rfl
    have T := V.counted.lose (List.Perm.of_eq hhas)
    have hlt := V.le_off S
    have hoff := S.inv.held_length
    have hcount := S.count
    have hlive := V.live_eq
    refine ⟨live.erase block, ?_, ?_, hlowers⟩
    · rw [Machine.has_after, hc, hr]
      exact T.1
    · show o.ip.live = _
      have hlen := T.2
      rw [hl, Build.sub_eq (by omega) (by omega)]
      omega

theorem Lives.step {live : List Nat} (V : Lives m live) (S : Stock B others m s free off)
    (S' : ∃ s' free' off', Stock B others m' s' free' off') {e : Event τ}
    (h : ((lts B τ).guard OwnBlocks).step m e m') : ∃ live', Lives m' live' := by
  have hcall := Machine.has_call (f := Pc.counts) h
  obtain ⟨hown, hstep⟩ := h
  have hmove : ∀ t th, (∀ block seen, th.pc ≠ .lowerLive block seen) → ∀ t' block seen,
      ((m.move t th).threads t').pc = .lowerLive block seen → 0 < seen := by
    intro t th hth t' block seen hpc
    by_cases ht : t' = t
    · subst ht
      simp only [Machine.move, Function.update_self] at hpc
      exact absurd hpc (hth _ _)
    · rw [Machine.move_other _ _ ht] at hpc
      exact V.lowers t' block seen hpc
  cases hstep with
  | instr h => exact V.instr S S' h
  | alloc _ =>
    have T := V.counted.same (hcall (by simp) S.zero_held fun _ => ⟨rfl, rfl, rfl, rfl⟩)
    exact ⟨live, T, V.live_eq, hmove _ _ (by simp)⟩
  | deallocate _ =>
    have T := V.counted.same (hcall (by simp) S.zero_held fun _ => ⟨rfl, rfl, rfl, rfl⟩)
    refine ⟨live, T, V.live_eq, hmove _ _ fun block seen => ?_⟩
    dsimp only
    split <;> simp
  | write _ => exact ⟨live, V.counted, V.live_eq, V.lowers⟩

end Lives

/-! ## The totals -/

section Totals

variable {τ : Type*} {B : Build} {t : τ} {env : StepEnv} {ip : InstrumentedPool} {owner : Option τ}
  {pc : Pc} {o : Outcome τ} {others : List (Nat × Region)} {m m' : Machine τ} {s : State}
  {free off : List Nat}

theorem instr_balance (h : instr B t env ip owner pc = some o) :
    (o.ip.allocations = ip.allocations ∧ o.ip.deallocations = ip.deallocations ∧
      (o.pc.balances ++ o.returned.toList).Perm pc.balances) ∨
      (∃ block, pc = .countAllocation block ∧ o.ip.allocations = B.add ip.allocations 1 ∧
        o.ip.deallocations = ip.deallocations ∧ o.pc.balances = [block] ∧ o.returned = none) ∨
      ∃ block, pc = .countDeallocation block ∧ o.ip.allocations = ip.allocations ∧
        o.ip.deallocations = B.add ip.deallocations 1 ∧ o.pc.balances = [] ∧ o.returned = none := by
  by_cases hpop : pc.popping = true
  · left
    obtain ⟨⟨pool, hip⟩, hpc, -, hret⟩ := instr_popping h hpop
    rw [(Pc.uncounted_counts hpc).2, (Pc.popping_counts hpop).2, hret, hip]
    exact ⟨rfl, rfl, List.Perm.refl _⟩
  cases pc with
  | pop | popGrow | popTake | popUnlock _ => exact absurd rfl hpop
  | countAllocation block =>
    cases h
    exact Or.inr (Or.inl ⟨block, rfl, rfl, rfl, rfl, rfl⟩)
  | countDeallocation block =>
    cases h
    exact Or.inr (Or.inr ⟨block, rfl, rfl, rfl, rfl, rfl⟩)
  | _ =>
    left
    simp only [instr] at h
    (repeat' split at h) <;> cases h <;> exact ⟨rfl, rfl, List.Perm.refl _⟩

/-- What `allocations_` is ahead of `deallocations_`, in the arithmetic of `size_t`. -/
structure Balanced (B : Build) (m : Machine τ) (balance : List Nat) : Prop where
  counted : Tally balance (m.has Pc.balances)
  small : m.ip.deallocations < B.modulus
  total : m.ip.allocations = (m.ip.deallocations + balance.length) % B.modulus

theorem Balanced.start (s : State) (observers : List Nat) :
    Balanced B (Machine.start s observers : Machine τ) [] :=
  ⟨Tally.none, B.modulus_pos, (Nat.zero_mod _).symm⟩

variable [DecidableEq τ]

theorem Balanced.instr {balance : List Nat} (V : Balanced B m balance)
    (S : Stock B others m s free off) (h : instr B t env m.ip m.owner (m.threads t).pc = some o) :
    ∃ balance', Balanced B (m.after t o) balance' := by
  have htotal := V.total
  rcases instr_balance h with ⟨ha, hd, hp⟩ | ⟨block, hpc, ha, hd, hc, hr⟩ |
    ⟨block, hpc, ha, hd, hc, hr⟩
  · refine ⟨balance, V.counted.same (Machine.has_keep hp), ?_, ?_⟩
    · exact hd.trans_lt V.small
    · show o.ip.allocations = (o.ip.deallocations + _) % _
      rw [ha, hd, htotal]
  · have hnew : block ∉ balance := S.uncounted V.counted Pc.balances_owned (t := t)
      (by rw [hpc]; rfl) (by rw [hpc]; rfl)
    refine ⟨block :: balance, ?_, hd.trans_lt V.small, ?_⟩
    · have T := V.counted.gain hnew t
      rw [Machine.has_after, hc, hr]
      simp only [Machine.has, hpc] at T
      exact T
    · show o.ip.allocations = (o.ip.deallocations + _) % _
      rw [ha, hd, htotal, Build.add, Nat.mod_add_mod, List.length_cons, Nat.add_assoc]
  · have hhas : m.has Pc.balances t = block :: (m.threads t).held := by rw [Machine.has, hpc]; rfl
    have T := V.counted.lose (List.Perm.of_eq hhas)
    refine ⟨balance.erase block, ?_, ?_, ?_⟩
    · rw [Machine.has_after, hc, hr]
      exact T.1
    · exact hd.trans_lt (Nat.mod_lt _ B.modulus_pos)
    · show o.ip.allocations = (o.ip.deallocations + _) % _
      rw [ha, hd, htotal, T.2, Build.add, Nat.mod_add_mod]
      congr 1
      omega

theorem Balanced.step {balance : List Nat} (V : Balanced B m balance)
    (S : Stock B others m s free off) {e : Event τ}
    (h : ((lts B τ).guard OwnBlocks).step m e m') : ∃ balance', Balanced B m' balance' := by
  have hcall := Machine.has_call (f := Pc.balances) h
  obtain ⟨hown, hstep⟩ := h
  cases hstep with
  | instr h => exact V.instr S h
  | alloc _ =>
    have T := V.counted.same (hcall (by simp) S.zero_held fun _ => ⟨rfl, rfl, rfl, rfl⟩)
    exact ⟨balance, T, V.small, V.total⟩
  | deallocate _ =>
    have T := V.counted.same (hcall (by simp) S.zero_held fun _ => ⟨rfl, rfl, rfl, rfl⟩)
    exact ⟨balance, T, V.small, V.total⟩
  | write _ => exact ⟨balance, V.counted, V.small, V.total⟩

end Totals

/-! ## The failures -/

section Failures

variable {τ : Type*} {B : Build} {t : τ} {env : StepEnv} {ip : InstrumentedPool} {owner : Option τ}
  {pc : Pc} {o : Outcome τ} {m m' : Machine τ}

/-- The thread, when its failure is counted and its call has not returned. -/
def Pc.failing (pc : Pc) (t : τ) : List τ :=
  match pc with
  | .exhausted => [t]
  | _ => []

theorem instr_failures (h : instr B t env ip owner pc = some o) :
    (o.ip.allocationFailures = ip.allocationFailures ∧ (∀ n, o.label.failures n = n) ∧
      o.pc.failing t = [] ∧ pc.failing t = []) ∨
      (pc = .countFailure ∧ o.ip.allocationFailures = B.add ip.allocationFailures 1 ∧
        (∀ n, o.label.failures n = n) ∧ o.pc = .exhausted) ∨
      (pc = .exhausted ∧ o.ip.allocationFailures = ip.allocationFailures ∧
        (∀ n, o.label.failures n = n + 1) ∧ o.pc = .idle) := by
  by_cases hpop : pc.popping = true
  · left
    obtain ⟨⟨pool, hip⟩, hpc, hl, -⟩ := instr_popping h hpop
    refine ⟨by rw [hip], fun n => ?_, ?_, ?_⟩
    · rcases hl with hl | hl <;> rw [hl] <;> rfl
    · generalize o.pc = pc' at hpc
      cases pc' <;> first | rfl | cases hpc
    · cases pc <;> first | rfl | cases hpop
  cases pc with
  | pop | popGrow | popTake | popUnlock _ => exact absurd rfl hpop
  | countFailure =>
    cases h
    exact Or.inr (Or.inl ⟨rfl, rfl, fun _ => rfl, rfl⟩)
  | exhausted =>
    cases h
    exact Or.inr (Or.inr ⟨rfl, rfl, fun _ => rfl, rfl⟩)
  | _ =>
    left
    simp only [instr] at h
    (repeat' split at h) <;> cases h <;> exact ⟨rfl, fun _ => rfl, rfl, rfl⟩

structure Failures (B : Build) (m : Machine τ) (failing : List τ) : Prop where
  counted : Tally failing fun t => (m.threads t).pc.failing t
  total : m.ip.allocationFailures = (m.failed + failing.length) % B.modulus

theorem Failures.start (s : State) (observers : List Nat) :
    Failures B (Machine.start s observers : Machine τ) [] :=
  ⟨Tally.none, (Nat.zero_mod _).symm⟩

variable [DecidableEq τ]

theorem Machine.failing_after (m : Machine τ) (t : τ) (o : Outcome τ) :
    (fun t' => ((m.after t o).threads t').pc.failing t') =
      Function.update (fun t' => (m.threads t').pc.failing t') t (o.pc.failing t) := by
  funext t'
  by_cases ht : t' = t
  · subst ht
    simp
  · simp [Machine.after_other _ _ ht, ht]

theorem Failures.instr {failing : List τ} (V : Failures B m failing)
    (h : instr B t env m.ip m.owner (m.threads t).pc = some o) :
    ∃ failing', Failures B (m.after t o) failing' := by
  have htotal := V.total
  rcases instr_failures h with ⟨hf, hl, hpc', hpc⟩ | ⟨hpc, hf, hl, hpc'⟩ | ⟨hpc, hf, hl, hpc'⟩
  · refine ⟨failing, ?_, ?_⟩
    · rw [Machine.failing_after, hpc', ← hpc, Function.update_eq_self]
      exact V.counted
    · show o.ip.allocationFailures = (o.label.failures m.failed + _) % _
      rw [hf, hl, htotal]
  · have hnew : t ∉ failing := by
      intro hm
      obtain ⟨t', ht'⟩ := V.counted.mem_iff.mp hm
      have htt : t' = t := by
        generalize (m.threads t').pc = pc' at ht'
        cases pc' <;> first | exact (List.mem_singleton.mp ht').symm | cases ht'
      rw [htt, hpc] at ht'
      cases ht'
    refine ⟨t :: failing, ?_, ?_⟩
    · have T := V.counted.gain hnew t
      rw [hpc] at T
      rw [Machine.failing_after, hpc']
      exact T
    · show o.ip.allocationFailures = (o.label.failures m.failed + _) % _
      rw [hf, hl, htotal, Build.add, Nat.mod_add_mod, List.length_cons, Nat.add_assoc]
  · have hhas : (m.threads t).pc.failing t = [t] := by
      rw [hpc]
      rfl
    have T := V.counted.lose (List.Perm.of_eq hhas)
    refine ⟨failing.erase t, ?_, ?_⟩
    · rw [Machine.failing_after, hpc']
      exact T.1
    · show o.ip.allocationFailures = (o.label.failures m.failed + _) % _
      rw [hf, hl, htotal, T.2]
      congr 1
      omega

theorem Failures.step {failing : List τ} (V : Failures B m failing) {e : Event τ}
    (h : Step B m e m') : ∃ failing', Failures B m' failing' := by
  have hmove : ∀ t th, (m.threads t).pc = .idle → th.pc.failing t = [] →
      Failures B (m.move t th) failing := by
    intro t th hidle hth
    refine ⟨V.counted.same fun t' => ?_, V.total⟩
    by_cases ht : t' = t
    · subst ht
      simp only [Machine.move, Function.update_self, hth, hidle]
      exact List.Perm.refl _
    · rw [Machine.move_other _ _ ht]
  cases h with
  | instr h => exact V.instr h
  | alloc hidle => exact ⟨failing, hmove _ _ hidle rfl⟩
  | deallocate hidle =>
    refine ⟨failing, hmove _ _ hidle ?_⟩
    dsimp only
    split <;> rfl
  | write _ => exact ⟨failing, V.counted, V.total⟩

end Failures

/-! ## The peak -/

section Peaks

variable {τ : Type*} {B : Build} {t : τ} {env : StepEnv} {ip : InstrumentedPool} {owner : Option τ}
  {pc : Pc} {o : Outcome τ} {others : List (Nat × Region)} {m m' : Machine τ}

/-- The value of `live_` that a call is about to compare with the peak. -/
def Pc.raising : Pc → Option Nat
  | .loadPeak _ live | .raisePeak _ live _ => some live
  | _ => none

theorem Pc.uncounted_raising (h : pc.uncounted = true) : pc.raising = none := by
  cases pc <;> first | rfl | cases h

theorem instr_peak_le (h : instr B t env ip owner pc = some o) :
    ip.peakLive ≤ o.ip.peakLive ∧
      (o.ip.peakLive = ip.peakLive ∨ pc.raising = some o.ip.peakLive) := by
  by_cases hpop : pc.popping = true
  · obtain ⟨⟨pool, hip⟩, -, -, -⟩ := instr_popping h hpop
    rw [hip]
    exact ⟨Nat.le_refl _, Or.inl rfl⟩
  cases pc with
  | pop | popGrow | popTake | popUnlock _ => exact absurd rfl hpop
  | raisePeak block live peak =>
    simp only [instr] at h
    split at h
    · rename_i hlt
      split at h
      · cases h
        exact ⟨Nat.le_refl _, Or.inl rfl⟩
      · rename_i hcmp
        push Not at hcmp
        cases h
        exact ⟨by rw [hcmp.2]; exact Nat.le_of_lt hlt, Or.inr rfl⟩
    · cases h
      exact ⟨Nat.le_refl _, Or.inl rfl⟩
  | _ =>
    simp only [instr] at h
    (repeat' split at h) <;> cases h <;> exact ⟨Nat.le_refl _, Or.inl rfl⟩

/-- What a call compares with the peak is what its increment of `live_` has returned. -/
theorem instr_raising (h : instr B t env ip owner pc = some o) {live : Nat}
    (ho : o.pc.raising = some live) : pc.raising = some live ∨ live = o.ip.live := by
  by_cases hpop : pc.popping = true
  · rw [Pc.uncounted_raising (instr_popping h hpop).2.1] at ho
    cases ho
  cases pc with
  | pop | popGrow | popTake | popUnlock _ => exact absurd rfl hpop
  | addLive block =>
    cases h
    cases ho
    exact Or.inr rfl
  | loadPeak block live =>
    cases h
    exact Or.inl ho
  | raisePeak block live peak =>
    simp only [instr] at h
    (repeat' split at h) <;> cases h <;> first | exact Or.inl ho | cases ho
  | _ =>
    simp only [instr] at h
    (repeat' split at h) <;> cases h <;> cases ho

theorem instr_seen (h : instr B t env ip owner pc = some o) {block live peak : Nat}
    (ho : o.pc = .raisePeak block live peak) : peak = ip.peakLive := by
  by_cases hpop : pc.popping = true
  · have hpc := (instr_popping h hpop).2.1
    rw [ho] at hpc
    cases hpc
  cases pc with
  | pop | popGrow | popTake | popUnlock _ => exact absurd rfl hpop
  | loadPeak block live =>
    cases h
    cases ho
    rfl
  | raisePeak block live peak =>
    simp only [instr] at h
    (repeat' split at h) <;> cases h <;> cases ho
    rfl
  | _ =>
    simp only [instr] at h
    (repeat' split at h) <;> cases h <;> cases ho

/-- The loop of `record_allocation` is left with the peak at `live` at least. -/
theorem instr_reached (h : instr B t env ip owner pc = some o) {live : Nat}
    (hpc : pc.raising = some live)
    (hseen : ∀ block live peak, pc = .raisePeak block live peak → peak ≤ ip.peakLive) :
    live ≤ o.ip.peakLive ∨ o.pc.raising = some live := by
  cases pc with
  | loadPeak block live =>
    cases h
    exact Or.inr hpc
  | raisePeak block live' peak =>
    have hpeak := hseen _ _ _ rfl
    cases hpc
    simp only [instr] at h
    split at h
    · split at h
      · cases h
        exact Or.inr rfl
      · cases h
        exact Or.inl (Nat.le_refl _)
    · cases h
      left
      show live ≤ ip.peakLive
      omega
  | _ => cases hpc

/-- The peak is on its way to the greatest value of `live_` so far. -/
structure Peaks (m : Machine τ) : Prop where
  peak_le : m.ip.peakLive ≤ m.mostLive
  live_le : m.ip.live ≤ m.mostLive
  most_le : m.mostLive ≤ m.mostOff
  raising_le : ∀ t live, (m.threads t).pc.raising = some live → live ≤ m.mostLive
  seen_le : ∀ t block live peak, (m.threads t).pc = .raisePeak block live peak →
    peak ≤ m.ip.peakLive
  reached : m.mostLive ≤ m.ip.peakLive ∨ ∃ t, (m.threads t).pc.raising = some m.mostLive

theorem Peaks.start (s : State) (observers : List Nat) :
    Peaks (Machine.start s observers : Machine τ) :=
  ⟨Nat.le_refl _, Nat.le_refl _, Nat.le_refl _, fun _ _ h => (by cases h),
    fun _ _ _ _ h => (by cases h), Or.inl (Nat.le_refl _)⟩

variable [DecidableEq τ]

theorem Peaks.instr (K : Peaks m) (hoff : o.ip.live ≤ o.label.off m.off)
    (hlive : o.ip.live ≤ m.ip.live ∨ o.pc.raising = some o.ip.live)
    (h : instr B t env m.ip m.owner (m.threads t).pc = some o) : Peaks (m.after t o) := by
  obtain ⟨hpeak, hown⟩ := instr_peak_le h
  have hmost := K.most_le
  have hlive_le := K.live_le
  have hother : ∀ {t'}, t' ≠ t → (m.after t o).threads t' = m.threads t' :=
    fun ht => Machine.after_other _ _ ht
  refine ⟨?_, Nat.le_max_right _ _, ?_, ?_, ?_, ?_⟩
  · show o.ip.peakLive ≤ max m.mostLive o.ip.live
    rcases hown with heq | hr
    · rw [heq]
      exact K.peak_le.trans (Nat.le_max_left _ _)
    · exact (K.raising_le _ _ hr).trans (Nat.le_max_left _ _)
  · show max m.mostLive o.ip.live ≤ max m.mostOff (o.label.off m.off)
    omega
  · intro t' live hr
    show live ≤ max m.mostLive o.ip.live
    by_cases ht : t' = t
    · subst ht
      rw [Machine.after_pc] at hr
      rcases instr_raising h hr with hr | rfl
      · exact (K.raising_le _ _ hr).trans (Nat.le_max_left _ _)
      · exact Nat.le_max_right _ _
    · rw [hother ht] at hr
      exact (K.raising_le _ _ hr).trans (Nat.le_max_left _ _)
  · intro t' block live peak hpc
    show peak ≤ o.ip.peakLive
    by_cases ht : t' = t
    · subst ht
      rw [Machine.after_pc] at hpc
      rw [instr_seen h hpc]
      exact hpeak
    · rw [hother ht] at hpc
      exact (K.seen_le _ _ _ _ hpc).trans hpeak
  · show max m.mostLive o.ip.live ≤ o.ip.peakLive ∨
      ∃ t', ((m.after t o).threads t').pc.raising = some (max m.mostLive o.ip.live)
    by_cases hup : o.ip.live ≤ m.mostLive
    · rw [Nat.max_eq_left hup]
      rcases K.reached with hle | ⟨t', ht'⟩
      · exact Or.inl (hle.trans hpeak)
      · by_cases ht : t' = t
        · subst ht
          refine (instr_reached h ht' (K.seen_le t')).imp_right fun hr => ⟨t', ?_⟩
          rw [Machine.after_pc]
          exact hr
        · refine Or.inr ⟨t', ?_⟩
          rw [hother ht]
          exact ht'
    · rw [Nat.max_eq_right (by omega)]
      refine Or.inr ⟨t, ?_⟩
      rw [Machine.after_pc]
      exact hlive.resolve_left (by omega)

theorem Peaks.step (K : Peaks m) {e : Event τ} (h : Step B m e m') (hoff : m'.ip.live ≤ m'.off)
    {live : List Nat} (V : Lives m live) (hlt : live.length < B.modulus) : Peaks m' := by
  have hmove : ∀ t th, (m.threads t).pc = .idle → th.pc.raising = none → Peaks (m.move t th) := by
    intro t th hidle hth
    have hpc : ∀ t', ((m.move t th).threads t').pc = (m.threads t').pc ∨
        ((m.move t th).threads t').pc.raising = none ∧ (m.threads t').pc.raising = none := by
      intro t'
      by_cases ht : t' = t
      · subst ht
        right
        rw [hidle]
        simp only [Machine.move, Function.update_self]
        exact ⟨hth, rfl⟩
      · rw [Machine.move_other _ _ ht]
        exact Or.inl rfl
    have hraising : ∀ t', ((m.move t th).threads t').pc.raising = (m.threads t').pc.raising :=
      fun t' => (hpc t').elim (fun h => by rw [h]) fun h => h.1.trans h.2.symm
    refine ⟨K.peak_le, K.live_le, K.most_le, fun t' live hr => ?_,
      fun t' block live peak hp => ?_, ?_⟩
    · exact K.raising_le t' live ((hraising t').symm.trans hr)
    · rcases hpc t' with h | ⟨h, -⟩
      · exact K.seen_le t' block live peak (h.symm.trans hp)
      · rw [hp] at h
        cases h
    · rcases K.reached with h | ⟨t', ht'⟩
      · exact Or.inl h
      · exact Or.inr ⟨t', (hraising t').trans ht'⟩
  cases h with
  | alloc hidle => exact hmove _ _ hidle rfl
  | deallocate hidle =>
    refine hmove _ _ hidle ?_
    dsimp only
    split <;> rfl
  | write _ => exact ⟨K.peak_le, K.live_le, K.most_le, K.raising_le, K.seen_le, K.reached⟩
  | @instr t env o h =>
    refine K.instr hoff ?_ h
    rcases instr_live h (V.lowers t) with ⟨hl, -⟩ | ⟨block, hpc, hl, -, -⟩ | ⟨block, hpc, hl, -, -⟩
    · exact Or.inl (Nat.le_of_eq hl)
    · right
      rw [hpc] at h
      cases h
      rfl
    · left
      have hpos := V.lowers t block _ hpc
      have hlive := V.live_eq
      rw [hl, Build.sub_eq hpos (by omega)]
      exact Nat.sub_le _ _

end Peaks

/-! ## Every run -/

section Theorems

open LinkedList

variable {τ : Type*} {B : Build} {others : List (Nat × Region)} {observers : List Nat}
  {m m' : Machine τ}

/-- What the counters count. -/
structure CountersExact (B : Build) (m : Machine τ) : Prop where
  off : ∃ s free, m.ip.pool = some s ∧ Chain (revealNext B s.mem) 0 s.pool.head.ptr free ∧
    m.off = (s.pool.slots B).length - free.length ∧ m.ip.peakLive ≤ (s.pool.slots B).length
  live_le : m.ip.live ≤ m.off
  peak_le : m.ip.peakLive ≤ m.mostOff
  clamp : ∀ t block, (m.threads t).pc = .loadLive block ∨
    (∃ seen, (m.threads t).pc = .lowerLive block seen) → 0 < m.ip.live
  lowered : ∀ t block seen, (m.threads t).pc = .lowerLive block seen → 0 < seen ∧
    (seen = m.ip.live → B.sub seen 1 + 1 = seen)
  settled : (∀ t, (m.threads t).pc = .idle) → ∃ held : List Nat, held.Nodup ∧
    (∀ b, b ∈ held ↔ ∃ t, b ∈ (m.threads t).held) ∧ m.ip.live = held.length ∧
    B.sub m.ip.allocations m.ip.deallocations = held.length ∧
    m.ip.allocationFailures = m.failed % B.modulus ∧ m.ip.peakLive = m.mostLive

/-- The counters of a machine, with the lists that they count. -/
structure Accounted (B : Build) (others : List (Nat × Region)) (observers : List Nat)
    (m : Machine τ) : Prop where
  noticed : Noticed B others observers m
  stock : ∃ s free off, Stock B others m s free off
  lives : ∃ live, Lives m live
  balanced : ∃ balance, Balanced B m balance
  failures : ∃ failing, Failures B m failing
  peaks : Peaks m

theorem Accounted.start {w w' : World} {p : PoolStruct} (C : Created B w p w')
    (observers : List Nat) :
    Accounted B w.heap.ledger.live observers (Machine.start ⟨w', p⟩ observers : Machine τ) :=
  ⟨Noticed.start C observers, ⟨_, _, _, Stock.start C observers⟩, ⟨_, Lives.start _ _⟩,
    ⟨_, Balanced.start _ _⟩, ⟨_, Failures.start _ _⟩, Peaks.start _ _⟩

theorem Accounted.exact (A : Accounted B others observers m) : CountersExact B m := by
  obtain ⟨s, free, off, S⟩ := A.stock
  obtain ⟨live, V⟩ := A.lives
  obtain ⟨balance, W⟩ := A.balanced
  obtain ⟨failing, F⟩ := A.failures
  have K := A.peaks
  have hpeak : m.ip.peakLive ≤ m.mostOff := K.peak_le.trans K.most_le
  have hlt : m.ip.live < B.modulus :=
    (V.le_off S).trans_lt (S.count ▸ S.inv.held_length)
  refine ⟨⟨s, free, S.pool, S.inv.chain, S.off_slots.1, hpeak.trans S.most_le⟩, V.le_off S, hpeak,
    ?_, ?_, ?_⟩
  · intro t block hpc
    have hcount : (m.threads t).pc.counts = [block] := by
      rcases hpc with hpc | ⟨seen, hpc⟩ <;> rw [hpc] <;> rfl
    rw [V.live_eq]
    refine List.length_pos_of_mem (V.counted.mem (t := t) (a := block) ?_)
    rw [Machine.has, hcount]
    exact List.mem_cons_self ..
  · intro t block seen hpc
    have hpos := V.lowers t block seen hpc
    refine ⟨hpos, ?_⟩
    rintro rfl
    rw [Build.sub_eq hpos hlt]
    omega
  · intro hidle
    have hhas : ∀ f, f .idle = [] → ∀ t, m.has f t = (m.threads t).held := by
      intro f hf t
      rw [Machine.has, hidle t, hf]
      rfl
    have hlen := W.counted.length_eq V.counted fun t => (hhas _ rfl t).trans (hhas _ rfl t).symm
    have hnone : failing = [] := by
      refine List.eq_nil_iff_forall_not_mem.mpr fun t ht => ?_
      obtain ⟨t', ht'⟩ := F.counted.mem_iff.mp ht
      rw [hidle t'] at ht'
      cases ht'
    have htotal := W.total
    have hsmall := W.small
    refine ⟨live, V.counted.nodup, fun b => ?_, V.live_eq, ?_, ?_, ?_⟩
    · rw [V.counted.mem_iff]
      simp only [hhas Pc.counts rfl]
    · rw [htotal, hlen, ← V.live_eq, Build.sub, Nat.mod_eq_of_lt hsmall, Nat.mod_add_mod,
        show m.ip.deallocations + m.ip.live + (B.modulus - m.ip.deallocations) =
          m.ip.live + B.modulus by omega, Nat.add_mod_right, Nat.mod_eq_of_lt hlt]
    · rw [F.total, hnone]
      rfl
    · refine Nat.le_antisymm K.peak_le (K.reached.resolve_right ?_)
      rintro ⟨t, ht⟩
      rw [hidle t] at ht
      cases ht

variable [DecidableEq τ]

theorem Accounted.step (A : Accounted B others observers m) {e : Event τ}
    (h : ((lts B τ).guard OwnBlocks).step m e m') : Accounted B others observers m' := by
  obtain ⟨s, free, off, S⟩ := A.stock
  obtain ⟨live, V⟩ := A.lives
  obtain ⟨balance, W⟩ := A.balanced
  obtain ⟨failing, F⟩ := A.failures
  have hS' := S.step A.noticed h
  have hV' := V.step S hS' h
  have hlt : live.length < B.modulus := by
    have h1 := V.le_off S
    have h2 := S.inv.held_length
    have h3 := S.count
    have h4 := V.live_eq
    omega
  refine ⟨A.noticed.step h.2, hS', hV', W.step S h, F.step h.2, ?_⟩
  obtain ⟨s', free', off', S'⟩ := hS'
  obtain ⟨live', V'⟩ := hV'
  exact A.peaks.step h.2 (V'.le_off S') V hlt

/-- In every run of any number of threads that deallocate and write only what they hold: `live_` is
at most the number of blocks off the free list, the peak never exceeds the capacity nor the most
blocks that were off it at once, the clamp never meets a zero, and no decrement wraps. With no call
in progress the differences and the peak are exact; the failures are counted in `size_t`. -/
theorem counters_exact {env : Env} {w w' : World} {call : CreateCall} {p : PoolStruct}
    (hr : call.InRange B) (hcreate : call.run B env w = (some p, w'))
    {es : List (Event τ)}
    (hrun : ((lts B τ).guard OwnBlocks).Run (Machine.start ⟨w', p⟩ observers) es m) :
    CountersExact B m := by
  have A : Accounted B w.heap.ledger.live observers m :=
    hrun.invariant (fun _ _ _ A h => A.step h)
      (Accounted.start (CreateCall.created hr hcreate) observers)
  exact A.exact

end Theorems

/-- Both threads allocate, interleaved, and the first one frees its block while the second one has
not counted its own. -/
def crossSchedule : List (Event Bool) :=
  [.alloc false .allocate, .alloc true .allocate] ++ List.replicate 9 (.instr false popWhole) ++
    List.replicate 4 (.instr true popSplit) ++ [.deallocate false 0x1000] ++
    List.replicate 3 (.instr false popWhole) ++ List.replicate 9 (.instr true popSplit) ++
    [.instr false popWhole]

theorem counters_exact_x64 :
    ∃ m : Machine Bool, (m.threads false).held = [] ∧ (m.threads true).held = [0x2000] ∧
      m.ip.stats = ⟨2, 1, 0, 1, 1⟩ ∧ m.mostOff = 2 ∧
      CountersExact (Build.x64 false .mutex) m := by
  have h : (Lts.script (exec (Build.x64 false .mutex))
      (Machine.start (firstClient (Build.x64 false .mutex)).pool []) crossSchedule).map
        (fun r => (r.1, ((r.2.threads false).held, (r.2.threads true).held, r.2.ip.stats,
          r.2.mostOff))) =
      some (crossSchedule, ([], [0x2000], ⟨2, 1, 0, 1, 1⟩, 2)) := by decide +kernel
  obtain ⟨m, hrun, hm⟩ := Lts.script_run exec_step
    (fun m : Machine Bool => ((m.threads false).held, (m.threads true).held, m.ip.stats,
      m.mostOff)) h
  obtain ⟨h1, h2, h3, h4⟩ : _ ∧ _ ∧ _ ∧ _ := by simpa using hm
  exact ⟨m, h1, h2, h3, h4, counters_exact (by decide)
    (firstCall_run false .mutex (by decide)) hrun⟩

/-! ## The failure counter wraps -/

section Wrap

variable {τ : Type*} [DecidableEq τ] {B : Build} {m : Machine τ}

/-- No call is in progress, and every call that comes will fail. -/
structure Drained (m : Machine τ) : Prop where
  idle : ∀ t, (m.threads t).pc = .idle
  owner : m.owner = none
  empty : ∃ s, m.ip.pool = some s ∧ s.pool.head.ptr = 0 ∧ s.pool.growFactor < 2

theorem failing_call (hts : B.threadSafety = .mutex) (D : Drained m) (t : τ) :
    ∃ es m', ((lts B τ).guard OwnBlocks).Run m es m' ∧ Drained m' ∧ m'.failed = m.failed + 1 ∧
      m'.ip.allocationFailures < B.modulus := by
  obtain ⟨s, hs, hhead, hfactor⟩ := D.empty
  have call : ∀ (m : Machine τ), (m.threads t).pc = .idle →
      ((lts B τ).guard OwnBlocks).step m (.alloc t .tryAllocate)
        (m.move t { m.threads t with pc := .pop }) := fun m h => ⟨trivial, .alloc h⟩
  have next : ∀ (m : Machine τ) (o : Outcome τ),
      instr B t popSplit m.ip m.owner (m.threads t).pc = some o →
      ((lts B τ).guard OwnBlocks).step m (.instr t popSplit) (m.after t o) :=
    fun m o h => ⟨trivial, .instr h⟩
  let m₁ := m.move t { m.threads t with pc := .pop }
  let m₂ := m₁.after t { ip := m.ip, owner := some t, pc := .popGrow }
  have s₂ := next m₁ { ip := m.ip, owner := some t, pc := .popGrow } (by
    simp [m₁, instr, Machine.move, D.owner, popSplit, hts, hs])
  let m₃ := m₂.after t { ip := m.ip, owner := some t, pc := .popUnlock 0 }
  have s₃ := next m₂ { ip := m.ip, owner := some t, pc := .popUnlock 0 } (by
    rw [Machine.after_pc]
    simp [m₂, Machine.after, instr, hs, hhead, hfactor])
  let m₄ := m₃.after t { ip := m.ip, owner := none, pc := .countFailure }
  have s₄ := next m₃ { ip := m.ip, owner := none, pc := .countFailure } (by
    rw [Machine.after_pc]
    rfl)
  let ip₅ := { m.ip with allocationFailures := B.add m.ip.allocationFailures 1 }
  let m₅ := m₄.after t { ip := ip₅, owner := none, pc := .exhausted }
  have s₅ := next m₄ { ip := ip₅, owner := none, pc := .exhausted } (by
    rw [Machine.after_pc]
    rfl)
  let o₆ : Outcome τ :=
    { ip := ip₅.notify .exhausted, owner := none, pc := .idle, label := .failed }
  have s₆ := next m₅ o₆ (by
    rw [Machine.after_pc]
    rfl)
  have hrun := (((Lts.Run.single (call m (D.idle t))).snoc s₂).snoc s₃).snoc s₄
  refine ⟨_, _, (hrun.snoc s₅).snoc s₆, ⟨?_, rfl, s, hs, hhead, hfactor⟩, rfl,
    Nat.mod_lt _ B.modulus_pos⟩
  intro t'
  by_cases ht : t' = t
  · subst ht
    rw [Machine.after_pc]
  · simp only [m₅, m₄, m₃, m₂, m₁, Machine.after_other _ _ ht, Machine.move_other _ _ ht]
    exact D.idle t'

theorem failing_calls (hts : B.threadSafety = .mutex) (D : Drained m) (t : τ) (k : Nat) :
    ∃ es m', ((lts B τ).guard OwnBlocks).Run m es m' ∧ Drained m' ∧ m'.failed = m.failed + k := by
  induction k with
  | zero => exact ⟨_, m, .nil, D, rfl⟩
  | succ k ih =>
    obtain ⟨es₁, m₁, hrun₁, D₁, hf₁⟩ := ih
    obtain ⟨es₂, m₂, hrun₂, D₂, hf₂, -⟩ := failing_call hts D₁ t
    exact ⟨_, m₂, hrun₁.trans hrun₂, D₂, by rw [hf₂, hf₁, Nat.add_assoc]⟩

end Wrap

/-- A pool of one block. -/
def smallPool : PoolStruct := { firstPool with growFactor := 0 }

/-- One thread takes the only block and asks for another one more than `2 ^ 64` times. -/
theorem failures_wrap : ∃ (w' : World) (es : List (Event Bool)) (m : Machine Bool),
    memoryPoolCreate (Build.x64 false .mutex) firstEnv World.start 16 1 = (some smallPool, w') ∧
    ((lts (Build.x64 false .mutex) Bool).guard OwnBlocks).Run
      (Machine.start ⟨w', smallPool⟩ []) es m ∧
    (∀ t, (m.threads t).pc = .idle) ∧ m.ip.allocationFailures ≠ m.failed := by
  have hcreate : memoryPoolCreate (Build.x64 false .mutex) firstEnv World.start 16 1 =
      (some smallPool, (memoryPoolCreate (Build.x64 false .mutex) firstEnv World.start 16 1).2) :=
    Prod.ext (by decide) rfl
  let w' := (memoryPoolCreate (Build.x64 false .mutex) firstEnv World.start 16 1).2
  let calls : List (Event Bool) :=
    .alloc false .allocate :: List.replicate 9 (.instr false popWhole)
  have h : (Lts.script (exec (Build.x64 false .mutex)) (Machine.start ⟨w', smallPool⟩ []) calls).map
      (fun r => (r.1, (decide ((r.2.threads false).pc = .idle ∧ (r.2.threads true).pc = .idle ∧
        r.2.owner = none), r.2.ip.pool.map fun s => (s.pool.head.ptr, s.pool.growFactor)))) =
      some (calls, (true, some (0, 0))) := by decide +kernel
  obtain ⟨m₁, hrun₁, hm⟩ := Lts.script_run exec_step (fun m : Machine Bool =>
    (decide ((m.threads false).pc = .idle ∧ (m.threads true).pc = .idle ∧ m.owner = none),
      m.ip.pool.map fun s => (s.pool.head.ptr, s.pool.growFactor))) h
  obtain ⟨⟨hf, ht, howner⟩, s, hs, hhead, hfactor⟩ : (_ ∧ _ ∧ _) ∧ _ := by
    simpa [Option.map_eq_some_iff] using hm
  have D : Drained m₁ := by
    refine ⟨fun t => ?_, howner, s, hs, hhead, by omega⟩
    cases t
    · exact hf
    · exact ht
  obtain ⟨es₂, m₂, hrun₂, D₂, hfailed₂⟩ :=
    failing_calls (B := Build.x64 false .mutex) rfl D false (Build.x64 false .mutex).modulus
  obtain ⟨es₃, m₃, hrun₃, D₃, hfailed₃, hsmall⟩ :=
    failing_call (B := Build.x64 false .mutex) rfl D₂ false
  refine ⟨w', _, m₃, hcreate, (hrun₁.trans hrun₂).trans hrun₃, D₃.idle, fun heq => ?_⟩
  omega

end Threaded

end MemoryPool
