import MemoryPool.MutexInv

/-!
# MemoryPool.MutexAlone

One thread with the pool of the `MUTEX` build to itself: instruction by instruction it computes what
the policy functions compute in one go. The cells spell out the list of chunks throughout
(`Linked`), so that the loops over the cells are the folds over the list.

* `Alone.sum`, `Alone.initSlots`, `Alone.walk`: the loops of `grow_pool`, `initialize_free_list` and
  `is_block_in_range`, by induction on what is left of them.
* `Alone.grow`, `Alone.pop`, `Alone.push`: `growPool`, `popUnlocked` and `pushUnlocked`.
* `alloc_alone`, `free_alone`: whole calls, as runs of the machine.
-/

namespace MemoryPool

namespace Mutex

open ByteMem LinkedList

variable {τ : Type*}

/-- What the environment of a call answers to the instruction at `pc`. -/
def answerFor (env : Env) : Pc → Option Nat
  | .newBacking _ => env.backing
  | .newChunk _ _ => env.object
  | _ => none

/-- How many of its answers a call has used up. -/
def Pc.asked : Pc → Nat
  | .lock | .testHead | .sumFirst | .sumCount _ _ | .sumNext _ _ | .newBacking _ => 0
  | .newChunk _ _ => 1
  | _ => 2

theorem instr_asked {B : Build} {t : τ} {answer : Option Nat} {s : Shared τ} {pc : Pc}
    {o : Outcome τ} (h : instr B t answer s pc = some o) : pc.asked ≤ o.pc.asked ∧
      match pc with
      | .newBacking _ | .newChunk _ _ => pc.asked < o.pc.asked
      | _ => True := by
  cases pc <;> simp only [instr] at h <;> (repeat' split at h) <;> cases h <;>
    simp [Pc.asked, noGrowth]

/-- Instructions of one thread with no other in between, up to the return. -/
inductive Alone (B : Build) (env : Env) (t : τ) : Shared τ → Pc → Shared τ → Pc → Prop where
  | refl {s : Shared τ} {pc : Pc} : Alone B env t s pc s pc
  | cons {s s' : Shared τ} {pc pc' : Pc} {o : Outcome τ} :
      instr B t (answerFor env pc) s pc = some o → o.returned = 0 →
      Alone B env t o.shared o.pc s' pc' → Alone B env t s pc s' pc'

namespace Alone

variable {B : Build} {env : Env} {t : τ} {s s₁ s' : Shared τ} {pc pc₁ pc' : Pc}

theorem trans (h : Alone B env t s pc s₁ pc₁) (h' : Alone B env t s₁ pc₁ s' pc') :
    Alone B env t s pc s' pc' := by
  induction h with
  | refl => exact h'
  | cons hi h0 _ ih => exact .cons hi h0 (ih h')

/-- Of two such stretches from one place, one begins with the other. -/
theorem compare (h : Alone B env t s pc s₁ pc₁) (h' : Alone B env t s pc s' pc') :
    Alone B env t s₁ pc₁ s' pc' ∨ Alone B env t s' pc' s₁ pc₁ := by
  induction h with
  | refl => exact Or.inl h'
  | cons hi h0 hrest ih =>
    cases h' with
    | refl => exact Or.inr (.cons hi h0 hrest)
    | cons hi' _ hrest' =>
      obtain rfl := Option.some.inj (hi.symm.trans hi')
      exact ih hrest'

theorem of_idle (h : Alone B env t s .idle s' pc') : s' = s ∧ pc' = .idle := by
  cases h with
  | refl => exact ⟨rfl, rfl⟩
  | cons hi _ _ => cases hi

theorem of_unlock {block block' : Nat} (h : Alone B env t s (.unlock block) s' (.unlock block')) :
    s' = s ∧ block' = block := by
  cases h with
  | refl => exact ⟨rfl, rfl⟩
  | cons hi _ hrest =>
    cases hi
    cases hrest.of_idle.2

theorem of_storeBlock {block : Nat} (h : Alone B env t s (.storeBlock block) s' .idle) :
    s'.toState = (s.setHead block).toState := by
  cases h with
  | cons hi _ hrest =>
    cases hi
    cases hrest with
    | cons hi' _ hrest' =>
      cases hi'
      rw [hrest'.of_idle.1]
      rfl

theorem asked_le (h : Alone B env t s pc s' pc') : pc.asked ≤ pc'.asked := by
  induction h with
  | refl => exact le_refl _
  | cons hi _ _ ih => exact (instr_asked hi).1.trans ih

/-- What the environment has not been asked for yet may be anything. -/
theorem reask {env' : Env} (h : Alone B env t s pc s' pc')
    (h1 : 1 ≤ pc'.asked → env'.backing = env.backing)
    (h2 : 2 ≤ pc'.asked → env'.object = env.object) : Alone B env' t s pc s' pc' := by
  induction h with
  | refl => exact .refl
  | @cons s s' pc pc' o hi h0 hrest ih =>
    have hsame : answerFor env' pc = answerFor env pc := by
      have hle := hrest.asked_le
      have hlt := (instr_asked hi).2
      cases pc with
      | newBacking add => exact h1 (Nat.lt_of_lt_of_le hlt hle)
      | newChunk add backing => exact h2 (Nat.lt_of_lt_of_le hlt hle)
      | _ => rfl
    exact .cons (by rw [hsame]; exact hi) h0 (ih h1 h2)

/-- One more instruction, with any answer. -/
theorem extend {answer : Option Nat} {o : Outcome τ} (h : Alone B env t s pc s₁ pc₁)
    (hi : instr B t answer s₁ pc₁ = some o) (h0 : o.returned = 0) :
    ∃ env', Alone B env' t s pc o.shared o.pc := by
  cases pc₁ with
  | newBacking add =>
    refine ⟨{ env with backing := answer }, (h.reask ?_ ?_).trans (.cons hi h0 .refl)⟩ <;>
      (intro hle; simp [Pc.asked] at hle)
  | newChunk add backing =>
    refine ⟨{ env with object := answer }, (h.reask ?_ ?_).trans (.cons hi h0 .refl)⟩
    · exact fun _ => rfl
    · intro hle
      simp [Pc.asked] at hle
  | _ => exact ⟨env, h.trans (.cons hi h0 .refl)⟩

/-- The running sum of `grow_pool` and its guards. -/
theorem sum (L : Linked B s) (env : Env) (t : τ) :
    Alone B env t s .sumFirst s
      (match growthCount B s.pool with
      | none => .unlock 0
      | some add => .newBacking add) := by
  have key : ∀ rest done chunk, s.pool.overflow = done ++ rest →
      Chain (fun a => (s.nodes a).next) 0 chunk (rest.map Chunk.addr) →
      Alone B env t s (.sumCount (sumOf B s done) chunk) s
        (match growthCount B s.pool with
        | none => .unlock 0
        | some add => .newBacking add) := by
    intro rest
    induction rest with
    | nil =>
      intro done chunk hsplit hchain
      have h0 : chunk = 0 := hchain.start_eq_nil
      have htotal : sumOf B s done = totalCount B s.pool := by
        rw [List.append_nil] at hsplit
        rw [← hsplit]
        rfl
      have hadd := addFor_total B s.pool
      cases hg : growthCount B s.pool with
      | none =>
        exact .cons (o := noGrowth [(.read, .fields)] s)
          (by simp [instr, h0, htotal, hadd, hg]) rfl .refl
      | some add =>
        exact .cons
          (o := { accesses := [(.read, .fields)], shared := s, pc := .newBacking add })
          (by simp [instr, h0, htotal, hadd, hg]) rfl .refl
    | cons c rest ih =>
      intro done chunk hsplit hchain
      obtain ⟨rfl, hne, hnext⟩ := Chain.cons_iff.mp hchain
      have hcount := (L.cells c (by simp [hsplit])).2
      refine .cons (if_neg hne) rfl (.cons rfl rfl ?_)
      have hi := ih (done ++ [c]) _ (by simp [hsplit]) hnext
      simpa [sumOf, hcount] using hi
  exact .cons rfl rfl (key s.pool.overflow [] _ rfl L.list)

/-- The loop of `initialize_free_list`, by induction on the slots that are left. -/
theorem initSlots (B : Build) (env : Env) (t : τ) (s : Shared τ) (add backing chunk : Nat) :
    Alone B env t s (.initSlot add backing chunk 0)
      (s.setMem (initializeFreeList B s.mem backing s.pool.blockSize add))
      (.linkChunk backing chunk) := by
  have key : ∀ k i, i + k = add - 1 →
      Alone B env t (s.setMem (MemoryPool.initSlots B s.mem backing s.pool.blockSize i))
        (.initSlot add backing chunk i)
        (s.setMem (initializeFreeList B s.mem backing s.pool.blockSize add))
        (.linkChunk backing chunk) := by
    intro k
    induction k with
    | zero =>
      intro i hi
      obtain rfl : i = add - 1 := hi
      exact .cons (if_neg (by omega)) rfl .refl
    | succ k ih =>
      intro i hi
      exact .cons (if_pos (by omega)) rfl (ih (i + 1) (by omega))
  exact key (add - 1) 0 (by omega)

/-- The descriptor, the free list of the new slots and the links, in the order of `grow_pool`. -/
theorem linkGrown (B : Build) (env : Env) (t : τ) (s : Shared τ) (add backing chunk : Nat) :
    ∃ s', s'.toState =
        { s.toState with
          mem := initializeFreeList B s.mem backing s.pool.blockSize add
          pool := { s.pool with
            overflow := ⟨chunk, backing, add⟩ :: s.pool.overflow
            head := { s.pool.head with ptr := backing }
            growCount := B.add s.pool.growCount 1 } } ∧
      Alone B env t s (.initBacking add backing chunk) s' .loadHead := by
  refine ⟨_, ?_, .cons rfl rfl (.cons rfl rfl (.cons rfl rfl (.cons rfl rfl
    ((initSlots B env t _ add backing chunk).trans
      (.cons rfl rfl (.cons rfl rfl (.cons rfl rfl .refl)))))))⟩
  simp [Shared.setNode, Shared.setMem, Shared.setHead, Shared.link, State.setHead]

theorem grow (L : Linked B s) (t : τ) {env : Env} {ready : Bool} {s₁ : State}
    (h : growPool B env s.toState = (ready, s₁)) :
    ∃ s', s'.toState = s₁ ∧
      Alone B env t s .sumFirst s' (if ready then .loadHead else .unlock 0) := by
  have hsum := sum L env t
  unfold growPool at h
  split at h
  · rename_i hg
    rw [hg] at hsum
    cases h
    exact ⟨s, rfl, hsum⟩
  · rename_i add hg
    rw [hg] at hsum
    simp only at h
    split at h
    · -- no memory for the backing
      rename_i w hb
      cases h
      refine ⟨s.setWorld w, rfl, hsum.trans ?_⟩
      exact .cons (o := noGrowth [] (s.setWorld w)) (by simp [instr, answerFor, hb]) rfl .refl
    · rename_i backing w hb
      have h1 : Alone B env t s .sumFirst (s.setWorld w) (.newChunk add backing) :=
        hsum.trans (.cons
          (o := { accesses := [], shared := s.setWorld w, pc := .newChunk add backing })
          (by simp [instr, answerFor, hb]) rfl .refl)
      split at h
      · -- no memory for the descriptor: the backing is released
        rename_i w' hc
        cases h
        refine ⟨s.setWorld (w'.releaseBacking backing), rfl, h1.trans ?_⟩
        exact .cons (o := noGrowth [] (s.setWorld (w'.releaseBacking backing)))
          (by simp [instr, answerFor, Shared.setWorld, hc]) rfl .refl
      · rename_i chunk w' hc
        cases h
        obtain ⟨s', hs', hrest⟩ := linkGrown B env t (s.setWorld w') add backing chunk
        refine ⟨s', hs', h1.trans (.cons
          (o := { accesses := [], shared := s.setWorld w', pc := .initBacking add backing chunk })
          (by simp [instr, answerFor, Shared.setWorld, hc]) rfl hrest)⟩

/-- `pop_head` on a list that is not empty, up to the release of the mutex. -/
theorem take (B : Build) (env : Env) (t : τ) (s : Shared τ) :
    ∃ s', s'.toState =
        ((s.toState.setWorld (readNext B s.toWorld s.pool.head.ptr).2).setHead
          (readNext B s.toWorld s.pool.head.ptr).1).onAllocHook B s.pool.head.ptr ∧
      Alone B env t s .loadHead s' (.unlock s.pool.head.ptr) := by
  generalize hs₁ : (s.setWorld (readNext B s.toWorld s.pool.head.ptr).2).setHead
    (readNext B s.toWorld s.pool.head.ptr).1 = s₁
  have hstate : (s.toState.setWorld (readNext B s.toWorld s.pool.head.ptr).2).setHead
      (readNext B s.toWorld s.pool.head.ptr).1 = s₁.toState := by rw [← hs₁]; rfl
  have hsize : s.pool.blockSize = s₁.pool.blockSize := by rw [← hs₁]; rfl
  have hrun : Alone B env t s .loadHead s₁
      (if B.hardening then .onAlloc s.pool.head.ptr else .unlock s.pool.head.ptr) := by
    rw [← hs₁]
    exact .cons rfl rfl (.cons rfl rfl (.cons rfl rfl .refl))
  rw [hstate]
  unfold State.onAllocHook
  by_cases hh : B.hardening = true
  · rw [if_pos hh] at hrun ⊢
    exact ⟨s₁.setWorld (onAlloc B s₁.toWorld s.pool.head.ptr s₁.pool.blockSize), rfl,
      hrun.trans (.cons rfl rfl .refl)⟩
  · rw [if_neg hh] at hrun ⊢
    exact ⟨s₁, rfl, hrun⟩

/-- `pop_head`, from the test of the head to the release of the mutex. -/
theorem pop (L : Linked B s) (t : τ) (env : Env) :
    ∃ s', s'.toState = (popUnlocked B env s.toState).2 ∧
      Alone B env t s .testHead s' (.unlock (popUnlocked B env s.toState).1) := by
  unfold popUnlocked
  by_cases h0 : s.pool.head.ptr = 0
  · rw [if_pos h0]
    by_cases hf : s.pool.growFactor < 2
    · rw [if_pos hf]
      refine ⟨s, rfl, .cons rfl rfl ?_⟩
      simp only [if_pos h0, if_pos hf]
      exact .refl
    · rw [if_neg hf]
      have h1 : Alone B env t s .testHead s .sumFirst := by
        refine .cons rfl rfl ?_
        simp only [if_pos h0, if_neg hf]
        exact .refl
      rcases hg : growPool B env s.toState with ⟨ready, s₁⟩
      obtain ⟨s₂, rfl, hgrow⟩ := grow L t hg
      cases ready with
      | false => exact ⟨s₂, rfl, h1.trans hgrow⟩
      | true =>
        obtain ⟨s', hs', htake⟩ := take B env t s₂
        exact ⟨s', hs', h1.trans (hgrow.trans htake)⟩
  · rw [if_neg h0]
    obtain ⟨s', hs', htake⟩ := take B env t s
    refine ⟨s', hs', .cons rfl rfl ?_⟩
    simp only [if_neg h0]
    exact htake

/-- `is_block_in_range`, by induction on the descriptors that are left. -/
theorem walk (L : Linked B s) (env : Env) (t : τ) (block : Nat) :
    Alone B env t s (.walkFirst block) s
      (if isBlockInRange B s.pool block then .lockPush block else .idle) := by
  have key : ∀ (rest : List Chunk) chunk, (∀ c ∈ rest, c ∈ s.pool.overflow) →
      Chain (fun a => (s.nodes a).next) 0 chunk (rest.map Chunk.addr) →
      Alone B env t s (.walkBacking block chunk) s
        (if rest.any (fun c => blockInChunk B s.pool c.backing c.blockCount block) then
          .lockPush block else .idle) := by
    intro rest
    induction rest with
    | nil =>
      intro chunk _ hchain
      have h0 : chunk = 0 := hchain.start_eq_nil
      exact .cons (if_pos h0) rfl .refl
    | cons c rest ih =>
      intro chunk hsub hchain
      obtain ⟨rfl, hne, hnext⟩ := Chain.cons_iff.mp hchain
      obtain ⟨hbacking, hcount⟩ := L.cells c (hsub c (by simp))
      refine .cons (if_neg hne) rfl (.cons rfl rfl ?_)
      simp only [hbacking, hcount, List.any_cons]
      by_cases hin : blockInChunk B s.pool c.backing c.blockCount block = true
      · simp only [hin, Bool.true_or, if_true]
        exact .refl
      · rw [if_neg hin]
        refine .cons rfl rfl ?_
        simpa [hin] using ih _ (fun c' hc' => hsub c' (by simp [hc'])) hnext
  refine .cons rfl rfl ?_
  unfold isBlockInRange
  by_cases hin : blockInChunk B s.pool s.pool.backing s.pool.blockCount block = true
  · simp only [hin, if_true]
    exact .refl
  · simp only [if_neg hin]
    exact .cons rfl rfl (key s.pool.overflow _ (fun _ hc => hc) L.list)

theorem onFreeHook (B : Build) (env : Env) (t : τ) (s : Shared τ) (block : Nat) :
    ∃ s', s'.toState = (s.toState.onFreeHook B block).2 ∧
      Alone B env t s (if B.hardening then .onFree block else .pushHead block) s'
        (if (s.toState.onFreeHook B block).1 then .pushHead block else .unlockPush) := by
  unfold State.onFreeHook
  by_cases hh : B.hardening = true
  · rw [if_pos hh, if_pos hh]
    have hi : instr B t none s (.onFree block) = some
        { accesses := [(.read, .payload block), (.write, .payload block)]
          shared := s.setWorld (onFree B s.toWorld block s.pool.blockSize).2
          pc := if (onFree B s.toWorld block s.pool.blockSize).1 then .pushHead block
            else .unlockPush } := by
      simp only [instr]
    generalize onFree B s.toWorld block s.pool.blockSize = result at hi ⊢
    exact ⟨s.setWorld result.2, rfl, .cons hi rfl .refl⟩
  · rw [if_neg hh, if_neg hh]
    exact ⟨s, rfl, .refl⟩

/-- `push_head`, from the acquisition of the mutex to its release. -/
theorem push (B : Build) (env : Env) (t : τ) (s : Shared τ) (block : Nat) (hfree : s.owner = none) :
    ∃ s', s'.toState = pushUnlocked B s.toState block ∧ s'.owner = none ∧
      Alone B env t s (.lockPush block) s' .idle := by
  have hi : instr B t none s (.lockPush block) = some
      { accesses := []
        shared := s.setOwner (some t)
        pc := if B.hardening then .onFree block else .pushHead block } := by
    simp only [instr, hfree]
  obtain ⟨s₁, hs₁, hhook⟩ := onFreeHook B env t (s.setOwner (some t)) block
  have hlock : Alone B env t s (.lockPush block) s₁ _ := .cons hi rfl hhook
  have hstate : (s.setOwner (some t)).toState = s.toState := rfl
  rw [hstate] at hs₁ hlock
  unfold pushUnlocked
  generalize s.toState.onFreeHook B block = result at hs₁ hlock ⊢
  obtain ⟨enqueue, s₂⟩ := result
  obtain rfl : s₁.toState = s₂ := hs₁
  cases enqueue with
  | false => exact ⟨s₁.setOwner none, rfl, rfl, hlock.trans (.cons rfl rfl .refl)⟩
  | true =>
    exact ⟨_, rfl, rfl, hlock.trans (.cons rfl rfl (.cons rfl rfl (.cons rfl rfl
      (.cons rfl rfl .refl))))⟩

/-- `pop_head`, from the acquisition of the mutex to its release. -/
theorem lockPop (L : Linked B s) (hfree : s.owner = none) (env : Env) (t : τ) :
    ∃ s', s'.toState = (popUnlocked B env s.toState).2 ∧
      Alone B env t s .lock s' (.unlock (popUnlocked B env s.toState).1) := by
  have hi : instr B t none s .lock = some
      { accesses := [], shared := s.setOwner (some t), pc := .testHead } := by
    simp only [instr, hfree]
  obtain ⟨s', hs', hpop⟩ := pop (s := s.setOwner (some t)) (L.same rfl rfl rfl rfl) t env
  exact ⟨s', hs', .cons hi rfl hpop⟩

/-- However far a call of `pop_head` has come under the mutex, at the release it is done. -/
theorem popped {block : Nat} (L : Linked B s) (hfree : s.owner = none)
    (h : Alone B env t s .lock s' (.unlock block)) :
    popUnlocked B env s.toState = (block, s'.toState) := by
  obtain ⟨s₁, hs₁, h₁⟩ := lockPop L hfree env t
  have heq : s' = s₁ ∧ block = (popUnlocked B env s.toState).1 := by
    rcases h.compare h₁ with hc | hc
    · obtain ⟨h1, h2⟩ := hc.of_unlock
      exact ⟨h1.symm, h2.symm⟩
    · exact hc.of_unlock
  rw [heq.1, heq.2, hs₁]

/-- A `push_head` that has come to the store of the block only has this store left. -/
theorem pushed {block : Nat} (hfree : s.owner = none)
    (h : Alone B env t s (.lockPush block) s' (.storeBlock block)) :
    pushUnlocked B s.toState block = (s'.setHead block).toState := by
  obtain ⟨s₁, hs₁, -, h₁⟩ := push B env t s block hfree
  rcases h.compare h₁ with hc | hc
  · rw [← hs₁, hc.of_storeBlock]
  · cases hc.of_idle.2

variable [DecidableEq τ]

theorem run (h : Alone B env t s pc s' pc') :
    ∀ {m : Machine τ}, m.shared = s → (m.threads t).pc = pc →
      ∃ es m', (lts B τ).Run m es m' ∧ m'.shared = s' ∧
        m'.threads t = ⟨pc', (m.threads t).held⟩ := by
  induction h with
  | refl =>
    intro m hs hpc
    exact ⟨[], m, .nil, hs, by rw [← hpc]⟩
  | @cons s s' pc pc' o hi h0 _ ih =>
    intro m hs hpc
    subst hs hpc
    have hafter : (m.threads t).after o = ⟨o.pc, (m.threads t).held⟩ := by
      simp [Thread.after, h0]
    obtain ⟨es, m', hrun, h1, h2⟩ := @ih (m.move t o.shared ((m.threads t).after o)) rfl
      (by simp [Machine.move, hafter])
    refine ⟨_, m', .cons (.instr hi) hrun, h1, ?_⟩
    rw [h2]
    simp [Machine.move, hafter]

end Alone

section Calls

variable [DecidableEq τ] {B : Build} {m : Machine τ} {t : τ}

/-- A call of `memory_pool_alloc` with no other thread in between. -/
theorem alloc_alone (L : Linked B m.shared) (env : Env) (hidle : (m.threads t).pc = .idle)
    (hfree : m.shared.owner = none) {block : Nat} {s : State}
    (h : popUnlocked B env m.shared.toState = (block, s)) :
    ∃ es m', (lts B τ).Run m (.alloc t :: es) m' ∧ m'.shared.toState = s ∧
      m'.shared.owner = none ∧ m'.threads t =
        ⟨.idle, if block = 0 then (m.threads t).held else block :: (m.threads t).held⟩ := by
  obtain ⟨s₁, hs₁, hall⟩ := Alone.lockPop L hfree env t
  rw [h] at hs₁ hall
  obtain ⟨es, m', hrun, hshared, hthread⟩ := hall.run
    (m := m.move t m.shared { m.threads t with pc := .lock }) rfl (by simp [Machine.move])
  have hret : instr B t none m'.shared (m'.threads t).pc = some
      { accesses := [], shared := m'.shared.setOwner none, pc := .idle, returned := block } := by
    rw [hthread]
    rfl
  have hcall : (lts B τ).step m (.alloc t) _ := .alloc hidle
  refine ⟨_, _, .snoc (.cons hcall hrun) (.instr hret), ?_, rfl, ?_⟩
  · show m'.shared.toState = s
    rw [hshared, hs₁]
  · simp [Machine.move, Thread.after, hthread]

theorem free_alone (L : Linked B m.shared) (hidle : (m.threads t).pc = .idle)
    (hfree : m.shared.owner = none) {block : Nat} (hblock : block ≠ 0) :
    ∃ es m', (lts B τ).Run m (.free t block :: es) m' ∧
      m'.shared.toState =
        (if isBlockInRange B m.shared.pool block then pushUnlocked B m.shared.toState block
          else m.shared.toState) ∧
      m'.shared.owner = none ∧ m'.threads t = ⟨.idle, (m.threads t).held.erase block⟩ := by
  obtain ⟨s', hs', ho, hall⟩ : ∃ s' : Shared τ, s'.toState =
      (if isBlockInRange B m.shared.pool block then pushUnlocked B m.shared.toState block
        else m.shared.toState) ∧ s'.owner = none ∧
      Alone B ⟨none, none, 0⟩ t m.shared (.walkFirst block) s' .idle := by
    have hwalk := Alone.walk L ⟨none, none, 0⟩ t block
    by_cases hin : isBlockInRange B m.shared.pool block = true
    · rw [if_pos hin] at hwalk ⊢
      obtain ⟨s', hs', ho, hpush⟩ := Alone.push B ⟨none, none, 0⟩ t m.shared block hfree
      exact ⟨s', hs', ho, hwalk.trans hpush⟩
    · rw [if_neg hin] at hwalk ⊢
      exact ⟨m.shared, rfl, hfree, hwalk⟩
  obtain ⟨es, m', hrun, rfl, hthread⟩ := hall.run
    (m := m.move t m.shared ⟨.walkFirst block, (m.threads t).held.erase block⟩) rfl
    (by simp [Machine.move])
  refine ⟨es, m', .cons (.free hidle hblock) hrun, hs', ho, ?_⟩
  rw [hthread]
  simp [Machine.move]

end Calls

end Mutex

end MemoryPool
