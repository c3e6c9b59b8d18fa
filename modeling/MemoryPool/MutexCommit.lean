import MemoryPool.MutexMovers

/-!
# MemoryPool.MutexCommit

Where the calls of the `MUTEX` build take effect (`Machine.commit`): an allocation at the
instruction that releases the mutex, a free where it stores the block into `head_` or where its walk
ends without the block.

* `instr_move`: the places an instruction takes its thread to and from.
* `lent_instr`, `lent_store`: the blocks that the threads hold or have passed to frees that have not
  taken effect.
* `Kept.op_run`: what a thread has called is what took effect of it, in its order, and the call it
  is in.
-/

namespace MemoryPool

namespace Mutex

/-- Where a thread that has yet to take effect in its critical section has come into it. -/
def Pc.entry : Pc → Option Pc
  | .testHead | .sumFirst | .sumCount _ _ | .sumNext _ _ | .newBacking _ | .newChunk _ _
  | .initBacking _ _ _ | .initCount _ _ _ | .loadOverflow _ _ _ | .initNext _ _ _ _
  | .initSlot _ _ _ _ | .linkChunk _ _ | .seedHead _ | .countGrowth | .loadHead | .loadLink _
  | .storeHead _ _ | .onAlloc _ | .unlock _ => some .lock
  | .onFree block | .pushHead block | .pushLink block _ | .storeBlock block =>
    some (.lockPush block)
  | _ => none

/-- What took effect: an allocation with its result, a free, or a write. -/
inductive Commit (τ : Type*) where
  | alloc (t : τ) (block : Nat)
  | free (t : τ) (block : Nat)
  | write (t : τ) (addr : Nat) (byte : UInt8)
  deriving DecidableEq

def Machine.commit {τ : Type*} (m : Machine τ) : Event τ → Option (Commit τ)
  | .instr t _ =>
    match (m.threads t).pc with
    | .unlock block => some (.alloc t block)
    | .storeBlock block => some (.free t block)
    | .walkBacking block chunk => if chunk = 0 then some (.free t block) else none
    | _ => none
  | .write t addr byte => some (.write t addr byte)
  | _ => none

/-- The same call of the sequential client, with the same result. -/
inductive Commit.Is {τ : Type*} : Commit τ → Client.Event → Prop where
  | alloc {t : τ} {block : Nat} {env : Env} {grown : Option Chunk} :
      Commit.Is (.alloc t block) (.alloc env block grown)
  | free {t : τ} {block : Nat} {env : Env} : Commit.Is (.free t block) (.free env block)
  | write {t : τ} {addr : Nat} {byte : UInt8} :
      Commit.Is (.write t addr byte) (.write addr byte)

section Instr

variable {τ : Type*} {B : Build} {t : τ} {answer : Option Nat} {s : Shared τ} {pc pc₀ : Pc}
  {o : Outcome τ} {block : Nat}

theorem Pc.entry_critical (h : pc.entry = some pc₀) : pc.critical = true := by
  cases pc <;> first | rfl | cases h

theorem Pc.entry_outside (h : pc.critical = false) : pc.entry = none := by
  cases pc <;> first | rfl | cases h

/-- What an instruction does to the place of its thread in the critical section. -/
inductive Move (s : Shared τ) (pc : Pc) (o : Outcome τ) : Prop where
  | outside : pc.critical = false → o.pc.critical = false → o.shared = s → o.returned = 0 →
      Move s pc o
  | acquire : s.owner = none → (pc = .lock ∨ ∃ block, pc = .lockPush block) →
      o.pc.entry = some pc → o.returned = 0 → Move s pc o
  | onward {pc₀ : Pc} : pc.entry = some pc₀ → o.pc.entry = some pc₀ → o.returned = 0 → Move s pc o
  | refused {block : Nat} : pc = .onFree block → o.pc = .unlockPush → Move s pc o
  | alloc {block : Nat} : pc = .unlock block → o.shared = s.setOwner none → o.pc = .idle →
      o.returned = block → Move s pc o
  | free {block : Nat} : pc = .storeBlock block → o.shared = s.setHead block →
      o.pc = .unlockPush → o.returned = 0 → Move s pc o
  | release : pc = .unlockPush → o.shared = s.setOwner none → o.pc = .idle → o.returned = 0 →
      Move s pc o

theorem instr_move (h : instr B t answer s pc = some o) : Move s pc o := by
  cases pc with
  | idle => cases h
  | lock =>
    simp only [instr] at h
    split at h <;> cases h
    rename_i ho
    exact .acquire ho (Or.inl rfl) rfl rfl
  | lockPush block =>
    simp only [instr] at h
    split at h <;> cases h
    rename_i ho
    refine .acquire ho (Or.inr ⟨_, rfl⟩) ?_ rfl
    dsimp only
    split <;> rfl
  | unlock block => cases h; exact .alloc rfl rfl rfl rfl
  | storeBlock block => cases h; exact .free rfl rfl rfl rfl
  | unlockPush => cases h; exact .release rfl rfl rfl rfl
  | onFree block =>
    simp only [instr, Option.some.injEq] at h
    subst h
    cases hok : (MemoryPool.onFree B s.toWorld block s.pool.blockSize).1 with
    | true =>
      exact Move.onward (show _ = some (Pc.lockPush block) from rfl) (by simp [Pc.entry]) rfl
    | false => exact .refused rfl (by simp)
  | walkFirst block =>
    cases h
    refine .outside rfl ?_ rfl rfl
    dsimp only
    split <;> rfl
  | walkOverflow block => cases h; exact .outside rfl rfl rfl rfl
  | walkBacking block chunk =>
    simp only [instr] at h
    split at h <;> cases h <;> exact .outside rfl rfl rfl rfl
  | walkCount block chunk backing =>
    cases h
    refine .outside rfl ?_ rfl rfl
    dsimp only
    split <;> rfl
  | walkNext block chunk => cases h; exact .outside rfl rfl rfl rfl
  | storeHead block next =>
    cases h
    refine .onward (show _ = some Pc.lock from rfl) ?_ rfl
    dsimp only
    split <;> rfl
  | testHead =>
    cases h
    refine .onward (show _ = some Pc.lock from rfl) ?_ rfl
    dsimp only
    split
    · split <;> rfl
    · rfl
  | _ =>
    simp only [instr] at h
    (repeat' split at h) <;> cases h <;> exact .onward rfl rfl rfl

theorem instr_mutex (h : instr B t answer s pc = some o) :
    o.shared.pool.mutex = s.pool.mutex := by
  rcases instr_pool h with ⟨head, growCount, hp⟩ | ⟨backing, new, -, hs⟩
  · rw [hp]
  · rw [hs]
    rfl

end Instr

/-! ## What the client holds -/

section Lent

variable {τ : Type*} {B : Build} {t u : τ} {answer : Option Nat} {m m' : Machine τ}
  {o : Outcome τ} {others : List (Nat × Region)} {block : Nat}

/-- The blocks that are lent to a thread, with the one it has passed to a free that has not taken
effect. -/
def Machine.lent (B : Build) (m : Machine τ) (t : τ) : List Nat :=
  m.passed B t ++ (m.threads t).held

theorem mem_passed {b : Nat} : b ∈ m.passed B t ↔
    (m.threads t).pc.freeing = some b ∧ b ∈ m.shared.pool.slots B := by
  unfold Machine.passed
  cases (m.threads t).pc.freeing with
  | none => simp [Option.filter]
  | some b' =>
    by_cases hb : b' ∈ m.shared.pool.slots B
    · simp only [Option.filter, hb, decide_true, if_true, Option.toList_some, List.mem_singleton,
        Option.some.injEq]
      constructor
      · rintro rfl
        exact ⟨rfl, hb⟩
      · rintro ⟨rfl, -⟩
        rfl
    · simp only [Option.filter, hb, decide_false, Bool.false_eq_true, if_false, Option.toList_none,
        List.not_mem_nil, Option.some.injEq, false_iff, not_and]
      rintro rfl
      exact hb

theorem mem_lent {b : Nat} : b ∈ m.lent B t ↔
    ((m.threads t).pc.freeing = some b ∧ b ∈ m.shared.pool.slots B) ∨
      b ∈ (m.threads t).held := by
  rw [Machine.lent, List.mem_append, mem_passed]

theorem passed_inHand {b : Nat} (h : b ∈ m.passed B t) :
    b ∈ inHand B m.shared (m.threads t).pc := by
  obtain ⟨hf, hb⟩ := mem_passed.mp h
  cases hpc : (m.threads t).pc <;> rw [hpc] at hf <;> cases hf <;> simp [inHand, hb]

theorem lent_owned {b : Nat} (h : b ∈ m.lent B t) : b ∈ m.owned B t := by
  rcases List.mem_append.mp h with h | h
  · exact List.mem_append_left _ (passed_inHand h)
  · exact List.mem_append_right _ h

theorem freeing_walks_or {pc : Pc} (h : pc.freeing = some block) :
    pc.walking = some block ∨ ∀ s : Shared τ, inHand B s pc = [block] := by
  cases pc <;> cases h <;> first | exact Or.inl rfl | exact Or.inr fun _ => rfl

theorem instr_freeing {s : Shared τ} {pc : Pc} (h : instr B t answer s pc = some o)
    (hf : o.pc.freeing = some block) : pc.freeing = some block := by
  cases pc <;> simp only [instr] at h <;> (repeat' split at h) <;> cases h <;>
    simp only [noGrowth, Pc.freeing] at hf ⊢ <;>
    first | exact hf | cases hf

theorem Listed.passed_slot {free : List Nat} (I : Listed B m free)
    (hf : (m.threads t).pc.freeing = some block) :
    (m.threads t).pc.walking = some block ∨ block ∈ m.shared.pool.slots B := by
  rcases freeing_walks_or (τ := τ) hf with hw | hin
  · exact Or.inl hw
  · exact Or.inr (I.owned_slot (t := t) (by rw [hin]; exact List.mem_cons_self ..))

variable [DecidableEq τ]

/-- The blocks in the hands of the other threads' frees. -/
theorem passed_other {free : List Nat} (I : Listed B m free)
    (hH : Honest B m (.instr t answer) (m.move t o.shared ((m.threads t).after o)))
    (h : instr B t answer m.shared (m.threads t).pc = some o) (hu : u ≠ t) {b : Nat} :
    b ∈ (m.move t o.shared ((m.threads t).after o)).passed B u ↔ b ∈ m.passed B u := by
  have hfor := hH.foreign u b
  simp only [mem_passed, Machine.move, Function.update_of_ne hu] at hfor ⊢
  constructor
  · rintro ⟨hf, hb⟩
    rcases I.passed_slot hf with hw | hs
    · exact ⟨hf, hfor hw hb⟩
    · exact ⟨hf, hs⟩
  · rintro ⟨hf, hb⟩
    exact ⟨hf, slots_step h hb⟩

theorem lent_other {free : List Nat} (I : Listed B m free)
    (hH : Honest B m (.instr t answer) (m.move t o.shared ((m.threads t).after o)))
    (h : instr B t answer m.shared (m.threads t).pc = some o) (hu : u ≠ t) {b : Nat} :
    b ∈ (m.move t o.shared ((m.threads t).after o)).lent B u ↔ b ∈ m.lent B u := by
  simp only [Machine.lent, List.mem_append, passed_other I hH h hu]
  simp [Machine.move, hu]

theorem passed_self (K : Kept B others m)
    (h : instr B t answer m.shared (m.threads t).pc = some o)
    (hpc : ∀ block, (m.threads t).pc ≠ .storeBlock block) {b : Nat} :
    b ∈ (m.move t o.shared ((m.threads t).after o)).passed B t ↔ b ∈ m.passed B t := by
  obtain ⟨-, -, -, free, I⟩ := id K
  simp only [mem_passed, Machine.move, Function.update_self, Thread.after]
  constructor
  · rintro ⟨hf, hb⟩
    have hf' := instr_freeing h hf
    refine ⟨hf', ?_⟩
    rcases I.passed_slot hf' with hw | hs
    · rwa [(instr_walk hw h).1] at hb
    · exact hs
  · rintro ⟨hf, hb⟩
    rcases K.freeing hf hb h with hf' | ⟨hst, -⟩
    · exact ⟨hf', slots_step h hb⟩
    · exact absurd hst (hpc _)

/-- What an instruction other than the store of a free lends. -/
theorem lent_instr (K : Kept B others m)
    (hH : Honest B m (.instr t answer) (m.move t o.shared ((m.threads t).after o)))
    (h : instr B t answer m.shared (m.threads t).pc = some o)
    (hpc : ∀ block, (m.threads t).pc ≠ .storeBlock block) {b : Nat} :
    (∃ u, b ∈ (m.move t o.shared ((m.threads t).after o)).lent B u) ↔
      b ∈ o.given ∨ ∃ u, b ∈ m.lent B u := by
  obtain ⟨-, -, -, free, I⟩ := id K
  have hself : b ∈ (m.move t o.shared ((m.threads t).after o)).lent B t ↔
      b ∈ o.given ∨ b ∈ m.lent B t := by
    simp only [Machine.lent, List.mem_append, passed_self K h hpc]
    simp only [Machine.move, Function.update_self, Thread.after_held, List.mem_append]
    exact or_left_comm
  constructor
  · rintro ⟨u, hb⟩
    by_cases hu : u = t
    · subst hu
      exact (hself.mp hb).imp_right fun hb => ⟨u, hb⟩
    · exact Or.inr ⟨u, (lent_other I hH h hu).mp hb⟩
  · rintro (hb | ⟨u, hb⟩)
    · exact ⟨t, hself.mpr (Or.inl hb)⟩
    · by_cases hu : u = t
      · subst hu
        exact ⟨u, hself.mpr (Or.inr hb)⟩
      · exact ⟨u, (lent_other I hH h hu).mpr hb⟩

/-- The store of a free takes the block back. -/
theorem lent_store (K : Kept B others m)
    (hH : Honest B m (.instr t answer) (m.move t o.shared ((m.threads t).after o)))
    (h : instr B t answer m.shared (m.threads t).pc = some o)
    (hpc : (m.threads t).pc = .storeBlock block) {b : Nat} :
    (∃ u, b ∈ (m.move t o.shared ((m.threads t).after o)).lent B u) ↔
      (∃ u, b ∈ m.lent B u) ∧ b ≠ block := by
  obtain ⟨-, -, -, free, I⟩ := id K
  have hhand : inHand B m.shared (m.threads t).pc = [block] := by rw [hpc]; rfl
  have hmine : block ∈ m.owned B t := by
    refine List.mem_append_left _ ?_
    rw [hhand]
    exact List.mem_cons_self ..
  have hslot : block ∈ m.shared.pool.slots B := I.shares.owned_mem hmine
  have ho : o.pc = .unlockPush ∧ o.returned = 0 := by
    rw [hpc] at h
    cases h
    exact ⟨rfl, rfl⟩
  have hafter : ((m.threads t).after o).held = (m.threads t).held := if_pos ho.2
  have hself : (m.move t o.shared ((m.threads t).after o)).lent B t = (m.threads t).held := by
    simp only [Machine.lent, Machine.passed, Machine.move, Function.update_self, hafter]
    simp [Thread.after, ho.1, Pc.freeing]
  have hlent : m.lent B t = block :: (m.threads t).held := by
    simp [Machine.lent, Machine.passed, hpc, Pc.freeing, hslot, Option.filter]
  constructor
  · rintro ⟨u, hb⟩
    by_cases hu : u = t
    · subst hu
      rw [hself] at hb
      refine ⟨⟨u, hlent ▸ List.mem_cons_of_mem _ hb⟩, ?_⟩
      rintro rfl
      exact I.held_apart hb (by rw [hhand]; exact List.mem_cons_self ..)
    · rw [lent_other I hH h hu] at hb
      refine ⟨⟨u, hb⟩, ?_⟩
      rintro rfl
      exact hu (I.shares.exclusive u t b (lent_owned hb) hmine)
  · rintro ⟨⟨u, hb⟩, hne⟩
    by_cases hu : u = t
    · subst hu
      rw [hlent] at hb
      exact ⟨u, hself ▸ List.mem_of_ne_of_mem hne hb⟩
    · exact ⟨u, (lent_other I hH h hu).mpr hb⟩

end Lent

/-! ## The order of the calls -/

/-- A call of the pool. -/
inductive Op where
  | alloc
  | free (block : Nat)
  deriving DecidableEq

/-- The call that a thread is in and that has not taken effect. -/
def Pc.op (pc : Pc) : Option Op :=
  match pc.freeing, pc with
  | some block, _ => some (.free block)
  | none, .idle | none, .unlockPush => none
  | none, _ => some .alloc

section Order

variable {τ : Type*} [DecidableEq τ] {B : Build} {t u : τ} {answer : Option Nat} {m m' : Machine τ}
  {o : Outcome τ} {others : List (Nat × Region)}

def Event.op (t : τ) : Event τ → Option Op
  | .alloc u => if u = t then some .alloc else none
  | .free u block => if u = t then some (.free block) else none
  | _ => none

def Commit.op (t : τ) : Commit τ → Option Op
  | .alloc u _ => if u = t then some .alloc else none
  | .free u block => if u = t then some (.free block) else none
  | .write _ _ _ => none

/-- The threads' instructions and calls, each with what took effect by it. -/
def recorded (B : Build) (τ : Type*) [DecidableEq τ] :
    Lts (Machine τ) (Event τ × Option (Commit τ)) where
  step m r m' := ((lts B τ).restrict (Honest B)).step m r.1 m' ∧ r.2 = m.commit r.1

theorem commit_other (hu : u ≠ t) : (m.commit (.instr t answer)).bind (Commit.op u) = none := by
  simp only [Machine.commit]
  split
  · exact if_neg hu.symm
  · exact if_neg hu.symm
  · split
    · exact if_neg hu.symm
    · rfl
  · rfl

/-- The call of a thread goes on, or takes effect. -/
theorem Kept.op_instr (K : Kept B others m)
    (h : instr B t answer m.shared (m.threads t).pc = some o) :
    (m.threads t).pc.op.toList =
      ((m.commit (.instr t answer)).bind (Commit.op t)).toList ++ o.pc.op.toList := by
  obtain ⟨-, -, -, free, I⟩ := id K
  have hP := I.threads t
  cases hpc : (m.threads t).pc <;> rw [hpc] at h hP
  case onFree block =>
    have hfreed := onFree_allocated (B := B) (w := m.shared.toWorld) (hP.2 hP.1)
    simp only [instr, hfreed, Option.some.injEq] at h
    subst h
    simp [Machine.commit, hpc, Pc.op, Pc.freeing]
  all_goals
    simp only [instr] at h
    (repeat' split at h) <;> cases h <;> simp only [Machine.commit, hpc] <;>
      simp [Pc.op, Pc.freeing, Commit.op, noGrowth, *]

/-- What a thread has called is what took effect of it and the call that it is in. -/
theorem Kept.op_step {r : Event τ × Option (Commit τ)} (K : Kept B others m)
    (h : (recorded B τ).step m r m') (t : τ) :
    (m.threads t).pc.op.toList ++ (r.1.op t).toList =
      (r.2.bind (Commit.op t)).toList ++ (m'.threads t).pc.op.toList := by
  obtain ⟨e, commit⟩ := r
  obtain ⟨⟨-, hs⟩, hcommit⟩ := h
  obtain rfl : commit = m.commit e := hcommit
  replace hs : Step B m e m' := hs
  cases hs with
  | @alloc u hidle =>
    by_cases hu : u = t
    · subst hu
      simp [Event.op, Machine.commit, Machine.move, hidle, Pc.op, Pc.freeing]
    · simp [Event.op, Machine.commit, Machine.move, hu, Ne.symm hu]
  | @free u block hidle _ =>
    by_cases hu : u = t
    · subst hu
      simp [Event.op, Machine.commit, Machine.move, hidle, Pc.op, Pc.freeing]
    · simp [Event.op, Machine.commit, Machine.move, hu, Ne.symm hu]
  | write _ _ _ => simp [Event.op, Machine.commit, Commit.op]
  | @instr u answer o h =>
    by_cases hu : t = u
    · subst hu
      simpa [Event.op, Machine.move, Thread.after] using K.op_instr h
    · simp only [commit_other hu]
      simp [Event.op, Machine.move, hu]

theorem recorded_honest {rs : List (Event τ × Option (Commit τ))} (h : (recorded B τ).Run m rs m') :
    ((lts B τ).restrict (Honest B)).Run m (rs.map Prod.fst) m' := by
  induction h with
  | nil => exact .nil
  | snoc _ hs ih =>
    rw [List.map_append]
    exact .snoc ih hs.1

theorem Kept.op_run {rs : List (Event τ × Option (Commit τ))} (K : Kept B others m)
    (h : (recorded B τ).Run m rs m') (t : τ) (hidle : (m.threads t).pc = .idle) :
    rs.filterMap (fun r => r.1.op t) =
      rs.filterMap (fun r => r.2.bind (Commit.op t)) ++ (m'.threads t).pc.op.toList := by
  induction h with
  | nil =>
    rw [hidle]
    rfl
  | @snoc d d' rs r hrun hs ih =>
    have hstep := (K.of_run (recorded_honest hrun)).op_step hs t
    have hone : ∀ {β : Type} (f : Event τ × Option (Commit τ) → Option β),
        [r].filterMap f = (f r).toList := by
      intro β f
      cases hf : f r <;> simp [hf]
    rw [List.filterMap_append, List.filterMap_append, ih, hone, hone, List.append_assoc, hstep,
      List.append_assoc]

end Order

end Mutex

end MemoryPool
