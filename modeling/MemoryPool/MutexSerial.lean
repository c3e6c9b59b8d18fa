import MemoryPool.MutexCommit

/-!
# MemoryPool.MutexSerial

The `MUTEX` build under every interleaving is the sequential pool. The calls of a run in the order
in which they take effect (`Machine.commit`), and the holders' writes between them, are a run of the
sequential client with the same results; whenever nobody holds the mutex the two pools are the same
(`Serial`).

While a thread is in its critical section, the sequential pool is as it was when the thread
acquired the mutex, but for the bytes written since (`Begun`): the instructions that the thread has
executed commute with these bytes (`Alone.write`).
-/

namespace MemoryPool

namespace Mutex

open ByteMem LinkedList

section Calls

variable {B : Build} {env : Env} {s s' : State} {block : Nat}

theorem memoryPoolAlloc_mutex (hts : B.threadSafety = .mutex)
    (h : popUnlocked B env s = (block, s')) (hm : s'.pool.mutex = false) :
    memoryPoolAlloc B env (some s) = (block, some s') := by
  have hpop : popHead B env s = (block, s') := by
    simp only [popHead, hts, MutexPolicy.popHead]
    rw [show MutexPolicy.lock s = s.setMutex true from rfl, popUnlocked_setMutex, h]
    show (block, s'.setMutex false) = _
    rw [← hm]
    rfl
  rw [memoryPoolAlloc_some, hpop]

theorem pushHead_mutex (hts : B.threadSafety = .mutex) (h : pushUnlocked B s block = s')
    (hm : s'.pool.mutex = false) : pushHead B env s block = s' := by
  simp only [pushHead, hts, MutexPolicy.pushHead]
  rw [show MutexPolicy.lock s = s.setMutex true from rfl, pushUnlocked_setMutex, h]
  show s'.setMutex false = _
  rw [← hm]
  rfl

end Calls

/-! ## The simulation -/

section Serial

variable {τ : Type*} {B : Build} {t u : τ} {answer : Option Nat} {m m' m₀ : Machine τ}
  {o : Outcome τ} {others : List (Nat × Region)} {block : Nat} {pc₀ : Pc} {env : Env}
  {c c' : Client}

/-- The critical section of `t`, back to back from the pool the client has. -/
structure Begun (B : Build) (others : List (Nat × Region)) (m : Machine τ) (c : Client) (t : τ)
    (pc₀ : Pc) (env : Env) (m₀ : Machine τ) : Prop where
  kept : Kept B others m₀
  lone : Lone m₀ t
  entry : (m₀.threads t).pc = pc₀
  owner : m₀.shared.owner = none
  pool : m₀.shared.toState = c.pool
  held : ∀ u, ∀ b ∈ (m.threads u).held, b ∈ (m₀.threads u).held
  path : Alone B env t m₀.shared pc₀ m.shared (m.threads t).pc

/-- The sequential client that has made the calls that have taken effect. -/
structure Serial (B : Build) (others : List (Nat × Region)) (m : Machine τ) (c : Client) :
    Prop where
  kept : Kept B others m
  unlocked : m.shared.pool.mutex = false
  inv : ∃ free, PoolInv B c.pool others free c.held
  held : ∀ b, b ∈ c.held ↔ ∃ t, b ∈ m.lent B t
  settled : (∀ t, (m.threads t).pc.entry = none) → c.pool = m.shared.toState
  begun : ∀ t pc₀, (m.threads t).pc.entry = some pc₀ → ∃ env m₀, Begun B others m c t pc₀ env m₀

theorem Alone.slots {s s' : Shared τ} {pc pc' : Pc} (h : Alone B env t s pc s' pc') {a : Nat}
    (ha : a ∈ s.pool.slots B) : a ∈ s'.pool.slots B := by
  induction h with
  | refl => exact ha
  | cons hi _ _ ih => exact ih (slots_step hi ha)

theorem Alone.blockSize {s s' : Shared τ} {pc pc' : Pc} (h : Alone B env t s pc s' pc') :
    s'.pool.blockSize = s.pool.blockSize := by
  induction h with
  | refl => rfl
  | cons hi _ _ ih => rw [ih, (instr_fields hi).1]

/-- A step after which the pools are the same again. -/
theorem Serial.settle (K : Kept B others m) (hm : m.shared.pool.mutex = false)
    (I : ∃ free, PoolInv B c.pool others free c.held)
    (hheld : ∀ b, b ∈ c.held ↔ ∃ t, b ∈ m.lent B t)
    (hpool : c.pool = m.shared.toState) (hnone : ∀ t, (m.threads t).pc.entry = none) :
    Serial B others m c :=
  ⟨K, hm, I, hheld, fun _ => hpool, fun t pc₀ he => by rw [hnone t] at he; cases he⟩

namespace Serial

/-- Either a thread is on its way to its effect, or the pools are the same. -/
theorem cases_begun (S : Serial B others m c) : c.pool = m.shared.toState ∨
    ∃ t pc₀ env m₀, (m.threads t).pc.entry = some pc₀ ∧ Begun B others m c t pc₀ env m₀ := by
  by_cases hnone : ∀ t, (m.threads t).pc.entry = none
  · exact Or.inl (S.settled hnone)
  · obtain ⟨t, ht⟩ := not_forall.mp hnone
    obtain ⟨pc₀, hpc⟩ := Option.ne_none_iff_exists'.mp ht
    obtain ⟨env, m₀, hb⟩ := S.begun t pc₀ hpc
    exact Or.inr ⟨t, pc₀, env, m₀, hpc, hb⟩

theorem slots (S : Serial B others m c) {a : Nat} (ha : a ∈ c.pool.pool.slots B) :
    a ∈ m.shared.pool.slots B := by
  rcases S.cases_begun with hp | ⟨t, pc₀, env, m₀, -, hb⟩
  · rwa [hp] at ha
  · rw [← hb.pool] at ha
    exact hb.path.slots ha

theorem blockSize (S : Serial B others m c) : c.pool.pool.blockSize = m.shared.pool.blockSize := by
  rcases S.cases_begun with hp | ⟨t, pc₀, env, m₀, -, hb⟩
  · rw [hp]
  · rw [← hb.pool, hb.path.blockSize]

/-- A step that does nothing to the pool. -/
theorem quiet (S : Serial B others m c) (K : Kept B others m') (hs : m'.shared = m.shared)
    (hentry : ∀ u, (m'.threads u).pc.entry = (m.threads u).pc.entry)
    (hpc : ∀ u, (m.threads u).pc.entry ≠ none → (m'.threads u).pc = (m.threads u).pc)
    (hheld : ∀ u, ∀ b ∈ (m'.threads u).held, b ∈ (m.threads u).held)
    (hlent : ∀ b, (∃ u, b ∈ m'.lent B u) ↔ ∃ u, b ∈ m.lent B u) : Serial B others m' c := by
  refine ⟨K, hs ▸ S.unlocked, S.inv, fun b => (S.held b).trans (hlent b).symm, ?_, ?_⟩
  · intro hnone
    rw [hs]
    exact S.settled fun u => by rw [← hentry u, hnone u]
  · intro u pc₀ he
    rw [hentry u] at he
    obtain ⟨env, m₀, hb⟩ := S.begun u pc₀ he
    refine ⟨env, m₀, hb.kept, hb.lone, hb.entry, hb.owner, hb.pool,
      fun v b hv => hb.held v b (hheld v b hv), ?_⟩
    rw [hs, hpc u (by simp [he])]
    exact hb.path

theorem start {s : State} {slots : List Nat} (hno : s.pool.overflow = [])
    (I : PoolInv B s others slots []) :
    Serial B others (Machine.start s : Machine τ) ⟨s, []⟩ := by
  refine .settle (.start hno I) I.unlocked ⟨slots, I⟩ ?_ rfl fun _ => rfl
  intro b
  simp [Machine.lent, Machine.passed, Machine.start, Pc.freeing]

/-- Only the thread that has the mutex can be on its way. -/
theorem entry_other (S : Serial B others m c) (hc : (m.threads t).pc.critical = true) (hu : u ≠ t) :
    (m.threads u).pc.entry = none := by
  refine Pc.entry_outside ?_
  by_contra hcu
  have ht := (S.kept.inv.exclusive t).mp hc
  rw [(S.kept.inv.exclusive u).mp (by simpa using hcu)] at ht
  exact hu (Option.some.inj ht)

theorem entry_free (S : Serial B others m c) (ho : m.shared.owner = none) (u : τ) :
    (m.threads u).pc.entry = none := by
  refine Pc.entry_outside ?_
  by_contra hcu
  rw [(S.kept.inv.exclusive u).mp (by simpa using hcu)] at ho
  cases ho

/-- A walk that ends without the block: for the client it is no block of the pool either. -/
theorem rejection (S : Serial B others m c) (hpc : (m.threads t).pc = .walkBacking block 0)
    (env : Env) :
    Client.Step B c (.free env block) c ∧ Client.Proper B c (.free env block) := by
  obtain ⟨free, I⟩ := S.inv
  have hno : block ∉ c.pool.pool.slots B := by
    intro hslot
    have hi : instr B t none m.shared (m.threads t).pc = some
        { accesses := [], shared := m.shared, pc := .idle } := by
      rw [hpc]
      rfl
    rcases S.kept.freeing (by rw [hpc]; rfl) (S.slots hslot) hi with hf | ⟨hst, -⟩
    · cases hf
    · rw [hpc] at hst
      cases hst
  have hheld : block ∉ c.held := fun hh => hno (I.held_slot hh)
  have hstep := Client.Step.free (memoryPoolFree_foreign I.layout hno env) (c := c)
  rw [List.erase_of_not_mem hheld] at hstep
  exact ⟨hstep, trivial, Or.inr hno⟩

variable [DecidableEq τ]

theorem write (S : Serial B others m c) (hheld : block ∈ (m.threads t).held) {addr : Nat}
    (hl : block ≤ addr) (hu : addr < block + m.shared.pool.blockSize) (byte : UInt8) :
    ∃ c', Client.Step B c (.write addr byte) c' ∧ Client.Proper B c (.write addr byte) ∧
      Serial B others { m with shared := m.shared.setByte addr byte } c' := by
  obtain ⟨free, I⟩ := S.inv
  have hc : block ∈ c.held := (S.held block).mpr ⟨t, List.mem_append_right _ hheld⟩
  have hu' : addr < block + c.pool.pool.blockSize := by rwa [S.blockSize]
  refine ⟨_, .write, ⟨⟨block, hc, hl, hu'⟩, trivial⟩, ⟨S.kept.write hheld hl hu byte, S.unlocked,
    ⟨free, I.write hc hl hu'⟩, S.held, ?_, ?_⟩⟩
  · intro hnone
    rw [S.settled hnone]
    rfl
  · intro v pc₀ he
    obtain ⟨env, m₀, hb⟩ := S.begun v pc₀ he
    have hheld₀ := hb.held t block hheld
    have hu₀ : addr < block + m₀.shared.pool.blockSize := by rwa [← hb.path.blockSize]
    refine ⟨env, { m₀ with shared := m₀.shared.setByte addr byte },
      hb.kept.write hheld₀ hl hu₀ byte, hb.lone, hb.entry, hb.owner, ?_, hb.held,
      hb.path.write rfl hb.entry hb.kept hb.lone hheld₀ hl hu₀ byte⟩
    show { m₀.shared.toState with mem := set m₀.shared.mem addr byte } = _
    rw [hb.pool]

theorem call (S : Serial B others m c) {th : Thread} (hidle : (m.threads t).pc = .idle)
    (K : Kept B others (m.move t m.shared th)) (hentry : th.pc.entry = none)
    (hheld : ∀ b ∈ th.held, b ∈ (m.threads t).held)
    (hlent : ∀ b, b ∈ (m.move t m.shared th).lent B t ↔ b ∈ m.lent B t) :
    Serial B others (m.move t m.shared th) c := by
  refine S.quiet K rfl
    (Machine.forall_move (fun u th => th.pc.entry = (m.threads u).pc.entry)
      (by rw [hentry, hidle]; rfl) fun _ _ => rfl)
    (Machine.forall_move
      (fun u th => (m.threads u).pc.entry ≠ none → th.pc = (m.threads u).pc)
      (fun hne => absurd (by rw [hidle]; rfl) hne) fun _ _ _ => rfl)
    (Machine.forall_move (fun u th => ∀ b ∈ th.held, b ∈ (m.threads u).held) hheld
      fun _ _ _ hb => hb)
    fun b => exists_congr fun u => ?_
  by_cases hu : u = t
  · subst hu
    exact hlent b
  · have hth : (m.move t m.shared th).threads u = m.threads u := Function.update_of_ne hu _ _
    simp only [Machine.lent, Machine.passed, hth]
    rfl

/-! ### Instructions -/

/-- What an instruction leaves to show when the pools are the same after it. -/
theorem settled_instr (S : Serial B others m c)
    (K : Kept B others (m.move t o.shared ((m.threads t).after o)))
    (h : instr B t answer m.shared (m.threads t).pc = some o)
    (I : ∃ free, PoolInv B c'.pool others free c'.held)
    (hheld : ∀ b, b ∈ c'.held ↔ ∃ u, b ∈ (m.move t o.shared ((m.threads t).after o)).lent B u)
    (hpool : c'.pool = o.shared.toState) (hself : o.pc.entry = none)
    (hother : ∀ u ≠ t, (m.threads u).pc.entry = none) :
    Serial B others (m.move t o.shared ((m.threads t).after o)) c' := by
  exact .settle K ((instr_mutex h).trans S.unlocked) I hheld hpool
    (Machine.forall_move (fun _ th => th.pc.entry = none) hself hother)

theorem release (S : Serial B others m c)
    (K : Kept B others (m.move t o.shared ((m.threads t).after o)))
    (hH : Honest B m (.instr t answer) (m.move t o.shared ((m.threads t).after o)))
    (h : instr B t answer m.shared (m.threads t).pc = some o)
    (hpc : (m.threads t).pc = .unlockPush) (hs : o.shared = m.shared.setOwner none)
    (ho : o.pc = .idle) (hret : o.returned = 0) :
    Serial B others (m.move t o.shared ((m.threads t).after o)) c := by
  have hother : ∀ u ≠ t, (m.threads u).pc.entry = none :=
    fun u hu => S.entry_other (by rw [hpc]; rfl) hu
  have hpool : c.pool = m.shared.toState := by
    refine S.settled fun u => ?_
    by_cases hu : u = t
    · rw [hu, hpc]
      rfl
    · exact hother u hu
  refine S.settled_instr K h S.inv (fun b => (S.held b).trans ?_) (by rw [hpool, hs]; rfl)
    (by rw [ho]; rfl) hother
  rw [lent_instr S.kept hH h (by simp [hpc])]
  simp [Outcome.given, hret]

/-- The release of the mutex by `pop_head`: the allocation takes effect. -/
theorem alloc (S : Serial B others m c) (hts : B.threadSafety = .mutex)
    (K : Kept B others (m.move t o.shared ((m.threads t).after o)))
    (hH : Honest B m (.instr t answer) (m.move t o.shared ((m.threads t).after o)))
    (h : instr B t answer m.shared (m.threads t).pc = some o)
    (hpc : (m.threads t).pc = .unlock block) (hs : o.shared = m.shared.setOwner none)
    (ho : o.pc = .idle) (hret : o.returned = block) :
    ∃ env grown c', Client.Step B c (.alloc env block grown) c' ∧
      Serial B others (m.move t o.shared ((m.threads t).after o)) c' := by
  obtain ⟨env, m₀, hb⟩ := S.begun t .lock (by rw [hpc]; rfl)
  have hpop : popUnlocked B env c.pool = (block, m.shared.toState) := by
    rw [← hb.pool]
    exact Alone.popped hb.kept.inv.linked hb.owner (by rw [← hpc]; exact hb.path)
  have hstep := Client.Step.alloc (memoryPoolAlloc_mutex hts hpop S.unlocked) (c := c)
  obtain ⟨free, I⟩ := S.inv
  obtain ⟨d, free', I', -⟩ := Client.refines I hstep ⟨trivial, Or.inr trivial⟩
  refine ⟨env, _, _, hstep, S.settled_instr K h ⟨free', I'⟩ (fun b => ?_) (by rw [hs]; rfl)
    (by rw [ho]; rfl) fun u hu => S.entry_other (by rw [hpc]; rfl) hu⟩
  rw [lent_instr S.kept hH h (by simp [hpc]), ← S.held b]
  unfold Outcome.given
  rw [hret]
  split <;> simp

/-- The store of a free into `head_`. -/
theorem free (S : Serial B others m c) (hts : B.threadSafety = .mutex)
    (K : Kept B others (m.move t o.shared ((m.threads t).after o)))
    (hH : Honest B m (.instr t answer) (m.move t o.shared ((m.threads t).after o)))
    (h : instr B t answer m.shared (m.threads t).pc = some o)
    (hpc : (m.threads t).pc = .storeBlock block) (hs : o.shared = m.shared.setHead block)
    (ho : o.pc = .unlockPush) :
    ∃ env c', Client.Step B c (.free env block) c' ∧ Client.Proper B c (.free env block) ∧
      Serial B others (m.move t o.shared ((m.threads t).after o)) c' := by
  obtain ⟨env, m₀, hb⟩ := S.begun t (.lockPush block) (by rw [hpc]; rfl)
  obtain ⟨free, I⟩ := S.inv
  obtain ⟨-, -, -, list, hlist⟩ := id S.kept
  have hslot : block ∈ m.shared.pool.slots B := hlist.owned_slot (t := t) (by
    rw [hpc]
    exact List.mem_cons_self ..)
  have hmine : block ∈ c.held := by
    refine (S.held block).mpr ⟨t, List.mem_append_left _ (mem_passed.mpr ⟨?_, hslot⟩)⟩
    rw [hpc]
    rfl
  have hpush : pushHead B env c.pool block = o.shared.toState := by
    rw [hs]
    refine pushHead_mutex hts ?_ S.unlocked
    rw [← hb.pool]
    exact Alone.pushed hb.owner (hpc ▸ hb.path)
  have hfree : memoryPoolFree B env (some c.pool) block = some o.shared.toState := by
    rw [memoryPoolFree_slot I.layout (I.held_slot hmine), hpush]
  have hproper : Client.Proper B c (.free env block) := ⟨trivial, Or.inl hmine⟩
  obtain ⟨d, free', I', -⟩ := Client.refines I (.free hfree) hproper.tolerated
  refine ⟨env, _, .free hfree, hproper, S.settled_instr K h ⟨free', I'⟩ (fun b => ?_) rfl
    (by rw [ho]; rfl) fun u hu => S.entry_other (by rw [hpc]; rfl) hu⟩
  have hnodup : c.held.Nodup := (List.nodup_append.mp I.nodup).2.1
  rw [lent_store S.kept hH h hpc, ← S.held b, hnodup.mem_erase_iff, and_comm]

/-- Outside the critical section, a rejection apart, which is a free the client sees ignored. -/
theorem outside (S : Serial B others m c)
    (K : Kept B others (m.move t o.shared ((m.threads t).after o)))
    (hH : Honest B m (.instr t answer) (m.move t o.shared ((m.threads t).after o)))
    (h : instr B t answer m.shared (m.threads t).pc = some o)
    (hc : (m.threads t).pc.critical = false) (hc' : o.pc.critical = false)
    (hs : o.shared = m.shared) (hret : o.returned = 0) :
    Serial B others (m.move t o.shared ((m.threads t).after o)) c := by
  have hafter : ((m.threads t).after o).held = (m.threads t).held := if_pos hret
  refine S.quiet K hs
    (Machine.forall_move (fun u th => th.pc.entry = (m.threads u).pc.entry)
      ((Pc.entry_outside hc').trans (Pc.entry_outside hc).symm) fun _ _ => rfl)
    (Machine.forall_move
      (fun u th => (m.threads u).pc.entry ≠ none → th.pc = (m.threads u).pc)
      (fun hne => absurd (Pc.entry_outside hc) hne) fun _ _ _ => rfl)
    (Machine.forall_move (fun u th => ∀ b ∈ th.held, b ∈ (m.threads u).held)
      (fun b hb => hafter ▸ hb) fun _ _ _ hb => hb)
    fun b => ?_
  rw [lent_instr S.kept hH h (by rintro b hst; rw [hst] at hc; cases hc)]
  simp [Outcome.given, hret]

/-- A thread gets the mutex. -/
theorem acquire (S : Serial B others m c)
    (K : Kept B others (m.move t o.shared ((m.threads t).after o)))
    (hH : Honest B m (.instr t answer) (m.move t o.shared ((m.threads t).after o)))
    (h : instr B t answer m.shared (m.threads t).pc = some o) (hfree : m.shared.owner = none)
    (hpc : (m.threads t).pc = .lock ∨ ∃ block, (m.threads t).pc = .lockPush block)
    (ho : o.pc.entry = some (m.threads t).pc) (hret : o.returned = 0) :
    Serial B others (m.move t o.shared ((m.threads t).after o)) c := by
  have hnone := S.entry_free hfree
  have hafter : (m.threads t).after o = ⟨o.pc, (m.threads t).held⟩ := by
    unfold Thread.after
    rw [if_pos hret]
  refine ⟨K, (instr_mutex h).trans S.unlocked, S.inv, fun b => (S.held b).trans ?_, ?_, ?_⟩
  · rw [lent_instr S.kept hH h (by rcases hpc with hpc | ⟨b, hpc⟩ <;> simp [hpc])]
    simp [Outcome.given, hret]
  · intro hall
    have ht := hall t
    simp only [Machine.move, Function.update_self, Thread.after] at ht
    rw [ht] at ho
    cases ho
  · intro u pc₀ he
    by_cases hu : u = t
    · subst hu
      obtain rfl : (m.threads u).pc = pc₀ := by
        simp only [Machine.move, Function.update_self, Thread.after] at he
        exact Option.some.inj (ho.symm.trans he)
      have hstart : Alone B ⟨none, none, 0⟩ u m.shared (m.threads u).pc m.shared
          (m.threads u).pc := .refl
      obtain ⟨env, hpath⟩ := hstart.extend h hret
      refine ⟨env, m.solo B u, S.kept.solo hfree, Lone.solo m u, by rw [Machine.solo_self], hfree,
        (S.settled hnone).symm, fun v b hb => ?_, ?_⟩
      · by_cases hv : v = u
        · subst hv
          simpa [Machine.solo_self, Machine.move, hafter] using hb
        · simp only [Machine.move, Function.update_of_ne hv] at hb
          rw [Machine.solo_other m hv]
          exact List.mem_append_right _ hb
      · show Alone B env u m.shared _ o.shared _
        simpa [Machine.move, Thread.after] using hpath
    · simp only [Machine.move, Function.update_of_ne hu, hnone u] at he
      cases he

/-- A thread goes on in its critical section. -/
theorem onward (S : Serial B others m c)
    (K : Kept B others (m.move t o.shared ((m.threads t).after o)))
    (hH : Honest B m (.instr t answer) (m.move t o.shared ((m.threads t).after o)))
    (h : instr B t answer m.shared (m.threads t).pc = some o)
    (hpc : (m.threads t).pc.entry = some pc₀) (ho : o.pc.entry = some pc₀)
    (hret : o.returned = 0) : Serial B others (m.move t o.shared ((m.threads t).after o)) c := by
  have hafter : (m.threads t).after o = ⟨o.pc, (m.threads t).held⟩ := by
    unfold Thread.after
    rw [if_pos hret]
  have hst : ∀ b, (m.threads t).pc ≠ .storeBlock b := by
    intro b hst
    rw [hst] at h
    cases h
    cases ho
  refine ⟨K, (instr_mutex h).trans S.unlocked, S.inv, fun b => (S.held b).trans ?_, ?_, ?_⟩
  · rw [lent_instr S.kept hH h hst]
    simp [Outcome.given, hret]
  · intro hall
    have ht := hall t
    simp only [Machine.move, Function.update_self, Thread.after] at ht
    rw [ht] at ho
    cases ho
  · intro u pc₁ he
    by_cases hu : u = t
    · subst hu
      obtain rfl : pc₀ = pc₁ := by
        simp only [Machine.move, Function.update_self, Thread.after] at he
        exact Option.some.inj (ho.symm.trans he)
      obtain ⟨env, m₀, hb⟩ := S.begun u pc₀ hpc
      obtain ⟨env', hpath⟩ := hb.path.extend h hret
      refine ⟨env', m₀, hb.kept, hb.lone, hb.entry, hb.owner, hb.pool, fun v b hv => ?_, ?_⟩
      · refine hb.held v b ?_
        by_cases hvu : v = u
        · subst hvu
          simpa [Machine.move, hafter] using hv
        · simpa [Machine.move, hvu] using hv
      · simpa [Machine.move, Thread.after] using hpath
    · simp only [Machine.move, Function.update_of_ne hu,
        S.entry_other (Pc.entry_critical hpc) hu] at he
      cases he

theorem instr (S : Serial B others m c) (hts : B.threadSafety = .mutex)
    (hH : Honest B m (.instr t answer) (m.move t o.shared ((m.threads t).after o)))
    (h : Mutex.instr B t answer m.shared (m.threads t).pc = some o) :
    ∃ ds c', List.Forall₂ Commit.Is (m.commit (.instr t answer)).toList ds ∧
      ((Client.lts B).guard (Client.Proper B)).Run c ds c' ∧
      Serial B others (m.move t o.shared ((m.threads t).after o)) c' := by
  have K : Kept B others (m.move t o.shared ((m.threads t).after o)) :=
    S.kept.of_run (.single ⟨hH, .instr h⟩)
  have hquiet : m.commit (.instr t answer) = none →
      Serial B others (m.move t o.shared ((m.threads t).after o)) c →
      ∃ ds c', List.Forall₂ Commit.Is (m.commit (.instr t answer)).toList ds ∧
        ((Client.lts B).guard (Client.Proper B)).Run c ds c' ∧
        Serial B others (m.move t o.shared ((m.threads t).after o)) c' := by
    intro hno S'
    rw [hno]
    exact ⟨[], c, .nil, .nil, S'⟩
  cases instr_move h with
  | outside hc hc' hs hret =>
    have S' := S.outside K hH h hc hc' hs hret
    by_cases hpc : ∃ block, (m.threads t).pc = .walkBacking block 0
    · obtain ⟨block, hpc⟩ := hpc
      obtain ⟨hstep, hproper⟩ := S.rejection hpc ⟨none, none, 0⟩
      refine ⟨[_], c, ?_, .single ⟨hproper, hstep⟩, S'⟩
      simp only [Machine.commit, hpc]
      exact .cons .free .nil
    · refine hquiet ?_ S'
      cases hp : (m.threads t).pc <;> rw [hp] at hc hpc <;> simp only [Machine.commit, hp]
      · cases hc
      · rename_i block chunk
        exact if_neg fun h0 => hpc ⟨block, by rw [h0]⟩
      · cases hc
  | acquire hfree hpc ho hret =>
    refine hquiet ?_ (S.acquire K hH h hfree hpc ho hret)
    rcases hpc with hpc | ⟨b, hpc⟩ <;> simp only [Machine.commit, hpc]
  | onward hpc ho hret =>
    refine hquiet ?_ (S.onward K hH h hpc ho hret)
    cases hp : (m.threads t).pc <;> rw [hp] at hpc h <;> simp only [Machine.commit, hp]
    · cases h
      cases ho
    · cases hpc
    · cases h
      cases ho
  | @refused block hpc ho =>
    -- what a thread frees is intact
    obtain ⟨-, -, -, free, I⟩ := id S.kept
    have hP := I.threads t
    rw [hpc] at hP h
    have hfreed := onFree_allocated (B := B) (w := m.shared.toWorld) (hP.2 hP.1)
    simp only [Mutex.instr, hfreed, Option.some.injEq] at h
    subst h
    cases ho
  | @alloc block hpc hs ho hret =>
    obtain ⟨env, grown, c', hstep, S'⟩ := S.alloc hts K hH h hpc hs ho hret
    refine ⟨[.alloc env block grown], c', ?_, .single ⟨⟨trivial, trivial⟩, hstep⟩, S'⟩
    simp only [Machine.commit, hpc]
    exact .cons .alloc .nil
  | @free block hpc hs ho hret =>
    obtain ⟨env, c', hstep, hproper, S'⟩ := S.free hts K hH h hpc hs ho
    refine ⟨[_], c', ?_, .single ⟨hproper, hstep⟩, S'⟩
    simp only [Machine.commit, hpc]
    exact .cons .free .nil
  | release hpc hs ho hret =>
    refine hquiet ?_ (S.release K hH h hpc hs ho hret)
    simp only [Machine.commit, hpc]

theorem step {e : Event τ} (S : Serial B others m c) (hts : B.threadSafety = .mutex)
    (h : ((lts B τ).restrict (Honest B)).step m e m') :
    ∃ ds c', List.Forall₂ Commit.Is (m.commit e).toList ds ∧
      ((Client.lts B).guard (Client.Proper B)).Run c ds c' ∧ Serial B others m' c' := by
  obtain ⟨hH, hs⟩ := h
  have K := S.kept.of_run (.single ⟨hH, hs⟩)
  cases hs with
  | @alloc t hidle =>
    refine ⟨[], c, .nil, .nil, S.call hidle K rfl (fun b hb => hb) fun b => ?_⟩
    simp [Machine.lent, Machine.passed, Machine.move, hidle, Pc.freeing]
  | @free t block hidle h0 =>
    refine ⟨[], c, .nil, .nil, S.call hidle K rfl (fun b hb => List.mem_of_mem_erase hb)
      fun b => ?_⟩
    obtain ⟨-, -, -, free, I⟩ := id S.kept
    have hok := hH.frees t block rfl
    by_cases hb : block ∈ m.shared.pool.slots B
    · have hperm := (List.perm_cons_erase (hok.resolve_right fun hno => hno hb)).mem_iff (a := b)
      simp only [mem_lent, Machine.move, Function.update_self, hidle, Pc.freeing, hperm,
        Option.some.injEq, List.mem_cons]
      constructor
      · rintro (⟨rfl, -⟩ | hb')
        · exact Or.inr (Or.inl rfl)
        · exact Or.inr (Or.inr hb')
      · rintro (⟨hf, -⟩ | rfl | hb')
        · cases hf
        · exact Or.inl ⟨rfl, hb⟩
        · exact Or.inr hb'
    · have hno : block ∉ (m.threads t).held := fun hh => hb (I.held_slot hh)
      simp only [mem_lent, Machine.move, Function.update_self, hidle, Pc.freeing,
        List.erase_of_not_mem hno, Option.some.injEq]
      constructor
      · rintro (⟨rfl, hb'⟩ | hb')
        · exact absurd hb' hb
        · exact Or.inr hb'
      · rintro (⟨hf, -⟩ | hb')
        · cases hf
        · exact Or.inr hb'
  | @write t block addr byte hheld hl hu =>
    obtain ⟨c', hstep, hproper, S'⟩ := S.write hheld hl hu byte
    exact ⟨[_], c', .cons .write .nil, .single ⟨hproper, hstep⟩, S'⟩
  | instr h => exact S.instr hts hH h

end Serial

end Serial

/-! ## A free that overlaps a growth, one call after the other -/

def execRecorded (B : Build) (m : Machine Bool) (e : Event Bool) :
    Option ((Event Bool × Option (Commit Bool)) × Machine Bool) :=
  (execHonest B m e).map fun r => ((e, m.commit e), r.2)

theorem execRecorded_step {B : Build} (m : Machine Bool) (i : Event Bool)
    (r : Event Bool × Option (Commit Bool)) (m' : Machine Bool)
    (h : execRecorded B m i = some (r, m')) : (recorded B Bool).step m r m' := by
  obtain ⟨⟨e, m₁⟩, he, hr⟩ := Option.map_eq_some_iff.mp h
  cases hr
  obtain ⟨h1, -⟩ := Option.filter_eq_some_iff.mp he
  have hs := execHonest_step m i e m₁ he
  rw [← exec_event h1] at hs
  exact ⟨hs, rfl⟩

/-- The free is called first and the block of the second chunk comes back last. -/
theorem overtaken_recorded : ∃ rs m,
    (recorded (Build.x64 false .mutex) Bool).Run growingMachine rs m ∧
      (rs.filterMap Prod.snd, m.shared.owner) =
        ([.alloc false 0x1000, .alloc false 0x2000, .alloc true 0x3000, .free false 0x2000],
          none) := by
  have h : (Lts.script (execRecorded (Build.x64 false .mutex)) growingMachine
      (overtakenFree ++ go false (List.replicate 5 none))).map
      (fun r => (r.1.filterMap Prod.snd, r.2.shared.owner)) =
      some ([.alloc false 0x1000, .alloc false 0x2000, .alloc true 0x3000, .free false 0x2000],
        none) := by decide +kernel
  obtain ⟨r, hr, hx⟩ := Option.map_eq_some_iff.mp h
  obtain ⟨m, hrun, rfl⟩ := Lts.script_run execRecorded_step id (by rw [hr]; rfl)
  exact ⟨r.1, _, hrun, hx⟩

end Mutex

section Theorems

open Mutex

/-- MUTEX build, fixed or dynamic pool, any number of threads that free what they hold or pointers
that are no slots, any interleaving. The calls that have taken effect, in the order in which they
did, and the writes between them are a run of the sequential client with the same results. What a
thread has called is what took effect of it, in its own order, and the call it is in. What the
client holds is what the threads hold or have passed to frees that have not taken effect, and
whenever nobody holds the mutex the pool is the client's. -/
theorem mutex_serializes {τ : Type*} [DecidableEq τ] {B : Build} {env : Env} {w w' : World}
    {call : CreateCall} {p : PoolStruct} (hts : B.threadSafety = .mutex) (hr : call.InRange B)
    (hcreate : call.run B env w = (some p, w')) :
    ∀ (rs : List (Event τ × Option (Commit τ))) m,
      (recorded B τ).Run (.start ⟨w', p⟩) rs m →
        (∀ t, rs.filterMap (fun r => r.1.op t) =
          rs.filterMap (fun r => r.2.bind (Commit.op t)) ++ (m.threads t).pc.op.toList) ∧
        ∃ ds c, ((Client.lts B).guard (Client.Proper B)).Run ⟨⟨w', p⟩, []⟩ ds c ∧
          List.Forall₂ Commit.Is (rs.filterMap Prod.snd) ds ∧
          (∀ b, b ∈ c.held ↔ ∃ t, b ∈ m.lent B t) ∧
          (m.shared.owner = none → c.pool = m.shared.toState) := by
  intro rs m hrun
  have C := CreateCall.created hr hcreate
  refine ⟨fun t => (Kept.start C.overflow C.inv).op_run hrun t rfl, ?_⟩
  obtain ⟨ds, c, hIs, hds, S⟩ :=
    hrun.project (R := Serial B w.heap.ledger.live) (f := Prod.snd) (A := Commit.Is)
      (M := (Client.lts B).guard (Client.Proper B)) (t := ⟨⟨w', p⟩, []⟩)
      (fun m r m' c S hs => by
        obtain ⟨hs, hr⟩ := hs
        rw [hr]
        exact S.step hts hs)
      (.start C.overflow C.inv)
  exact ⟨ds, c, hds, hIs, S.held, fun ho => S.settled (S.entry_free ho)⟩

theorem mutex_serializes_x64 : ∃ rs m ds c,
    (recorded (Build.x64 false .mutex) Bool).Run growingMachine rs m ∧
      ((Client.lts (Build.x64 false .mutex)).guard
        (Client.Proper (Build.x64 false .mutex))).Run (firstClient (Build.x64 false .mutex)) ds c ∧
      List.Forall₂ Commit.Is
        [.alloc false 0x1000, .alloc false 0x2000, .alloc true 0x3000, .free false 0x2000] ds ∧
      c.pool = m.shared.toState := by
  obtain ⟨rs, m, hrun, hm⟩ := overtaken_recorded
  obtain ⟨hcommits, ho⟩ : _ ∧ _ := by simpa using hm
  have hcreate : firstCall.run (Build.x64 false .mutex) firstEnv World.start =
      (some firstPool, (firstClient (Build.x64 false .mutex)).pool.toWorld) :=
    firstCall_run false .mutex (by decide)
  obtain ⟨-, ds, c, hds, hIs, -, hpool⟩ := mutex_serializes rfl (by decide) hcreate rs m hrun
  rw [hcommits] at hIs
  exact ⟨rs, m, ds, c, hrun, hds, hIs, hpool ho⟩

end Theorems

end MemoryPool
