import MemoryPool.MutexMemory
import MemoryPool.MutexSerial
import MemoryPool.MutexVerdict
import MemoryPool.Neighbours

/-!
# MemoryPool.MutexHardened

The hardened `MUTEX` build whose threads free whatever they like, at any time: a block twice, the
block of another thread, a pointer that becomes a slot meanwhile. Under every interleaving it is the
hardened sequential pool (`Audit`).

* `Machine.effect`: where a call takes effect. A free does so at the store into `head_`, at the
  check that finds a double free, or where its walk loads `overflow_` if the pointer is no slot
  then.
* `Underway`: a critical section that has changed something, back to back from the pool the
  sequential client has. The machine it runs in is honest: its one thread has all that is out.
* `Audit.step`, `Owes.step`: the step lemmas, of the simulation and of the order of the calls.
-/

namespace MemoryPool

namespace Mutex

open ByteMem LinkedList

section Defs

variable {τ : Type*}

/-- The blocks that are out: those that allocations have returned and frees have not put back. -/
def Machine.out (m : Machine τ) (out : List Nat) : Event τ → List Nat
  | .instr t _ =>
    match (m.threads t).pc with
    | .unlock block => if block = 0 then out else block :: out
    | .storeBlock block => out.erase block
    | _ => out
  | _ => out

/-- Bytes are written into blocks that are out and that nobody is freeing. -/
def WritesOut (m : Machine τ) (out : List Nat) : Event τ → Prop
  | .write _ addr _ => ∃ block ∈ out, block ≤ addr ∧ addr < block + m.shared.pool.blockSize ∧
      ∀ u, (m.threads u).pc.freeing ≠ some block
  | _ => True

def Machine.effect (B : Build) (m : Machine τ) : Event τ → Option (Commit τ)
  | .instr t _ =>
    match (m.threads t).pc with
    | .unlock block => some (.alloc t block)
    | .storeBlock block => some (.free t block)
    | .onFree block =>
      if (MemoryPool.onFree B m.shared.toWorld block m.shared.pool.blockSize).1 then none
      else some (.free t block)
    | .walkOverflow block =>
      if block ∈ m.shared.pool.slots B then none else some (.free t block)
    | _ => none
  | .write t addr byte => some (.write t addr byte)
  | _ => none

/-- The threads and the blocks that are out, with what took effect by each event. -/
def audited (B : Build) (τ : Type*) [DecidableEq τ] :
    Lts (Machine τ × List Nat) (Event τ × Option (Commit τ)) where
  step x r y := (lts B τ).step x.1 r.1 y.1 ∧ WritesOut x.1 x.2 r.1 ∧ y.2 = x.1.out x.2 r.1 ∧
    r.2 = x.1.effect B r.1

/-- Where a thread that has changed something and has yet to take effect came into its critical
section. -/
def Pc.begun : Pc → Option Pc
  | .onFree _ => none
  | pc => pc.entry

end Defs

/-! ## One thread that has everything -/

section Lone

variable {τ : Type*} {B : Build} {env : Env} {t : τ} {s : Shared τ} {pc : Pc}
  {others : List (Nat × Region)} {free held : List Nat}

variable [DecidableEq τ]

def Machine.lone (s : Shared τ) (t : τ) (pc : Pc) (held : List Nat) : Machine τ :=
  ⟨s, fun u => if u = t then ⟨pc, held⟩ else ⟨.idle, []⟩⟩

theorem Machine.lone_self (s : Shared τ) (t : τ) (pc : Pc) (held : List Nat) :
    (Machine.lone s t pc held).threads t = ⟨pc, held⟩ := if_pos rfl

theorem Machine.lone_other {u : τ} (hu : u ≠ t) (s : Shared τ) (pc : Pc) (held : List Nat) :
    (Machine.lone s t pc held).threads u = ⟨.idle, []⟩ := if_neg hu

/-- A pool in good order, and a thread about to enter its critical section that has all that is
out. -/
theorem Kept.lone (L : Linked B s) (ho : s.owner = none)
    (hpc : pc = .lock ∨ ∃ block, pc = .lockPush block)
    (I : PoolInv B s.toState others free (inHand B s pc ++ held)) :
    Kept B others (Machine.lone s t pc held) := by
  have hcases : ∀ (P : Thread → Prop), P ⟨.idle, []⟩ → P ⟨pc, held⟩ →
      ∀ u, P ((Machine.lone s t pc held).threads u) := by
    intro P hidle ht u
    by_cases hu : u = t
    · subst hu
      rw [Machine.lone_self]
      exact ht
    · rw [Machine.lone_other hu]
      exact hidle
  have hout : pc.critical = false := by rcases hpc with rfl | ⟨b, rfl⟩ <;> rfl
  have howned : ∀ u, (Machine.lone s t pc held).owned B u =
      if u = t then inHand B s pc ++ held else [] := by
    intro u
    unfold Machine.owned
    by_cases hu : u = t
    · rw [if_pos hu, hu, Machine.lone_self]
      rfl
    · rw [if_neg hu, Machine.lone_other hu]
      rfl
  have hnd := List.nodup_append.mp I.nodup
  refine ⟨⟨fun u => ?_, L, ?_⟩, ⟨[], I.layout, ?_⟩, ?_, free, fun _ => I.chain, ?_, I.freed, ?_, ?_⟩
  · have hc := hcases (fun th => th.pc.critical = false) rfl hout u
    show _ ↔ s.owner = some u
    simp [hc, ho]
  · refine hcases (fun th => PcInv B s th.pc) trivial ?_
    rcases hpc with rfl | ⟨b, rfl⟩ <;> trivial
  · simp [PlacedFor, Machine.lone, ho]
  · refine hcases (fun th => ReadRight s th.pc ∧ ∀ b, th.pc.walking = some b →
      b ∈ s.pool.slots B → OnWay B s b th.pc) ⟨trivial, fun b hw => by cases hw⟩ ?_
    rcases hpc with rfl | ⟨b, rfl⟩ <;> exact ⟨trivial, fun b hw => by cases hw⟩
  · refine ⟨hnd.1, fun u => ?_, fun u a ha => ?_, fun u v a hu hv => ?_, fun a => ?_⟩
    · rw [howned]
      split
      · exact hnd.2.1
      · exact .nil
    · rw [howned]
      split
      · exact I.disjoint ha
      · exact List.not_mem_nil
    · rw [howned] at hu hv
      split at hu
      · split at hv
        · rename_i h1 h2
          rw [h1, h2]
        · cases hv
      · cases hu
    · refine I.slot_iff.trans (or_congr_right ?_)
      constructor
      · intro ha
        exact ⟨t, by rwa [howned, if_pos rfl]⟩
      · rintro ⟨u, hu⟩
        rw [howned] at hu
        split at hu
        · exact hu
        · cases hu
  · exact hcases (fun th => ∀ a ∈ th.held, StampedHeld B s.mem a s.pool.blockSize)
      (fun a ha => by cases ha) fun a ha => I.vended a (List.mem_append_right _ ha)
  · refine hcases (fun th => PcList B s free th.pc) trivial ?_
    rcases hpc with rfl | ⟨b, rfl⟩
    · trivial
    · exact I.vended b (List.mem_cons_self ..)

theorem Lone.lone (s : Shared τ) (t : τ) (pc : Pc) (held : List Nat) :
    Lone (Machine.lone s t pc held) t := by
  intro u hu
  rw [Machine.lone_other hu]

/-- A stretch of instructions, in the machine that it runs in. -/
theorem Alone.kept {s s' : Shared τ} {pc pc' : Pc} (h : Alone B env t s pc s' pc') :
    ∀ {m : Machine τ}, m.shared = s → (m.threads t).pc = pc → Kept B others m → Lone m t →
      ∃ m', m'.shared = s' ∧ (m'.threads t).pc = pc' ∧ Kept B others m' ∧
        m'.shared.reports = m.shared.reports := by
  induction h with
  | refl =>
    intro m hs hpc K _
    exact ⟨m, hs, hpc, K, rfl⟩
  | @cons s s' pc pc' o hi h0 _ ih =>
    intro m hs hpc K hlone
    subst hs hpc
    obtain ⟨m', hs', hpc', K', hr⟩ := ih (m := m.move t o.shared ((m.threads t).after o)) rfl
      (by simp [Machine.move, Thread.after]) (K.alone hlone hi)
      (fun u hu => by simpa [Machine.move, hu] using hlone u hu)
    exact ⟨m', hs', hpc', K', hr.trans (K.reports_instr hi)⟩

end Lone

/-! ## The simulation -/

section Audit

variable {τ : Type*} {B : Build} {t u : τ} {answer : Option Nat} {m m' m₀ : Machine τ}
  {o : Outcome τ} {others : List (Nat × Region)} {block : Nat} {pc pc₀ : Pc} {env : Env}
  {out out' : List Nat} {c c' : Client}

theorem Pc.begun_entry (h : pc.begun = some pc₀) : pc.entry = some pc₀ := by
  cases pc <;> first | exact h | cases h

theorem Machine.out_same (hu : ∀ block, (m.threads t).pc ≠ .unlock block)
    (hs : ∀ block, (m.threads t).pc ≠ .storeBlock block) :
    m.out out (.instr t answer) = out := by
  cases hpc : (m.threads t).pc <;> simp only [Machine.out, hpc]
  · exact absurd hpc (hu _)
  · exact absurd hpc (hs _)

theorem instr_onFree {s : Shared τ} (h : instr B t answer s pc = some o)
    (hpc : o.pc = .onFree block) : pc = .lockPush block := by
  cases pc <;> simp only [instr] at h <;> (repeat' split at h) <;> cases h <;>
    simp_all [noGrowth]

/-- The critical section of `t`, back to back from the pool the client has. -/
structure Underway (B : Build) (others : List (Nat × Region)) (m : Machine τ) (c : Client) (t : τ)
    (pc₀ : Pc) (env : Env) (m₀ : Machine τ) : Prop where
  kept : Kept B others m₀
  lone : Lone m₀ t
  entry : (m₀.threads t).pc = pc₀
  owner : m₀.shared.owner = none
  pool : m₀.shared.toState = c.pool
  held : ∀ b ∈ c.held, pc₀ ≠ .lockPush b → b ∈ (m₀.threads t).held
  path : Alone B env t m₀.shared pc₀ m.shared (m.threads t).pc

/-- The sequential client that has made the calls that have taken effect. -/
structure Audit (B : Build) (others : List (Nat × Region)) (m : Machine τ) (out : List Nat)
    (c : Client) : Prop where
  decided : Decided B others m
  unlocked : m.shared.pool.mutex = false
  accepted : ∀ t block, (m.threads t).pc = .lockPush block ∨ (m.threads t).pc = .onFree block →
    block ∈ m.shared.pool.slots B
  inv : ∃ free, PoolInv B c.pool others free c.held
  held : c.held = out
  reports : m.shared.reports = c.pool.reports
  settled : (∀ t, (m.threads t).pc.begun = none) → c.pool = m.shared.toState
  begun : ∀ t pc₀, (m.threads t).pc.begun = some pc₀ → ∃ env m₀, Underway B others m c t pc₀ env m₀

namespace Audit

theorem start {s : State} {slots : List Nat} (hno : s.pool.overflow = [])
    (I : PoolInv B s others slots []) :
    Audit B others (Machine.start s : Machine τ) [] ⟨s, []⟩ := by
  refine ⟨.start hno I, I.unlocked, ?_, ⟨slots, I⟩, rfl, rfl, fun _ => rfl, ?_⟩
  · rintro t block (h | h) <;> cases h
  · intro t pc₀ h
    cases h

/-- Either a thread is on its way to its effect, or the pools are the same. -/
theorem cases_begun (A : Audit B others m out c) : c.pool = m.shared.toState ∨
    ∃ t pc₀ env m₀, (m.threads t).pc.begun = some pc₀ ∧ Underway B others m c t pc₀ env m₀ := by
  by_cases hnone : ∀ t, (m.threads t).pc.begun = none
  · exact Or.inl (A.settled hnone)
  · obtain ⟨t, ht⟩ := not_forall.mp hnone
    obtain ⟨pc₀, hpc⟩ := Option.ne_none_iff_exists'.mp ht
    obtain ⟨env, m₀, hU⟩ := A.begun t pc₀ hpc
    exact Or.inr ⟨t, pc₀, env, m₀, hpc, hU⟩

theorem slots (A : Audit B others m out c) {a : Nat} (ha : a ∈ c.pool.pool.slots B) :
    a ∈ m.shared.pool.slots B := by
  rcases A.cases_begun with hp | ⟨t, pc₀, env, m₀, -, hU⟩
  · rwa [hp] at ha
  · rw [← hU.pool] at ha
    exact hU.path.slots ha

theorem blockSize (A : Audit B others m out c) :
    c.pool.pool.blockSize = m.shared.pool.blockSize := by
  rcases A.cases_begun with hp | ⟨t, pc₀, env, m₀, -, hU⟩
  · rw [hp]
  · rw [← hU.pool, hU.path.blockSize]

/-- Only the thread that has the mutex can be on its way. -/
theorem begun_other (A : Audit B others m out c) (hc : (m.threads t).pc.critical = true)
    (hu : u ≠ t) : (m.threads u).pc.begun = none := by
  by_contra hb
  obtain ⟨pc₀, hpc⟩ := Option.ne_none_iff_exists'.mp hb
  have hcu := Pc.entry_critical (Pc.begun_entry hpc)
  have ht := (A.decided.inv.exclusive t).mp hc
  rw [(A.decided.inv.exclusive u).mp hcu] at ht
  exact hu (Option.some.inj ht)

theorem begun_free (A : Audit B others m out c) (ho : m.shared.owner = none) (u : τ) :
    (m.threads u).pc.begun = none := by
  by_contra hb
  obtain ⟨pc₀, hpc⟩ := Option.ne_none_iff_exists'.mp hb
  rw [(A.decided.inv.exclusive u).mp (Pc.entry_critical (Pc.begun_entry hpc))] at ho
  cases ho

/-- The pools are the same while the thread in the critical section has changed nothing. -/
theorem settled_at (A : Audit B others m out c) (hc : (m.threads t).pc.critical = true)
    (hb : (m.threads t).pc.begun = none) : c.pool = m.shared.toState := by
  refine A.settled fun u => ?_
  by_cases hu : u = t
  · rw [hu]
    exact hb
  · exact A.begun_other hc hu

/-- A step that does nothing to the pool. -/
theorem quiet (A : Audit B others m out c) (D : Decided B others m') (hs : m'.shared = m.shared)
    (hacc : ∀ u block, (m'.threads u).pc = .lockPush block ∨ (m'.threads u).pc = .onFree block →
      block ∈ m.shared.pool.slots B)
    (hbegun : ∀ u, (m'.threads u).pc.begun = (m.threads u).pc.begun)
    (hpc : ∀ u, (m.threads u).pc.begun ≠ none → (m'.threads u).pc = (m.threads u).pc) :
    Audit B others m' out c := by
  refine ⟨D, hs ▸ A.unlocked, hs ▸ hacc, A.inv, A.held, hs ▸ A.reports, ?_, ?_⟩
  · intro hnone
    rw [hs]
    exact A.settled fun u => by rw [← hbegun u, hnone u]
  · intro u pc₀ hu
    rw [hbegun u] at hu
    obtain ⟨env, m₀, hU⟩ := A.begun u pc₀ hu
    refine ⟨env, m₀, hU.kept, hU.lone, hU.entry, hU.owner, hU.pool, hU.held, ?_⟩
    rw [hs, hpc u (by simp [hu])]
    exact hU.path

theorem begun_freeing (h : pc.begun = some (.lockPush block)) : pc.freeing = some block := by
  cases pc <;> cases h <;> rfl

/-- A pointer that a free has been accepted with is free, or out. -/
theorem accepted_cases (A : Audit B others m out c) (hpc : (m.threads t).pc = .onFree block) :
    c.pool = m.shared.toState ∧ ∃ free, PoolInv B c.pool others free c.held ∧
      (block ∈ free ∨ block ∈ c.held) := by
  obtain ⟨free, I⟩ := A.inv
  have hpool := A.settled_at (t := t) (by rw [hpc]; rfl) (by rw [hpc]; rfl)
  refine ⟨hpool, free, I, I.slot_iff.mp ?_⟩
  rw [hpool]
  exact A.accepted t block (Or.inr hpc)

/-- A walk that has nothing to find: for the client the pointer is no block of the pool either. -/
theorem foreign (A : Audit B others m out c) (hno : block ∉ m.shared.pool.slots B) (env : Env) :
    Client.Step B c (.free env block) c := by
  obtain ⟨free, I⟩ := A.inv
  have hno' : block ∉ c.pool.pool.slots B := fun hb => hno (A.slots hb)
  have hheld : block ∉ c.held := fun hb => hno' (I.held_slot hb)
  have hstep := Client.Step.free (memoryPoolFree_foreign I.layout hno' env) (c := c)
  rwa [List.erase_of_not_mem hheld] at hstep

variable [DecidableEq τ]

theorem call (A : Audit B others m out c) {th : Thread} (hidle : (m.threads t).pc = .idle)
    (D : Decided B others (m.move t m.shared th)) (hth : th.pc = .lock ∨ th.pc.walking ≠ none) :
    Audit B others (m.move t m.shared th) out c := by
  have hpc : ∀ u, u ≠ t → ((m.move t m.shared th).threads u).pc = (m.threads u).pc := by
    intro u hu
    simp [Machine.move, hu]
  have hself : ((m.move t m.shared th).threads t).pc = th.pc := by simp [Machine.move]
  have hnone : th.pc.begun = none ∧ ∀ block, th.pc ≠ .lockPush block ∧ th.pc ≠ .onFree block := by
    cases hp : th.pc <;> rw [hp] at hth <;> simp [Pc.walking, Pc.begun, Pc.entry] at hth ⊢
  refine A.quiet D rfl (fun u block h => ?_) (fun u => ?_) fun u hne => ?_
  · by_cases hu : u = t
    · rw [hu, hself] at h
      exact absurd h (not_or.mpr (hnone.2 block))
    · rw [hpc u hu] at h
      exact A.accepted u block h
  · by_cases hu : u = t
    · rw [hu, hself, hnone.1, hidle]
      rfl
    · rw [hpc u hu]
  · by_cases hu : u = t
    · rw [hu, hidle] at hne
      exact absurd rfl hne
    · exact hpc u hu

theorem write (A : Audit B others m out c) {addr : Nat} {byte : UInt8}
    (D : Decided B others { m with shared := m.shared.setByte addr byte })
    (hw : WritesOut m out (.write t addr byte)) :
    ∃ c', Client.Step B c (.write addr byte) c' ∧ Client.OwnWrites c (.write addr byte) ∧
      Audit B others { m with shared := m.shared.setByte addr byte } out c' := by
  obtain ⟨block, hb, hl, hu, hno⟩ := hw
  obtain ⟨free, I⟩ := A.inv
  rw [← A.held] at hb
  have hu' : addr < block + c.pool.pool.blockSize := by rwa [A.blockSize]
  refine ⟨_, .write, ⟨block, hb, hl, hu'⟩, D, A.unlocked, A.accepted, ⟨free, I.write hb hl hu'⟩,
    A.held, A.reports, ?_, ?_⟩
  · intro hnone
    rw [A.settled hnone]
    rfl
  · intro v pc₀ hv
    obtain ⟨env, m₀, hU⟩ := A.begun v pc₀ hv
    have hheld₀ : block ∈ (m₀.threads v).held := by
      refine hU.held block hb ?_
      rintro rfl
      exact hno v (begun_freeing hv)
    have hu₀ : addr < block + m₀.shared.pool.blockSize := by rwa [← hU.path.blockSize]
    refine ⟨env, { m₀ with shared := m₀.shared.setByte addr byte },
      hU.kept.write hheld₀ hl hu₀ byte, hU.lone, hU.entry, hU.owner, ?_, hU.held,
      hU.path.write rfl hU.entry hU.kept hU.lone hheld₀ hl hu₀ byte⟩
    show { m₀.shared.toState with mem := set m₀.shared.mem addr byte } = _
    rw [hU.pool]

/-! ### Instructions -/

theorem accepted_instr (A : Audit B others m out c)
    (h : instr B t answer m.shared (m.threads t).pc = some o) :
    ∀ (u : τ) (block : Nat),
      ((m.move t o.shared ((m.threads t).after o)).threads u).pc = .lockPush block ∨
        ((m.move t o.shared ((m.threads t).after o)).threads u).pc = .onFree block →
      block ∈ o.shared.pool.slots B := by
  refine Machine.forall_move (fun _ th => ∀ block, th.pc = .lockPush block ∨ th.pc = .onFree block →
    block ∈ o.shared.pool.slots B) ?_ fun u _ block hpc => slots_step h (A.accepted u block hpc)
  rintro block (hpc | hpc)
  · obtain ⟨hb, hs⟩ := walk_accepts_slot A.decided.inv A.decided.placed (A.decided.right t) h hpc
    rwa [hs]
  · exact slots_step h (A.accepted t block (Or.inl (instr_onFree h hpc)))

/-- What an instruction leaves to show when the pools are the same after it. -/
theorem settle (A : Audit B others m out c)
    (h : instr B t answer m.shared (m.threads t).pc = some o)
    (I : ∃ free, PoolInv B c'.pool others free c'.held) (hheld : c'.held = out')
    (hpool : c'.pool = o.shared.toState) (hself : o.pc.begun = none)
    (hother : ∀ u ≠ t, (m.threads u).pc.begun = none) :
    Audit B others (m.move t o.shared ((m.threads t).after o)) out' c' := by
  have hnone : ∀ u, ((m.move t o.shared ((m.threads t).after o)).threads u).pc.begun = none :=
    Machine.forall_move (fun _ th => th.pc.begun = none) hself hother
  refine ⟨A.decided.step (.instr h), (instr_mutex h).trans A.unlocked, A.accepted_instr h, I, hheld,
    ?_, fun _ => hpool, fun u pc₀ hu => ?_⟩
  · rw [hpool]
    rfl
  · rw [hnone u] at hu
    cases hu

/-- An instruction after which its thread is on its way. -/
theorem advance (A : Audit B others m out c)
    (h : instr B t answer m.shared (m.threads t).pc = some o)
    (hother : ∀ u ≠ t, (m.threads u).pc.begun = none) (ho : o.pc.begun = some pc₀)
    (hU : ∃ env m₀,
      Underway B others (m.move t o.shared ((m.threads t).after o)) c t pc₀ env m₀) :
    Audit B others (m.move t o.shared ((m.threads t).after o)) out c := by
  have hself : ((m.move t o.shared ((m.threads t).after o)).threads t).pc = o.pc := by
    simp [Machine.move, Thread.after]
  refine ⟨A.decided.step (.instr h), (instr_mutex h).trans A.unlocked, A.accepted_instr h, A.inv,
    A.held, ?_, ?_, ?_⟩
  · obtain ⟨env, m₀, hU⟩ := hU
    obtain ⟨m₁, hs, -, -, hr⟩ := hU.path.kept rfl hU.entry hU.kept hU.lone
    rw [← hs, hr, ← hU.pool]
  · intro hnone
    have ht := hnone t
    rw [hself, ho] at ht
    cases ht
  · intro u pc₁ hu
    by_cases hut : u = t
    · subst hut
      rw [hself, ho] at hu
      cases hu
      exact hU
    · simp only [Machine.move, Function.update_of_ne hut, hother u hut] at hu
      cases hu

/-- A thread gets the mutex. -/
theorem acquire (A : Audit B others m out c) (hh : B.hardening = true)
    (h : instr B t answer m.shared (m.threads t).pc = some o) (ho : m.shared.owner = none)
    (hpc : (m.threads t).pc = .lock ∨ ∃ block, (m.threads t).pc = .lockPush block) :
    Audit B others (m.move t o.shared ((m.threads t).after o)) out c := by
  have hpool := A.settled (A.begun_free ho)
  obtain ⟨free, I⟩ := A.inv
  rcases hpc with hpc | ⟨block, hpc⟩
  · have K : Kept B others (Machine.lone m.shared t .lock c.held) :=
      .lone A.decided.inv.linked ho (Or.inl rfl) (by rw [← hpool]; exact I)
    have hone : o.pc.begun = some .lock ∧ o.returned = 0 := by
      rw [hpc] at h
      simp only [instr, ho] at h
      cases h
      exact ⟨rfl, rfl⟩
    refine A.advance h (fun u _ => A.begun_free ho u) hone.1
      ⟨⟨none, none, 0⟩, _, K, Lone.lone _ _ _ _, by rw [Machine.lone_self], ho, hpool.symm,
        fun b hb _ => ?_, ?_⟩
    · rwa [Machine.lone_self]
    · rw [hpc] at h
      simp only [Machine.move, Function.update_self, Thread.after]
      exact .cons h hone.2 .refl
  · -- the hook comes first: nothing has been changed yet
    refine A.settle h ⟨free, I⟩ A.held ?_ ?_ fun u _ => A.begun_free ho u
    all_goals
      rw [hpc] at h
      simp only [instr, ho, hh, if_true] at h
      cases h
    · exact hpool
    · rfl

/-- The hook finds a block that is out: the free begins. -/
theorem consent (A : Audit B others m out c) (hh : B.hardening = true)
    (h : instr B t answer m.shared (m.threads t).pc = some o)
    (hpc : (m.threads t).pc = .onFree block) (ho : o.pc = .pushHead block) :
    Audit B others (m.move t o.shared ((m.threads t).after o)) out c := by
  obtain ⟨hpool, free, I, hb⟩ := A.accepted_cases hpc
  have hb : block ∈ c.held := by
    refine hb.resolve_left fun hf => ?_
    obtain ⟨hg, hp⟩ := I.freed block hf hh
    rw [hpool] at hg hp
    rw [hpc] at h
    simp only [instr, onFree_freed hg hp, Option.some.injEq] at h
    subst h
    cases ho
  have hret : o.returned = 0 := by
    rw [hpc] at h
    cases h
    rfl
  have howner : m.shared.owner = some t := (A.decided.inv.exclusive t).mp (by rw [hpc]; rfl)
  have hback : (m.shared.setOwner none).setOwner (some t) = m.shared := by
    rw [← howner]
    rfl
  have K : Kept B others
      (Machine.lone (m.shared.setOwner none) t (.lockPush block) (c.held.erase block)) := by
    have I' := I.perm_held (List.perm_cons_erase hb)
    rw [hpool] at I'
    exact .lone (A.decided.inv.linked.same rfl rfl rfl rfl) rfl (Or.inr ⟨_, rfl⟩) I'
  refine A.advance h (fun u hu => A.begun_other (by rw [hpc]; rfl) hu) (by rw [ho]; rfl)
    ⟨⟨none, none, 0⟩, _, K, Lone.lone _ _ _ _, by rw [Machine.lone_self], rfl, hpool.symm,
      fun b hb' hne => ?_, ?_⟩
  · rw [Machine.lone_self]
    refine (List.mem_erase_of_ne ?_).mpr hb'
    rintro rfl
    exact hne rfl
  · rw [hpc] at h
    simp only [Machine.move, Function.update_self, Thread.after]
    refine .cons rfl rfl ?_
    show Alone B _ t ((m.shared.setOwner none).setOwner (some t))
      (if B.hardening then .onFree block else .pushHead block) _ _
    rw [hback, if_pos hh]
    exact .cons h hret .refl

/-- A thread goes on in its critical section. -/
theorem onward (A : Audit B others m out c) (hh : B.hardening = true)
    (h : instr B t answer m.shared (m.threads t).pc = some o)
    (hpc : (m.threads t).pc.entry = some pc₀) (ho : o.pc.entry = some pc₀)
    (hret : o.returned = 0) : Audit B others (m.move t o.shared ((m.threads t).after o)) out c := by
  by_cases hfree : ∃ block, (m.threads t).pc = .onFree block
  · obtain ⟨block, hfree⟩ := hfree
    refine A.consent hh h hfree ?_
    rw [hfree] at h hpc
    cases h
    cases hpc
    simp only at ho ⊢
    split at ho
    · rename_i hok
      rw [if_pos hok]
    · cases ho
  · have hbegun : (m.threads t).pc.begun = some pc₀ := by
      cases hp : (m.threads t).pc <;> rw [hp] at hpc hfree <;>
        first | exact hpc | exact absurd ⟨_, rfl⟩ hfree
    have ho' : o.pc.begun = some pc₀ := by
      cases hp : o.pc <;> rw [hp] at ho <;> first | exact ho | skip
      rw [instr_onFree h hp] at hpc
      cases hpc
    obtain ⟨env, m₀, hU⟩ := A.begun t pc₀ hbegun
    obtain ⟨env', hpath⟩ := hU.path.extend h hret
    refine A.advance h (fun u hu => A.begun_other (Pc.entry_critical hpc) hu) ho'
      ⟨env', m₀, hU.kept, hU.lone, hU.entry, hU.owner, hU.pool, hU.held, ?_⟩
    simpa [Machine.move, Thread.after] using hpath

/-- The hook finds a double free, for the client as for the thread. -/
theorem refused (A : Audit B others m out c) (hh : B.hardening = true)
    (h : instr B t answer m.shared (m.threads t).pc = some o)
    (hpc : (m.threads t).pc = .onFree block) (ho : o.pc = .unlockPush) (env : Env) :
    ∃ c', Client.Step B c (.free env block) c' ∧
      Audit B others (m.move t o.shared ((m.threads t).after o)) out c' := by
  obtain ⟨hpool, free, I, hb⟩ := A.accepted_cases hpc
  have hfree : block ∈ free := by
    refine hb.resolve_right fun hheld => ?_
    have hok := onFree_allocated (B := B) (w := c.pool.toWorld) (I.vended block hheld hh)
    rw [hpool] at hok
    rw [hpc] at h
    simp only [instr, hok, Option.some.injEq] at h
    subst h
    cases ho
  have hshared : c.pool.setWorld (c.pool.report .doubleFree block) = o.shared.toState := by
    obtain ⟨hg, hp⟩ := I.freed block hfree hh
    rw [hpool] at hg hp ⊢
    rw [hpc] at h
    simp only [instr, onFree_freed hg hp, Option.some.injEq] at h
    subst h
    rfl
  have hfreed : memoryPoolFree B env (some c.pool) block = some o.shared.toState := by
    rw [memoryPoolFree_slot I.layout (I.free_slot hfree), pushHead_freed I hh hfree, hshared]
  obtain ⟨d, free', I', -⟩ := Client.refines I (.free hfreed) ⟨trivial, Or.inl hh⟩
  refine ⟨_, .free hfreed, A.settle h ⟨free', I'⟩ ?_ rfl (by rw [ho]; rfl) fun u hu =>
    A.begun_other (by rw [hpc]; rfl) hu⟩
  exact (List.erase_of_not_mem (I.disjoint hfree)).trans A.held

/-- The release of the mutex by `pop_head`: the allocation takes effect. -/
theorem alloc (A : Audit B others m out c) (hts : B.threadSafety = .mutex)
    (hh : B.hardening = true) (h : instr B t answer m.shared (m.threads t).pc = some o)
    (hpc : (m.threads t).pc = .unlock block) (hs : o.shared = m.shared.setOwner none)
    (ho : o.pc = .idle) :
    ∃ env grown c', Client.Step B c (.alloc env block grown) c' ∧
      Audit B others (m.move t o.shared ((m.threads t).after o))
        (if block = 0 then out else block :: out) c' := by
  obtain ⟨env, m₀, hU⟩ := A.begun t .lock (by rw [hpc]; rfl)
  have hpop : popUnlocked B env c.pool = (block, m.shared.toState) := by
    rw [← hU.pool]
    exact Alone.popped hU.kept.inv.linked hU.owner (by rw [← hpc]; exact hU.path)
  have hstep := Client.Step.alloc (memoryPoolAlloc_mutex hts hpop A.unlocked) (c := c)
  obtain ⟨free, I⟩ := A.inv
  obtain ⟨d, free', I', -⟩ := Client.refines I hstep ⟨trivial, Or.inl hh⟩
  refine ⟨env, _, _, hstep, A.settle h ⟨free', I'⟩ ?_ (by rw [hs]; rfl) (by rw [ho]; rfl)
    fun u hu => A.begun_other (by rw [hpc]; rfl) hu⟩
  simp only [A.held]

/-- The store of a free into `head_`. -/
theorem free (A : Audit B others m out c) (hts : B.threadSafety = .mutex)
    (hh : B.hardening = true) (h : instr B t answer m.shared (m.threads t).pc = some o)
    (hpc : (m.threads t).pc = .storeBlock block) (hs : o.shared = m.shared.setHead block)
    (ho : o.pc = .unlockPush) :
    ∃ env c', Client.Step B c (.free env block) c' ∧
      Audit B others (m.move t o.shared ((m.threads t).after o)) (out.erase block) c' := by
  obtain ⟨env, m₀, hU⟩ := A.begun t (.lockPush block) (by rw [hpc]; rfl)
  obtain ⟨free, I⟩ := A.inv
  have hslot : block ∈ c.pool.pool.slots B := by
    obtain ⟨-, -, -, list, hlist⟩ := id hU.kept
    rw [← hU.pool]
    refine hlist.owned_slot (t := t) ?_
    rw [hU.entry]
    exact List.mem_cons_self ..
  have hpush : pushHead B env c.pool block = o.shared.toState := by
    rw [hs]
    refine pushHead_mutex hts ?_ A.unlocked
    rw [← hU.pool]
    exact Alone.pushed hU.owner (hpc ▸ hU.path)
  have hfree : memoryPoolFree B env (some c.pool) block = some o.shared.toState := by
    rw [memoryPoolFree_slot I.layout hslot, hpush]
  obtain ⟨d, free', I', -⟩ := Client.refines I (.free hfree) ⟨trivial, Or.inl hh⟩
  refine ⟨env, _, .free hfree, A.settle h ⟨free', I'⟩ ?_ rfl (by rw [ho]; rfl) fun u hu =>
    A.begun_other (by rw [hpc]; rfl) hu⟩
  rw [A.held]

theorem release (A : Audit B others m out c)
    (h : instr B t answer m.shared (m.threads t).pc = some o)
    (hpc : (m.threads t).pc = .unlockPush) (hs : o.shared = m.shared.setOwner none)
    (ho : o.pc = .idle) : Audit B others (m.move t o.shared ((m.threads t).after o)) out c := by
  have hpool := A.settled_at (t := t) (by rw [hpc]; rfl) (by rw [hpc]; rfl)
  exact A.settle h A.inv A.held (by rw [hpool, hs]; rfl) (by rw [ho]; rfl) fun u hu =>
    A.begun_other (by rw [hpc]; rfl) hu

theorem outside (A : Audit B others m out c)
    (h : instr B t answer m.shared (m.threads t).pc = some o)
    (hc : (m.threads t).pc.critical = false) (hc' : o.pc.critical = false)
    (hs : o.shared = m.shared) :
    Audit B others (m.move t o.shared ((m.threads t).after o)) out c := by
  have hnone : ∀ {pc : Pc}, pc.critical = false → pc.begun = none := by
    intro pc hpc
    cases pc <;> first | rfl | cases hpc
  exact A.quiet (A.decided.step (.instr h)) hs (fun u b hu => hs ▸ A.accepted_instr h u b hu)
    (Machine.forall_move (fun u th => th.pc.begun = (m.threads u).pc.begun)
      ((hnone hc').trans (hnone hc).symm) fun _ _ => rfl)
    (Machine.forall_move
      (fun u th => (m.threads u).pc.begun ≠ none → th.pc = (m.threads u).pc)
      (fun hne => absurd (hnone hc) hne) fun _ _ _ => rfl)

theorem instr (A : Audit B others m out c) (hts : B.threadSafety = .mutex)
    (hh : B.hardening = true) (h : Mutex.instr B t answer m.shared (m.threads t).pc = some o) :
    ∃ ds c', List.Forall₂ Commit.Is (m.effect B (.instr t answer)).toList ds ∧
      ((Client.lts B).guard Client.OwnWrites).Run c ds c' ∧
      Audit B others (m.move t o.shared ((m.threads t).after o)) (m.out out (.instr t answer))
        c' := by
  have hquiet : m.effect B (.instr t answer) = none → m.out out (.instr t answer) = out →
      Audit B others (m.move t o.shared ((m.threads t).after o)) out c →
      ∃ ds c', List.Forall₂ Commit.Is (m.effect B (.instr t answer)).toList ds ∧
        ((Client.lts B).guard Client.OwnWrites).Run c ds c' ∧
        Audit B others (m.move t o.shared ((m.threads t).after o)) (m.out out (.instr t answer))
          c' := by
    intro hno hout A'
    rw [hno, hout]
    exact ⟨[], c, .nil, .nil, A'⟩
  cases instr_move h with
  | outside hc hc' hs hret =>
    have A' := A.outside h hc hc' hs
    have hout : m.out out (.instr t answer) = out := by
      refine Machine.out_same (fun b hp => ?_) fun b hp => ?_ <;> rw [hp] at hc <;> cases hc
    by_cases hpc : ∃ block, (m.threads t).pc = .walkOverflow block ∧
        block ∉ m.shared.pool.slots B
    · obtain ⟨block, hpc, hno⟩ := hpc
      rw [hout]
      refine ⟨[.free ⟨none, none, 0⟩ block], c, ?_, .single ⟨trivial, A.foreign hno _⟩, A'⟩
      simp only [Machine.effect, hpc, if_neg hno]
      exact .cons .free .nil
    · refine hquiet ?_ hout A'
      cases hp : (m.threads t).pc <;> rw [hp] at hc <;> simp only [Machine.effect, hp]
      · cases hc
      · exact if_pos (not_not.mp fun hno => hpc ⟨_, hp, hno⟩)
      · cases hc
      · cases hc
  | acquire hfree hpc ho hret =>
    have A' := A.acquire hh h hfree hpc
    rcases hpc with hpc | ⟨b, hpc⟩
    · exact hquiet (by simp only [Machine.effect, hpc]) (by simp only [Machine.out, hpc]) A'
    · exact hquiet (by simp only [Machine.effect, hpc]) (by simp only [Machine.out, hpc]) A'
  | onward hpc ho hret =>
    refine hquiet ?_ ?_ (A.onward hh h hpc ho hret)
    · cases hp : (m.threads t).pc <;> rw [hp] at hpc h <;> simp only [Machine.effect, hp]
      · cases h
        cases ho
      · cases hpc
      · cases h
        cases hpc
        refine if_pos ?_
        by_contra hno
        rw [if_neg hno] at ho
        cases ho
      · cases h
        cases ho
    · refine Machine.out_same (fun b hp => ?_) fun b hp => ?_ <;> rw [hp] at h <;> cases h <;>
        cases ho
  | @refused block hpc ho =>
    obtain ⟨c', hstep, A'⟩ := A.refused hh h hpc ho ⟨none, none, 0⟩
    have hno : (MemoryPool.onFree B m.shared.toWorld block m.shared.pool.blockSize).1 = false := by
      rw [hpc] at h
      cases h
      simpa using ho
    refine ⟨[.free ⟨none, none, 0⟩ block], c', ?_, .single ⟨trivial, hstep⟩, ?_⟩
    · simp only [Machine.effect, hpc, hno, Bool.false_eq_true, if_false]
      exact .cons .free .nil
    · simp only [Machine.out, hpc]
      exact A'
  | @alloc block hpc hs ho hret =>
    obtain ⟨env, grown, c', hstep, A'⟩ := A.alloc hts hh h hpc hs ho
    refine ⟨[.alloc env block grown], c', ?_, .single ⟨trivial, hstep⟩, ?_⟩
    · simp only [Machine.effect, hpc]
      exact .cons .alloc .nil
    · simp only [Machine.out, hpc]
      exact A'
  | @free block hpc hs ho hret =>
    obtain ⟨env, c', hstep, A'⟩ := A.free hts hh h hpc hs ho
    refine ⟨[.free env block], c', ?_, .single ⟨trivial, hstep⟩, ?_⟩
    · simp only [Machine.effect, hpc]
      exact .cons .free .nil
    · simp only [Machine.out, hpc]
      exact A'
  | release hpc hs ho hret =>
    refine hquiet ?_ ?_ (A.release h hpc hs ho)
    · simp only [Machine.effect, hpc]
    · simp only [Machine.out, hpc]

theorem step {e : Event τ} (A : Audit B others m out c) (hts : B.threadSafety = .mutex)
    (hh : B.hardening = true) (h : Step B m e m') (hw : WritesOut m out e) :
    ∃ ds c', List.Forall₂ Commit.Is (m.effect B e).toList ds ∧
      ((Client.lts B).guard Client.OwnWrites).Run c ds c' ∧
      Audit B others m' (m.out out e) c' := by
  have D := A.decided.step h
  cases h with
  | alloc hidle => exact ⟨[], c, .nil, .nil, A.call hidle D (Or.inl rfl)⟩
  | free hidle _ => exact ⟨[], c, .nil, .nil, A.call hidle D (Or.inr (by simp [Pc.walking]))⟩
  | @write t block addr byte _ _ _ =>
    obtain ⟨c', hstep, hown, A'⟩ := A.write D hw
    exact ⟨[.write addr byte], c', .cons .write .nil, .single ⟨hown, hstep⟩, A'⟩
  | instr h => exact A.instr hts hh h

end Audit

end Audit

/-! ## The order of the calls -/

section Order

variable {τ : Type*} {B : Build} {t u : τ} {answer : Option Nat} {m m' : Machine τ}
  {o : Outcome τ} {others : List (Nat × Region)} {block : Nat} {e : Event τ} {l : Option Op}

/-- The call of a thread that has yet to take effect. A walk that is past the load of `overflow_`
with nothing to find has none. -/
def Owes (B : Build) (s : Shared τ) (pc : Pc) (l : Option Op) : Prop :=
  match pc.walking with
  | some block => OnWay B s block pc ∧ l = pc.op ∨ Past B s block pc ∧ l = none
  | none => l = pc.op

theorem Owes.walks {s : Shared τ} {pc : Pc} (hw : pc.walking = some block) : Owes B s pc l ↔
    OnWay B s block pc ∧ l = some (.free block) ∨ Past B s block pc ∧ l = none := by
  cases pc <;> cases hw <;> rfl

theorem Owes.settled {s : Shared τ} {pc : Pc} (hw : pc.walking = none) :
    Owes B s pc l ↔ l = pc.op := by
  unfold Owes
  rw [hw]

theorem effect_walks (hw : (m.threads t).pc.walking = some block) :
    m.effect B (.instr t answer) =
      if (m.threads t).pc = .walkOverflow block ∧ block ∉ m.shared.pool.slots B then
        some (.free t block) else none := by
  cases hpc : (m.threads t).pc <;> rw [hpc] at hw <;> cases hw <;>
    simp [Machine.effect, hpc]

/-- What the other threads do leaves a thread the call it has yet to make good. -/
theorem Owes.other (D : Decided B others m)
    (h : instr B u answer m.shared (m.threads u).pc = some o)
    (ho : Owes B m.shared (m.threads t).pc l) : Owes B o.shared (m.threads t).pc l := by
  cases hw : (m.threads t).pc.walking with
  | none => exact (Owes.settled hw).mpr ((Owes.settled hw).mp ho)
  | some block =>
    refine (Owes.walks hw).mpr (((Owes.walks hw).mp ho).imp ?_ ?_)
    · exact And.imp_left fun hway => hway.other (D.inv.threads t) (D.inv.threads u) h
    · exact And.imp_left fun hpast => hpast.other (D.inv.threads t) (D.inv.threads u) h

variable [DecidableEq τ]

theorem effect_other (hu : u ≠ t) :
    (m.effect B (.instr t answer)).bind (Commit.op u) = none := by
  simp only [Machine.effect]
  split
  · exact if_neg hu.symm
  · exact if_neg hu.symm
  · split
    · rfl
    · exact if_neg hu.symm
  · split
    · rfl
    · exact if_neg hu.symm
  · rfl

/-- An instruction outside the walks: the call goes on, or takes effect. -/
theorem op_instr (hw : (m.threads t).pc.walking = none)
    (h : instr B t answer m.shared (m.threads t).pc = some o) :
    (m.threads t).pc.op.toList =
      ((m.effect B (.instr t answer)).bind (Commit.op t)).toList ++ o.pc.op.toList := by
  cases hpc : (m.threads t).pc <;> rw [hpc] at h hw
  case onFree block =>
    simp only [instr, Option.some.injEq] at h
    subst h
    simp only [Machine.effect, hpc]
    cases (MemoryPool.onFree B m.shared.toWorld block m.shared.pool.blockSize).1 <;>
      simp [Pc.op, Pc.freeing, Commit.op]
  all_goals
    simp only [instr] at h
    (repeat' split at h) <;> cases h <;> simp only [Machine.effect, hpc] <;>
      first | cases hw; done | simp [Pc.op, Pc.freeing, Commit.op, noGrowth, *]

theorem Owes.instr (D : Decided B others m)
    (h : Mutex.instr B t answer m.shared (m.threads t).pc = some o)
    (ho : Owes B m.shared (m.threads t).pc l) :
    ∃ l', Owes B o.shared o.pc l' ∧
      l.toList = ((m.effect B (.instr t answer)).bind (Commit.op t)).toList ++ l'.toList := by
  obtain ⟨pend, L, -⟩ := D.placed
  cases hw : (m.threads t).pc.walking with
  | none =>
    obtain rfl := (Owes.settled hw).mp ho
    have hw' : o.pc.walking = none := by
      by_contra hne
      obtain ⟨b, hb⟩ := Option.ne_none_iff_exists'.mp hne
      rw [instr_walking h hb] at hw
      cases hw
    exact ⟨_, (Owes.settled hw').mpr rfl, op_instr hw h⟩
  | some block =>
    rw [effect_walks hw]
    rcases (Owes.walks hw).mp ho with ⟨hway, rfl⟩ | ⟨hpast, rfl⟩
    · rcases instr_verdict L D.inv.linked (D.right t) hw hway h with
        ⟨hb, hl⟩ | ⟨hw', hon, hb⟩ | ⟨hov, hno, hw', hp⟩
      · refine ⟨some (.free block), ?_, ?_⟩
        · rw [hl]
          rfl
        · rw [if_neg fun hn => hn.2 hb]
          rfl
      · refine ⟨_, (Owes.walks hw').mpr (Or.inl ⟨hon, rfl⟩), ?_⟩
        rw [if_neg fun hn => hn.2 (hb hn.1)]
        rfl
      · refine ⟨none, (Owes.walks hw').mpr (Or.inr ⟨hp, rfl⟩), ?_⟩
        rw [if_pos ⟨hov, hno⟩]
        simp [Commit.op]
    · have hov : ¬((m.threads t).pc = .walkOverflow block ∧ block ∉ m.shared.pool.slots B) := by
        rintro ⟨hov, -⟩
        rw [hov] at hpast
        exact hpast
      rw [if_neg hov]
      refine ⟨none, ?_, rfl⟩
      rcases instr_past L D.inv.linked (D.right t) hw hpast h with hl | ⟨hw', hp⟩
      · rw [hl]
        rfl
      · exact (Owes.walks hw').mpr (Or.inr ⟨hp, rfl⟩)

/-- What a thread has called is what took effect of it and the call that it owes. -/
theorem Owes.step (D : Decided B others m) (h : Step B m e m')
    (ho : Owes B m.shared (m.threads t).pc l) :
    ∃ l', Owes B m'.shared (m'.threads t).pc l' ∧
      l.toList ++ (e.op t).toList =
        ((m.effect B e).bind (Commit.op t)).toList ++ l'.toList := by
  cases h with
  | @alloc u hidle =>
    by_cases hu : t = u
    · subst hu
      rw [hidle] at ho
      obtain rfl : l = none := ho
      refine ⟨some .alloc, ?_, ?_⟩
      · simp [Machine.move, Owes, Pc.walking, Pc.op, Pc.freeing]
      · simp [Event.op, Machine.effect]
    · refine ⟨l, ?_, ?_⟩
      · simpa [Machine.move, hu] using ho
      · simp [Event.op, Machine.effect, Ne.symm hu]
  | @free u block hidle _ =>
    by_cases hu : t = u
    · subst hu
      rw [hidle] at ho
      obtain rfl : l = none := ho
      refine ⟨some (.free block), ?_, ?_⟩
      · simp [Machine.move, Owes, Pc.walking, OnWay, Pc.op, Pc.freeing]
      · simp [Event.op, Machine.effect]
    · refine ⟨l, ?_, ?_⟩
      · simpa [Machine.move, hu] using ho
      · simp [Event.op, Machine.effect, Ne.symm hu]
  | write _ _ _ => exact ⟨l, ho, by simp [Event.op, Machine.effect, Commit.op]⟩
  | @instr u answer o h =>
    by_cases hu : t = u
    · subst hu
      obtain ⟨l', ho', hl⟩ := Owes.instr D h ho
      refine ⟨l', ?_, ?_⟩
      · simpa [Machine.move, Thread.after] using ho'
      · simpa [Event.op] using hl
    · refine ⟨l, ?_, ?_⟩
      · simpa [Machine.move, hu] using Owes.other D h ho
      · rw [effect_other hu]
        simp [Event.op]

theorem Owes.run {x y : Machine τ × List Nat} {rs : List (Event τ × Option (Commit τ))}
    (D : Decided B others x.1) (h : (audited B τ).Run x rs y)
    (ho : Owes B x.1.shared (x.1.threads t).pc l) :
    ∃ l', Owes B y.1.shared (y.1.threads t).pc l' ∧
      l.toList ++ rs.filterMap (fun r => r.1.op t) =
        rs.filterMap (fun r => r.2.bind (Commit.op t)) ++ l'.toList := by
  induction h with
  | nil => exact ⟨l, ho, by simp⟩
  | @snoc z y rs r hrun hs ih =>
    obtain ⟨l₁, ho₁, h₁⟩ := ih
    have D' : Decided B others z.1 := by
      refine hrun.invariant (I := fun z => Decided B others z.1) ?_ D
      intro z r z' hd hs
      exact hd.step hs.1
    obtain ⟨l', ho', h'⟩ := Owes.step D' hs.1 ho₁
    refine ⟨l', ho', ?_⟩
    rw [List.filterMap_append, List.filterMap_append, Lts.filterMap_single, Lts.filterMap_single,
      hs.2.2.2, ← List.append_assoc, h₁, List.append_assoc, h', List.append_assoc]

end Order

/-! ## A pointer freed by two threads, and one that is no slot yet -/

instance (m : Machine Bool) (out : List Nat) (e : Event Bool) : Decidable (WritesOut m out e) :=
  match e with
  | .write _ addr _ => inferInstanceAs (Decidable (∃ block ∈ out, block ≤ addr ∧
      addr < block + m.shared.pool.blockSize ∧ ∀ u, (m.threads u).pc.freeing ≠ some block))
  | .alloc _ | .free _ _ | .instr _ _ => .isTrue trivial

/-- The machine executed, for threads that free anything. -/
def execAny (B : Build) (m : Machine Bool) : Event Bool → Option (Event Bool × Machine Bool)
  | .free t block =>
    if (m.threads t).pc = .idle ∧ block ≠ 0 then
      some (.free t block, m.move t m.shared ⟨.walkFirst block, (m.threads t).held.erase block⟩)
    else none
  | e => exec B m e

theorem execAny_step {B : Build} {m m' : Machine Bool} {i e : Event Bool}
    (h : execAny B m i = some (e, m')) : i = e ∧ Step B m e m' := by
  have hexec : ∀ {i : Event Bool}, exec B m i = some (e, m') → i = e ∧ Step B m e m' :=
    fun h => ⟨exec_event h, (exec_step m _ e m' h).2⟩
  cases i with
  | free t block =>
    simp only [execAny] at h
    split at h
    · rename_i hok
      cases h
      exact ⟨rfl, .free hok.1 hok.2⟩
    · cases h
  | _ => exact hexec h

def execAudited (B : Build) (x : Machine Bool × List Nat) (e : Event Bool) :
    Option ((Event Bool × Option (Commit Bool)) × (Machine Bool × List Nat)) :=
  if WritesOut x.1 x.2 e then
    (execAny B x.1 e).map fun r => ((e, x.1.effect B e), (r.2, x.1.out x.2 e))
  else none

theorem execAudited_step {B : Build} (x : Machine Bool × List Nat) (i : Event Bool)
    (r : Event Bool × Option (Commit Bool)) (y : Machine Bool × List Nat)
    (h : execAudited B x i = some (r, y)) : (audited B Bool).step x r y := by
  unfold execAudited at h
  split at h
  · rename_i hw
    obtain ⟨⟨e, m⟩, he, hr⟩ := Option.map_eq_some_iff.mp h
    cases hr
    obtain ⟨rfl, hs⟩ := execAny_step he
    exact ⟨hs, hw, rfl, rfl⟩
  · cases h

/-- One thread allocates. The other frees what is no slot yet: its walk passes `overflow_`, and then
the first thread grows the pool by a chunk there and gets that block. Both free the first block. -/
def doubleFree : List (Event Bool) :=
  .alloc false :: go false (List.replicate 7 none) ++ .write false 0x1004 7 ::
  .free true 0x2000 :: go true [none, none] ++
  .alloc false :: go false
    ([none, none, none, none, some 0x2000, some 0x200] ++ List.replicate 13 none) ++
  go true [none] ++
  .free false 0x1000 :: .free true 0x1000 :: go false [none] ++ go true (List.replicate 6 none) ++
  go true [none] ++ go false (List.replicate 3 none)

theorem doubleFree_audited : ∃ rs x,
    (audited (Build.x64 true .mutex) Bool).Run
      (.start (firstClient (Build.x64 true .mutex)).pool, []) rs x ∧
    (rs.filterMap Prod.snd, x.2, x.1.shared.reports, x.1.shared.owner) =
      ([.alloc false 0x1000, .write false 0x1004 7, .free true 0x2000, .alloc false 0x2000,
        .free true 0x1000, .free false 0x1000], [0x2000], [⟨.doubleFree, 0x1000⟩], none) := by
  have h : (Lts.script (execAudited (Build.x64 true .mutex))
      (.start (firstClient (Build.x64 true .mutex)).pool, []) doubleFree).map
      (fun r => (r.1.filterMap Prod.snd, r.2.2, r.2.1.shared.reports, r.2.1.shared.owner)) =
      some ([.alloc false 0x1000, .write false 0x1004 7, .free true 0x2000, .alloc false 0x2000,
        .free true 0x1000, .free false 0x1000], [0x2000], [⟨.doubleFree, 0x1000⟩], none) := by
    decide +kernel
  obtain ⟨r, hr, hx⟩ := Option.map_eq_some_iff.mp h
  obtain ⟨x, hrun, rfl⟩ := Lts.script_run execAudited_step id (by rw [hr]; rfl)
  exact ⟨r.1, _, hrun, hx⟩

end Mutex

section Theorems

open Mutex LinkedList

/-- Hardened MUTEX build, fixed or dynamic pool, any number of threads that free whatever pointers
they like as often as they like, any interleaving; they write into blocks that are out and that
nobody is freeing. The calls that have taken effect, in the order in which they did, and the writes
between them are a run of the hardened sequential client, with the same results and the same
violations reported. What a thread has called is what took effect of it, in its own order, and the
call it is in. Whenever nobody holds the mutex the pool is the client's, and each of its blocks is
either on the free list or out, once. -/
theorem mutex_fail_safe {τ : Type*} [DecidableEq τ] {B : Build} {env : Env} {w w' : World}
    {call : CreateCall} {p : PoolStruct} (hts : B.threadSafety = .mutex) (hh : B.hardening = true)
    (hr : call.InRange B) (hcreate : call.run B env w = (some p, w')) :
    ∀ (rs : List (Event τ × Option (Commit τ))) m out,
      (audited B τ).Run (.start ⟨w', p⟩, []) rs (m, out) →
        (∀ t, ∃ l, (l = (m.threads t).pc.op ∨ (l = none ∧ (m.threads t).pc.walking ≠ none)) ∧
          rs.filterMap (fun r => r.1.op t) =
            rs.filterMap (fun r => r.2.bind (Commit.op t)) ++ l.toList) ∧
        ∃ ds c, ((Client.lts B).guard Client.OwnWrites).Run ⟨⟨w', p⟩, []⟩ ds c ∧
          List.Forall₂ Commit.Is (rs.filterMap Prod.snd) ds ∧ c.held = out ∧
          m.shared.reports = c.pool.reports ∧
          (m.shared.owner = none → c.pool = m.shared.toState ∧
            ∃ free, Chain (revealNext B m.shared.mem) 0 m.shared.pool.head.ptr free ∧
              (free ++ out).Perm (m.shared.pool.slots B)) := by
  intro rs m out hrun
  have C := CreateCall.created hr hcreate
  refine ⟨fun t => ?_, ?_⟩
  · obtain ⟨l, ho, hl⟩ := Owes.run (.start C.overflow C.inv) hrun (t := t) (l := none) rfl
    refine ⟨l, ?_, by simpa using hl⟩
    cases hw : (m.threads t).pc.walking with
    | none => exact Or.inl ((Owes.settled hw).mp ho)
    | some block =>
      unfold Owes at ho
      rw [hw] at ho
      exact ho.imp And.right fun hp => ⟨hp.2, by simp⟩
  · obtain ⟨ds, c, hIs, hds, A⟩ :=
      hrun.project (R := fun x c => Audit B w.heap.ledger.live x.1 x.2 c) (f := Prod.snd)
        (A := Commit.Is) (M := (Client.lts B).guard Client.OwnWrites) (t := ⟨⟨w', p⟩, []⟩)
        (fun x r y c A hs => by
          obtain ⟨hstep, hw, hout, hr⟩ := hs
          rw [hout, hr]
          exact A.step hts hh hstep hw)
        (.start C.overflow C.inv)
    refine ⟨ds, c, hds, hIs, A.held, A.reports, fun ho => ?_⟩
    obtain ⟨free, I⟩ := A.inv
    have hpool := A.settled (A.begun_free ho)
    rw [hpool, A.held] at I
    exact ⟨hpool, free, I.chain, I.parts⟩

theorem mutex_fail_safe_x64 : ∃ rs x ds c,
    (audited (Build.x64 true .mutex) Bool).Run
      (.start (firstClient (Build.x64 true .mutex)).pool, []) rs x ∧
    ((Client.lts (Build.x64 true .mutex)).guard Client.OwnWrites).Run
      (firstClient (Build.x64 true .mutex)) ds c ∧
    List.Forall₂ Commit.Is
      [.alloc false 0x1000, .write false 0x1004 7, .free true 0x2000, .alloc false 0x2000,
        .free true 0x1000, .free false 0x1000] ds ∧
    c.held = [0x2000] ∧ c.pool.reports = [⟨.doubleFree, 0x1000⟩] ∧ c.pool = x.1.shared.toState := by
  obtain ⟨rs, ⟨m, out⟩, hrun, hx⟩ := doubleFree_audited
  obtain ⟨hcommits, rfl, hreports, ho⟩ : _ ∧ _ ∧ _ ∧ _ := by simpa using hx
  have hcreate : firstCall.run (Build.x64 true .mutex) firstEnv World.start =
      (some firstPool, (firstClient (Build.x64 true .mutex)).pool.toWorld) :=
    firstCall_run true .mutex (by decide)
  obtain ⟨-, ds, c, hds, hIs, hheld, hrep, hpool⟩ :=
    mutex_fail_safe rfl rfl (by decide) hcreate rs m _ hrun
  rw [hcommits] at hIs
  exact ⟨rs, _, ds, c, hrun, hds, hIs, hheld, hrep ▸ hreports, (hpool ho).1⟩

end Theorems

end MemoryPool
