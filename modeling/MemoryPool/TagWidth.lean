import MemoryPool.Linearize

/-!
# MemoryPool.TagWidth

How far the tag of `TaggedHead` protects `LockFreePolicy`. It is counted in `uintptr_t`, so after
`2 ^ width` successful compare-exchanges `head_` can be the value that a sleeping thread has in
`expected`. Fewer than that between the load of `head_` and the compare-exchange is what the list
relies on (`InWindow`); with as many it is lost, whatever the pool and the build.

* `Leads`: calls of one thread, step by step, and what they leave of the others.
* `cycle`, `cycles`: a pop and a push of the same block move the tag by two.
* `tag_width_exact`: two threads that keep to their blocks, and `head_` is any address one likes.
-/

namespace MemoryPool

namespace LockFree

open ByteMem LinkedList

variable {τ : Type*} [DecidableEq τ]

/-- The pool, the thread and the ghost count are as in `x`. -/
structure At (m : Machine τ) (t : τ) (s : State) (th : Thread) (cas : Nat) : Prop where
  pool : m.pool = s
  thread : m.threads t = th
  cas : m.cas = cas

def Event.thread : Event τ → τ
  | .call t _ | .instr t _ | .write t _ _ => t

/-- Steps of the thread alone, all in the window. -/
def Leads (B : Build) (t : τ) (s : State) (th : Thread) (cas : Nat) (s' : State) (th' : Thread)
    (cas' : Nat) : Prop :=
  ∀ m : Machine τ, At m t s th cas →
    ∃ es m', ((lts B τ).guard (InWindow B)).Run m es m' ∧ At m' t s' th' cas' ∧
      (∀ u, u ≠ t → m'.threads u = m.threads u) ∧ ∀ e ∈ es, e.thread = t

namespace Leads

variable {B : Build} {t : τ} {s s₁ s' : State} {th th₁ th' : Thread} {cas cas₁ cas' : Nat}

theorem refl : Leads B t s th cas s th cas := by
  intro m hm
  exact ⟨[], m, .nil, hm, fun _ _ => rfl, fun _ he => absurd he List.not_mem_nil⟩

/-- One step of the thread. -/
theorem single {e : Event τ} (ht : e.thread = t)
    (h : ∀ m : Machine τ, At m t s th cas → ∃ m', ((lts B τ).guard (InWindow B)).step m e m' ∧
      At m' t s' th' cas' ∧ ∀ u, u ≠ t → m'.threads u = m.threads u) :
    Leads B t s th cas s' th' cas' := by
  intro m hm
  obtain ⟨m', hstep, hm', hothers⟩ := h m hm
  exact ⟨[e], m', .single hstep, hm', hothers, fun d hd => List.mem_singleton.mp hd ▸ ht⟩

theorem trans (h : Leads B t s th cas s₁ th₁ cas₁) (h' : Leads B t s₁ th₁ cas₁ s' th' cas') :
    Leads B t s th cas s' th' cas' := by
  intro m hm
  obtain ⟨es, m₁, hrun, hm₁, hothers, hes⟩ := h m hm
  obtain ⟨es', m', hrun', hm', hothers', hes'⟩ := h' m₁ hm₁
  exact ⟨es ++ es', m', hrun.trans hrun', hm', fun u hu => (hothers' u hu).trans (hothers u hu),
    fun e he => (List.mem_append.mp he).elim (hes e) (hes' e)⟩

theorem instr {label : Label} {pc : Pc}
    (h : LockFree.instr B false s th.pc = some (label, s', pc))
    (hw : label.count cas ≠ cas → cas - th.snap < B.modulus) :
    Leads B t s th cas s' (th.after cas pc label) (label.count cas) := by
  refine single (e := .instr t label) rfl ?_
  rintro m ⟨rfl, rfl, rfl⟩
  refine ⟨_, ⟨?_, .instr h⟩, ⟨rfl, Function.update_self .., rfl⟩,
    fun u hu => Function.update_of_ne hu _ _⟩
  cases label with
  | cas op => exact hw (Nat.succ_ne_self _)
  | quiet => trivial
  | load => trivial
  | ret block => trivial

theorem quiet {pc : Pc} (h : LockFree.instr B false s th.pc = some (.quiet, s', pc)) :
    Leads B t s th cas s' { th with pc := pc } cas :=
  instr h fun hne => absurd rfl hne

theorem load {pc : Pc} (h : LockFree.instr B false s th.pc = some (.load, s', pc)) :
    Leads B t s th cas s' { th with pc := pc, snap := cas } cas :=
  instr h fun hne => absurd rfl hne

theorem compareExchange {pc : Pc} {op : StackOp Nat} (hw : cas - th.snap < B.modulus)
    (h : LockFree.instr B false s th.pc = some (.cas op, s', pc)) :
    Leads B t s th cas s' { th with pc := pc } (cas + 1) := instr h fun _ => hw

theorem ret {pc : Pc} {block : Nat} (h0 : block ≠ 0)
    (h : LockFree.instr B false s th.pc = some (.ret block, s', pc)) :
    Leads B t s th cas s' { th with pc := pc, held := block :: th.held } cas := by
  have hret : Leads B t s th cas s' (th.after cas pc (.ret block)) cas :=
    instr h fun hne => absurd rfl hne
  simpa [Thread.after, Label.count, h0] using hret

theorem callPop {held : List Nat} {snap : Nat} :
    Leads B t s ⟨.idle, held, snap⟩ cas s ⟨.popLoad, held, snap⟩ cas := by
  refine single (e := .call t .pop) rfl ?_
  rintro m ⟨rfl, hth, rfl⟩
  refine ⟨_, ⟨trivial, .pop (by rw [hth])⟩, ⟨rfl, ?_, rfl⟩,
    fun u hu => Function.update_of_ne hu _ _⟩
  simp [Machine.move, hth]

theorem callPush {held : List Nat} {snap block : Nat} (hheld : block ∈ held) :
    Leads B t s ⟨.idle, held, snap⟩ cas s
      ⟨if B.hardening then .freeGuard block else .pushLoad block, held.erase block, snap⟩ cas := by
  refine single (e := .call t (.push block)) rfl ?_
  rintro m ⟨rfl, hth, rfl⟩
  have hin : block ∈ (m.threads t).held := by
    rw [hth]
    exact hheld
  refine ⟨_, ⟨trivial, .push (by rw [hth]) hin⟩, ⟨rfl, ?_, rfl⟩,
    fun u hu => Function.update_of_ne hu _ _⟩
  simp [Machine.move, hth]

theorem write {block addr : Nat} {byte : UInt8} (hheld : block ∈ th.held) (hl : block ≤ addr)
    (hu : addr < block + s.pool.blockSize) :
    Leads B t s th cas { s with mem := set s.mem addr byte } th cas := by
  refine single (e := .write t addr byte) rfl ?_
  rintro m ⟨rfl, rfl, rfl⟩
  exact ⟨_, ⟨trivial, .write hheld hl hu⟩, ⟨rfl, rfl, rfl⟩, fun _ _ => rfl⟩

theorem allocHook (s : State) (block : Nat) (held : List Nat) (snap : Nat) :
    Leads B t s ⟨if B.hardening then .allocGuard block else .popRet block, held, snap⟩ cas
      (s.onAllocHook B block) ⟨.popRet block, held, snap⟩ cas := by
  unfold State.onAllocHook
  cases hh : B.hardening with
  | false => exact refl
  | true =>
    refine (quiet rfl).trans ((quiet rfl).trans ((quiet rfl).trans ?_))
    simp only [if_true, onAlloc]
    split <;> exact refl

/-- The three instructions of `on_free`, on a block that is no double free. -/
theorem freeHook {block : Nat} (h : s.onFreeHook B block = (true, s')) (held : List Nat)
    (snap : Nat) :
    Leads B t s ⟨if B.hardening then .freeGuard block else .pushLoad block, held, snap⟩ cas
      s' ⟨.pushLoad block, held, snap⟩ cas := by
  unfold State.onFreeHook at h
  cases hh : B.hardening with
  | false =>
    rw [hh] at h
    cases h
    exact refl
  | true =>
    rw [hh] at h
    refine (quiet rfl).trans ((quiet rfl).trans ((quiet rfl).trans ?_))
    simp only [if_true, onFree] at h
    by_cases h1 : readGuard s.mem block s.pool.blockSize = guardFreed
    · simp [h1] at h
    · simp only [if_neg h1, decide_eq_false h1] at h ⊢
      by_cases h2 : readGuard s.mem block s.pool.blockSize ≠ guardAllocated
      · simp only [if_pos h2] at h ⊢
        cases h
        exact refl
      · simp only [if_neg h2] at h ⊢
        cases h
        exact refl

end Leads

/-! ## Whole calls on a pool in good order -/

section Calls

variable {B : Build} {t : τ} {s : State} {others : List (Nat × Region)} {free held : List Nat}
  {a snap cas : Nat}

/-- A whole pop of a list that is not empty, whatever the head is. -/
theorem pop_returns (t : τ) (held : List Nat) (snap cas : Nat) (h0 : s.pool.head.ptr ≠ 0) :
    Leads B t s ⟨.idle, held, snap⟩ cas
      ((s.setTaggedHead ⟨revealNext B s.mem s.pool.head.ptr, B.add s.pool.head.tag 1⟩).onAllocHook B
        s.pool.head.ptr) ⟨.idle, s.pool.head.ptr :: held, cas⟩ (cas + 1) := by
  have hm := B.modulus_pos
  have hload : Leads B t s ⟨.popLoad, held, snap⟩ cas s ⟨.popTest s.pool.head, held, cas⟩ cas :=
    .load rfl
  have htest : Leads B t s ⟨.popTest s.pool.head, held, cas⟩ cas s
      ⟨.popCas s.pool.head (revealNext B s.mem s.pool.head.ptr), held, cas⟩ cas :=
    .quiet (if_neg h0)
  have hcas : Leads B t s ⟨.popCas s.pool.head (revealNext B s.mem s.pool.head.ptr), held, cas⟩ cas
      (s.setTaggedHead ⟨revealNext B s.mem s.pool.head.ptr, B.add s.pool.head.tag 1⟩)
      ⟨if B.hardening then .allocGuard s.pool.head.ptr else .popRet s.pool.head.ptr, held, cas⟩
      (cas + 1) :=
    .compareExchange (by simpa using hm) (if_neg (by simp))
  exact ((((Leads.callPop.trans hload).trans htest).trans hcas).trans (.allocHook _ _ _ _)).trans
    (.ret h0 rfl)

theorem pop_leads (t : τ) (snap cas : Nat) (I : PoolInv B s others (a :: free) held) :
    Leads B t s ⟨.idle, held, snap⟩ cas (s.vend B a (B.add s.pool.head.tag 1))
      ⟨.idle, a :: held, cas⟩ (cas + 1) := by
  obtain ⟨hhead, h0⟩ := I.head_eq
  have h := pop_returns (B := B) t held snap cas (by omega : s.pool.head.ptr ≠ 0)
  rw [hhead, I.pop_hook] at h
  exact h

theorem push_leads (t : τ) (snap cas : Nat) (I : PoolInv B s others free held) (ha : a ∈ held) :
    Leads B t s ⟨.idle, held, snap⟩ cas (s.takeBack B a (B.add s.pool.head.tag 1))
      ⟨.idle, held.erase a, cas⟩ (cas + 1) := by
  have hm := B.modulus_pos
  set s₁ : State := { s with mem := takenMem B s.mem a s.pool.blockSize }
  have hhook : Leads B t s ⟨if B.hardening then .freeGuard a else .pushLoad a, held.erase a, snap⟩
      cas s₁ ⟨.pushLoad a, held.erase a, snap⟩ cas :=
    .freeHook (onFreeHook_held (I.vended a ha)) _ _
  have hload : Leads B t s₁ ⟨.pushLoad a, held.erase a, snap⟩ cas s₁
      ⟨.pushWrite a s.pool.head, held.erase a, cas⟩ cas :=
    .load rfl
  have hwrite : Leads B t s₁ ⟨.pushWrite a s.pool.head, held.erase a, cas⟩ cas
      (s₁.storeNext B a s.pool.head.ptr) ⟨.pushCas a s.pool.head, held.erase a, cas⟩ cas :=
    .quiet rfl
  have hcas : Leads B t (s₁.storeNext B a s.pool.head.ptr)
      ⟨.pushCas a s.pool.head, held.erase a, cas⟩ cas
      (s.takeBack B a (B.add s.pool.head.tag 1)) ⟨.idle, held.erase a, cas⟩ (cas + 1) :=
    .compareExchange (by simpa using hm) (if_neg (by simp [State.storeNext, s₁]))
  exact (((Leads.callPush ha).trans hhook).trans hload).trans (hwrite.trans hcas)

/-- A holder writes an integer into its block. -/
theorem write_leads (t : τ) (snap cas : Nat) (I : PoolInv B s others free held) (ha : a ∈ held)
    (v : Nat) :
    ∀ n ≤ s.pool.blockSize,
      Leads B t s ⟨.idle, held, snap⟩ cas { s with mem := ByteMem.write s.mem a n v }
        ⟨.idle, held, snap⟩ cas ∧
      PoolInv B { s with mem := ByteMem.write s.mem a n v } others free held := by
  intro n
  induction n with
  | zero =>
    intro _
    rw [write_zero]
    exact ⟨.refl, I⟩
  | succ n ih =>
    intro hn
    obtain ⟨hleads, hinv⟩ := ih (by omega)
    rw [write_succ]
    have hlt : a + n < a + s.pool.blockSize := by omega
    exact ⟨hleads.trans (.write ha (Nat.le_add_right a n) hlt),
      hinv.write ha (Nat.le_add_right a n) hlt⟩

/-- A pop and a push of what it returned: the same block is on top, under another tag. -/
theorem cycle (t : τ) (snap : Nat) (I : PoolInv B s others (a :: free) [])
    (hhead : s.pool.head = ⟨a, cas % B.modulus⟩) :
    ∃ s', Leads B t s ⟨.idle, [], snap⟩ cas s' ⟨.idle, [], cas + 1⟩ (cas + 2) ∧
      PoolInv B s' others (a :: free) [] ∧ s'.pool.head = ⟨a, (cas + 2) % B.modulus⟩ := by
  have I₁ := I.vend (B.add s.pool.head.tag 1)
  have hpush := push_leads t cas (cas + 1) I₁ (List.mem_singleton_self a)
  have I₂ := I₁.takeBack (List.mem_singleton_self a)
    (B.add (s.vend B a (B.add s.pool.head.tag 1)).pool.head.tag 1)
  rw [List.erase_cons_head] at hpush I₂
  refine ⟨_, (pop_leads t _ _ I).trans hpush, I₂, ?_⟩
  simp [State.takeBack, State.vend, Build.add, hhead, Nat.add_assoc]

theorem cycles (t : τ) (snap : Nat) (I : PoolInv B s others (a :: free) [])
    (hhead : s.pool.head = ⟨a, cas % B.modulus⟩) (n : Nat) :
    ∃ s' snap', Leads B t s ⟨.idle, [], snap⟩ cas s' ⟨.idle, [], snap'⟩ (cas + 2 * n) ∧
      PoolInv B s' others (a :: free) [] ∧ s'.pool.head = ⟨a, (cas + 2 * n) % B.modulus⟩ := by
  induction n with
  | zero => exact ⟨s, snap, .refl, I, hhead⟩
  | succ n ih =>
    obtain ⟨s₁, snap₁, hleads, I₁, hhead₁⟩ := ih
    obtain ⟨s', hleads', I', hhead'⟩ := cycle t snap₁ I₁ hhead₁
    exact ⟨s', _, hleads.trans hleads', I', hhead'⟩

/-- A thread pops the only block it ever has and leaves an integer of its own where the link
was. -/
theorem takes (t : τ) (snap : Nat) (I : PoolInv B s others (a :: free) [])
    (htag : s.pool.head.tag = 0) {g : Nat} (hg : g < B.modulus) :
    ∃ s', Leads B t s ⟨.idle, [], snap⟩ 0 s' ⟨.idle, [a], 0⟩ 1 ∧ PoolInv B s' others free [a] ∧
      revealNext B s'.mem a = g ∧ s'.pool.head.tag = 1 := by
  have I₁ := I.vend (B.add s.pool.head.tag 1)
  have hlt := (I.layout.slot_spec (I.free_slot (List.mem_cons_self ..))).2.2
  obtain ⟨hwrite, I₂⟩ := write_leads t 0 1 I₁ (List.mem_singleton_self a)
    (if B.hardening then xorLink a g else g) B.ptrBytes I.layout.dims.link
  refine ⟨_, (pop_leads t _ _ I).trans hwrite, I₂, ?_, ?_⟩
  · exact revealNext_writeNext _ (by omega) hg
  · have hm := B.modulus_ge
    simp only [State.vend, Build.add, htag]
    exact Nat.mod_eq_of_lt (by omega)

/-- It gives the block back, and pops and pushes it until the tag has gone round. -/
theorem wraps (t : τ) (snap : Nat) (I : PoolInv B s others free [a])
    (htag : s.pool.head.tag = 1) :
    ∃ s' snap', Leads B t s ⟨.idle, [a], snap⟩ 1 s' ⟨.idle, [], snap'⟩ B.modulus ∧
      s'.pool.head = ⟨a, 0⟩ := by
  have hpush := push_leads t snap 1 I (List.mem_singleton_self a)
  have I₁ := I.takeBack (List.mem_singleton_self a) (B.add s.pool.head.tag 1)
  rw [List.erase_cons_head] at hpush I₁
  have hhead : (s.takeBack B a (B.add s.pool.head.tag 1)).pool.head = ⟨a, 2 % B.modulus⟩ := by
    simp [State.takeBack, Build.add, htag]
  obtain ⟨s', snap', hleads, -, hhead'⟩ := cycles t 1 I₁ hhead (B.modulus / 2 - 1)
  have hround : 2 + 2 * (B.modulus / 2 - 1) = B.modulus := by
    have hm := B.modulus_ge
    have heven : 2 ∣ B.modulus := by
      rw [B.modulus_eq]
      exact dvd_pow_self 2 (by have := B.ptr_wide; omega)
    omega
  rw [hround] at hleads hhead'
  rw [Nat.mod_self] at hhead'
  exact ⟨s', snap', hpush.trans hleads, hhead'⟩

end Calls

end LockFree

section Theorems

open LockFree

variable {τ : Type*} [DecidableEq τ]

/-- The window of the lock-free theorems is as wide as it can be: with `2 ^ width` successful
compare-exchanges between its load of `head_` and its own, a pop leaves in `head_` an address that
another thread wrote into a block it held then, and the next pop returns it, wherever memory can be
read there. -/
theorem tag_width_exact {B : Build} {env : Env} {w w' : World} {blockSize blockCount g : Nat}
    {p : PoolStruct} {v r : τ} (hbs : blockSize < B.modulus)
    (hcreate : memoryPoolCreate B env w blockSize blockCount = (some p, w')) (hvr : v ≠ r)
    (hg : g < B.modulus) :
    ∃ es m m', ((lts B τ).guard (InWindow B)).Run (.start ⟨w', p⟩) es m ∧
      (lts B τ).step m (.instr v (.cas (.pop p.backing))) m' ∧
      m.cas - (m.threads v).snap = B.modulus ∧ m'.pool.pool.head.ptr = g ∧
      (g ≠ 0 → ∃ es' m'', ((lts B τ).guard (InWindow B)).Run m' es' m'' ∧
        (m''.threads r).held = [g]) := by
  have I := (memoryPoolCreate_created hbs hcreate).inv
  obtain ⟨-, hn, backing, addr, heap, -, -, -, -, -, hp, -⟩ := memoryPoolCreate_some hcreate
  have hcount : p.blockCount = blockCount := by rw [hp]
  have hhead : p.head = ⟨p.backing, 0⟩ := by rw [hp]
  rw [hcount, slotsOf_eq_cons _ _ hn] at I
  -- the pop that sleeps has loaded the head
  have hcall : Leads B v (⟨w', p⟩ : State) ⟨.idle, [], 0⟩ 0 ⟨w', p⟩ ⟨.popTest p.head, [], 0⟩ 0 :=
    Leads.callPop.trans (.load rfl)
  obtain ⟨es₁, m₁, hrun₁, hv₁, hothers₁, -⟩ := hcall (.start ⟨w', p⟩) ⟨rfl, rfl, rfl⟩
  obtain ⟨s₂, htakes, I₂, hlink, htag⟩ := takes r 0 I (by rw [hhead]) hg
  obtain ⟨es₂, m₂, hrun₂, hr₂, hothers₂, -⟩ := htakes m₁ ⟨hv₁.pool, hothers₁ r hvr.symm, hv₁.cas⟩
  -- and reads the link of a block that is out by now
  have htest : Leads B v s₂ ⟨.popTest p.head, [], 0⟩ 1 s₂ ⟨.popCas p.head g, [], 0⟩ 1 := by
    refine .quiet ?_
    rw [← hlink, hhead]
    exact if_neg I.head_eq.2
  obtain ⟨es₃, m₃, hrun₃, hv₃, hothers₃, -⟩ :=
    htest m₂ ⟨hr₂.pool, (hothers₂ v hvr).trans hv₁.thread, hr₂.cas⟩
  obtain ⟨s₄, snap, hwraps, hhead₄⟩ := wraps r 0 I₂ htag
  obtain ⟨es₄, m₄, hrun₄, hr₄, hothers₄, -⟩ :=
    hwraps m₃ ⟨hv₃.pool, (hothers₃ r hvr.symm).trans hr₂.thread, hv₃.cas⟩
  have hv₄ : m₄.threads v = ⟨.popCas p.head g, [], 0⟩ := (hothers₄ v hvr).trans hv₃.thread
  have hcas : LockFree.instr B false m₄.pool (m₄.threads v).pc =
      some (.cas (.pop p.head.ptr), m₄.pool.setTaggedHead ⟨g, B.add p.head.tag 1⟩,
        if B.hardening then .allocGuard p.head.ptr else .popRet p.head.ptr) := by
    rw [hv₄, hr₄.pool]
    exact if_neg (by simp [hhead₄, hhead])
  rw [hhead] at hcas
  refine ⟨_, m₄, _, ((hrun₁.trans hrun₂).trans hrun₃).trans hrun₄, .instr hcas, ?_, rfl, ?_⟩
  · rw [hr₄.cas, hv₄]
    rfl
  · intro h0
    have hr : ∀ th, Function.update m₄.threads v th r = ⟨.idle, [], snap⟩ := fun th =>
      (Function.update_of_ne hvr.symm th m₄.threads).trans hr₄.thread
    obtain ⟨es', m'', hrun', hr', -⟩ := pop_returns r [] snap _
      (s := m₄.pool.setTaggedHead ⟨g, B.add 0 1⟩) h0 (m₄.move v _ _ _) ⟨rfl, hr _, rfl⟩
    exact ⟨es', m'', hrun', congrArg Thread.held hr'.thread⟩

theorem tag_width_exact_x64 : ∃ es m m',
    ((lts (Build.x64 true .lockfree) Bool).guard (InWindow (Build.x64 true .lockfree))).Run
      (pairMachine true) es m ∧
    (lts (Build.x64 true .lockfree) Bool).step m (.instr false (.cas (.pop 0x1000))) m' ∧
    m.cas - (m.threads false).snap = 2 ^ 64 ∧ m'.pool.pool.head.ptr = 0xBAD ∧
    ∃ es' m'',
      ((lts (Build.x64 true .lockfree) Bool).guard (InWindow (Build.x64 true .lockfree))).Run
        m' es' m'' ∧ (m''.threads true).held = [0xBAD] := by
  obtain ⟨es, m, m', hrun, hstep, hcas, hhead, hnext⟩ := tag_width_exact (v := false) (r := true)
    (g := 0xBAD) (by decide) (pairPool_create true) (by decide) (by decide)
  exact ⟨es, m, m', hrun, hstep, hcas, hhead, hnext (by decide)⟩

end Theorems

end MemoryPool
