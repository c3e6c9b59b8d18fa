import Mathlib.Order.Bounds.Basic
import MemoryPool.DiagnosticsCorrect
import MemoryPool.Handles

/-!
# MemoryPool.DecoratorsCorrect

What the counters of an `InstrumentedPool` are worth to clients that hand back only what they hold,
however often the decorator is moved on the way.

The counters follow the calls on a handle (`statsOf`), and moves carry them along with the handle.
So there is one account for each handle: the calls on it, and the blocks of its pool that are out.

* `Tallied`: the counters against the account. `live_` is exact; the three totals count modulo
  `2 ^ width`.
* `Books.act`: the step lemma, one case for each kind of action.
* `decorators_exact`: every run, with the run of the undecorated pools beside it.
* `failures_drift`: the totals are not exact.
-/

namespace MemoryPool

namespace Objects

open ByteMem LinkedList

/-! ## The account of one handle -/

/-- The call counts in `deallocations_`. -/
def Call.returns : Call → Bool
  | .deallocated block => block ≠ 0
  | _ => false

/-- The values that `live_` has had. -/
def lives (B : Build) (calls : List Call) : Set Nat :=
  {n | ∃ done, done <+: calls ∧ (statsOf B done).live = n}

structure Tallied (B : Build) (calls : List Call) (held : List Nat) : Prop where
  allocations : (statsOf B calls).allocations = calls.count .allocated % B.modulus
  deallocations : (statsOf B calls).deallocations = calls.countP Call.returns % B.modulus
  failures : (statsOf B calls).allocationFailures = calls.count .refused % B.modulus
  live : (statsOf B calls).live = held.length
  balance : calls.count .allocated = calls.countP Call.returns + held.length
  peak : IsGreatest (lives B calls) (statsOf B calls).peakLive

section

variable {B : Build} {calls : List Call} {call : Call} {held : List Nat}

theorem lives_snoc (B : Build) (calls : List Call) (call : Call) :
    lives B (calls ++ [call]) =
      insert (statsOf B (calls ++ [call])).live (lives B calls) := by
  ext n
  simp only [lives, Set.mem_ofPred_eq, Set.mem_insert_iff, List.prefix_concat_iff]
  constructor
  · rintro ⟨done, rfl | hdone, hn⟩
    · exact .inl hn.symm
    · exact .inr ⟨done, hdone, hn⟩
  · rintro (rfl | ⟨done, hdone, hn⟩)
    · exact ⟨_, .inl rfl, rfl⟩
    · exact ⟨done, .inr hdone, hn⟩

theorem Tallied.live_le (T : Tallied B calls held) :
    (statsOf B calls).live ≤ (statsOf B calls).peakLive :=
  T.peak.2 ⟨calls, List.prefix_rfl, rfl⟩

/-- A call that does not raise `live_` leaves the peak where it is. -/
theorem Tallied.peak_keep (T : Tallied B calls held)
    (hpeak : (statsOf B (calls ++ [call])).peakLive = (statsOf B calls).peakLive)
    (hle : (statsOf B (calls ++ [call])).live ≤ (statsOf B calls).live) :
    IsGreatest (lives B (calls ++ [call])) (statsOf B (calls ++ [call])).peakLive := by
  have h := T.peak.insert (statsOf B (calls ++ [call])).live
  rwa [max_eq_right (hle.trans T.live_le), ← lives_snoc, ← hpeak] at h

theorem Tallied.nil (B : Build) : Tallied B [] [] where
  allocations := rfl
  deallocations := rfl
  failures := rfl
  live := rfl
  balance := rfl
  peak := by
    refine ⟨⟨[], List.prefix_rfl, rfl⟩, ?_⟩
    rintro n ⟨done, hdone, rfl⟩
    rw [List.prefix_nil.mp hdone]
    exact Nat.le_refl _

theorem Tallied.allocated (T : Tallied B calls held) (hlt : held.length + 1 < B.modulus)
    (block : Nat) : Tallied B (calls ++ [.allocated]) (block :: held) where
  allocations := by simp [statsOf_snoc, Call.count, T.allocations, Build.add]
  deallocations := by simp [statsOf_snoc, Call.count, T.deallocations, Call.returns]
  failures := by simp [statsOf_snoc, Call.count, T.failures]
  live := by simp [statsOf_snoc, Call.count, T.live, Build.add_eq hlt]
  balance := by
    have := T.balance
    simp [Call.returns]
    omega
  peak := by
    have h := T.peak.insert (statsOf B (calls ++ [.allocated])).live
    rw [← lives_snoc, max_comm] at h
    simpa only [statsOf_snoc, Call.count] using h

theorem Tallied.refused (T : Tallied B calls held) : Tallied B (calls ++ [.refused]) held where
  allocations := by simp [statsOf_snoc, Call.count, T.allocations]
  deallocations := by simp [statsOf_snoc, Call.count, T.deallocations, Call.returns]
  failures := by simp [statsOf_snoc, Call.count, T.failures, Build.add]
  live := by simp [statsOf_snoc, Call.count, T.live]
  balance := by simp [Call.returns, T.balance]
  peak := T.peak_keep (by simp [statsOf_snoc, Call.count]) (by simp [statsOf_snoc, Call.count])

theorem Tallied.null (T : Tallied B calls held) : Tallied B (calls ++ [.deallocated 0]) held where
  allocations := by simp [statsOf_snoc, Call.count, T.allocations]
  deallocations := by simp [statsOf_snoc, Call.count, T.deallocations, Call.returns]
  failures := by simp [statsOf_snoc, Call.count, T.failures]
  live := by simp [statsOf_snoc, Call.count, T.live]
  balance := by simp [Call.returns, T.balance]
  peak := T.peak_keep (by simp [statsOf_snoc, Call.count]) (by simp [statsOf_snoc, Call.count])

theorem Tallied.returned (T : Tallied B calls held) {block : Nat} (hb : block ∈ held)
    (h0 : block ≠ 0) (hlt : held.length < B.modulus) :
    Tallied B (calls ++ [.deallocated block]) (held.erase block) := by
  have hpos := List.length_pos_of_mem hb
  have hlive : (statsOf B (calls ++ [.deallocated block])).live = held.length - 1 := by
    simp [statsOf_snoc, Call.count, h0, T.live, hpos, Build.sub_eq hpos hlt]
  refine ⟨?_, ?_, ?_, ?_, ?_, T.peak_keep ?_ ?_⟩
  · simp [statsOf_snoc, Call.count, h0, T.allocations]
  · simp [statsOf_snoc, Call.count, h0, T.deallocations, Call.returns, Build.add]
  · simp [statsOf_snoc, Call.count, h0, T.failures]
  · rw [hlive, List.length_erase_of_mem hb]
  · have := T.balance
    simp [Call.returns, h0, List.length_erase_of_mem hb]
    omega
  · simp [statsOf_snoc, Call.count, h0]
  · rw [hlive, T.live]
    omega

/-- `allocations_ - deallocations_` in `size_t`: what wrapped in the one wrapped in the other. -/
theorem Tallied.live_sub (T : Tallied B calls held) (hlt : held.length < B.modulus) :
    (statsOf B calls).live =
      B.sub (statsOf B calls).allocations (statsOf B calls).deallocations := by
  rw [T.live, T.allocations, T.deallocations, T.balance]
  have hd := Nat.mod_lt (calls.countP Call.returns) B.modulus_pos
  unfold Build.sub
  rw [Nat.mod_mod, ← Nat.mod_add_mod (calls.countP Call.returns) B.modulus held.length]
  generalize calls.countP Call.returns % B.modulus = d at hd
  rcases Nat.lt_or_ge (d + held.length) B.modulus with h | h
  · rw [Nat.mod_eq_of_lt h, show d + held.length + (B.modulus - d) = held.length + B.modulus by omega,
      Nat.add_mod_right, Nat.mod_eq_of_lt hlt]
  · rw [Nat.mod_eq_sub_mod h, Nat.mod_eq_of_lt (by omega : d + held.length - B.modulus < B.modulus),
      show d + held.length - B.modulus + (B.modulus - d) = held.length by omega,
      Nat.mod_eq_of_lt hlt]

end

/-! ## Programs -/

structure Program where
  machine : Machine
  held : Nat → List Nat

def Object.isInstrumented : Object → Bool
  | .pool _ => false
  | .instrumented _ => true

namespace Program

def start (w : World) : Program := ⟨Machine.start w, fun _ => []⟩

/-- The blocks that are out after an action. A free past the decorator is of a foreign pointer. -/
def heldAfter (c : Program) : Action → Reply → Nat → List Nat
  | .op (.allocate id _), .block block => handOut c.held (c.machine.handleOf id) block
  | .op (.tryAllocate id _), .block block => handOut c.held (c.machine.handleOf id) block
  | .op (.deallocate id _ block), _ => takeIn c.held (c.machine.handleOf id) block
  | _, _ => c.held

def lts (B : Build) : Lts Program (Action × Reply) where
  step c e c' := c.machine.act B e.1 = some (e.2, c'.machine) ∧ c'.held = c.heldAfter e.1 e.2

theorem run_machine {B : Build} {c c' : Program} {es : List (Action × Reply)}
    (h : (lts B).Run c es c') : (acting B).Run c.machine es c'.machine := by
  induction h with
  | nil => exact .nil
  | snoc _ hs ih => exact ih.snoc hs.1

def Decorated (c : Program) (id : Nat) : Prop :=
  (c.machine.objects id).any Object.isInstrumented = true

theorem Decorated.object {c : Program} {id : Nat} (h : c.Decorated id) :
    ∃ object, c.machine.objects id = some (.instrumented object) := by
  unfold Decorated at h
  rcases hobj : c.machine.objects id with _ | (_ | object)
  · rw [hobj] at h
    cases h
  · rw [hobj] at h
    cases h
  · exact ⟨object, rfl⟩

/-- The pools are called through decorators, which are given back null or what they handed out.
Past a decorator only foreign pointers are freed. -/
def WellBehaved (B : Build) (c : Program) (e : Action × Reply) : Prop :=
  match e.1 with
  | .op (.construct _ _ blockSize blockCount) => (CreateCall.fixed blockSize blockCount).InRange B
  | .op (.make _ _ call) => call.InRange B
  | .op (.makeInstrumented _ _ call) => call.InRange B
  | .op (.allocate id _) => c.Decorated id
  | .op (.tryAllocate id _) => c.Decorated id
  | .op (.deallocate id _ block) =>
    c.Decorated id ∧ (block = 0 ∨ ∃ h ∈ c.machine.handleOf id, block ∈ c.held h)
  | .op (.write addr _) =>
    ∃ h < c.machine.created, ∃ p ∈ c.machine.handles h, ∃ b ∈ c.held h,
      b ≤ addr ∧ addr < b + p.blockSize
  | .nativeFree id _ block =>
    ∀ h ∈ c.machine.handleOf id, ∀ p ∈ c.machine.handles h, block ∉ p.slots B
  | _ => True

instance (c : Program) (id : Nat) : Decidable (c.Decorated id) :=
  inferInstanceAs (Decidable (_ = true))

instance (B : Build) (c : Program) (e : Action × Reply) : Decidable (c.WellBehaved B e) :=
  match e with
  | (.op (.construct _ _ blockSize blockCount), _) =>
    inferInstanceAs (Decidable ((CreateCall.fixed blockSize blockCount).InRange B))
  | (.op (.make _ _ call), _) => inferInstanceAs (Decidable (call.InRange B))
  | (.op (.makeInstrumented _ _ call), _) => inferInstanceAs (Decidable (call.InRange B))
  | (.op (.allocate id _), _) => inferInstanceAs (Decidable (c.Decorated id))
  | (.op (.tryAllocate id _), _) => inferInstanceAs (Decidable (c.Decorated id))
  | (.op (.deallocate id _ block), _) => inferInstanceAs (Decidable (c.Decorated id ∧
      (block = 0 ∨ ∃ h ∈ c.machine.handleOf id, block ∈ c.held h)))
  | (.op (.write addr _), _) => inferInstanceAs (Decidable (∃ h < c.machine.created,
      ∃ p ∈ c.machine.handles h, ∃ b ∈ c.held h, b ≤ addr ∧ addr < b + p.blockSize))
  | (.nativeFree id _ block, _) => inferInstanceAs (Decidable (∀ h ∈ c.machine.handleOf id,
      ∀ p ∈ c.machine.handles h, block ∉ p.slots B))
  | (.op (.adopt ..), _) => .isTrue trivial
  | (.op (.moveConstruct ..), _) => .isTrue trivial
  | (.op (.moveAssign ..), _) => .isTrue trivial
  | (.op (.addObserver ..), _) => .isTrue trivial
  | (.op (.destruct _), _) => .isTrue trivial

def perform (B : Build) (c : Program) (action : Action) : Option ((Action × Reply) × Program) :=
  match c.machine.act B action with
  | none => none
  | some (reply, m) =>
    if c.WellBehaved B (action, reply) then
      some ((action, reply), ⟨m, c.heldAfter action reply⟩)
    else none

theorem perform_step {B : Build} (c : Program) (action : Action) (e : Action × Reply) (c' : Program)
    (h : c.perform B action = some (e, c')) : ((lts B).guard (WellBehaved B)).step c e c' := by
  unfold perform at h
  split at h
  · cases h
  · rename_i hact
    split at h
    · rename_i hok
      cases h
      exact ⟨hok, hact, rfl⟩
    · cases h

end Program

section

variable {B : Build} {c c' : Program} {m m' : Machine} {held : Nat → List Nat} {id : Nat}
  {object : InstrumentedObject} {ip : InstrumentedPool} {call : Call}

structure Books (B : Build) (m : Machine) (held : Nat → List Nat) : Prop where
  owned : Owned B m
  tended : Tended B m held
  tallied : ∀ h p, m.handles h = some p → Tallied B (m.history h) (held h)

theorem Books.start (B : Build) (w : World) : Books B (Machine.start w) fun _ => [] :=
  ⟨Owned.start w, Tended.start B w, fun _ _ h => by cases h⟩

/-- Nothing of the pools changes, and no call is made. -/
theorem Books.congr (K : Books B m held) (O : Owned B m') (hworld : m'.world = m.world)
    (hhandles : m'.handles = m.handles) (hcreated : m'.created = m.created)
    (hhistory : m'.history = m.history) : Books B m' held :=
  ⟨O, K.tended.congr hworld hhandles hcreated, by rw [hhandles, hhistory]; exact K.tallied⟩

/-- What a call on a decorator leaves of the pools and of the account. -/
theorem afterCall_spec (m : Machine) (id : Nat) (object : InstrumentedObject)
    (ip : InstrumentedPool) (call : Call) :
    (m.afterCall id object ip call).world = (m.store object.pool.handle ip.pool).world ∧
      (m.afterCall id object ip call).handles = (m.store object.pool.handle ip.pool).handles ∧
      (m.afterCall id object ip call).created = (m.store object.pool.handle ip.pool).created ∧
      (m.afterCall id object ip call).history =
        (m.record object.pool.handle call).history := by
  cases hh : object.pool.handle with
  | none => simp [Machine.afterCall, Machine.record, Machine.setObject, Machine.store, hh]
  | some h =>
    cases hs : ip.pool <;>
      simp [Machine.afterCall, Machine.record, Machine.setObject, Machine.store, hh, hs]

theorem store_other {handle : Option Nat} {s : Option State} {j : Nat} (hj : handle ≠ some j) :
    (m.store handle s).handles j = m.handles j := by
  unfold Machine.store
  split
  · refine Function.update_of_ne ?_ _ _
    rintro rfl
    exact hj rfl
  · rfl

/-- A call on a decorator: the pools stay in order, and so does the account of the one called. -/
theorem Books.called (K : Books B m held) {held' : Nat → List Nat} {handle : Option Nat}
    (hobj : m.objects id = some (.instrumented object)) (hh : object.pool.handle = handle)
    (hcalled : Called B (object.load m) ip call) (T : Tended B (m.store handle ip.pool) held')
    (hheld : ∀ j, handle ≠ some j → held' j = held j)
    (htally : ∀ h p, handle = some h → m.handles h = some p →
      Tallied B (m.history h ++ [call]) (held' h)) :
    Books B (m.afterCall id object ip call) held' := by
  subst hh
  obtain ⟨hworld, hhandles, hcreated, hhistory⟩ := afterCall_spec m id object ip call
  refine ⟨K.owned.called hobj hcalled, T.congr hworld hhandles hcreated, ?_⟩
  intro j q hq
  rw [hhandles] at hq
  rw [hhistory]
  by_cases hj : object.pool.handle = some j
  · obtain ⟨p, hp⟩ := Option.isSome_iff_exists.mp (K.owned.live id j (Owned.owns hobj hj))
    rw [hj]
    simp only [Machine.record, Function.update_self]
    exact htally j p hj hp
  · rw [store_other hj] at hq
    rw [hheld j hj]
    have hrecord : (m.record object.pool.handle call).history j = m.history j := by
      unfold Machine.record
      split
      · rfl
      · rename_i h heq
        refine Function.update_of_ne ?_ _ _
        rintro rfl
        exact hj heq
    rw [hrecord]
    exact K.tallied j q hq

/-- What is behind the handle of an object that exists. -/
theorem Books.pool (K : Books B m held) {object : Object} (hobj : m.objects id = some object)
    {h : Nat} (hh : object.handle = some h) : ∃ p, m.handles h = some p :=
  Option.isSome_iff_exists.mp (K.owned.live id h (Owned.owns hobj hh))

theorem Books.allocated (K : Books B m held) (hobj : m.objects id = some (.instrumented object))
    {env : Env} {block : Nat}
    (halloc : memoryPoolAlloc B env (m.deref object.pool.handle) = (block, ip.pool))
    (hcalled : Called B (object.load m) ip (if block = 0 then .refused else .allocated)) :
    Books B (m.afterCall id object ip (if block = 0 then .refused else .allocated))
      (handOut held object.pool.handle block) := by
  have T := K.tended.alloc object.pool.handle env
  rw [halloc] at T
  refine K.called hobj rfl hcalled T (fun j hj => handOut_other hj block) ?_
  intro h p hh hp
  have hbooks := K.tallied h p hp
  rw [hh, deref_some hp, memoryPoolAlloc_some] at halloc
  have hs : some (popHead B env ⟨m.world, p⟩).2 = ip.pool := congrArg Prod.snd halloc
  obtain ⟨others, free, I⟩ := T.pool h _ (by rw [hh, ← hs]; exact Function.update_self ..)
  have hlt := I.held_length
  rw [hh] at hlt ⊢
  by_cases h0 : block = 0
  · simpa only [handOut, if_pos h0] using hbooks.refused
  · simp only [handOut, if_neg h0, Function.update_self] at hlt ⊢
    exact hbooks.allocated hlt block

theorem Books.deallocated (K : Books B m held) (hobj : m.objects id = some (.instrumented object))
    {env : Env} {block : Nat}
    (hfree : memoryPoolFree B env (m.deref object.pool.handle) block = ip.pool)
    (hcalled : Called B (object.load m) ip (.deallocated block))
    (hb : block = 0 ∨ ∃ h, object.pool.handle = some h ∧ block ∈ held h) :
    Books B (m.afterCall id object ip (.deallocated block))
      (takeIn held object.pool.handle block) := by
  generalize hh : object.pool.handle = handle at hfree hb
  cases handle with
  | none => exact K.called hobj hh hcalled K.tended (fun _ _ => rfl) (by simp)
  | some h =>
    obtain ⟨p, hp⟩ := K.pool hobj hh
    obtain ⟨others, free, I⟩ := K.tended.pool h p hp
    by_cases hheld : block ∈ held h
    · -- a block that is out: the pool takes it back, and the account follows
      have T := K.tended.free hp hheld env
      rw [hfree] at T
      refine K.called hobj hh hcalled T (fun j hj => takeIn_other hj block) ?_
      rintro _ q ⟨⟩ hq
      have h0 : block ≠ 0 := (I.layout.slot_spec (I.held_slot hheld)).1
      simp only [takeIn, Function.update_self]
      exact (K.tallied h q hq).returned hheld h0 I.held_length
    · -- null, which the pool ignores
      have h0 : block = 0 := by
        rcases hb with h0 | ⟨h', hh', hb⟩
        · exact h0
        · cases hh'
          exact absurd hb hheld
      subst h0
      have hnull : 0 ∉ p.slots B := fun hslot => (I.layout.slot_spec hslot).1 rfl
      have hsame := K.tended.foreign hp hnull env
      rw [hfree] at hsame
      have hkeep : takeIn held (some h) 0 = held := by
        simp only [takeIn, List.erase_of_not_mem hheld, Function.update_eq_self]
      rw [hkeep]
      refine K.called hobj hh hcalled (by rw [hsame]; exact K.tended) (fun _ _ => rfl) ?_
      rintro _ q ⟨⟩ hq
      exact (K.tallied h q hq).null

theorem Books.create (K : Books B m held) {call : CreateCall} (hr : call.InRange B) {env : Env}
    {handle : Option Nat} {m₁ : Machine} (hc : m.create B env call = (handle, m₁))
    (O : Owned B m') (hworld : m'.world = m₁.world) (hhandles : m'.handles = m₁.handles)
    (hcreated : m'.created = m₁.created) (hhistory : m'.history = m₁.history) :
    Books B m' held := by
  have T := K.tended.create hr env
  rw [hc] at T
  refine ⟨O, T.congr hworld hhandles hcreated, ?_⟩
  intro h p hp
  rw [hhandles] at hp
  rw [hhistory]
  unfold Machine.create at hc
  split at hc <;> cases hc
  · exact K.tallied h p hp
  · by_cases hnew : h = m.created
    · subst hnew
      rw [K.owned.fresh _ (Nat.le_refl _), (K.tended.fresh _ (Nat.le_refl _)).2]
      exact Tallied.nil B
    · exact K.tallied h p ((Function.update_of_ne hnew _ _).symm.trans hp)

theorem destroy_handles {handle : Option Nat} {h : Nat} {p : PoolStruct}
    (hp : (m.destroy handle).handles h = some p) : m.handles h = some p := by
  cases handle with
  | none => exact hp
  | some g =>
    by_cases hg : h = g
    · subst hg
      simp [Machine.destroy] at hp
    · exact (Function.update_of_ne hg _ _).symm.trans hp

theorem Books.destruct (K : Books B m held) (object : Object) (O : Owned B m')
    (hworld : m'.world = (object.destruct m).world)
    (hhandles : m'.handles = (object.destruct m).handles)
    (hcreated : m'.created = (object.destruct m).created)
    (hhistory : m'.history = (object.destruct m).history) : Books B m' held := by
  have T : Tended B (object.destruct m) held := by
    cases object with
    | pool object => exact K.tended.destroy object.handle
    | instrumented object =>
      have T' : Tended B (m.notify object .destroyed) held := K.tended.congr rfl rfl rfl
      exact T'.destroy object.pool.handle
  refine ⟨O, T.congr hworld hhandles hcreated, ?_⟩
  intro h p hp
  rw [hhandles] at hp
  rw [hhistory, (destruct_spec m object).2.2.2.2.1]
  cases object with
  | pool object => exact K.tallied h p (destroy_handles hp)
  | instrumented object => exact K.tallied h p (destroy_handles (m := m.notify _ _) hp)

theorem Books.exec (K : Books B c.machine c.held) {op : Op} {reply : Reply}
    (hok : c.WellBehaved B (.op op, reply)) (h : c.machine.exec B op = some (reply, m')) :
    Books B m' (c.heldAfter (.op op) reply) := by
  have O := K.owned.exec h
  cases op with
  | construct id env blockSize blockCount =>
    simp only [Machine.exec] at h
    split at h
    · cases h
    · have hr : (CreateCall.fixed blockSize blockCount).InRange B := hok
      split at h <;> rename_i hc <;> cases h <;> exact K.create hr hc O rfl rfl rfl rfl
  | make id env call =>
    simp only [Machine.exec, makePool_eq] at h
    split at h
    · cases h
    · rcases hc : c.machine.create B env call with ⟨_ | handle, m₁⟩ <;> rw [hc] at h <;> cases h <;>
        exact K.create hok hc O rfl rfl rfl rfl
  | makeInstrumented id env call =>
    simp only [Machine.exec, makeInstrumented_eq] at h
    split at h
    · cases h
    · rcases hc : c.machine.create B env call with ⟨_ | handle, m₁⟩ <;> rw [hc] at h <;> cases h <;>
        exact K.create hok hc O rfl rfl rfl rfl
  | adopt id source =>
    simp only [Machine.exec] at h
    split at h
    · cases h
      exact K.congr O rfl rfl rfl rfl
    · cases h
  | moveConstruct id source =>
    simp only [Machine.exec] at h
    split at h
    · cases h
      exact K.congr O rfl rfl rfl rfl
    · cases h
      exact K.congr O rfl rfl rfl rfl
    · cases h
  | moveAssign id source =>
    simp only [Machine.exec] at h
    split at h
    · split at h <;> cases h
      · exact K
      · rename_i this _ _ _ _
        exact K.destruct (.pool this) O rfl rfl rfl rfl
    · split at h <;> cases h
      · exact K
      · rename_i this _ _ _ _
        exact K.destruct (.instrumented this) O rfl rfl rfl rfl
    · cases h
  | addObserver id observer =>
    simp only [Machine.exec] at h
    split at h
    · cases h
      exact K.congr O rfl rfl rfl rfl
    · cases h
  | allocate id env =>
    obtain ⟨object, hobj⟩ := Program.Decorated.object hok
    have hhandle : c.machine.handleOf id = object.pool.handle := Machine.handleOf_eq hobj
    simp only [Machine.exec, hobj] at h
    cases h
    rcases halloc : memoryPoolAlloc B env.pool (c.machine.deref object.pool.handle) with
      ⟨block, handle⟩
    have hpool := (Pool.allocate_eq halloc).symm.trans (allocate_bare B env (object.load c.machine))
    obtain ⟨hblock, rfl⟩ := Prod.mk.inj hpool
    have hcalled : Called B (object.load c.machine)
        ((object.load c.machine).allocate B env).2 _ := allocate_called
    rw [← hblock] at hcalled ⊢
    by_cases h0 : block = 0
    · subst h0
      rw [if_pos rfl] at hcalled ⊢
      have K' := K.allocated hobj halloc (by rw [if_pos rfl]; exact hcalled)
      rw [if_pos rfl, handOut_null] at K'
      exact K'
    · rw [if_neg h0] at hcalled ⊢
      have K' := K.allocated hobj halloc (by rw [if_neg h0]; exact hcalled)
      rw [if_neg h0, ← hhandle] at K'
      exact K'
  | tryAllocate id env =>
    obtain ⟨object, hobj⟩ := Program.Decorated.object hok
    have hhandle : c.machine.handleOf id = object.pool.handle := Machine.handleOf_eq hobj
    simp only [Machine.exec, hobj] at h
    cases h
    simp only [Program.heldAfter, hhandle]
    exact K.allocated hobj (tryAllocate_bare B env (object.load c.machine)) tryAllocate_called
  | deallocate id env block =>
    obtain ⟨hdecorated, hb⟩ := hok
    obtain ⟨object, hobj⟩ := hdecorated.object
    have hhandle : c.machine.handleOf id = object.pool.handle := Machine.handleOf_eq hobj
    simp only [Machine.exec, hobj] at h
    cases h
    simp only [Program.heldAfter, hhandle] at hb ⊢
    have hfree : memoryPoolFree B env.pool (c.machine.deref object.pool.handle) block =
        ((object.load c.machine).deallocate B env block).pool := by
      rw [InstrumentedPool.deallocate_eq]
      rfl
    exact K.deallocated hobj hfree (deallocate_called block) hb
  | destruct id =>
    simp only [Machine.exec] at h
    split at h
    · rename_i object _
      cases h
      exact K.destruct object O rfl rfl rfl rfl
    · cases h
  | write addr byte =>
    cases h
    obtain ⟨h, -, p, hp, b, hb, hl, hu⟩ := hok
    exact ⟨O, K.tended.write hp hb hl hu byte, K.tallied⟩

/-- The step lemma. -/
theorem Books.act {e : Action × Reply} (K : Books B c.machine c.held) (hok : c.WellBehaved B e)
    (h : (Program.lts B).step c e c') : Books B c'.machine c'.held := by
  obtain ⟨action, reply⟩ := e
  obtain ⟨hact, hheld⟩ := h
  rw [hheld]
  cases action with
  | op op => exact K.exec hok hact
  | nativeFree id env block =>
    simp only [Machine.act, Option.map_eq_some_iff] at hact
    obtain ⟨object, hobj, hact⟩ := hact
    obtain ⟨-, hm⟩ := Prod.mk.inj hact
    suffices hsame : c'.machine = c.machine by rw [hsame]; exact K
    rw [← hm]
    cases hh : object.handle with
    | none => rfl
    | some h =>
      obtain ⟨p, hp⟩ := K.pool hobj hh
      exact K.tended.foreign hp (hok h ((Machine.handleOf_eq hobj).trans hh) p hp) env

theorem Books.run {es : List (Action × Reply)} (K : Books B c.machine c.held)
    (hrun : ((Program.lts B).guard (Program.WellBehaved B)).Run c es c') :
    Books B c'.machine c'.held := by
  refine hrun.invariant (I := fun c => Books B c.machine c.held) ?_ K
  rintro c e c' K ⟨hok, hstep⟩
  exact K.act hok hstep

end

/-- The counters of a decorator whose pool is behind `h`, against the calls made on it, the free
list and the capacity. -/
structure Exact (B : Build) (m : Machine) (object : InstrumentedObject) (h : Nat)
    (p : PoolStruct) : Prop where
  allocations : object.allocations = (m.history h).count .allocated % B.modulus
  deallocations : object.deallocations = (m.history h).countP Call.returns % B.modulus
  failures : object.allocationFailures = (m.history h).count .refused % B.modulus
  live_sub : object.live = B.sub object.allocations object.deallocations
  live : (m.history h).count .allocated = (m.history h).countP Call.returns + object.live
  free : ∃ free, Chain (revealNext B m.world.mem) 0 p.head.ptr free ∧
    object.live + free.length = p.capacity
  peak : IsGreatest (lives B (m.history h)) object.peakLive

theorem Books.exact {B : Build} {m : Machine} {held : Nat → List Nat} (K : Books B m held)
    {id h : Nat} {object : InstrumentedObject} (hobj : m.objects id = some (.instrumented object))
    (hh : object.pool.handle = some h) : ∃ p, m.handles h = some p ∧ Exact B m object h p := by
  obtain ⟨p, hp⟩ := K.pool hobj hh
  obtain ⟨others, free, I⟩ := K.tended.pool h p hp
  have T := K.tallied h p hp
  have hstats : object.stats = statsOf B (m.history h) := K.owned.counted id _ h hobj hh
  have hlive : object.live = (held h).length := (congrArg PoolStats.live hstats).trans T.live
  have hlen := I.free_length
  refine ⟨p, hp, ?_⟩
  constructor
  · exact (congrArg PoolStats.allocations hstats).trans T.allocations
  · exact (congrArg PoolStats.deallocations hstats).trans T.deallocations
  · exact (congrArg PoolStats.allocationFailures hstats).trans T.failures
  · have hsub := T.live_sub I.held_length
    rw [← hstats] at hsub
    exact hsub
  · rw [hlive]
    exact T.balance
  · exact ⟨free, I.chain, by rw [hlive, Nat.add_comm]; exact hlen⟩
  · have hpeak := T.peak
    rw [← hstats] at hpeak
    exact hpeak

/-- From nothing on, for clients that behave: with the decorators off, the same program gets the
same answers; and every decorator with a pool, wherever it has been moved, has counted the calls
made on that pool. The totals count modulo `2 ^ width`; `live_` and `peak_live_` are exact. -/
theorem decorators_exact {B : Build} {w : World} {es : List (Action × Reply)} {c : Program}
    (hrun : ((Program.lts B).guard (Program.WellBehaved B)).Run (.start w) es c) :
    (acting B).Run (Machine.start w) (bareEvents es) c.machine.bare ∧
      ∀ id object h, c.machine.objects id = some (.instrumented object) →
        object.pool.handle = some h →
        ∃ p, c.machine.handles h = some p ∧ Exact B c.machine object h p := by
  have hmachine : (acting B).Run (Machine.start w) es c.machine := 
    Program.run_machine hrun.of_guard
  exact ⟨run_bare hmachine, fun id object h hobj hh => ((Books.start B w).run hrun).exact hobj hh⟩

/-- A refusal, foreign and null pointers, and two moves, the second one onto a decorator that has a
pool of its own. -/
def movedProgram : List Action :=
  [.op (.makeInstrumented 0 firstEnv (.fixed 16 2)), .op (.allocate 0 (calm firstEnv)),
    .op (.moveConstruct 1 0), .op (.tryAllocate 1 (calm firstEnv)),
    .op (.allocate 1 (calm firstEnv)), .op (.makeInstrumented 2 secondEnv (.fixed 16 1)),
    .op (.moveAssign 2 1), .nativeFree 2 firstEnv 0x3000, .op (.deallocate 2 (calm firstEnv) 0),
    .op (.deallocate 2 (calm firstEnv) 0x1000)]

theorem decorators_exact_x64 :
    ∃ (es : List (Action × Reply)) (c : Program),
      (acting (Build.x64 false .none)).Run (Machine.start World.start) (bareEvents es)
          c.machine.bare ∧
        ∃ object p, c.machine.objects 2 = some (.instrumented object) ∧
          object.stats = ⟨2, 1, 1, 1, 2⟩ ∧ Exact (Build.x64 false .none) c.machine object 0 p := by
  have h : (Lts.script (Program.perform (Build.x64 false .none)) (Program.start World.start)
      movedProgram).map (fun r => r.2.machine.objects 2) =
      some (some (.instrumented ⟨⟨some 0⟩, 2, 1, 1, 1, 2, [], 0⟩)) := by decide +kernel
  obtain ⟨es, c, hrun, hobj⟩ :=
    Lts.script_reaches Program.perform_step (fun c => c.machine.objects 2) h
  obtain ⟨hbare, hexact⟩ := decorators_exact hrun
  obtain ⟨p, -, hp⟩ := hexact 2 _ 0 hobj rfl
  exact ⟨es, c, hbare, _, p, hobj, rfl, hp⟩

/-! ## The failure counter wraps -/

section Wrap

variable {B : Build} {c : Program}

theorem refused_spec (m : Machine) (id : Nat) {object : InstrumentedObject} {h : Nat}
    (hh : object.pool.handle = some h) (s : State) :
    (∃ object', (m.refused B id (some s) (.instrumented object)).objects id =
      some (.instrumented object') ∧ object'.pool = object.pool) ∧
    (m.refused B id (some s) (.instrumented object)).handles =
      Function.update m.handles h (some s.pool) ∧
    (m.refused B id (some s) (.instrumented object)).history =
      Function.update m.history h (m.history h ++ [.refused]) := by
  obtain ⟨-, hhandles, -, hhistory⟩ := afterCall_spec m id object
    (InstrumentedPool.recordFailure B { object.load m with pool := some s }) .refused
  refine ⟨⟨_, Function.update_self .., rfl⟩, hhandles.trans ?_, hhistory.trans ?_⟩
  · rw [hh]
    rfl
  · rw [hh]
    rfl

/-- The decorator `0` has a pool of fixed size, all of whose blocks are out. -/
structure Drained (B : Build) (c : Program) : Prop where
  books : Books B c.machine c.held
  object : ∃ object, c.machine.objects 0 = some (.instrumented object) ∧
    object.pool.handle = some 0
  empty : ∃ p, c.machine.handles 0 = some p ∧ p.head.ptr = 0 ∧ p.growFactor < 2

theorem failing_call (D : Drained B c) (env : CallEnv) :
    ∃ c', ((Program.lts B).guard (Program.WellBehaved B)).step c
        (.op (.tryAllocate 0 env), .block 0) c' ∧ Drained B c' ∧
      (c'.machine.history 0).count .refused = (c.machine.history 0).count .refused + 1 := by
  obtain ⟨object, hobj, hh⟩ := D.object
  obtain ⟨p, hp, hhead, hfixed⟩ := D.empty
  obtain ⟨others, free, I⟩ := D.books.tended.pool 0 p hp
  obtain ⟨s, halloc, hpool⟩ : ∃ s,
      memoryPoolAlloc B env.pool (c.machine.deref object.pool.handle) = (0, some s) ∧
        s.pool = p := by
    rw [hh, deref_some hp, memoryPoolAlloc_some]
    have hres := popHead_null I.layout I.unlocked hhead env.pool
    generalize popHead B env.pool _ = r at hres
    cases hres with
    | fail _ => exact ⟨_, rfl, rfl⟩
    | grow _ _ hgrow => exact absurd hgrow (Nat.not_le.mpr hfixed)
  let c' : Program :=
    ⟨c.machine.refused B 0 (some s) (.instrumented object),
      handOut c.held (c.machine.handleOf 0) 0⟩
  have hok : c.WellBehaved B (.op (.tryAllocate 0 env), .block 0) := by
    show ((c.machine.objects 0).any Object.isInstrumented) = true
    rw [hobj]
    rfl
  have hstep : (Program.lts B).step c (.op (.tryAllocate 0 env), .block 0) c' :=
    ⟨(exec_refused hobj halloc).2, rfl⟩
  obtain ⟨⟨object', hobj', hsame⟩, hhandles, hhistory⟩ := refused_spec c.machine 0 hh s
  refine ⟨c', ⟨hok, hstep⟩, ⟨D.books.act hok hstep, ⟨object', hobj', ?_⟩, p, ?_, hhead, hfixed⟩, ?_⟩
  · rw [hsame, hh]
  · rw [hhandles, Function.update_self, hpool]
  · rw [hhistory, Function.update_self, List.count_append]
    rfl

theorem failing_calls (D : Drained B c) (env : CallEnv) (k : Nat) :
    ∃ es c', ((Program.lts B).guard (Program.WellBehaved B)).Run c es c' ∧ Drained B c' ∧
      (c'.machine.history 0).count .refused = (c.machine.history 0).count .refused + k := by
  induction k with
  | zero => exact ⟨_, c, .nil, D, rfl⟩
  | succ k ih =>
    obtain ⟨es, c₁, hrun, D₁, hcount₁⟩ := ih
    obtain ⟨c₂, hstep, D₂, hcount₂⟩ := failing_call D₁ env
    exact ⟨_, c₂, hrun.snoc hstep, D₂, by rw [hcount₂, hcount₁, Nat.add_assoc]⟩

end Wrap

/-- One block, which the client takes, to ask for another one `2 ^ 64` times. -/
theorem failures_drift :
    ∃ (es : List (Action × Reply)) (c : Program) (object : InstrumentedObject),
      ((Program.lts (Build.x64 false .none)).guard
        (Program.WellBehaved (Build.x64 false .none))).Run (.start World.start) es c ∧
      c.machine.objects 0 = some (.instrumented object) ∧ object.pool.handle = some 0 ∧
      object.allocationFailures ≠ (c.machine.history 0).count .refused := by
  have h : (Lts.script (Program.perform (Build.x64 false .none)) (Program.start World.start)
      [.op (.makeInstrumented 0 firstEnv (.fixed 16 1)), .op (.allocate 0 (calm firstEnv))]).map
        (fun r => (r.2.machine.objects 0,
          (r.2.machine.handles 0).map fun p => (p.head.ptr, p.growFactor))) =
      some (some (.instrumented ⟨⟨some 0⟩, 1, 0, 0, 1, 1, [], 0⟩), some (0, 0)) := by
    decide +kernel
  obtain ⟨es₁, c₁, hrun₁, hc⟩ := Lts.script_reaches Program.perform_step
    (fun c => (c.machine.objects 0,
      (c.machine.handles 0).map fun p => (p.head.ptr, p.growFactor))) h
  obtain ⟨hobj, p, hp, hhead, hfixed⟩ :
      _ ∧ ∃ p, c₁.machine.handles 0 = some p ∧ p.head.ptr = 0 ∧ p.growFactor = 0 := by
    simpa [Option.map_eq_some_iff] using hc
  have D : Drained (Build.x64 false .none) c₁ :=
    ⟨(Books.start _ _).run hrun₁, ⟨_, hobj, rfl⟩, p, hp, hhead, by omega⟩
  obtain ⟨es₂, c₂, hrun₂, D₂, hcount⟩ :=
    failing_calls D (calm firstEnv) (Build.x64 false .none).modulus
  obtain ⟨object, hobj₂, hh⟩ := D₂.object
  obtain ⟨q, hq⟩ := D₂.books.pool hobj₂ hh
  have hfailures : object.allocationFailures =
      (c₂.machine.history 0).count .refused % (Build.x64 false .none).modulus :=
    (congrArg PoolStats.allocationFailures (D₂.books.owned.counted 0 _ 0 hobj₂ hh)).trans
      (D₂.books.tallied 0 q hq).failures
  refine ⟨_, c₂, object, hrun₁.trans hrun₂, hobj₂, hh, ?_⟩
  have hlt := Nat.mod_lt ((c₂.machine.history 0).count .refused)
    (Build.x64 false .none).modulus_pos
  omega

end Objects

end MemoryPool
