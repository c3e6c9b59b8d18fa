import MemoryPool.InstrumentedCorrect
import MemoryPool.Lib.Shares
import MemoryPool.Objects

/-!
# MemoryPool.ObjectsCorrect

Who owns the handles and the registrations, over every sequence of moves.

Both are shared out among the objects that exist: what the `log` says is destroyed or told belongs
to nobody any more (`Owned`). An assignment is the destructor of its target followed by a move
construction (`Owned.moveAssign`), so the moves need two lemmas.

* `Owned.create`, `Owned.transfer`, `Owned.destruct`, `Owned.addObserver`, `Owned.called`: what an
  operation does to the shares.
* `Effect`, `exec_effect`: what an operation can do to the machine at all.
* `Owned.exec`, `Machine.Empty.exec`: the step lemmas.
* `ownership`: every run.
-/

namespace MemoryPool

namespace Objects

/-! ## Counters -/

/-- What a call adds to the counters. -/
def Call.count (B : Build) (stats : PoolStats) : Call → PoolStats
  | .allocated =>
    { stats with
      allocations := B.add stats.allocations 1
      live := B.add stats.live 1
      peakLive := max stats.peakLive (B.add stats.live 1) }
  | .refused => { stats with allocationFailures := B.add stats.allocationFailures 1 }
  | .deallocated block =>
    if block = 0 then stats
    else
      { stats with
        deallocations := B.add stats.deallocations 1
        live := if 0 < stats.live then B.sub stats.live 1 else stats.live }

/-- The counters accumulated over the calls on a handle. -/
def statsOf (B : Build) (calls : List Call) : PoolStats :=
  calls.foldl (fun stats call => call.count B stats) ⟨0, 0, 0, 0, 0⟩

theorem statsOf_snoc (B : Build) (calls : List Call) (call : Call) :
    statsOf B (calls ++ [call]) = call.count B (statsOf B calls) := List.foldl_concat ..

/-- What a call does to a decorator besides the pool. -/
structure Called (B : Build) (ip ip' : InstrumentedPool) (call : Call) : Prop where
  stats : ip'.stats = call.count B ip.stats
  observers : ip'.observers = ip.observers
  notices : ∀ delivery ∈ ip'.delivered, delivery ∈ ip.delivered ∨ delivery.event ≠ .destroyed

section Calls

open InstrumentedPool

variable {B : Build} {env : CallEnv} {ip : InstrumentedPool}

theorem notify_notices {event : PoolEvent} (h : event ≠ .destroyed) :
    ∀ delivery ∈ (ip.notify event).delivered,
      delivery ∈ ip.delivered ∨ delivery.event ≠ .destroyed := by
  intro delivery hd
  rcases List.mem_append.mp hd with hd | hd
  · exact Or.inl hd
  · obtain ⟨observer, -, rfl⟩ := List.mem_map.mp hd
    exact Or.inr h

theorem notifyIfGrew_notices : ∀ delivery ∈ (ip.notifyIfGrew env).delivered,
    delivery ∈ ip.delivered ∨ delivery.event ≠ .destroyed := by
  rw [notifyIfGrew_eq]
  split
  · exact notify_notices (by simp)
  · intro delivery hd
    exact Or.inl hd

theorem refused_called {pool : Option State} :
    Called B ip (recordFailure B { ip with pool := pool }) .refused :=
  ⟨rfl, rfl, notify_notices (by simp)⟩

theorem allocated_called {pool : Option State} :
    Called B ip (notifyIfGrew env (recordAllocation B env { ip with pool := pool }))
      .allocated := by
  rw [recordAllocation_eq]
  obtain ⟨-, hstats, hobs⟩ := notifyIfGrew_frame env { ip with
    pool := pool
    allocations := B.add ip.allocations 1
    live := B.add ip.live 1
    peakLive := max ip.peakLive (B.add ip.live 1) }
  exact ⟨hstats, hobs, notifyIfGrew_notices⟩

theorem tryAllocate_called : Called B ip (ip.tryAllocate B env).2
    (if (ip.tryAllocate B env).1 = 0 then .refused else .allocated) := by
  simp only [tryAllocate]
  by_cases h : (Pool.tryAllocate B env.pool ip.pool).1 = 0
  · simp only [if_pos h, if_true]
    exact refused_called
  · simp only [if_neg h]
    exact allocated_called

theorem allocate_called : Called B ip (ip.allocate B env).2
    ((ip.allocate B env).1.elim .refused fun _ => .allocated) := by
  simp only [allocate]
  split
  · exact refused_called
  · exact allocated_called

theorem deallocate_called (block : Nat) :
    Called B ip (ip.deallocate B env block) (.deallocated block) := by
  rw [deallocate_eq]
  refine ⟨?_, rfl, fun delivery hd => Or.inl hd⟩
  simp only [stats, Call.count]
  by_cases h : block = 0
  · simp only [if_pos h]
  · simp only [if_neg h]
    rfl

end Calls

/-! ## Shares -/

def Entry.destroyed : Entry → Option Nat
  | .destroy handle => some handle
  | .notice _ _ => none

/-- The registration that a `destroyed` event is for. -/
def Entry.told : Entry → Option Nat
  | .notice delivery _ => if delivery.event = .destroyed then some delivery.observer else none
  | .destroy _ => none

def destroyed (log : List Entry) : List Nat := log.filterMap Entry.destroyed

def told (log : List Entry) : List Nat := log.filterMap Entry.told

def Machine.handlesOf (m : Machine) (id : Nat) : List Nat :=
  (m.objects id).elim [] fun object => object.handle.toList

def Machine.observersOf (m : Machine) (id : Nat) : List Nat :=
  (m.objects id).elim [] Object.observers

/-- A pool that nobody has adopted has counted nothing. -/
def Object.stats : Object → PoolStats
  | .pool _ => ⟨0, 0, 0, 0, 0⟩
  | .instrumented object => object.stats

/-- A handle is not mentioned in a notice after its destruction. -/
def InOrder (log : List Entry) : Prop :=
  log.Pairwise fun a b => ∀ h delivery, a = .destroy h → b ≠ .notice delivery (some h)

structure Owned (B : Build) (m : Machine) : Prop where
  handles : Shares (List.range m.created) (destroyed m.log) m.handlesOf
  live : ∀ id, ∀ h ∈ m.handlesOf id, (m.handles h).isSome = true
  registrations : Shares (List.range m.registrations.length) (told m.log) m.observersOf
  counted : ∀ id object h, m.objects id = some object → object.handle = some h →
    object.stats = statsOf B (m.history h)
  fresh : ∀ h, m.created ≤ h → m.history h = []
  told : ∀ delivery h, .notice delivery (some h) ∈ m.log → delivery.event = .destroyed →
    delivery.stats = statsOf B (m.history h) ∧ .destroy h ∈ m.log
  order : InOrder m.log

variable {B : Build} {m m' : Machine} {id source : Nat} {object other : Object}

theorem mem_destroyed {log : List Entry} {h : Nat} : h ∈ destroyed log ↔ .destroy h ∈ log := by
  simp only [destroyed, List.mem_filterMap]
  constructor
  · rintro ⟨entry, hentry, he⟩
    cases entry with
    | notice => cases he
    | destroy => cases he; exact hentry
  · intro hentry
    exact ⟨_, hentry, rfl⟩

theorem handlesOf_set (m : Machine) (id : Nat) (object : Option Object) :
    (m.setObject id object).handlesOf =
      Function.update m.handlesOf id (object.elim [] fun o => o.handle.toList) := by
  funext id'
  by_cases h : id' = id
  · subst h
    simp [Machine.handlesOf, Machine.setObject]
  · simp [Machine.handlesOf, Machine.setObject, h]

theorem observersOf_set (m : Machine) (id : Nat) (object : Option Object) :
    (m.setObject id object).observersOf =
      Function.update m.observersOf id (object.elim [] Object.observers) := by
  funext id'
  by_cases h : id' = id
  · subst h
    simp [Machine.observersOf, Machine.setObject]
  · simp [Machine.observersOf, Machine.setObject, h]

theorem handlesOf_eq (h : m.objects id = some object) : m.handlesOf id = object.handle.toList := by
  rw [Machine.handlesOf, h]
  rfl

theorem observersOf_eq (h : m.objects id = some object) : m.observersOf id = object.observers := by
  rw [Machine.observersOf, h]
  rfl

theorem Owned.start (w : World) : Owned B (Machine.start w) where
  handles := Shares.all_free .nil
  live _ _ h := by cases h
  registrations := Shares.all_free .nil
  counted _ _ _ h := by cases h
  fresh _ _ := rfl
  told _ _ h := by cases h
  order := .nil

/-- All that `old` has goes to `object`, and `left` is what stays behind. -/
structure Handover (old left object : Object) : Prop where
  handle : object.handle = old.handle
  observers : object.observers = old.observers
  stats : object.stats = old.stats
  left_handle : left.handle = none
  left_observers : left.observers = []

namespace Owned

theorem handle_lt (O : Owned B m) {h : Nat} (hh : h ∈ m.handlesOf id) : h < m.created :=
  List.mem_range.mp (O.handles.owned_mem hh)

theorem owns (h : m.objects id = some object) {handle : Nat} (hh : object.handle = some handle) :
    handle ∈ m.handlesOf id := by
  rw [handlesOf_eq h, hh]
  exact List.mem_singleton_self _

/-- What is not an object's nor in the log may change. -/
theorem congr (O : Owned B m) (hcreated : m'.created = m.created)
    (hlive : ∀ h, (m.handles h).isSome = true → (m'.handles h).isSome = true)
    (hreg : m'.registrations = m.registrations) (hobj : m'.objects = m.objects)
    (hlog : m'.log = m.log) (hhist : m'.history = m.history) : Owned B m' := by
  have h1 : m'.handlesOf = m.handlesOf := by unfold Machine.handlesOf; rw [hobj]
  have h2 : m'.observersOf = m.observersOf := by unfold Machine.observersOf; rw [hobj]
  refine ⟨?_, ?_, ?_, ?_, ?_, ?_, ?_⟩
  · rw [hcreated, hlog, h1]; exact O.handles
  · rw [h1]; exact fun id h hh => hlive h (O.live id h hh)
  · rw [hreg, hlog, h2]; exact O.registrations
  · rw [hobj, hhist]; exact O.counted
  · rw [hcreated, hhist]; exact O.fresh
  · rw [hlog, hhist]; exact O.told
  · rw [hlog]; exact O.order

/-- A handle that a create function has returned, with an object around it. -/
theorem create (O : Owned B m) {env : Env} {call : CreateCall} {handle : Nat}
    (hc : m.create B env call = (some handle, m')) (hid : m.objects id = none)
    (hh : object.handle = some handle) (hobs : object.observers = [])
    (hstats : object.stats = ⟨0, 0, 0, 0, 0⟩) : Owned B (m'.setObject id (some object)) := by
  unfold Machine.create at hc
  split at hc
  · cases hc
  cases hc
  have hno : m.handlesOf id = [] := by rw [Machine.handlesOf, hid]; rfl
  have hnoreg : m.observersOf id = [] := by rw [Machine.observersOf, hid]; rfl
  refine ⟨?_, ?_, ?_, ?_, ?_, O.told, O.order⟩
  · rw [handlesOf_set]
    simp only [Option.elim_some, hh]
    have S := O.handles.gain (b := m.created) (by simp) id
    rw [hno] at S
    refine S.congr fun a => ?_
    show a ∈ List.range (m.created + 1) ↔ _
    simp only [List.mem_range, List.mem_cons]
    omega
  · rw [handlesOf_set]
    simp only [Option.elim_some, hh]
    intro id' h hm
    show (Function.update m.handles m.created _ h).isSome = true
    by_cases hid' : id' = id
    · subst hid'
      rw [Function.update_self] at hm
      obtain rfl := List.mem_singleton.mp hm
      rw [Function.update_self]
      rfl
    · rw [Function.update_of_ne hid'] at hm
      have hlt := O.handle_lt hm
      rw [Function.update_of_ne (by omega)]
      exact O.live id' h hm
  · rw [observersOf_set]
    simp only [Option.elim_some, hobs]
    show Shares (List.range m.registrations.length) (Objects.told m.log)
      (Function.update m.observersOf id [])
    rw [← hnoreg, Function.update_eq_self]
    exact O.registrations
  · intro id' object' h hobj hh'
    show object'.stats = statsOf B (m.history h)
    by_cases hid' : id' = id
    · subst hid'
      simp only [Machine.setObject, Function.update_self, Option.some.injEq] at hobj
      subst hobj
      rw [hh] at hh'
      cases hh'
      rw [O.fresh m.created (Nat.le_refl _), hstats]
      rfl
    · simp only [Machine.setObject, Function.update_of_ne hid'] at hobj
      exact O.counted id' object' h hobj hh'
  · intro h hle
    exact O.fresh h (Nat.le_of_succ_le hle)

/-- All that the source has goes to a new object. -/
theorem transfer (O : Owned B m) (hid : m.objects id = none) {old left : Object}
    (hsource : m.objects source = some old) (H : Handover old left object) :
    Owned B ((m.setObject source (some left)).setObject id (some object)) := by
  obtain ⟨hh, hobs, hstats, hleft, hleft'⟩ := H
  have hne : id ≠ source := by
    rintro rfl
    rw [hid] at hsource
    cases hsource
  have hno : m.handlesOf id = [] := by rw [Machine.handlesOf, hid]; rfl
  have hnoreg : m.observersOf id = [] := by rw [Machine.observersOf, hid]; rfl
  refine ⟨?_, ?_, ?_, ?_, O.fresh, O.told, O.order⟩
  · rw [handlesOf_set, handlesOf_set]
    simp only [Option.elim_some, hh, hleft, Option.toList_none, ← handlesOf_eq hsource]
    exact O.handles.transfer hne hno
  · intro id' h hm
    rw [handlesOf_set, handlesOf_set] at hm
    simp only [Option.elim_some, hh, hleft, Option.toList_none, ← handlesOf_eq hsource] at hm
    by_cases h1 : id' = id
    · rw [h1, Function.update_self] at hm
      exact O.live source h hm
    · rw [Function.update_of_ne h1] at hm
      by_cases h2 : id' = source
      · rw [h2, Function.update_self] at hm
        cases hm
      · rw [Function.update_of_ne h2] at hm
        exact O.live id' h hm
  · rw [observersOf_set, observersOf_set]
    simp only [Option.elim_some, hobs, hleft', ← observersOf_eq hsource]
    exact O.registrations.transfer hne hnoreg
  · intro id' object' h hobj hh'
    show object'.stats = statsOf B (m.history h)
    by_cases h1 : id' = id
    · subst h1
      simp only [Machine.setObject, Function.update_self, Option.some.injEq] at hobj
      subst hobj
      rw [hstats]
      exact O.counted source old h hsource (hh.symm.trans hh')
    · by_cases h2 : id' = source
      · subst h2
        simp only [Machine.setObject, Function.update_of_ne h1, Function.update_self,
          Option.some.injEq] at hobj
        subst hobj
        rw [hleft] at hh'
        cases hh'
      · simp only [Machine.setObject, Function.update_of_ne h1, Function.update_of_ne h2] at hobj
        exact O.counted id' object' h hobj hh'

theorem addObserver (O : Owned B m) {object : InstrumentedObject} (observer : Nat)
    (hobj : m.objects id = some (.instrumented object)) :
    Owned B ({ m with registrations := m.registrations ++ [observer] }.setObject id
      (some (.instrumented
        { object with observers := object.observers ++ [m.registrations.length] }))) := by
  have hupd : Function.update m.handlesOf id object.pool.handle.toList = m.handlesOf := by
    rw [show object.pool.handle.toList = m.handlesOf id from (handlesOf_eq hobj).symm,
      Function.update_eq_self]
  refine ⟨?_, ?_, ?_, ?_, O.fresh, O.told, O.order⟩
  · rw [handlesOf_set]
    show Shares _ _ (Function.update m.handlesOf id object.pool.handle.toList)
    rw [hupd]
    exact O.handles
  · rw [handlesOf_set]
    show ∀ id', ∀ h ∈ Function.update m.handlesOf id object.pool.handle.toList id', _
    rw [hupd]
    exact O.live
  · rw [observersOf_set]
    have S := O.registrations.gain (b := m.registrations.length) (by simp) id
    rw [observersOf_eq hobj] at S
    show Shares (List.range (m.registrations ++ [observer]).length) _
      (Function.update m.observersOf id (object.observers ++ [m.registrations.length]))
    refine (S.congr fun a => ?_).rearrange fun id' => ?_
    · simp only [List.length_append, List.length_singleton, List.mem_range, List.mem_cons]
      omega
    · by_cases hid : id' = id
      · subst hid
        simp only [Function.update_self]
        exact List.perm_append_singleton _ _
      · simp only [Function.update_of_ne hid]
        exact List.Perm.refl _
  · intro id' object' h hobj' hh
    show object'.stats = statsOf B (m.history h)
    by_cases hid : id' = id
    · subst hid
      simp only [Machine.setObject, Function.update_self, Option.some.injEq] at hobj'
      subst hobj'
      exact O.counted id' (.instrumented object) h hobj hh
    · simp only [Machine.setObject, Function.update_of_ne hid] at hobj'
      exact O.counted id' object' h hobj' hh

end Owned

/-! ## Destruction -/

theorem destroyed_append (log log' : List Entry) :
    destroyed (log ++ log') = destroyed log ++ destroyed log' := List.filterMap_append ..

theorem told_append (log log' : List Entry) : told (log ++ log') = told log ++ told log' :=
  List.filterMap_append ..

/-- What an object's end adds to the log. -/
def Object.lastWords (object : Object) : List Entry :=
  (object.observers.map fun observer =>
    .notice ⟨observer, .destroyed, object.stats⟩ object.handle) ++ object.handle.toList.map .destroy

theorem destroyed_lastWords (object : Object) :
    destroyed object.lastWords = object.handle.toList := by
  unfold Object.lastWords
  rw [destroyed_append]
  have h1 : destroyed (object.observers.map fun observer =>
      .notice ⟨observer, .destroyed, object.stats⟩ object.handle) = [] := by
    simp [destroyed, Entry.destroyed]
  rw [h1]
  cases object.handle <;> rfl

theorem told_lastWords (object : Object) : told object.lastWords = object.observers := by
  unfold Object.lastWords
  rw [told_append]
  have h1 : told (object.handle.toList.map .destroy) = [] := by cases object.handle <;> rfl
  rw [h1, List.append_nil, told, List.filterMap_map]
  simp [Function.comp_def, Entry.told]

theorem destroy_some (m : Machine) (handle : Option Nat) :
    (m.destroy handle).log = m.log ++ handle.toList.map .destroy ∧
      (m.destroy handle).created = m.created ∧ (m.destroy handle).objects = m.objects ∧
      (m.destroy handle).registrations = m.registrations ∧
      (m.destroy handle).history = m.history ∧
      ∀ h, handle ≠ some h → (m.destroy handle).handles h = m.handles h := by
  cases handle with
  | none => exact ⟨(List.append_nil _).symm, rfl, rfl, rfl, rfl, fun _ _ => rfl⟩
  | some handle =>
    refine ⟨rfl, rfl, rfl, rfl, rfl, fun h hne => ?_⟩
    refine Function.update_of_ne ?_ _ _
    rintro rfl
    exact hne rfl

theorem destruct_spec (m : Machine) (object : Object) :
    (object.destruct m).log = m.log ++ object.lastWords ∧
      (object.destruct m).created = m.created ∧ (object.destruct m).objects = m.objects ∧
      (object.destruct m).registrations = m.registrations ∧
      (object.destruct m).history = m.history ∧
      ∀ h, object.handle ≠ some h → (object.destruct m).handles h = m.handles h := by
  cases object with
  | pool object => exact destroy_some m object.handle
  | instrumented object =>
    obtain ⟨h1, h2, h3, h4, h5, h6⟩ :=
      destroy_some (m.notify object .destroyed) object.pool.handle
    exact ⟨h1.trans (List.append_assoc _ _ _), h2, h3, h4, h5, h6⟩

/-- A new entry does not mention a handle that is destroyed already. -/
theorem InOrder.append {log new : List Entry} (h : InOrder log) (hnew : InOrder new)
    (hcross : ∀ delivery handle, .notice delivery (some handle) ∈ new → .destroy handle ∉ log) :
    InOrder (log ++ new) := by
  refine List.pairwise_append.mpr ⟨h, hnew, ?_⟩
  rintro a ha b hb handle delivery rfl rfl
  exact hcross delivery handle hb ha

theorem lastWords_inOrder (object : Object) : InOrder object.lastWords := by
  refine InOrder.append ?_ ?_ ?_
  · refine List.pairwise_map.mpr (List.pairwise_of_forall fun _ _ h delivery heq => ?_)
    cases heq
  · refine List.pairwise_map.mpr (List.pairwise_of_forall fun _ _ h delivery _ heq => ?_)
    cases heq
  · intro delivery handle hmem
    obtain ⟨_, -, heq⟩ := List.mem_map.mp hmem
    cases heq

theorem Owned.not_destroyed (O : Owned B m) {h : Nat} (hh : h ∈ m.handlesOf id) :
    .destroy h ∉ m.log := fun hd => O.handles.apart id h (mem_destroyed.mpr hd) hh

theorem Owned.destruct (O : Owned B m) (hobj : m.objects id = some object) :
    Owned B ((object.destruct m).setObject id none) := by
  obtain ⟨hlog, hcreated, hobjects, hreg, hhist, hlive⟩ := destruct_spec m object
  have hmine : ∀ h, object.handle = some h → .destroy h ∉ m.log := fun h hh =>
    O.not_destroyed (Owned.owns hobj hh)
  have h1 : (object.destruct m).handlesOf = m.handlesOf := by
    unfold Machine.handlesOf
    rw [hobjects]
  have h2 : (object.destruct m).observersOf = m.observersOf := by
    unfold Machine.observersOf
    rw [hobjects]
  have hhandles : ((object.destruct m).setObject id none).handlesOf =
      Function.update m.handlesOf id [] := by
    rw [handlesOf_set, h1]
    rfl
  have hobservers : ((object.destruct m).setObject id none).observersOf =
      Function.update m.observersOf id [] := by
    rw [observersOf_set, h2]
    rfl
  refine ⟨?_, ?_, ?_, ?_, ?_, ?_, ?_⟩
  · rw [hhandles]
    show Shares (List.range (object.destruct m).created) (destroyed (object.destruct m).log) _
    rw [hcreated, hlog, destroyed_append, destroyed_lastWords, ← handlesOf_eq hobj]
    exact O.handles.release List.perm_append_comm
  · rw [hhandles]
    intro id' h hm
    show ((object.destruct m).handles h).isSome = true
    by_cases hid : id' = id
    · rw [hid, Function.update_self] at hm
      cases hm
    · rw [Function.update_of_ne hid] at hm
      rw [hlive h fun hh => hid (O.handles.exclusive id' id h hm (Owned.owns hobj hh))]
      exact O.live id' h hm
  · rw [hobservers]
    show Shares (List.range (object.destruct m).registrations.length)
      (Objects.told (object.destruct m).log) _
    rw [hreg, hlog, told_append, told_lastWords, ← observersOf_eq hobj]
    exact O.registrations.release List.perm_append_comm
  · intro id' object' h hobj' hh
    show object'.stats = statsOf B ((object.destruct m).history h)
    rw [hhist]
    by_cases hid : id' = id
    · subst hid
      simp [Machine.setObject] at hobj'
    · simp only [Machine.setObject, Function.update_of_ne hid, hobjects] at hobj'
      exact O.counted id' object' h hobj' hh
  · intro h hle
    show (object.destruct m).history h = []
    rw [hhist]
    exact O.fresh h (hcreated ▸ hle)
  · intro delivery h hmem hev
    show delivery.stats = statsOf B ((object.destruct m).history h) ∧
      .destroy h ∈ (object.destruct m).log
    replace hmem : Entry.notice delivery (some h) ∈ (object.destruct m).log := hmem
    rw [hlog, List.mem_append] at hmem
    rw [hhist, hlog, List.mem_append]
    rcases hmem with hmem | hmem
    · obtain ⟨hs, hd⟩ := O.told delivery h hmem hev
      exact ⟨hs, Or.inl hd⟩
    · rcases List.mem_append.mp hmem with hmem | hmem
      · obtain ⟨observer, -, heq⟩ := List.mem_map.mp hmem
        injection heq with hd hh
        refine ⟨?_, Or.inr (List.mem_append_right _ ?_)⟩
        · rw [← hd]
          exact O.counted id object h hobj hh
        · rw [hh]
          exact List.mem_singleton_self _
      · obtain ⟨_, -, heq⟩ := List.mem_map.mp hmem
        cases heq
  · show InOrder (object.destruct m).log
    rw [hlog]
    refine O.order.append (lastWords_inOrder object) ?_
    intro delivery handle hmem
    rcases List.mem_append.mp hmem with hmem | hmem
    · obtain ⟨observer, -, heq⟩ := List.mem_map.mp hmem
      injection heq with _ hh
      exact hmine handle hh
    · obtain ⟨_, -, heq⟩ := List.mem_map.mp hmem
      cases heq

/-! ## Calls -/

theorem store_spec (m : Machine) (handle : Option Nat) (s : Option State) :
    (m.store handle s).created = m.created ∧ (m.store handle s).objects = m.objects ∧
      (m.store handle s).registrations = m.registrations ∧ (m.store handle s).log = m.log ∧
      (m.store handle s).history = m.history ∧
      ∀ h, (m.handles h).isSome = true → ((m.store handle s).handles h).isSome = true := by
  unfold Machine.store
  split
  · rename_i handle s
    refine ⟨rfl, rfl, rfl, rfl, rfl, fun h hh => ?_⟩
    show (Function.update m.handles handle (some s.pool) h).isSome = true
    by_cases heq : h = handle
    · rw [heq, Function.update_self]
      rfl
    · rw [Function.update_of_ne heq]
      exact hh
  · exact ⟨rfl, rfl, rfl, rfl, rfl, fun _ hh => hh⟩

theorem Owned.store (O : Owned B m) (handle : Option Nat) (s : Option State) :
    Owned B (m.store handle s) := by
  obtain ⟨h1, h2, h3, h4, h5, h6⟩ := store_spec m handle s
  exact O.congr h1 h6 h3 h2 h4 h5

/-- The notices of a call, none of them of a destruction. -/
theorem Owned.notices (O : Owned B m) {new : List Delivery}
    (hobj : m.objects id = some object) (hnew : ∀ delivery ∈ new, delivery.event ≠ .destroyed) :
    Owned B { m with log := m.log ++ new.map fun delivery => .notice delivery object.handle } := by
  let notices := new.map fun delivery => Entry.notice delivery object.handle
  have h1 : destroyed notices = [] := by simp [notices, destroyed, Entry.destroyed]
  have h2 : Objects.told notices = [] := by
    simp only [notices, Objects.told, List.filterMap_map]
    refine List.filterMap_eq_nil_iff.mpr fun delivery hd => ?_
    simp [Entry.told, hnew delivery hd]
  refine ⟨?_, O.live, ?_, O.counted, O.fresh, ?_, ?_⟩
  · show Shares (List.range m.created) (destroyed (m.log ++ notices)) m.handlesOf
    rw [destroyed_append, h1, List.append_nil]
    exact O.handles
  · show Shares (List.range m.registrations.length) (Objects.told (m.log ++ notices)) m.observersOf
    rw [told_append, h2, List.append_nil]
    exact O.registrations
  · intro delivery h hmem hev
    rcases List.mem_append.mp hmem with hmem | hmem
    · obtain ⟨hs, hd⟩ := O.told delivery h hmem hev
      exact ⟨hs, List.mem_append_left _ hd⟩
    · obtain ⟨delivery', hd, heq⟩ := List.mem_map.mp hmem
      injection heq with heq
      exact absurd hev (heq ▸ hnew delivery' hd)
  · refine O.order.append ?_ ?_
    · refine List.pairwise_map.mpr (List.pairwise_of_forall fun _ _ h delivery heq => ?_)
      cases heq
    · intro delivery handle hmem
      obtain ⟨delivery', -, heq⟩ := List.mem_map.mp hmem
      injection heq with _ hh
      exact O.not_destroyed (Owned.owns hobj hh)

/-- A call is added to the history of the handle, and the counters follow. -/
theorem Owned.record (O : Owned B m) {old new : InstrumentedObject} {call : Call}
    (hobj : m.objects id = some (.instrumented old)) (hpool : new.pool = old.pool)
    (hobs : new.observers = old.observers) (hstats : new.stats = call.count B old.stats) :
    Owned B ((m.record old.pool.handle call).setObject id (some (.instrumented new))) := by
  have hspec : (m.record old.pool.handle call).created = m.created ∧
      (m.record old.pool.handle call).objects = m.objects ∧
      (m.record old.pool.handle call).registrations = m.registrations ∧
      (m.record old.pool.handle call).log = m.log ∧
      (m.record old.pool.handle call).handles = m.handles := by
    unfold Machine.record
    split <;> exact ⟨rfl, rfl, rfl, rfl, rfl⟩
  have hown : ∀ h, old.pool.handle = some h → h ∈ m.handlesOf id := fun h hh =>
    Owned.owns hobj hh
  have hother : ∀ h, old.pool.handle ≠ some h →
      (m.record old.pool.handle call).history h = m.history h := by
    intro h hne
    unfold Machine.record
    split
    · rfl
    · rename_i handle heq
      refine Function.update_of_ne ?_ _ _
      rintro rfl
      exact hne heq
  have hmine : ∀ h, old.pool.handle = some h →
      (m.record old.pool.handle call).history h = m.history h ++ [call] := by
    intro h hh
    rw [hh]
    exact Function.update_self ..
  obtain ⟨hcreated, hobjects, hreg, hlog, hhandles⟩ := hspec
  generalize m.record old.pool.handle call = m₁ at *
  have h1 : (m₁.setObject id (some (.instrumented new))).handlesOf = m.handlesOf := by
    rw [handlesOf_set, show m₁.handlesOf = m.handlesOf by unfold Machine.handlesOf; rw [hobjects]]
    show Function.update m.handlesOf id new.pool.handle.toList = m.handlesOf
    rw [hpool, show old.pool.handle.toList = m.handlesOf id from (handlesOf_eq hobj).symm,
      Function.update_eq_self]
  have h2 : (m₁.setObject id (some (.instrumented new))).observersOf = m.observersOf := by
    rw [observersOf_set,
      show m₁.observersOf = m.observersOf by unfold Machine.observersOf; rw [hobjects]]
    show Function.update m.observersOf id new.observers = m.observersOf
    rw [hobs, show old.observers = m.observersOf id from (observersOf_eq hobj).symm,
      Function.update_eq_self]
  refine ⟨?_, ?_, ?_, ?_, ?_, ?_, ?_⟩
  · rw [h1]
    show Shares (List.range m₁.created) (destroyed m₁.log) _
    rw [hcreated, hlog]
    exact O.handles
  · rw [h1]
    show ∀ id, ∀ h ∈ m.handlesOf id, (m₁.handles h).isSome = true
    rw [hhandles]
    exact O.live
  · rw [h2]
    show Shares (List.range m₁.registrations.length) (Objects.told m₁.log) _
    rw [hreg, hlog]
    exact O.registrations
  · intro id' object' h hobj' hh
    show object'.stats = statsOf B (m₁.history h)
    by_cases hid : id' = id
    · subst hid
      simp only [Machine.setObject, Function.update_self, Option.some.injEq] at hobj'
      subst hobj'
      have hh' : old.pool.handle = some h := by
        rw [← hpool]
        exact hh
      rw [hmine h hh', statsOf_snoc, ← O.counted id' (.instrumented old) h hobj hh']
      exact hstats
    · simp only [Machine.setObject, Function.update_of_ne hid, hobjects] at hobj'
      rw [hother h fun hh' => hid (O.handles.exclusive id' id h (Owned.owns hobj' hh) (hown h hh'))]
      exact O.counted id' object' h hobj' hh
  · intro h hle
    replace hle : m₁.created ≤ h := hle
    rw [hcreated] at hle
    show m₁.history h = []
    rw [hother h fun hh => absurd (O.handle_lt (hown h hh)) (by omega)]
    exact O.fresh h hle
  · intro delivery h hmem hev
    replace hmem : Entry.notice delivery (some h) ∈ m₁.log := hmem
    rw [hlog] at hmem
    obtain ⟨hs, hd⟩ := O.told delivery h hmem hev
    show delivery.stats = statsOf B (m₁.history h) ∧ .destroy h ∈ m₁.log
    rw [hlog, hother h fun hh => O.not_destroyed (hown h hh) hd]
    exact ⟨hs, hd⟩
  · show InOrder m₁.log
    rw [hlog]
    exact O.order

theorem Owned.called (O : Owned B m) {old : InstrumentedObject} {ip : InstrumentedPool}
    {call : Call} (hobj : m.objects id = some (.instrumented old))
    (hcalled : Called B (old.load m) ip call) :
    Owned B (m.afterCall id old ip call) := by
  have O₁ := O.store old.pool.handle ip.pool
  obtain ⟨-, hobjects, -, -, -, -⟩ := store_spec m old.pool.handle ip.pool
  have hnew : ∀ delivery ∈ ip.delivered, delivery.event ≠ .destroyed := by
    intro delivery hd
    rcases hcalled.notices delivery hd with h | h
    · cases h
    · exact h
  have hobj₁ : (m.store old.pool.handle ip.pool).objects id = some (.instrumented old) := by
    rw [hobjects]
    exact hobj
  exact (O₁.notices hobj₁ hnew).record hobj₁ rfl hcalled.observers hcalled.stats

/-! ## One operation -/

theorem Owned.failed_create (O : Owned B m) {env : Env} {call : CreateCall}
    (hc : m.create B env call = (none, m')) : Owned B m' := by
  unfold Machine.create at hc
  split at hc
  · cases hc
    exact O.congr rfl (fun _ h => h) rfl rfl rfl rfl
  · cases hc

/-- The temporaries of the factories hold nothing when they go. -/
theorem makePool_eq (m : Machine) (env : Env) (call : CreateCall) :
    m.makePool B env call =
      ((m.create B env call).1.map fun handle => ⟨some handle⟩, (m.create B env call).2) := by
  unfold Machine.makePool
  split
  · rename_i h
    rw [h]
    rfl
  · rename_i h
    rw [h]
    rfl

theorem makeInstrumented_eq (m : Machine) (env : Env) (call : CreateCall) :
    m.makeInstrumented B env call =
      ((m.create B env call).1.map fun handle => ⟨⟨some handle⟩, 0, 0, 0, 0, 0, [], 0⟩,
        (m.create B env call).2) := by
  unfold Machine.makeInstrumented
  rw [makePool_eq]
  generalize m.create B env call = r
  obtain ⟨handle, m'⟩ := r
  cases handle with
  | none => rfl
  | some handle =>
    simp [InstrumentedObject.adopt, InstrumentedObject.moveConstruct, PoolObject.moveConstruct,
      InstrumentedObject.destruct, PoolObject.destruct, Machine.notify, Machine.destroy]

theorem setObject_set {id source : Nat} (m : Machine) (hne : id ≠ source)
    (a b c : Option Object) : ((m.setObject id a).setObject source b).setObject id c =
      (m.setObject source b).setObject id c := by
  simp only [Machine.setObject]
  rw [Function.update_comm hne, Function.update_idem]

/-- An assignment is the destructor of its target and a move construction in its place. -/
theorem Owned.moveAssign (O : Owned B m) {this old left : Object} (hne : id ≠ source)
    (hid : m.objects id = some this) (hsource : m.objects source = some old)
    (H : Handover old left object) :
    Owned B (((this.destruct m).setObject source (some left)).setObject id (some object)) := by
  obtain ⟨-, -, hobjects, -, -, -⟩ := destruct_spec m this
  have hnone : ((this.destruct m).setObject id none).objects id = none := by
    simp [Machine.setObject]
  have hold : ((this.destruct m).setObject id none).objects source = some old := by
    simp [Machine.setObject, hne.symm, hobjects, hsource]
  have O' := (O.destruct hid).transfer hnone hold H
  rw [setObject_set _ hne] at O'
  exact O'

/-- The operation leaves object `id` without its handle. -/
def Op.movesFrom (id : Nat) : Op → Prop
  | .adopt _ source | .moveConstruct _ source => source = id
  | .moveAssign target source => source = id ∧ target ≠ id
  | _ => False

/-- The operation gives object `id` another value, or ends it. -/
def Op.renews (id : Nat) : Op → Prop
  | .moveAssign target source => target = id ∧ source ≠ id
  | .destruct target => target = id
  | _ => False

/-- What an operation does to the machine. -/
inductive Effect (B : Build) (m : Machine) (op : Op) : Machine → Prop where
  | failed {env : Env} {call : CreateCall} {m' : Machine}
    (hc : m.create B env call = (none, m')) : Effect B m op m'
  | created {env : Env} {call : CreateCall} {m' : Machine} {id handle : Nat} {object : Object}
    (hc : m.create B env call = (some handle, m')) (hid : m.objects id = none)
    (hh : object.handle = some handle) (hobs : object.observers = [])
    (hstats : object.stats = ⟨0, 0, 0, 0, 0⟩) : Effect B m op (m'.setObject id (some object))
  | moved {id source : Nat} {old left object : Object} (hop : op.movesFrom source)
    (hid : m.objects id = none) (hsource : m.objects source = some old)
    (H : Handover old left object) :
    Effect B m op ((m.setObject source (some left)).setObject id (some object))
  | same : Effect B m op m
  | assigned {id source : Nat} {this old left object : Object} (hop : op = .moveAssign id source)
    (hne : id ≠ source) (hid : m.objects id = some this) (hsource : m.objects source = some old)
    (H : Handover old left object) :
    Effect B m op (((this.destruct m).setObject source (some left)).setObject id (some object))
  | observed {id : Nat} {object : InstrumentedObject} (observer : Nat)
    (hid : m.objects id = some (.instrumented object)) :
    Effect B m op ({ m with registrations := m.registrations ++ [observer] }.setObject id
      (some (.instrumented
        { object with observers := object.observers ++ [m.registrations.length] })))
  | stored (handle : Option Nat) (s : Option State) : Effect B m op (m.store handle s)
  | called {id : Nat} {old : InstrumentedObject} {ip : InstrumentedPool} {call : Call}
    (hid : m.objects id = some (.instrumented old)) (hcalled : Called B (old.load m) ip call) :
    Effect B m op (m.afterCall id old ip call)
  | destructed {id : Nat} {object : Object} (hop : op = .destruct id)
    (hid : m.objects id = some object) : Effect B m op ((object.destruct m).setObject id none)
  | written (w : World) : Effect B m op { m with world := w }

theorem exec_effect {op : Op} {reply : Reply} (h : m.exec B op = some (reply, m')) :
    Effect B m op m' := by
  cases op with
  | construct id env blockSize blockCount =>
    simp only [Machine.exec] at h
    split at h
    · cases h
    · rename_i hid
      split at h <;> rename_i hc <;> cases h
      · exact .failed hc
      · exact .created hc hid rfl rfl rfl
  | make id env call =>
    simp only [Machine.exec, makePool_eq] at h
    split at h
    · cases h
    · rename_i hid
      rcases hc : m.create B env call with ⟨_ | handle, m₁⟩ <;> rw [hc] at h <;> cases h
      · exact .failed hc
      · exact .created hc hid rfl rfl rfl
  | makeInstrumented id env call =>
    simp only [Machine.exec, makeInstrumented_eq] at h
    split at h
    · cases h
    · rename_i hid
      rcases hc : m.create B env call with ⟨_ | handle, m₁⟩ <;> rw [hc] at h <;> cases h
      · exact .failed hc
      · exact .created hc hid rfl rfl rfl
  | adopt id source =>
    simp only [Machine.exec] at h
    split at h
    · rename_i hid hsource
      cases h
      exact .moved rfl hid hsource ⟨rfl, rfl, rfl, rfl, rfl⟩
    · cases h
  | moveConstruct id source =>
    simp only [Machine.exec] at h
    split at h
    · rename_i hid hsource
      cases h
      exact .moved rfl hid hsource ⟨rfl, rfl, rfl, rfl, rfl⟩
    · rename_i hid hsource
      cases h
      exact .moved rfl hid hsource ⟨rfl, rfl, rfl, rfl, rfl⟩
    · cases h
  | moveAssign id source =>
    simp only [Machine.exec] at h
    split at h
    · rename_i hid hsource
      split at h
      · cases h
        exact .same
      · rename_i hne
        cases h
        exact .assigned rfl hne hid hsource ⟨rfl, rfl, rfl, rfl, rfl⟩
    · rename_i hid hsource
      split at h
      · cases h
        exact .same
      · rename_i hne
        cases h
        exact .assigned rfl hne hid hsource ⟨rfl, rfl, rfl, rfl, rfl⟩
    · cases h
  | addObserver id observer =>
    simp only [Machine.exec] at h
    split at h
    · rename_i hid
      cases h
      exact .observed observer hid
    · cases h
  | allocate id env =>
    simp only [Machine.exec] at h
    split at h
    · cases h
      exact .stored _ _
    · rename_i hid
      cases h
      exact .called hid allocate_called
    · cases h
  | tryAllocate id env =>
    simp only [Machine.exec] at h
    split at h
    · cases h
      exact .stored _ _
    · rename_i hid
      cases h
      exact .called hid tryAllocate_called
    · cases h
  | deallocate id env block =>
    simp only [Machine.exec] at h
    split at h
    · cases h
      exact .stored _ _
    · rename_i hid
      cases h
      exact .called hid (deallocate_called block)
    · cases h
  | destruct id =>
    simp only [Machine.exec] at h
    split at h
    · rename_i hid
      cases h
      exact .destructed rfl hid
    · cases h
  | write addr byte =>
    cases h
    exact .written _

theorem Owned.exec (O : Owned B m) {op : Op} {reply : Reply}
    (h : m.exec B op = some (reply, m')) : Owned B m' := by
  cases exec_effect h with
  | failed hc => exact O.failed_create hc
  | created hc hid hh hobs hstats => exact O.create hc hid hh hobs hstats
  | moved _ hid hsource H => exact O.transfer hid hsource H
  | same => exact O
  | assigned _ hne hid hsource H => exact O.moveAssign hne hid hsource H
  | observed observer hid => exact O.addObserver observer hid
  | stored handle s => exact O.store handle s
  | called hid hcalled => exact O.called hid hcalled
  | destructed _ hid => exact O.destruct hid
  | written w => exact O.congr rfl (fun _ h => h) rfl rfl rfl rfl

/-! ## Moved-from objects -/

/-- The call of an object whose core answers null, be it exhausted or moved from. -/
def Machine.refused (B : Build) (m : Machine) (id : Nat) (s : Option State) : Object → Machine
  | .pool object => m.store object.handle s
  | .instrumented object =>
    m.afterCall id object (InstrumentedPool.recordFailure B { object.load m with pool := s })
      .refused

theorem exec_refused {env : CallEnv} {s : Option State} (hobj : m.objects id = some object)
    (h : memoryPoolAlloc B env.pool (m.deref object.handle) = (0, s)) :
    m.exec B (.allocate id env) = some (.badAlloc, m.refused B id s object) ∧
      m.exec B (.tryAllocate id env) = some (.block 0, m.refused B id s object) := by
  cases object with
  | pool object =>
    replace h : memoryPoolAlloc B env.pool (m.deref object.handle) = (0, s) := h
    simp only [Machine.exec, hobj, Pool.allocate, Pool.tryAllocate, h]
    exact ⟨rfl, rfl⟩
  | instrumented object =>
    replace h : memoryPoolAlloc B env.pool (object.load m).pool = (0, s) := h
    simp only [Machine.exec, hobj, InstrumentedPool.allocate, InstrumentedPool.tryAllocate,
      Pool.allocate, Pool.tryAllocate, h]
    exact ⟨rfl, rfl⟩

/-- Without a handle: no block, and nothing changes but what the decorator counts and tells. -/
structure Exhausted (B : Build) (m : Machine) (id : Nat) (object : Object) : Prop where
  allocate : ∀ env, m.exec B (.allocate id env) = some (.badAlloc, m.refused B id none object)
  tryAllocate : ∀ env, m.exec B (.tryAllocate id env) = some (.block 0, m.refused B id none object)
  deallocate : ∀ env block, ∃ m', m.exec B (.deallocate id env block) = some (.done, m') ∧
    m'.world = m.world ∧ m'.handles = m.handles ∧ m'.log = m.log
  unchanged : (m.refused B id none object).world = m.world ∧
    (m.refused B id none object).handles = m.handles

theorem exhausted_of_null (hobj : m.objects id = some object) (hh : object.handle = none) :
    Exhausted B m id object := by
  have hnull : ∀ env : CallEnv, memoryPoolAlloc B env.pool (m.deref object.handle) = (0, none) := by
    intro env
    rw [hh]
    rfl
  refine ⟨fun env => (exec_refused hobj (hnull env)).1,
    fun env => (exec_refused hobj (hnull env)).2, fun env block => ?_, ?_⟩
  · cases object with
    | pool object =>
      replace hh : object.handle = none := hh
      simp only [Machine.exec, hobj, hh]
      exact ⟨_, rfl, rfl, rfl, rfl⟩
    | instrumented object =>
      replace hh : object.pool.handle = none := hh
      simp only [Machine.exec, hobj, InstrumentedPool.deallocate_eq]
      refine ⟨_, rfl, ?_, ?_, ?_⟩ <;>
        simp [Machine.afterCall, Machine.store, Machine.record, Machine.setObject, hh,
          InstrumentedObject.load]
  · cases object with
    | pool object =>
      replace hh : object.handle = none := hh
      simp only [Machine.refused, hh]
      exact ⟨rfl, rfl⟩
    | instrumented object =>
      replace hh : object.pool.handle = none := hh
      constructor <;>
        simp [Machine.refused, Machine.afterCall, Machine.store, Machine.record,
          Machine.setObject, hh]

/-- The object exists and its handle is null. -/
def Machine.Empty (m : Machine) (id : Nat) : Prop :=
  ∃ object, m.objects id = some object ∧ object.handle = none

theorem exec_moved {op : Op} {reply : Reply} (h : m.exec B op = some (reply, m'))
    (hop : op.movesFrom id) : m'.Empty id ∧ m'.observersOf id = [] := by
  have hgoal : ∀ (m : Machine) (target source : Nat) (object left : Object), target ≠ source →
      left.handle = none → left.observers = [] →
      ((m.setObject source (some left)).setObject target (some object)).Empty source ∧
        ((m.setObject source (some left)).setObject target (some object)).observersOf source =
          [] := by
    intro m target source object left hne hl hl'
    have hobj : ((m.setObject source (some left)).setObject target (some object)).objects source =
        some left := by simp [Machine.setObject, hne.symm]
    exact ⟨⟨left, hobj, hl⟩, (observersOf_eq hobj).trans hl'⟩
  have hne : ∀ {target source : Nat} {object : Object}, m.objects target = none →
      m.objects source = some object → target ≠ source := by
    rintro target source object h1 h2 rfl
    rw [h1] at h2
    cases h2
  cases op with
  | adopt target source =>
    obtain rfl : source = id := hop
    simp only [Machine.exec] at h
    split at h
    · rename_i h1 h2
      cases h
      exact hgoal _ _ _ _ _ (hne h1 h2) rfl rfl
    · cases h
  | moveConstruct target source =>
    obtain rfl : source = id := hop
    simp only [Machine.exec] at h
    split at h
    · rename_i h1 h2
      cases h
      exact hgoal _ _ _ _ _ (hne h1 h2) rfl rfl
    · rename_i h1 h2
      cases h
      exact hgoal _ _ _ _ _ (hne h1 h2) rfl rfl
    · cases h
  | moveAssign target source =>
    obtain ⟨rfl, hts⟩ : source = id ∧ target ≠ id := hop
    simp only [Machine.exec] at h
    split at h
    · rw [if_neg hts] at h
      cases h
      exact hgoal _ _ _ _ _ hts rfl rfl
    · rw [if_neg hts] at h
      cases h
      exact hgoal _ _ _ _ _ hts rfl rfl
    · cases h
  | _ => cases hop

theorem Machine.Empty.set {m m₁ : Machine} {target : Nat} {object : Option Object} (h : m.Empty id)
    (hobj : m₁.objects = m.objects) (hne : target ≠ id) :
    (m₁.setObject target object).Empty id := by
  obtain ⟨left, hleft, hh⟩ := h
  exact ⟨left, by simp [Machine.setObject, hne.symm, hobj, hleft], hh⟩

theorem create_objects (m : Machine) (env : Env) (call : CreateCall) :
    (m.create B env call).2.objects = m.objects := by
  unfold Machine.create
  split <;> rfl

theorem Machine.Empty.congr (E : m.Empty id) (hobj : m'.objects = m.objects) : m'.Empty id := by
  obtain ⟨left, hleft, hh⟩ := E
  exact ⟨left, by rw [hobj]; exact hleft, hh⟩

theorem Machine.Empty.called {target : Nat} {old : InstrumentedObject} (E : m.Empty id)
    (hobj : m.objects target = some (.instrumented old)) (ip : InstrumentedPool) (call : Call) :
    (m.afterCall target old ip call).Empty id := by
  by_cases ht : target = id
  · subst ht
    obtain ⟨object', h1, h2⟩ := E
    rw [hobj] at h1
    cases h1
    exact ⟨.instrumented (old.save ip), by simp [Machine.afterCall, Machine.setObject], h2⟩
  · refine E.set ?_ ht
    obtain ⟨-, hobjects, -⟩ := store_spec m old.pool.handle ip.pool
    unfold Machine.record
    split
    · exact hobjects
    · exact hobjects

/-- A moved-from object stays so until it is assigned to. -/
theorem Machine.Empty.exec {op : Op} {reply : Reply} (E : m.Empty id)
    (h : m.exec B op = some (reply, m')) (hop : ¬ op.renews id) : m'.Empty id := by
  by_cases hmove : op.movesFrom id
  · exact (exec_moved h hmove).1
  have hne : ∀ {target : Nat}, m.objects target = none → target ≠ id := by
    rintro target h1 rfl
    obtain ⟨object, h2, -⟩ := E
    rw [h1] at h2
    cases h2
  cases exec_effect h with
  | @failed env call _ hc =>
    have hobj := create_objects (B := B) m env call
    rw [hc] at hobj
    exact E.congr hobj
  | @created env call _ _ _ _ hc hid _ _ _ =>
    have hobj := create_objects (B := B) m env call
    rw [hc] at hobj
    exact E.set hobj (hne hid)
  | moved hfrom hid _ _ =>
    refine (E.set rfl ?_).set rfl (hne hid)
    rintro rfl
    exact hmove hfrom
  | same => exact E
  | @assigned target source this _ _ _ hto hts _ _ _ =>
    subst hto
    refine (E.set (destruct_spec m this).2.2.1 ?_).set rfl ?_
    · rintro rfl
      exact hmove ⟨rfl, hts⟩
    · rintro rfl
      exact hop ⟨rfl, Ne.symm hts⟩
  | @observed target object _ hid =>
    by_cases ht : target = id
    · subst ht
      obtain ⟨object', h1, h2⟩ := E
      rw [hid] at h1
      cases h1
      exact ⟨_, Function.update_self .., h2⟩
    · exact E.set rfl ht
  | stored handle s => exact E.congr (store_spec m handle s).2.1
  | called hid _ => exact E.called hid _ _
  | @destructed _ object hto _ =>
    subst hto
    exact E.set (destruct_spec m object).2.2.1 hop
  | written w => exact E.congr rfl

/-! ## Every program -/

/-- Who owns what, and what has been destroyed and told. -/
structure OwnershipExact (B : Build) (m : Machine) : Prop where
  unique : ∀ id id' object object' h, m.objects id = some object → m.objects id' = some object' →
    object.handle = some h → object'.handle = some h → id = id'
  alive : ∀ id object h, m.objects id = some object → object.handle = some h →
    h < m.created ∧ .destroy h ∉ m.log ∧ (m.handles h).isSome = true
  once : ∀ h, m.log.count (.destroy h) ≤ 1
  told_once : ∀ registration, m.log.countP (fun entry => entry.told = some registration) ≤ 1
  counted : ∀ delivery h, .notice delivery (some h) ∈ m.log → delivery.event = .destroyed →
    delivery.stats = statsOf B (m.history h)
  before : ∀ earlier later h, m.log = earlier ++ .destroy h :: later →
    ∀ delivery, .notice delivery (some h) ∉ later
  ended : (∀ id, m.objects id = none) → (∀ h < m.created, m.log.count (.destroy h) = 1) ∧
    ∀ registration < m.registrations.length,
      m.log.countP (fun entry => entry.told = some registration) = 1

theorem count_destroyed (log : List Entry) (h : Nat) :
    log.count (.destroy h) = (destroyed log).count h := by
  rw [destroyed, List.count, List.count, List.countP_filterMap]
  congr 1
  funext entry
  rw [Bool.eq_iff_iff]
  cases entry <;> simp [Entry.destroyed]

theorem count_told (log : List Entry) (registration : Nat) :
    log.countP (fun entry => entry.told = some registration) = (told log).count registration := by
  rw [told, List.count, List.countP_filterMap]
  congr 1
  funext entry
  rw [Bool.eq_iff_iff]
  cases entry.told <;> simp

theorem Owned.exact (O : Owned B m) : OwnershipExact B m := by
  refine ⟨?_, ?_, ?_, ?_, ?_, ?_, ?_⟩
  · intro id id' object object' h h1 h2 hh hh'
    exact O.handles.exclusive id id' h (owns h1 hh) (owns h2 hh')
  · intro id object h h1 hh
    have hown := owns h1 hh
    exact ⟨O.handle_lt hown, O.not_destroyed hown, O.live id h hown⟩
  · intro h
    rw [count_destroyed]
    exact List.nodup_iff_count_le_one.mp O.handles.free_nodup h
  · intro registration
    rw [count_told]
    exact List.nodup_iff_count_le_one.mp O.registrations.free_nodup registration
  · intro delivery h hmem hev
    exact (O.told delivery h hmem hev).1
  · intro earlier later h hlog delivery hmem
    have hord := O.order
    rw [hlog] at hord
    have hord := (List.pairwise_append.mp hord).2.1
    exact List.rel_of_pairwise_cons hord hmem h delivery rfl rfl
  · intro hend
    have h1 : ∀ id, m.handlesOf id = [] := fun id => by rw [Machine.handlesOf, hend]; rfl
    have h2 : ∀ id, m.observersOf id = [] := fun id => by rw [Machine.observersOf, hend]; rfl
    constructor
    · intro h hlt
      rw [count_destroyed]
      refine List.count_eq_one_of_mem O.handles.free_nodup ?_
      have hc := (O.handles.cover h).mp (List.mem_range.mpr hlt)
      simpa [h1] using hc
    · intro registration hlt
      rw [count_told]
      refine List.count_eq_one_of_mem O.registrations.free_nodup ?_
      have hc := (O.registrations.cover registration).mp (List.mem_range.mpr hlt)
      simpa [h2] using hc

/-- At every point of every program: a handle has at most one owner, who has not destroyed it;
`destroyed` events come before the destruction of the handle they are about, with the counters of
the calls made on it; and once all objects are gone each handle has been destroyed once and each
registration told once. Assigning an object to itself does nothing. An object that was moved from
has no handle until it is assigned to, and answers like an exhausted pool. -/
theorem ownership {w : World} {es : List (Op × Reply)}
    (hrun : (lts B).Run (Machine.start w) es m) : OwnershipExact B m ∧
    (∀ id reply m', m.exec B (.moveAssign id id) = some (reply, m') → m' = m) ∧
    ∀ id op reply m', op.movesFrom id → m.exec B op = some (reply, m') →
      ∀ es' m'', (lts B).Run m' es' m'' → (∀ e ∈ es', ¬ e.1.renews id) →
        ∃ object, m''.objects id = some object ∧ object.handle = none ∧
          Exhausted B m'' id object := by
  have O : Owned B m := hrun.invariant (fun _ _ _ O h => O.exec h) (Owned.start w)
  refine ⟨O.exact, ?_, ?_⟩
  · intro id reply m' h
    simp only [Machine.exec, if_true] at h
    split at h <;> cases h <;> rfl
  · intro id op reply m' hop h es' m'' hrun' hes
    have E : m''.Empty id := by
      induction hrun' with
      | nil => exact (exec_moved h hop).1
      | @snoc m₁ m₂ es e hr hstep ih =>
        have E₁ := ih fun e' he' => hes e' (List.mem_append_left _ he')
        exact E₁.exec hstep (hes e (List.mem_append_right _ (List.mem_singleton_self e)))
    obtain ⟨object, hobj, hh⟩ := E
    exact ⟨object, hobj, hh, exhausted_of_null hobj hh⟩

/-- An adopted pool moves twice, the second time onto a decorator that has a pool of its own. -/
def swapProgram : List Op :=
  [.make 0 firstEnv (.fixed 16 1), .adopt 1 0, .addObserver 1 70, .tryAllocate 1 (calm firstEnv),
    .moveConstruct 2 1, .construct 3 secondEnv 16 1, .adopt 4 3, .addObserver 4 71, .moveAssign 4 2,
    .allocate 2 (calm firstEnv), .moveAssign 4 4, .destruct 2, .destruct 4, .destruct 3,
    .destruct 1, .destruct 0]

theorem ownership_x64 :
    ∃ m, OwnershipExact (Build.x64 false .none) m ∧ m.created = 2 ∧ m.log =
      [.notice ⟨1, .destroyed, ⟨0, 0, 0, 0, 0⟩⟩ (some 1), .destroy 1,
        .notice ⟨0, .destroyed, ⟨1, 0, 0, 1, 1⟩⟩ (some 0), .destroy 0] := by
  have h : (Lts.script (Lts.answered (Machine.exec (Build.x64 false .none)))
      (Machine.start World.start) swapProgram).map (fun r => (r.2.created, r.2.log)) =
      some (2, [.notice ⟨1, .destroyed, ⟨0, 0, 0, 0, 0⟩⟩ (some 1), .destroy 1,
        .notice ⟨0, .destroyed, ⟨1, 0, 0, 1, 1⟩⟩ (some 0), .destroy 0]) := by decide +kernel
  obtain ⟨es, m, hrun, hm⟩ := Lts.script_reaches
    (Lts.answered_step (lts (Build.x64 false .none)) fun _ _ _ _ h => h)
    (fun m : Machine => (m.created, m.log)) h
  obtain ⟨h1, h2⟩ : _ ∧ _ := by simpa using hm
  exact ⟨m, (ownership hrun).1, h1, h2⟩

end Objects

end MemoryPool
