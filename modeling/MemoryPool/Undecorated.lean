import MemoryPool.ObjectsCorrect

/-!
# MemoryPool.Undecorated

A program over decorated pools beside the same program over bare ones.

`Machine.bare` takes the decorators off: what is left of an `InstrumentedPool` is its `Pool`, and
of the log the calls of `memory_pool_destroy`. `Action.bare` is the operation that the other program
does instead; registering an observer is none. An `Action` may also free a block through
`native_handle()`, past the decorator.

* `act_bare`: the step lemma. Taking the decorators off commutes with every action, and the
  answer is the same.
* `run_bare`: every run.
-/

namespace MemoryPool

namespace Objects

inductive Action where
  | op (op : Op)
  -- memory_pool_free on native_handle()
  | nativeFree (id : Nat) (env : Env) (block : Nat)

def Machine.handleOf (m : Machine) (id : Nat) : Option Nat := (m.objects id).bind Object.handle

theorem Machine.handleOf_eq {m : Machine} {id : Nat} {object : Object}
    (hobj : m.objects id = some object) : m.handleOf id = object.handle := by
  rw [Machine.handleOf, hobj]
  rfl

def Machine.act (B : Build) (m : Machine) : Action → Option (Reply × Machine)
  | .op op => m.exec B op
  | .nativeFree id env block =>
    (m.objects id).map fun object =>
      (.done, m.store object.handle (memoryPoolFree B env (m.deref object.handle) block))

/-! ## Off with the decorators -/

def Object.bare : Object → Object
  | .pool object => .pool object
  | .instrumented object => .pool object.pool

def Machine.bare (m : Machine) : Machine where
  world := m.world
  handles := m.handles
  created := m.created
  objects := fun id => (m.objects id).map Object.bare
  registrations := []
  log := (destroyed m.log).map .destroy
  history := fun _ => []

def Action.bare : Action → Option Action
  | .op (.adopt id source) => some (.op (.moveConstruct id source))
  | .op (.makeInstrumented id env call) => some (.op (.make id env call))
  | .op (.addObserver ..) => none
  | action => some action

section

variable {B : Build} {m m' : Machine} {reply : Reply}

@[simp] theorem Object.handle_bare (object : Object) : object.bare.handle = object.handle := by
  cases object <;> rfl

@[simp] theorem bare_objects (m : Machine) (id : Nat) :
    m.bare.objects id = (m.objects id).map Object.bare := rfl

@[simp] theorem bare_deref (m : Machine) (handle : Option Nat) :
    m.bare.deref handle = m.deref handle := rfl

theorem bare_setObject (m : Machine) (id : Nat) (object : Option Object) :
    (m.setObject id object).bare = m.bare.setObject id (object.map Object.bare) := by
  simp only [Machine.bare, Machine.setObject]
  congr 1
  exact Function.comp_update (Option.map Object.bare) m.objects id object

theorem bare_update {id : Nat} {old new : Object} (hobj : m.objects id = some old)
    (hnew : new.bare = old.bare) : (m.setObject id (some new)).bare = m.bare := by
  have hkeep : m.bare.objects id = some new.bare := by rw [bare_objects, hobj, hnew]; rfl
  rw [bare_setObject, Option.map_some, ← hkeep, Machine.setObject, Function.update_eq_self]

theorem bare_store (m : Machine) (handle : Option Nat) (s : Option State) :
    (m.store handle s).bare = m.bare.store handle s := by
  unfold Machine.store
  split <;> rfl

theorem bare_destroy (m : Machine) (handle : Option Nat) :
    (m.destroy handle).bare = m.bare.destroy handle := by
  cases handle with
  | none => rfl
  | some handle => simp [Machine.destroy, Machine.bare, destroyed, Entry.destroyed]

theorem bare_notify (m : Machine) (object : InstrumentedObject) (event : PoolEvent) :
    (m.notify object event).bare = m.bare := by
  simp [Machine.notify, Machine.bare, destroyed, Entry.destroyed]

theorem bare_create (m : Machine) (env : Env) (call : CreateCall) :
    m.bare.create B env call = ((m.create B env call).1, (m.create B env call).2.bare) := by
  simp only [Machine.create, Machine.bare]
  split <;> rfl

theorem bare_destruct (m : Machine) (object : Object) :
    (object.destruct m).bare = object.bare.destruct m.bare := by
  cases object with
  | pool object => exact bare_destroy m object.handle
  | instrumented object =>
    simp only [Object.destruct, InstrumentedObject.destruct, PoolObject.destruct, Object.bare,
      bare_destroy, bare_notify]

/-- A call on a decorator is a call on its pool, as far as the pool goes. -/
theorem bare_afterCall {id : Nat} {object : InstrumentedObject}
    (hobj : m.objects id = some (.instrumented object)) (ip : InstrumentedPool) (call : Call) :
    (m.afterCall id object ip call).bare = m.bare.store object.pool.handle ip.pool := by
  have hrecord : ∀ m : Machine, (m.record object.pool.handle call).bare = m.bare := by
    intro m
    unfold Machine.record
    split <;> rfl
  have hnotices : ∀ (m : Machine) (new : List Delivery), Machine.bare { m with
      log := m.log ++ new.map (Entry.notice · object.pool.handle) } = m.bare := by
    intro m new
    simp [Machine.bare, destroyed, Entry.destroyed, List.filterMap_map, Function.comp_def]
  have hobj' : (Machine.record { m.store object.pool.handle ip.pool with
      log := (m.store object.pool.handle ip.pool).log ++
        ip.delivered.map (Entry.notice · object.pool.handle) } object.pool.handle call).objects id =
      some (.instrumented object) := by
    rw [← hobj, ← (store_spec m object.pool.handle ip.pool).2.1]
    unfold Machine.record
    split <;> rfl
  have hsave : Object.bare (.instrumented (object.save ip)) =
      Object.bare (.instrumented object) := rfl
  exact ((bare_update hobj' hsave).trans (hrecord _)).trans ((hnotices _ _).trans (bare_store ..))

theorem allocate_bare (B : Build) (env : CallEnv) (ip : InstrumentedPool) :
    Pool.allocate B env.pool ip.pool = ((ip.allocate B env).1, (ip.allocate B env).2.pool) := by
  unfold InstrumentedPool.allocate
  split
  · rename_i h
    exact h
  · rename_i h
    rw [InstrumentedPool.recordAllocation_eq, (InstrumentedPool.notifyIfGrew_frame _ _).1]
    exact h

theorem tryAllocate_bare (B : Build) (env : CallEnv) (ip : InstrumentedPool) :
    Pool.tryAllocate B env.pool ip.pool =
      ((ip.tryAllocate B env).1, (ip.tryAllocate B env).2.pool) := by
  simp only [InstrumentedPool.tryAllocate]
  split
  · rename_i h
    exact Prod.ext h rfl
  · rw [InstrumentedPool.recordAllocation_eq, (InstrumentedPool.notifyIfGrew_frame _ _).1]

/-- The step lemma: with the decorators off, the same is answered and the same is left. -/
theorem act_bare {action : Action} (h : m.act B action = some (reply, m')) :
    match action.bare with
    | none => m'.bare = m.bare
    | some action => m.bare.act B action = some (reply, m'.bare) := by
  cases action with
  | nativeFree id env block =>
    simp only [Machine.act, Option.map_eq_some_iff] at h
    obtain ⟨object, hobj, h⟩ := h
    cases h
    simp only [Action.bare, Machine.act, bare_objects, hobj, Option.map_some, Object.handle_bare,
      bare_store, bare_deref]
  | op op =>
    simp only [Machine.act] at h
    cases op with
    | construct id env blockSize blockCount =>
      simp only [Machine.exec] at h
      split at h
      · cases h
      · rename_i hid
        simp only [Action.bare, Machine.act, Machine.exec, bare_objects, hid, Option.map_none,
          bare_create]
        split at h <;> rename_i hc <;> cases h
        · simp only [hc]
        · simp only [hc, bare_setObject, Option.map_some, Object.bare]
    | make id env call =>
      simp only [Machine.exec, makePool_eq] at h
      split at h
      · cases h
      · rename_i hid
        simp only [Action.bare, Machine.act, Machine.exec, bare_objects, hid, Option.map_none,
          makePool_eq, bare_create]
        rcases hc : m.create B env call with ⟨_ | handle, m₁⟩ <;> rw [hc] at h <;> cases h
        · rfl
        · simp only [Option.map_some, bare_setObject, Object.bare]
    | makeInstrumented id env call =>
      simp only [Machine.exec, makeInstrumented_eq] at h
      split at h
      · cases h
      · rename_i hid
        simp only [Action.bare, Machine.act, Machine.exec, bare_objects, hid, Option.map_none,
          makePool_eq, bare_create]
        rcases hc : m.create B env call with ⟨_ | handle, m₁⟩ <;> rw [hc] at h <;> cases h
        · rfl
        · simp only [Option.map_some, bare_setObject, Object.bare]
    | adopt id source =>
      simp only [Machine.exec] at h
      split at h
      · rename_i hid hsource
        cases h
        simp only [Action.bare, Machine.act, Machine.exec, bare_objects, hid, hsource,
          Option.map_none, Option.map_some, bare_setObject, Object.bare]
        rfl
      · cases h
    | moveConstruct id source =>
      simp only [Machine.exec] at h
      split at h
      · rename_i hid hsource
        cases h
        simp only [Action.bare, Machine.act, Machine.exec, bare_objects, hid, hsource,
          Option.map_none, Option.map_some, bare_setObject, Object.bare]
      · rename_i hid hsource
        cases h
        simp only [Action.bare, Machine.act, Machine.exec, bare_objects, hid, hsource,
          Option.map_none, Option.map_some, bare_setObject, Object.bare]
        rfl
      · cases h
    | moveAssign id source =>
      simp only [Machine.exec] at h
      split at h
      · rename_i hid hsource
        simp only [Action.bare, Machine.act, Machine.exec, bare_objects, hid, hsource,
          Option.map_some, Object.bare]
        split at h
        · rename_i heq
          cases h
          simp only [if_pos heq]
        · rename_i hne
          cases h
          simp only [if_neg hne, PoolObject.moveAssign, bare_setObject, bare_destroy,
            Option.map_some, Object.bare]
      · rename_i hid hsource
        simp only [Action.bare, Machine.act, Machine.exec, bare_objects, hid, hsource,
          Option.map_some, Object.bare]
        split at h
        · rename_i heq
          cases h
          simp only [if_pos heq]
        · rename_i hne
          cases h
          simp only [if_neg hne, InstrumentedObject.moveAssign, PoolObject.moveAssign,
            bare_setObject, bare_destroy, bare_notify, Option.map_some, Object.bare]
      · cases h
    | addObserver id observer =>
      simp only [Machine.exec] at h
      split at h
      · rename_i hid
        cases h
        exact bare_update (m := { m with registrations := m.registrations ++ [observer] }) hid rfl
      · cases h
    | allocate id env =>
      simp only [Machine.exec] at h
      split at h
      · rename_i hid
        cases h
        simp only [Action.bare, Machine.act, Machine.exec, bare_objects, hid, Option.map_some,
          Object.bare, bare_deref, bare_store]
      · rename_i object hid
        cases h
        have hpool : Pool.allocate B env.pool (m.deref object.pool.handle) = _ :=
          allocate_bare B env (object.load m)
        simp only [Action.bare, Machine.act, Machine.exec, bare_objects, hid, Option.map_some,
          Object.bare, bare_deref, bare_afterCall hid, hpool]
      · cases h
    | tryAllocate id env =>
      simp only [Machine.exec] at h
      split at h
      · rename_i hid
        cases h
        simp only [Action.bare, Machine.act, Machine.exec, bare_objects, hid, Option.map_some,
          Object.bare, bare_deref, bare_store]
      · rename_i object hid
        cases h
        have hpool : Pool.tryAllocate B env.pool (m.deref object.pool.handle) = _ :=
          tryAllocate_bare B env (object.load m)
        simp only [Action.bare, Machine.act, Machine.exec, bare_objects, hid, Option.map_some,
          Object.bare, bare_deref, bare_afterCall hid, hpool]
      · cases h
    | deallocate id env block =>
      simp only [Machine.exec] at h
      split at h
      · rename_i hid
        cases h
        simp only [Action.bare, Machine.act, Machine.exec, bare_objects, hid, Option.map_some,
          Object.bare, bare_deref, bare_store]
      · rename_i hid
        cases h
        simp only [Action.bare, Machine.act, Machine.exec, bare_objects, hid, Option.map_some,
          Object.bare, bare_deref, bare_afterCall hid, InstrumentedPool.deallocate_eq]
        rfl
      · cases h
    | destruct id =>
      simp only [Machine.exec] at h
      split at h
      · rename_i hid
        cases h
        simp only [Action.bare, Machine.act, Machine.exec, bare_objects, hid, Option.map_some,
          bare_setObject, bare_destruct, Option.map_none]
      · cases h
    | write addr byte =>
      cases h
      rfl

def acting (B : Build) : Lts Machine (Action × Reply) where
  step m e m' := m.act B e.1 = some (e.2, m')

/-- What the other program does, with its answers. -/
def bareEvents (es : List (Action × Reply)) : List (Action × Reply) :=
  es.filterMap fun e => e.1.bare.map fun action => (action, e.2)

theorem bareEvents_snoc (es : List (Action × Reply)) (e : Action × Reply) :
    bareEvents (es ++ [e]) =
      bareEvents es ++ (e.1.bare.map fun action => (action, e.2)).toList := by
  cases h : e.1.bare <;> simp [bareEvents, h]

theorem run_bare {es : List (Action × Reply)} (hrun : (acting B).Run m es m') :
    (acting B).Run m.bare (bareEvents es) m'.bare := by
  induction hrun with
  | nil => exact .nil
  | @snoc _ _ es e _ hs ih =>
    have hstep := act_bare hs
    rw [bareEvents_snoc]
    cases haction : e.1.bare with
    | none =>
      simp only [haction] at hstep
      simpa [hstep] using ih
    | some action =>
      simp only [haction] at hstep
      exact ih.snoc hstep

end

end Objects

end MemoryPool
