import Mathlib.Logic.Function.Basic
import MemoryPool.Client
import MemoryPool.Instrumented

/-!
# MemoryPool.Objects

Programs over `Pool` and `InstrumentedPool` objects: construction, adoption, moves, calls and
destruction.

Handles, objects and registrations are numbered. `created` counts the handles that the create
functions have returned, `registrations` the calls of `add_observer`, each with its observer. The
`log` has the deliveries and the calls of `memory_pool_destroy` in their order, each delivery with
the handle of the object it came from. `history` has the calls made on a handle through an
`InstrumentedPool`. A moved-from vector is empty.
-/

namespace MemoryPool

namespace Objects

open ByteMem

/-- `Pool`. -/
structure PoolObject where
  handle : Option Nat
  deriving DecidableEq

/-- `InstrumentedPool`. -/
structure InstrumentedObject where
  pool : PoolObject
  allocations : Nat
  deallocations : Nat
  allocationFailures : Nat
  live : Nat
  peakLive : Nat
  observers : List Nat
  lastGrowths : Nat
  deriving DecidableEq

inductive Object where
  | pool (object : PoolObject)
  | instrumented (object : InstrumentedObject)
  deriving DecidableEq

inductive Entry where
  | notice (delivery : Delivery) (handle : Option Nat)
  | destroy (handle : Nat)
  deriving DecidableEq

/-- A call on an `InstrumentedPool`, with what came of it. -/
inductive Call where
  | allocated
  | refused
  | deallocated (block : Nat)
  deriving DecidableEq

structure Machine where
  world : World
  handles : Nat → Option PoolStruct
  created : Nat
  objects : Nat → Option Object
  registrations : List Nat
  log : List Entry
  history : Nat → List Call

inductive Reply where
  | done
  | badAlloc
  | nullopt
  | block (block : Nat)
  deriving DecidableEq

def Object.handle : Object → Option Nat
  | .pool object => object.handle
  | .instrumented object => object.pool.handle

def Object.observers : Object → List Nat
  | .pool _ => []
  | .instrumented object => object.observers

def InstrumentedObject.stats (object : InstrumentedObject) : PoolStats :=
  ⟨object.allocations, object.deallocations, object.allocationFailures, object.live,
    object.peakLive⟩

namespace Machine

def start (w : World) : Machine := ⟨w, fun _ => none, 0, fun _ => none, [], [], fun _ => []⟩

def setObject (m : Machine) (id : Nat) (object : Option Object) : Machine :=
  { m with objects := Function.update m.objects id object }

/-- `memory_pool_create` and `memory_pool_create_dynamic`: a handle, or null. -/
def create (B : Build) (env : Env) (m : Machine) (call : CreateCall) : Option Nat × Machine :=
  match call.run B env m.world with
  | (none, world) => (none, { m with world := world })
  | (some pool, world) =>
    (some m.created,
      { m with world := world, handles := Function.update m.handles m.created (some pool),
               created := m.created + 1 })

/-- `memory_pool_destroy`, which ignores null. -/
def destroy (m : Machine) : Option Nat → Machine
  | none => m
  | some handle =>
    { m with world := memoryPoolDestroy m.world (m.handles handle),
             handles := Function.update m.handles handle none,
             log := m.log ++ [.destroy handle] }

/-- What the core finds behind a handle. -/
def deref (m : Machine) (handle : Option Nat) : Option State :=
  handle.bind fun h => (m.handles h).map fun pool => ⟨m.world, pool⟩

/-- The machine after a call of the core on a handle. -/
def store (m : Machine) (handle : Option Nat) (s : Option State) : Machine :=
  match handle, s with
  | some h, some s =>
    { m with world := s.toWorld, handles := Function.update m.handles h (some s.pool) }
  | _, _ => m

/-- `InstrumentedPool::notify`. -/
def notify (m : Machine) (object : InstrumentedObject) (event : PoolEvent) : Machine :=
  { m with log := m.log ++ object.observers.map fun observer =>
      .notice ⟨observer, event, object.stats⟩ object.pool.handle }

end Machine

/-! ## Moves and destructors -/

/-- `Pool(Pool&&)`: the new object and what is left of the other. -/
def PoolObject.moveConstruct (other : PoolObject) : PoolObject × PoolObject :=
  (⟨other.handle⟩, ⟨none⟩)

/-- `Pool::operator=(Pool&&)` for two different objects. -/
def PoolObject.moveAssign (m : Machine) (this other : PoolObject) :
    Machine × PoolObject × PoolObject :=
  (m.destroy this.handle, ⟨other.handle⟩, ⟨none⟩)

/-- `InstrumentedPool(Pool&&)`. -/
def InstrumentedObject.adopt (pool : PoolObject) : InstrumentedObject × PoolObject :=
  let (pool_, pool) := pool.moveConstruct
  (⟨pool_, 0, 0, 0, 0, 0, [], 0⟩, pool)

/-- `InstrumentedPool(InstrumentedPool&&)`. The atomics of the other keep their values. -/
def InstrumentedObject.moveConstruct (other : InstrumentedObject) :
    InstrumentedObject × InstrumentedObject :=
  let (pool_, pool) := other.pool.moveConstruct
  ({ pool := pool_
     allocations := other.allocations
     deallocations := other.deallocations
     allocationFailures := other.allocationFailures
     live := other.live
     peakLive := other.peakLive
     observers := other.observers
     lastGrowths := other.lastGrowths },
    { other with pool := pool, observers := [] })

/-- `InstrumentedPool::operator=(InstrumentedPool&&)` for two different objects. -/
def InstrumentedObject.moveAssign (m : Machine) (this other : InstrumentedObject) :
    Machine × InstrumentedObject × InstrumentedObject :=
  let m := m.notify this .destroyed
  let (m, pool_, pool) := PoolObject.moveAssign m this.pool other.pool
  (m,
    { pool := pool_
      allocations := other.allocations
      deallocations := other.deallocations
      allocationFailures := other.allocationFailures
      live := other.live
      peakLive := other.peakLive
      observers := other.observers
      lastGrowths := other.lastGrowths },
    { other with pool := pool, observers := [] })

/-- `~Pool`. -/
def PoolObject.destruct (m : Machine) (object : PoolObject) : Machine := m.destroy object.handle

/-- `~InstrumentedPool`: its body, then the member. -/
def InstrumentedObject.destruct (m : Machine) (object : InstrumentedObject) : Machine :=
  object.pool.destruct (m.notify object .destroyed)

def Object.destruct (m : Machine) : Object → Machine
  | .pool object => object.destruct m
  | .instrumented object => object.destruct m

/-! ## Calls -/

/-- The decorator with the pool that its handle leads to. -/
def InstrumentedObject.load (m : Machine) (object : InstrumentedObject) : InstrumentedPool where
  pool := m.deref object.pool.handle
  allocations := object.allocations
  deallocations := object.deallocations
  allocationFailures := object.allocationFailures
  live := object.live
  peakLive := object.peakLive
  observers := object.observers
  lastGrowths := object.lastGrowths
  delivered := []

/-- The object after a call: the atomics are its own. -/
def InstrumentedObject.save (object : InstrumentedObject) (ip : InstrumentedPool) :
    InstrumentedObject where
  pool := object.pool
  allocations := ip.allocations
  deallocations := ip.deallocations
  allocationFailures := ip.allocationFailures
  live := ip.live
  peakLive := ip.peakLive
  observers := ip.observers
  lastGrowths := ip.lastGrowths

namespace Machine

def record (m : Machine) (handle : Option Nat) (call : Call) : Machine :=
  match handle with
  | none => m
  | some h =>
    { m with history := Function.update m.history h (m.history h ++ [call]) }

/-- The machine after a call on the decorator `id`. -/
def afterCall (m : Machine) (id : Nat) (object : InstrumentedObject) (ip : InstrumentedPool)
    (call : Call) : Machine :=
  let notices := ip.delivered.map fun delivery => Entry.notice delivery object.pool.handle
  let m := m.store object.pool.handle ip.pool
  let m := { m with log := m.log ++ notices }
  (m.record object.pool.handle call).setObject id (some (.instrumented (object.save ip)))

end Machine

inductive Op where
  -- Pool(block_size, block_count), Pool::make, Pool::make_dynamic
  | construct (id : Nat) (env : Env) (blockSize blockCount : Nat)
  | make (id : Nat) (env : Env) (call : CreateCall)
  -- InstrumentedPool(Pool&&), InstrumentedPool::make, InstrumentedPool::make_dynamic
  | adopt (id source : Nat)
  | makeInstrumented (id : Nat) (env : Env) (call : CreateCall)
  | moveConstruct (id source : Nat)
  | moveAssign (id source : Nat)
  | addObserver (id observer : Nat)
  | allocate (id : Nat) (env : CallEnv)
  | tryAllocate (id : Nat) (env : CallEnv)
  | deallocate (id : Nat) (env : CallEnv) (block : Nat)
  | destruct (id : Nat)
  | write (addr : Nat) (byte : UInt8)

namespace Machine

/-- `Pool::make` and `Pool::make_dynamic`: the temporary around the handle is moved into the
optional and destroyed. -/
def makePool (B : Build) (env : Env) (m : Machine) (call : CreateCall) :
    Option PoolObject × Machine :=
  match m.create B env call with
  | (none, m) => (none, m)
  | (some handle, m) =>
    let (object, temporary) := (PoolObject.mk (some handle)).moveConstruct
    (some object, temporary.destruct m)

/-- `InstrumentedPool::make` and `make_dynamic`: likewise, after the decorator has adopted the pool
of the inner optional. -/
def makeInstrumented (B : Build) (env : Env) (m : Machine) (call : CreateCall) :
    Option InstrumentedObject × Machine :=
  match m.makePool B env call with
  | (none, m) => (none, m)
  | (some pool, m) =>
    let (decorator, pool) := InstrumentedObject.adopt pool
    let (object, temporary) := decorator.moveConstruct
    (some object, pool.destruct (temporary.destruct m))

/-- One operation of the program; `none` when it is not well formed: an object that does not exist
or is of the other class, or a name that is in use. -/
def exec (B : Build) (m : Machine) : Op → Option (Reply × Machine)
  | .construct id env blockSize blockCount =>
    match m.objects id with
    | some _ => none
    | none =>
      match m.create B env (.fixed blockSize blockCount) with
      | (none, m) => some (.badAlloc, m)
      | (some handle, m) => some (.done, m.setObject id (some (.pool ⟨some handle⟩)))
  | .make id env call =>
    match m.objects id with
    | some _ => none
    | none =>
      match m.makePool B env call with
      | (none, m) => some (.nullopt, m)
      | (some object, m) => some (.done, m.setObject id (some (.pool object)))
  | .adopt id source =>
    match m.objects id, m.objects source with
    | none, some (.pool pool) =>
      let (object, pool) := InstrumentedObject.adopt pool
      some (.done, (m.setObject source (some (.pool pool))).setObject id
        (some (.instrumented object)))
    | _, _ => none
  | .makeInstrumented id env call =>
    match m.objects id with
    | some _ => none
    | none =>
      match m.makeInstrumented B env call with
      | (none, m) => some (.nullopt, m)
      | (some object, m) => some (.done, m.setObject id (some (.instrumented object)))
  | .moveConstruct id source =>
    match m.objects id, m.objects source with
    | none, some (.pool other) =>
      let (object, other) := other.moveConstruct
      some (.done, (m.setObject source (some (.pool other))).setObject id (some (.pool object)))
    | none, some (.instrumented other) =>
      let (object, other) := other.moveConstruct
      some (.done, (m.setObject source (some (.instrumented other))).setObject id
        (some (.instrumented object)))
    | _, _ => none
  | .moveAssign id source =>
    match m.objects id, m.objects source with
    | some (.pool this), some (.pool other) =>
      if id = source then some (.done, m)
      else
        let (m, this, other) := this.moveAssign m other
        some (.done, (m.setObject source (some (.pool other))).setObject id (some (.pool this)))
    | some (.instrumented this), some (.instrumented other) =>
      if id = source then some (.done, m)
      else
        let (m, this, other) := this.moveAssign m other
        some (.done, (m.setObject source (some (.instrumented other))).setObject id
          (some (.instrumented this)))
    | _, _ => none
  | .addObserver id observer =>
    match m.objects id with
    | some (.instrumented object) =>
      let object := { object with observers := object.observers ++ [m.registrations.length] }
      some (.done, { m with registrations := m.registrations ++ [observer] }.setObject id
        (some (.instrumented object)))
    | _ => none
  | .allocate id env =>
    match m.objects id with
    | some (.pool object) =>
      let (block, s) := Pool.allocate B env.pool (m.deref object.handle)
      some (block.elim .badAlloc .block, m.store object.handle s)
    | some (.instrumented object) =>
      let (block, ip) := (object.load m).allocate B env
      some (block.elim .badAlloc .block,
        m.afterCall id object ip (block.elim .refused fun _ => .allocated))
    | none => none
  | .tryAllocate id env =>
    match m.objects id with
    | some (.pool object) =>
      let (block, s) := Pool.tryAllocate B env.pool (m.deref object.handle)
      some (.block block, m.store object.handle s)
    | some (.instrumented object) =>
      let (block, ip) := (object.load m).tryAllocate B env
      some (.block block, m.afterCall id object ip (if block = 0 then .refused else .allocated))
    | none => none
  | .deallocate id env block =>
    match m.objects id with
    | some (.pool object) =>
      let s := Pool.deallocate B env.pool (m.deref object.handle) block
      some (.done, m.store object.handle s)
    | some (.instrumented object) =>
      let ip := (object.load m).deallocate B env block
      some (.done, m.afterCall id object ip (.deallocated block))
    | none => none
  | .destruct id =>
    match m.objects id with
    | some object => some (.done, (object.destruct m).setObject id none)
    | none => none
  | .write addr byte =>
    some (.done, { m with world := { m.world with mem := set m.world.mem addr byte } })

end Machine

def lts (B : Build) : Lts Machine (Op × Reply) where
  step m e m' := m.exec B e.1 = some (e.2, m')

end Objects

end MemoryPool
