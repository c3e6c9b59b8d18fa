import MemoryPool.Instrumented

/-!
# MemoryPool.TypedPool

`TypedPool<T>`: a pool whose block size comes from `sizeof(T)`, and the verbs that also run `T`'s
constructor and destructor.

A constructor or destructor is a finite program (`Body`): it writes, calls back into the pool, goes
on with what it was answered, and ends. Only a constructor may end by throwing; `~T()` is
`noexcept` as far as the pool is concerned. `Body.exec` runs one. `Body.track` runs it too and
keeps the accounts: the slots handed out and not given back, the calls on the core, and one
`Activation` for every `construct` and `destroy` at any depth.
-/

namespace MemoryPool

open ByteMem

inductive Exn where
  | badAlloc
  | thrown (value : Nat)
  deriving DecidableEq

/-- The block of an allocation, null if it failed, or of a free. -/
def Client.Event.block : Client.Event → Nat
  | .alloc _ block _ => block
  | .free _ block => block
  | .write .. => 0

namespace TypedPool

def blockSize (B : Build) (sizeofT : Nat) : Nat :=
  let floor := if sizeofT < B.ptrBytes then B.ptrBytes else sizeofT
  let align := B.poolAlignment
  B.mul (B.sub (B.add floor align) 1 / align) align

def make (B : Build) (env : Env) (w : World) (sizeofT blockCount : Nat) :
    Option PoolStruct × World :=
  memoryPoolCreate B env w (blockSize B sizeofT) blockCount

def tryAllocate (B : Build) (env : Env) (handle : Option State) : Nat × Option State :=
  Pool.tryAllocate B env handle

def deallocate (B : Build) (env : Env) (handle : Option State) (block : Nat) : Option State :=
  Pool.deallocate B env handle block

/-- `construct`. `ctor` is `T`'s constructor at an address: what it throws, `none` if it returns,
and the pool as it leaves it. `env` and `release` are the environments of the two calls on the
core. -/
def construct (B : Build) (env release : Env)
    (ctor : Nat → Option State → Option Exn × Option State) (handle : Option State) :
    Except Exn Nat × Option State :=
  match Pool.allocate B env handle with
  | (none, handle) => (.error .badAlloc, handle)
  | (some raw, handle) =>
    match ctor raw handle with
    | (none, handle) => (.ok raw, handle)
    | (some e, handle) => (.error e, Pool.deallocate B release handle raw)

def destroy (B : Build) (env : Env) (dtor : Option State → Option State) (handle : Option State)
    (obj : Nat) : Option State :=
  if obj = 0 then handle
  else Pool.deallocate B env (dtor handle) obj

inductive Kind where
  | ctor
  | dtor

/-- A constructor or destructor of `T`. A request goes on with its answer, so a body that reads
memory is one of these too. A `construct` that throws answers with the exception, and the body
catches it or throws it again. -/
inductive Body : Kind → Type where
  | ret {k : Kind} : Body k
  | throw (e : Exn) : Body .ctor
  | write {k : Kind} (addr : Nat) (byte : UInt8) (next : Body k) : Body k
  | tryAllocate {k : Kind} (env : Env) (next : Nat → Body k) : Body k
  | deallocate {k : Kind} (env : Env) (block : Nat) (next : Body k) : Body k
  | construct {k : Kind} (env release : Env) (ctor : Nat → Body .ctor)
      (next : Except Exn Nat → Body k) : Body k
  | destroy {k : Kind} (env : Env) (obj : Nat) (dtor : Body .dtor) (next : Body k) : Body k

def Body.exec (B : Build) : {k : Kind} → Body k → Option State → Option Exn × Option State
  | _, .ret, handle => (none, handle)
  | _, .throw e, handle => (some e, handle)
  | _, .write addr byte next, handle =>
    next.exec B (handle.map fun s => { s with mem := set s.mem addr byte })
  | _, .tryAllocate env next, handle =>
    let (block, handle) := TypedPool.tryAllocate B env handle
    (next block).exec B handle
  | _, .deallocate env block next, handle =>
    next.exec B (TypedPool.deallocate B env handle block)
  | _, .construct env release ctor next, handle =>
    let (result, handle) :=
      TypedPool.construct B env release (fun raw => (ctor raw).exec B) handle
    (next result).exec B handle
  | _, .destroy env obj dtor next, handle =>
    next.exec B (TypedPool.destroy B env (fun handle => (dtor.exec B handle).2) handle obj)

/-! ## The accounts -/

/-- One call of `construct` or `destroy`, with the pool and its client at the call (`before`), when
`T`'s code starts (`begun`) and ends (`ended`), and when the call ends (`after`). `body` is every
call on the core in between, and every write. -/
inductive Activation where
  | refused (env release : Env) (before after : Client)
  | constructed (env release : Env) (ctor : Nat → Body .ctor) (slot : Nat) (before begun : Client)
      (body : List Client.Event) (after : Client)
  | threw (env release : Env) (ctor : Nat → Body .ctor) (slot : Nat) (before begun : Client)
      (body : List Client.Event) (ended : Client) (e : Exn) (after : Client)
  | destroyed (env : Env) (dtor : Body .dtor) (slot : Nat) (before : Client)
      (body : List Client.Event) (ended after : Client)

structure Ran where
  thrown : Option Exn
  client : Client
  events : List Client.Event
  activations : List Activation

def Ran.since (r : Ran) (events : List Client.Event) (activations : List Activation) : Ran :=
  { r with events := events ++ r.events, activations := activations ++ r.activations }

/-- The contract of a body. `busy` are the slots whose constructor or destructor is running,
innermost first: none of them is released, and writes go to the innermost. Outside of `T`'s code
they go to any block held. A default build is trusted not to release a free slot. -/
def InBody (B : Build) (busy : List Nat) (c : Client) : Client.Event → Prop
  | .alloc .. => True
  | .free _ block =>
    block ∉ busy ∧ (B.hardening = true ∨ block ∈ c.held ∨ block ∉ c.pool.pool.slots B)
  | .write addr byte =>
    match busy with
    | [] => Client.OwnWrites c (.write addr byte)
    | own :: _ => own ≤ addr ∧ addr < own + c.pool.pool.blockSize

instance (B : Build) (busy : List Nat) (c : Client) (e : Client.Event) :
    Decidable (InBody B busy c e) :=
  match e, busy with
  | .alloc .., _ => .isTrue trivial
  | .free .., _ => inferInstanceAs (Decidable (_ ∧ _))
  | .write addr byte, [] => inferInstanceAs (Decidable (Client.OwnWrites c (.write addr byte)))
  | .write .., _ :: _ => inferInstanceAs (Decidable (_ ∧ _))

/-- `none` when the body breaks its contract. -/
def Body.track (B : Build) : {k : Kind} → Body k → List Nat → Client → Option Ran
  | _, .ret, _, c => some ⟨none, c, [], []⟩
  | _, .throw e, _, c => some ⟨some e, c, [], []⟩
  | _, .write addr byte next, busy, c => do
    let (e, d) ← Client.execIf B (InBody B busy) (fun _ e _ => e) c (.write addr byte)
    let r ← next.track B busy d
    some (r.since [e] [])
  | _, .tryAllocate env next, busy, c => do
    let (e, d) ← Client.exec B c (.alloc env)
    let r ← (next e.block).track B busy d
    some (r.since [e] [])
  | _, .deallocate env block next, busy, c => do
    let (e, d) ← Client.execIf B (InBody B busy) (fun _ e _ => e) c (.free env block)
    let r ← next.track B busy d
    some (r.since [e] [])
  | _, .construct env release ctor next, busy, c => do
    let (e, d) ← Client.exec B c (.alloc env)
    if e.block = 0 then
      let r ← (next (.error .badAlloc)).track B busy d
      some (r.since [e] [.refused env release c d])
    else
      let b ← (ctor e.block).track B (e.block :: busy) d
      match b.thrown with
      | none =>
        let r ← (next (.ok e.block)).track B busy b.client
        some (r.since (e :: b.events)
          (b.activations ++ [.constructed env release ctor e.block c d b.events b.client]))
      | some x =>
        let (f, d') ← Client.exec B b.client (.free release e.block)
        let r ← (next (.error x)).track B busy d'
        some (r.since (e :: b.events ++ [f])
          (b.activations ++ [.threw env release ctor e.block c d b.events b.client x d']))
  | _, .destroy env obj dtor next, busy, c =>
    if obj = 0 then next.track B busy c
    else if obj ∈ c.held ∧ obj ∉ busy then do
      let b ← dtor.track B (obj :: busy) c
      let (f, d) ← Client.exec B b.client (.free env obj)
      let r ← next.track B busy d
      some (r.since (b.events ++ [f])
        (b.activations ++ [.destroyed env dtor obj c b.events b.client d]))
    else none

end TypedPool

end MemoryPool
