import MemoryPool.Client

/-!
# MemoryPool.Refinement

The pool, driven by one client, is a last-in first-out stack of free slots.

* `Client.run_refines`: the run lemma, for every build.
* `client_refines_stack`: the default build and proper clients.
* `hardened_refines_stack`: the hardened build and clients that free whatever they like.
-/

namespace MemoryPool

open ByteMem LinkedList

namespace Client

variable {B : Build} {c c' : Client} {others : List (Nat × Region)} {free : List Nat}

theorem run_refines {es : List Event} (I : PoolInv B c.pool others free c.held)
    (hrun : ((lts B).guard (Tolerated B)).Run c es c') :
    ∃ ds free', List.Forall₂ (Matches (slotStride B c.pool.pool.blockSize)) es ds ∧
      (Vending.lts Nat).Run ⟨free, c.held⟩ ds ⟨free', c'.held⟩ ∧
      PoolInv B c'.pool others free' c'.held := by
  obtain ⟨ds, v, hA, hv, free', hI, hst, rfl⟩ := hrun.simulate (M := Vending.lts Nat)
    (A := Matches (slotStride B c.pool.pool.blockSize))
    (R := fun d v => ∃ free', PoolInv B d.pool others free' d.held ∧
      slotStride B d.pool.pool.blockSize = slotStride B c.pool.pool.blockSize ∧
      v = ⟨free', d.held⟩)
    (by
      rintro d e d' v ⟨free', hI, hst, rfl⟩ ⟨hok, hstep⟩
      obtain ⟨a, free'', hI', hm, hv, -, -⟩ := refines hI hstep hok
      rw [hst] at hm
      refine ⟨a, ⟨free'', d'.held⟩, hm, hv, free'', hI', ?_, rfl⟩
      rw [hstep.frame.blockSize, hst])
    (t := ⟨free, c.held⟩) ⟨free, I, rfl, rfl⟩
  exact ⟨ds, free', hA, hv, hI⟩

end Client

/-- Default build: from creation on, every run of a proper client is a run of the stack that
starts as the slots of the first chunk in ascending order; the links, read as the bytes they are,
spell out the stack; and the free and the vended slots are the slots of all chunks, each once. -/
theorem client_refines_stack {B : Build} (hplain : B.hardening = false) {env : Env} {w w' : World}
    {call : CreateCall} {p : PoolStruct} (hr : call.InRange B)
    (hcreate : call.run B env w = (some p, w')) {es : List Client.Event} {c : Client}
    (hrun : ((Client.lts B).guard (Client.Proper B)).Run ⟨⟨w', p⟩, []⟩ es c) :
    ∃ ds v, List.Forall₂ (Client.Matches (slotStride B p.blockSize)) es ds ∧
      (Vending.lts Nat).Run ⟨slotsOf (slotStride B p.blockSize) p.backing p.blockCount, []⟩ ds v ∧
      v.vended = c.held ∧
      Chain (fun a => read c.pool.mem a B.ptrBytes) 0 c.pool.pool.head.ptr v.free ∧
      (v.free ++ v.vended).Perm (c.pool.pool.slots B) ∧ (v.free ++ v.vended).Nodup := by
  have C := CreateCall.created hr hcreate
  obtain ⟨ds, free, hA, hv, I⟩ := Client.run_refines (c := ⟨⟨w', p⟩, []⟩) C.inv
    (hrun.mono fun _ _ => Client.Proper.tolerated)
  refine ⟨ds, ⟨free, c.held⟩, hA, hv, rfl, ?_, I.parts, I.nodup⟩
  refine I.chain.congr fun a _ => ?_
  simp [revealNext, hplain]

theorem client_refines_stack_x64 :
    ∃ (c : Client) (ds : List (Vending.Event Nat)) (v : Vending Nat),
      List.Forall₂ (Client.Matches 16)
        [.alloc firstEnv 0x1000 none, .write 0x1008 7,
          .alloc secondEnv 0x2000 (some ⟨0x200, 0x2000, 1⟩), .free firstEnv 0x1000,
          .free firstEnv 0x1004] ds ∧
      (Vending.lts Nat).Run ⟨slotsOf 16 0x1000 1, []⟩ ds v ∧ v.vended = c.held ∧
      Chain (fun a => read c.pool.mem a 8) 0 c.pool.pool.head.ptr v.free ∧
      (v.free ++ v.vended).Perm (c.pool.pool.slots (Build.x64 false .none)) ∧
      (v.free ++ v.vended).Nodup := by
  obtain ⟨c, hrun⟩ := Client.script_run (Build.x64 false .none)
    (Client.Proper (Build.x64 false .none)) (firstClient (Build.x64 false .none))
    [.alloc firstEnv, .write 0x1008 7, .alloc secondEnv, .free firstEnv 0x1000,
      .free firstEnv 0x1004]
    [.alloc firstEnv 0x1000 none, .write 0x1008 7,
      .alloc secondEnv 0x2000 (some ⟨0x200, 0x2000, 1⟩), .free firstEnv 0x1000,
      .free firstEnv 0x1004] (by decide +kernel)
  exact ⟨c, client_refines_stack rfl (by decide) (firstCall_run false .none (by decide)) hrun⟩

def drain (B : Build) : List Env → Option State → List Nat
  | [], _ => []
  | env :: envs, s =>
    let (block, s) := memoryPoolAlloc B env s
    block :: drain B envs s

/-- Draining yields the free slots, in list order, each once. -/
theorem drain_eq {B : Build} {others : List (Nat × Region)} :
    ∀ {envs : List Env} {s : State} {free held : List Nat}, PoolInv B s others free held →
      envs.length = free.length → drain B envs (some s) = free := by
  intro envs
  induction envs with
  | nil =>
    intro s free held _ hlen
    exact (List.length_eq_zero_iff.mp hlen.symm).symm
  | cons env envs ih =>
    intro s free held I hlen
    cases free with
    | nil => simp at hlen
    | cons a rest =>
      have hres := popHead_result I env
      simp only [drain, memoryPoolAlloc_some]
      generalize popHead B env s = r at hres
      cases hres with
      | vend tag => rw [ih (I.vend tag) (by simpa using hlen)]

/-- Hardened build, any policy: the same holds when the client frees any pointer at any time. A
free of a slot that is not vended is reported, once, and changes no byte and no field; nothing
else is reported. -/
theorem hardened_refines_stack {B : Build} (hh : B.hardening = true) {env : Env} {w w' : World}
    {call : CreateCall} {p : PoolStruct} (hr : call.InRange B)
    (hcreate : call.run B env w = (some p, w')) {es : List Client.Event} {c : Client}
    (hrun : ((Client.lts B).guard Client.OwnWrites).Run ⟨⟨w', p⟩, []⟩ es c) :
    (∃ ds v, List.Forall₂ (Client.Matches (slotStride B p.blockSize)) es ds ∧
      (Vending.lts Nat).Run ⟨slotsOf (slotStride B p.blockSize) p.backing p.blockCount, []⟩ ds v ∧
      v.vended = c.held ∧
      Chain (revealNext B c.pool.mem) 0 c.pool.pool.head.ptr v.free ∧ v.free.Nodup ∧
      (v.free ++ v.vended).Perm (c.pool.pool.slots B) ∧
      ∀ envs : List Env, envs.length = v.free.length → drain B envs (some c.pool) = v.free) ∧
    ∀ e c', Client.OwnWrites c e → (Client.lts B).step c e c' →
      c'.pool.reports = c.pool.reports ++ Client.expectedReports B c e ∧
      (Client.expectedReports B c e ≠ [] →
        c'.pool.mem = c.pool.mem ∧ c'.pool.pool = c.pool.pool) := by
  have C := CreateCall.created hr hcreate
  obtain ⟨ds, free, hA, hv, I⟩ := Client.run_refines (c := ⟨⟨w', p⟩, []⟩) C.inv
    (hrun.mono fun _ _ h => ⟨h, Or.inl hh⟩)
  constructor
  · exact ⟨ds, ⟨free, c.held⟩, hA, hv, rfl, I.chain, I.chain.nodup, I.parts,
      fun envs hlen => drain_eq I hlen⟩
  · intro e c' hw hstep
    obtain ⟨-, -, -, -, -, hrep, hsame⟩ := Client.refines I hstep ⟨hw, Or.inl hh⟩
    exact ⟨hrep, hsame⟩

theorem hardened_refines_stack_x64 :
    ∃ (c : Client) (ds : List (Vending.Event Nat)) (v : Vending Nat),
      List.Forall₂ (Client.Matches 32)
        [.alloc firstEnv 0x1000 none, .alloc secondEnv 0x2000 (some ⟨0x200, 0x2000, 1⟩),
          .free firstEnv 0x1000, .free firstEnv 0x1000] ds ∧
      (Vending.lts Nat).Run ⟨slotsOf 32 0x1000 1, []⟩ ds v ∧ v.vended = c.held ∧
      Chain (revealNext (Build.x64 true .none) c.pool.mem) 0 c.pool.pool.head.ptr v.free ∧
      v.free.Nodup := by
  obtain ⟨c, hrun⟩ := Client.script_run (Build.x64 true .none) Client.OwnWrites
    (firstClient (Build.x64 true .none))
    [.alloc firstEnv, .alloc secondEnv, .free firstEnv 0x1000, .free firstEnv 0x1000]
    [.alloc firstEnv 0x1000 none, .alloc secondEnv 0x2000 (some ⟨0x200, 0x2000, 1⟩),
      .free firstEnv 0x1000, .free firstEnv 0x1000] (by decide +kernel)
  obtain ⟨⟨ds, v, h1, h2, h3, h4, h5, -, -⟩, -⟩ :=
    hardened_refines_stack rfl (by decide) (firstCall_run true .none (by decide)) hrun
  exact ⟨c, ds, v, h1, h2, h3, h4, h5⟩

end MemoryPool
