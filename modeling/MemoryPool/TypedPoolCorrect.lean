import MemoryPool.TypedPool

/-!
# MemoryPool.TypedPoolCorrect

`construct` and `destroy` keep the accounts of the slots, whatever `T`'s constructors and
destructors do to the pool and wherever they throw.

* `Scene`: the invariant while bodies run. The slots being constructed or destroyed are held.
* `handover`: along any run, what the client has in the end and what it gave back is what it had
  and what it got.
* `Body.sound`: by induction on the body, one case per request.
* `typed_accounts`: from the creation of the pool on, for every activation at any depth.
-/

namespace MemoryPool

open ByteMem LinkedList

/-- The free list, read off the memory, and the blocks the client holds are the slots, each once:
a slot is live if and only if the client holds it. -/
structure Client.Accounted (B : Build) (c : Client) (free : List Nat) : Prop where
  chain : Chain (revealNext B c.pool.mem) 0 c.pool.pool.head.ptr free
  parts : (free ++ c.held).Perm (c.pool.pool.slots B)
  nodup : (free ++ c.held).Nodup

theorem PoolInv.accounted {B : Build} {c : Client} {others : List (Nat × Region)}
    {free : List Nat} (I : PoolInv B c.pool others free c.held) : c.Accounted B free :=
  ⟨I.chain, I.parts, I.nodup⟩

namespace TypedPool

/-- The blocks the calls handed out, in the order of the calls. -/
def acquired : List Client.Event → List Nat
  | [] => []
  | .alloc _ block _ :: es => if block = 0 then acquired es else block :: acquired es
  | _ :: es => acquired es

/-- The blocks among `held`, and among those acquired since, that were given back. -/
def released : List Nat → List Client.Event → List Nat
  | _, [] => []
  | held, .alloc _ block _ :: es => released (if block = 0 then held else block :: held) es
  | held, .free _ block :: es =>
    if block ∈ held then block :: released (held.erase block) es else released held es
  | held, .write .. :: es => released held es

theorem handover {B : Build} : ∀ {es : List Client.Event} {c c' : Client},
    (Client.lts B).Run c es c' →
      (c'.held ++ released c.held es).Perm (c.held ++ acquired es) := by
  intro es
  induction es with
  | nil =>
    intro c c' hrun
    rw [hrun.nil_inv]
    exact .refl _
  | cons e es ih =>
    intro c c' hrun
    obtain ⟨d, hd, hrest⟩ := (show (Client.lts B).Run c ([e] ++ es) c' from hrun).append_inv
    have hp := ih hrest
    cases hd.single_inv with
    | @alloc env block s' h =>
      simp only [released, acquired]
      split
      · rename_i h0
        simpa only [if_pos h0] using hp
      · rename_i h0
        simp only [if_neg h0] at hp ⊢
        exact hp.trans List.perm_middle.symm
    | @free env block s' h =>
      simp only [released, acquired]
      split
      · rename_i hb
        refine List.perm_middle.trans ((hp.cons block).trans ?_)
        exact (List.perm_cons_erase hb).symm.append_right _
      · rename_i hb
        simpa only [List.erase_of_not_mem hb] using hp
    | write => exact hp

/-! ## What the accounts must say -/

/-- What holds at every call on the core, and every write, while the slots `busy` are being
constructed or destroyed: the slots are accounted for, nothing live is handed out, and no slot of
`busy` is on the free list or about to be. -/
structure Within (B : Build) (busy : List Nat) (c : Client) (e : Client.Event) : Prop where
  accounted : ∃ free, c.Accounted B free
  fresh : ∀ env block grown, e = .alloc env block grown → block ∉ c.held
  kept : ∀ b ∈ busy, b ∈ c.held ∧ ∀ env, e ≠ .free env b

/-- `slot` comes off the free list. -/
structure Begun (B : Build) (slot : Nat) (before begun : Client) : Prop where
  lists : ∃ rest, before.Accounted B (slot :: rest) ∧ begun.Accounted B rest
  held : begun.held = slot :: before.held

/-- `T`'s code runs, and `slot` is live from its start to its end. -/
structure Holds (B : Build) (slot : Nat) (begun : Client) (body : List Client.Event)
    (ended : Client) : Prop where
  run : ((Client.lts B).guard (Within B [slot])).Run begun body ended
  held : slot ∈ ended.held

/-- `slot` goes back on top of the free list. -/
structure Returned (B : Build) (slot : Nat) (ended after : Client) : Prop where
  lists : ∃ free, ended.Accounted B free ∧ after.Accounted B (slot :: free)
  held : after.held = ended.held.erase slot

def Activation.Exact (B : Build) : Activation → Prop
  | .refused env release before after =>
    (∀ ctor, construct B env release ctor (some before.pool) = (.error .badAlloc, some after.pool)) ∧
      before.Accounted B [] ∧ after.Accounted B [] ∧ after.held = before.held
  | .constructed env release ctor slot before begun body after =>
    construct B env release (fun raw => (ctor raw).exec B) (some before.pool) =
        (.ok slot, some after.pool) ∧
      Begun B slot before begun ∧ Holds B slot begun body after ∧
      (after.held ++ released begun.held body).Perm (slot :: before.held ++ acquired body)
  | .threw env release ctor slot before begun body ended e after =>
    construct B env release (fun raw => (ctor raw).exec B) (some before.pool) =
        (.error e, some after.pool) ∧
      Begun B slot before begun ∧ Holds B slot begun body ended ∧ Returned B slot ended after ∧
      (after.held ++ released begun.held body).Perm (before.held ++ acquired body)
  | .destroyed env dtor slot before body ended after =>
    destroy B env (fun handle => (dtor.exec B handle).2) (some before.pool) slot =
        some after.pool ∧
      slot ∈ before.held ∧ Holds B slot before body ended ∧ Returned B slot ended after ∧
      (slot :: after.held ++ released before.held body).Perm (before.held ++ acquired body)

/-! ## One call -/

section Calls

variable {B : Build} {others : List (Nat × Region)} {busy : List Nat} {c d : Client}
  {e : Client.Event} {slot : Nat} {es : List Client.Event}

structure Scene (B : Build) (others : List (Nat × Region)) (busy : List Nat) (c : Client) :
    Prop where
  inv : ∃ free, PoolInv B c.pool others free c.held
  busy : ∀ b ∈ busy, b ∈ c.held
  fixed : c.pool.pool.growFactor < 2

/-- What an allocation does to a pool that cannot grow. -/
inductive Allocated (B : Build) (c : Client) (block : Nat) (d : Client) : Prop where
  | refused : block = 0 → c.Accounted B [] → d.Accounted B [] → d.held = c.held →
      Allocated B c block d
  | begun : block ≠ 0 → Begun B block c d → Allocated B c block d

theorem Scene.allocated (S : Scene B others busy c) {env : Env} {block : Nat} {s' : State}
    (h : memoryPoolAlloc B env (some c.pool) = (block, some s')) :
    Allocated B c block ⟨s', if block = 0 then c.held else block :: c.held⟩ := by
  obtain ⟨free, I⟩ := S.inv
  have hres := popHead_result I env
  rw [memoryPoolAlloc_some] at h
  generalize popHead B env c.pool = q at h hres
  cases h
  cases hres with
  | @vend a rest tag =>
    have hne := I.head_eq.2
    rw [if_neg hne]
    exact .begun hne ⟨⟨rest, I.accounted, (I.vend tag).accounted (c := ⟨_, _⟩)⟩, rfl⟩
  | @fail heap hsame =>
    rw [if_pos rfl]
    exact .refused rfl I.accounted ((I.sameHeap hsame).accounted (c := ⟨_, _⟩)) rfl
  | grow tag hg hf =>
    have hfixed := S.fixed
    omega

theorem Scene.returned (S : Scene B others busy c) (hb : slot ∈ c.held) {env : Env} {s' : State}
    (h : memoryPoolFree B env (some c.pool) slot = some s') :
    Returned B slot c ⟨s', c.held.erase slot⟩ := by
  obtain ⟨free, I⟩ := S.inv
  obtain ⟨tag, ht⟩ := pushHead_held I hb env
  rw [memoryPoolFree_slot I.layout (I.held_slot hb), ht] at h
  cases h
  exact ⟨⟨free, I.accounted, (I.takeBack hb tag).accounted (c := ⟨_, _⟩)⟩, rfl⟩

theorem InBody.tolerated (h : InBody B busy c e) (hbusy : ∀ b ∈ busy, b ∈ c.held) :
    Client.Tolerated B c e := by
  cases e with
  | alloc env block grown => exact ⟨trivial, .inr trivial⟩
  | free env block => exact ⟨trivial, h.2⟩
  | write addr byte =>
    refine ⟨?_, .inr trivial⟩
    cases busy with
    | nil => exact h
    | cons own rest => exact ⟨own, hbusy own (List.mem_cons_self ..), h⟩

/-- The step lemma: a call that keeps the contract keeps the scene. -/
theorem Scene.step (S : Scene B others busy c) (hG : InBody B busy c e)
    (hstep : Client.Step B c e d) : Scene B others busy d ∧ Within B busy c e := by
  obtain ⟨free, I⟩ := S.inv
  obtain ⟨-, free', I', -, -, -, -⟩ := Client.refines I hstep (hG.tolerated S.busy)
  have hfixed : d.pool.pool.growFactor < 2 := by
    have hf := S.fixed
    cases hstep.frame with
    | same hshape => rw [hshape]; exact hf
    | grew hg _ hshape => rw [hshape]; exact hf
  cases hstep with
  | @alloc env block s' h =>
    have hheld : ∀ b ∈ c.held, b ∈ if block = 0 then c.held else block :: c.held := by
      intro b hb
      split
      · exact hb
      · exact List.mem_cons_of_mem _ hb
    refine ⟨⟨⟨free', I'⟩, fun b hb => hheld b (S.busy b hb), hfixed⟩, ⟨free, I.accounted⟩, ?_, ?_⟩
    · rintro _ _ _ ⟨⟩ hmem
      cases S.allocated h with
      | refused h0 => exact (I.layout.slot_spec (I.held_slot hmem)).1 h0
      | begun _ hb =>
        obtain ⟨rest, A, -⟩ := hb.lists
        exact (List.nodup_append.mp A.nodup).2.2 _ (List.mem_cons_self ..) _ hmem rfl
    · intro b hb
      exact ⟨S.busy b hb, by simp⟩
  | @free env block s' h =>
    have hne : ∀ b ∈ busy, b ≠ block := by
      rintro b hb rfl
      exact hG.1 hb
    refine ⟨⟨⟨free', I'⟩, ?_, hfixed⟩, ⟨free, I.accounted⟩, by simp, ?_⟩
    · intro b hb
      exact (List.mem_erase_of_ne (hne b hb)).mpr (S.busy b hb)
    · intro b hb
      refine ⟨S.busy b hb, ?_⟩
      rintro _ ⟨⟩
      exact hne _ hb rfl
  | write =>
    exact ⟨⟨⟨free', I'⟩, S.busy, hfixed⟩, ⟨free, I.accounted⟩, by simp,
      fun b hb => ⟨S.busy b hb, by simp⟩⟩

theorem Scene.enter (S : Scene B others busy c) (hb : slot ∈ c.held) :
    Scene B others (slot :: busy) c :=
  ⟨S.inv, by simpa using ⟨hb, S.busy⟩, S.fixed⟩

theorem Scene.leave (S : Scene B others (slot :: busy) c) : Scene B others busy c ∧ slot ∈ c.held :=
  ⟨⟨S.inv, fun b hb => S.busy b (List.mem_cons_of_mem _ hb), S.fixed⟩,
    S.busy slot (List.mem_cons_self ..)⟩

/-- A slot about to be handed out is none of those being constructed or destroyed. -/
theorem Scene.not_busy (S : Scene B others busy c) (hb : Begun B slot c d) : slot ∉ busy := by
  intro hmem
  obtain ⟨rest, A, -⟩ := hb.lists
  exact (List.nodup_append.mp A.nodup).2.2 _ (List.mem_cons_self ..) _ (S.busy slot hmem) rfl

theorem Within.mono {busy' : List Nat} (h : busy' ⊆ busy) (hw : Within B busy c e) :
    Within B busy' c e :=
  ⟨hw.accounted, hw.fresh, fun b hb => hw.kept b (h hb)⟩

theorem holds_of_run (hrun : ((Client.lts B).guard (Within B (slot :: busy))).Run c es d)
    (hb : slot ∈ d.held) : Holds B slot c es d :=
  ⟨hrun.mono fun _ _ hw => hw.mono (by simp), hb⟩

end Calls

/-! ## The bodies -/

section Bodies

variable {B : Build} {others : List (Nat × Region)}

/-- `r` is what the plain run `x` of a body amounts to, with exact accounts. -/
structure Sound (B : Build) (others : List (Nat × Region)) (busy : List Nat) (c : Client)
    (x : Option Exn × Option State) (r : Ran) : Prop where
  scene : Scene B others busy r.client
  exec : x = (r.thrown, some r.client.pool)
  run : ((Client.lts B).guard (Within B busy)).Run c r.events r.client
  exact : ∀ a ∈ r.activations, a.Exact B

theorem Sound.since {busy : List Nat} {c d : Client} {x : Option Exn × Option State} {r : Ran}
    {es : List Client.Event} {as : List Activation} (h : Sound B others busy d x r)
    (hrun : ((Client.lts B).guard (Within B busy)).Run c es d) (has : ∀ a ∈ as, a.Exact B) :
    Sound B others busy c x (r.since es as) := by
  refine ⟨h.scene, h.exec, hrun.trans h.run, ?_⟩
  intro a ha
  rcases List.mem_append.mp ha with ha | ha
  · exact has a ha
  · exact h.exact a ha

theorem exec_alloc {c d : Client} {env : Env} {e : Client.Event}
    (h : Client.exec B c (.alloc env) = some (e, d)) :
    ∃ block s', memoryPoolAlloc B env (some c.pool) = (block, some s') ∧
      e = .alloc env block (newChunk c.pool s') ∧
      d = ⟨s', if block = 0 then c.held else block :: c.held⟩ := by
  simp only [Client.exec] at h
  split at h
  · cases h
  · rename_i heq
    cases h
    exact ⟨_, _, heq, rfl, rfl⟩

theorem exec_free {c d : Client} {env : Env} {block : Nat} {e : Client.Event}
    (h : Client.exec B c (.free env block) = some (e, d)) :
    ∃ s', memoryPoolFree B env (some c.pool) block = some s' ∧ e = .free env block ∧
      d = ⟨s', c.held.erase block⟩ := by
  simp only [Client.exec] at h
  split at h
  · cases h
  · rename_i heq
    cases h
    exact ⟨_, heq, rfl, rfl⟩

theorem execIf_inv {G : Client → Client.Event → Prop} [∀ c e, Decidable (G c e)]
    {c d : Client} {call : Client.Call} {e : Client.Event}
    (h : Client.execIf B G (fun _ e _ => e) c call = some (e, d)) :
    G c e ∧ Client.exec B c call = some (e, d) := by
  unfold Client.execIf at h
  split at h
  · cases h
  · rename_i heq
    split at h
    · rename_i hG
      cases h
      exact ⟨hG, heq⟩
    · cases h

theorem Sound.all {busy : List Nat} {c : Client} {x : Option Exn × Option State} {r : Ran}
    {a : Activation} (h : Sound B others busy c x r) (ha : a.Exact B) :
    ∀ a' ∈ r.activations ++ [a], a'.Exact B := by
  intro a' ha'
  rcases List.mem_append.mp ha' with ha' | ha'
  · exact h.exact a' ha'
  · exact List.mem_singleton.mp ha' ▸ ha

/-- What a body ends with, once the slot it ran at is off the accounts on both sides. -/
theorem Holds.handover {slot : Nat} {c d : Client} {es : List Client.Event}
    (h : Holds B slot c es d) {before : List Nat} (hc : c.held.Perm (slot :: before)) :
    (d.held.erase slot ++ released c.held es).Perm (before ++ acquired es) := by
  have hown : (slot :: (d.held.erase slot ++ released c.held es)).Perm
      (d.held ++ released c.held es) := (List.perm_cons_erase h.held).symm.append_right _
  have hrun := TypedPool.handover h.run.of_guard
  exact ((hown.trans hrun).trans (hc.append_right _)).cons_inv

section Activations

variable {busy : List Nat} {c d : Client} {env release : Env} {ctor : Nat → Body .ctor}
  {block : Nat} {s' : State} {b : Ran}

theorem Scene.refused (S : Scene B others busy c)
    (h : memoryPoolAlloc B env (some c.pool) = (0, some s')) :
    (Activation.refused env release c ⟨s', c.held⟩).Exact B := by
  cases S.allocated h with
  | refused _ hc hd hheld =>
    refine ⟨?_, hc, hd, rfl⟩
    intro ctor
    simp only [construct, Pool.allocate_eq h, if_true]
  | begun h0 => exact absurd rfl h0

theorem Scene.exhausted (S : Scene B others busy c) (hempty : c.Accounted B []) (env release : Env) :
    ∃ after, (Activation.refused env release c after).Exact B := by
  have hsome := memoryPoolAlloc_some B env c.pool
  cases S.allocated hsome with
  | refused h0 =>
    rw [h0] at hsome
    exact ⟨_, S.refused hsome⟩
  | begun h0 hbegun =>
    obtain ⟨rest, A, -⟩ := hbegun.lists
    exact absurd (A.chain.unique hempty.chain) (by simp)

theorem Begun.constructed (hbegun : Begun B block c d) (release : Env)
    (halloc : memoryPoolAlloc B env (some c.pool) = (block, some d.pool)) (h0 : block ≠ 0)
    (hbody : Sound B others (block :: busy) d ((ctor block).exec B (some d.pool)) b)
    (hthrown : b.thrown = none) :
    construct B env release (fun raw => (ctor raw).exec B) (some c.pool) =
        (.ok block, some b.client.pool) ∧
      (Activation.constructed env release ctor block c d b.events b.client).Exact B := by
  have hexec : construct B env release (fun raw => (ctor raw).exec B) (some c.pool) =
      (.ok block, some b.client.pool) := by
    simp only [construct, Pool.allocate_eq halloc, if_neg h0, hbody.exec, hthrown]
  have hholds := holds_of_run hbody.run hbody.scene.leave.2
  refine ⟨hexec, hexec, hbegun, hholds, ?_⟩
  have hrun := TypedPool.handover hholds.run.of_guard
  refine hrun.trans ?_
  rw [hbegun.held]

theorem Begun.threw (hbegun : Begun B block c d)
    (halloc : memoryPoolAlloc B env (some c.pool) = (block, some d.pool)) (h0 : block ≠ 0)
    (hbody : Sound B others (block :: busy) d ((ctor block).exec B (some d.pool)) b) {e : Exn}
    (hthrown : b.thrown = some e)
    (hfree : memoryPoolFree B release (some b.client.pool) block = some s') :
    construct B env release (fun raw => (ctor raw).exec B) (some c.pool) = (.error e, some s') ∧
      (Activation.threw env release ctor block c d b.events b.client e
        ⟨s', b.client.held.erase block⟩).Exact B := by
  have hexec : construct B env release (fun raw => (ctor raw).exec B) (some c.pool) =
      (.error e, some s') := by
    simp only [construct, Pool.allocate_eq halloc, if_neg h0, hbody.exec, hthrown, Pool.deallocate,
      hfree]
  obtain ⟨S, hheld⟩ := hbody.scene.leave
  have hholds := holds_of_run hbody.run hheld
  exact ⟨hexec, hexec, hbegun, hholds, S.returned hheld hfree,
    hholds.handover (.of_eq hbegun.held)⟩

theorem Scene.destroyed {dtor : Body .dtor} (S : Scene B others busy c) (hc : block ∈ c.held)
    (hbody : Sound B others (block :: busy) c (dtor.exec B (some c.pool)) b)
    (hfree : memoryPoolFree B env (some b.client.pool) block = some s') :
    destroy B env (fun handle => (dtor.exec B handle).2) (some c.pool) block = some s' ∧
      (Activation.destroyed env dtor block c b.events b.client
        ⟨s', b.client.held.erase block⟩).Exact B := by
  obtain ⟨free, I⟩ := S.inv
  have h0 : block ≠ 0 := (I.layout.slot_spec (I.held_slot hc)).1
  have hexec : destroy B env (fun handle => (dtor.exec B handle).2) (some c.pool) block =
      some s' := by
    simp only [destroy, if_neg h0, hbody.exec, Pool.deallocate, hfree]
  obtain ⟨S', hheld⟩ := hbody.scene.leave
  have hholds := holds_of_run hbody.run hheld
  refine ⟨hexec, hexec, hc, hholds, S'.returned hheld hfree, ?_⟩
  have hown := (hholds.handover (List.perm_cons_erase hc)).cons block
  exact hown.trans ((List.perm_cons_erase hc).symm.append_right _)

end Activations

theorem Body.sound {k : Kind} (p : Body k) : ∀ {busy : List Nat} {c : Client} {r : Ran},
    Scene B others busy c → p.track B busy c = some r →
      Sound B others busy c (p.exec B (some c.pool)) r := by
  induction p with
  | ret =>
    intro busy c r S h
    cases h
    exact ⟨S, rfl, .nil, by simp⟩
  | throw e =>
    intro busy c r S h
    cases h
    exact ⟨S, rfl, .nil, by simp⟩
  | write addr byte next ih =>
    intro busy c r S h
    simp only [track, Option.bind_eq_bind, Option.bind_eq_some_iff] at h
    obtain ⟨⟨e, d⟩, he, r', hr, h⟩ := h
    cases h
    obtain ⟨hG, he⟩ := execIf_inv he
    cases he
    obtain ⟨S', hw⟩ := S.step hG .write
    exact (ih S' hr).since (.single ⟨hw, .write⟩) (by simp)
  | tryAllocate env next ih =>
    intro busy c r S h
    simp only [track, Option.bind_eq_bind, Option.bind_eq_some_iff] at h
    obtain ⟨⟨e, d⟩, he, r', hr, h⟩ := h
    cases h
    obtain ⟨block, s', halloc, rfl, rfl⟩ := exec_alloc he
    obtain ⟨S', hw⟩ := S.step (e := .alloc env block _) trivial (.alloc halloc)
    have hexec : (Body.tryAllocate env next).exec B (some c.pool) =
        (next block).exec B (some s') := by
      simp only [exec, TypedPool.tryAllocate, Pool.tryAllocate, halloc]
    rw [hexec]
    exact (ih block S' hr).since (.single ⟨hw, .alloc halloc⟩) (by simp)
  | deallocate env block next ih =>
    intro busy c r S h
    simp only [track, Option.bind_eq_bind, Option.bind_eq_some_iff] at h
    obtain ⟨⟨e, d⟩, he, r', hr, h⟩ := h
    cases h
    obtain ⟨hG, he⟩ := execIf_inv he
    obtain ⟨s', hfree, rfl, rfl⟩ := exec_free he
    obtain ⟨S', hw⟩ := S.step hG (.free hfree)
    have hexec : (Body.deallocate env block next).exec B (some c.pool) =
        next.exec B (some s') := by
      simp only [exec, TypedPool.deallocate, Pool.deallocate, hfree]
    rw [hexec]
    exact (ih S' hr).since (.single ⟨hw, .free hfree⟩) (by simp)
  | construct env release ctor next ihc ih =>
    intro busy c r S h
    simp only [track, Option.bind_eq_bind, Option.bind_eq_some_iff] at h
    obtain ⟨⟨e, d⟩, he, h⟩ := h
    obtain ⟨block, s', halloc, rfl, rfl⟩ := exec_alloc he
    obtain ⟨S', hw⟩ := S.step (e := .alloc env block _) trivial (.alloc halloc)
    have hcall : ((Client.lts B).guard (Within B busy)).Run c [.alloc env block _] _ :=
      .single ⟨hw, .alloc halloc⟩
    simp only [Client.Event.block] at h
    cases S.allocated halloc with
    | refused h0 =>
      subst h0
      simp only [if_true, Option.bind_eq_some_iff] at h
      obtain ⟨r', hr, h⟩ := h
      cases h
      have hexact : (Activation.refused env release c _).Exact B := S.refused halloc
      have hexec : (Body.construct env release ctor next).exec B (some c.pool) =
          (next (.error .badAlloc)).exec B (some s') := by
        simp only [exec, hexact.1]
      rw [hexec]
      exact (ih _ S' hr).since hcall (by simpa using hexact)
    | begun h0 hbegun =>
      simp only [if_neg h0, Option.bind_eq_some_iff] at h S' hcall hbegun
      obtain ⟨b, hb, h⟩ := h
      have hbody := ihc block (S'.enter (List.mem_cons_self ..)) hb
      have hrun := hcall.trans (hbody.run.mono fun _ _ hw => hw.mono (by simp))
      cases hthrown : b.thrown with
      | none =>
        simp only [hthrown, Option.bind_eq_some_iff] at h
        obtain ⟨r', hr, h⟩ := h
        cases h
        obtain ⟨hconstruct, hexact⟩ := hbegun.constructed release halloc h0 hbody hthrown
        have hexec : (Body.construct env release ctor next).exec B (some c.pool) =
            (next (.ok block)).exec B (some b.client.pool) := by
          simp only [exec, hconstruct]
        rw [hexec]
        exact (ih _ hbody.scene.leave.1 hr).since hrun (hbody.all hexact)
      | some x =>
        simp only [hthrown, Option.bind_eq_some_iff] at h
        obtain ⟨⟨f, d'⟩, hf, r', hr, h⟩ := h
        cases h
        obtain ⟨s'', hfree, rfl, rfl⟩ := exec_free hf
        obtain ⟨Sb, hheld⟩ := hbody.scene.leave
        obtain ⟨S'', hw'⟩ := Sb.step (e := .free release block)
          ⟨S.not_busy hbegun, .inr (.inl hheld)⟩ (.free hfree)
        obtain ⟨hconstruct, hexact⟩ := hbegun.threw halloc h0 hbody hthrown hfree
        have hexec : (Body.construct env release ctor next).exec B (some c.pool) =
            (next (.error x)).exec B (some s'') := by
          simp only [exec, hconstruct]
        rw [hexec]
        exact (ih _ S'' hr).since (hrun.snoc ⟨hw', .free hfree⟩) (hbody.all hexact)
  | destroy env obj dtor next ihd ih =>
    intro busy c r S h
    simp only [track] at h
    split at h
    · rename_i h0
      have hexec : (Body.destroy env obj dtor next).exec B (some c.pool) =
          next.exec B (some c.pool) := by
        simp only [exec, TypedPool.destroy, if_pos h0]
      rw [hexec]
      exact ih S h
    · split at h
      · rename_i h0 hobj
        simp only [Option.bind_eq_bind, Option.bind_eq_some_iff] at h
        obtain ⟨b, hb, ⟨f, d⟩, hf, r', hr, h⟩ := h
        cases h
        obtain ⟨s', hfree, rfl, rfl⟩ := exec_free hf
        have hbody := ihd (S.enter hobj.1) hb
        obtain ⟨Sb, hheld⟩ := hbody.scene.leave
        obtain ⟨S', hw⟩ := Sb.step (e := .free env obj) ⟨hobj.2, .inr (.inl hheld)⟩ (.free hfree)
        obtain ⟨hdestroy, hexact⟩ := S.destroyed hobj.1 hbody hfree
        have hexec : (Body.destroy env obj dtor next).exec B (some c.pool) =
            next.exec B (some s') := by
          simp only [exec, hdestroy]
        have hrun : ((Client.lts B).guard (Within B busy)).Run _ _ _ :=
          hbody.run.mono fun _ _ hw => hw.mono (by simp)
        rw [hexec]
        exact (ih S' hr).since (hrun.snoc ⟨hw, .free hfree⟩) (hbody.all hexact)
      · cases h

end Bodies

end TypedPool

open TypedPool

/-- Whatever a program does with a typed pool, from its creation on, and whatever the constructors
and destructors it runs do in turn, as long as they keep their contract: every `construct` and
`destroy` at any depth keeps exact accounts, nothing live is handed out, and at every call, and in
the end, every slot is either live or on the free list. -/
theorem typed_accounts {B : Build} {env : Env} {w w' : World} {sizeofT blockCount : Nat}
    {p : PoolStruct} (hmake : make B env w sizeofT blockCount = (some p, w')) {k : Kind}
    {program : Body k} {r : Ran} (h : program.track B [] ⟨⟨w', p⟩, []⟩ = some r) :
    program.exec B (some ⟨w', p⟩) = (r.thrown, some r.client.pool) ∧
      ((Client.lts B).guard (Within B [])).Run ⟨⟨w', p⟩, []⟩ r.events r.client ∧
      (∃ free, r.client.Accounted B free) ∧ (∀ a ∈ r.activations, a.Exact B) ∧
      (r.client.Accounted B [] → ∀ env release, ∃ after,
        (Activation.refused env release r.client after).Exact B) := by
  have C := memoryPoolCreate_created (Nat.mod_lt _ B.modulus_pos) hmake
  obtain ⟨-, -, _, _, _, -, -, -, -, -, rfl, -⟩ := memoryPoolCreate_some hmake
  have hsound := program.sound (c := ⟨⟨w', _⟩, []⟩) ⟨⟨_, C.inv⟩, by simp, Nat.zero_lt_two⟩ h
  have S := hsound.scene
  obtain ⟨free, I⟩ := S.inv
  exact ⟨hsound.exec, hsound.run, ⟨free, I.accounted⟩, hsound.exact,
    fun hempty env release => S.exhausted hempty env release⟩

/-! ## A program -/

def typedPool : PoolStruct := ⟨0x100, 0x1000, ⟨0x1000, 0⟩, 32, 3, 16, [], 0, 0, false⟩

def typedWorld : World := (make (Build.x64 false .none) firstEnv World.start 24 3).2

/-- A constructor whose first member throws, which it catches, takes a block and throws itself; an
object whose destructor takes a block; and two more constructions, the second of which finds the
pool exhausted. -/
def typedProgram : Body .dtor :=
  .construct firstEnv firstEnv
    (fun this => .write this 7
      (.construct firstEnv firstEnv (fun _ => .throw (.thrown 1))
        fun _ => .tryAllocate firstEnv fun _ => .throw (.thrown 2)))
    fun _ => .construct firstEnv firstEnv (fun _ => .ret)
      fun result => .destroy firstEnv (result.toOption.getD 0)
        (.tryAllocate firstEnv fun _ => .ret)
        (.construct firstEnv firstEnv (fun _ => .ret)
          fun _ => .construct firstEnv firstEnv (fun _ => .ret) fun _ => .ret)

theorem typed_accounts_x64 :
    ∃ r, typedProgram.track (Build.x64 false .none) [] ⟨⟨typedWorld, typedPool⟩, []⟩ = some r ∧
      r.client.held = [0x1000, 0x1040, 0x1020] ∧ r.activations.length = 6 ∧
      (∃ free, r.client.Accounted (Build.x64 false .none) free) ∧
      ∀ a ∈ r.activations, a.Exact (Build.x64 false .none) := by
  have hmake : make (Build.x64 false .none) firstEnv World.start 24 3 =
      (some typedPool, typedWorld) := Prod.ext (by decide) rfl
  have hrun : (typedProgram.track (Build.x64 false .none) []
      ⟨⟨typedWorld, typedPool⟩, []⟩).map (fun r => (r.client.held, r.activations.length)) =
        some ([0x1000, 0x1040, 0x1020], 6) := by decide +kernel
  obtain ⟨r, hr, hx⟩ := Option.map_eq_some_iff.mp hrun
  obtain ⟨h1, h2⟩ := Prod.mk.injEq .. ▸ hx
  obtain ⟨-, -, h3, h4, -⟩ := typed_accounts hmake hr
  exact ⟨r, hr, h1, h2, h3, h4⟩

end MemoryPool
