import MemoryPool.TagWidth

/-!
# MemoryPool.DoubleFree

Double frees of the hardened `LOCKFREE` build: `push_head` is called with blocks that are on the
free list. `on_free` reads the guard, poisons the payload and stamps the guard one after the other,
and nothing keeps the block on the list meanwhile.

* `Crowd`: the threads of `LockFree.Machine`, and double frees besides. `Crowd.calm` is the machine
  without the double frees.
* `Guarded.step`: as long as nobody pops a block that is being freed again, the machine without the
  double frees goes its way, and each of them is reported and dropped.
* `double_free_race`: if it is popped, the thread that gets the block loses what it writes into it,
  and the pool loses the block.
-/

namespace MemoryPool

namespace LockFree

open ByteMem LinkedList

/-- The machine, and which of its threads are in a free of a block that was not out. -/
structure Crowd (τ : Type*) where
  machine : Machine τ
  again : τ → Bool

/-- Other reports beside the same pool. -/
def withReports (s : State) (reports : List Report) : State := { s with reports := reports }

namespace Crowd

variable {τ : Type*}

/-- A step of the machine; the free of a block that is not out; an instruction of such a free. -/
inductive Event (τ : Type*) where
  | calm (e : LockFree.Event τ)
  | free (t : τ) (block : Nat)
  | again (t : τ) (pc : Pc) (label : Label)
  deriving DecidableEq

/-- The blocks that a thread has. A double free has none in its hands. -/
def owned (x : Crowd τ) (t : τ) : List Nat :=
  if x.again t then (x.machine.threads t).held else (x.machine.threads t).owned

/-- The machine without its double frees, and without their reports. -/
def calm (x : Crowd τ) (reports : List Report) : Machine τ :=
  ⟨withReports x.machine.pool reports,
    fun t => if x.again t then { x.machine.threads t with pc := .idle } else x.machine.threads t,
    x.machine.cas⟩

def start (s : State) : Crowd τ := ⟨.start s, fun _ => false⟩

def Event.calm? : Event τ → Option (LockFree.Event τ)
  | .calm e => some e
  | _ => none

/-- The report that a double free makes at its first instruction. -/
def Event.report : Event τ → Option Report
  | .again _ (.freeGuard block) _ => some ⟨.doubleFree, block⟩
  | _ => none

variable [DecidableEq τ]

inductive Step (B : Build) : Crowd τ → Event τ → Crowd τ → Prop where
  | calm {x : Crowd τ} {e : LockFree.Event τ} {m : Machine τ} : x.again e.thread = false →
      LockFree.Step B x.machine e m → Step B x (.calm e) ⟨m, x.again⟩
  | free {x : Crowd τ} {t : τ} {block : Nat} : x.again t = false →
      (x.machine.threads t).pc = .idle → block ∈ x.machine.pool.pool.slots B →
      (∀ u, block ∉ x.owned u) →
      Step B x (.free t block)
        ⟨x.machine.move t x.machine.pool
            { x.machine.threads t with
              pc := if B.hardening then .freeGuard block else .pushLoad block } x.machine.cas,
          Function.update x.again t true⟩
  | again {x : Crowd τ} {t : τ} {spurious : Bool} {label : Label} {s : State} {pc : Pc} :
      x.again t = true →
      instr B spurious x.machine.pool (x.machine.threads t).pc = some (label, s, pc) →
      Step B x (.again t (x.machine.threads t).pc label)
        ⟨x.machine.move t s ((x.machine.threads t).after x.machine.cas pc label)
            (label.count x.machine.cas),
          Function.update x.again t (decide (pc ≠ .idle))⟩

def lts (B : Build) (τ : Type*) [DecidableEq τ] : Lts (Crowd τ) (Event τ) := ⟨Step B⟩

def InWindow (B : Build) (x : Crowd τ) : Event τ → Prop
  | .calm e => LockFree.InWindow B x.machine e
  | .again t _ label => LockFree.InWindow B x.machine (.instr t label)
  | .free _ _ => True

/-- Nobody pops a block that is being freed again. -/
def Undisturbed (x : Crowd τ) : Event τ → Prop
  | .calm (.instr _ (.cas (.pop block))) =>
    ∀ u, x.again u = true → block ∉ (x.machine.threads u).pc.block
  | _ => True

end Crowd

/-! ## The machine without the double frees -/

section Calm

variable {τ : Type*} {B : Build} {s s' : State} {pc pc' : Pc} {label : Label} {spurious : Bool}

theorem withReports_report (c : Prop) [Decidable c] (s : State) (reports : List Report)
    (violation : Violation) (block : Nat) :
    ∃ new, (s.setWorld (if c then s.report violation block else s.toWorld)).reports =
        s.reports ++ new ∧
      (withReports s reports).setWorld (if c then (withReports s reports).report violation block
        else (withReports s reports).toWorld) =
        withReports (s.setWorld (if c then s.report violation block else s.toWorld))
          (reports ++ new) := by
  by_cases hc : c
  · rw [if_pos hc, if_pos hc]
    exact ⟨[⟨violation, block⟩], rfl, rfl⟩
  · rw [if_neg hc, if_neg hc]
    exact ⟨[], (List.append_nil _).symm, by rw [List.append_nil]; rfl⟩

/-- No instruction looks at what has been reported. -/
theorem instr_reports (h : instr B spurious s pc = some (label, s', pc')) (reports : List Report) :
    ∃ new, s'.reports = s.reports ++ new ∧
      instr B spurious (withReports s reports) pc =
        some (label, withReports s' (reports ++ new), pc') := by
  have hsame : s'.reports = s.reports →
      instr B spurious (withReports s reports) pc = some (label, withReports s' reports, pc') →
      ∃ new, s'.reports = s.reports ++ new ∧
        instr B spurious (withReports s reports) pc =
          some (label, withReports s' (reports ++ new), pc') := by
    intro hr hi
    exact ⟨[], by rw [hr, List.append_nil], by rw [hi, List.append_nil]⟩
  cases pc with
  | idle => cases h
  | allocGuard block =>
    simp only [instr, Option.some.injEq, Prod.mk.injEq] at h
    obtain ⟨rfl, rfl, rfl⟩ := h
    obtain ⟨new, h1, h2⟩ := withReports_report
      (readGuard s.mem block s.pool.blockSize ≠ guardFreed) s reports .freelistCorruption block
    exact ⟨new, h1, by rw [← h2]; rfl⟩
  | allocPoison block =>
    simp only [instr, Option.some.injEq, Prod.mk.injEq] at h
    obtain ⟨rfl, rfl, rfl⟩ := h
    obtain ⟨new, h1, h2⟩ := withReports_report
      ((!payloadIsPoison B s.mem block s.pool.blockSize) = true) s reports .useAfterFree block
    exact ⟨new, h1, by rw [← h2]; rfl⟩
  | freeGuard block =>
    simp only [instr, Option.some.injEq, Prod.mk.injEq] at h
    obtain ⟨rfl, rfl, rfl⟩ := h
    by_cases hf : readGuard s.mem block s.pool.blockSize = guardFreed
    · have hf' : readGuard (withReports s reports).mem block
          (withReports s reports).pool.blockSize = guardFreed := hf
      refine ⟨[⟨.doubleFree, block⟩], by rw [if_pos hf]; rfl, ?_⟩
      simp only [instr, if_pos hf, if_pos hf']
      rfl
    · have hf' : ¬readGuard (withReports s reports).mem block
          (withReports s reports).pool.blockSize = guardFreed := hf
      obtain ⟨new, h1, h2⟩ := withReports_report
        (readGuard s.mem block s.pool.blockSize ≠ guardAllocated) s reports .overflow block
      simp only [instr, if_neg hf, if_neg hf']
      exact ⟨new, h1, by rw [← h2]; rfl⟩
  | popTest expected =>
    simp only [instr] at h
    split at h <;> rename_i h0 <;> cases h
    · exact hsame rfl (if_pos h0)
    · exact hsame rfl (if_neg h0)
  | popCas expected next =>
    simp only [instr] at h
    split at h <;> rename_i hc <;> cases h
    · exact hsame rfl (if_pos hc)
    · exact hsame rfl (if_neg hc)
  | pushCas block expected =>
    simp only [instr] at h
    split at h <;> rename_i hc <;> cases h
    · exact hsame rfl (if_pos hc)
    · exact hsame rfl (if_neg hc)
  | _ =>
    simp only [instr, Option.some.injEq, Prod.mk.injEq] at h
    obtain ⟨rfl, rfl, rfl⟩ := h
    exact hsame rfl rfl

end Calm

section Guarded

variable {τ : Type*} {B : Build} {others : List (Nat × Region)} {reports : List Report}
  {p : PoolStruct} {x y : Crowd τ} {m m' : Machine τ} {t : τ} {free free' : List Nat}
  {e : LockFree.Event τ}

/-- A free of a block that is on the free list, before or after it has found that out. -/
def Caught (free : List Nat) (pc : Pc) : Prop :=
  ∃ block ∈ free, pc = .freeGuard block ∨ pc = .freePoison block true ∨
    pc = .freeStamp block true

structure Guarded (B : Build) (others : List (Nat × Region)) (reports : List Report)
    (p : PoolStruct) (x : Crowd τ) (free : List Nat) : Prop where
  inv : Inv B others reports p (x.calm reports) free
  caught : ∀ t, x.again t = true → Caught free (x.machine.threads t).pc

theorem Crowd.calm_thread (ha : x.again t = false) :
    (x.calm reports).threads t = x.machine.threads t := if_neg (by simp [ha])

theorem Crowd.calm_owned (x : Crowd τ) (reports : List Report) (u : τ) :
    ((x.calm reports).threads u).owned = x.owned u := by
  cases ha : x.again u <;> simp [Crowd.calm, Crowd.owned, ha, Thread.owned, Pc.block]

theorem Crowd.inWindow_calm (ha : x.again e.thread = false) (hw : LockFree.InWindow B x.machine e) :
    LockFree.InWindow B (x.calm reports) e := by
  cases e with
  | instr t label =>
    cases label with
    | cas op =>
      have hth : (x.calm reports).threads t = x.machine.threads t := Crowd.calm_thread ha
      show x.machine.cas - ((x.calm reports).threads t).snap < B.modulus
      rw [hth]
      exact hw
    | _ => trivial
  | _ => trivial

theorem Caught.mono {pc : Pc} (h : Caught free pc)
    (hfree : ∀ b ∈ free, b ∈ pc.block → b ∈ free') : Caught free' pc := by
  obtain ⟨b, hmem, hpc⟩ := h
  refine ⟨b, hfree b hmem ?_, hpc⟩
  rcases hpc with rfl | rfl | rfl <;> exact List.mem_singleton_self b

/-- A block leaves the stack only if it is popped. -/
theorem stack_mem {op : Option (StackOp Nat)} {b : Nat}
    (h : (Stack.lts Nat).Run free op.toList free') (hb : b ∈ free) (hop : op ≠ some (.pop b)) :
    b ∈ free' := by
  cases op with
  | none => rwa [h.nil_inv]
  | some op =>
    cases (show Stack.Step free op free' from Lts.Run.single_inv h) with
    | pop => exact (List.mem_cons.mp hb).resolve_left fun heq => hop (by rw [heq])
    | push => exact List.mem_cons_of_mem _ hb

theorem poisonPayload_same {m : Mem} {slot blockSize : Nat} (hp : Poisoned B m slot blockSize) :
    poisonPayload B m slot blockSize = m := by
  unfold poisonPayload
  split
  · exact fill_same fun a hl hu => hp a hl (by omega)
  · rfl

theorem writeGuard_same {m : Mem} {slot blockSize value : Nat}
    (hg : readGuard m slot blockSize = value) : writeGuard m slot blockSize value = m := by
  unfold writeGuard
  rw [← hg]
  exact write_read m _ _

/-- The three instructions of a double free: what they write is there already. -/
theorem Caught.instr {spurious : Bool} {label : Label} {s s' : State} {pc pc' : Pc}
    (h : Caught free pc) (t : τ) (reports : List Report) (hh : B.hardening = true)
    (hfreed : ∀ a ∈ free, StampedFree B s.mem a s.pool.blockSize)
    (hi : instr B spurious s pc = some (label, s', pc')) :
    label = .quiet ∧ withReports s' reports = withReports s reports ∧
      (pc' = .idle ∨ Caught free pc') ∧
      s'.reports = s.reports ++ (Crowd.Event.report (.again t pc label)).toList := by
  obtain ⟨block, hfree, hpc⟩ := h
  obtain ⟨hg, hp⟩ := hfreed block hfree hh
  rcases hpc with rfl | rfl | rfl
  · simp only [LockFree.instr, if_pos hg, decide_eq_true hg, Option.some.injEq,
      Prod.mk.injEq] at hi
    obtain ⟨rfl, rfl, rfl⟩ := hi
    exact ⟨rfl, rfl, Or.inr ⟨block, hfree, Or.inr (Or.inl rfl)⟩, rfl⟩
  · simp only [LockFree.instr, poisonPayload_same hp, Option.some.injEq, Prod.mk.injEq] at hi
    obtain ⟨rfl, rfl, rfl⟩ := hi
    exact ⟨rfl, rfl, Or.inr ⟨block, hfree, Or.inr (Or.inr rfl)⟩, (List.append_nil _).symm⟩
  · simp only [LockFree.instr, writeGuard_same hg, if_true, Option.some.injEq,
      Prod.mk.injEq] at hi
    obtain ⟨rfl, rfl, rfl⟩ := hi
    exact ⟨rfl, rfl, Or.inl rfl, (List.append_nil _).symm⟩

variable [DecidableEq τ]

theorem Crowd.calm_move (ha : x.again t = false) (s : State) (th : Thread) (cas : Nat) :
    (⟨x.machine.move t s th cas, x.again⟩ : Crowd τ).calm reports =
      (x.calm reports).move t (withReports s reports) th cas := by
  unfold Crowd.calm Machine.move
  congr 1
  funext u
  by_cases hu : u = t
  · subst hu
    simp [ha]
  · simp [hu]

theorem step_other (h : LockFree.Step B m e m') (ht : t ≠ e.thread) :
    m'.threads t = m.threads t := by
  cases h with
  | pop _ => exact Function.update_of_ne ht _ _
  | push _ _ => exact Function.update_of_ne ht _ _
  | instr _ => exact Function.update_of_ne ht _ _
  | write _ _ _ => rfl

/-- A step of the machine is a step of the machine without the double frees. -/
theorem Guarded.calm_step (G : Guarded B others reports p x free) (ha : x.again e.thread = false)
    (h : LockFree.Step B x.machine e m) (hw : LockFree.InWindow B x.machine e) :
    LockFree.Step B (x.calm reports) e ((⟨m, x.again⟩ : Crowd τ).calm reports) ∧
      m.pool.reports = x.machine.pool.reports := by
  have hth : (x.calm reports).threads e.thread = x.machine.threads e.thread :=
    Crowd.calm_thread ha
  have hw' : LockFree.InWindow B (x.calm reports) e := Crowd.inWindow_calm ha hw
  cases h with
  | @pop t hidle =>
    replace hth : (x.calm reports).threads t = x.machine.threads t := hth
    have hstep : LockFree.Step B (x.calm reports) (.call t .pop) _ := .pop (by rwa [hth])
    rw [hth] at hstep
    exact ⟨(Crowd.calm_move (t := t) ha _ _ _) ▸ hstep, rfl⟩
  | @push t block hidle hheld =>
    replace hth : (x.calm reports).threads t = x.machine.threads t := hth
    have hstep : LockFree.Step B (x.calm reports) (.call t (.push block)) _ :=
      .push (by rwa [hth]) (by rwa [hth])
    rw [hth] at hstep
    exact ⟨(Crowd.calm_move (t := t) ha _ _ _) ▸ hstep, rfl⟩
  | @instr t spurious label s pc hi =>
    replace hth : (x.calm reports).threads t = x.machine.threads t := hth
    obtain ⟨new, hs, hi'⟩ := instr_reports hi reports
    have hstep : LockFree.Step B (x.calm reports) (.instr t label) _ :=
      .instr (by rw [hth]; exact hi')
    rw [hth] at hstep
    -- in the machine without the double frees nothing is reported
    obtain ⟨free', I, -⟩ := G.inv.step hstep hw'
    obtain rfl : new = [] := by simpa [withReports, Machine.move] using I.reports
    rw [List.append_nil] at hs hstep
    exact ⟨(Crowd.calm_move (t := t) ha _ _ _) ▸ hstep, hs⟩
  | @write t block addr byte hheld hl hu =>
    replace hth : (x.calm reports).threads t = x.machine.threads t := hth
    have hstep : LockFree.Step B (x.calm reports) (.write t addr byte) _ :=
      .write (by rwa [hth]) hl hu
    exact ⟨hstep, rfl⟩

theorem Guarded.calm (G : Guarded B others reports p x free) (ha : x.again e.thread = false)
    (h : LockFree.Step B x.machine e m) (hw : LockFree.InWindow B x.machine e)
    (hu : x.Undisturbed (.calm e)) : ∃ free', Guarded B others reports p ⟨m, x.again⟩ free' := by
  obtain ⟨free', I, hr⟩ := G.inv.step (G.calm_step ha h hw).1 (Crowd.inWindow_calm ha hw)
  refine ⟨free', I, fun t ht => ?_⟩
  have hne : t ≠ e.thread := by
    rintro rfl
    rw [ha] at ht
    cases ht
  show Caught free' (m.threads t).pc
  rw [step_other h hne]
  refine (G.caught t ht).mono fun b hb hpc => stack_mem hr hb fun hop => ?_
  cases e with
  | instr u label =>
    cases label with
    | cas op =>
      cases hop
      exact hu t ht hpc
    | _ => cases hop
  | _ => cases hop

/-- What happens inside a double free is not seen. -/
theorem Crowd.calm_again {s : State} {th : Thread} {again : Bool}
    (hs : withReports s reports = withReports x.machine.pool reports)
    (hth : (if again then { th with pc := .idle } else th) = (x.calm reports).threads t) :
    (⟨x.machine.move t s th x.machine.cas, Function.update x.again t again⟩ : Crowd τ).calm
      reports = x.calm reports := by
  unfold Crowd.calm at hth ⊢
  unfold Machine.move
  congr 1
  funext u
  by_cases hu : u = t
  · subst hu
    simpa using hth
  · simp [hu]

/-- The free of a block that is not out. -/
theorem Guarded.freeAgain {block : Nat} (G : Guarded B others reports p x free)
    (hh : B.hardening = true) (ha : x.again t = false) (hidle : (x.machine.threads t).pc = .idle)
    (hslot : block ∈ x.machine.pool.pool.slots B) (hno : ∀ u, block ∉ x.owned u)
    (hy : y = ⟨x.machine.move t x.machine.pool
        { x.machine.threads t with
          pc := if B.hardening then .freeGuard block else .pushLoad block } x.machine.cas,
      Function.update x.again t true⟩) :
    Guarded B others reports p y free ∧ y.calm reports = x.calm reports := by
  have hcalm : y.calm reports = x.calm reports := by
    rw [hy]
    refine Crowd.calm_again rfl ?_
    simp [Crowd.calm, ha, ← hidle]
  refine ⟨⟨hcalm ▸ G.inv, fun u hu => ?_⟩, hcalm⟩
  rw [hy] at hu ⊢
  by_cases hut : u = t
  · subst hut
    refine ⟨block, ?_, Or.inl (by simp [Machine.move, hh])⟩
    refine ((G.inv.shares.cover block).mp hslot).resolve_right ?_
    rintro ⟨v, hv⟩
    rw [Crowd.calm_owned] at hv
    exact hno v hv
  · simp only [Function.update_of_ne hut] at hu
    simpa [Machine.move, hut] using G.caught u hu

theorem Guarded.instrAgain {spurious : Bool} {label : Label} {s : State} {pc : Pc}
    (G : Guarded B others reports p x free) (hh : B.hardening = true) (ha : x.again t = true)
    (h : instr B spurious x.machine.pool (x.machine.threads t).pc = some (label, s, pc))
    (hy : y = ⟨x.machine.move t s ((x.machine.threads t).after x.machine.cas pc label)
        (label.count x.machine.cas), Function.update x.again t (decide (pc ≠ .idle))⟩) :
    Guarded B others reports p y free ∧ y.calm reports = x.calm reports ∧
      s.reports = x.machine.pool.reports ++
        (Crowd.Event.report (.again t (x.machine.threads t).pc label)).toList := by
  have hfreed : ∀ a ∈ free,
      StampedFree B x.machine.pool.mem a x.machine.pool.pool.blockSize := G.inv.freed
  obtain ⟨rfl, hpool, hpc, hr⟩ := (G.caught t ha).instr t reports hh hfreed h
  have hcalm : y.calm reports = x.calm reports := by
    rw [hy]
    refine Crowd.calm_again hpool ?_
    by_cases hidle : pc = .idle <;> simp [Crowd.calm, ha, hidle, Thread.after]
  refine ⟨⟨hcalm ▸ G.inv, fun u hu => ?_⟩, hcalm, hr⟩
  rw [hy] at hu ⊢
  by_cases hut : u = t
  · subst hut
    simp only [Function.update_self, decide_eq_true_eq] at hu
    simpa [Machine.move, Thread.after] using hpc.resolve_left hu
  · simp only [Function.update_of_ne hut] at hu
    simpa [Machine.move, hut] using G.caught u hu

/-- As long as nobody pops a block that is being freed again, the machine without the double frees
does not see them. -/
theorem Guarded.step {e : Crowd.Event τ} (G : Guarded B others reports p x free)
    (hh : B.hardening = true) (h : Crowd.Step B x e y) (hw : Crowd.InWindow B x e)
    (hu : x.Undisturbed e) :
    (∃ free', Guarded B others reports p y free') ∧
      ((LockFree.lts B τ).guard (LockFree.InWindow B)).Run (x.calm reports) e.calm?.toList
        (y.calm reports) ∧
      y.machine.pool.reports = x.machine.pool.reports ++ e.report.toList := by
  cases h with
  | calm ha hs =>
    obtain ⟨hstep, hr⟩ := G.calm_step ha hs hw
    exact ⟨G.calm ha hs hw hu, .single ⟨Crowd.inWindow_calm ha hw, hstep⟩,
      hr.trans (List.append_nil _).symm⟩
  | free ha hidle hslot hno =>
    obtain ⟨G', hcalm⟩ := G.freeAgain hh ha hidle hslot hno rfl
    exact ⟨⟨_, G'⟩, hcalm ▸ .nil, (List.append_nil _).symm⟩
  | again ha hi =>
    obtain ⟨G', hcalm, hr⟩ := G.instrAgain hh ha hi rfl
    exact ⟨⟨_, G'⟩, hcalm ▸ .nil, hr⟩

theorem Guarded.run {es : List (Crowd.Event τ)} (G : Guarded B others reports p x free)
    (hh : B.hardening = true)
    (h : ((Crowd.lts B τ).guard fun x e => x.InWindow B e ∧ x.Undisturbed e).Run x es y) :
    (∃ free', Guarded B others reports p y free') ∧
      ((LockFree.lts B τ).guard (LockFree.InWindow B)).Run (x.calm reports)
        (es.filterMap Crowd.Event.calm?) (y.calm reports) ∧
      y.machine.pool.reports = x.machine.pool.reports ++ es.filterMap Crowd.Event.report := by
  induction h with
  | nil => exact ⟨⟨free, G⟩, .nil, (List.append_nil _).symm⟩
  | snoc _ hs ih =>
    obtain ⟨⟨free₁, G₁⟩, hrun, hr⟩ := ih
    obtain ⟨G', hrun', hr'⟩ := G₁.step hh hs.2 hs.1.1 hs.1.2
    rw [List.filterMap_append, List.filterMap_append, Lts.filterMap_single, Lts.filterMap_single]
    exact ⟨G', hrun.trans hrun', by rw [hr', hr, List.append_assoc]⟩

end Guarded

/-! ## Each double free is found out once -/

section Once

variable {τ : Type*} [DecidableEq τ] {B : Build} {x y : Crowd τ} {t : τ}

/-- The blocks that a thread frees again, and those that it is told of. -/
def Crowd.Event.freed (t : τ) : Crowd.Event τ → Option Nat
  | .free u block => if u = t then some block else none
  | _ => none

def Crowd.Event.found (t : τ) : Crowd.Event τ → Option Nat
  | .again u (.freeGuard block) _ => if u = t then some block else none
  | _ => none

/-- The double free that a thread has begun and that has not looked at the guard yet. -/
def Crowd.pending (x : Crowd τ) (t : τ) : Option Nat :=
  match x.again t, (x.machine.threads t).pc with
  | true, .freeGuard block => some block
  | _, _ => none

theorem instr_guard {spurious : Bool} {label : Label} {s s' : State} {pc pc' : Pc}
    (h : instr B spurious s pc = some (label, s', pc')) (block : Nat) : pc' ≠ .freeGuard block := by
  rintro rfl
  cases pc with
  | popCas expected next =>
    simp only [instr] at h
    split at h
    · cases h
    · simp only [Option.some.injEq, Prod.mk.injEq] at h
      obtain ⟨-, -, hpc⟩ := h
      split at hpc <;> cases hpc
  | popTest expected =>
    simp only [instr] at h
    split at h <;> cases h
  | pushCas b expected =>
    simp only [instr] at h
    split at h <;> cases h
  | freeStamp b doubleFree =>
    simp only [instr, Option.some.injEq, Prod.mk.injEq] at h
    obtain ⟨-, -, hpc⟩ := h
    split at hpc <;> cases hpc
  | idle => cases h
  | _ =>
    simp only [instr, Option.some.injEq, Prod.mk.injEq] at h
    obtain ⟨-, -, hpc⟩ := h
    cases hpc

theorem Crowd.once_step {e : Crowd.Event τ} (hh : B.hardening = true) (h : Crowd.Step B x e y)
    (t : τ) : (x.pending t).toList ++ (e.freed t).toList =
      (e.found t).toList ++ (y.pending t).toList := by
  have hquiet : x.again t = false → x.pending t = none := by
    intro ha
    simp only [Crowd.pending, ha]
  cases h with
  | @calm e m ha hs =>
    have hsame : Crowd.pending ⟨m, x.again⟩ t = x.pending t := by
      by_cases ht : t = e.thread
      · subst ht
        simp only [Crowd.pending, ha]
      · simp only [Crowd.pending, step_other hs ht]
    rw [hsame]
    exact List.append_nil _
  | @free u block ha hidle hslot hno =>
    by_cases hut : u = t
    · subst hut
      rw [hquiet ha]
      simp [Crowd.Event.freed, Crowd.Event.found, Crowd.pending, Machine.move, hh]
    · simp [Crowd.Event.freed, Crowd.Event.found, Crowd.pending, Machine.move, hut, Ne.symm hut]
  | @again u spurious label s pc ha hi =>
    by_cases hut : u = t
    · subst hut
      have hy : Crowd.pending ⟨x.machine.move u s ((x.machine.threads u).after x.machine.cas pc
          label) (label.count x.machine.cas),
          Function.update x.again u (decide (pc ≠ .idle))⟩ u = none := by
        have hpc : (((x.machine.threads u).after x.machine.cas pc label)).pc = pc := by
          cases label <;> rfl
        simp only [Crowd.pending, Machine.move, Function.update_self, hpc]
        cases pc <;> simp
        exact instr_guard hi _ rfl
      rw [hy]
      cases hpc : (x.machine.threads u).pc <;>
        simp [Crowd.Event.freed, Crowd.Event.found, Crowd.pending, ha, hpc]
    · have hfound : Crowd.Event.found t (.again u (x.machine.threads u).pc label) = none := by
        cases (x.machine.threads u).pc <;> simp [Crowd.Event.found, hut]
      rw [hfound]
      simp [Crowd.Event.freed, Crowd.pending, Machine.move, Ne.symm hut]

theorem Crowd.once_run {es : List (Crowd.Event τ)} (hh : B.hardening = true)
    {G : Crowd τ → Crowd.Event τ → Prop} (h : ((Crowd.lts B τ).guard G).Run x es y) (t : τ) :
    (x.pending t).toList ++ es.filterMap (Crowd.Event.freed t) =
      es.filterMap (Crowd.Event.found t) ++ (y.pending t).toList := by
  induction h with
  | nil => simp
  | snoc _ hs ih =>
    have hstep := Crowd.once_step hh hs.2 t
    rw [List.filterMap_append, List.filterMap_append, Lts.filterMap_single,
      Lts.filterMap_single, ← List.append_assoc, ih, List.append_assoc, hstep, List.append_assoc]

end Once

/-! ## A double free beside other calls -/

namespace Crowd

instance (x : Crowd Bool) (e : Event Bool) : Decidable (x.Undisturbed e) :=
  match e with
  | .calm (.instr _ (.cas (.pop block))) =>
    inferInstanceAs (Decidable (∀ u, x.again u = true → block ∉ (x.machine.threads u).pc.block))
  | .calm (.instr _ (.cas (.push _))) | .calm (.instr _ .quiet) | .calm (.instr _ .load)
  | .calm (.instr _ (.ret _)) | .calm (.call _ _) | .calm (.write _ _ _) | .free _ _
  | .again _ _ _ => .isTrue trivial

inductive Action where
  | calm (a : LockFree.Action Bool)
  | free (t : Bool) (block : Nat)
  | again (t : Bool)

/-- The crowd executed, undisturbed. -/
def exec (B : Build) (x : Crowd Bool) : Action → Option (Event Bool × Crowd Bool)
  | .calm a =>
    match LockFree.exec B x.machine a with
    | none => none
    | some (e, m) =>
      if x.again e.thread = false ∧ x.Undisturbed (.calm e) then some (.calm e, ⟨m, x.again⟩)
      else none
  | .free t block =>
    if x.again t = false ∧ (x.machine.threads t).pc = .idle ∧
        block ∈ x.machine.pool.pool.slots B ∧ ∀ u, block ∉ x.owned u then
      some (.free t block,
        ⟨x.machine.move t x.machine.pool
            { x.machine.threads t with
              pc := if B.hardening then .freeGuard block else .pushLoad block } x.machine.cas,
          Function.update x.again t true⟩)
    else none
  | .again t =>
    if x.again t = true then
      match instr B false x.machine.pool (x.machine.threads t).pc with
      | none => none
      | some (label, s, pc) =>
        if LockFree.InWindow B x.machine (.instr t label) then
          some (.again t (x.machine.threads t).pc label,
            ⟨x.machine.move t s ((x.machine.threads t).after x.machine.cas pc label)
                (label.count x.machine.cas),
              Function.update x.again t (decide (pc ≠ .idle))⟩)
        else none
    else none

theorem exec_step {B : Build} (x : Crowd Bool) (a : Action) (e : Event Bool) (y : Crowd Bool)
    (h : exec B x a = some (e, y)) :
    ((lts B Bool).guard fun x e => x.InWindow B e ∧ x.Undisturbed e).step x e y := by
  cases a with
  | calm a =>
    simp only [exec] at h
    split at h
    · cases h
    · rename_i e m he
      split at h
      · rename_i hok
        cases h
        obtain ⟨hw, hs⟩ := LockFree.exec_step x.machine a e m he
        exact ⟨⟨hw, hok.2⟩, .calm hok.1 hs⟩
      · cases h
  | free t block =>
    simp only [exec] at h
    split at h
    · rename_i hok
      cases h
      exact ⟨⟨trivial, trivial⟩, .free hok.1 hok.2.1 hok.2.2.1 hok.2.2.2⟩
    · cases h
  | again t =>
    simp only [exec] at h
    split at h
    · rename_i ha
      split at h
      · cases h
      · rename_i hi
        split at h
        · rename_i hw
          cases h
          exact ⟨⟨hw, trivial⟩, .again ha hi⟩
        · cases h
    · cases h

end Crowd

/-- One thread pops a block, and pushes it while the other frees the one that is left. -/
def caughtSchedule : List Crowd.Action :=
  .calm (.call true .pop) :: List.replicate 7 (.calm (.go true false)) ++
  .free false 0x1020 :: .calm (.call true (.push 0x1000)) ::
  List.replicate 3 (.calm (.go true false)) ++ .again false ::
  List.replicate 2 (.calm (.go true false)) ++ .again false ::
  .calm (.go true false) :: [.again false]

theorem caught_run : ∃ es x,
    ((Crowd.lts (Build.x64 true .lockfree) Bool).guard fun x e =>
      x.InWindow (Build.x64 true .lockfree) e ∧ x.Undisturbed e).Run
        ⟨pairMachine true, fun _ => false⟩ es x ∧
      (es.filterMap (Crowd.Event.freed false), x.pending false, x.machine.pool.pool.head.ptr) =
        ([0x1020], none, 0x1000) := by
  have h : (Lts.script (Crowd.exec (Build.x64 true .lockfree)) ⟨pairMachine true, fun _ => false⟩
      caughtSchedule).map (fun r => (r.1.filterMap (Crowd.Event.freed false), r.2.pending false,
        r.2.machine.pool.pool.head.ptr)) = some ([0x1020], none, 0x1000) := by decide +kernel
  obtain ⟨⟨es, x⟩, hr, hx⟩ := Option.map_eq_some_iff.mp h
  obtain ⟨x', hrun, rfl⟩ := Lts.script_run Crowd.exec_step id (by rw [hr]; rfl)
  exact ⟨es, _, hrun, hx⟩

/-! ## A double free of a block that is popped meanwhile -/

section Race

variable {τ : Type*} [DecidableEq τ] {B : Build} {x : Crowd τ} {t u : τ} {s s' : State}
  {pc pc' : Pc} {th th' : Thread} {cas cas' : Nat} {again : Bool}

/-- Two threads are in the pool, one of them maybe in a double free. -/
structure Stage (x : Crowd τ) (t u : τ) (s : State) (pc : Pc) (th : Thread) (cas : Nat)
    (again : Bool) : Prop where
  pool : x.machine.pool = s
  cas : x.machine.cas = cas
  mine : x.machine.threads t = ⟨pc, [], 0⟩
  theirs : x.machine.threads u = th
  others : ∀ v, v ≠ t → v ≠ u → x.machine.threads v = ⟨.idle, [], 0⟩
  again : ∀ v, x.again v = if v = t then again else false

theorem calm_run {m m' : Machine τ} {es : List (LockFree.Event τ)} {again : τ → Bool}
    (h : ((LockFree.lts B τ).guard (LockFree.InWindow B)).Run m es m')
    (hes : ∀ e ∈ es, again e.thread = false) :
    ((Crowd.lts B τ).guard fun x e => x.InWindow B e).Run ⟨m, again⟩ (es.map .calm)
      ⟨m', again⟩ := by
  induction h with
  | nil => exact .nil
  | snoc _ hs ih =>
    rw [List.map_append]
    refine .snoc (ih fun e he => hes e (List.mem_append_left _ he)) ⟨hs.1, .calm ?_ hs.2⟩
    exact hes _ (List.mem_append_right _ (List.mem_singleton_self _))

namespace Stage

theorem instr (S : Stage x t u s pc th cas true) (htu : t ≠ u)
    (h : LockFree.instr B false s pc = some (.quiet, s', pc')) :
    ∃ y, ((Crowd.lts B τ).guard fun x e => x.InWindow B e).Run x [.again t pc .quiet] y ∧
      Stage y t u s' pc' th cas (decide (pc' ≠ .idle)) := by
  have hi : LockFree.instr B false x.machine.pool (x.machine.threads t).pc =
      some (.quiet, s', pc') := by
    rw [S.pool, S.mine]
    exact h
  have hstep := Crowd.Step.again (x := x) (t := t) (by simp [S.again]) hi
  have hpc : (x.machine.threads t).pc = pc := by rw [S.mine]
  rw [hpc] at hstep
  refine ⟨_, .single ⟨trivial, hstep⟩, rfl, S.cas, ?_, ?_, fun v hv hvu => ?_, fun v => ?_⟩
  · simp [Machine.move, Thread.after, S.mine]
  · simpa [Machine.move, htu.symm] using S.theirs
  · simpa [Machine.move, hv] using S.others v hv hvu
  · by_cases hv : v = t
    · simp [hv]
    · simpa [hv] using S.again v

theorem leads (S : Stage x t u s pc th cas again) (htu : t ≠ u)
    (h : Leads B u s th cas s' th' cas') :
    ∃ (y : Crowd τ) (es : List (LockFree.Event τ)),
      ((Crowd.lts B τ).guard fun x e => x.InWindow B e).Run x (es.map .calm) y ∧
      (∀ e ∈ es, e.thread = u) ∧ Stage y t u s' pc th' cas' again := by
  obtain ⟨es, m, hrun, hm, hothers, hes⟩ := h x.machine ⟨S.pool, S.theirs, S.cas⟩
  refine ⟨⟨m, x.again⟩, es, calm_run hrun fun e he => ?_, hes, hm.pool, hm.cas, ?_, hm.thread,
    fun v hv hvu => ?_, S.again⟩
  · rw [hes e he, S.again, if_neg htu.symm]
  · exact (hothers t htu).trans S.mine
  · exact (hothers v hvu).trans (S.others v hv hvu)

theorem write (S : Stage x t u s pc th cas again) (htu : t ≠ u) {block addr : Nat}
    (hheld : block ∈ th.held) (hl : block ≤ addr) (hu : addr < block + s.pool.blockSize)
    (byte : UInt8) :
    ∃ y, ((Crowd.lts B τ).guard fun x e => x.InWindow B e).Run x [.calm (.write u addr byte)] y ∧
      Stage y t u { s with mem := set s.mem addr byte } pc th cas again := by
  have hstep : LockFree.Step B x.machine (.write u addr byte) _ :=
    .write (by rw [S.theirs]; exact hheld) hl (by rw [S.pool]; exact hu)
  have hcrowd := Crowd.Step.calm (x := x) (e := .write u addr byte)
    (by rw [S.again]; exact if_neg htu.symm) hstep
  refine ⟨_, .single ⟨trivial, hcrowd⟩, ?_, S.cas, S.mine, S.theirs, S.others, S.again⟩
  rw [S.pool]

theorem start (hh : B.hardening = true) (htu : t ≠ u) {block : Nat}
    (hslot : block ∈ s.pool.slots B) :
    ∃ y, ((Crowd.lts B τ).guard fun x e => x.InWindow B e).Run (.start s) [.free t block] y ∧
      Stage y t u s (.freeGuard block) ⟨.idle, [], 0⟩ 0 true := by
  have hstep := Crowd.Step.free (B := B) (x := Crowd.start s) (t := t) rfl rfl hslot
    fun v hv => by cases hv
  refine ⟨_, .single ⟨trivial, hstep⟩, rfl, rfl, ?_, ?_, fun v hv _ => ?_, fun v => ?_⟩
  · simp [Machine.move, Crowd.start, Machine.start, hh]
  · simp [Machine.move, Crowd.start, Machine.start, htu.symm]
  · simp [Machine.move, Crowd.start, Machine.start, hv]
  · by_cases hv : v = t <;> simp [Crowd.start, hv]

end Stage

theorem instr_freeGuard {a : Nat} (hg : readGuard s.mem a s.pool.blockSize = guardFreed) :
    instr B false s (.freeGuard a) =
      some (.quiet, s.setWorld (s.report .doubleFree a), .freePoison a true) := by
  simp only [instr, if_pos hg, decide_eq_true hg]

/-- The free of a block that has been stamped under its owner's hands. -/
theorem refused_leads (hh : B.hardening = true) {a snap : Nat} {held : List Nat}
    (hg : readGuard s.mem a s.pool.blockSize = guardFreed)
    (hp : Poisoned B s.mem a s.pool.blockSize) (ha : a ∈ held) :
    Leads B u s ⟨.idle, held, snap⟩ cas (s.setWorld (s.report .doubleFree a))
      ⟨.idle, held.erase a, snap⟩ cas := by
  have hcall : Leads B u s ⟨.idle, held, snap⟩ cas s ⟨.freeGuard a, held.erase a, snap⟩ cas := by
    have h : Leads B u s ⟨.idle, held, snap⟩ cas s
        ⟨if B.hardening then .freeGuard a else .pushLoad a, held.erase a, snap⟩ cas :=
      .callPush ha
    rwa [if_pos hh] at h
  have hguard : Leads B u s ⟨.freeGuard a, held.erase a, snap⟩ cas
      (s.setWorld (s.report .doubleFree a)) ⟨.freePoison a true, held.erase a, snap⟩ cas :=
    .quiet (instr_freeGuard hg)
  have hpoison : Leads B u (s.setWorld (s.report .doubleFree a))
      ⟨.freePoison a true, held.erase a, snap⟩ cas (s.setWorld (s.report .doubleFree a))
      ⟨.freeStamp a true, held.erase a, snap⟩ cas := by
    refine .quiet ?_
    show some (Label.quiet, { s.setWorld (s.report .doubleFree a) with
      mem := poisonPayload B s.mem a s.pool.blockSize }, Pc.freeStamp a true) = _
    rw [poisonPayload_same hp]
    rfl
  have hstamp : Leads B u (s.setWorld (s.report .doubleFree a))
      ⟨.freeStamp a true, held.erase a, snap⟩ cas (s.setWorld (s.report .doubleFree a))
      ⟨.idle, held.erase a, snap⟩ cas := by
    refine .quiet ?_
    show some (Label.quiet, { s.setWorld (s.report .doubleFree a) with
      mem := writeGuard s.mem a s.pool.blockSize guardFreed }, Pc.idle) = _
    rw [writeGuard_same hg]
    rfl
  exact ((hcall.trans hguard).trans hpoison).trans hstamp

theorem freed_calm (v : τ) (es : List (LockFree.Event τ)) :
    (es.map Crowd.Event.calm).filterMap (Crowd.Event.freed v) = [] := by
  rw [List.filterMap_map]
  exact List.filterMap_eq_nil_iff.mpr fun _ _ => rfl

/-- The rest of the double free, and the free that is refused. -/
theorem race_ends (hh : B.hardening = true) (htu : t ≠ u) {a snap : Nat}
    (S : Stage x t u s (.freePoison a true) ⟨.idle, [a], snap⟩ cas true) :
    ∃ (es : List (Crowd.Event τ)) (y : Crowd τ),
      ((Crowd.lts B τ).guard fun x e => x.InWindow B e).Run x es y ∧
      (∀ v, es.filterMap (Crowd.Event.freed v) = []) ∧ (∀ e, .calm e ∈ es → e.thread = u) ∧
      Stage y t u { s with
          mem := freedMem B s.mem a s.pool.blockSize
          reports := s.reports ++ [⟨.doubleFree, a⟩] } .idle ⟨.idle, [], snap⟩ cas false := by
  have hpoison : LockFree.instr B false s (.freePoison a true) =
      some (.quiet, { s with mem := poisonPayload B s.mem a s.pool.blockSize },
        .freeStamp a true) := rfl
  obtain ⟨x₁, hrun₁, S₁⟩ := S.instr htu hpoison
  have hstamp : LockFree.instr B false { s with mem := poisonPayload B s.mem a s.pool.blockSize }
      (.freeStamp a true) =
      some (.quiet, { s with mem := freedMem B s.mem a s.pool.blockSize }, .idle) := rfl
  obtain ⟨x₂, hrun₂, S₂⟩ := S₁.instr htu hstamp
  generalize hs : ({ s with mem := freedMem B s.mem a s.pool.blockSize } : State) = s₁ at S₂
  have hg : readGuard s₁.mem a s₁.pool.blockSize = guardFreed := by
    rw [← hs]
    exact freedMem_guard B s.mem a s.pool.blockSize
  have hp : Poisoned B s₁.mem a s₁.pool.blockSize := by
    rw [← hs]
    exact freedMem_poisoned B s.mem a s.pool.blockSize
  obtain ⟨x₃, es, hrun₃, hes, S₃⟩ := S₂.leads htu
    (refused_leads (B := B) hh hg hp (List.mem_singleton_self a))
  refine ⟨_, x₃, hrun₁.trans (hrun₂.trans hrun₃), fun v => ?_, fun e he => ?_, ?_⟩
  · simp only [List.filterMap_append, freed_calm, Lts.filterMap_single, Crowd.Event.freed]
    rfl
  · simp only [List.mem_append, List.mem_singleton, List.mem_map, reduceCtorEq, false_or] at he
    obtain ⟨d, hd, heq⟩ := he
    cases heq
    exact hes _ hd
  · rw [← hs, List.erase_cons_head] at S₃
    exact S₃

/-- The double free up to the report, the pop, and the write. -/
theorem race_begins (hh : B.hardening = true) (htu : t ≠ u) {others : List (Nat × Region)}
    {a addr : Nat} {free : List Nat} (I : PoolInv B s others (a :: free) []) (hl : a ≤ addr)
    (hu : addr < a + s.pool.blockSize) (byte : UInt8) :
    ∃ (es : List (Crowd.Event τ)) (x : Crowd τ) (s' : State),
      ((Crowd.lts B τ).guard fun x e => x.InWindow B e).Run (.start s) es x ∧
      (∀ v, es.filterMap (Crowd.Event.freed v) = if t = v then [a] else []) ∧
      (∀ e, .calm e ∈ es → e.thread = u) ∧ .calm (.write u addr byte) ∈ es ∧
      PoolInv B s' others free [a] ∧ s'.reports = s.reports ++ [⟨.doubleFree, a⟩] ∧
      s.pool.SameShape s'.pool ∧ Stage x t u s' (.freePoison a true) ⟨.idle, [a], 0⟩ 1 true := by
  obtain ⟨hg, hp⟩ := I.freed a (List.mem_cons_self ..) hh
  obtain ⟨x₁, hrun₁, S₁⟩ :=
    Stage.start (t := t) (u := u) hh htu (I.free_slot (List.mem_cons_self ..))
  obtain ⟨x₂, hrun₂, S₂⟩ := S₁.instr htu (instr_freeGuard (B := B) hg)
  have I₂ := I.report .doubleFree a
  obtain ⟨x₃, es, hrun₃, hes, S₃⟩ := S₂.leads htu (pop_leads u 0 0 I₂)
  have I₃ := I₂.vend (B.add s.pool.head.tag 1)
  obtain ⟨x₄, hrun₄, S₄⟩ := S₃.write (B := B) htu (List.mem_singleton_self a) hl hu byte
  refine ⟨_, x₄, _, hrun₁.trans (hrun₂.trans (hrun₃.trans hrun₄)), fun v => ?_, fun e he => ?_,
    by simp, I₃.write (List.mem_singleton_self a) hl hu, rfl, rfl, S₄⟩
  · simp only [List.filterMap_append, freed_calm, Lts.filterMap_single, Crowd.Event.freed]
    split <;> rfl
  · simp only [List.mem_append, List.mem_singleton, List.mem_map, reduceCtorEq, false_or] at he
    rcases he with ⟨d, hd, heq⟩ | heq
    · cases heq
      exact hes _ hd
    · cases heq
      rfl

end Race

end LockFree

section Theorems

open LockFree LinkedList

variable {τ : Type*} [DecidableEq τ] {B : Build} {env : Env} {w w' : World}
  {blockSize blockCount : Nat} {p : PoolStruct}

/-- Hardened LOCKFREE build, fixed pool, any number of threads, any interleaving in the tag window:
threads free, at any time, blocks that are on the free list, and nobody pops a block while such a
free of it is in `on_free`. Then each double free is reported, once, and dropped, and what the
threads do besides is a run of the machine that has no double frees, in the same memory. -/
theorem lockfree_double_free (hh : B.hardening = true) (hbs : blockSize < B.modulus)
    (hcreate : memoryPoolCreate B env w blockSize blockCount = (some p, w')) :
    ∀ (es : List (Crowd.Event τ)) x,
      ((Crowd.lts B τ).guard fun x e => x.InWindow B e ∧ x.Undisturbed e).Run
        (.start ⟨w', p⟩) es x →
      ((LockFree.lts B τ).guard (LockFree.InWindow B)).Run (.start ⟨w', p⟩)
        (es.filterMap Crowd.Event.calm?) (x.calm w.reports) ∧
      x.machine.pool.reports = w.reports ++ es.filterMap Crowd.Event.report ∧
      ∀ t, es.filterMap (Crowd.Event.freed t) =
        es.filterMap (Crowd.Event.found t) ++ (x.pending t).toList := by
  intro es x hrun
  have hreports : w'.reports = w.reports := (memoryPoolCreate_created hbs hcreate).reports
  have hstart : (Crowd.start ⟨w', p⟩ : Crowd τ).calm w.reports = .start ⟨w', p⟩ := by
    rw [← hreports]
    rfl
  have I := LockFree.Inv.start (τ := τ) hbs hcreate
  rw [← hstart] at I
  have G : Guarded B w.heap.ledger.live w.reports p (Crowd.start ⟨w', p⟩ : Crowd τ) _ :=
    ⟨I, fun t ht => by cases ht⟩
  obtain ⟨-, hcalm, hr⟩ := G.run hh hrun
  rw [hstart] at hcalm
  refine ⟨hcalm, ?_, fun t => Crowd.once_run hh hrun t⟩
  rw [hr, ← hreports]
  rfl

theorem lockfree_double_free_x64 : ∃ (es : List (Crowd.Event Bool)) (x : Crowd Bool),
    ((LockFree.lts (Build.x64 true .lockfree) Bool).guard
      (LockFree.InWindow (Build.x64 true .lockfree))).Run (pairMachine true)
        (es.filterMap Crowd.Event.calm?) (x.calm []) ∧
      es.filterMap (Crowd.Event.freed false) = [0x1020] ∧
      es.filterMap (Crowd.Event.found false) = [0x1020] ∧
      x.machine.pool.pool.head.ptr = 0x1000 := by
  obtain ⟨es, x, hrun, hx⟩ := caught_run
  simp only [Prod.mk.injEq] at hx
  obtain ⟨hfreed, hpending, hhead⟩ := hx
  obtain ⟨hcalm, -, honce⟩ :=
    lockfree_double_free rfl (by decide) (pairPool_create true) es x hrun
  have hfound := honce false
  rw [hpending, hfreed] at hfound
  exact ⟨es, x, hcalm, hfreed, by simpa using hfound.symm, hhead⟩

/-- Hardened LOCKFREE build, every fixed pool: a double free destroys what another thread has, which
frees what it holds and writes into what it holds. That thread pops the block after the double free
has been found out and before `on_free` has poisoned the payload. What it writes is lost, its own
free of the block is the second that is reported, and the block is neither free nor anybody's from
then on. -/
theorem double_free_race (hh : B.hardening = true) (hbs : blockSize < B.modulus)
    (hcreate : memoryPoolCreate B env w blockSize blockCount = (some p, w')) {t u : τ}
    (htu : t ≠ u) {addr : Nat} (hl : p.backing + B.ptrBytes ≤ addr)
    (hu : addr < p.backing + blockSize) (byte : UInt8) :
    ∃ (es : List (Crowd.Event τ)) (x : Crowd τ) (free : List Nat),
      ((Crowd.lts B τ).guard fun x e => x.InWindow B e).Run (.start ⟨w', p⟩) es x ∧
      es.filterMap (Crowd.Event.freed t) = [p.backing] ∧
      (∀ v ≠ t, es.filterMap (Crowd.Event.freed v) = []) ∧
      (∀ e, .calm e ∈ es → e.thread = u) ∧ .calm (.write u addr byte) ∈ es ∧
      x.machine.pool.mem addr = poisonByte ∧
      Chain (revealNext B x.machine.pool.mem) 0 x.machine.pool.pool.head.ptr free ∧
      (p.backing :: free).Perm (p.slots B) ∧
      (∀ v, (x.machine.threads v).pc = .idle ∧ x.owned v = []) ∧
      x.machine.pool.reports =
        w.reports ++ [⟨.doubleFree, p.backing⟩, ⟨.doubleFree, p.backing⟩] := by
  have C := memoryPoolCreate_created hbs hcreate
  have I := C.inv
  obtain ⟨-, hn, backing, object, heap, -, -, -, -, -, hp, -⟩ := memoryPoolCreate_some hcreate
  have hcount : p.blockCount = blockCount := by rw [hp]
  have hsize : p.blockSize = blockSize := by rw [hp]
  rw [hcount, slotsOf_eq_cons _ _ hn] at I
  generalize List.drop 1 (slotsOf (slotStride B p.blockSize) p.backing blockCount) = rest at I
  have hl' : p.backing ≤ addr := by omega
  have hu' : addr < p.backing + (⟨w', p⟩ : State).pool.blockSize := by
    show addr < p.backing + p.blockSize
    omega
  obtain ⟨es₁, x₁, s₁, hrun₁, hfreed₁, hcalm₁, hwrite, I₁, hr₁, hshape, S₁⟩ :=
    race_begins (t := t) (u := u) hh htu I hl' hu' byte
  obtain ⟨es₂, x, hrun₂, hfreed₂, hcalm₂, S⟩ := race_ends hh htu S₁
  have hsize₁ : s₁.pool.blockSize = p.blockSize := hshape.blockSize
  refine ⟨es₁ ++ es₂, x, rest, hrun₁.trans hrun₂, ?_, fun v hv => ?_, fun e he => ?_,
    List.mem_append_left _ hwrite, ?_, ?_, ?_, fun v => ?_, ?_⟩
  · rw [List.filterMap_append, hfreed₁, hfreed₂, if_pos rfl, List.append_nil]
  · rw [List.filterMap_append, hfreed₁, hfreed₂, if_neg hv.symm, List.append_nil]
  · exact (List.mem_append.mp he).elim (hcalm₁ e) (hcalm₂ e)
  · rw [S.pool]
    exact freedMem_poisoned B s₁.mem p.backing _ addr hl (by omega)
  · rw [S.pool]
    refine I₁.chain.congr fun b hb => ?_
    have hne : b ≠ p.backing := fun heq => I₁.disjoint hb (by simp [heq])
    have d := I₁.layout.dims
    have hguard := d.guard hh
    exact revealNext_same d (I₁.other_slot (I₁.held_slot (List.mem_singleton_self _))
      (I₁.free_slot hb) hne fun a ha => freedMem_outside d.link (by omega))
  · have hparts := I₁.parts
    rw [hshape.slots] at hparts
    exact (List.perm_append_singleton _ _).symm.trans hparts
  · have hth : x.machine.threads v = ⟨.idle, [], 0⟩ := by
      by_cases hv : v = t
      · rw [hv, S.mine]
      · by_cases hvu : v = u
        · rw [hvu, S.theirs]
        · exact S.others v hv hvu
    have ha : x.again v = false := by rw [S.again]; split <;> rfl
    refine ⟨by rw [hth], ?_⟩
    unfold Crowd.owned
    rw [ha, hth]
    rfl
  · rw [S.pool]
    show s₁.reports ++ _ = _
    rw [hr₁, List.append_assoc]
    show w'.reports ++ _ = _
    rw [C.reports]
    rfl

theorem double_free_race_x64 : ∃ (es : List (Crowd.Event Bool)) (x : Crowd Bool),
    ((Crowd.lts (Build.x64 true .lockfree) Bool).guard fun x e =>
      x.InWindow (Build.x64 true .lockfree) e).Run ⟨pairMachine true, fun _ => false⟩ es x ∧
    es.filterMap (Crowd.Event.freed false) = [0x1000] ∧ .calm (.write true 0x1008 7) ∈ es ∧
    x.machine.pool.mem 0x1008 = poisonByte ∧ x.owned true = [] ∧
    x.machine.pool.reports = [⟨.doubleFree, 0x1000⟩, ⟨.doubleFree, 0x1000⟩] := by
  obtain ⟨es, x, free, hrun, hfreed, -, -, hwrite, hlost, -, -, hnone, hr⟩ :=
    double_free_race (t := false) (u := true) rfl (by decide) (pairPool_create true) (by decide)
      (by decide : pairPool.backing + (Build.x64 true .lockfree).ptrBytes ≤ 0x1008) (by decide) 7
  exact ⟨es, x, hrun, hfreed, hwrite, hlost, (hnone true).2, hr⟩

end Theorems

end MemoryPool
