import MemoryPool.Lib.Lts

/-!
# MemoryPool.Lib.Discipline

Lock discipline, for any system of threads with one lock.

A `Locked` system says of each state what each thread accesses next and which thread holds the
lock. It is disciplined in a state if a thread about to access a location that some other thread
can still write holds the lock.

* `Locked.disciplined`: what a thread accesses without the lock must be settled, a property of the
  location that steps keep and that excludes writes.
* `Locked.Disciplined.no_race`: with writes under the lock only, a disciplined state has no race.
-/

inductive AccessKind where
  | read
  | write
  deriving DecidableEq

structure Locked (σ ε τ loc : Type*) extends Lts σ ε where
  accesses : σ → τ → AccessKind → loc → Prop
  holds : σ → τ → Prop

namespace Locked

variable {σ ε τ loc : Type*} {L : Locked σ ε τ loc} {s : σ}

/-- In some run from here the thread gets to write the location. -/
def CanWrite (L : Locked σ ε τ loc) (s : σ) (t : τ) (l : loc) : Prop :=
  ∃ es s', L.toLts.Run s es s' ∧ L.accesses s' t .write l

def Disciplined (L : Locked σ ε τ loc) (s : σ) : Prop :=
  ∀ t k l, L.accesses s t k l → (∃ t', t' ≠ t ∧ L.CanWrite s t' l) → L.holds s t

def Race (L : Locked σ ε τ loc) (s : σ) : Prop :=
  ∃ t t' k l, t ≠ t' ∧ L.accesses s t k l ∧ L.accesses s t' .write l

/-- `I` is an invariant. `Settled l`, once true, stays true and excludes writes to `l`. -/
theorem disciplined {I : σ → Prop} {Settled : loc → σ → Prop}
    (hI : ∀ s e s', I s → L.step s e s' → I s')
    (hkeep : ∀ l s e s', I s → Settled l s → L.step s e s' → Settled l s')
    (hwrite : ∀ l s t, I s → Settled l s → ¬ L.accesses s t .write l)
    (hs : I s) (h : ∀ t k l, L.accesses s t k l → ¬ L.holds s t → Settled l s) :
    L.Disciplined s := by
  intro t k l ha hw
  obtain ⟨t', -, es, s', hrun, hacc⟩ := hw
  by_contra hno
  have hend : I s' ∧ Settled l s' :=
    hrun.invariant (I := fun s => I s ∧ Settled l s)
      (fun s e s' hs hstep => ⟨hI s e s' hs.1 hstep, hkeep l s e s' hs.1 hs.2 hstep⟩)
      ⟨hs, h t k l ha hno⟩
  exact hwrite l s' t' hend.1 hend.2 hacc

theorem Disciplined.no_race (h : L.Disciplined s)
    (hone : ∀ t t', L.holds s t → L.holds s t' → t = t')
    (hwrite : ∀ t l, L.accesses s t .write l → L.holds s t) : ¬ L.Race s := by
  rintro ⟨t, t', k, l, hne, ha, hw⟩
  exact hne (hone t t' (h t k l ha ⟨t', hne.symm, [], s, .nil, hw⟩) (hwrite t' l hw))

end Locked
