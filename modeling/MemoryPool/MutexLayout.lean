import MemoryPool.HeapBalance
import MemoryPool.MutexInv

/-!
# MemoryPool.MutexLayout

The layout of the pool under every interleaving of the `MUTEX` build, whatever is freed and
written. Between its allocations and the store to `overflow_`, `grow_pool` holds one or two regions
that are not yet the pool's (`pend`), and fills in the descriptor (`PcPlaced`).

`instr_placed` says what an instruction does to them; `Placed.step` is the step lemma.
-/

namespace MemoryPool

namespace Mutex

open LinkedList

section Placed

variable {τ : Type*}

/-- What a fresh backing for `add` slots is like. -/
structure Fresh (B : Build) (blockSize add backing : Nat) : Prop where
  count : 0 < add
  nonnull : backing ≠ 0
  aligned : B.poolAlignment ∣ backing
  fits : backing + slotStride B blockSize * add < B.modulus

/-- A descriptor and a backing in the hands of `grow_pool`. -/
structure Building (B : Build) (blockSize : Nat) (pend : List (Nat × Region))
    (add backing chunk : Nat) : Prop extends Fresh B blockSize add backing where
  regions : pend.map Prod.snd = [⟨.chunkNode, chunk, B.sizeofChunk⟩,
    ⟨.backing, backing, slotStride B blockSize * add⟩]

/-- The regions the thread in the critical section has obtained and not linked, and what it has
written of the descriptor. -/
def PcPlaced (B : Build) (s : Shared τ) (pend : List (Nat × Region)) : Pc → Prop
  | .newChunk add backing => Fresh B s.pool.blockSize add backing ∧
      pend.map Prod.snd = [⟨.backing, backing, slotStride B s.pool.blockSize * add⟩]
  | .initBacking add backing chunk => Building B s.pool.blockSize pend add backing chunk
  | .initCount add backing chunk => Building B s.pool.blockSize pend add backing chunk ∧
      (s.nodes chunk).backing = backing
  | .loadOverflow add backing chunk | .initNext add backing chunk _
  | .initSlot add backing chunk _ => Building B s.pool.blockSize pend add backing chunk ∧
      (s.nodes chunk).backing = backing ∧ (s.nodes chunk).blockCount = add
  | .linkChunk backing chunk =>
      Building B s.pool.blockSize pend (s.nodes chunk).blockCount backing chunk ∧
      (s.nodes chunk).backing = backing
  | _ => pend = []

def PlacedFor (B : Build) (m : Machine τ) (pend : List (Nat × Region)) : Prop :=
  match m.shared.owner with
  | none => pend = []
  | some t => PcPlaced B m.shared pend (m.threads t).pc

/-- The chunks are in order, and what is neither theirs nor `grow_pool`'s is as it was. -/
def Placed (B : Build) (others : List (Nat × Region)) (m : Machine τ) : Prop :=
  ∃ pend, Layout B m.shared.toState (pend ++ others) ∧ PlacedFor B m pend

variable {B : Build} {t : τ} {answer : Option Nat} {s s' : Shared τ} {pc : Pc} {o : Outcome τ}
  {pend others : List (Nat × Region)}

theorem PcPlaced.outside (hc : pc.critical = false) : PcPlaced B s pend pc ↔ pend = [] := by
  cases pc <;> first | exact Iff.rfl | cases hc

theorem Layout.recount {s : State} (L : Layout B s others) (growCount : Nat) :
    Layout B { s with pool := { s.pool with growCount := growCount } } others :=
  ⟨L.valid, L.stride_align, L.stride_ge, L.stride_guard, L.chunk_align, L.chunk_pos, L.chunk_fit,
    L.owned⟩

theorem instr_placed (L : Layout B s.toState (pend ++ others)) (hP : PcPlaced B s pend pc)
    (hI : PcInv B s pc) (h : instr B t answer s pc = some o) :
    ∃ pend', Layout B o.shared.toState (pend' ++ others) ∧ PcPlaced B o.shared pend' o.pc := by
  cases pc with
  | newBacking add =>
    obtain rfl : pend = [] := hP
    obtain ⟨-, -, hpos, hfit⟩ := growthCount_some hI
    simp only [instr] at h
    rw [Build.mul_eq hfit, Nat.mul_comm add] at h
    rcases World.operatorNew_cases B s.toWorld .backing (slotStride B s.pool.blockSize * add)
      B.poolAlignment answer with he | ⟨base, ha, he⟩
    · rw [he] at h
      cases h
      exact ⟨[], L, rfl⟩
    · rw [he] at h
      cases h
      have L' : Layout B { s.toState with heap := s.heap.obtain _ ha.fresh }
          ((s.heap.ledger.next, ⟨.backing, base, slotStride B s.pool.blockSize * add⟩) ::
            others) := by
        refine L.obtain ?_ ?_ <;> rfl
      exact ⟨[_], L', ⟨hpos, ha.nonnull, Nat.dvd_of_mod_eq_zero ha.aligned, ha.fits⟩, rfl⟩
  | newChunk add backing =>
    obtain ⟨hF, hpend⟩ := hP
    obtain ⟨e, rfl, he⟩ : ∃ e, pend = [e] ∧
        e.2 = ⟨.backing, backing, slotStride B s.pool.blockSize * add⟩ := by
      obtain ⟨e, rest, rfl, he, hrest⟩ := List.map_eq_cons_iff.mp hpend
      rw [List.map_eq_nil_iff.mp hrest]
      exact ⟨e, rfl, he⟩
    simp only [instr] at h
    rcases World.operatorNew_cases B s.toWorld .chunkNode B.sizeofChunk B.ptrBytes answer with
      hn | ⟨base, ha, hn⟩
    · -- the backing goes back
      rw [hn] at h
      cases h
      refine ⟨[], ?_, rfl⟩
      obtain ⟨own, hlive, hown⟩ := L.owned
      have hfront : s.heap.ledger.live.Perm (e :: (own ++ others)) :=
        hlive.trans List.perm_middle
      obtain ⟨hrel, -⟩ := Heap.release_spec hfront
      rw [he] at hrel
      exact L.reown rfl ⟨own, hrel, hown⟩
    · rw [hn] at h
      cases h
      have L' : Layout B { s.toState with heap := s.heap.obtain _ ha.fresh }
          ((s.heap.ledger.next, ⟨.chunkNode, base, B.sizeofChunk⟩) :: e :: others) := by
        refine L.obtain ?_ ?_ <;> rfl
      exact ⟨[_, e], L', hF, congrArg (List.cons _) hpend⟩
  | initBacking add backing chunk =>
    cases h
    exact ⟨pend, L, hP, by simp [Shared.setNode]⟩
  | initCount add backing chunk =>
    cases h
    exact ⟨pend, L, hP.1, by simpa [Shared.setNode] using hP.2⟩
  | loadOverflow add backing chunk => cases h; exact ⟨pend, L, hP⟩
  | initNext add backing chunk next =>
    cases h
    exact ⟨pend, L, hP.1, by simpa [Shared.setNode] using hP.2⟩
  | initSlot add backing chunk i =>
    obtain ⟨hb, hback, hcount⟩ := hP
    simp only [instr] at h
    split at h
    · cases h
      exact ⟨pend, L.same rfl rfl, hb, hback, hcount⟩
    · cases h
      refine ⟨pend, L.same rfl rfl, ?_, hback⟩
      show Building B s.pool.blockSize pend (s.nodes chunk).blockCount backing chunk
      rw [hcount]
      exact hb
  | linkChunk backing chunk =>
    cases h
    obtain ⟨⟨⟨hpos, hne, hal, hfit⟩, hreg⟩, hback⟩ := hP
    obtain ⟨e₁, rest, rfl, h₁, hrest⟩ := List.map_eq_cons_iff.mp hreg
    obtain ⟨e₂, rest', rfl, h₂, hnil⟩ := List.map_eq_cons_iff.mp hrest
    obtain rfl := List.map_eq_nil_iff.mp hnil
    refine ⟨[], ?_, rfl⟩
    subst hback
    exact L.adopt (c := ⟨chunk, (s.nodes chunk).backing, (s.nodes chunk).blockCount⟩) h₁ h₂ hal
      hne hpos hfit rfl rfl
  | countGrowth => cases h; exact ⟨pend, Layout.recount L _, hP⟩
  | loadLink block =>
    cases h
    exact ⟨pend, L.same rfl (congrArg (·.ledger.live) (readNext_heap B s.toWorld block)), hP⟩
  | storeHead block next =>
    cases h
    refine ⟨pend, L.same rfl rfl, ?_⟩
    dsimp only
    split <;> exact hP
  | onAlloc block =>
    cases h
    exact ⟨pend, L.same rfl (congrArg (·.ledger.live) (onAlloc_heap B s.toWorld block _)), hP⟩
  | onFree block =>
    have hheap := onFree_heap B s.toWorld block s.pool.blockSize
    simp only [instr, Option.some.injEq] at h
    subst h
    generalize MemoryPool.onFree B s.toWorld block s.pool.blockSize = result at hheap ⊢
    refine ⟨pend, L.same rfl (congrArg (·.ledger.live) hheap), ?_⟩
    dsimp only
    split <;> exact hP
  | _ =>
    simp only [instr] at h
    (repeat' split at h) <;> cases h <;> exact ⟨pend, L.same rfl rfl, hP⟩

theorem Placed.start {s : State} (L : Layout B s others) :
    Placed B others (Machine.start s : Machine τ) := ⟨[], L, rfl⟩

variable {m m' : Machine τ} [DecidableEq τ] {e : Event τ}

/-- Only the thread in the critical section has regions in its hands. -/
theorem PlacedFor.keep {th : Thread} (hF : PlacedFor B m pend)
    (ht : m.shared.owner = some t → PcPlaced B m.shared pend th.pc) :
    PlacedFor B (m.move t m.shared th) pend := by
  unfold PlacedFor at hF ⊢
  simp only [Machine.move]
  cases ho : m.shared.owner with
  | none =>
    rw [ho] at hF
    exact hF
  | some t' =>
    rw [ho] at hF
    by_cases htt : t' = t
    · subst htt
      simpa using ht ho
    · simpa [htt] using hF

theorem Placed.step (hI : Inv B m) (P : Placed B others m) (h : Step B m e m') :
    Placed B others m' := by
  obtain ⟨pend, L, hF⟩ := P
  cases h with
  | @alloc t hidle =>
    refine ⟨pend, L, hF.keep fun ho => ?_⟩
    have := (hI.exclusive t).mpr ho
    rw [hidle] at this
    cases this
  | @free t block hidle _ =>
    refine ⟨pend, L, hF.keep fun ho => ?_⟩
    have := (hI.exclusive t).mpr ho
    rw [hidle] at this
    cases this
  | write _ _ _ =>
    refine ⟨pend, L.same rfl rfl, ?_⟩
    unfold PlacedFor at hF ⊢
    exact hF
  | @instr t answer o h =>
    have hex := hI.exclusive t
    have hpc : ((m.move t o.shared ((m.threads t).after o)).threads t).pc = o.pc := by
      simp [Machine.move, Thread.after]
    by_cases hc : (m.threads t).pc.critical = true
    · have hown := hex.mp hc
      simp only [PlacedFor, hown] at hF
      obtain ⟨pend', L', hP'⟩ := instr_placed L hF (hI.threads t) h
      refine ⟨pend', L', ?_⟩
      unfold PlacedFor
      rcases instr_owner h with ⟨-, h2⟩ | ⟨h1, -⟩ | ⟨-, h2, h3⟩
      · rw [show (m.move t o.shared ((m.threads t).after o)).shared.owner = some t from
          h2.trans hown]
        simp only [hpc]
        exact hP'
      · rw [hc] at h1
        cases h1
      · rw [show (m.move t o.shared ((m.threads t).after o)).shared.owner = none from h3]
        exact (PcPlaced.outside h2).mp hP'
    · have hc : (m.threads t).pc.critical = false := by simpa using hc
      have hout := instr_outside h hc
      rcases instr_owner h with ⟨h1, h2⟩ | ⟨-, h2, h3, h4⟩ | ⟨h1, -⟩
      · -- nothing but the thread's own place changed
        rw [h2] at hout
        have hs : o.shared = m.shared := hout
        rw [hs]
        refine ⟨pend, L, hF.keep fun ho => ?_⟩
        rw [hex.mpr ho] at hc
        cases hc
      · simp only [PlacedFor, h3] at hF
        subst hF
        obtain ⟨pend', L', hP'⟩ := instr_placed L ((PcPlaced.outside hc).mpr rfl) (hI.threads t) h
        refine ⟨pend', L', ?_⟩
        unfold PlacedFor
        rw [show (m.move t o.shared ((m.threads t).after o)).shared.owner = some t from h4]
        simp only [hpc]
        exact hP'
      · rw [h1] at hc
        cases hc

end Placed

end Mutex

end MemoryPool
