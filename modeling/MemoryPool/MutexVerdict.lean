import MemoryPool.MutexCommit

/-!
# MemoryPool.MutexVerdict

The walk of a free for any pointer whatsoever, also one that becomes a slot while it is looked for.
The chunks that a walk will come to are settled when it loads `overflow_`: a chunk linked later is
in front of them. If the pointer is no slot then, the walk will not find it (`Past`), and that load
is where the free takes effect.
-/

namespace MemoryPool

namespace Mutex

open LinkedList

section Walk

variable {τ : Type*}

/-- The pointer lies in no chunk from the descriptor `chunk` on. -/
def Clear (B : Build) (s : Shared τ) (block chunk : Nat) : Prop :=
  ∃ rest, From s chunk rest ∧
    ∀ c ∈ rest, block ∉ slotsOf (slotStride B s.pool.blockSize) c.backing c.blockCount

/-- The walk has loaded `overflow_` and has nothing to find. -/
def Past (B : Build) (s : Shared τ) (block : Nat) : Pc → Prop
  | .walkBacking _ chunk | .walkCount _ chunk _ => Clear B s block chunk
  | .walkNext _ chunk => Clear B s block (s.nodes chunk).next
  | _ => False

variable {B : Build} {t : τ} {answer : Option Nat} {s : Shared τ} {pc : Pc} {o : Outcome τ}
  {others : List (Nat × Region)} {block : Nat}

theorem Ahead.slot {chunk : Nat} (h : Ahead B s block chunk) : block ∈ s.pool.slots B := by
  obtain ⟨rest, hf, c, hc, hb⟩ := h
  refine Layout.mem_slots.mpr ⟨(c.backing, c.blockCount), ?_, hb⟩
  exact List.mem_cons_of_mem _ (List.mem_map.mpr ⟨c, hf.1.subset hc, rfl⟩)

theorem instr_clear {pc' : Pc} (hI : PcInv B s pc') (h : instr B t answer s pc' = some o)
    {chunk : Nat} (hc : Clear B s block chunk) : Clear B o.shared block chunk := by
  obtain ⟨rest, hf, hno⟩ := hc
  refine ⟨rest, instr_from hI h hf, ?_⟩
  rwa [(instr_fields h).1]

/-- What another thread does, the linking of a chunk included, leaves the walk nothing to find. -/
theorem Past.other {pc' : Pc} (hpast : Past B s block pc) (hpc : PcInv B s pc)
    (hI : PcInv B s pc') (h : instr B t answer s pc' = some o) : Past B o.shared block pc := by
  cases pc with
  | walkBacking b chunk => exact instr_clear hI h hpast
  | walkCount b chunk backing => exact instr_clear hI h hpast
  | walkNext b chunk =>
    obtain ⟨c, hc, rfl⟩ := hpc
    show Clear B o.shared block (o.shared.nodes c.addr).next
    rw [instr_nodes hI h c hc]
    exact instr_clear hI h hpast
  | _ => exact hpast

/-- A walk with nothing to find goes on so, or ends without the pointer. -/
theorem instr_past (L : Layout B s.toState others) (hL : Linked B s) (hR : ReadRight s pc)
    (hpc : pc.walking = some block) (hpast : Past B s block pc)
    (h : instr B t answer s pc = some o) :
    o.pc = .idle ∨ o.pc.walking = some block ∧ Past B o.shared block o.pc := by
  cases pc with
  | walkBacking b chunk =>
    obtain rfl : b = block := Option.some.inj hpc
    simp only [instr] at h
    split at h
    · cases h
      exact Or.inl rfl
    · cases h
      exact Or.inr ⟨rfl, hpast⟩
  | walkCount b chunk backing =>
    obtain rfl : b = block := Option.some.inj hpc
    obtain ⟨rest, hf, hno⟩ := hpast
    obtain ⟨c, hc, rfl, rfl⟩ := hR
    have h0 : c.addr ≠ 0 := by
      obtain ⟨l₁, l₂, -, hrest⟩ := hL.list.of_mem (List.mem_map.mpr ⟨c, hc, rfl⟩)
      exact (Chain.cons_iff.mp hrest).2.1
    cases rest with
    | nil => exact absurd hf.2.start_eq_nil h0
    | cons d rest =>
      obtain ⟨haddr, -, -⟩ := Chain.cons_iff.mp hf.2
      have hd := hf.1.subset (List.mem_cons_self ..)
      -- both are the cells of the one descriptor at this address
      have hback : c.backing = d.backing := by
        rw [← (hL.cells c hc).1, haddr, (hL.cells d hd).1]
      have hmem : (d.backing, d.blockCount) ∈ s.pool.chunks :=
        List.mem_cons_of_mem _ (List.mem_map.mpr ⟨d, hd, rfl⟩)
      have hcount : (s.nodes c.addr).blockCount = d.blockCount := by
        rw [haddr, (hL.cells d hd).2]
      cases h
      simp only [hback, hcount]
      split
      · rename_i hb
        exact absurd ((blockInChunk_iff L.stride_pos (L.chunk_fit _ hmem)).mp hb)
          (hno d (List.mem_cons_self ..))
      · exact Or.inr ⟨rfl, rest, hf.succ, fun e he => hno e (List.mem_cons_of_mem _ he)⟩
  | walkNext b chunk =>
    obtain rfl : b = block := Option.some.inj hpc
    cases h
    exact Or.inr ⟨rfl, hpast⟩
  | _ => cases hpast

/-- A walk on its way goes on so or finds the slot; if the pointer is none when the walk loads
`overflow_`, there is nothing to find from then on. -/
theorem instr_verdict (L : Layout B s.toState others) (hL : Linked B s) (hR : ReadRight s pc)
    (hpc : pc.walking = some block) (hway : OnWay B s block pc)
    (h : instr B t answer s pc = some o) :
    block ∈ s.pool.slots B ∧ o.pc = .lockPush block ∨
      o.pc.walking = some block ∧ OnWay B o.shared block o.pc ∧
        (pc = .walkOverflow block → block ∈ s.pool.slots B) ∨
      pc = .walkOverflow block ∧ block ∉ s.pool.slots B ∧ o.pc.walking = some block ∧
        Past B o.shared block o.pc := by
  by_cases hb : block ∈ s.pool.slots B
  · rcases instr_onWay L hL hR hb hpc hway h with hl | ⟨hl, hon⟩
    · exact Or.inl ⟨hb, hl⟩
    · exact Or.inr (Or.inl ⟨hl, hon, fun _ => hb⟩)
  · have hfirst : block ∉ slotsOf (slotStride B s.pool.blockSize) s.pool.backing
        s.pool.blockCount := fun hin =>
      hb (Layout.mem_slots.mpr ⟨_, List.mem_cons_self .., hin⟩)
    cases pc with
    | walkFirst b =>
      obtain rfl : b = block := Option.some.inj hpc
      cases h
      refine Or.inr (Or.inl ?_)
      dsimp only
      split
      · rename_i hin
        exact absurd ((blockInChunk_iff L.stride_pos
          (L.chunk_fit _ (List.mem_cons_self ..))).mp hin) hfirst
      · exact ⟨rfl, hfirst, fun h => by cases h⟩
    | walkOverflow b =>
      obtain rfl : b = block := Option.some.inj hpc
      cases h
      refine Or.inr (Or.inr ⟨rfl, hb, rfl, s.pool.overflow, ⟨List.suffix_refl _, hL.list⟩, ?_⟩)
      intro c hc hin
      exact hb (Layout.mem_slots.mpr ⟨(c.backing, c.blockCount),
        List.mem_cons_of_mem _ (List.mem_map.mpr ⟨c, hc, rfl⟩), hin⟩)
    | walkBacking b chunk => exact absurd (Ahead.slot hway) hb
    | walkCount b chunk backing => exact absurd (Ahead.slot hway) hb
    | walkNext b chunk => exact absurd (Ahead.slot hway) hb
    | _ => cases hpc

end Walk

section Machines

variable {τ : Type*} {B : Build} {t : τ} {answer : Option Nat} {m m' : Machine τ} {o : Outcome τ}
  {others : List (Nat × Region)} {block : Nat} {e : Event τ}

/-- What every run keeps, whatever the threads free. -/
structure Decided (B : Build) (others : List (Nat × Region)) (m : Machine τ) : Prop where
  inv : Inv B m
  placed : Placed B others m
  right : ∀ t, ReadRight m.shared (m.threads t).pc
  walks : ∀ t block, (m.threads t).pc.walking = some block →
    OnWay B m.shared block (m.threads t).pc ∨ Past B m.shared block (m.threads t).pc

namespace Decided

theorem start {s : State} {slots : List Nat} (hno : s.pool.overflow = [])
    (I : PoolInv B s others slots []) : Decided B others (Machine.start s : Machine τ) :=
  ⟨.start hno, .start I.layout, fun _ => trivial, fun _ _ hw => by cases hw⟩

variable [DecidableEq τ]

theorem walks_instr (D : Decided B others m)
    (h : instr B t answer m.shared (m.threads t).pc = some o) {u : τ}
    (hw : ((m.move t o.shared ((m.threads t).after o)).threads u).pc.walking = some block) :
    OnWay B o.shared block ((m.move t o.shared ((m.threads t).after o)).threads u).pc ∨
      Past B o.shared block ((m.move t o.shared ((m.threads t).after o)).threads u).pc := by
  obtain ⟨pend, L, -⟩ := D.placed
  by_cases hu : u = t
  · subst hu
    simp only [Machine.move, Function.update_self, Thread.after] at hw ⊢
    have hw' := instr_walking h hw
    rcases D.walks u block hw' with hway | hpast
    · rcases instr_verdict L D.inv.linked (D.right u) hw' hway h with
        ⟨-, hl⟩ | ⟨-, hon, -⟩ | ⟨-, -, -, hp⟩
      · rw [hl] at hw
        cases hw
      · exact Or.inl hon
      · exact Or.inr hp
    · rcases instr_past L D.inv.linked (D.right u) hw' hpast h with hl | ⟨-, hp⟩
      · rw [hl] at hw
        cases hw
      · exact Or.inr hp
  · simp only [Machine.move, Function.update_of_ne hu] at hw ⊢
    exact (D.walks u block hw).imp
      (fun hway => hway.other (D.inv.threads u) (D.inv.threads t) h)
      fun hpast => hpast.other (D.inv.threads u) (D.inv.threads t) h

theorem step (D : Decided B others m) (h : Step B m e m') : Decided B others m' := by
  refine ⟨D.inv.step h, D.placed.step D.inv h, readRight_step D.inv D.right h, ?_⟩
  intro u block hw
  cases h with
  | @alloc t hidle =>
    by_cases hu : u = t
    · subst hu
      simp [Machine.move, Pc.walking] at hw
    · simp only [Machine.move, Function.update_of_ne hu] at hw ⊢
      exact D.walks u block hw
  | @free t b hidle h0 =>
    by_cases hu : u = t
    · subst hu
      simp only [Machine.move, Function.update_self]
      exact Or.inl trivial
    · simp only [Machine.move, Function.update_of_ne hu] at hw ⊢
      exact D.walks u block hw
  | write _ _ _ => exact D.walks u block hw
  | instr h => exact D.walks_instr h hw

end Decided

end Machines

end Mutex

end MemoryPool
