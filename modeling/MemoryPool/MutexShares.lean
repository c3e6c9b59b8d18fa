import MemoryPool.FreeList
import MemoryPool.Lib.Shares
import MemoryPool.MutexWalk

/-!
# MemoryPool.MutexShares

Who has which block under every interleaving of the `MUTEX` build: the free list, what the threads
hold and what their calls have in hand partition the slots (`Listed`). The threads free what they
hold, or pointers that are no slots and do not become slots while they are looked for (`Honest`).

A new chunk's slots become the free list when the chunk is linked, one store before `head_` says so.

* `instr_mem`: an instruction writes into blocks the call has in hand, or into the new chunk.
* `PcList.outside`, `PcList.elsewhere`: what the other threads still know.
-/

namespace MemoryPool

namespace Mutex

open ByteMem LinkedList

section Defs

variable {τ : Type*}

/-- The blocks a call has in hand. A pointer that is not a slot does not count. -/
def inHand (B : Build) (s : Shared τ) : Pc → List Nat
  | .walkFirst block | .walkOverflow block | .walkBacking block _ | .walkCount block _ _
  | .walkNext block _ => if block ∈ s.pool.slots B then [block] else []
  | .lockPush block | .onFree block | .pushHead block | .pushLink block _ | .storeBlock block
  | .onAlloc block => [block]
  | .unlock block => if block = 0 then [] else [block]
  | _ => []

def Machine.owned (B : Build) (m : Machine τ) (t : τ) : List Nat :=
  inHand B m.shared (m.threads t).pc ++ (m.threads t).held

/-- What a thread knows of the free list and of the blocks in its hands. -/
def PcList (B : Build) (s : Shared τ) (free : List Nat) : Pc → Prop
  | .sumFirst | .sumCount _ _ | .sumNext _ _ | .newBacking _ | .newChunk _ _ | .initBacking _ _ _
  | .initCount _ _ _ | .loadOverflow _ _ _ | .initNext _ _ _ _ => free = []
  | .initSlot add backing _ i => free = [] ∧ i < add ∧
      Prepared B s.mem backing s.pool.blockSize add i
  | .linkChunk backing chunk => free = [] ∧
      Prepared B s.mem backing s.pool.blockSize (s.nodes chunk).blockCount
        (s.nodes chunk).blockCount
  | .seedHead backing => free ≠ [] ∧ Chain (revealNext B s.mem) 0 backing free
  | .countGrowth | .loadHead => free ≠ []
  | .loadLink block => free.head? = some block
  | .storeHead block next => free.head? = some block ∧ next = revealNext B s.mem block
  | .onAlloc block => B.hardening = true ∧ StampedFree B s.mem block s.pool.blockSize
  | .unlock block => block ≠ 0 → StampedHeld B s.mem block s.pool.blockSize
  | .walkFirst block | .walkOverflow block | .walkBacking block _ | .walkCount block _ _
  | .walkNext block _ => block ∈ s.pool.slots B → StampedHeld B s.mem block s.pool.blockSize
  | .lockPush block => StampedHeld B s.mem block s.pool.blockSize
  | .onFree block => B.hardening = true ∧ StampedHeld B s.mem block s.pool.blockSize
  | .pushHead block => StampedFree B s.mem block s.pool.blockSize
  | .pushLink block head => StampedFree B s.mem block s.pool.blockSize ∧ head = s.pool.head.ptr
  | .storeBlock block => StampedFree B s.mem block s.pool.blockSize ∧
      revealNext B s.mem block = s.pool.head.ptr
  | _ => True

/-- The chain from `head_` is the free list, a store to `head_` of `grow_pool` apart. -/
structure Listed (B : Build) (m : Machine τ) (free : List Nat) : Prop where
  chain : (∀ t backing, (m.threads t).pc ≠ .seedHead backing) →
    Chain (revealNext B m.shared.mem) 0 m.shared.pool.head.ptr free
  shares : Shares (m.shared.pool.slots B) free (m.owned B)
  freed : ∀ a ∈ free, StampedFree B m.shared.mem a m.shared.pool.blockSize
  vended : ∀ t, ∀ a ∈ (m.threads t).held, StampedHeld B m.shared.mem a m.shared.pool.blockSize
  threads : ∀ t, PcList B m.shared free (m.threads t).pc

/-- A walk that looks for a slot has it ahead. -/
def WalksOn (B : Build) (m : Machine τ) : Prop :=
  ∀ t, ReadRight m.shared (m.threads t).pc ∧
    ∀ block, (m.threads t).pc.walking = some block → block ∈ m.shared.pool.slots B →
      OnWay B m.shared block (m.threads t).pc

/-- A thread frees what it holds or what is not a slot, and no pointer becomes a slot while it is
looked for. -/
structure Honest (B : Build) (m : Machine τ) (e : Event τ) (m' : Machine τ) : Prop where
  frees : ∀ t block, e = .free t block →
    block ∈ (m.threads t).held ∨ block ∉ m.shared.pool.slots B
  foreign : ∀ t block, (m.threads t).pc.walking = some block →
    block ∈ m'.shared.pool.slots B → block ∈ m.shared.pool.slots B

end Defs

section Instr

variable {τ : Type*} {B : Build} {t : τ} {answer : Option Nat} {s : Shared τ} {pc : Pc}
  {o : Outcome τ} {pend others : List (Nat × Region)} {free : List Nat} {block : Nat}

theorem inHand_walking (hw : pc.walking = some block) :
    inHand B s pc = if block ∈ s.pool.slots B then [block] else [] := by
  cases pc <;> cases hw <;> rfl

theorem PcList.walking (hw : pc.walking = some block) : PcList B s free pc ↔
    (block ∈ s.pool.slots B → StampedHeld B s.mem block s.pool.blockSize) := by
  cases pc <;> cases hw <;> exact Iff.rfl

theorem slots_step (h : instr B t answer s pc = some o) {a : Nat} (ha : a ∈ s.pool.slots B) :
    a ∈ o.shared.pool.slots B := by
  obtain ⟨c, hc, hac⟩ := Layout.mem_slots.mp ha
  obtain ⟨h1, h2, h3⟩ := instr_fields h
  refine Layout.mem_slots.mpr ⟨c, ?_, by rwa [h1]⟩
  simp only [PoolStruct.chunks, List.mem_cons, List.mem_map, h2, h3] at hc ⊢
  exact hc.imp id fun ⟨d, hd, he⟩ => ⟨d, instr_chunks h d hd, he⟩

theorem instr_newBacking {add : Nat} (h : instr B t answer s (.newBacking add) = some o) :
    o.shared.pool = s.pool ∧ o.shared.mem = s.mem ∧ o.returned = 0 ∧
      (o.pc = .unlock 0 ∨ ∃ backing, o.pc = .newChunk add backing) := by
  simp only [instr] at h
  rcases World.operatorNew_cases B s.toWorld .backing (B.mul add (slotStride B s.pool.blockSize))
    B.poolAlignment answer with he | ⟨base, ha, he⟩
  · rw [he] at h
    cases h
    exact ⟨rfl, rfl, rfl, Or.inl rfl⟩
  · rw [he] at h
    cases h
    exact ⟨rfl, rfl, rfl, Or.inr ⟨_, rfl⟩⟩

theorem instr_newChunk {add backing : Nat}
    (h : instr B t answer s (.newChunk add backing) = some o) :
    o.shared.pool = s.pool ∧ o.shared.mem = s.mem ∧ o.returned = 0 ∧
      (o.pc = .unlock 0 ∨ ∃ chunk, o.pc = .initBacking add backing chunk) := by
  simp only [instr] at h
  rcases World.operatorNew_cases B s.toWorld .chunkNode B.sizeofChunk B.ptrBytes answer with
    he | ⟨base, ha, he⟩
  · rw [he] at h
    cases h
    exact ⟨rfl, rfl, rfl, Or.inl rfl⟩
  · rw [he] at h
    cases h
    exact ⟨rfl, rfl, rfl, Or.inr ⟨_, rfl⟩⟩

/-- Every slot the call has not in hand stays as it is. -/
theorem instr_mem (L : Layout B s.toState (pend ++ others)) (hP : PcPlaced B s pend pc)
    (hL : PcList B s free pc) (hin : ∀ b ∈ inHand B s pc, b ∈ s.pool.slots B)
    (h : instr B t answer s pc = some o) {a : Nat} (ha : a ∈ s.pool.slots B)
    (hno : a ∉ inHand B s pc) :
    SameOn s.mem o.shared.mem a (slotStride B s.pool.blockSize) := by
  have d := L.dims
  have hlink := d.link
  have hblock := d.block
  have hown : ∀ b mem, inHand B s pc = [b] →
      (∀ x, (x < b ∨ b + slotStride B s.pool.blockSize ≤ x) → mem x = s.mem x) →
      SameOn s.mem mem a (slotStride B s.pool.blockSize) := by
    intro b mem hb hout
    have hmem : b ∈ inHand B s pc := hb ▸ List.mem_cons_self ..
    refine sameOn_of_outside hout (L.slots_apart (hin b hmem) ha ?_)
    rintro rfl
    exact hno hmem
  cases pc with
  | initSlot add backing chunk i =>
    obtain ⟨⟨⟨hpos, hne, -, hfit⟩, hreg⟩, -⟩ := hP
    have hi : i < add := hL.2.1
    have hchunk : a + slotStride B s.pool.blockSize ≤ backing ∨
        backing + slotStride B s.pool.blockSize * add ≤ a := by
      have hmem : (⟨.backing, backing, slotStride B s.pool.blockSize * add⟩ : Region) ∈
          pend.map Prod.snd := by
        rw [hreg]
        simp
      obtain ⟨e, he, heq⟩ := List.mem_map.mp hmem
      have hap := L.slot_apart_other ha (List.mem_append_left _ he)
      rwa [heq] at hap
    have hslot : ∀ j next, j < add →
        SameOn s.mem (MemoryPool.initSlot B s.mem (backing + j * slotStride B s.pool.blockSize)
          next s.pool.blockSize) a (slotStride B s.pool.blockSize) := by
      intro j next hj
      have hle := Nat.mul_le_mul_right (slotStride B s.pool.blockSize) (show j + 1 ≤ add from hj)
      rw [Nat.add_mul, Nat.one_mul, Nat.mul_comm add] at hle
      exact sameOn_of_outside (fun x hx => initSlot_outside d hx) (by omega)
    simp only [instr] at h
    split at h
    · cases h
      rw [show B.add backing (B.mul i (slotStride B s.pool.blockSize)) =
        backing + i * slotStride B s.pool.blockSize from (slotAddr_eq (by omega) hfit).1]
      exact hslot i _ hi
    · cases h
      rw [show B.add backing (B.mul (add - 1) (slotStride B s.pool.blockSize)) =
        backing + (add - 1) * slotStride B s.pool.blockSize from (slotAddr_eq (by omega) hfit).1]
      exact hslot (add - 1) _ (by omega)
  | loadLink b =>
    cases h
    show SameOn s.mem (readNext B s.toWorld b).2.mem a _
    rw [readNext_mem]
    exact .refl _ _ _
  | onAlloc b =>
    have := d.guard hL.1
    have hm := onAlloc_mem B s.toWorld b s.pool.blockSize
    simp only [instr, Option.some.injEq] at h
    subst h
    show SameOn s.mem (MemoryPool.onAlloc B s.toWorld b s.pool.blockSize).mem a _
    rw [hm]
    exact hown b _ rfl fun x hx => writeGuard_outside (by omega)
  | onFree b =>
    have := d.guard hL.1
    have hm := onFree_mem B s.toWorld b s.pool.blockSize
    simp only [instr, Option.some.injEq] at h
    subst h
    generalize MemoryPool.onFree B s.toWorld b s.pool.blockSize = result at hm ⊢
    show SameOn s.mem result.2.mem a _
    rw [hm]
    exact hown b _ rfl fun x hx => freedMem_outside hlink (by omega)
  | pushLink b head =>
    cases h
    refine hown b _ rfl fun x hx => ?_
    exact writeNext_outside (by omega)
  | newBacking add => rw [(instr_newBacking h).2.1]; exact .refl _ _ _
  | newChunk add backing => rw [(instr_newChunk h).2.1]; exact .refl _ _ _
  | _ =>
    simp only [instr] at h
    (repeat' split at h) <;> cases h <;> exact .refl _ _ _

/-- Outside the critical section a thread knows of its own blocks only. -/
theorem PcList.outside {s' : Shared τ} {free' : List Nat} (hc : pc.critical = false)
    (hstamp : ∀ b ∈ inHand B s pc, StampedHeld B s.mem b s.pool.blockSize →
      StampedHeld B s'.mem b s'.pool.blockSize)
    (hfor : ∀ b, pc.walking = some b → b ∈ s'.pool.slots B → b ∈ s.pool.slots B)
    (hP : PcList B s free pc) : PcList B s' free' pc := by
  cases hw : pc.walking with
  | some b =>
    rw [PcList.walking hw] at hP ⊢
    intro hb
    have hb := hfor b hw hb
    refine hstamp b ?_ (hP hb)
    rw [inHand_walking hw, if_pos hb]
    exact List.mem_cons_self ..
  | none =>
    cases pc with
    | idle => trivial
    | lock => trivial
    | lockPush b => exact hstamp b (List.mem_cons_self ..) hP
    | _ => simp [Pc.critical, Pc.walking] at hc hw

/-- What a thread knows survives where its blocks, the free ones and a chunk that is not linked yet
are untouched. -/
theorem PcList.elsewhere {mem : Mem} (d : SlotDims B s.pool.blockSize)
    (hfree : ∀ a ∈ free, SameOn s.mem mem a (slotStride B s.pool.blockSize))
    (hhand : ∀ a ∈ inHand B s pc, SameOn s.mem mem a (slotStride B s.pool.blockSize))
    (hpend : ∀ e ∈ pend, ∀ a, e.2.base ≤ a → a + slotStride B s.pool.blockSize ≤
      e.2.base + e.2.bytes → SameOn s.mem mem a (slotStride B s.pool.blockSize))
    (hplaced : PcPlaced B s pend pc) (hP : PcList B s free pc) :
    PcList B (s.setMem mem) free pc := by
  have hnew : ∀ add backing chunk k, Building B s.pool.blockSize pend add backing chunk →
      k ≤ add → Prepared B s.mem backing s.pool.blockSize add k →
      Prepared B mem backing s.pool.blockSize add k := by
    intro add backing chunk k hb hk h i hi
    have hmem : (⟨.backing, backing, slotStride B s.pool.blockSize * add⟩ : Region) ∈
        pend.map Prod.snd := by
      rw [hb.regions]
      simp
    obtain ⟨e, he, heq⟩ := List.mem_map.mp hmem
    have hin := slotsOf_inside (mem_slotsOf.mpr ⟨i, by omega, rfl⟩ :
      backing + i * slotStride B s.pool.blockSize ∈
        slotsOf (slotStride B s.pool.blockSize) backing add)
    have hsame := hpend e he (backing + i * slotStride B s.pool.blockSize)
      (by rw [heq]; exact hin.1) (by rw [heq]; exact hin.2)
    exact ⟨(revealNext_same d hsame).trans (h i hi).1, (h i hi).2.same d hsame⟩
  cases hw : pc.walking with
  | some b =>
    rw [PcList.walking hw] at hP ⊢
    intro (hb : b ∈ s.pool.slots B)
    refine (hP hb).same d (hhand b ?_)
    rw [inHand_walking hw, if_pos hb]
    exact List.mem_cons_self ..
  | none =>
    cases pc with
    | initSlot add backing chunk i =>
      exact ⟨hP.1, hP.2.1, hnew add backing chunk i hplaced.1 (Nat.le_of_lt hP.2.1) hP.2.2⟩
    | linkChunk backing chunk => exact ⟨hP.1, hnew _ backing chunk _ hplaced.1 (le_refl _) hP.2⟩
    | seedHead backing => exact ⟨hP.1, hP.2.congr fun a ha => revealNext_same d (hfree a ha)⟩
    | storeHead b next =>
      obtain ⟨rest, rfl⟩ := List.head?_eq_some_iff.mp hP.1
      exact ⟨hP.1, hP.2.trans (revealNext_same d (hfree b (List.mem_cons_self ..))).symm⟩
    | onAlloc b => exact ⟨hP.1, hP.2.same d (hhand b (List.mem_cons_self ..))⟩
    | unlock b =>
      intro hne
      exact (hP hne).same d (hhand b (by simp [inHand, hne]))
    | lockPush b => exact StampedHeld.same d hP (hhand b (List.mem_cons_self ..))
    | onFree b => exact ⟨hP.1, hP.2.same d (hhand b (List.mem_cons_self ..))⟩
    | pushHead b => exact StampedFree.same d hP (hhand b (List.mem_cons_self ..))
    | pushLink b head => exact ⟨hP.1.same d (hhand b (List.mem_cons_self ..)), hP.2⟩
    | storeBlock b =>
      have hb := hhand b (List.mem_cons_self ..)
      exact ⟨hP.1.same d hb, (revealNext_same d hb).trans hP.2⟩
    | _ => first | (cases hw; done) | exact hP

end Instr

end Mutex

end MemoryPool
