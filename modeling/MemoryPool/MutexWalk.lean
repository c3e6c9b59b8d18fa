import MemoryPool.MutexLayout

/-!
# MemoryPool.MutexWalk

The walk of `free_skeleton` over the chunks, made without the mutex while `grow_pool` links new
ones. A new chunk goes in front of the list, and the descriptors that are linked stay as they are:
from wherever the walk is, what was ahead of it stays ahead (`From`, `OnWay`).

* `walk_enabled`, `walk_budget`: a walk is never kept waiting, and ends after a number of
  instructions bounded by the chunks there are.
* `walk_accepts_slot`: a walk that answers true has found a slot of a linked chunk.
* `instr_onWay`, `OnWay.other`: a walk that looks for a slot does not miss it.
-/

namespace MemoryPool

namespace Mutex

open LinkedList

/-- The pointer a thread is looking for in the chunks, before it acquires the mutex. -/
def Pc.walking : Pc → Option Nat
  | .walkFirst block | .walkOverflow block | .walkBacking block _ | .walkCount block _ _
  | .walkNext block _ => some block
  | _ => none

section Walk

variable {τ : Type*}

/-- The descriptors from `chunk` on are the last ones of the list. -/
def From (s : Shared τ) (chunk : Nat) (rest : List Chunk) : Prop :=
  rest <:+ s.pool.overflow ∧ Chain (fun a => (s.nodes a).next) 0 chunk (rest.map Chunk.addr)

/-- The `backing_` that a walk has read is the one of the chunk it looks at. -/
def ReadRight (s : Shared τ) : Pc → Prop
  | .walkCount _ chunk backing => ∃ c ∈ s.pool.overflow, c.addr = chunk ∧ c.backing = backing
  | _ => True

/-- A walk has at most `n` instructions to go. -/
def WalkLeft (s : Shared τ) (n : Nat) : Pc → Prop
  | .walkFirst _ => 3 * s.pool.overflow.length + 3 ≤ n
  | .walkOverflow _ => 3 * s.pool.overflow.length + 2 ≤ n
  | .walkBacking _ chunk => ∃ rest, From s chunk rest ∧ 3 * rest.length + 1 ≤ n
  | .walkCount _ chunk _ => ∃ c rest, From s chunk (c :: rest) ∧ 3 * rest.length + 3 ≤ n
  | .walkNext _ chunk => ∃ rest, From s (s.nodes chunk).next rest ∧ 3 * rest.length + 2 ≤ n
  | _ => True

/-- The slot `block` lies in a chunk from the descriptor `chunk` on. -/
def Ahead (B : Build) (s : Shared τ) (block chunk : Nat) : Prop :=
  ∃ rest, From s chunk rest ∧
    ∃ c ∈ rest, block ∈ slotsOf (slotStride B s.pool.blockSize) c.backing c.blockCount

/-- The walk has not gone past the slot it looks for. -/
def OnWay (B : Build) (s : Shared τ) (block : Nat) : Pc → Prop
  | .walkOverflow _ =>
    block ∉ slotsOf (slotStride B s.pool.blockSize) s.pool.backing s.pool.blockCount
  | .walkBacking _ chunk | .walkCount _ chunk _ => Ahead B s block chunk
  | .walkNext _ chunk => Ahead B s block (s.nodes chunk).next
  | _ => True

variable {B : Build} {t : τ} {answer : Option Nat} {s : Shared τ} {pc : Pc} {o : Outcome τ}
  {others : List (Nat × Region)} {block : Nat}

theorem From.succ {c : Chunk} {chunk : Nat} {rest : List Chunk} (h : From s chunk (c :: rest)) :
    From s (s.nodes chunk).next rest := by
  obtain ⟨hsuf, hchain⟩ := h
  obtain ⟨rfl, -, hnext⟩ := Chain.cons_iff.mp hchain
  exact ⟨(List.suffix_cons c rest).trans hsuf, hnext⟩

theorem instr_nodes (hI : PcInv B s pc) (h : instr B t answer s pc = some o) :
    ∀ c ∈ s.pool.overflow, o.shared.nodes c.addr = s.nodes c.addr := by
  intro c hc
  cases pc with
  | initBacking add backing chunk => cases h; exact if_neg (hI.2.fresh c hc)
  | initCount add backing chunk => cases h; exact if_neg (hI.2.fresh c hc)
  | initNext add backing chunk next => cases h; exact if_neg (hI.2.1.fresh c hc)
  | _ => simp only [instr] at h; (repeat' split at h) <;> cases h <;> rfl

theorem instr_fields (h : instr B t answer s pc = some o) :
    o.shared.pool.blockSize = s.pool.blockSize ∧ o.shared.pool.backing = s.pool.backing ∧
      o.shared.pool.blockCount = s.pool.blockCount := by
  rcases instr_pool h with ⟨head, growCount, hp⟩ | ⟨backing, new, -, hs⟩
  · rw [hp]
    exact ⟨rfl, rfl, rfl⟩
  · rw [hs]
    exact ⟨rfl, rfl, rfl⟩

theorem instr_from (hI : PcInv B s pc) (h : instr B t answer s pc = some o) {chunk : Nat}
    {rest : List Chunk} (hf : From s chunk rest) : From o.shared chunk rest := by
  obtain ⟨hsuf, hchain⟩ := hf
  constructor
  · rcases instr_pool h with ⟨head, growCount, hp⟩ | ⟨backing, new, -, hs⟩
    · rw [hp]
      exact hsuf
    · rw [hs]
      exact hsuf.trans (List.suffix_cons _ _)
  · refine hchain.congr fun a ha => ?_
    obtain ⟨c, hc, rfl⟩ := List.mem_map.mp ha
    rw [instr_nodes hI h c (hsuf.subset hc)]

/-- A walk is never kept waiting. -/
theorem walk_enabled (hw : pc.walking ≠ none) : ∃ o, instr B t answer s pc = some o := by
  cases pc with
  | walkFirst block => exact ⟨_, rfl⟩
  | walkOverflow block => exact ⟨_, rfl⟩
  | walkBacking block chunk =>
    simp only [instr]
    split <;> exact ⟨_, rfl⟩
  | walkCount block chunk backing => exact ⟨_, rfl⟩
  | walkNext block chunk => exact ⟨_, rfl⟩
  | _ => exact absurd rfl hw

/-- All that a walk can do. -/
theorem instr_walk (hw : pc.walking = some block) (h : instr B t answer s pc = some o) :
    o.shared = s ∧ o.returned = 0 ∧
      (o.pc.walking = some block ∨ o.pc = .lockPush block ∨ o.pc = .idle) := by
  cases pc with
  | walkFirst b =>
    obtain rfl : b = block := Option.some.inj hw
    cases h
    refine ⟨rfl, rfl, ?_⟩
    dsimp only
    split
    · exact Or.inr (Or.inl rfl)
    · exact Or.inl rfl
  | walkOverflow b => cases h; exact ⟨rfl, rfl, Or.inl hw⟩
  | walkBacking b chunk =>
    simp only [instr] at h
    split at h
    · cases h; exact ⟨rfl, rfl, Or.inr (Or.inr rfl)⟩
    · cases h; exact ⟨rfl, rfl, Or.inl hw⟩
  | walkCount b chunk backing =>
    obtain rfl : b = block := Option.some.inj hw
    cases h
    refine ⟨rfl, rfl, ?_⟩
    dsimp only
    split
    · exact Or.inr (Or.inl rfl)
    · exact Or.inl rfl
  | walkNext b chunk => cases h; exact ⟨rfl, rfl, Or.inl hw⟩
  | _ => cases hw

theorem instr_walking (h : instr B t answer s pc = some o)
    (hw : o.pc.walking = some block) : pc.walking = some block := by
  cases pc <;> simp only [instr] at h <;> (repeat' split at h) <;> cases h <;>
    simp_all [Pc.walking, noGrowth]

theorem instr_readRight (L : Linked B s) (hI : PcInv B s pc)
    (h : instr B t answer s pc = some o) : ReadRight o.shared o.pc := by
  cases pc with
  | walkBacking block chunk =>
    simp only [instr] at h
    split at h
    · cases h; trivial
    · rename_i h0
      cases h
      obtain ⟨c, hc, rfl⟩ := hI.resolve_left h0
      exact ⟨c, hc, rfl, (L.cells c hc).1.symm⟩
  | _ =>
    simp only [instr] at h
    (repeat' split at h) <;> cases h <;> trivial

/-- One instruction of a walk uses up one of those it had left. -/
theorem instr_walkLeft (L : Linked B s) {n : Nat} (hleft : WalkLeft s n pc)
    (hw : o.pc.walking ≠ none) (h : instr B t answer s pc = some o) :
    0 < n ∧ WalkLeft o.shared (n - 1) o.pc := by
  cases pc with
  | walkFirst block =>
    have hleft : 3 * s.pool.overflow.length + 3 ≤ n := hleft
    cases h
    refine ⟨by omega, ?_⟩
    dsimp only
    split
    · trivial
    · show 3 * s.pool.overflow.length + 2 ≤ n - 1
      omega
  | walkOverflow block =>
    have hleft : 3 * s.pool.overflow.length + 2 ≤ n := hleft
    cases h
    exact ⟨by omega, s.pool.overflow, ⟨List.suffix_refl _, L.list⟩, by omega⟩
  | walkBacking block chunk =>
    obtain ⟨rest, hf, hn⟩ := hleft
    simp only [instr] at h
    split at h
    · cases h
      exact absurd rfl hw
    · rename_i h0
      cases h
      cases rest with
      | nil => exact absurd hf.2.start_eq_nil h0
      | cons c rest =>
        rw [List.length_cons] at hn
        exact ⟨by omega, c, rest, hf, by omega⟩
  | walkCount block chunk backing =>
    obtain ⟨c, rest, hf, hn⟩ := hleft
    cases h
    refine ⟨by omega, ?_⟩
    dsimp only
    split
    · trivial
    · exact ⟨rest, hf.succ, by omega⟩
  | walkNext block chunk =>
    obtain ⟨rest, hf, hn⟩ := hleft
    cases h
    exact ⟨by omega, rest, hf, by omega⟩
  | _ =>
    refine absurd ?_ hw
    simp only [instr] at h
    (repeat' split at h) <;> cases h <;> rfl

theorem WalkLeft.pos {n : Nat} (hleft : WalkLeft s n pc) (hw : pc.walking ≠ none) : 0 < n := by
  cases pc with
  | walkFirst b => exact Nat.lt_of_lt_of_le (Nat.succ_pos _) hleft
  | walkOverflow b => exact Nat.lt_of_lt_of_le (Nat.succ_pos _) hleft
  | walkBacking b chunk => obtain ⟨rest, -, hn⟩ := hleft; omega
  | walkCount b chunk backing => obtain ⟨c, rest, -, hn⟩ := hleft; omega
  | walkNext b chunk => obtain ⟨rest, -, hn⟩ := hleft; omega
  | _ => exact absurd rfl hw

/-- A growth elsewhere lengthens a walk that has not loaded `overflow_` yet, by the three
instructions for the new chunk, and no other. -/
theorem WalkLeft.other {pc' : Pc} {n : Nat} (hleft : WalkLeft s n pc) (hpc : PcInv B s pc)
    (hI : PcInv B s pc') (h : instr B t answer s pc' = some o) :
    ∃ n', WalkLeft o.shared n' pc ∧
      n' + 3 * s.pool.overflow.length ≤ n + 3 * o.shared.pool.overflow.length := by
  have hlen : s.pool.overflow.length ≤ o.shared.pool.overflow.length := by
    rcases instr_pool h with ⟨head, growCount, hp⟩ | ⟨backing, new, -, hs⟩
    · rw [hp]
    · rw [hs]
      exact Nat.le_succ _
  cases pc with
  | walkFirst block =>
    have hleft : 3 * s.pool.overflow.length + 3 ≤ n := hleft
    exact ⟨3 * o.shared.pool.overflow.length + 3, le_refl _, by omega⟩
  | walkOverflow block =>
    have hleft : 3 * s.pool.overflow.length + 2 ≤ n := hleft
    exact ⟨3 * o.shared.pool.overflow.length + 2, le_refl _, by omega⟩
  | walkBacking block chunk =>
    obtain ⟨rest, hf, hn⟩ := hleft
    exact ⟨n, ⟨rest, instr_from hI h hf, hn⟩, by omega⟩
  | walkCount block chunk backing =>
    obtain ⟨c, rest, hf, hn⟩ := hleft
    exact ⟨n, ⟨c, rest, instr_from hI h hf, hn⟩, by omega⟩
  | walkNext block chunk =>
    obtain ⟨rest, hf, hn⟩ := hleft
    obtain ⟨c, hc, rfl⟩ := hpc
    refine ⟨n, ⟨rest, ?_, hn⟩, by omega⟩
    rw [instr_nodes hI h c hc]
    exact instr_from hI h hf
  | _ => exact ⟨n, trivial, by omega⟩

/-- A walk that looks for a slot finds it, or has it still ahead. -/
theorem instr_onWay (L : Layout B s.toState others) (hL : Linked B s) (hR : ReadRight s pc)
    (hb : block ∈ s.pool.slots B) (hpc : pc.walking = some block) (hway : OnWay B s block pc)
    (h : instr B t answer s pc = some o) :
    o.pc = .lockPush block ∨ o.pc.walking = some block ∧ OnWay B o.shared block o.pc := by
  obtain ⟨c, hc, hbc⟩ := Layout.mem_slots.mp hb
  cases pc with
  | walkFirst b =>
    obtain rfl : b = block := Option.some.inj hpc
    cases h
    dsimp only
    split
    · exact Or.inl rfl
    · rename_i hno
      refine Or.inr ⟨rfl, fun hfirst => hno ?_⟩
      exact (blockInChunk_iff L.stride_pos (L.chunk_fit _ (List.mem_cons_self ..))).mpr hfirst
  | walkOverflow b =>
    obtain rfl : b = block := Option.some.inj hpc
    cases h
    refine Or.inr ⟨rfl, s.pool.overflow, ⟨List.suffix_refl _, hL.list⟩, ?_⟩
    simp only [PoolStruct.chunks, List.mem_cons, List.mem_map] at hc
    rcases hc with rfl | ⟨d, hd, rfl⟩
    · exact absurd hbc hway
    · exact ⟨d, hd, hbc⟩
  | walkBacking b chunk =>
    obtain rfl : b = block := Option.some.inj hpc
    simp only [instr] at h
    split at h
    · -- no descriptor is left, and the slot is in none
      rename_i h0
      obtain ⟨rest, hf, d, hd, -⟩ := hway
      rw [h0] at hf
      rw [List.map_eq_nil_iff.mp (Chain.nil_iff.mp hf.2)] at hd
      cases hd
    · cases h
      exact Or.inr ⟨rfl, hway⟩
  | walkCount b chunk backing =>
    obtain rfl : b = block := Option.some.inj hpc
    obtain ⟨rest, hf, d, hd, hbd⟩ := hway
    cases rest with
    | nil => cases hd
    | cons e rest =>
      obtain ⟨rfl, -, -⟩ := Chain.cons_iff.mp hf.2
      obtain ⟨e', he', haddr, rfl⟩ := hR
      have he := hf.1.subset (List.mem_cons_self ..)
      -- both are the cells of the one descriptor at this address
      have hback : e'.backing = e.backing := by
        rw [← (hL.cells e' he').1, haddr, (hL.cells e he).1]
      have hmem : (e.backing, e.blockCount) ∈ s.pool.chunks :=
        List.mem_cons_of_mem _ (List.mem_map.mpr ⟨e, he, rfl⟩)
      cases h
      simp only [hback, (hL.cells e he).2]
      split
      · exact Or.inl rfl
      · rename_i hno
        refine Or.inr ⟨rfl, rest, hf.succ, ?_⟩
        rcases List.mem_cons.mp hd with rfl | hd
        · exact absurd ((blockInChunk_iff L.stride_pos (L.chunk_fit _ hmem)).mpr hbd) hno
        · exact ⟨d, hd, hbd⟩
  | walkNext b chunk =>
    obtain rfl : b = block := Option.some.inj hpc
    cases h
    exact Or.inr ⟨rfl, hway⟩
  | _ => cases hpc

theorem instr_ahead {pc' : Pc} (hI : PcInv B s pc') (h : instr B t answer s pc' = some o)
    {chunk : Nat} (ha : Ahead B s block chunk) : Ahead B o.shared block chunk := by
  obtain ⟨rest, hf, d, hd, hbd⟩ := ha
  refine ⟨rest, instr_from hI h hf, d, hd, ?_⟩
  rwa [(instr_fields h).1]

/-- What another thread does leaves the walk on its way. -/
theorem OnWay.other {pc' : Pc} (hway : OnWay B s block pc) (hpc : PcInv B s pc)
    (hI : PcInv B s pc') (h : instr B t answer s pc' = some o) : OnWay B o.shared block pc := by
  cases pc with
  | walkOverflow b =>
    obtain ⟨h1, h2, h3⟩ := instr_fields h
    show block ∉ slotsOf (slotStride B o.shared.pool.blockSize) o.shared.pool.backing
      o.shared.pool.blockCount
    rw [h1, h2, h3]
    exact hway
  | walkBacking b chunk => exact instr_ahead hI h hway
  | walkCount b chunk backing => exact instr_ahead hI h hway
  | walkNext b chunk =>
    obtain ⟨c, hc, rfl⟩ := hpc
    show Ahead B o.shared block (o.shared.nodes c.addr).next
    rw [instr_nodes hI h c hc]
    exact instr_ahead hI h hway
  | _ => trivial

variable {m m' : Machine τ}

/-- Whatever pointer is looked for: when the answer is yes, it is a slot of a chunk there is. -/
theorem walk_accepts_slot (hI : Inv B m) (P : Placed B others m)
    (hR : ReadRight m.shared (m.threads t).pc)
    (h : instr B t answer m.shared (m.threads t).pc = some o) (ho : o.pc = .lockPush block) :
    block ∈ m.shared.pool.slots B ∧ o.shared = m.shared := by
  obtain ⟨pend, L, -⟩ := P
  have hI := hI.threads t
  cases hpc : (m.threads t).pc with
  | walkFirst b =>
    rw [hpc] at h
    cases h
    simp only at ho
    split at ho
    · rename_i hb
      cases ho
      refine ⟨Layout.mem_slots.mpr ⟨_, List.mem_cons_self .., ?_⟩, rfl⟩
      exact (blockInChunk_iff L.stride_pos (L.chunk_fit _ (List.mem_cons_self ..))).mp hb
    · cases ho
  | walkCount b chunk backing =>
    rw [hpc] at h hR
    obtain ⟨c, hc, rfl, rfl⟩ := hR
    have hcount := (‹Inv B m›.linked.cells c hc).2
    have hmem : (c.backing, c.blockCount) ∈ m.shared.pool.chunks :=
      List.mem_cons_of_mem _ (List.mem_map.mpr ⟨c, hc, rfl⟩)
    cases h
    simp only [hcount] at ho
    split at ho
    · rename_i hb
      cases ho
      refine ⟨Layout.mem_slots.mpr ⟨_, hmem, ?_⟩, rfl⟩
      exact (blockInChunk_iff L.stride_pos (L.chunk_fit _ hmem)).mp hb
    · cases ho
  | _ =>
    rw [hpc] at h
    simp only [instr] at h
    (repeat' split at h) <;> cases h <;> simp only [noGrowth] at ho <;> cases ho

variable [DecidableEq τ] {e : Event τ}

theorem readRight_step (hI : Inv B m) (hR : ∀ t, ReadRight m.shared (m.threads t).pc)
    (h : Step B m e m') (t : τ) : ReadRight m'.shared (m'.threads t).pc := by
  cases h with
  | @alloc t' _ =>
    by_cases ht : t = t'
    · subst ht; simp [Machine.move, ReadRight]
    · simpa [Machine.move, ht] using hR t
  | @free t' block _ _ =>
    by_cases ht : t = t'
    · subst ht; simp [Machine.move, ReadRight]
    · simpa [Machine.move, ht] using hR t
  | write _ _ _ => exact hR t
  | @instr t' answer o h =>
    by_cases ht : t = t'
    · subst ht
      simpa [Machine.move, Thread.after] using instr_readRight hI.linked (hI.threads t) h
    · simp only [Machine.move, Function.update_of_ne ht]
      have ht := hR t
      cases hpc : (m.threads t).pc with
      | walkCount block chunk backing =>
        rw [hpc] at ht
        obtain ⟨c, hc, h1, h2⟩ := ht
        exact ⟨c, instr_chunks h c hc, h1, h2⟩
      | _ => trivial

def Event.isInstr (t : τ) : Event τ → Bool
  | .instr t' _ => decide (t' = t)
  | _ => false

def Event.isCall (t : τ) : Event τ → Bool
  | .alloc t' | .free t' _ => decide (t' = t)
  | _ => false

/-- From the call of `memory_pool_free` on, as long as the walk lasts, the instructions the thread
has executed and those it has to go are bounded by the chunks there are. -/
theorem walk_budget (hI : Inv B m) (hpc : (m.threads t).pc = .walkFirst block)
    {es : List (Event τ)} (hrun : (lts B τ).Run m es m') (hno : ∀ e ∈ es, e.isCall t = false)
    (hw : (m'.threads t).pc.walking ≠ none) :
    ∃ n, WalkLeft m'.shared n (m'.threads t).pc ∧
      es.countP (Event.isInstr t) + n ≤ 3 * m'.shared.pool.overflow.length + 3 := by
  induction hrun with
  | nil =>
    rw [hpc]
    exact ⟨_, le_refl _, by simp⟩
  | @snoc m₁ m₂ es e hrun hs ih =>
    have hno₁ : ∀ e ∈ es, e.isCall t = false := fun e he => hno e (by simp [he])
    have he := hno e (by simp)
    have hI₁ : Inv B m₁ := hrun.invariant (fun _ _ _ hI hs => hI.step hs) hI
    rw [List.countP_append, List.countP_singleton]
    cases hs with
    | @alloc t' _ =>
      have ht : t ≠ t' := fun ht => by simp [Event.isCall, ht] at he
      simp only [Machine.move, Function.update_of_ne ht] at hw ⊢
      simpa [Event.isInstr] using ih hno₁ hw
    | @free t' block _ _ =>
      have ht : t ≠ t' := fun ht => by simp [Event.isCall, ht] at he
      simp only [Machine.move, Function.update_of_ne ht] at hw ⊢
      simpa [Event.isInstr] using ih hno₁ hw
    | write _ _ _ =>
      obtain ⟨n, hleft, hn⟩ := ih hno₁ hw
      exact ⟨n, hleft, by simpa [Event.isInstr, Shared.setMem] using hn⟩
    | @instr t' answer o h =>
      by_cases ht : t = t'
      · subst ht
        have hpc₂ : ((m₁.move t o.shared ((m₁.threads t).after o)).threads t).pc = o.pc := by
          simp [Machine.move, Thread.after]
        rw [hpc₂] at hw ⊢
        obtain ⟨b, hb⟩ := Option.ne_none_iff_exists'.mp hw
        have hwalk := instr_walking h hb
        obtain ⟨n, hleft, hn⟩ := ih hno₁ (by simp [hwalk])
        obtain ⟨hpos, hleft'⟩ := instr_walkLeft hI₁.linked hleft hw h
        refine ⟨n - 1, hleft', ?_⟩
        have hcrit : (m₁.threads t).pc.critical = false := by
          cases hq : (m₁.threads t).pc <;> rw [hq] at hwalk <;> first | rfl | cases hwalk
        have hout := instr_outside h hcrit
        have hlen : o.shared.pool.overflow = m₁.shared.pool.overflow := by rw [hout]; rfl
        simp only [Event.isInstr, decide_true, if_true]
        show _ ≤ 3 * o.shared.pool.overflow.length + 3
        rw [hlen]
        omega
      · simp only [Machine.move, Function.update_of_ne ht] at hw ⊢
        obtain ⟨n, hleft, hn⟩ := ih hno₁ hw
        obtain ⟨n', hleft', hn'⟩ := hleft.other (hI₁.threads t) (hI₁.threads t') h
        refine ⟨n', hleft', ?_⟩
        simp only [Event.isInstr, Ne.symm ht, decide_false, Bool.false_eq_true, if_false]
        omega

end Walk

end Mutex

end MemoryPool
