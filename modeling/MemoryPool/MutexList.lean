import MemoryPool.LockDiscipline
import MemoryPool.MutexShares

/-!
# MemoryPool.MutexList

The steps of honest threads keep the partition of the slots.

* `Listed.change`, `Listed.keep`: what is left to show of an instruction, in general and when no
  block is handed over.
* `Listed.instr`, `Listed.step`, `WalksOn.step`: the step lemmas; `Kept.of_run`: the runs.
* `held_block_accepted`: the walk of a free ends and finds the block, and in every state in which
  nobody holds the mutex the free list, the held blocks and those passed to unfinished frees
  partition the slots.
-/

namespace MemoryPool

namespace Mutex

open ByteMem LinkedList

def Outcome.given {τ : Type*} (o : Outcome τ) : List Nat :=
  if o.returned = 0 then [] else [o.returned]

theorem Thread.after_held {τ : Type*} (th : Thread) (o : Outcome τ) :
    (th.after o).held = o.given ++ th.held := by
  unfold Thread.after Outcome.given
  split <;> rfl

section Steps

variable {τ : Type*} {B : Build} {t : τ} {answer : Option Nat} {m m' : Machine τ} {o : Outcome τ}
  {others : List (Nat × Region)} {free free' : List Nat} {block : Nat}

theorem Listed.owned_slot (I : Listed B m free) {a : Nat}
    (ha : a ∈ inHand B m.shared (m.threads t).pc) : a ∈ m.shared.pool.slots B :=
  I.shares.owned_mem (t := t) (List.mem_append_left _ ha)

theorem Listed.held_slot (I : Listed B m free) {a : Nat} (ha : a ∈ (m.threads t).held) :
    a ∈ m.shared.pool.slots B :=
  I.shares.owned_mem (t := t) (List.mem_append_right _ ha)

theorem Listed.free_apart (I : Listed B m free) {a : Nat} (ha : a ∈ free) :
    a ∉ inHand B m.shared (m.threads t).pc := by
  intro hin
  exact I.shares.apart t a ha (List.mem_append_left _ hin)

theorem Listed.held_apart (I : Listed B m free) {t' : τ} {a : Nat}
    (ha : a ∈ (m.threads t').held) : a ∉ inHand B m.shared (m.threads t).pc := by
  intro hin
  obtain rfl := I.shares.exclusive t t' a (List.mem_append_left _ hin)
    (List.mem_append_right _ ha)
  exact (List.nodup_append.mp (I.shares.owned_nodup t)).2.2 a hin a ha rfl

theorem Listed.frame (I : Listed B m free) (hI : Inv B m) (P : Placed B others m)
    (h : instr B t answer m.shared (m.threads t).pc = some o) :
    ∀ a ∈ m.shared.pool.slots B, a ∉ inHand B m.shared (m.threads t).pc →
      SameOn m.shared.mem o.shared.mem a (slotStride B m.shared.pool.blockSize) := by
  intro a ha hno
  obtain ⟨pend, L, hF⟩ := P
  cases hc : (m.threads t).pc.critical with
  | false =>
    rw [instr_outside h hc]
    exact .refl _ _ _
  | true =>
    simp only [PlacedFor, (hI.exclusive t).mp hc] at hF
    exact instr_mem L hF (I.threads t) (fun b hb => I.owned_slot hb) h ha hno

/-- A walk keeps the slot it looks for in hand. -/
theorem Listed.walk (I : Listed B m free) (hI : Inv B m) (P : Placed B others m)
    (W : WalksOn B m) (hw : (m.threads t).pc.walking = some block)
    (h : instr B t answer m.shared (m.threads t).pc = some o) :
    inHand B m.shared o.pc = inHand B m.shared (m.threads t).pc ∧
      PcList B m.shared free o.pc := by
  have hP := (PcList.walking hw).mp (I.threads t)
  have hcases := (instr_walk hw h).2.2
  rw [inHand_walking hw]
  by_cases hb : block ∈ m.shared.pool.slots B
  · obtain ⟨pend, L, -⟩ := P
    rcases instr_onWay L hI.linked (W t).1 hb hw ((W t).2 block hw hb) h with hl | ⟨hl, -⟩
    · rw [hl, if_pos hb]
      exact ⟨rfl, hP hb⟩
    · rw [inHand_walking hl, PcList.walking hl]
      exact ⟨rfl, hP⟩
  · rcases hcases with hl | hl | hl
    · rw [inHand_walking hl, PcList.walking hl]
      exact ⟨rfl, hP⟩
    · exact absurd (walk_accepts_slot hI P (W t).1 h hl).1 hb
    · rw [hl, if_neg hb]
      exact ⟨rfl, trivial⟩

theorem Listed.head_free (I : Listed B m free)
    (hno : ∀ t backing, (m.threads t).pc ≠ .seedHead backing) (hne : free ≠ []) :
    free.head? = some m.shared.pool.head.ptr ∧ m.shared.pool.head.ptr ≠ 0 := by
  have hc := I.chain hno
  cases free with
  | nil => exact absurd rfl hne
  | cons a rest =>
    obtain ⟨heq, h0, -⟩ := Chain.cons_iff.mp hc
    rw [heq]
    exact ⟨rfl, h0⟩

/-- The thread in the critical section is the only one that could be about to store `head_`. -/
theorem no_seed (hI : Inv B m) (hc : (m.threads t).pc.critical = true)
    (hpc : ∀ backing, (m.threads t).pc ≠ .seedHead backing) :
    ∀ t' backing, (m.threads t').pc ≠ .seedHead backing := by
  intro t' backing hs
  have ho := (hI.exclusive t).mp hc
  rw [(hI.exclusive t').mp (by rw [hs]; rfl)] at ho
  obtain rfl := Option.some.inj ho
  exact hpc backing hs

/-- What the holder of a block writes into it, nobody else sees. -/
theorem Listed.write (I : Listed B m free) (hI : Inv B m) (P : Placed B others m) {addr : Nat}
    (hheld : block ∈ (m.threads t).held) (hl : block ≤ addr)
    (hu : addr < block + m.shared.pool.blockSize) (byte : UInt8) :
    Listed B { m with shared := m.shared.setMem (set m.shared.mem addr byte) } free := by
  obtain ⟨pend, L, hF⟩ := P
  have d := L.dims
  have hblock := I.held_slot hheld
  have hout : ∀ x, (x < block ∨ block + slotStride B m.shared.pool.blockSize ≤ x) →
      set m.shared.mem addr byte x = m.shared.mem x := by
    have := d.block
    intro x hx
    exact set_other (by omega)
  have hother : ∀ a ∈ m.shared.pool.slots B, a ≠ block →
      SameOn m.shared.mem (set m.shared.mem addr byte) a
        (slotStride B m.shared.pool.blockSize) := by
    intro a ha hne
    exact sameOn_of_outside hout (L.slots_apart hblock ha hne.symm)
  have hfree : ∀ a ∈ free, SameOn m.shared.mem (set m.shared.mem addr byte) a
      (slotStride B m.shared.pool.blockSize) := by
    intro a ha
    refine hother a (I.shares.free_mem ha) ?_
    rintro rfl
    exact I.shares.apart t a ha (List.mem_append_right _ hheld)
  refine ⟨fun hno => (I.chain hno).congr fun a ha => revealNext_same d (hfree a ha), I.shares,
    fun a ha => (I.freed a ha).same d (hfree a ha), fun t' a ha => ?_, fun t' => ?_⟩
  · by_cases hab : a = block
    · subst hab
      exact (I.vended t' a ha).set hu byte
    · exact (I.vended t' a ha).same d (hother a (I.held_slot ha) hab)
  · have hplaced : ∃ pend', (∀ e ∈ pend', e ∈ pend ++ others) ∧
        PcPlaced B m.shared pend' (m.threads t').pc := by
      cases hc : (m.threads t').pc.critical with
      | false => exact ⟨[], by simp, (PcPlaced.outside hc).mpr rfl⟩
      | true =>
        simp only [PlacedFor, (hI.exclusive t').mp hc] at hF
        exact ⟨pend, fun e he => List.mem_append_left _ he, hF⟩
    obtain ⟨pend', hsub, hF'⟩ := hplaced
    refine PcList.elsewhere d hfree (fun a ha => hother a (I.owned_slot ha) ?_) ?_ hF'
      (I.threads t')
    · rintro rfl
      exact I.held_apart hheld ha
    · intro e he a hlo hhi
      refine sameOn_of_outside hout ?_
      have := L.slot_apart_other hblock (hsub e he)
      omega

/-- Everything that the runs of honest threads keep. -/
structure Kept (B : Build) (others : List (Nat × Region)) (m : Machine τ) : Prop where
  inv : Inv B m
  placed : Placed B others m
  walks : WalksOn B m
  listed : ∃ free, Listed B m free

theorem Kept.start {s : State} {slots : List Nat} (hno : s.pool.overflow = [])
    (I : PoolInv B s others slots []) : Kept B others (Machine.start s : Machine τ) := by
  refine ⟨.start hno, .start I.layout, fun t => ⟨trivial, fun b hw => by cases hw⟩,
    slots, fun _ => I.chain, ?_, I.freed, (fun t a ha => by cases ha), fun t => trivial⟩
  have hslots : ∀ a, a ∈ s.pool.slots B ↔ a ∈ slots := fun a => by simp [I.slot_iff]
  refine ⟨(List.nodup_append.mp I.nodup).1, fun _ => .nil, fun _ _ _ => List.not_mem_nil,
    (fun _ _ _ ha => by cases ha), fun a => ?_⟩
  show a ∈ s.pool.slots B ↔ _
  simp [hslots, Machine.owned, Machine.start, inHand]

variable [DecidableEq τ]

/-- What is left to show of an instruction: the list, whose the blocks are now, and what its own
thread knows. -/
theorem Listed.change (I : Listed B m free) (hI : Inv B m)
    (h : instr B t answer m.shared (m.threads t).pc = some o)
    (d : SlotDims B m.shared.pool.blockSize)
    (hfor : ∀ t' b, (m.threads t').pc.walking = some b → b ∈ o.shared.pool.slots B →
      b ∈ m.shared.pool.slots B)
    (hmem : ∀ a ∈ m.shared.pool.slots B, a ∉ inHand B m.shared (m.threads t).pc →
      SameOn m.shared.mem o.shared.mem a (slotStride B m.shared.pool.blockSize))
    (hchain : (∀ t' backing, ((m.move t o.shared ((m.threads t).after o)).threads t').pc ≠
      .seedHead backing) → Chain (revealNext B o.shared.mem) 0 o.shared.pool.head.ptr free')
    (hshares : Shares (o.shared.pool.slots B) free' (Function.update (m.owned B) t
      (inHand B o.shared o.pc ++ (o.given ++ (m.threads t).held))))
    (hfreed : ∀ a ∈ free', StampedFree B o.shared.mem a m.shared.pool.blockSize)
    (hgiven : ∀ a ∈ o.given, StampedHeld B o.shared.mem a m.shared.pool.blockSize)
    (hP : PcList B o.shared free' o.pc)
    (hsame : (m.threads t).pc.critical = false → free' = free) :
    Listed B (m.move t o.shared ((m.threads t).after o)) free' := by
  have hbs : o.shared.pool.blockSize = m.shared.pool.blockSize := (instr_fields h).1
  have hheld : ∀ t', ∀ a ∈ (m.threads t').held,
      StampedHeld B o.shared.mem a o.shared.pool.blockSize := by
    intro t' a ha
    rw [hbs]
    exact (I.vended t' a ha).same d (hmem a (I.held_slot ha) (I.held_apart ha))
  refine ⟨hchain, ?_, ?_, ?_, ?_⟩
  · have howned : (m.move t o.shared ((m.threads t).after o)).owned B =
        Function.update (m.owned B) t
          (inHand B o.shared o.pc ++ (o.given ++ (m.threads t).held)) := by
      funext t'
      by_cases ht : t' = t
      · subst ht
        simp only [Machine.owned, Machine.move, Function.update_self, Thread.after_held]
        rfl
      · simp only [Machine.owned, Machine.move, Function.update_of_ne ht]
        congr 1
        cases hw : (m.threads t').pc.walking with
        | none => cases hpc : (m.threads t').pc <;> rw [hpc] at hw <;> first | rfl | cases hw
        | some b =>
          have hiff : b ∈ o.shared.pool.slots B ↔ b ∈ m.shared.pool.slots B :=
            ⟨hfor t' b hw, slots_step h⟩
          simp only [inHand_walking hw, hiff]
    rw [howned]
    exact hshares
  · intro a ha
    show StampedFree B o.shared.mem a o.shared.pool.blockSize
    rw [hbs]
    exact hfreed a ha
  · intro t' a ha
    by_cases ht : t' = t
    · subst ht
      simp only [Machine.move, Function.update_self, Thread.after_held] at ha
      rcases List.mem_append.mp ha with ha | ha
      · show StampedHeld B o.shared.mem a o.shared.pool.blockSize
        rw [hbs]
        exact hgiven a ha
      · exact hheld t' a ha
    · simp only [Machine.move, Function.update_of_ne ht] at ha
      exact hheld t' a ha
  · intro t'
    by_cases ht : t' = t
    · subst ht
      simpa [Machine.move, Thread.after] using hP
    · simp only [Machine.move, Function.update_of_ne ht]
      cases hc : (m.threads t).pc.critical with
      | false =>
        -- nothing but the owner of the mutex has changed
        rw [instr_outside h hc, hsame hc]
        exact I.threads t'
      | true =>
        have hc' : (m.threads t').pc.critical = false := by
          by_contra hcc
          have h1 := (hI.exclusive t).mp hc
          rw [(hI.exclusive t').mp (by simpa using hcc)] at h1
          exact ht (Option.some.inj h1)
        refine (I.threads t').outside hc' (fun b hb hs => ?_) (hfor t')
        rw [hbs]
        refine hs.same d (hmem b (I.owned_slot hb) fun hin => ?_)
        exact ht (I.shares.exclusive t' t b (List.mem_append_left _ hb)
          (List.mem_append_left _ hin))

/-- No block is handed over, except to the caller. -/
theorem Listed.keep (I : Listed B m free) (hI : Inv B m)
    (h : instr B t answer m.shared (m.threads t).pc = some o)
    (d : SlotDims B m.shared.pool.blockSize)
    (hmem : ∀ a ∈ m.shared.pool.slots B, a ∉ inHand B m.shared (m.threads t).pc →
      SameOn m.shared.mem o.shared.mem a (slotStride B m.shared.pool.blockSize))
    (hslots : o.shared.pool.slots B = m.shared.pool.slots B)
    (hhead : o.shared.pool.head.ptr = m.shared.pool.head.ptr)
    (hseed : ∀ backing, (m.threads t).pc ≠ .seedHead backing ∧ o.pc ≠ .seedHead backing)
    (hown : inHand B o.shared o.pc ++ o.given = inHand B m.shared (m.threads t).pc)
    (hgiven : ∀ a ∈ o.given, StampedHeld B o.shared.mem a m.shared.pool.blockSize)
    (hP : PcList B o.shared free o.pc) :
    Listed B (m.move t o.shared ((m.threads t).after o)) free := by
  have hfree : ∀ a ∈ free, SameOn m.shared.mem o.shared.mem a
      (slotStride B m.shared.pool.blockSize) := by
    intro a ha
    exact hmem a (I.shares.free_mem ha) (I.free_apart ha)
  refine I.change hI h d (fun t' b _ hb => hslots ▸ hb) hmem ?_ ?_ ?_ hgiven hP fun _ => rfl
  · intro hno
    rw [hhead]
    refine (I.chain fun t' backing => ?_).congr fun a ha => revealNext_same d (hfree a ha)
    by_cases ht : t' = t
    · subst ht; exact (hseed backing).1
    · simpa [Machine.move, ht] using hno t' backing
  · rw [hslots]
    refine I.shares.rearrange fun t' => ?_
    by_cases ht : t' = t
    · subst ht
      rw [Function.update_self, ← List.append_assoc, hown]
      exact .refl _
    · simp [ht]
  · intro a ha
    exact (I.freed a ha).same d (hfree a ha)

/-! ## The instructions -/

/-- The call goes on: the list is the same, and so is the block in its hands. -/
theorem Listed.onward (I : Listed B m free) (hI : Inv B m) (P : Placed B others m) {pc pc' : Pc}
    (h : Mutex.instr B t answer m.shared (m.threads t).pc = some o)
    (hpc : (m.threads t).pc = pc) (hpc' : o.pc = pc')
    (hslots : o.shared.pool.slots B = m.shared.pool.slots B)
    (hhead : o.shared.pool.head.ptr = m.shared.pool.head.ptr) (hret : o.returned = 0)
    (hseed : ∀ backing, pc ≠ .seedHead backing ∧ pc' ≠ .seedHead backing)
    (hown : inHand B o.shared pc' = inHand B m.shared pc) (hP : PcList B o.shared free pc') :
    Listed B (m.move t o.shared ((m.threads t).after o)) free := by
  have hmem := I.frame hI P h
  obtain ⟨pend, L, -⟩ := P
  subst hpc hpc'
  have hgiven : o.given = [] := if_pos hret
  refine I.keep hI h L.dims hmem hslots hhead hseed ?_ ?_ hP
  · rw [hgiven, List.append_nil, hown]
  · rw [hgiven]
    intro a ha
    cases ha

theorem Listed.walks (I : Listed B m free) (hI : Inv B m) (P : Placed B others m)
    (W : WalksOn B m) (hw : (m.threads t).pc.walking = some block)
    (h : Mutex.instr B t answer m.shared (m.threads t).pc = some o) :
    Listed B (m.move t o.shared ((m.threads t).after o)) free := by
  obtain ⟨hs, hr, hcases⟩ := instr_walk hw h
  obtain ⟨hhand, hP⟩ := I.walk hI P W hw h
  refine I.onward hI P h rfl rfl (by rw [hs]) (by rw [hs]) hr ?_ (by rw [hs, hhand]) (by rwa [hs])
  intro backing
  constructor
  · intro he
    rw [he] at hw
    cases hw
  · rcases hcases with hl | hl | hl
    · intro he
      rw [he] at hl
      cases hl
    · simp [hl]
    · simp [hl]

/-- `initialize_free_list` under way. -/
theorem Listed.initSlot (I : Listed B m free) (hI : Inv B m) (P : Placed B others m)
    {add backing chunk i : Nat} (hpc : (m.threads t).pc = .initSlot add backing chunk i)
    (h : Mutex.instr B t answer m.shared (m.threads t).pc = some o) :
    Listed B (m.move t o.shared ((m.threads t).after o)) free := by
  obtain ⟨pend, L, hF⟩ := id P
  have d := L.dims
  have hL := I.threads t
  have h' := h
  simp only [PlacedFor, (hI.exclusive t).mp (by rw [hpc]; rfl)] at hF
  rw [hpc] at h' hL hF
  obtain ⟨hnil, hi, hprep⟩ := hL
  obtain ⟨⟨⟨-, -, -, hfit⟩, -⟩, -, hcount⟩ := hF
  have hnext := hprep.step d hi hfit.le
  simp only [Mutex.instr] at h'
  split at h'
  · rename_i hlt
    cases h'
    refine I.onward hI P h hpc rfl rfl rfl rfl (fun _ => ⟨by simp, by simp⟩) rfl ⟨hnil, hlt, ?_⟩
    rw [if_pos hlt] at hnext
    simpa only [Shared.setMem, (slotAddr_eq (B := B) (show i ≤ add by omega) hfit).1,
      (slotAddr_eq (B := B) (show i + 1 ≤ add by omega) hfit).1] using hnext
  · rename_i hlt
    obtain rfl : add = i + 1 := by omega
    cases h'
    refine I.onward hI P h hpc rfl rfl rfl rfl (fun _ => ⟨by simp, by simp⟩) rfl ⟨hnil, ?_⟩
    rw [if_neg hlt] at hnext
    simpa only [Shared.setMem, hcount, Nat.add_sub_cancel,
      (slotAddr_eq (B := B) (show i ≤ i + 1 by omega) hfit).1] using hnext

/-- The new chunk's slots become the free list. -/
theorem Listed.link (I : Listed B m free) (hI : Inv B m) (P : Placed B others m)
    {backing chunk : Nat} (hpc : (m.threads t).pc = .linkChunk backing chunk)
    (h : Mutex.instr B t answer m.shared (m.threads t).pc = some o)
    (hfor : ∀ t' b, (m.threads t').pc.walking = some b → b ∈ o.shared.pool.slots B →
      b ∈ m.shared.pool.slots B) :
    Listed B (m.move t o.shared ((m.threads t).after o))
      (slotsOf (slotStride B m.shared.pool.blockSize) backing
        (m.shared.nodes chunk).blockCount) := by
  have hmem := I.frame hI P h
  obtain ⟨pend, L, hF⟩ := P
  have hL := I.threads t
  have h' := h
  simp only [PlacedFor, (hI.exclusive t).mp (by rw [hpc]; rfl)] at hF
  rw [hpc] at h' hL hF
  obtain ⟨rfl, hprep⟩ := hL
  obtain ⟨⟨⟨hpos, hne, -, hfit⟩, hreg⟩, hback⟩ := hF
  cases h'
  have hslots : ∀ a, a ∈ (m.shared.link chunk).pool.slots B ↔
      a ∈ slotsOf (slotStride B m.shared.pool.blockSize) backing
        (m.shared.nodes chunk).blockCount ∨ a ∈ m.shared.pool.slots B := by
    intro a
    simp only [Shared.link, PoolStruct.slots, PoolStruct.chunks, List.map_cons,
      List.flatMap_cons, List.mem_append, hback]
    tauto
  have hapart : ∀ a ∈ slotsOf (slotStride B m.shared.pool.blockSize) backing
      (m.shared.nodes chunk).blockCount, a ∉ m.shared.pool.slots B := by
    intro a ha hs
    have hin := slotsOf_inside ha
    have hpos := L.stride_pos
    have hregion : (⟨.backing, backing, slotStride B m.shared.pool.blockSize *
        (m.shared.nodes chunk).blockCount⟩ : Region) ∈ pend.map Prod.snd := by
      rw [hreg]
      simp
    obtain ⟨e, he, heq⟩ := List.mem_map.mp hregion
    have hap := L.slot_apart_other hs (List.mem_append_left _ he)
    rw [heq] at hap
    simp only [] at hap
    omega
  refine I.change hI h L.dims hfor hmem ?_ ?_ ?_ (fun a ha => by cases ha) ?_ ?_
  · intro hno
    exact absurd (by simp [Machine.move, Thread.after]) (hno t backing)
  · have S := I.shares.enlarge (slotsOf_nodup L.stride_pos) hapart hslots
    rw [List.append_nil] at S
    refine S.rearrange fun t' => ?_
    by_cases ht : t' = t
    · subst ht
      rw [Function.update_self, Machine.owned, hpc]
      exact .refl _
    · simp [ht]
  · intro a ha
    obtain ⟨i, hi, rfl⟩ := mem_slotsOf.mp ha
    exact (hprep i hi).2
  · refine ⟨?_, hprep.chain hne hpos⟩
    rw [slotsOf_eq_cons _ _ hpos]
    exact List.cons_ne_nil _ _
  · intro hc
    rw [hpc] at hc
    cases hc

/-- The first free block comes into the thread's hands. -/
theorem Listed.pop (I : Listed B m free) (hI : Inv B m) (P : Placed B others m) {next : Nat}
    (hpc : (m.threads t).pc = .storeHead block next)
    (h : Mutex.instr B t answer m.shared (m.threads t).pc = some o) :
    ∃ free', Listed B (m.move t o.shared ((m.threads t).after o)) free' := by
  have hmem := I.frame hI P h
  obtain ⟨pend, L, -⟩ := P
  have hL := I.threads t
  have hno := no_seed hI (t := t) (by rw [hpc]; rfl) (by simp [hpc])
  have h' := h
  rw [hpc] at h' hL
  obtain ⟨hhead, rfl⟩ := hL
  obtain ⟨rest, rfl⟩ := List.head?_eq_some_iff.mp hhead
  have hslot := I.shares.free_mem (List.mem_cons_self ..)
  obtain ⟨-, -, hchain⟩ := Chain.cons_iff.mp (I.chain hno)
  have hne := (L.slot_spec hslot).1
  have hstamp := I.freed block (List.mem_cons_self ..)
  cases h'
  have hhand : inHand B (m.shared.setHead (revealNext B m.shared.mem block))
      (if B.hardening then .onAlloc block else .unlock block) = [block] := by
    split
    · rfl
    · simp [inHand, hne]
  refine ⟨rest, I.change hI h L.dims (fun _ _ _ hb => hb) hmem (fun _ => hchain) ?_ ?_
    (fun a ha => by cases ha) ?_ ?_⟩
  · have S := I.shares.take t
    rw [show m.owned B t = (m.threads t).held by simp [Machine.owned, hpc, inHand]] at S
    rw [hhand]
    exact S
  · intro a ha
    exact I.freed a (List.mem_cons_of_mem _ ha)
  · dsimp only
    split
    · rename_i hh
      exact ⟨hh, hstamp⟩
    · rename_i hh
      exact fun _ hh' => absurd hh' hh
  · intro hc
    rw [hpc] at hc
    cases hc

theorem Listed.push (I : Listed B m free) (hI : Inv B m) (P : Placed B others m)
    (hpc : (m.threads t).pc = .storeBlock block)
    (h : Mutex.instr B t answer m.shared (m.threads t).pc = some o) :
    Listed B (m.move t o.shared ((m.threads t).after o)) (block :: free) := by
  have hmem := I.frame hI P h
  obtain ⟨pend, L, -⟩ := P
  have hL := I.threads t
  have hno := no_seed hI (t := t) (by rw [hpc]; rfl) (by simp [hpc])
  have hslot : block ∈ m.shared.pool.slots B :=
    I.owned_slot (t := t) (by rw [hpc]; exact List.mem_cons_self ..)
  have h' := h
  rw [hpc] at h' hL
  obtain ⟨hstamp, hlink⟩ := hL
  cases h'
  refine I.change hI h L.dims (fun _ _ _ hb => hb) hmem ?_ ?_ ?_ (fun a ha => by cases ha) trivial
    ?_
  · intro _
    exact (I.chain hno).push (L.slot_spec hslot).1 hlink fun _ _ => rfl
  · refine I.shares.give ?_
    simp [Machine.owned, hpc, inHand, Outcome.given]
  · intro a ha
    rcases List.mem_cons.mp ha with rfl | ha
    · exact hstamp
    · exact I.freed a ha
  · intro hc
    rw [hpc] at hc
    cases hc

theorem Listed.instr (I : Listed B m free) (hI : Inv B m) (P : Placed B others m)
    (W : WalksOn B m) (h : Mutex.instr B t answer m.shared (m.threads t).pc = some o)
    (hfor : ∀ t' b, (m.threads t').pc.walking = some b → b ∈ o.shared.pool.slots B →
      b ∈ m.shared.pool.slots B) :
    ∃ free', Listed B (m.move t o.shared ((m.threads t).after o)) free' := by
  have hmem := I.frame hI P h
  obtain ⟨pend, L, hF⟩ := id P
  have d := L.dims
  have hL := I.threads t
  have hin : ∀ b, inHand B m.shared (m.threads t).pc = [b] → b ∈ m.shared.pool.slots B :=
    fun b hb => I.owned_slot (t := t) (by rw [hb]; exact List.mem_cons_self ..)
  have h' := h
  cases hpc : (m.threads t).pc with
  | walkFirst b => exact ⟨free, I.walks hI P W (by rw [hpc]; rfl) h⟩
  | walkOverflow b => exact ⟨free, I.walks hI P W (by rw [hpc]; rfl) h⟩
  | walkBacking b chunk => exact ⟨free, I.walks hI P W (by rw [hpc]; rfl) h⟩
  | walkCount b chunk backing => exact ⟨free, I.walks hI P W (by rw [hpc]; rfl) h⟩
  | walkNext b chunk => exact ⟨free, I.walks hI P W (by rw [hpc]; rfl) h⟩
  | testHead =>
    have hno := no_seed hI (t := t) (by rw [hpc]; rfl) (by simp [hpc])
    rw [hpc] at h'
    cases h'
    refine ⟨free, I.onward hI P h hpc rfl rfl rfl rfl (fun _ => ⟨by simp, ?_⟩) ?_ ?_⟩
    · dsimp only
      (repeat' split) <;> simp
    · dsimp only
      (repeat' split) <;> rfl
    · dsimp only
      split
      · rename_i h0
        have hnil : free = [] := by
          have hc := I.chain hno
          rw [h0] at hc
          exact Chain.nil_iff.mp hc
        split
        · intro h00
          exact absurd rfl h00
        · exact hnil
      · rename_i h0
        rintro rfl
        exact h0 (I.chain hno).start_eq_nil
  | newBacking add =>
    rw [hpc] at h' hL
    obtain ⟨h1, h2, h3, h4⟩ := instr_newBacking h'
    have hslots : o.shared.pool.slots B = m.shared.pool.slots B := by rw [h1]
    have hhead : o.shared.pool.head.ptr = m.shared.pool.head.ptr := by rw [h1]
    rcases h4 with h4 | ⟨backing, h4⟩
    · exact ⟨free, I.onward hI P h hpc h4 hslots hhead h3 (fun _ => ⟨by simp, by simp⟩) rfl
        fun h00 => absurd rfl h00⟩
    · exact ⟨free, I.onward hI P h hpc h4 hslots hhead h3 (fun _ => ⟨by simp, by simp⟩) rfl hL⟩
  | newChunk add backing =>
    rw [hpc] at h' hL
    obtain ⟨h1, h2, h3, h4⟩ := instr_newChunk h'
    have hslots : o.shared.pool.slots B = m.shared.pool.slots B := by rw [h1]
    have hhead : o.shared.pool.head.ptr = m.shared.pool.head.ptr := by rw [h1]
    rcases h4 with h4 | ⟨chunk, h4⟩
    · exact ⟨free, I.onward hI P h hpc h4 hslots hhead h3 (fun _ => ⟨by simp, by simp⟩) rfl
        fun h00 => absurd rfl h00⟩
    · exact ⟨free, I.onward hI P h hpc h4 hslots hhead h3 (fun _ => ⟨by simp, by simp⟩) rfl hL⟩
  | initNext add backing chunk next =>
    simp only [PlacedFor, (hI.exclusive t).mp (by rw [hpc]; rfl)] at hF
    rw [hpc] at h' hL hF
    cases h'
    exact ⟨free, I.onward hI P h hpc rfl rfl rfl rfl (fun _ => ⟨by simp, by simp⟩) rfl
      ⟨hL, hF.1.count, fun i hi => absurd hi (Nat.not_lt_zero i)⟩⟩
  | initSlot add backing chunk i => exact ⟨free, I.initSlot hI P hpc h⟩
  | linkChunk backing chunk => exact ⟨_, I.link hI P hpc h hfor⟩
  | seedHead backing =>
    rw [hpc] at h' hL
    cases h'
    refine ⟨free, I.change hI h d (fun _ _ _ hb => hb) hmem (fun _ => hL.2) ?_ I.freed
      (fun a ha => by cases ha) hL.1 fun _ => rfl⟩
    refine I.shares.rearrange fun t' => ?_
    by_cases ht : t' = t
    · subst ht
      rw [Function.update_self, Machine.owned, hpc]
      exact .refl _
    · simp [ht]
  | loadHead =>
    have hhead := I.head_free (no_seed hI (t := t) (by rw [hpc]; rfl) (by simp [hpc]))
      (by rwa [hpc] at hL)
    rw [hpc] at h'
    cases h'
    exact ⟨free, I.onward hI P h hpc rfl rfl rfl rfl (fun _ => ⟨by simp, by simp⟩) rfl hhead.1⟩
  | loadLink b =>
    rw [hpc] at h' hL
    cases h'
    refine ⟨free, I.onward hI P h hpc rfl rfl rfl rfl (fun _ => ⟨by simp, by simp⟩) rfl ⟨hL, ?_⟩⟩
    show (readNext B m.shared.toWorld b).1 = revealNext B (readNext B m.shared.toWorld b).2.mem b
    rw [readNext_fst, readNext_mem]
  | storeHead b next => exact I.pop hI P hpc h
  | onAlloc b =>
    have hne := (L.slot_spec (hin b (by rw [hpc]; rfl))).1
    have hm := onAlloc_mem B m.shared.toWorld b m.shared.pool.blockSize
    rw [hpc] at h'
    simp only [Mutex.instr, Option.some.injEq] at h'
    subst h'
    refine ⟨free, I.onward hI P h hpc rfl rfl rfl rfl (fun _ => ⟨by simp, by simp⟩)
      (by simp [inHand, hne]) ?_⟩
    intro _ _
    show readGuard (MemoryPool.onAlloc B m.shared.toWorld b m.shared.pool.blockSize).mem b _ = _
    rw [hm]
    exact readGuard_writeGuard _ (by decide)
  | unlock b =>
    rw [hpc] at h' hL
    cases h'
    refine ⟨free, I.keep hI h d hmem rfl rfl (fun _ => ⟨by simp [hpc], by simp⟩)
      (by rw [hpc]; rfl) ?_ trivial⟩
    intro a ha
    simp only [Outcome.given] at ha
    split at ha
    · cases ha
    · rename_i hne
      obtain rfl := List.mem_singleton.mp ha
      exact hL hne
  | lockPush b =>
    rw [hpc] at h' hL
    simp only [Mutex.instr] at h'
    split at h'
    · cases h'
    · cases h'
      refine ⟨free, I.onward hI P h hpc rfl rfl rfl rfl (fun _ => ⟨by simp, ?_⟩) ?_ ?_⟩
      · dsimp only
        split <;> simp
      · dsimp only
        split <;> rfl
      · dsimp only
        split
        · rename_i hh
          exact ⟨hh, hL⟩
        · rename_i hh
          exact fun hh' => absurd hh' hh
  | onFree b =>
    rw [hpc] at h' hL
    obtain ⟨hh, hs⟩ := hL
    simp only [Mutex.instr, onFree_allocated (hs hh)] at h'
    cases h'
    exact ⟨free, I.onward hI P h hpc rfl rfl rfl rfl (fun _ => ⟨by simp, by simp⟩) rfl
      fun _ => ⟨freedMem_guard B _ b _, freedMem_poisoned B _ b _⟩⟩
  | pushHead b =>
    rw [hpc] at h' hL
    cases h'
    exact ⟨free, I.onward hI P h hpc rfl rfl rfl rfl (fun _ => ⟨by simp, by simp⟩) rfl ⟨hL, rfl⟩⟩
  | pushLink b head =>
    have hlt := (L.slot_spec (hin b (by rw [hpc]; rfl))).2.2
    have hno := no_seed hI (t := t) (by rw [hpc]; rfl) (by simp [hpc])
    have hhead : m.shared.pool.head.ptr < B.modulus := by
      by_cases h0 : m.shared.pool.head.ptr = 0
      · rw [h0]; exact B.modulus_pos
      · obtain ⟨rest, rfl, -⟩ := (I.chain hno).eq_cons h0
        have := (L.slot_spec (I.shares.free_mem (List.mem_cons_self ..))).2.2
        omega
    rw [hpc] at h' hL
    obtain ⟨hstamp, rfl⟩ := hL
    cases h'
    exact ⟨free, I.onward hI P h hpc rfl rfl rfl rfl (fun _ => ⟨by simp, by simp⟩) rfl
      ⟨hstamp.writeNext d.link, revealNext_writeNext _ (by omega) hhead⟩⟩
  | storeBlock b => exact ⟨_, I.push hI P hpc h⟩
  | _ =>
    rw [hpc] at h' hL
    simp only [Mutex.instr] at h'
    (repeat' split at h') <;> cases h' <;>
      refine ⟨free, I.onward hI P h hpc rfl rfl rfl rfl
        (fun _ => ⟨by simp, by simp [noGrowth]⟩) rfl ?_⟩ <;>
      first | exact hL | exact fun h00 => absurd rfl h00

/-! ## The steps -/

theorem Listed.call (I : Listed B m free) (hidle : (m.threads t).pc = .idle) {th : Thread}
    (hown : (inHand B m.shared th.pc ++ th.held).Perm (m.threads t).held)
    (hheld : ∀ a ∈ th.held, a ∈ (m.threads t).held)
    (hP : PcList B m.shared free th.pc) :
    Listed B (m.move t m.shared th) free := by
  refine ⟨fun hno => I.chain fun t' backing => ?_, ?_, I.freed, fun t' => ?_, fun t' => ?_⟩
  · by_cases ht : t' = t
    · rw [ht, hidle]
      exact Pc.noConfusion
    · simpa [Machine.move, ht] using hno t' backing
  · refine I.shares.rearrange fun t' => ?_
    by_cases ht : t' = t
    · subst ht
      simp only [Machine.owned, Machine.move, Function.update_self, hidle]
      exact hown
    · simp [Machine.owned, Machine.move, ht]
  · by_cases ht : t' = t
    · subst ht
      simpa [Machine.move] using fun a ha => I.vended t' a (hheld a ha)
    · simpa [Machine.move, ht] using I.vended t'
  · by_cases ht : t' = t
    · subst ht
      simpa [Machine.move] using hP
    · simpa [Machine.move, ht] using I.threads t'

theorem Listed.handIn (I : Listed B m free) (hidle : (m.threads t).pc = .idle)
    (hb : block ∈ (m.threads t).held ∨ block ∉ m.shared.pool.slots B) :
    Listed B (m.move t m.shared ⟨.walkFirst block, (m.threads t).held.erase block⟩) free := by
  refine I.call hidle ?_ (fun a ha => List.mem_of_mem_erase ha) ?_
  · rcases hb with hb | hb
    · simpa only [inHand, if_pos (I.held_slot hb), List.singleton_append] using
        (List.perm_cons_erase hb).symm
    · have hno : block ∉ (m.threads t).held := fun hh => hb (I.held_slot hh)
      simp [inHand, hb, List.erase_of_not_mem hno]
  · intro hs
    exact I.vended t block (hb.resolve_right fun hno => hno hs)

theorem Listed.step {e : Event τ} (I : Listed B m free) (hI : Inv B m) (P : Placed B others m)
    (W : WalksOn B m) (hH : Honest B m e m') (h : Step B m e m') :
    ∃ free', Listed B m' free' := by
  cases h with
  | @alloc t hidle =>
    exact ⟨free, I.call hidle (.refl _) (fun _ ha => ha) trivial⟩
  | @free t block hidle _ => exact ⟨free, I.handIn hidle (hH.frees t block rfl)⟩
  | instr h => exact I.instr hI P W h hH.foreign
  | write hheld hl hu => exact ⟨free, I.write hI P hheld hl hu _⟩

theorem WalksOn.step {e : Event τ} (hI : Inv B m) (P : Placed B others m) (W : WalksOn B m)
    (hH : Honest B m e m') (h : Step B m e m') : WalksOn B m' := by
  intro t'
  refine ⟨readRight_step hI (fun t => (W t).1) h t', ?_⟩
  intro b hw hb
  cases h with
  | @alloc t hidle =>
    by_cases ht : t' = t
    · subst ht
      simp [Machine.move, Pc.walking] at hw
    · simp only [Machine.move, Function.update_of_ne ht] at hw ⊢
      exact (W t').2 b hw hb
  | @free t block hidle _ =>
    by_cases ht : t' = t
    · subst ht
      simp [Machine.move, OnWay]
    · simp only [Machine.move, Function.update_of_ne ht] at hw ⊢
      exact (W t').2 b hw hb
  | write _ _ _ => exact (W t').2 b hw hb
  | @instr t answer o h =>
    obtain ⟨pend, L, -⟩ := P
    by_cases ht : t' = t
    · subst ht
      simp only [Machine.move, Function.update_self, Thread.after] at hw hb ⊢
      have hw' := instr_walking h hw
      rw [(instr_walk hw' h).1] at hb
      rcases instr_onWay L hI.linked (W t').1 hb hw' ((W t').2 b hw' hb) h with hl | ⟨-, hl⟩
      · rw [hl] at hw
        cases hw
      · exact hl
    · have hfor := hH.foreign t' b
      simp only [Machine.move, Function.update_of_ne ht] at hw hb hfor ⊢
      exact ((W t').2 b hw (hfor hw hb)).other (hI.threads t') (hI.threads t) h

theorem Kept.of_run {es : List (Event τ)} (K : Kept B others m)
    (h : ((lts B τ).restrict (Honest B)).Run m es m') : Kept B others m' := by
  refine h.invariant (I := Kept B others) ?_ K
  rintro d e d' ⟨hI, P, W, free, hL⟩ ⟨hH, hs⟩
  exact ⟨hI.step hs, P.step hI hs, W.step hI P hH hs, hL.step hI P W hH hs⟩

/-- Threads that free only what they hold are honest: what they look for is a slot all along. -/
theorem Kept.honest {es : List (Event τ)} (K : Kept B others m)
    (hw : ∀ t b, (m.threads t).pc.walking = some b → b ∈ m.shared.pool.slots B)
    (h : ((lts B τ).guard FreesHeld).Run m es m') :
    ((lts B τ).restrict (Honest B)).Run m es m' := by
  suffices ((lts B τ).restrict (Honest B)).Run m es m' ∧
      ∀ t b, (m'.threads t).pc.walking = some b → b ∈ m'.shared.pool.slots B from this.1
  induction h with
  | nil => exact ⟨.nil, hw⟩
  | @snoc d d' es e _ hs ih =>
    obtain ⟨hrun, hd⟩ := ih
    obtain ⟨hfree, hs⟩ := hs
    obtain ⟨-, -, -, free, I⟩ := K.of_run hrun
    have hH : Honest B d e d' := by
      refine ⟨fun t block he => Or.inl ?_, fun t block hb _ => hd t block hb⟩
      subst he
      exact hfree
    refine ⟨.snoc hrun ⟨hH, hs⟩, fun t' b hb => ?_⟩
    cases hs with
    | @alloc t _ =>
      by_cases ht : t' = t
      · subst ht
        simp [Machine.move, Pc.walking] at hb
      · exact hd t' b (by simpa [Machine.move, ht] using hb)
    | @free t block _ _ =>
      by_cases ht : t' = t
      · subst ht
        obtain rfl : block = b := by simpa [Machine.move, Pc.walking] using hb
        exact I.held_slot hfree
      · exact hd t' b (by simpa [Machine.move, ht] using hb)
    | write _ _ _ => exact hd t' b hb
    | @instr t answer o h =>
      by_cases ht : t' = t
      · subst ht
        simp only [Machine.move, Function.update_self, Thread.after] at hb ⊢
        exact slots_step h (hd t' b (instr_walking h hb))
      · simp only [Machine.move, Function.update_of_ne ht] at hb ⊢
        exact slots_step h (hd t' b hb)

end Steps

/-! ## Frees under way -/

/-- The block that a thread has passed to a `memory_pool_free` that has not stored it yet. -/
def Pc.freeing : Pc → Option Nat
  | .walkFirst block | .walkOverflow block | .walkBacking block _ | .walkCount block _ _
  | .walkNext block _ | .lockPush block | .onFree block | .pushHead block | .pushLink block _
  | .storeBlock block => some block
  | _ => none

section Frees

variable {τ : Type*} {B : Build} {t : τ} {answer : Option Nat} {m m' : Machine τ} {o : Outcome τ}
  {others : List (Nat × Region)} {free : List Nat} {block : Nat}

/-- What was passed to a free and is one of the pool's blocks. -/
def Machine.passed (B : Build) (m : Machine τ) (t : τ) : List Nat :=
  ((m.threads t).pc.freeing.filter (· ∈ m.shared.pool.slots B)).toList

theorem Listed.passed (I : Listed B m free) (hc : (m.threads t).pc.critical = false) :
    m.passed B t = inHand B m.shared (m.threads t).pc := by
  have hin : ∀ b, inHand B m.shared (m.threads t).pc = [b] → b ∈ m.shared.pool.slots B :=
    fun b hb => I.owned_slot (t := t) (by rw [hb]; exact List.mem_cons_self ..)
  unfold Machine.passed
  cases hw : (m.threads t).pc.walking with
  | some b =>
    have hf : (m.threads t).pc.freeing = some b := by
      cases hpc : (m.threads t).pc <;> rw [hpc] at hw <;> cases hw <;> rfl
    rw [inHand_walking hw, hf]
    by_cases hb : b ∈ m.shared.pool.slots B <;> simp [hb, Option.filter]
  | none =>
    cases hpc : (m.threads t).pc with
    | idle => rfl
    | lock => rfl
    | lockPush b =>
      have hb := hin b (by rw [hpc]; rfl)
      simp [Pc.freeing, inHand, hb, Option.filter]
    | _ =>
      rw [hpc] at hc hw
      simp [Pc.critical, Pc.walking] at hc hw

/-- A free of one of the pool's blocks never loses it. -/
theorem Kept.freeing (K : Kept B others m) (hf : (m.threads t).pc.freeing = some block)
    (hb : block ∈ m.shared.pool.slots B)
    (h : Mutex.instr B t answer m.shared (m.threads t).pc = some o) :
    o.pc.freeing = some block ∨
      (m.threads t).pc = .storeBlock block ∧ o.shared.pool.head.ptr = block := by
  obtain ⟨hI, ⟨pend, L, -⟩, W, free, I⟩ := K
  cases hw : (m.threads t).pc.walking with
  | some b =>
    have hbb : b = block := by
      cases hpc : (m.threads t).pc <;> rw [hpc] at hw hf <;> cases hw <;> cases hf <;> rfl
    subst hbb
    left
    rcases instr_onWay L hI.linked (W t).1 hb hw ((W t).2 b hw hb) h with hl | ⟨hl, -⟩
    · rw [hl]
      rfl
    · cases hpc : o.pc <;> rw [hpc] at hl <;> cases hl <;> rfl
  | none =>
    have hP := I.threads t
    cases hpc : (m.threads t).pc with
    | lockPush b =>
      rw [hpc] at h hf
      cases hf
      simp only [Mutex.instr] at h
      split at h <;> cases h
      left
      dsimp only
      split <;> rfl
    | onFree b =>
      rw [hpc] at h hf hP
      cases hf
      simp only [Mutex.instr, onFree_allocated (hP.2 hP.1)] at h
      cases h
      exact Or.inl rfl
    | pushHead b => rw [hpc] at h hf; cases h; exact Or.inl hf
    | pushLink b head => rw [hpc] at h hf; cases h; exact Or.inl hf
    | storeBlock b =>
      rw [hpc] at h hf
      cases h
      cases hf
      exact Or.inr ⟨rfl, rfl⟩
    | _ =>
      rw [hpc] at hw hf
      simp [Pc.walking, Pc.freeing] at hw hf

end Frees

/-! ## A free that overlaps a growth -/

def honestly (B : Build) (m : Machine Bool) (e : Event Bool) (m' : Machine Bool) : Bool :=
  (match e with
    | .free t block =>
      decide (block ∈ (m.threads t).held ∨ block ∉ m.shared.pool.slots B)
    | _ => true) &&
  [false, true].all fun t => match (m.threads t).pc.walking with
    | some block => decide (block ∈ m'.shared.pool.slots B → block ∈ m.shared.pool.slots B)
    | none => true

theorem Honest.of_honestly {B : Build} {m m' : Machine Bool} {e : Event Bool}
    (h : honestly B m e m' = true) : Honest B m e m' := by
  obtain ⟨h1, h2⟩ := (Bool.and_eq_true _ _).mp h
  constructor
  · rintro t block rfl
    simpa using h1
  · intro t block hw
    have ht := List.all_eq_true.mp h2 t (by cases t <;> simp)
    rw [hw] at ht
    exact of_decide_eq_true ht

def execHonest (B : Build) (m : Machine Bool) (e : Event Bool) :
    Option (Event Bool × Machine Bool) :=
  (exec B m e).filter fun r => honestly B m r.1 r.2

theorem execHonest_step {B : Build} (m : Machine Bool) (i e : Event Bool) (m' : Machine Bool)
    (h : execHonest B m i = some (e, m')) : ((lts B Bool).restrict (Honest B)).step m e m' := by
  obtain ⟨h1, h2⟩ := Option.filter_eq_some_iff.mp h
  exact ⟨.of_honestly h2, (exec_step m i e m' h1).2⟩

/-- The growth is completed while the free is between its test of the first chunk and its read of
`overflow_`. -/
def overtakenFree : List (Event Bool) :=
  freeWhileGrowing 0x2000 ++ go true (List.replicate 7 none) ++ go false (List.replicate 6 none)

theorem overtaken_run : ∃ m, ((lts (Build.x64 false .mutex) Bool).restrict
    (Honest (Build.x64 false .mutex))).Run growingMachine overtakenFree m ∧
      (m.shared.owner, (m.threads false).pc, (m.threads true).held) =
        (none, .lockPush 0x2000, [0x3000]) := by
  have h : (Lts.script (execHonest (Build.x64 false .mutex)) growingMachine overtakenFree).map
      (fun r => (r.1, r.2.shared.owner, (r.2.threads false).pc, (r.2.threads true).held)) =
      some (overtakenFree, none, .lockPush 0x2000, [0x3000]) := by decide +kernel
  exact Lts.script_run execHonest_step
    (fun m : Machine Bool => (m.shared.owner, (m.threads false).pc, (m.threads true).held)) h

end Mutex

section Theorems

open Mutex LinkedList

/-- MUTEX build, dynamic pool, any number of threads and any interleaving of the reads of the walk
with the writes of `grow_pool`. In every run, the walk of a `memory_pool_free` always has a next
instruction, ends after a number of its own instructions bounded by the chunks there are, and
answers true for slots only. In every run of honest threads (threads that free what they hold are) a
free of a held block keeps it until it has stored it into `head_`, and whenever nobody holds the
mutex the free list, the blocks passed to unfinished frees and the held blocks partition the
slots. -/
theorem held_block_accepted {τ : Type*} [DecidableEq τ] {B : Build} {env : Env} {w w' : World}
    {blockSize blockCount growthFactor : Nat} {p : PoolStruct}
    (hr : (CreateCall.dynamic blockSize blockCount growthFactor).InRange B)
    (hcreate : memoryPoolCreateDynamic B env w blockSize blockCount growthFactor = (some p, w')) :
    (∀ (es : List (Event τ)) m, (lts B τ).Run (.start ⟨w', p⟩) es m →
      ∀ t block, (m.threads t).pc.walking = some block →
        (∀ answer, ∃ o, instr B t answer m.shared (m.threads t).pc = some o) ∧
        (∀ answer o, instr B t answer m.shared (m.threads t).pc = some o →
          o.pc.walking = some block ∨ o.pc = .idle ∨
            o.pc = .lockPush block ∧ block ∈ m.shared.pool.slots B) ∧
        ∀ es₁ es₂, es = es₁ ++ .free t block :: es₂ → (∀ e ∈ es₂, e.isCall t = false) →
          es₂.countP (Event.isInstr t) < 3 * m.shared.pool.chunks.length) ∧
    (∀ (es : List (Event τ)) m, ((lts B τ).guard FreesHeld).Run (.start ⟨w', p⟩) es m →
      ((lts B τ).restrict (Honest B)).Run (.start ⟨w', p⟩) es m) ∧
    ∀ (es : List (Event τ)) m, ((lts B τ).restrict (Honest B)).Run (.start ⟨w', p⟩) es m →
      (∀ t, ∀ block ∈ (m.threads t).held, block ∈ m.shared.pool.slots B) ∧
      (∀ t block answer o, (m.threads t).pc.freeing = some block →
        block ∈ m.shared.pool.slots B →
        instr B t answer m.shared (m.threads t).pc = some o →
          o.pc.freeing = some block ∨
            (m.threads t).pc = .storeBlock block ∧ o.shared.pool.head.ptr = block) ∧
      (m.shared.owner = none → ∃ free,
        Chain (revealNext B m.shared.mem) 0 m.shared.pool.head.ptr free ∧
        Shares (m.shared.pool.slots B) free fun t => m.passed B t ++ (m.threads t).held) := by
  have C := CreateCall.created hr hcreate
  refine ⟨?_, fun es m hrun =>
    (Kept.start C.overflow C.inv).honest (fun t b hw => by cases hw) hrun, ?_⟩
  · intro es m hrun t block hw
    obtain ⟨hI, P, hR⟩ : Inv B m ∧ Placed B w.heap.ledger.live m ∧
        ∀ t, ReadRight m.shared (m.threads t).pc := by
      refine hrun.invariant (I := fun d => Inv B d ∧ Placed B w.heap.ledger.live d ∧
        ∀ t, ReadRight d.shared (d.threads t).pc) ?_
        ⟨Inv.start C.overflow, .start C.inv.layout, fun _ => trivial⟩
      rintro d e d' ⟨hd, hP, hR⟩ hs
      exact ⟨hd.step hs, hP.step hd hs, readRight_step hd hR hs⟩
    refine ⟨fun answer => walk_enabled (by simp [hw]), fun answer o h => ?_, ?_⟩
    · rcases (instr_walk hw h).2.2 with hl | hl | hl
      · exact Or.inl hl
      · exact Or.inr (Or.inr ⟨hl, (walk_accepts_slot hI P (hR t) h hl).1⟩)
      · exact Or.inr (Or.inl hl)
    · rintro es₁ es₂ rfl hno
      obtain ⟨m₁, hr₁, hr₂⟩ := hrun.append_inv
      obtain ⟨m₂, hcall, hr₂⟩ := (show (lts B τ).Run m₁ ([.free t block] ++ es₂) m from
        hr₂).append_inv
      have hs := hcall.single_inv
      have hI₂ := ((Inv.start C.overflow).along hr₁).step hs
      cases hs with
      | free hidle _ =>
        have hfirst : ((m₁.move t m₁.shared ⟨.walkFirst block,
            (m₁.threads t).held.erase block⟩).threads t).pc = .walkFirst block := by
          simp [Machine.move]
        obtain ⟨n, hleft, hn⟩ := walk_budget hI₂ hfirst hr₂ hno (by simp [hw])
        have hpos := hleft.pos (by simp [hw])
        simp only [PoolStruct.chunks, List.length_cons, List.length_map]
        omega
  · intro es m hrun
    have K := (Kept.start (τ := τ) C.overflow C.inv).of_run hrun
    obtain ⟨hI, -, -, free, I⟩ := id K
    refine ⟨fun t block hb => I.held_slot hb, fun t block answer o hf hb h => K.freeing hf hb h, ?_⟩
    intro ho
    have hc : ∀ t, (m.threads t).pc.critical = false := by
      intro t
      by_contra hcc
      rw [(hI.exclusive t).mp (by simpa using hcc)] at ho
      cases ho
    refine ⟨free, I.chain fun t backing hs => ?_, I.shares.rearrange fun t => ?_⟩
    · have h := hc t
      rw [hs] at h
      cases h
    · rw [I.passed (hc t)]
      exact .refl _

theorem held_block_accepted_x64 :
    ∃ m : Machine Bool, m.shared.owner = none ∧ (m.threads false).pc = .lockPush 0x2000 ∧
      (m.threads true).held = [0x3000] ∧
      ∃ free, Chain (revealNext (Build.x64 false .mutex) m.shared.mem) 0 m.shared.pool.head.ptr
          free ∧
        Shares (m.shared.pool.slots (Build.x64 false .mutex)) free fun t =>
          m.passed (Build.x64 false .mutex) t ++ (m.threads t).held := by
  obtain ⟨m, hrun, hm⟩ := overtaken_run
  obtain ⟨ho, hfree, hheld⟩ : _ ∧ _ ∧ _ := by simpa using hm
  have hcreate : memoryPoolCreateDynamic (Build.x64 false .mutex) firstEnv World.start 16 1 2 =
      (some firstPool, (firstClient (Build.x64 false .mutex)).pool.toWorld) :=
    firstCall_run false .mutex (by decide)
  exact ⟨m, ho, hfree, hheld, ((held_block_accepted (by decide) hcreate).2.2 _ m hrun).2.2 ho⟩

end Theorems

end MemoryPool
