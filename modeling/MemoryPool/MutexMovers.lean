import MemoryPool.MutexAlone
import MemoryPool.MutexList

/-!
# MemoryPool.MutexMovers

What the holders of blocks write commutes with the critical section of another thread. An
instruction reads and writes slots that its call has in hand, that are free or that belong to a
chunk which is not linked yet; a byte of a held block is none of these (`instr_write`).

So the instructions a thread has executed under the mutex, taken back to back from the state in
which it got the mutex, still lead to where it is when a byte is written in both states
(`Alone.write`).
-/

namespace MemoryPool

namespace Mutex

open ByteMem LinkedList

section Write

variable {τ : Type*}

def Shared.setByte (s : Shared τ) (addr : Nat) (byte : UInt8) : Shared τ :=
  s.setMem (set s.mem addr byte)

variable {B : Build} {t : τ} {answer : Option Nat} {s : Shared τ} {pc : Pc} {o : Outcome τ}
  {pend others : List (Nat × Region)} {free : List Nat} {block addr : Nat}

theorem operatorNew_setMem (B : Build) (w : World) (kind : RegionKind) (bytes align : Nat)
    (answer : Option Nat) (mem : Mem) :
    World.operatorNew B { w with mem := mem } kind bytes align answer =
      ((w.operatorNew B kind bytes align answer).1,
        { (w.operatorNew B kind bytes align answer).2 with mem := mem }) := by
  unfold World.operatorNew
  cases answer with
  | none => rfl
  | some base =>
    dsimp only
    split <;> rfl

theorem readNext_setMem {w : World} {slot : Nat} {mem : Mem}
    (h : revealNext B mem slot = revealNext B w.mem slot) :
    readNext B { w with mem := mem } slot =
      ((readNext B w slot).1, { (readNext B w slot).2 with mem := mem }) := by
  simp only [readNext, h]
  split <;> rfl

/-- An instruction and a write into a block that it has nothing to do with, in either order. -/
theorem instr_write (L : Layout B s.toState (pend ++ others)) (hP : PcPlaced B s pend pc)
    (hL : PcList B s free pc) (hin : ∀ b ∈ inHand B s pc, b ∈ s.pool.slots B)
    (hfree : ∀ b ∈ free, b ∈ s.pool.slots B) (hblock : block ∈ s.pool.slots B)
    (hno : block ∉ inHand B s pc) (hnf : block ∉ free) (hl : block ≤ addr)
    (hu : addr < block + s.pool.blockSize) (byte : UInt8) (h : instr B t answer s pc = some o) :
    instr B t answer (s.setByte addr byte) pc =
      some { o with shared := o.shared.setByte addr byte } := by
  have d := L.dims
  have hlink := d.link
  have hsize := d.block
  have hapart : ∀ b ∈ s.pool.slots B, b ≠ block →
      addr < b ∨ b + slotStride B s.pool.blockSize ≤ addr := by
    intro b hb hne
    have := L.slots_apart hb hblock hne
    omega
  have hsame : ∀ b ∈ s.pool.slots B, b ≠ block →
      SameOn s.mem (set s.mem addr byte) b (slotStride B s.pool.blockSize) := by
    intro b hb hne x hx hx'
    have := hapart b hb hne
    exact set_other (by omega)
  have hown : ∀ b, inHand B s pc = [b] → b ∈ s.pool.slots B ∧ b ≠ block := by
    intro b hb
    refine ⟨hin b (by rw [hb]; exact List.mem_cons_self ..), ?_⟩
    rintro rfl
    exact hno (by rw [hb]; exact List.mem_cons_self ..)
  cases pc with
  | newBacking add =>
    have hnew := operatorNew_setMem B s.toWorld .backing (B.mul add (slotStride B s.pool.blockSize))
      B.poolAlignment answer (set s.mem addr byte)
    simp only [instr, Shared.setByte, Shared.setMem] at h ⊢
    rw [hnew]
    rcases World.operatorNew_cases B s.toWorld .backing (B.mul add (slotStride B s.pool.blockSize))
      B.poolAlignment answer with he | ⟨base, ha, he⟩
    · rw [he] at h ⊢
      cases h
      rfl
    · rw [he] at h ⊢
      cases h
      rfl
  | newChunk add backing =>
    have hnew := operatorNew_setMem B s.toWorld .chunkNode B.sizeofChunk B.ptrBytes answer
      (set s.mem addr byte)
    simp only [instr, Shared.setByte, Shared.setMem] at h ⊢
    rw [hnew]
    rcases World.operatorNew_cases B s.toWorld .chunkNode B.sizeofChunk B.ptrBytes answer with
      he | ⟨base, ha, he⟩
    · rw [he] at h ⊢
      cases h
      rfl
    · rw [he] at h ⊢
      cases h
      rfl
  | initSlot add backing chunk i =>
    obtain ⟨⟨⟨hpos, hne, -, hfit⟩, hreg⟩, -⟩ := hP
    have hi : i < add := hL.2.1
    have hchunk : block + slotStride B s.pool.blockSize ≤ backing ∨
        backing + slotStride B s.pool.blockSize * add ≤ block := by
      have hmem : (⟨.backing, backing, slotStride B s.pool.blockSize * add⟩ : Region) ∈
          pend.map Prod.snd := by
        rw [hreg]
        simp
      obtain ⟨e, he, heq⟩ := List.mem_map.mp hmem
      have hap := L.slot_apart_other hblock (List.mem_append_left _ he)
      rwa [heq] at hap
    have hslot : ∀ j next, j < add →
        MemoryPool.initSlot B (set s.mem addr byte)
          (B.add backing (B.mul j (slotStride B s.pool.blockSize))) next s.pool.blockSize =
        set (MemoryPool.initSlot B s.mem
          (B.add backing (B.mul j (slotStride B s.pool.blockSize))) next s.pool.blockSize)
          addr byte := by
      intro j next hj
      rw [(slotAddr_eq (by omega) hfit).1]
      have hle := Nat.mul_le_mul_right (slotStride B s.pool.blockSize) (show j + 1 ≤ add from hj)
      rw [Nat.add_mul, Nat.one_mul, Nat.mul_comm add] at hle
      exact initSlot_set d (by omega)
    simp only [instr, Shared.setByte, Shared.setMem] at h ⊢
    split at h
    · rename_i hlt
      rw [if_pos hlt, hslot i _ hi]
      cases h
      rfl
    · rename_i hlt
      rw [if_neg hlt, hslot (add - 1) _ (by omega)]
      cases h
      rfl
  | loadLink b =>
    have hb : b ∈ free := List.mem_of_mem_head? hL
    have hne : b ≠ block := by
      rintro rfl
      exact hnf hb
    have hnew := readNext_setMem (w := s.toWorld)
      (revealNext_same d (hsame b (hfree b hb) hne))
    simp only [instr, Shared.setByte, Shared.setMem] at h ⊢
    rw [hnew]
    cases h
    simp only [Shared.setWorld, readNext_mem]
  | onAlloc b =>
    obtain ⟨hb, hne⟩ := hown b rfl
    have hguard := d.guard hL.1
    have hap := hapart b hb hne
    obtain ⟨hg, hp⟩ := hL.2 hL.1
    have hpool : (s.setByte addr byte).pool = s.pool := rfl
    have hvended' : MemoryPool.onAlloc B (s.setByte addr byte).toWorld b s.pool.blockSize =
        { s.toWorld with
          mem := set (writeGuard s.mem b s.pool.blockSize guardAllocated) addr byte } := by
      obtain ⟨hg', hp'⟩ := (hL.2.same d (hsame b hb hne)) hL.1
      rw [← writeGuard_set (by omega)]
      exact onAlloc_freed (w := (s.setByte addr byte).toWorld) hg' hp'
    simp only [instr, onAlloc_freed (w := s.toWorld) hg hp] at h
    simp only [instr, hpool, hvended']
    cases h
    rfl
  | onFree b =>
    obtain ⟨hb, hne⟩ := hown b rfl
    have hguard := d.guard hL.1
    have hap := hapart b hb hne
    have hfreed := onFree_allocated (B := B) (w := s.toWorld) (hL.2 hL.1)
    have hfreed' : MemoryPool.onFree B (s.setByte addr byte).toWorld b s.pool.blockSize =
        (true, { s.toWorld with
          mem := set (freedMem B s.mem b s.pool.blockSize) addr byte }) := by
      rw [← freedMem_set hlink (by omega)]
      exact onFree_allocated ((hL.2.same d (hsame b hb hne)) hL.1)
    have hpool : (s.setByte addr byte).pool = s.pool := rfl
    simp only [instr, hfreed] at h
    simp only [instr, hpool, hfreed']
    cases h
    rfl
  | pushLink b head =>
    obtain ⟨hb, hne⟩ := hown b rfl
    have hap := hapart b hb hne
    simp only [instr, Shared.setByte, Shared.setMem] at h ⊢
    rw [writeNext_set (by omega)]
    cases h
    rfl
  | _ =>
    simp only [instr, Shared.setByte, Shared.setMem] at h ⊢
    (repeat' split at h) <;> cases h <;> simp [Shared.setOwner, Shared.setNode, Shared.setHead,
      Shared.link, State.setHead, noGrowth, *]

end Write

/-! ## A thread and the blocks of the others -/

section Solo

variable {τ : Type*} {B : Build} {env : Env} {t : τ} {m : Machine τ}
  {others : List (Nat × Region)} {free : List Nat} {block addr : Nat}

/-- The other threads are outside the calls. -/
def Lone (m : Machine τ) (t : τ) : Prop := ∀ u ≠ t, (m.threads u).pc = .idle

theorem Lone.placed {pend : List (Nat × Region)} (hlone : Lone m t) (hI : Inv B m)
    (hF : PlacedFor B m pend) : PcPlaced B m.shared pend (m.threads t).pc := by
  unfold PlacedFor at hF
  cases ho : m.shared.owner with
  | some u =>
    rw [ho] at hF
    have hc := (hI.exclusive u).mpr ho
    by_cases hu : u = t
    · subst hu
      exact hF
    · rw [hlone u hu] at hc
      cases hc
  | none =>
    rw [ho] at hF
    refine (PcPlaced.outside ?_).mpr hF
    by_contra hc
    have := (hI.exclusive t).mp (by simpa using hc)
    rw [ho] at this
    cases this

theorem Listed.owned_stamped (I : Listed B m free) {u : τ}
    (hc : (m.threads u).pc.critical = false) {a : Nat} (ha : a ∈ m.owned B u) :
    StampedHeld B m.shared.mem a m.shared.pool.blockSize := by
  rcases List.mem_append.mp ha with ha | ha
  · have hP := I.threads u
    cases hw : (m.threads u).pc.walking with
    | some b =>
      rw [PcList.walking hw] at hP
      rw [inHand_walking hw] at ha
      split at ha
      · rename_i hb
        obtain rfl := List.mem_singleton.mp ha
        exact hP hb
      · cases ha
    | none =>
      cases hpc : (m.threads u).pc with
      | lockPush b =>
        rw [hpc] at ha hP
        obtain rfl := List.mem_singleton.mp ha
        exact hP
      | idle => rw [hpc] at ha; cases ha
      | lock => rw [hpc] at ha; cases ha
      | _ =>
        rw [hpc] at hc hw
        simp [Pc.critical, Pc.walking] at hc hw
  · exact I.vended u a ha

variable [DecidableEq τ]

/-- The machine in which the threads but `t` are outside the calls and hold what was theirs. -/
def Machine.solo (B : Build) (m : Machine τ) (t : τ) : Machine τ :=
  ⟨m.shared, fun u => if u = t then m.threads t else ⟨.idle, m.owned B u⟩⟩

theorem Machine.solo_self (m : Machine τ) (t : τ) : (m.solo B t).threads t = m.threads t :=
  if_pos rfl

theorem Machine.solo_other (m : Machine τ) {t u : τ} (hu : u ≠ t) :
    (m.solo B t).threads u = ⟨.idle, m.owned B u⟩ := if_neg hu

theorem Machine.solo_owned (m : Machine τ) (t u : τ) : (m.solo B t).owned B u = m.owned B u := by
  unfold Machine.owned
  by_cases hu : u = t
  · subst hu
    rw [Machine.solo_self]
    rfl
  · rw [Machine.solo_other m hu]
    rfl

theorem Kept.solo (K : Kept B others m) (hfree : m.shared.owner = none) :
    Kept B others (m.solo B t) := by
  obtain ⟨hI, ⟨pend, L, hF⟩, W, free, I⟩ := K
  have hout : ∀ u, (m.threads u).pc.critical = false := by
    intro u
    by_contra hc
    have := (hI.exclusive u).mp (by simpa using hc)
    rw [hfree] at this
    cases this
  have hcases : ∀ (P : Thread → Prop), (∀ u, P ⟨.idle, m.owned B u⟩) → P (m.threads t) →
      ∀ u, P ((m.solo B t).threads u) := by
    intro P hidle ht u
    by_cases hu : u = t
    · subst hu
      rw [Machine.solo_self]
      exact ht
    · rw [Machine.solo_other m hu]
      exact hidle u
  refine ⟨⟨fun u => ?_, hI.linked, ?_⟩, ⟨pend, L, ?_⟩, ?_, free, ?_, ?_, I.freed, ?_, ?_⟩
  · have hc : ((m.solo B t).threads u).pc.critical = false :=
      hcases (fun th => th.pc.critical = false) (fun _ => rfl) (hout t) u
    show _ ↔ m.shared.owner = some u
    simp [hc, hfree]
  · exact hcases (fun th => PcInv B m.shared th.pc) (fun _ => trivial) (hI.threads t)
  · unfold PlacedFor at hF ⊢
    simp only [Machine.solo, hfree] at hF ⊢
    exact hF
  · refine hcases (fun th => ReadRight m.shared th.pc ∧ ∀ b, th.pc.walking = some b →
      b ∈ m.shared.pool.slots B → OnWay B m.shared b th.pc) (fun _ => ⟨trivial, ?_⟩) (W t)
    intro b hw
    cases hw
  · intro _
    refine I.chain fun u backing hs => ?_
    have := hout u
    rw [hs] at this
    cases this
  · have howned : (m.solo B t).owned B = m.owned B := funext (m.solo_owned t)
    rw [howned]
    exact I.shares
  · exact hcases (fun th => ∀ a ∈ th.held, StampedHeld B m.shared.mem a m.shared.pool.blockSize)
      (fun u a ha => I.owned_stamped (hout u) ha) (I.vended t)
  · exact hcases (fun th => PcList B m.shared free th.pc) (fun _ => trivial) (I.threads t)

theorem Lone.solo (m : Machine τ) (t : τ) : Lone (m.solo B t) t := by
  intro u hu
  rw [Machine.solo_other m hu]

theorem Kept.write (K : Kept B others m) {u : τ} (hheld : block ∈ (m.threads u).held)
    (hl : block ≤ addr) (hu : addr < block + m.shared.pool.blockSize) (byte : UInt8) :
    Kept B others { m with shared := m.shared.setByte addr byte } := by
  have hs : (lts B τ).step m (.write u addr byte)
    { m with shared := m.shared.setByte addr byte } := .write hheld hl hu
  refine K.of_run (.single ⟨⟨fun t b he => ?_, fun _ _ _ hb => hb⟩, hs⟩)
  cases he

/-- An instruction of a thread, the others being outside the calls. -/
theorem Kept.alone (K : Kept B others m) (hlone : Lone m t) {answer : Option Nat} {o : Outcome τ}
    (h : instr B t answer m.shared (m.threads t).pc = some o) :
    Kept B others (m.move t o.shared ((m.threads t).after o)) := by
  have hs : (lts B τ).step m (.instr t answer) (m.move t o.shared ((m.threads t).after o)) :=
    .instr h
  refine K.of_run (.single ⟨⟨fun u b he => ?_, fun u b hw hb => ?_⟩, hs⟩)
  · cases he
  · by_cases hu : u = t
    · subst hu
      have hs := (instr_walk hw h).1
      rw [← hs]
      exact hb
    · rw [hlone u hu] at hw
      cases hw

/-- A stretch of instructions and a byte of a block that somebody holds. -/
theorem Alone.write {s' : Shared τ} {pc pc' : Pc} {s : Shared τ}
    (h : Alone B env t s pc s' pc') :
    ∀ {m : Machine τ}, m.shared = s → (m.threads t).pc = pc → Kept B others m → Lone m t →
      ∀ {u : τ}, block ∈ (m.threads u).held → block ≤ addr →
        addr < block + m.shared.pool.blockSize → ∀ byte,
          Alone B env t (s.setByte addr byte) pc (s'.setByte addr byte) pc' := by
  induction h with
  | refl => intros; exact .refl
  | @cons s s' pc pc' o hi h0 _ ih =>
    intro m hs hpc K hlone u hheld hl hu byte
    subst hs hpc
    obtain ⟨hI, ⟨pend, L, hF⟩, W, free, I⟩ := id K
    have hw := instr_write L (hlone.placed hI hF) (I.threads t) (fun b hb => I.owned_slot hb)
      (fun b hb => I.shares.free_mem hb) (I.held_slot hheld) (I.held_apart hheld)
      (fun hf => I.shares.apart u block hf (List.mem_append_right _ hheld)) hl hu byte hi
    refine .cons hw h0 (ih (m := m.move t o.shared ((m.threads t).after o)) rfl
      (by simp [Machine.move, Thread.after]) (K.alone hlone hi) ?_ (u := u) ?_ hl ?_ byte)
    · intro v hv
      simpa [Machine.move, hv] using hlone v hv
    · by_cases hut : u = t
      · subst hut
        simpa [Machine.move, Thread.after, h0] using hheld
      · simpa [Machine.move, hut] using hheld
    · show addr < block + o.shared.pool.blockSize
      rw [(instr_fields hi).1]
      exact hu

end Solo

end Mutex

end MemoryPool
