import Mathlib.Data.Nat.Bitwise
import MemoryPool.World

/-!
# MemoryPool.Slot

One slot: the in-band free-list link in its first `sizeof(void*)` bytes, and, in a hardened
build, the poisoned payload behind the link and the guard word behind the block. These are
`reveal_next`, `read_next`, `write_next` and the `hardening_detail` functions of
`memory_pool.cpp`.

The second half is what proofs use: a function that reads a slot only depends on the bytes it
reads (`*_congr`), and a function that writes a slot changes nothing outside it (`*_outside`).
-/

namespace MemoryPool

open ByteMem

def safeLinkShift : Nat := 12

def poisonByte : UInt8 := 0xDE

def guardFreed : Nat := 0xF3EEF3EEF3EEF3EE

def guardAllocated : Nat := 0xA110CA7EA110CA7E

/-- `xor_link`: glibc's safe-linking transform. -/
def xorLink (slot value : Nat) : Nat := (slot >>> safeLinkShift) ^^^ value

def readGuard (m : Mem) (slot : Nat) (blockSize : Nat) : Nat :=
  read m (slot + blockSize) guardBytes

def writeGuard (m : Mem) (slot : Nat) (blockSize value : Nat) : Mem :=
  write m (slot + blockSize) guardBytes value

def poisonPayload (B : Build) (m : Mem) (slot : Nat) (blockSize : Nat) : Mem :=
  if B.ptrBytes < blockSize then
    fill m (slot + B.ptrBytes) (blockSize - B.ptrBytes) poisonByte
  else m

def payloadIsPoison (B : Build) (m : Mem) (slot : Nat) (blockSize : Nat) : Bool :=
  let payload := slot + B.ptrBytes
  let count := if B.ptrBytes < blockSize then blockSize - B.ptrBytes else 0
  (List.range count).all fun i => m (payload + i) == poisonByte

def onInitSlot (B : Build) (m : Mem) (slot : Nat) (blockSize : Nat) : Mem :=
  writeGuard (poisonPayload B m slot blockSize) slot blockSize guardFreed

/-- `on_free`: whether the caller should enqueue the block. -/
def onFree (B : Build) (w : World) (slot : Nat) (blockSize : Nat) : Bool × World :=
  let guard := readGuard w.mem slot blockSize
  let (doubleFree, w) :=
    if guard = guardFreed then (true, w.report .doubleFree slot)
    else if guard ≠ guardAllocated then (false, w.report .overflow slot)
    else (false, w)
  let w := { w with mem := poisonPayload B w.mem slot blockSize }
  let w := { w with mem := writeGuard w.mem slot blockSize guardFreed }
  (!doubleFree, w)

def onAlloc (B : Build) (w : World) (slot : Nat) (blockSize : Nat) : World :=
  let w := if readGuard w.mem slot blockSize ≠ guardFreed then w.report .freelistCorruption slot
    else w
  let w := if !payloadIsPoison B w.mem slot blockSize then w.report .useAfterFree slot else w
  { w with mem := writeGuard w.mem slot blockSize guardAllocated }

def revealNext (B : Build) (m : Mem) (slot : Nat) : Nat :=
  if B.hardening then xorLink slot (read m slot B.ptrBytes) else read m slot B.ptrBytes

def readNext (B : Build) (w : World) (slot : Nat) : Nat × World :=
  let revealed := revealNext B w.mem slot
  if B.hardening ∧ revealed ≠ 0 ∧ revealed % B.poolAlignment ≠ 0 then
    (revealed, w.report .freelistCorruption slot)
  else (revealed, w)

def writeNext (B : Build) (m : Mem) (slot next : Nat) : Mem :=
  write m slot B.ptrBytes (if B.hardening then xorLink slot next else next)

def Poisoned (B : Build) (m : Mem) (slot : Nat) (blockSize : Nat) : Prop :=
  ∀ x, slot + B.ptrBytes ≤ x → x < slot + blockSize → m x = poisonByte

/-! ## The link -/

theorem xorLink_xorLink (slot value : Nat) : xorLink slot (xorLink slot value) = value := by
  unfold xorLink
  rw [← Nat.xor_assoc, Nat.xor_self, Nat.zero_xor]

theorem xorLink_lt {B : Build} {slot value : Nat} (hs : slot < B.modulus)
    (hv : value < B.modulus) : xorLink slot value < B.modulus := by
  rw [Build.modulus_eq] at *
  unfold xorLink
  refine Nat.xor_lt_two_pow ?_ hv
  exact (Nat.shiftRight_le _ _).trans_lt hs

/-- A link is read back as it was written, in either encoding. -/
theorem revealNext_writeNext {B : Build} (m : Mem) {slot next : Nat} (hs : slot < B.modulus)
    (hn : next < B.modulus) : revealNext B (writeNext B m slot next) slot = next := by
  unfold revealNext writeNext
  cases B.hardening with
  | false => simpa using read_write_same m hn
  | true =>
    simp only [if_true]
    rw [read_write_same m (xorLink_lt hs hn), xorLink_xorLink]

theorem revealNext_congr {B : Build} {m m' : Mem} {slot : Nat}
    (h : SameOn m m' slot B.ptrBytes) : revealNext B m' slot = revealNext B m slot := by
  unfold revealNext
  rw [read_congr h]

theorem readNext_eq {B : Build} {w : World} {slot : Nat}
    (h : revealNext B w.mem slot = 0 ∨ B.poolAlignment ∣ revealNext B w.mem slot) :
    readNext B w slot = (revealNext B w.mem slot, w) := by
  unfold readNext
  rw [if_neg]
  rintro ⟨_, hne, hmod⟩
  rcases h with h | h
  · exact hne h
  · exact hmod (Nat.mod_eq_zero_of_dvd h)

theorem writeNext_outside {B : Build} {m : Mem} {slot next x : Nat}
    (h : x < slot ∨ slot + B.ptrBytes ≤ x) : writeNext B m slot next x = m x :=
  write_outside h

/-! ## Guard and payload -/

theorem readGuard_congr {m m' : Mem} {slot : Nat} {blockSize : Nat}
    (h : SameOn m m' (slot + blockSize) guardBytes) :
    readGuard m' slot blockSize = readGuard m slot blockSize := read_congr h

theorem readGuard_writeGuard (m : Mem) {slot : Nat} {blockSize value : Nat}
    (hv : value < 256 ^ guardBytes) :
    readGuard (writeGuard m slot blockSize value) slot blockSize = value :=
  read_write_same m hv

theorem writeGuard_outside {m : Mem} {slot x : Nat} {blockSize value : Nat}
    (h : x < slot + blockSize ∨ slot + blockSize + guardBytes ≤ x) :
    writeGuard m slot blockSize value x = m x := write_outside h

/-- The stamp of an allocation looks nothing like poison. -/
theorem writeGuard_ne_poison {m : Mem} {slot x : Nat} {blockSize : Nat} (h : m x ≠ poisonByte) :
    writeGuard m slot blockSize guardAllocated x ≠ poisonByte := by
  have hbytes : ∀ k < guardBytes, UInt8.ofNat (guardAllocated / 256 ^ k) ≠ poisonByte := by decide
  exact write_ne hbytes h

theorem poisonPayload_outside {B : Build} {m : Mem} {slot x : Nat} {blockSize : Nat}
    (h : x < slot + B.ptrBytes ∨ slot + blockSize ≤ x) :
    poisonPayload B m slot blockSize x = m x := by
  unfold poisonPayload
  split
  · exact fill_outside (by omega)
  · rfl

theorem poisonPayload_poisoned (B : Build) (m : Mem) (slot : Nat) (blockSize : Nat) :
    Poisoned B (poisonPayload B m slot blockSize) slot blockSize := by
  intro x hl hu
  unfold poisonPayload
  rw [if_pos (by omega)]
  exact fill_inside hl (by omega)

theorem Poisoned.congr {B : Build} {m m' : Mem} {slot : Nat} {blockSize : Nat}
    (hp : Poisoned B m slot blockSize) (h : SameOn m m' slot blockSize) :
    Poisoned B m' slot blockSize := by
  intro x hl hu
  exact (h x (by omega) hu).trans (hp x hl hu)

theorem payloadIsPoison_iff {B : Build} {m : Mem} {slot : Nat} {blockSize : Nat} :
    payloadIsPoison B m slot blockSize = true ↔ Poisoned B m slot blockSize := by
  unfold payloadIsPoison Poisoned
  simp only [List.all_eq_true, List.mem_range, beq_iff_eq]
  constructor
  · intro h x hl hu
    have hx := h (x - (slot + B.ptrBytes)) (by split <;> omega)
    rwa [show slot + B.ptrBytes + (x - (slot + B.ptrBytes)) = x by omega] at hx
  · intro h i hi
    split at hi
    · exact h _ (by omega) (by omega)
    · omega

/-! ## What the hardening hooks do to a slot in good order -/

/-- A freed slot is stamped and poisoned; what is left of it is the link. -/
def freedMem (B : Build) (m : Mem) (slot : Nat) (blockSize : Nat) : Mem :=
  writeGuard (poisonPayload B m slot blockSize) slot blockSize guardFreed

theorem freedMem_outside {B : Build} {m : Mem} {slot x : Nat} {blockSize : Nat}
    (hb : B.ptrBytes ≤ blockSize)
    (h : x < slot + B.ptrBytes ∨ slot + blockSize + guardBytes ≤ x) :
    freedMem B m slot blockSize x = m x := by
  unfold freedMem
  rw [writeGuard_outside (by omega), poisonPayload_outside (by simp only [guardBytes] at h; omega)]

theorem freedMem_guard (B : Build) (m : Mem) (slot : Nat) (blockSize : Nat) :
    readGuard (freedMem B m slot blockSize) slot blockSize = guardFreed :=
  readGuard_writeGuard _ (by decide)

theorem freedMem_poisoned (B : Build) (m : Mem) (slot : Nat) (blockSize : Nat) :
    Poisoned B (freedMem B m slot blockSize) slot blockSize := by
  intro x hl hu
  unfold freedMem
  rw [writeGuard_outside (Or.inl hu)]
  exact poisonPayload_poisoned B m slot blockSize x hl hu

/-- Stamping and poisoning a slot that already is stamped free and poisoned changes no byte. -/
theorem freedMem_same {B : Build} {m : Mem} {slot : Nat} {blockSize : Nat}
    (hg : readGuard m slot blockSize = guardFreed) (hp : Poisoned B m slot blockSize) :
    freedMem B m slot blockSize = m := by
  have hpay : poisonPayload B m slot blockSize = m := by
    unfold poisonPayload
    split
    · exact fill_same fun x hl hu => hp x hl (by omega)
    · rfl
  unfold freedMem writeGuard
  rw [hpay, ← hg]
  exact write_read m _ _

/-- Where the guard word is in place, it is the payload alone that changes. -/
theorem freedMem_stamped {B : Build} {m : Mem} {slot x : Nat} {blockSize : Nat}
    (hg : readGuard m slot blockSize = guardFreed)
    (h : x < slot + B.ptrBytes ∨ slot + blockSize ≤ x) : freedMem B m slot blockSize x = m x := by
  have hstamp : writeGuard m slot blockSize guardFreed = m := by
    unfold writeGuard
    rw [← hg]
    exact write_read m _ _
  calc freedMem B m slot blockSize x = writeGuard m slot blockSize guardFreed x := by
        unfold freedMem writeGuard write
        rw [poisonPayload_outside h]
    _ = m x := congrFun hstamp x

theorem onFree_allocated {B : Build} {w : World} {slot : Nat} {blockSize : Nat}
    (hg : readGuard w.mem slot blockSize = guardAllocated) :
    onFree B w slot blockSize = (true, { w with mem := freedMem B w.mem slot blockSize }) := by
  unfold onFree
  rw [hg]
  rfl

/-- A double free is reported and dropped, and leaves the slot as it was. -/
theorem onFree_freed {B : Build} {w : World} {slot : Nat} {blockSize : Nat}
    (hg : readGuard w.mem slot blockSize = guardFreed) (hp : Poisoned B w.mem slot blockSize) :
    onFree B w slot blockSize = (false, w.report .doubleFree slot) := by
  have hm := freedMem_same hg hp
  unfold onFree
  rw [hg]
  simp only [if_true, Bool.not_true]
  refine Prod.ext rfl ?_
  show { w.report .doubleFree slot with mem := freedMem B w.mem slot blockSize } = _
  rw [hm]
  rfl

theorem onAlloc_freed {B : Build} {w : World} {slot : Nat} {blockSize : Nat}
    (hg : readGuard w.mem slot blockSize = guardFreed) (hp : Poisoned B w.mem slot blockSize) :
    onAlloc B w slot blockSize =
      { w with mem := writeGuard w.mem slot blockSize guardAllocated } := by
  have hfreed : (if readGuard w.mem slot blockSize ≠ guardFreed then
      w.report .freelistCorruption slot else w) = w := if_neg (by simp [hg])
  simp only [onAlloc, hfreed, payloadIsPoison_iff.mpr hp]
  rfl

/-! ## A byte elsewhere -/

section Elsewhere

variable {B : Build} {m : Mem} {slot blockSize x : Nat} {b : UInt8}

theorem writeNext_set {next : Nat} (h : x < slot ∨ slot + B.ptrBytes ≤ x) :
    writeNext B (ByteMem.set m x b) slot next = ByteMem.set (writeNext B m slot next) x b :=
  write_set h

theorem writeGuard_set {value : Nat}
    (h : x < slot + blockSize ∨ slot + blockSize + guardBytes ≤ x) :
    writeGuard (ByteMem.set m x b) slot blockSize value =
      ByteMem.set (writeGuard m slot blockSize value) x b :=
  write_set h

theorem poisonPayload_set (h : x < slot + B.ptrBytes ∨ slot + blockSize ≤ x) :
    poisonPayload B (ByteMem.set m x b) slot blockSize =
      ByteMem.set (poisonPayload B m slot blockSize) x b := by
  unfold poisonPayload
  split
  · exact fill_set (by omega)
  · rfl

theorem freedMem_set (hb : B.ptrBytes ≤ blockSize)
    (h : x < slot + B.ptrBytes ∨ slot + blockSize + guardBytes ≤ x) :
    freedMem B (ByteMem.set m x b) slot blockSize =
      ByteMem.set (freedMem B m slot blockSize) x b := by
  unfold freedMem
  rw [poisonPayload_set (by omega), writeGuard_set (by omega)]

end Elsewhere

/-! ## The hooks on arbitrary slots -/

section Hooks

variable (B : Build) (w : World) (slot blockSize : Nat)

theorem readNext_fst : (readNext B w slot).1 = revealNext B w.mem slot := by
  simp only [readNext]
  split <;> rfl

theorem readNext_mem : (readNext B w slot).2.mem = w.mem := by
  simp only [readNext]
  split <;> rfl

theorem onAlloc_mem :
    (onAlloc B w slot blockSize).mem = writeGuard w.mem slot blockSize guardAllocated := by
  unfold onAlloc
  split <;> (simp only []; split <;> rfl)

theorem onFree_mem : (onFree B w slot blockSize).2.mem = freedMem B w.mem slot blockSize := by
  unfold onFree
  generalize readGuard w.mem slot blockSize = guard
  by_cases h1 : guard = guardFreed
  · simp only [if_pos h1]
    rfl
  · by_cases h2 : guard = guardAllocated
    · simp only [if_neg h1, if_neg (not_not.mpr h2)]
      rfl
    · simp only [if_neg h1, if_pos h2]
      rfl

theorem onFree_fst :
    (onFree B w slot blockSize).1 = !decide (readGuard w.mem slot blockSize = guardFreed) := by
  unfold onFree
  generalize readGuard w.mem slot blockSize = guard
  by_cases h1 : guard = guardFreed
  · simp only [if_pos h1, decide_eq_true h1]
  · by_cases h2 : guard = guardAllocated
    · simp only [if_neg h1, if_neg (not_not.mpr h2), decide_eq_false h1]
    · simp only [if_neg h1, if_pos h2, decide_eq_false h1]

end Hooks

end MemoryPool
