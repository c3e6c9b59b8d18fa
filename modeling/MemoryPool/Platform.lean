import Mathlib.Algebra.Order.Ring.Nat
import Mathlib.Tactic.Common
import Mathlib.Tactic.SplitIfs

/-!
# MemoryPool.Platform

The target and the build: pointer width, `POOL_ALIGNMENT`, the two compile-time knobs
(`PBR_MEMORY_POOL_HARDENING`, `PBR_MEMORY_POOL_THREAD_SAFETY`), `size_t` arithmetic, and the size
checks of `memory_pool.cpp` (`is_valid_block_size`, `would_overflow_product`, `slot_stride`).

`size_t`, `uintptr_t` and `void*` all have `8 * ptrBytes` bits. Values and addresses are `Nat`, the
null pointer is `0`; every operation that can wrap in the source is written with its reduction
modulo `2 ^ width`.
-/

namespace MemoryPool

/-- `PBR_MEMORY_POOL_THREAD_SAFETY`. -/
inductive ThreadSafety where
  | none
  | mutex
  | lockfree
  deriving DecidableEq

/-- One compiled variant of the library on one target. `sizeofMemoryPool` is what the compiler
makes of `sizeof(memory_pool)`; `budget` is the source's `static_assert`. -/
structure Build where
  ptrBytes : Nat
  alignLog : Nat
  hardening : Bool
  threadSafety : ThreadSafety
  sizeofMemoryPool : Nat
  ptr_wide : 4 ≤ ptrBytes
  align_ge : ptrBytes ≤ 2 ^ alignLog
  align_lt : alignLog < 8 * ptrBytes
  struct_pos : 0 < sizeofMemoryPool
  budget : sizeofMemoryPool ≤ 192

def Build.x64 (hardening : Bool) (threadSafety : ThreadSafety) : Build where
  ptrBytes := 8
  alignLog := 4
  hardening := hardening
  threadSafety := threadSafety
  sizeofMemoryPool :=
    match threadSafety with
    | .none => 64
    | .mutex => 104
    | .lockfree => 80
  ptr_wide := by decide
  align_ge := by decide
  align_lt := by decide
  struct_pos := by cases threadSafety <;> decide
  budget := by cases threadSafety <;> decide

namespace Build

variable (B : Build)

/-- `alignof(std::max_align_t)`. -/
def poolAlignment : Nat := 2 ^ B.alignLog

def modulus : Nat := 256 ^ B.ptrBytes

/-- `std::numeric_limits<std::size_t>::max()`. -/
def sizeMax : Nat := B.modulus - 1

/-- `sizeof(Chunk)`: two pointers and a `size_t`, no padding. -/
def sizeofChunk : Nat := 3 * B.ptrBytes

def add (a b : Nat) : Nat := (a + b) % B.modulus

def sub (a b : Nat) : Nat := (a + (B.modulus - b % B.modulus)) % B.modulus

def mul (a b : Nat) : Nat := a * b % B.modulus

end Build

/-- `sizeof(std::uint64_t)`, the guard word of a hardened slot. -/
def guardBytes : Nat := 8

def isValidBlockSize (B : Build) (blockSize : Nat) : Bool :=
  if blockSize = 0 then false
  else if blockSize < B.ptrBytes then false
  else if blockSize % B.poolAlignment ≠ 0 then false
  else true

def wouldOverflowProduct (B : Build) (lhs rhs : Nat) : Bool :=
  if lhs = 0 ∨ rhs = 0 then false else decide (B.sizeMax / rhs < lhs)

/-- `slot_stride`: the physical slot size. Hardened, a guard word follows the block and the sum is
rounded up to `POOL_ALIGNMENT`, saturating at `SIZE_MAX`; otherwise it is the block size. -/
def slotStride (B : Build) (blockSize : Nat) : Nat :=
  if B.hardening then
    if B.sub B.sizeMax guardBytes < blockSize then B.sizeMax
    else
      let raw := B.add blockSize guardBytes
      if B.sub B.sizeMax (B.sub B.poolAlignment 1) < raw then B.sizeMax
      else B.mul (B.sub (B.add raw B.poolAlignment) 1 / B.poolAlignment) B.poolAlignment
  else blockSize

namespace Build

variable {B : Build}

theorem poolAlignment_pos : 0 < B.poolAlignment := Nat.two_pow_pos _

theorem modulus_eq : B.modulus = 2 ^ (8 * B.ptrBytes) := by
  unfold modulus
  rw [Nat.pow_mul]

theorem modulus_pos : 0 < B.modulus := Nat.pow_pos (by omega)

theorem modulus_ge : 2 ^ 32 ≤ B.modulus := by
  rw [modulus_eq]
  exact Nat.pow_le_pow_right (by omega) (by have := B.ptr_wide; omega)

theorem poolAlignment_lt : B.poolAlignment < B.modulus := by
  rw [modulus_eq]
  exact Nat.pow_lt_pow_right (by omega) B.align_lt

theorem add_eq {a b : Nat} (h : a + b < B.modulus) : B.add a b = a + b := Nat.mod_eq_of_lt h

theorem mul_eq {a b : Nat} (h : a * b < B.modulus) : B.mul a b = a * b := Nat.mod_eq_of_lt h

theorem sub_eq {a b : Nat} (hb : b ≤ a) (ha : a < B.modulus) : B.sub a b = a - b := by
  unfold sub
  rw [Nat.mod_eq_of_lt (by omega : b < B.modulus),
    show a + (B.modulus - b) = (a - b) + B.modulus by omega, Nat.add_mod_right,
    Nat.mod_eq_of_lt (by omega)]

/-- `a + b - 1` as the source writes it: the sum may reach `2 ^ width` before the `1` comes off. -/
theorem sub_add_one {a b : Nat} (hb : 0 < b) (h : a + (b - 1) < B.modulus) :
    B.sub (B.add a b) 1 = a + (b - 1) := by
  rcases Nat.lt_or_ge (a + b) B.modulus with hlt | hge
  · rw [add_eq hlt, sub_eq (by omega) hlt]
    omega
  · have hm := B.modulus_ge
    have h0 : B.add a b = 0 := by
      unfold add
      rw [show a + b = B.modulus by omega, Nat.mod_self]
    rw [h0]
    unfold sub
    rw [Nat.mod_eq_of_lt (by omega : 1 < B.modulus), Nat.zero_add,
      Nat.mod_eq_of_lt (by omega)]
    omega

end Build

/-! ## The size checks say what they should -/

theorem isValidBlockSize_iff {B : Build} {blockSize : Nat} :
    isValidBlockSize B blockSize = true ↔
      blockSize ≠ 0 ∧ B.ptrBytes ≤ blockSize ∧ B.poolAlignment ∣ blockSize := by
  unfold isValidBlockSize
  rw [Nat.dvd_iff_mod_eq_zero]
  split_ifs <;> simp_all

theorem wouldOverflowProduct_eq_false_iff {B : Build} {lhs rhs : Nat} :
    wouldOverflowProduct B lhs rhs = false ↔ lhs * rhs < B.modulus := by
  have hpos := B.modulus_pos
  unfold wouldOverflowProduct Build.sizeMax
  split
  · rename_i h
    rcases h with rfl | rfl <;> simpa using hpos
  · rename_i h
    push Not at h
    have hr : 0 < rhs := Nat.pos_of_ne_zero h.2
    rw [decide_eq_false_iff_not, not_lt, Nat.le_div_iff_mul_le hr]
    omega

def roundUp (B : Build) (raw : Nat) : Nat :=
  (raw + (B.poolAlignment - 1)) / B.poolAlignment * B.poolAlignment

theorem roundUp_bounds (B : Build) (raw : Nat) :
    raw ≤ roundUp B raw ∧ roundUp B raw ≤ raw + (B.poolAlignment - 1) := by
  have hap := B.poolAlignment_pos
  have h1 := Nat.div_add_mod (raw + (B.poolAlignment - 1)) B.poolAlignment
  have h2 := Nat.mod_lt (raw + (B.poolAlignment - 1)) hap
  unfold roundUp
  rw [Nat.mul_comm]
  constructor <;> omega

theorem slotStride_cases (B : Build) {blockSize : Nat} (hlt : blockSize < B.modulus) :
    (B.hardening = false ∧ slotStride B blockSize = blockSize) ∨
    (B.hardening = true ∧ B.modulus ≤ blockSize + guardBytes + (B.poolAlignment - 1) ∧
      slotStride B blockSize = B.sizeMax) ∨
    (B.hardening = true ∧ blockSize + guardBytes + (B.poolAlignment - 1) < B.modulus ∧
      slotStride B blockSize = roundUp B (blockSize + guardBytes)) := by
  have hm := B.modulus_ge
  have ha := B.poolAlignment_lt
  have hap := B.poolAlignment_pos
  cases hh : B.hardening with
  | false => left; exact ⟨rfl, by simp [slotStride, hh]⟩
  | true =>
    right
    have e1 : B.sub B.sizeMax guardBytes = B.modulus - 1 - 8 := by
      rw [Build.sub_eq] <;> simp only [Build.sizeMax, guardBytes] <;> omega
    have e2 : B.sub B.poolAlignment 1 = B.poolAlignment - 1 := Build.sub_eq (by omega) ha
    have e3 : B.sub B.sizeMax (B.poolAlignment - 1) = B.modulus - 1 - (B.poolAlignment - 1) := by
      rw [Build.sub_eq] <;> simp only [Build.sizeMax] <;> omega
    simp only [slotStride, hh, if_true, e1, e2, e3]
    split
    · left; exact ⟨trivial, by simp only [guardBytes]; omega, rfl⟩
    · rename_i h1
      have e4 : B.add blockSize guardBytes = blockSize + guardBytes :=
        Build.add_eq (by simp only [guardBytes]; omega)
      rw [e4]
      split
      · left; exact ⟨trivial, by omega, rfl⟩
      · rename_i h2
        right
        have hfit : blockSize + guardBytes + (B.poolAlignment - 1) < B.modulus := by omega
        refine ⟨trivial, hfit, ?_⟩
        rw [Build.sub_add_one hap hfit]
        exact Build.mul_eq (by
          have := (roundUp_bounds B (blockSize + guardBytes)).2
          unfold roundUp at this
          omega)

/-- A stride whose product with a positive count passes the guard holds the block, and hardened
the guard word too. Only `stride = SIZE_MAX`, the saturated value, has to be excluded: it is odd,
so it is no multiple of the alignment. -/
theorem slotStride_spec {B : Build} {blockSize : Nat} (hlt : blockSize < B.modulus)
    (hv : isValidBlockSize B blockSize = true) (hsat : slotStride B blockSize ≠ B.sizeMax) :
    B.poolAlignment ∣ slotStride B blockSize ∧ blockSize ≤ slotStride B blockSize ∧
      (B.hardening = true → blockSize + guardBytes ≤ slotStride B blockSize) ∧
      slotStride B blockSize < B.modulus := by
  obtain ⟨_, _, hdvd⟩ := isValidBlockSize_iff.mp hv
  rcases slotStride_cases B hlt with ⟨hh, hs⟩ | ⟨_, _, hs⟩ | ⟨_, hfit, hs⟩
  · rw [hs]
    exact ⟨hdvd, le_refl _, by simp [hh], hlt⟩
  · exact absurd hs hsat
  · obtain ⟨hl, hu⟩ := roundUp_bounds B (blockSize + guardBytes)
    rw [hs]
    exact ⟨Nat.dvd_mul_left _ _, by omega, fun _ => hl, by omega⟩

end MemoryPool
