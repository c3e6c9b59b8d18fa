import Mathlib.Data.Nat.Bitwise
import Mathlib.Tactic.Common

/-!
# MemoryPool.Lib.Bytes

Byte-addressed memory: a total function from addresses to bytes, with little-endian multi-byte
reads and writes and a fill. The lemmas are the two a program proof needs: what a write is read
back as, and which reads it leaves alone (`SameOn`, the frame relation).
-/

namespace ByteMem

/-- Memory: every address holds a byte. What lies outside the regions a program owns is
arbitrary and is never looked at. -/
abbrev Mem := Nat → UInt8

/-- The `n` bytes at `a`, little endian. -/
def read (m : Mem) (a : Nat) : Nat → Nat
  | 0 => 0
  | n + 1 => (m a).toNat + 256 * read m (a + 1) n

/-- The `n` low bytes of `v`, little endian, stored at `a`. -/
def write (m : Mem) (a n v : Nat) : Mem :=
  fun x => if a ≤ x ∧ x < a + n then UInt8.ofNat (v / 256 ^ (x - a)) else m x

/-- `memset`: `n` copies of `b` from `a` on. -/
def fill (m : Mem) (a n : Nat) (b : UInt8) : Mem :=
  fun x => if a ≤ x ∧ x < a + n then b else m x

def set (m : Mem) (a : Nat) (b : UInt8) : Mem := fun x => if x = a then b else m x

def SameOn (m m' : Mem) (a n : Nat) : Prop := ∀ x, a ≤ x → x < a + n → m' x = m x

namespace SameOn

theorem refl (m : Mem) (a n : Nat) : SameOn m m a n := fun _ _ _ => rfl

theorem mono {m m' : Mem} {a n b k : Nat} (h : SameOn m m' a n) (hl : a ≤ b)
    (hu : b + k ≤ a + n) : SameOn m m' b k := by
  intro x h1 h2
  exact h x (by omega) (by omega)

end SameOn

/-! ## Reads -/

theorem read_congr {m m' : Mem} :
    ∀ {n a : Nat}, SameOn m m' a n → read m' a n = read m a n := by
  intro n
  induction n with
  | zero => intro a _; rfl
  | succ n ih =>
    intro a h
    simp only [read]
    rw [h a (by omega) (by omega), ih (h.mono (by omega) (by omega))]

theorem read_lt (m : Mem) : ∀ n a : Nat, read m a n < 256 ^ n := by
  intro n
  induction n with
  | zero => intro a; simp [read]
  | succ n ih =>
    intro a
    have h1 := ih (a + 1)
    have h2 := (m a).toNat_lt
    simp only [read, Nat.pow_succ]
    omega

theorem read_write_aux (m : Mem) (a n v : Nat) :
    ∀ k j : Nat, j + k = n → read (write m a n v) (a + j) k = v / 256 ^ j % 256 ^ k := by
  intro k
  induction k with
  | zero => intro j _; simp [read, Nat.mod_one]
  | succ k ih =>
    intro j hj
    have hb : write m a n v (a + j) = UInt8.ofNat (v / 256 ^ j) := by
      simp [write, show j < n by omega]
    have hr := ih (j + 1) (by omega)
    simp only [read]
    rw [show a + j + 1 = a + (j + 1) by omega, hr, hb, Nat.pow_succ, ← Nat.div_div_eq_div_mul,
      Nat.pow_succ, Nat.mul_comm (256 ^ k) 256, Nat.mod_mul]
    simp

/-- What was written is read back, if it fits in the bytes written. -/
theorem read_write_same (m : Mem) {a n v : Nat} (hv : v < 256 ^ n) :
    read (write m a n v) a n = v := by
  have h := read_write_aux m a n v n 0 (by omega)
  simpa [Nat.mod_eq_of_lt hv] using h

/-! ## What a write leaves alone -/

theorem write_outside {m : Mem} {a n v x : Nat} (h : x < a ∨ a + n ≤ x) :
    write m a n v x = m x := by
  unfold write
  rw [if_neg (by omega)]

/-- A word none of whose bytes is `b` puts no `b` anywhere. -/
theorem write_ne {m : Mem} {a n v x : Nat} {b : UInt8}
    (hv : ∀ k < n, UInt8.ofNat (v / 256 ^ k) ≠ b) (hx : m x ≠ b) : write m a n v x ≠ b := by
  unfold write
  split
  · exact hv (x - a) (by omega)
  · exact hx

theorem write_zero (m : Mem) (a v : Nat) : write m a 0 v = m := by
  funext x
  exact write_outside (by omega)

theorem write_succ (m : Mem) (a n v : Nat) :
    write m a (n + 1) v = set (write m a n v) (a + n) (UInt8.ofNat (v / 256 ^ n)) := by
  funext x
  unfold write set
  by_cases h : x = a + n
  · rw [if_pos h, if_pos (by omega), h, Nat.add_sub_cancel_left]
  · rw [if_neg h]
    exact if_congr (by omega) rfl rfl

theorem fill_outside {m : Mem} {a n x : Nat} {b : UInt8} (h : x < a ∨ a + n ≤ x) :
    fill m a n b x = m x := by
  unfold fill
  rw [if_neg (by omega)]

theorem fill_inside {m : Mem} {a n x : Nat} {b : UInt8} (hl : a ≤ x) (hu : x < a + n) :
    fill m a n b x = b := by
  unfold fill
  rw [if_pos ⟨hl, hu⟩]

theorem fill_zero (m : Mem) (a : Nat) (b : UInt8) : fill m a 0 b = m := by
  funext x
  exact fill_outside (by omega)

theorem fill_succ (m : Mem) (a n : Nat) (b : UInt8) :
    fill m a (n + 1) b = set (fill m a n b) (a + n) b := by
  funext x
  unfold fill set
  by_cases h : x = a + n
  · rw [if_pos h, if_pos (by omega)]
  · rw [if_neg h]
    exact if_congr (by omega) rfl rfl

theorem set_other {m : Mem} {a x : Nat} {b : UInt8} (h : x ≠ a) : set m a b x = m x := by
  simp [set, h]

/-! ## Writes apart from each other -/

theorem write_set {m : Mem} {a n v x : Nat} {b : UInt8} (h : x < a ∨ a + n ≤ x) :
    write (set m x b) a n v = set (write m a n v) x b := by
  funext y
  by_cases hy : a ≤ y ∧ y < a + n
  · have hne : y ≠ x := by omega
    simp [write, set, hy, hne]
  · simp [write, set, hy]

theorem fill_set {m : Mem} {a n x : Nat} {b c : UInt8} (h : x < a ∨ a + n ≤ x) :
    fill (set m x b) a n c = set (fill m a n c) x b := by
  funext y
  by_cases hy : a ≤ y ∧ y < a + n
  · have hne : y ≠ x := by omega
    simp [fill, set, hy, hne]
  · simp [fill, set, hy]

/-! ## Writes that change nothing -/

theorem div_read (m : Mem) :
    ∀ (n a j : Nat), j < n → UInt8.ofNat (read m a n / 256 ^ j) = m (a + j) := by
  intro n
  induction n with
  | zero => intro a j hj; omega
  | succ n ih =>
    intro a j hj
    have hlt := (m a).toNat_lt
    cases j with
    | zero =>
      apply UInt8.toNat_inj.mp
      simp only [read, UInt8.toNat_ofNat', Nat.pow_zero, Nat.div_one, Nat.add_zero]
      omega
    | succ j =>
      have hd : ((m a).toNat + 256 * read m (a + 1) n) / 256 = read m (a + 1) n := by omega
      rw [read, Nat.pow_succ, Nat.mul_comm (256 ^ j) 256, ← Nat.div_div_eq_div_mul, hd,
        ih (a + 1) j (by omega)]
      congr 1
      omega

theorem write_read (m : Mem) (a n : Nat) : write m a n (read m a n) = m := by
  funext x
  unfold write
  split
  · rename_i h
    rw [div_read m n a (x - a) (by omega), show a + (x - a) = x by omega]
  · rfl

theorem write_write (m : Mem) (a n v : Nat) : write (write m a n v) a n v = write m a n v := by
  funext x
  unfold write
  split <;> rfl

theorem fill_same {m : Mem} {a n : Nat} {b : UInt8} (h : ∀ x, a ≤ x → x < a + n → m x = b) :
    fill m a n b = m := by
  funext x
  unfold fill
  split
  · rename_i hx; exact (h x hx.1 hx.2).symm
  · rfl

end ByteMem
