import Mathlib.Data.Set.Basic
import Mathlib.Logic.Function.Iterate
import Mathlib.Tactic.Common

/-!
# MemoryPool.Lib.Trail

Links followed through a set of cells, with nothing assumed about where they lead. A trail starts
at a cell and goes on as long as it stays inside the set; it may end anywhere, or never.

* `Visits next S a b`: the trail from `a` comes to the cell `b`.
* `Simple next S T a`: the trail from `a` comes to no cell of `T` twice.

`Simple.congr` says that only the links of cells on the trail matter, `simple_iff` and
`simple_push_iff` what becomes of it when the first cell is taken off and when a cell is put in
front.
-/

namespace LinkedList

variable {α : Type*} {next next' : α → α} {S T : Set α} {a b : α}

def Inside (next : α → α) (S : Set α) (a : α) (n : Nat) : Prop := ∀ k ≤ n, next^[k] a ∈ S

def Visits (next : α → α) (S : Set α) (a b : α) : Prop := ∃ n, Inside next S a n ∧ next^[n] a = b

def Simple (next : α → α) (S T : Set α) (a : α) : Prop :=
  ∀ i j, i < j → Inside next S a j → next^[i] a = next^[j] a → next^[i] a ∉ T

theorem inside_succ {n : Nat} : Inside next S a (n + 1) ↔ a ∈ S ∧ Inside next S (next a) n := by
  constructor
  · intro h
    exact ⟨h 0 (by omega), fun k hk => h (k + 1) (by omega)⟩
  · rintro ⟨h0, h⟩ k hk
    cases k with
    | zero => exact h0
    | succ k => exact h k (by omega)

theorem Inside.mono {n k : Nat} (h : Inside next S a n) (hk : k ≤ n) : Inside next S a k := by
  intro i hi
  exact h i (by omega)

theorem Inside.visits {n k : Nat} (h : Inside next S a n) (hk : k ≤ n) :
    Visits next S a (next^[k] a) := ⟨k, h.mono hk, rfl⟩

theorem Visits.of_next (ha : a ∈ S) (h : Visits next S (next a) b) : Visits next S a b := by
  obtain ⟨n, hin, hb⟩ := h
  exact ⟨n + 1, inside_succ.mpr ⟨ha, hin⟩, hb⟩

theorem Visits.start (h : Visits next S a b) : a ∈ S := by
  obtain ⟨n, hin, -⟩ := h
  exact hin 0 (Nat.zero_le n)

theorem Visits.eq_or_next (h : Visits next S a b) : b = a ∨ Visits next S (next a) b := by
  obtain ⟨n, hin, hb⟩ := h
  cases n with
  | zero => exact Or.inl hb.symm
  | succ n => exact Or.inr ⟨n, (inside_succ.mp hin).2, hb⟩

theorem visits_self (ha : a ∈ S) : Visits next S a a :=
  ⟨0, fun k hk => by rwa [Nat.le_zero.mp hk], rfl⟩

/-- A trail that comes to a cell comes to it for a first time. -/
theorem Visits.first (h : Visits next S a b) :
    ∃ n, Inside next S a n ∧ next^[n] a = b ∧ ∀ k < n, next^[k] a ≠ b := by
  obtain ⟨n, hin, hb⟩ := h
  induction n using Nat.strong_induction_on with
  | _ n ih =>
    by_cases hk : ∃ k < n, next^[k] a = b
    · obtain ⟨k, hk, hkb⟩ := hk
      exact ih k hk (hin.mono hk.le) hkb
    · exact ⟨n, hin, hb, fun k hlt hkb => hk ⟨k, hlt, hkb⟩⟩

theorem simple_of_not_mem (ha : a ∉ S) : Simple next S T a := by
  intro i j _ hin
  exact absurd (hin 0 (Nat.zero_le j)) ha

/-- From `a` on, no cell of `T` is met twice exactly if `a` is not met again and the rest is. -/
theorem simple_iff (ha : a ∈ S) :
    Simple next S T a ↔ (a ∈ T → ¬ Visits next S (next a) a) ∧ Simple next S T (next a) := by
  constructor
  · intro h
    refine ⟨?_, fun i j hij hin heq => ?_⟩
    · rintro haT ⟨n, hin, hna⟩
      exact h 0 (n + 1) (by omega) (inside_succ.mpr ⟨ha, hin⟩) hna.symm haT
    · exact h (i + 1) (j + 1) (by omega) (inside_succ.mpr ⟨ha, hin⟩) heq
  · rintro ⟨hfirst, hrest⟩ i j hij hin heq
    obtain ⟨j, rfl⟩ : ∃ k, j = k + 1 := ⟨j - 1, by omega⟩
    obtain ⟨-, hin⟩ := inside_succ.mp hin
    cases i with
    | zero => exact fun haT => hfirst haT ⟨j, hin, heq.symm⟩
    | succ i => exact hrest i j (by omega) hin heq

/-! ## Two link functions -/

theorem iterate_congr {n : Nat} (h : ∀ k < n, next' (next^[k] a) = next (next^[k] a)) :
    next'^[n] a = next^[n] a := by
  induction n with
  | zero => rfl
  | succ n ih =>
    rw [Function.iterate_succ_apply', Function.iterate_succ_apply', ih fun k hk => h k (by omega)]
    exact h n (by omega)

section Congr

variable (hn : ∀ c, Visits next S a c → next' c = next c)

include hn

theorem Inside.iterate {n : Nat} (h : Inside next S a n) : ∀ k ≤ n + 1, next'^[k] a = next^[k] a :=
  fun k hk => iterate_congr fun i hi => hn _ (h.visits (by omega))

theorem inside_congr {n : Nat} : Inside next' S a n ↔ Inside next S a n := by
  constructor
  · induction n with
    | zero =>
      intro h k hk
      rw [Nat.le_zero.mp hk]
      exact h 0 (le_refl 0)
    | succ n ih =>
      intro h k hk
      have hin := ih (h.mono (by omega))
      rw [← hin.iterate hn k hk]
      exact h k hk
  · intro h k hk
    rw [h.iterate hn k (by omega)]
    exact h k hk

theorem visits_congr : Visits next' S a b ↔ Visits next S a b := by
  constructor
  · rintro ⟨n, hin, hb⟩
    have hin := (inside_congr hn).mp hin
    exact ⟨n, hin, (hin.iterate hn n (by omega)).symm.trans hb⟩
  · rintro ⟨n, hin, hb⟩
    exact ⟨n, (inside_congr hn).mpr hin, (hin.iterate hn n (by omega)).trans hb⟩

theorem Simple.congr : Simple next' S T a ↔ Simple next S T a := by
  have hsame : ∀ i j, i < j → Inside next S a j →
      next'^[i] a = next^[i] a ∧ next'^[j] a = next^[j] a :=
    fun i j hij hin => ⟨hin.iterate hn i (by omega), hin.iterate hn j (by omega)⟩
  constructor
  · intro h i j hij hin
    obtain ⟨hi, hj⟩ := hsame i j hij hin
    have := h i j hij ((inside_congr hn).mpr hin)
    rwa [hi, hj] at this
  · intro h i j hij hin
    have hin := (inside_congr hn).mp hin
    obtain ⟨hi, hj⟩ := hsame i j hij hin
    rw [hi, hj]
    exact h i j hij hin

end Congr

/-! ## A cell put in front -/

section Push

variable (hn : ∀ c, Visits next S a c → c ≠ b → next' c = next c)

include hn

/-- Whether the trail comes to `b` does not depend on where `b` links to. -/
theorem visits_relink : Visits next' S a b ↔ Visits next S a b := by
  constructor
  · intro h
    by_contra hv
    exact hv ((visits_congr fun c hc => hn c hc fun hcb => hv (hcb ▸ hc)).mp h)
  · intro h
    obtain ⟨n, hin, hb, hfirst⟩ := h.first
    have heq : ∀ k ≤ n, next'^[k] a = next^[k] a := fun k hk =>
      iterate_congr fun i hi => hn _ (hin.visits (by omega)) (hfirst i (by omega))
    refine ⟨n, fun k hk => ?_, (heq n (le_refl n)).trans hb⟩
    rw [heq k hk]
    exact hin k hk

/-- With `b` put in front of the trail from `a`, no cell occurs twice exactly if `b` was not on
that trail and no cell occurred twice before. -/
theorem simple_push_iff (hb : b ∈ S) (hbT : b ∈ T) (hlink : next' b = a) :
    Simple next' S T b ↔ ¬ Visits next S a b ∧ Simple next S T a := by
  have hcongr : ¬ Visits next S a b → (Simple next' S T a ↔ Simple next S T a) :=
    fun hv => Simple.congr fun c hc => hn c hc fun hcb => hv (hcb ▸ hc)
  rw [simple_iff hb, hlink, visits_relink hn]
  constructor
  · rintro ⟨hv, hs⟩
    exact ⟨hv hbT, (hcongr (hv hbT)).mp hs⟩
  · rintro ⟨hv, hs⟩
    exact ⟨fun _ => hv, (hcongr hv).mpr hs⟩

end Push

end LinkedList
