import Mathlib.Algebra.BigOperators.Group.Finset.Basic
import Mathlib.Data.List.Nodup
import Mathlib.Data.List.Perm.Basic
import Mathlib.Logic.Function.Basic

/-!
# MemoryPool.Lib.Shares

A fixed stock of items, each of them free or owned by exactly one of any number of owners.

* `Shares items free owned`: the free items and the owners' items partition the stock.
* `Shares.take`, `Shares.give`: an owner takes the first free item, or gives one of its own back.
* `Shares.rearrange`: what an owner has may be listed in any order.
* `Shares.release`, `Shares.transfer`: an owner gives all it has back, or to an owner that has
  nothing.
* `Shares.enlarge`, `Shares.gain`: the stock grows by items that are free, or by one that an owner
  has; `Shares.shrink`: it loses the free ones.
* `Shares.sum_length`: the items are counted by counting each owner's.
-/

variable {α τ : Type*}

structure Shares (items free : List α) (owned : τ → List α) : Prop where
  free_nodup : free.Nodup
  owned_nodup : ∀ t, (owned t).Nodup
  apart : ∀ t a, a ∈ free → a ∉ owned t
  exclusive : ∀ t t' a, a ∈ owned t → a ∈ owned t' → t = t'
  cover : ∀ a, a ∈ items ↔ a ∈ free ∨ ∃ t, a ∈ owned t

namespace Shares

variable {items free : List α} {owned owned' : τ → List α}

theorem all_free (h : items.Nodup) : Shares items items fun _ : τ => [] :=
  ⟨h, fun _ => .nil, fun _ _ _ => List.not_mem_nil, fun _ _ _ ha _ => absurd ha List.not_mem_nil,
    fun a => by simp⟩

theorem free_mem (S : Shares items free owned) {a : α} (ha : a ∈ free) : a ∈ items :=
  (S.cover a).mpr (Or.inl ha)

theorem owned_mem (S : Shares items free owned) {t : τ} {a : α} (ha : a ∈ owned t) : a ∈ items :=
  (S.cover a).mpr (Or.inr ⟨t, ha⟩)

theorem rearrange (S : Shares items free owned) (h : ∀ t, (owned' t).Perm (owned t)) :
    Shares items free owned' where
  free_nodup := S.free_nodup
  owned_nodup t := (h t).nodup_iff.mpr (S.owned_nodup t)
  apart t a ha hm := S.apart t a ha ((h t).mem_iff.mp hm)
  exclusive t t' a ha ha' := S.exclusive t t' a ((h t).mem_iff.mp ha) ((h t').mem_iff.mp ha')
  cover a := by simp [S.cover a, (h _).mem_iff]

theorem congr {items' : List α} (S : Shares items free owned) (h : ∀ a, a ∈ items' ↔ a ∈ items) :
    Shares items' free owned :=
  ⟨S.free_nodup, S.owned_nodup, S.apart, S.exclusive, fun a => (h a).trans (S.cover a)⟩

/-- New items arrive, all of them free. -/
theorem enlarge {items' new : List α} (S : Shares items free owned) (hnew : new.Nodup)
    (hapart : ∀ a ∈ new, a ∉ items) (h : ∀ a, a ∈ items' ↔ a ∈ new ∨ a ∈ items) :
    Shares items' (new ++ free) owned where
  free_nodup := by
    refine List.nodup_append.mpr ⟨hnew, S.free_nodup, ?_⟩
    rintro a ha b hb rfl
    exact hapart a ha (S.free_mem hb)
  owned_nodup := S.owned_nodup
  apart t a ha hm := by
    rcases List.mem_append.mp ha with ha | ha
    · exact hapart a ha (S.owned_mem hm)
    · exact S.apart t a ha hm
  exclusive := S.exclusive
  cover a := by simp [h a, S.cover a, or_assoc]

/-- The free items leave the stock. -/
theorem shrink {items' : List α} (S : Shares items free owned)
    (h : ∀ a, a ∈ items' ↔ a ∈ items ∧ a ∉ free) : Shares items' [] owned where
  free_nodup := .nil
  owned_nodup := S.owned_nodup
  apart _ _ ha := by cases ha
  exclusive := S.exclusive
  cover a := by
    rw [h a, S.cover a]
    constructor
    · rintro ⟨hf | ho, hno⟩
      · exact absurd hf hno
      · exact Or.inr ho
    · rintro (hf | ⟨t, ho⟩)
      · cases hf
      · exact ⟨Or.inr ⟨t, ho⟩, fun hf => S.apart t a hf ho⟩

/-- What finitely many owners have and what is free is all there is, each item counted once. -/
theorem sum_length (S : Shares items free owned) (hitems : items.Nodup) (owners : Finset τ)
    (h : ∀ t ∉ owners, owned t = []) :
    free.length + ∑ t ∈ owners, (owned t).length = items.length := by
  classical
  have hall : items.toFinset = free.toFinset ∪ owners.biUnion fun t => (owned t).toFinset := by
    ext a
    simp only [List.mem_toFinset, Finset.mem_union, Finset.mem_biUnion, S.cover a]
    refine or_congr_right ⟨?_, fun ⟨t, _, ha⟩ => ⟨t, ha⟩⟩
    rintro ⟨t, ha⟩
    refine ⟨t, ?_, ha⟩
    by_contra ht
    rw [h t ht] at ha
    cases ha
  have hfree : Disjoint free.toFinset (owners.biUnion fun t => (owned t).toFinset) := by
    refine Finset.disjoint_left.mpr fun a ha hm => ?_
    obtain ⟨t, -, hm⟩ := Finset.mem_biUnion.mp hm
    exact S.apart t a (List.mem_toFinset.mp ha) (List.mem_toFinset.mp hm)
  have hapart : ∀ t ∈ owners, ∀ u ∈ owners, t ≠ u →
      Disjoint (owned t).toFinset (owned u).toFinset := by
    intro t _ u _ hne
    refine Finset.disjoint_left.mpr fun a ha hm => hne ?_
    exact S.exclusive t u a (List.mem_toFinset.mp ha) (List.mem_toFinset.mp hm)
  calc free.length + ∑ t ∈ owners, (owned t).length
      = free.toFinset.card + ∑ t ∈ owners, (owned t).toFinset.card := by
        rw [List.toFinset_card_of_nodup S.free_nodup]
        congr 1
        exact Finset.sum_congr rfl fun t _ =>
          (List.toFinset_card_of_nodup (S.owned_nodup t)).symm
    _ = items.toFinset.card := by
        rw [hall, Finset.card_union_of_disjoint hfree, Finset.card_biUnion hapart]
    _ = items.length := List.toFinset_card_of_nodup hitems

section Moves

variable [DecidableEq τ]

theorem take {b : α} (S : Shares items (b :: free) owned) (t : τ) :
    Shares items free (Function.update owned t (b :: owned t)) := by
  obtain ⟨hb, hfree⟩ := List.nodup_cons.mp S.free_nodup
  have hnew : ∀ t', b ∉ owned t' := fun t' => S.apart t' b (List.mem_cons_self ..)
  have hmem : ∀ t' a, a ∈ Function.update owned t (b :: owned t) t' ↔
      a ∈ owned t' ∨ a = b ∧ t' = t := by
    intro t' a
    by_cases h : t' = t
    · subst h; simp [or_comm]
    · simp [h]
  refine ⟨hfree, ?_, ?_, ?_, ?_⟩
  · intro t'
    by_cases h : t' = t
    · subst h; simpa using ⟨hnew t', S.owned_nodup t'⟩
    · simpa [h] using S.owned_nodup t'
  · intro t' a ha hm
    rcases (hmem t' a).mp hm with hm | ⟨rfl, -⟩
    · exact S.apart t' a (List.mem_cons_of_mem _ ha) hm
    · exact hb ha
  · intro t₁ t₂ a h1 h2
    rcases (hmem t₁ a).mp h1 with m1 | ⟨e1, ht1⟩ <;>
      rcases (hmem t₂ a).mp h2 with m2 | ⟨e2, ht2⟩
    · exact S.exclusive t₁ t₂ a m1 m2
    · exact absurd (e2 ▸ m1) (hnew t₁)
    · exact absurd (e1 ▸ m2) (hnew t₂)
    · exact ht1.trans ht2.symm
  · intro a
    rw [S.cover a, List.mem_cons]
    constructor
    · rintro ((rfl | h) | ⟨t', h⟩)
      · exact Or.inr ⟨t, (hmem t a).mpr (Or.inr ⟨rfl, rfl⟩)⟩
      · exact Or.inl h
      · exact Or.inr ⟨t', (hmem t' a).mpr (Or.inl h)⟩
    · rintro (h | ⟨t', h⟩)
      · exact Or.inl (Or.inr h)
      · rcases (hmem t' a).mp h with h | ⟨rfl, -⟩
        · exact Or.inr ⟨t', h⟩
        · exact Or.inl (Or.inl rfl)

theorem gain {b : α} (S : Shares items free owned) (hb : b ∉ items) (t : τ) :
    Shares (b :: items) free (Function.update owned t (b :: owned t)) := by
  refine Shares.take ?_ t
  refine S.enlarge (List.nodup_singleton b) ?_ fun a => by simp
  rintro a ha
  rwa [List.mem_singleton.mp ha]

theorem give {b : α} {rest : List α} (S : Shares items free owned) {t : τ}
    (h : (owned t).Perm (b :: rest)) :
    Shares items (b :: free) (Function.update owned t rest) := by
  obtain ⟨hb, hrest⟩ := List.nodup_cons.mp (h.nodup_iff.mp (S.owned_nodup t))
  have hbt : b ∈ owned t := h.mem_iff.mpr (List.mem_cons_self ..)
  have hmem : ∀ t' a, a ∈ Function.update owned t rest t' ↔ a ∈ owned t' ∧ a ≠ b := by
    intro t' a
    by_cases ht : t' = t
    · subst ht
      rw [Function.update_self, h.mem_iff, List.mem_cons]
      constructor
      · intro ha
        exact ⟨Or.inr ha, by rintro rfl; exact hb ha⟩
      · rintro ⟨ha, hne⟩
        exact ha.resolve_left hne
    · rw [Function.update_of_ne ht]
      refine ⟨fun ha => ⟨ha, ?_⟩, fun ha => ha.1⟩
      rintro rfl
      exact ht (S.exclusive t' t a ha hbt)
  refine ⟨?_, ?_, ?_, ?_, ?_⟩
  · exact List.nodup_cons.mpr ⟨fun hf => S.apart t b hf hbt, S.free_nodup⟩
  · intro t'
    by_cases ht : t' = t
    · subst ht; simpa using hrest
    · simpa [ht] using S.owned_nodup t'
  · intro t' a ha hm
    obtain ⟨hm, hne⟩ := (hmem t' a).mp hm
    rcases List.mem_cons.mp ha with rfl | ha
    · exact hne rfl
    · exact S.apart t' a ha hm
  · intro t₁ t₂ a h1 h2
    exact S.exclusive t₁ t₂ a ((hmem t₁ a).mp h1).1 ((hmem t₂ a).mp h2).1
  · intro a
    rw [S.cover a, List.mem_cons]
    by_cases hab : a = b
    · subst hab; simpa using Or.inr ⟨t, hbt⟩
    · simp [hmem, hab]

/-- All that an owner has becomes free. -/
theorem release {free' : List α} (S : Shares items free owned) {t : τ}
    (h : free'.Perm (owned t ++ free)) : Shares items free' (Function.update owned t []) := by
  have hmem : ∀ t' a, a ∈ Function.update owned t [] t' ↔ a ∈ owned t' ∧ t' ≠ t := by
    intro t' a
    by_cases ht : t' = t
    · subst ht; simp
    · simp [ht]
  have hnd : (owned t ++ free).Nodup := by
    refine List.nodup_append.mpr ⟨S.owned_nodup t, S.free_nodup, ?_⟩
    rintro a ha b hb rfl
    exact S.apart t a hb ha
  refine ⟨h.nodup_iff.mpr hnd, ?_, ?_, ?_, ?_⟩
  · intro t'
    by_cases ht : t' = t
    · subst ht; simp
    · simpa [ht] using S.owned_nodup t'
  · intro t' a ha hm
    obtain ⟨hm, hne⟩ := (hmem t' a).mp hm
    rcases List.mem_append.mp (h.mem_iff.mp ha) with ha | ha
    · exact hne (S.exclusive t' t a hm ha)
    · exact S.apart t' a ha hm
  · intro t₁ t₂ a h1 h2
    exact S.exclusive t₁ t₂ a ((hmem t₁ a).mp h1).1 ((hmem t₂ a).mp h2).1
  · intro a
    rw [S.cover a, h.mem_iff, List.mem_append]
    constructor
    · rintro (ha | ⟨t', ha⟩)
      · exact Or.inl (Or.inr ha)
      · by_cases ht : t' = t
        · exact Or.inl (Or.inl (ht ▸ ha))
        · exact Or.inr ⟨t', (hmem t' a).mpr ⟨ha, ht⟩⟩
    · rintro ((ha | ha) | ⟨t', ha⟩)
      · exact Or.inr ⟨t, ha⟩
      · exact Or.inl ha
      · exact Or.inr ⟨t', ((hmem t' a).mp ha).1⟩

/-- All that owner `t` has goes to owner `t'`, who had nothing. -/
theorem transfer (S : Shares items free owned) {t t' : τ} (ht : t' ≠ t) (h : owned t' = []) :
    Shares items free (Function.update (Function.update owned t []) t' (owned t)) := by
  have hmem : ∀ u a, a ∈ Function.update (Function.update owned t []) t' (owned t) u ↔
      (u = t' ∧ a ∈ owned t) ∨ (u ≠ t ∧ u ≠ t' ∧ a ∈ owned u) := by
    intro u a
    by_cases hu' : u = t'
    · subst hu'; simp
    · by_cases hu : u = t
      · subst hu; simp [hu']
      · simp [hu, hu']
  refine ⟨S.free_nodup, ?_, ?_, ?_, ?_⟩
  · intro u
    by_cases hu' : u = t'
    · subst hu'; simpa using S.owned_nodup t
    · by_cases hu : u = t
      · subst hu; simp [hu']
      · simpa [hu, hu'] using S.owned_nodup u
  · intro u a ha hm
    rcases (hmem u a).mp hm with ⟨-, hm⟩ | ⟨-, -, hm⟩
    · exact S.apart t a ha hm
    · exact S.apart u a ha hm
  · intro u v a h1 h2
    rcases (hmem u a).mp h1 with ⟨rfl, m1⟩ | ⟨hu, -, m1⟩ <;>
      rcases (hmem v a).mp h2 with ⟨hv, m2⟩ | ⟨hv, -, m2⟩
    · exact hv.symm
    · exact absurd (S.exclusive t v a m1 m2).symm hv
    · exact absurd (S.exclusive u t a m1 m2) hu
    · exact S.exclusive u v a m1 m2
  · intro a
    rw [S.cover a]
    refine or_congr_right ⟨?_, ?_⟩
    · rintro ⟨u, hu⟩
      by_cases hut : u = t
      · exact ⟨t', (hmem t' a).mpr (Or.inl ⟨rfl, hut ▸ hu⟩)⟩
      · refine ⟨u, (hmem u a).mpr (Or.inr ⟨hut, ?_, hu⟩)⟩
        rintro rfl
        rw [h] at hu
        cases hu
    · rintro ⟨u, hu⟩
      rcases (hmem u a).mp hu with ⟨-, hu⟩ | ⟨-, -, hu⟩
      · exact ⟨t, hu⟩
      · exact ⟨u, hu⟩

end Moves

end Shares
