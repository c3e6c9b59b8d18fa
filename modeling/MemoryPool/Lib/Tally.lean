import MemoryPool.Lib.Shares

/-!
# MemoryPool.Lib.Tally

Counting what any number of owners have, each item once.

`Tally items owned`: the list `items` has exactly the owners' items, without repetition, so that its
length is their number. An owner gains an item nobody has (`Tally.gain`) or loses one of its own
(`Tally.lose`); who has less is counted less (`Tally.length_le`).
-/

variable {α τ : Type*}

structure Tally (items : List α) (owned : τ → List α) : Prop extends Shares items [] owned where
  nodup : items.Nodup

namespace Tally

variable {items items' : List α} {owned owned' : τ → List α}

theorem none : Tally ([] : List α) fun _ : τ => [] := ⟨Shares.all_free .nil, .nil⟩

theorem mem_iff (T : Tally items owned) {a : α} : a ∈ items ↔ ∃ t, a ∈ owned t := by
  simpa using T.cover a

theorem mem (T : Tally items owned) {t : τ} {a : α} (ha : a ∈ owned t) : a ∈ items :=
  T.mem_iff.mpr ⟨t, ha⟩

theorem same (T : Tally items owned) (h : ∀ t, (owned' t).Perm (owned t)) : Tally items owned' :=
  ⟨T.rearrange h, T.nodup⟩

theorem length_le (T : Tally items owned) (T' : Tally items' owned')
    (h : ∀ t, owned t ⊆ owned' t) : items.length ≤ items'.length := by
  refine (List.subperm_of_subset T.nodup fun a ha => ?_).length_le
  obtain ⟨t, ht⟩ := T.mem_iff.mp ha
  exact T'.mem (h t ht)

theorem length_eq (T : Tally items owned) (T' : Tally items' owned')
    (h : ∀ t, owned t = owned' t) : items.length = items'.length := by
  refine Nat.le_antisymm (T.length_le T' fun t => ?_) (T'.length_le T fun t => ?_)
  · rw [h t]
    exact List.Subset.refl _
  · rw [h t]
    exact List.Subset.refl _

/-- An item that its owner does not count is counted by nobody, if the others count only theirs. -/
theorem uncounted (T : Tally items owned) (T' : Tally items' owned') (h : ∀ t, owned t ⊆ owned' t)
    {t : τ} {a : α} (ha : a ∈ owned' t) (hno : a ∉ owned t) : a ∉ items := by
  intro hm
  obtain ⟨t', ht'⟩ := T.mem_iff.mp hm
  obtain rfl := T'.exclusive t' t a (h t' ht') ha
  exact hno ht'

variable [DecidableEq τ]

theorem gain {b : α} (T : Tally items owned) (hb : b ∉ items) (t : τ) :
    Tally (b :: items) (Function.update owned t (b :: owned t)) :=
  ⟨T.toShares.gain hb t, List.nodup_cons.mpr ⟨hb, T.nodup⟩⟩

variable [DecidableEq α]

theorem lose {b : α} {rest : List α} (T : Tally items owned) {t : τ}
    (h : (owned t).Perm (b :: rest)) :
    Tally (items.erase b) (Function.update owned t rest) ∧
      items.length = (items.erase b).length + 1 := by
  have hb : b ∈ items := T.mem (h.mem_iff.mpr (List.mem_cons_self ..))
  refine ⟨⟨(T.toShares.give h).shrink fun a => ?_, T.nodup.erase b⟩, ?_⟩
  · rw [T.nodup.mem_erase_iff, List.mem_singleton, and_comm]
  · have := List.length_pos_of_mem hb
    rw [List.length_erase_of_mem hb]
    omega

end Tally
