import Mathlib.Data.List.Nodup
import Mathlib.Data.List.Perm.Basic
import Mathlib.Tactic.Common

/-!
# MemoryPool.Lib.Chain

Linked lists threaded through a store, over any type of cells.

`Chain next nil a l`: following `next` from `a` visits exactly the cells of `l`, in order, and then
reaches the end mark `nil`; no cell of `l` is the end mark.

A chain is determined by its start (`Chain.unique`), never repeats a cell (`Chain.nodup`), and
survives every update of `next` outside its own cells (`Chain.congr`).
-/

namespace LinkedList

variable {α : Type*} {next next' : α → α} {nil : α}

inductive Chain (next : α → α) (nil : α) : α → List α → Prop where
  | nil : Chain next nil nil []
  | cons {a : α} {l : List α} : a ≠ nil → Chain next nil (next a) l → Chain next nil a (a :: l)

namespace Chain

theorem nil_iff {l : List α} : Chain next nil nil l ↔ l = [] := by
  constructor
  · intro h
    cases h with
    | nil => rfl
    | cons hne _ => exact absurd rfl hne
  · rintro rfl; exact .nil

theorem cons_iff {a b : α} {l : List α} :
    Chain next nil a (b :: l) ↔ a = b ∧ b ≠ nil ∧ Chain next nil (next b) l := by
  constructor
  · intro h
    cases h with
    | cons hne hc => exact ⟨rfl, hne, hc⟩
  · rintro ⟨rfl, hne, hc⟩; exact .cons hne hc

theorem start_eq_nil {a : α} (h : Chain next nil a []) : a = nil := by
  cases h; rfl

theorem eq_cons {a : α} {l : List α} (h : Chain next nil a l) (ha : a ≠ nil) :
    ∃ t, l = a :: t ∧ Chain next nil (next a) t := by
  cases h with
  | nil => exact absurd rfl ha
  | cons _ hc => exact ⟨_, rfl, hc⟩

theorem unique {a : α} {l l' : List α} (h : Chain next nil a l) (h' : Chain next nil a l') :
    l = l' := by
  induction h generalizing l' with
  | nil => exact (nil_iff.mp h').symm
  | cons hne _ ih =>
    obtain ⟨t, rfl, ht⟩ := h'.eq_cons hne
    rw [ih ht]

/-- From any cell of a chain the rest of it is reached. -/
theorem of_mem {a b : α} {l : List α} (h : Chain next nil a l) (hb : b ∈ l) :
    ∃ l₁ l₂, l = l₁ ++ b :: l₂ ∧ Chain next nil b (b :: l₂) := by
  induction h with
  | nil => cases hb
  | @cons a l hne hc ih =>
    rcases List.mem_cons.mp hb with rfl | hb
    · exact ⟨[], l, rfl, .cons hne hc⟩
    · obtain ⟨l₁, l₂, rfl, h2⟩ := ih hb
      exact ⟨a :: l₁, l₂, rfl, h2⟩

theorem next_mem {a b : α} {l : List α} (h : Chain next nil a l) (hb : b ∈ l) :
    next b = nil ∨ next b ∈ l := by
  obtain ⟨l₁, l₂, rfl, h2⟩ := h.of_mem hb
  obtain ⟨-, -, h3⟩ := cons_iff.mp h2
  by_cases hn : next b = nil
  · exact Or.inl hn
  · obtain ⟨t, rfl, -⟩ := h3.eq_cons hn
    right
    simp

/-- A chain that ends visits no cell twice: from a repeated cell two different lists would be
reached. -/
theorem nodup {a : α} {l : List α} (h : Chain next nil a l) : l.Nodup := by
  induction h with
  | nil => exact .nil
  | @cons a l hne hc ih =>
    refine List.nodup_cons.mpr ⟨fun hm => ?_, ih⟩
    obtain ⟨l₁, l₂, hl, h2⟩ := hc.of_mem hm
    have heq := h2.unique (.cons hne hc)
    have hlen := congrArg List.length heq
    simp [hl] at hlen
    omega

theorem congr {a : α} {l : List α} (h : Chain next nil a l) (hn : ∀ b ∈ l, next' b = next b) :
    Chain next' nil a l := by
  induction h with
  | nil => exact .nil
  | @cons a l hne hc ih =>
    refine .cons hne ?_
    rw [hn a (List.mem_cons_self ..)]
    exact ih fun b hb => hn b (List.mem_cons_of_mem _ hb)

theorem push {a b : α} {l : List α} (h : Chain next nil a l) (hb : b ≠ nil)
    (hlink : next' b = a) (hn : ∀ c ∈ l, next' c = next c) : Chain next' nil b (b :: l) := by
  refine .cons hb ?_
  rw [hlink]
  exact h.congr hn

end Chain

end LinkedList
