import Mathlib.Data.List.Perm.Basic
import Mathlib.Data.List.Range
import Mathlib.Tactic.Common

/-!
# MemoryPool.Lib.Ledger

A ledger of resources. Everything obtained gets the next identity; what is outstanding and what
was released together are exactly the identities handed out, each once (`Ledger.balanced`, a
field). Releasing something that is not outstanding is recorded in `invalid`, so that "nothing is
released twice" is a property of the ledger and not an assumption about its user.
-/

structure Ledger (κ : Type*) where
  next : Nat
  live : List (Nat × κ)
  released : List Nat
  invalid : Nat
  balanced : (live.map Prod.fst ++ released).Perm (List.range next)

namespace Ledger

variable {κ : Type*}

def takeOut {α : Type*} (p : α → Bool) : List α → Option (α × List α)
  | [] => none
  | a :: l =>
    if p a then some (a, l)
    else
      match takeOut p l with
      | none => none
      | some (b, r) => some (b, a :: r)

theorem takeOut_some {α : Type*} {p : α → Bool} :
    ∀ {l : List α} {a : α} {r : List α}, takeOut p l = some (a, r) →
      p a = true ∧ l.Perm (a :: r) := by
  intro l
  induction l with
  | nil => intro a r h; cases h
  | cons b l ih =>
    intro a r h
    simp only [takeOut] at h
    split at h
    · rename_i hb; cases h; exact ⟨hb, .refl _⟩
    · split at h
      · cases h
      · rename_i c r' hr
        cases h
        obtain ⟨hp, hl⟩ := ih hr
        exact ⟨hp, (hl.cons b).trans (.swap ..)⟩

theorem takeOut_none {α : Type*} {p : α → Bool} :
    ∀ {l : List α}, takeOut p l = none → ∀ a ∈ l, p a = false := by
  intro l
  induction l with
  | nil => intro _ a ha; cases ha
  | cons b l ih =>
    intro h a ha
    simp only [takeOut] at h
    split at h
    · cases h
    · rename_i hb
      split at h
      · rename_i hr
        rcases List.mem_cons.mp ha with rfl | ha
        · simpa using hb
        · exact ih hr a ha
      · cases h

def empty : Ledger κ := ⟨0, [], [], 0, .refl _⟩

def obtain (L : Ledger κ) (k : κ) : Ledger κ where
  next := L.next + 1
  live := (L.next, k) :: L.live
  released := L.released
  invalid := L.invalid
  balanced := by
    rw [List.range_succ]
    exact (L.balanced.cons L.next).trans (List.perm_append_singleton _ _).symm

/-- Release the outstanding resource that `p` recognises. -/
def release (L : Ledger κ) (p : κ → Bool) : Ledger κ :=
  match h : takeOut (fun e => p e.2) L.live with
  | none => { L with invalid := L.invalid + 1 }
  | some (e, r) =>
    { next := L.next
      live := r
      released := e.1 :: L.released
      invalid := L.invalid
      balanced := by
        have hp := ((takeOut_some h).2.map Prod.fst).append_right L.released
        refine List.Perm.trans ?_ (hp.symm.trans L.balanced)
        simp [List.perm_middle] }

@[simp] theorem live_obtain (L : Ledger κ) (k : κ) :
    (L.obtain k).live = (L.next, k) :: L.live := rfl

/-- Releasing an outstanding resource that nothing else outstanding is mistaken for. -/
theorem release_live {L : Ledger κ} {p : κ → Bool} {e : Nat × κ} {rest : List (Nat × κ)}
    (h : L.live.Perm (e :: rest)) (hp : p e.2 = true) (hrest : ∀ x ∈ rest, p x.2 = false) :
    (L.release p).live.Perm rest ∧ (L.release p).invalid = L.invalid := by
  unfold release
  split
  · rename_i hn
    have := takeOut_none hn e (h.mem_iff.mpr (List.mem_cons_self ..))
    rw [hp] at this
    cases this
  · rename_i x r hx
    obtain ⟨hpx, hl⟩ := takeOut_some hx
    have hmem : x ∈ e :: rest := h.mem_iff.mp (hl.mem_iff.mpr (List.mem_cons_self ..))
    have he : x = e := by
      rcases List.mem_cons.mp hmem with he | hr
      · exact he
      · rw [hrest x hr] at hpx; cases hpx
    subst he
    exact ⟨(List.perm_cons x).mp (hl.symm.trans h), rfl⟩

theorem release_obtain (L : Ledger κ) {p : κ → Bool} {k : κ} (hp : p k = true) :
    ((L.obtain k).release p).live = L.live ∧ ((L.obtain k).release p).invalid = L.invalid := by
  have ht : takeOut (fun e : Nat × κ => p e.2) (L.obtain k).live = some ((L.next, k), L.live) := by
    simp [takeOut, hp]
  unfold release
  split
  · rename_i hn; rw [ht] at hn; cases hn
  · rename_i x r hx
    rw [ht] at hx
    cases hx
    exact ⟨rfl, rfl⟩

theorem release_sub (L : Ledger κ) (p : κ → Bool) :
    ∃ gone, L.live.Perm (gone ++ (L.release p).live) := by
  unfold release
  split
  · exact ⟨[], .refl _⟩
  · rename_i e r h
    exact ⟨[e], (takeOut_some h).2⟩

/-! ## Ledgers that differ in identities alone -/

/-- The same resources outstanding, in the same order. The identities they have, and what was
released before, may differ. -/
structure Alike (L L' : Ledger κ) : Prop where
  live : L'.live.map Prod.snd = L.live.map Prod.snd
  invalid : L'.invalid = L.invalid

theorem takeOut_map (p : κ → Bool) (l : List (Nat × κ)) :
    (takeOut (fun e => p e.2) l).map (fun r => (r.1.2, r.2.map Prod.snd)) =
      takeOut p (l.map Prod.snd) := by
  induction l with
  | nil => rfl
  | cons e l ih =>
    simp only [List.map_cons, takeOut]
    rw [← ih]
    split
    · rfl
    · cases takeOut (fun e => p e.2) l <;> rfl

/-- What a release does depends on the resources, not on their identities. -/
theorem release_view (L : Ledger κ) (p : κ → Bool) :
    (L.release p).live.map Prod.snd =
        (takeOut p (L.live.map Prod.snd)).elim (L.live.map Prod.snd) Prod.snd ∧
      (L.release p).invalid =
        (takeOut p (L.live.map Prod.snd)).elim (L.invalid + 1) fun _ => L.invalid := by
  have hmap := takeOut_map p L.live
  unfold release
  split
  · rename_i hn
    rw [← hmap, hn]
    exact ⟨rfl, rfl⟩
  · rename_i e r hr
    have hview : takeOut p (L.live.map Prod.snd) = some (e.2, r.map Prod.snd) := by
      rw [← hmap, hr]
      rfl
    rw [hview]
    exact ⟨rfl, rfl⟩

namespace Alike

variable {L L' : Ledger κ}

theorem obtain (h : L.Alike L') (k : κ) : (L.obtain k).Alike (L'.obtain k) := by
  refine ⟨?_, h.invalid⟩
  simp only [live_obtain, List.map_cons, h.live]

theorem release (h : L.Alike L') (p : κ → Bool) : (L.release p).Alike (L'.release p) := by
  obtain ⟨h1, h2⟩ := L.release_view p
  obtain ⟨h3, h4⟩ := L'.release_view p
  rw [h.live] at h3 h4
  rw [h.invalid] at h4
  exact ⟨h3.trans h1.symm, h4.trans h2.symm⟩

theorem forall_live (h : L.Alike L') {P : κ → Prop} :
    (∀ e ∈ L'.live, P e.2) ↔ ∀ e ∈ L.live, P e.2 := by
  have hmap : ∀ l : List (Nat × κ), (∀ e ∈ l, P e.2) ↔ ∀ k ∈ l.map Prod.snd, P k := by
    intro l
    rw [List.forall_mem_map]
  rw [hmap, hmap, h.live]

end Alike

theorem mem_release {L : Ledger κ} {p : κ → Bool} {e : Nat × κ} (he : e ∈ L.live)
    (hp : p e.2 = false) : e ∈ (L.release p).live := by
  unfold release
  split
  · exact he
  · rename_i x r hx
    obtain ⟨hpx, hl⟩ := takeOut_some hx
    rcases List.mem_cons.mp (hl.mem_iff.mp he) with rfl | hr
    · rw [hpx] at hp; cases hp
    · exact hr

end Ledger
