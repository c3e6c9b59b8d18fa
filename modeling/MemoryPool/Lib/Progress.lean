import Mathlib.Algebra.BigOperators.Group.Finset.Basic
import Mathlib.Algebra.Order.BigOperators.Group.Finset
import Mathlib.Data.Fintype.Card
import MemoryPool.Lib.Lts

/-!
# MemoryPool.Lib.Progress

The work of threads that set each other back, by a potential for each thread.

`left s t` is what thread `t` has left to do in `s`. It goes down with each step of the thread. A
step may set the other threads back, each by the same amount, if it is paid for by what the thread
itself has left (`Charged`). A call brings `entry` with it. Then all steps of a run are paid for by
its calls (`Charged.run`), and a run without calls is no longer than what is left
(`Charged.run_quiet`).
-/

namespace Lts

inductive Role (τ : Type*) where
  | call (t : τ)
  | own (t : τ)
  | other

namespace Role

variable {τ : Type*}

def isCall : Role τ → Bool
  | .call _ => true
  | _ => false

def isOwn : Role τ → Bool
  | .own _ => true
  | _ => false

end Role

variable {σ ε τ : Type*}

structure Charged [Fintype τ] (L : Lts σ ε) (I : σ → Prop) (role : ε → Role τ)
    (left : σ → τ → Nat) (entry : Nat) : Prop where
  keep : ∀ s e s', I s → L.step s e s' → I s'
  call : ∀ s e s' t, I s → L.step s e s' → role e = .call t →
    left s' t ≤ left s t + entry ∧ ∀ u ≠ t, left s' u ≤ left s u
  own : ∀ s e s' t, I s → L.step s e s' → role e = .own t →
    ∃ setback, left s' t + 1 + setback * (Fintype.card τ - 1) ≤ left s t ∧
      ∀ u ≠ t, left s' u ≤ left s u + setback
  other : ∀ s e s', I s → L.step s e s' → role e = .other → ∀ u, left s' u ≤ left s u

/-- One summand pays for what the others may grow. -/
theorem sum_setback [Fintype τ] {f g : τ → Nat} {t : τ} (gain cost setback : Nat)
    (ht : f t + cost + setback * (Fintype.card τ - 1) ≤ g t + gain)
    (hu : ∀ u ≠ t, f u ≤ g u + setback) : ∑ u, f u + cost ≤ ∑ u, g u + gain := by
  classical
  have hcard : (Finset.univ.erase t).card = Fintype.card τ - 1 := by
    rw [Finset.card_erase_of_mem (Finset.mem_univ t), Finset.card_univ]
  have hothers : ∑ u ∈ Finset.univ.erase t, f u ≤
      ∑ u ∈ Finset.univ.erase t, g u + setback * (Fintype.card τ - 1) := by
    calc ∑ u ∈ Finset.univ.erase t, f u
        ≤ ∑ u ∈ Finset.univ.erase t, (g u + setback) :=
          Finset.sum_le_sum fun u hu' => hu u (Finset.ne_of_mem_erase hu')
      _ = ∑ u ∈ Finset.univ.erase t, g u + setback * (Fintype.card τ - 1) := by
          rw [Finset.sum_add_distrib, Finset.sum_const, hcard, Nat.nsmul_eq_mul, Nat.mul_comm]
  have hf := Finset.add_sum_erase Finset.univ f (Finset.mem_univ t)
  have hg := Finset.add_sum_erase Finset.univ g (Finset.mem_univ t)
  omega

theorem sum_le_busy [Fintype τ] {f : τ → Nat} {bound : Nat} {busy : Finset τ}
    (hidle : ∀ t, t ∉ busy → f t = 0) (hle : ∀ t, f t ≤ bound) : ∑ t, f t ≤ bound * busy.card := by
  rw [← Finset.sum_subset (Finset.subset_univ busy) fun t _ => hidle t, Nat.mul_comm,
    ← Nat.nsmul_eq_mul]
  exact Finset.sum_le_card_nsmul _ _ _ fun t _ => hle t

namespace Charged

variable [Fintype τ] {L : Lts σ ε} {I : σ → Prop} {role : ε → Role τ} {left : σ → τ → Nat}
  {entry : Nat} {s s' : σ} {es : List ε}

theorem step (C : Charged L I role left entry) {e : ε} (hI : I s) (h : L.step s e s') :
    (if (role e).isOwn then 1 else 0) + ∑ t, left s' t ≤
      (if (role e).isCall then entry else 0) + ∑ t, left s t := by
  cases hr : role e with
  | call t =>
    obtain ⟨ht, hu⟩ := C.call s e s' t hI h hr
    have := sum_setback (f := left s') (g := left s) (t := t) entry 0 0 (by omega)
      (by simpa using hu)
    simp only [Role.isOwn, Role.isCall, Bool.false_eq_true, if_false, if_true]
    omega
  | own t =>
    obtain ⟨setback, ht, hu⟩ := C.own s e s' t hI h hr
    have := sum_setback (f := left s') (g := left s) (t := t) 0 1 setback (by omega) hu
    simp only [Role.isOwn, Role.isCall, Bool.false_eq_true, if_false, if_true]
    omega
  | other =>
    have := Finset.sum_le_sum fun u (_ : u ∈ Finset.univ) => C.other s e s' hI h hr u
    simpa [Role.isOwn, Role.isCall] using this

theorem run (C : Charged L I role left entry) (h : L.Run s es s') (hI : I s) :
    es.countP (fun e => (role e).isOwn) + ∑ t, left s' t ≤
      entry * es.countP (fun e => (role e).isCall) + ∑ t, left s t := by
  suffices I s' ∧ es.countP (fun e => (role e).isOwn) + ∑ t, left s' t ≤
      entry * es.countP (fun e => (role e).isCall) + ∑ t, left s t from this.2
  induction h with
  | nil => exact ⟨hI, by simp⟩
  | @snoc s₁ s₂ es e _ hs ih =>
    obtain ⟨hI₁, hle⟩ := ih
    refine ⟨C.keep _ _ _ hI₁ hs, ?_⟩
    have hstep := C.step hI₁ hs
    simp only [List.countP_append, List.countP_singleton]
    cases hc : (role e).isCall <;>
      simp only [hc, Bool.false_eq_true, if_false, if_true, Nat.add_zero] at hstep ⊢
    · omega
    · rw [Nat.mul_add, Nat.mul_one]
      omega

theorem run_quiet (C : Charged L I role left entry) (h : L.Run s es s') (hI : I s)
    (hno : ∀ e ∈ es, (role e).isCall = false) :
    es.countP (fun e => (role e).isOwn) ≤ ∑ t, left s t := by
  have hrun := C.run h hI
  have hzero : es.countP (fun e => (role e).isCall) = 0 := by
    rw [List.countP_eq_zero]
    intro e he
    rw [hno e he]
    simp
  rw [hzero, Nat.mul_zero] at hrun
  omega

end Charged

end Lts
