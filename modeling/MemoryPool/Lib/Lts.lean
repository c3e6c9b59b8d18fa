import Mathlib.Data.List.Forall2
import Mathlib.Data.List.Induction
import Mathlib.Tactic.Common

/-!
# MemoryPool.Lib.Lts

Labelled transition systems and their finite runs.

* `Lts.Run`: finite runs, extended at the end, so that an induction on a run is an induction on
  how its last state was reached.
* `Run.invariant`: what one step preserves, a run preserves.
* `Run.simulate`: a step-by-step simulation carries every run of one system to a run of another
  with related labels.
* `Run.project`: a simulation that drops labels, and answers one step by none or by several.
* `Run.lockstep`: two systems driven by related inputs stay related and answer alike.
* `Lts.guard`: the runs all of whose steps meet a condition.
* `Lts.restrict_iff`: two conditions on steps that agree wherever an invariant holds allow the same
  runs.
* `Lts.script`: run a deterministic step function on a list of inputs (`script_run`,
  `script_reaches`); `Lts.answered` puts the answers into the trace, `Lts.only` leaves the steps
  that meet a condition.
-/

structure Lts (σ ε : Type*) where
  step : σ → ε → σ → Prop

namespace Lts

variable {σ τ ε δ : Type*}

theorem forall₂_snoc_inv {A : ε → δ → Prop} {e : ε} :
    ∀ {es : List ε} {ds : List δ}, List.Forall₂ A (es ++ [e]) ds →
      ∃ ds' d, ds = ds' ++ [d] ∧ List.Forall₂ A es ds' ∧ A e d := by
  intro es
  induction es with
  | nil =>
    intro ds h
    cases h with
    | cons hd ht => cases ht; exact ⟨[], _, rfl, .nil, hd⟩
  | cons a es ih =>
    intro ds h
    cases h with
    | cons hd ht =>
      obtain ⟨ds', d, rfl, h1, h2⟩ := ih ht
      exact ⟨_ :: ds', d, rfl, .cons hd h1, h2⟩

theorem filterMap_single (f : ε → Option δ) (e : ε) : [e].filterMap f = (f e).toList := by
  rw [List.filterMap_eq_flatMap_toList, List.flatMap_singleton]

theorem filterMap_reverse_snoc (f : ε → Option δ) (es : List ε) (e : ε) :
    ((es ++ [e]).filterMap f).reverse = (f e).toList ++ (es.filterMap f).reverse := by
  rw [List.filterMap_append, filterMap_single, List.reverse_append]
  cases f e <;> rfl

inductive Run (L : Lts σ ε) : σ → List ε → σ → Prop where
  | nil {s : σ} : Run L s [] s
  | snoc {s s' s'' : σ} {es : List ε} {e : ε} :
      Run L s es s' → L.step s' e s'' → Run L s (es ++ [e]) s''

def guard (L : Lts σ ε) (G : σ → ε → Prop) : Lts σ ε where
  step s e s' := G s e ∧ L.step s e s'

/-- The system restricted to the steps, with the state they lead to, that meet `K`. -/
def restrict (L : Lts σ ε) (K : σ → ε → σ → Prop) : Lts σ ε where
  step s e s' := K s e s' ∧ L.step s e s'

namespace Run

variable {L : Lts σ ε} {M : Lts τ δ}

theorem single {s s' : σ} {e : ε} (h : L.step s e s') : Run L s [e] s' := .snoc .nil h

theorem trans {s s' s'' : σ} {es es' : List ε} (h : Run L s es s') (h' : Run L s' es' s'') :
    Run L s (es ++ es') s'' := by
  induction h' with
  | nil => simpa using h
  | snoc _ hs ih =>
    rw [← List.append_assoc]
    exact .snoc ih hs

theorem cons {s s' s'' : σ} {e : ε} {es : List ε} (h : L.step s e s') (h' : Run L s' es s'') :
    Run L s (e :: es) s'' := (single h).trans h'

theorem invariant {I : σ → Prop} (hstep : ∀ s e s', I s → L.step s e s' → I s')
    {s s' : σ} {es : List ε} (h : Run L s es s') (h0 : I s) : I s' := by
  induction h with
  | nil => exact h0
  | snoc _ hs ih => exact hstep _ _ _ ih hs

theorem simulate {R : σ → τ → Prop} {A : ε → δ → Prop}
    (hstep : ∀ s e s' t, R s t → L.step s e s' → ∃ d t', A e d ∧ M.step t d t' ∧ R s' t')
    {s s' : σ} {t : τ} {es : List ε} (h : Run L s es s') (h0 : R s t) :
    ∃ ds t', List.Forall₂ A es ds ∧ Run M t ds t' ∧ R s' t' := by
  induction h with
  | nil => exact ⟨[], t, .nil, .nil, h0⟩
  | snoc _ hs ih =>
    obtain ⟨ds, t', hA, hr, hR⟩ := ih
    obtain ⟨d, t'', ha, hm, hR'⟩ := hstep _ _ _ _ hR hs
    exact ⟨ds ++ [d], t'', List.rel_append hA (.cons ha .nil), .snoc hr hm, hR'⟩

/-- Some labels are dropped, and what is left of the run is a run of the other system: none, one or
more steps for each step. -/
theorem project {α : Type*} {R : σ → τ → Prop} {A : α → δ → Prop} {f : ε → Option α}
    (hstep : ∀ s e s' t, R s t → L.step s e s' →
      ∃ ds t', List.Forall₂ A (f e).toList ds ∧ Run M t ds t' ∧ R s' t')
    {s s' : σ} {t : τ} {es : List ε} (h : Run L s es s') (h0 : R s t) :
    ∃ ds t', List.Forall₂ A (es.filterMap f) ds ∧ Run M t ds t' ∧ R s' t' := by
  induction h with
  | nil => exact ⟨[], t, .nil, .nil, h0⟩
  | snoc _ hs ih =>
    obtain ⟨ds, t', hA, hr, hR⟩ := ih
    obtain ⟨ds', t'', hA', hr', hR'⟩ := hstep _ _ _ _ hR hs
    refine ⟨ds ++ ds', t'', ?_, hr.trans hr', hR'⟩
    rw [List.filterMap_append, filterMap_single]
    exact List.rel_append hA hA'

theorem nil_inv {s s' : σ} (h : Run L s [] s') : s' = s := by
  generalize hl : ([] : List ε) = l at h
  cases h with
  | nil => rfl
  | snoc _ _ => simp at hl

theorem snoc_inv {s s'' : σ} {es : List ε} {e : ε} (h : Run L s (es ++ [e]) s'') :
    ∃ s', Run L s es s' ∧ L.step s' e s'' := by
  generalize hl : es ++ [e] = l at h
  cases h with
  | nil => simp at hl
  | @snoc s₁ _ l₁ e₁ hr hs =>
    obtain ⟨h1, h2⟩ := List.append_inj' hl rfl
    obtain rfl : e = e₁ := by simpa using h2
    subst h1
    exact ⟨s₁, hr, hs⟩

theorem single_inv {s s' : σ} {e : ε} (h : Run L s [e] s') : L.step s e s' := by
  obtain ⟨s₁, hr, hs⟩ := (show Run L s ([] ++ [e]) s' from h).snoc_inv
  rwa [hr.nil_inv] at hs

/-- A run is cut at any place of its trace. -/
theorem append_inv {s s'' : σ} {es es' : List ε} (h : Run L s (es ++ es') s'') :
    ∃ s', Run L s es s' ∧ Run L s' es' s'' := by
  induction es' using List.reverseRecOn generalizing s'' with
  | nil => exact ⟨s'', by simpa using h, .nil⟩
  | append_singleton es' e ih =>
    rw [← List.append_assoc] at h
    obtain ⟨s₁, hr, hs⟩ := h.snoc_inv
    obtain ⟨s', h1, h2⟩ := ih hr
    exact ⟨s', h1, .snoc h2 hs⟩

theorem lockstep {R : σ → τ → Prop} {A B : ε → δ → Prop}
    (hstep : ∀ s e s' t d t', R s t → A e d → L.step s e s' → M.step t d t' →
      B e d ∧ R s' t')
    {s s' : σ} {t t' : τ} {es : List ε} {ds : List δ} (h : Run L s es s') (h' : Run M t ds t')
    (hA : List.Forall₂ A es ds) (h0 : R s t) : List.Forall₂ B es ds ∧ R s' t' := by
  induction h generalizing ds t' with
  | nil =>
    cases hA
    rw [h'.nil_inv]
    exact ⟨.nil, h0⟩
  | snoc _ hs ih =>
    obtain ⟨ds, d, rfl, hA', hd⟩ := forall₂_snoc_inv hA
    obtain ⟨t₂, hr, hm⟩ := h'.snoc_inv
    obtain ⟨hB, hR⟩ := ih hr hA'
    obtain ⟨hb, hR'⟩ := hstep _ _ _ _ _ _ hR hd hs hm
    exact ⟨List.rel_append hB (.cons hb .nil), hR'⟩

theorem mono {G G' : σ → ε → Prop} (hG : ∀ s e, G s e → G' s e) {s s' : σ} {es : List ε}
    (h : Run (L.guard G) s es s') : Run (L.guard G') s es s' := by
  induction h with
  | nil => exact .nil
  | snoc _ hs ih => exact .snoc ih ⟨hG _ _ hs.1, hs.2⟩

theorem of_guard {G : σ → ε → Prop} {s s' : σ} {es : List ε} (h : Run (L.guard G) s es s') :
    Run L s es s' := by
  induction h with
  | nil => exact .nil
  | snoc _ hs ih => exact .snoc ih hs.2

end Run

theorem Run.restrict_mono {L : Lts σ ε} {J : σ → Prop} {K K' : σ → ε → σ → Prop}
    (hJ : ∀ s e s', J s → K s e s' → L.step s e s' → J s')
    (hK : ∀ s e s', J s → L.step s e s' → K s e s' → K' s e s') {s s' : σ} {es : List ε}
    (h : Run (L.restrict K) s es s') (h0 : J s) : Run (L.restrict K') s es s' ∧ J s' := by
  induction h with
  | nil => exact ⟨.nil, h0⟩
  | snoc _ hs ih =>
    obtain ⟨hr, hj⟩ := ih
    exact ⟨.snoc hr ⟨hK _ _ _ hj hs.2 hs.1, hs.2⟩, hJ _ _ _ hj hs.1 hs.2⟩

theorem restrict_iff {L : Lts σ ε} {J : σ → Prop} {K K' : σ → ε → σ → Prop}
    (hJ : ∀ s e s', J s → K s e s' → L.step s e s' → J s')
    (hK : ∀ s e s', J s → L.step s e s' → (K s e s' ↔ K' s e s')) {s s' : σ} {es : List ε}
    (h0 : J s) : Run (L.restrict K) s es s' ↔ Run (L.restrict K') s es s' := by
  constructor
  · intro h
    exact (h.restrict_mono hJ (fun s e s' hj hs => (hK s e s' hj hs).mp) h0).1
  · intro h
    refine (h.restrict_mono (fun s e s' hj hk hs => hJ s e s' hj ?_ hs)
      (fun s e s' hj hs => (hK s e s' hj hs).mpr) h0).1
    exact (hK s e s' hj hs).mpr hk

def script {ι : Type*} (f : σ → ι → Option (ε × σ)) : σ → List ι → Option (List ε × σ)
  | s, [] => some ([], s)
  | s, i :: is =>
    match f s i with
    | none => none
    | some (e, s') => (script f s' is).map fun r => (e :: r.1, r.2)

theorem script_run {ι γ : Type*} {L : Lts σ ε} {f : σ → ι → Option (ε × σ)}
    (hf : ∀ s i e s', f s i = some (e, s') → L.step s e s') (g : σ → γ) :
    ∀ {is : List ι} {s : σ} {es : List ε} {x : γ},
      (script f s is).map (fun r => (r.1, g r.2)) = some (es, x) →
      ∃ s', Run L s es s' ∧ g s' = x := by
  intro is
  induction is with
  | nil =>
    intro s es x h
    cases h
    exact ⟨s, .nil, rfl⟩
  | cons i is ih =>
    intro s es x h
    simp only [script] at h
    split at h
    · cases h
    · rename_i e s₁ heq
      cases hs : script f s₁ is with
      | none => rw [hs] at h; cases h
      | some r =>
        rw [hs] at h
        cases h
        obtain ⟨s', hrun, hg⟩ := @ih s₁ r.1 _ (by rw [hs]; rfl)
        exact ⟨s', .cons (hf _ _ _ _ heq) hrun, hg⟩

/-- The same, when the labels do not matter. -/
theorem script_reaches {ι γ : Type*} {L : Lts σ ε} {f : σ → ι → Option (ε × σ)}
    (hf : ∀ s i e s', f s i = some (e, s') → L.step s e s') (g : σ → γ) {is : List ι} {s : σ}
    {x : γ} (h : (script f s is).map (fun r => g r.2) = some x) :
    ∃ es s', Run L s es s' ∧ g s' = x := by
  obtain ⟨r, hr, hx⟩ := Option.map_eq_some_iff.mp h
  have hlabels : (script f s is).map (fun r => (r.1, g r.2)) = some (r.1, x) := by
    rw [hr, ← hx]
    rfl
  obtain ⟨s', hrun, hs'⟩ := script_run hf g hlabels
  exact ⟨_, s', hrun, hs'⟩

/-- A function that answers an input or refuses it, with both in the trace. -/
def answered {ι ρ : Type*} (f : σ → ι → Option (ρ × σ)) (s : σ) (i : ι) :
    Option ((ι × ρ) × σ) :=
  (f s i).map fun r => ((i, r.1), r.2)

theorem answered_step {ι ρ : Type*} (L : Lts σ (ι × ρ)) {f : σ → ι → Option (ρ × σ)}
    (hf : ∀ s i r s', f s i = some (r, s') → L.step s (i, r) s') (s : σ) (i : ι) (e : ι × ρ)
    (s' : σ) (h : answered f s i = some (e, s')) : L.step s e s' := by
  obtain ⟨⟨r, s₁⟩, hexec, heq⟩ := Option.map_eq_some_iff.mp h
  cases heq
  exact hf s i r s₁ hexec

/-- A step function cut down to the steps that meet a condition. -/
def only {ι : Type*} (G : σ → ε → Prop) [∀ s e, Decidable (G s e)]
    (f : σ → ι → Option (ε × σ)) (s : σ) (i : ι) : Option (ε × σ) :=
  (f s i).filter fun r => G s r.1

theorem only_step {ι : Type*} {L : Lts σ ε} {G : σ → ε → Prop} [∀ s e, Decidable (G s e)]
    {f : σ → ι → Option (ε × σ)} (hf : ∀ s i e s', f s i = some (e, s') → L.step s e s')
    (s : σ) (i : ι) (e : ε) (s' : σ) (h : only G f s i = some (e, s')) :
    (L.guard G).step s e s' := by
  obtain ⟨h1, h2⟩ := Option.filter_eq_some_iff.mp h
  exact ⟨of_decide_eq_true h2, hf s i e s' h1⟩

end Lts
