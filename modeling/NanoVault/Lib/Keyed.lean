/-
Stores of components, one for each key.

An event is for one key and acts on the component under it. `Acts` is the step of the store that
comes from the step of a component; a run of the store is a run of each component on the events that
are for it (`runs_acts`). So a component goes through what its own events make of it, whatever
happens under the other keys (`Runs.own`), and only the order of the events for one key matters
(`Runs.interleave`).
-/
import Mathlib.Logic.Function.Basic
import Mathlib.Data.List.Basic

namespace Lib.Keyed

variable {σ ε κ : Type*}

/-- The runs of a step relation on a list of events. -/
inductive Runs (step : σ → ε → σ → Prop) : σ → List ε → σ → Prop
  | nil {s : σ} : Runs step s [] s
  | cons {s mid s' : σ} {e : ε} {es : List ε} : step s e mid → Runs step mid es s' →
      Runs step s (e :: es) s'

variable {step : σ → ε → σ → Prop} {key : ε → κ} {s s' : κ → σ} {c c' : σ} {e : ε}
  {es es' : List ε}

@[simp] theorem runs_nil : Runs step c [] c' ↔ c' = c := by
  constructor
  · rintro ⟨⟩
    rfl
  · rintro rfl
    exact .nil

@[simp] theorem runs_cons :
    Runs step c (e :: es) c' ↔ ∃ mid, step c e mid ∧ Runs step mid es c' := by
  constructor
  · intro h
    cases h with
    | cons hstep hrest => exact ⟨_, hstep, hrest⟩
  · rintro ⟨mid, hstep, hrest⟩
    exact .cons hstep hrest

variable [DecidableEq κ]

/-- An event acts on the component under its key. -/
def Acts (step : σ → ε → σ → Prop) (key : ε → κ) (s : κ → σ) (e : ε) (s' : κ → σ) : Prop :=
  ∃ c, step (s (key e)) e c ∧ s' = Function.update s (key e) c

def own (key : ε → κ) (k : κ) (es : List ε) : List ε := es.filter fun e => key e = k

@[simp] theorem own_nil {k : κ} : own key k [] = [] := rfl

theorem own_cons {k : κ} : own key k (e :: es) =
    if key e = k then e :: own key k es else own key k es := by
  simp [own, List.filter_cons]

theorem own_own {k k' : κ} : own key k' (own key k es) = if k' = k then own key k es else [] := by
  unfold own
  rw [List.filter_filter]
  split
  · rename_i h
    subst h
    simp
  · rename_i h
    apply List.filter_eq_nil_iff.mpr
    intro e _ he
    simp only [Bool.and_eq_true, decide_eq_true_eq] at he
    exact h (he.1.symm.trans he.2)

/-- Events for two keys only, taken apart. -/
theorem own_two {k₁ k₂ : κ} (hkeys : ∀ e ∈ es, key e = k₁ ∨ key e = k₂) (hne : k₁ ≠ k₂) (k : κ) :
    own key k (own key k₁ es ++ own key k₂ es) = own key k es := by
  have happend : own key k (own key k₁ es ++ own key k₂ es) =
      own key k (own key k₁ es) ++ own key k (own key k₂ es) := List.filter_append _ _
  rw [happend, own_own, own_own]
  by_cases h₁ : k = k₁
  · subst h₁
    rw [if_pos rfl, if_neg hne, List.append_nil]
  · rw [if_neg h₁, List.nil_append]
    split
    · rename_i h₂
      rw [h₂]
    · rename_i h₂
      symm
      apply List.filter_eq_nil_iff.mpr
      intro e he hk
      obtain hk₁ | hk₂ := hkeys e he
      · exact h₁ ((of_decide_eq_true hk).symm.trans hk₁)
      · exact h₂ ((of_decide_eq_true hk).symm.trans hk₂)

/-- A run of the store is a run of each component on its own events. -/
theorem runs_acts : Runs (Acts step key) s es s' ↔ ∀ k, Runs step (s k) (own key k es) (s' k) := by
  induction es generalizing s with
  | nil =>
      simp only [runs_nil, own_nil]
      exact funext_iff
  | cons e es ih =>
      rw [runs_cons]
      constructor
      · rintro ⟨mid, ⟨c, hstep, rfl⟩, hrest⟩ k
        have hk := ih.mp hrest k
        rw [own_cons]
        split
        · rename_i h
          subst h
          rw [Function.update_self] at hk
          exact .cons hstep hk
        · rename_i h
          rwa [Function.update_of_ne (Ne.symm h)] at hk
      · intro h
        have he := h (key e)
        rw [own_cons, if_pos rfl, runs_cons] at he
        obtain ⟨c, hstep, hrest⟩ := he
        refine ⟨_, ⟨c, hstep, rfl⟩, ih.mpr fun k => ?_⟩
        by_cases hk : k = key e
        · subst hk
          rwa [Function.update_self]
        · have hother := h k
          rw [own_cons, if_neg (Ne.symm hk)] at hother
          rwa [Function.update_of_ne hk]

/-- Without the events of all other keys a component comes to the same. -/
theorem Runs.own (h : Runs (Acts step key) s es s') (k : κ) :
    Runs (Acts step key) s (own key k es) (Function.update s k (s' k)) := by
  apply runs_acts.mpr
  intro k'
  rw [own_own]
  split
  · rename_i hk
    subst hk
    rw [Function.update_self]
    exact runs_acts.mp h k'
  · rename_i hk
    rw [Function.update_of_ne hk]
    exact .nil

/-- Events may be interleaved differently as long as those for one key keep their order. -/
theorem Runs.interleave (h : Runs (Acts step key) s es s')
    (hsame : ∀ k, Keyed.own key k es = Keyed.own key k es') : Runs (Acts step key) s es' s' := by
  apply runs_acts.mpr
  intro k
  rw [← hsame k]
  exact runs_acts.mp h k

end Lib.Keyed
