/-
Loops that rewrite one entry of a function in each round.

Every element of the list names the entry it rewrites, from what the entry holds. Where no
two elements name the same entry, each named entry is rewritten once and the others keep
what they hold.
-/
import Mathlib.Data.List.Basic
import Mathlib.Logic.Function.Basic

namespace Lib

section Rewriting

variable {κ α β : Type*} [DecidableEq κ] {name : α → κ} {f : α → β → β} {l : List α} {a : α}
  {k : κ} {g : κ → β}

/-- For each element, the entry it names becomes `f a` of itself. -/
def rewriteAll (name : α → κ) (f : α → β → β) (l : List α) (g : κ → β) : κ → β :=
  l.foldl (fun g a => Function.update g (name a) (f a (g (name a)))) g

theorem rewriteAll_cons (a : α) (l : List α) (g : κ → β) : rewriteAll name f (a :: l) g =
    rewriteAll name f l (Function.update g (name a) (f a (g (name a)))) := rfl

theorem rewriteAll_other (hk : ∀ a ∈ l, name a ≠ k) : rewriteAll name f l g k = g k := by
  induction l generalizing g with
  | nil => rfl
  | cons a l ih =>
      rw [rewriteAll_cons, ih fun b hb => hk b (List.mem_cons_of_mem _ hb)]
      exact Function.update_of_ne (hk a List.mem_cons_self).symm _ _

theorem rewriteAll_of_mem (hnodup : (l.map name).Nodup) (ha : a ∈ l) :
    rewriteAll name f l g (name a) = f a (g (name a)) := by
  induction l generalizing g with
  | nil => cases ha
  | cons b l ih =>
      obtain ⟨hb, hnodup⟩ := List.nodup_cons.mp hnodup
      rw [rewriteAll_cons]
      cases List.mem_cons.mp ha with
      | inl hab =>
          subst hab
          have hother : ∀ c ∈ l, name c ≠ name a := fun c hc heq =>
            hb (heq ▸ List.mem_map_of_mem hc)
          rw [rewriteAll_other hother, Function.update_self]
      | inr ha =>
          have hne : name a ≠ name b := fun heq => hb (heq ▸ List.mem_map_of_mem ha)
          rw [ih hnodup ha, Function.update_of_ne hne]

/-- What every entry has, and every rewriting keeps. -/
theorem rewriteAll_keeps {P : β → Prop} (hf : ∀ a b, P b → P (f a b)) (hg : ∀ k, P (g k)) (k : κ) :
    P (rewriteAll name f l g k) := by
  induction l generalizing g with
  | nil => exact hg k
  | cons a l ih =>
      rw [rewriteAll_cons]
      refine ih fun j => ?_
      rw [Function.update_apply]
      split
      · exact hf a _ (hg _)
      · exact hg j

/-- A loop with these rounds. -/
theorem foldl_eq_rewriteAll {step : (κ → β) → α → κ → β}
    (hstep : ∀ g, ∀ a ∈ l, step g a = Function.update g (name a) (f a (g (name a)))) :
    l.foldl step g = rewriteAll name f l g := by
  induction l generalizing g with
  | nil => rfl
  | cons a l ih =>
      rw [List.foldl_cons, hstep g a List.mem_cons_self]
      exact ih fun g b hb => hstep g b (List.mem_cons_of_mem _ hb)

end Rewriting

/-- A loop whose rounds could fail and do not. -/
theorem foldlM_eq_rewriteAll {κ α β ε : Type*} [DecidableEq κ] {name : α → κ} {f : α → β → β}
    {l : List α} {g : κ → β} {step : (κ → β) → α → Except ε (κ → β)}
    (hstep : ∀ g, ∀ a ∈ l, step g a = .ok (Function.update g (name a) (f a (g (name a))))) :
    l.foldlM step g = .ok (rewriteAll name f l g) := by
  induction l generalizing g with
  | nil => rfl
  | cons a l ih =>
      rw [List.foldlM_cons, hstep g a List.mem_cons_self]
      exact ih fun g b hb => hstep g b (List.mem_cons_of_mem _ hb)

/-! ### One entry -/

section Entry

variable {κ α β ε : Type*} (name : α → κ) {l : List α} {k : κ} {v : β} {g g' : κ → β}
  {step : (κ → β) → α → Except ε (κ → β)}

/-- A loop that ends without a failure leaves the entry no element names. -/
theorem foldlM_keeps (hstep : ∀ g g' a, name a ≠ k → step g a = .ok g' → g' k = g k)
    (hl : ∀ a ∈ l, name a ≠ k) (hrun : l.foldlM step g = .ok g') : g' k = g k := by
  induction l generalizing g with
  | nil =>
      cases hrun
      rfl
  | cons a l ih =>
      rw [List.foldlM_cons] at hrun
      cases hfirst : step g a with
      | error e =>
          rw [hfirst] at hrun
          cases hrun
      | ok next =>
          rw [hfirst] at hrun
          have hrest := ih (fun b hb => hl b (List.mem_cons_of_mem _ hb)) hrun
          rw [hrest, hstep g next a (hl a List.mem_cons_self) hfirst]

/-- It leaves in the entry what every element that names it puts there. -/
theorem foldlM_sets (hstep : ∀ g g' a, name a ≠ k → step g a = .ok g' → g' k = g k)
    (hsets : ∀ g g', ∀ a ∈ l, name a = k → step g a = .ok g' → g' k = v)
    (hl : ∃ a ∈ l, name a = k) (hrun : l.foldlM step g = .ok g') : g' k = v := by
  induction l generalizing g with
  | nil =>
      obtain ⟨a, ha, -⟩ := hl
      cases ha
  | cons a l ih =>
      rw [List.foldlM_cons] at hrun
      cases hfirst : step g a with
      | error e =>
          rw [hfirst] at hrun
          cases hrun
      | ok next =>
          rw [hfirst] at hrun
          by_cases hrest : ∃ b ∈ l, name b = k
          · exact ih (fun g g' b hb => hsets g g' b (List.mem_cons_of_mem _ hb)) hrest hrun
          · have hothers : ∀ b ∈ l, name b ≠ k := fun b hb heq => hrest ⟨b, hb, heq⟩
            obtain ⟨b, hb, hname⟩ := hl
            have hba : b = a := by
              cases List.mem_cons.mp hb with
              | inl heq => exact heq
              | inr hmem => exact absurd hname (hothers b hmem)
            subst hba
            rw [foldlM_keeps name hstep hothers hrun]
            exact hsets g next b List.mem_cons_self hname hfirst

end Entry

end Lib
