/-
Threads that interleave: program counters, a mutex, and progress.

The threads `ι` have program counters of their own types `β`. `Owns` says that the mutex belongs
to the thread whose counter says so; a step of one thread that takes, keeps or releases it
(`Handover`) keeps that. A sum over all counters changes by what one counter changes
(`sum_update`). A machine some of whose steps lower a measure comes to a standstill when these
are taken as long as there are any (`Machine.settles`).
-/
import Mathlib.Algebra.BigOperators.Group.Finset.Basic
import Mathlib.Data.Fintype.BigOperators
import NanoVault.Lib.Machine

namespace Lib

section Counters

variable {ι : Type*} {β : ι → Type*} {pc : ∀ i, β i} {i j : ι} {x : β i}

/-- A thread holds the mutex exactly if it is its owner. -/
def Owns (holds : ∀ i, β i → Bool) (owner : Option ι) (pc : ∀ i, β i) : Prop :=
  ∀ i, holds i (pc i) = true ↔ owner = some i

/-- What a step of thread `i` does to the mutex: whether it holds it, and the owner, before and
after. -/
inductive Handover (i : ι) : Bool → Option ι → Bool → Option ι → Prop
  | keep (b : Bool) (o : Option ι) : Handover i b o b o
  | acquire : Handover i false none true (some i)
  | release (o : Option ι) : Handover i true o false none

variable {holds : ∀ i, β i → Bool} {owner owner' : Option ι}

/-- Two threads that hold the mutex are one. -/
theorem Owns.unique (h : Owns holds owner pc) (hi : holds i (pc i) = true)
    (hj : holds j (pc j) = true) : i = j :=
  Option.some.inj (((h i).mp hi).symm.trans ((h j).mp hj))

/-- While another thread holds the mutex, a thread does not. -/
theorem Owns.other (h : Owns holds owner pc) (hi : holds i (pc i) = true) (hne : j ≠ i) :
    holds j (pc j) = false := by
  by_contra hj
  apply hne
  exact h.unique (Bool.of_not_eq_false hj) hi

variable [DecidableEq ι]

/-- A step of one thread keeps the mutex with its owner. -/
theorem Owns.update (h : Owns holds owner pc)
    (step : Handover i (holds i (pc i)) owner (holds i x) owner') :
    Owns holds owner' (Function.update pc i x) := by
  intro j
  by_cases hj : j = i
  · subst hj
    rw [Function.update_self]
    have hown := h j
    revert step hown
    generalize holds j (pc j) = before
    generalize holds j x = after
    intro step hown
    cases step <;> simp_all
  · rw [Function.update_of_ne hj]
    have hown := h i
    have hother := h j
    revert step hown
    generalize holds i (pc i) = before
    generalize holds i x = after
    intro step hown
    cases step with
    | keep => exact hother
    | acquire => simp_all [Ne.symm hj]
    | release =>
        have howner := hown.mp rfl
        simp_all [Ne.symm hj]

variable [Fintype ι] {M : Type*} [AddCommMonoid M]

/-- What a sum over all counters loses and gains when one of them changes. -/
theorem sum_update (f : ∀ i, β i → M) (pc : ∀ i, β i) (i : ι) (x : β i) :
    ∑ j, f j (Function.update pc i x j) + f i (pc i) = ∑ j, f j (pc j) + f i x := by
  rw [Fintype.sum_eq_add_sum_compl i, Fintype.sum_eq_add_sum_compl i (fun j => f j (pc j)),
    Function.update_self]
  have hrest : ∑ j ∈ {i}ᶜ, f j (Function.update pc i x j) = ∑ j ∈ {i}ᶜ, f j (pc j) := by
    apply Finset.sum_congr rfl
    intro j hj
    rw [Function.update_of_ne (by simpa using hj)]
  rw [hrest, add_right_comm, add_right_comm (f i (pc i)), add_comm (f i x)]

end Counters

namespace Machine

variable {σ ι : Type*} (M : Machine σ ι) (own : ι → Prop)

/-- No step that `own` allows is enabled. -/
def Still (s : σ) : Prop := ∀ i s', own i → ¬ M.step s i s'

/-- As long as a step that `own` allows is enabled, one is taken. -/
def Scheduled (run : Nat → σ) : Prop :=
  ∀ k, ¬ M.Still own (run k) → ∃ i, own i ∧ M.step (run k) i (run (k + 1))

variable {M own}

/-- There is such a schedule from every state. -/
theorem exists_scheduled (M : Machine σ ι) (own : ι → Prop) (s : σ) :
    ∃ run, run 0 = s ∧ M.Scheduled own run := by
  have hnext : ∀ s, ∃ s', ¬ M.Still own s → ∃ i, own i ∧ M.step s i s' := by
    intro s
    by_cases hstill : M.Still own s
    · exact ⟨s, fun h => absurd hstill h⟩
    · simp only [Still, not_forall, not_not] at hstill
      obtain ⟨i, s', hown, hstep⟩ := hstill
      exact ⟨s', fun _ => ⟨i, hown, hstep⟩⟩
  choose next hnext using hnext
  exact ⟨fun k => Nat.rec s (fun _ => next) k, rfl, fun k => hnext _⟩

/-- Where each step lowers a measure, a schedule comes to a standstill after no more steps than
the measure was at first. -/
theorem settles {I : σ → Prop} (measure : σ → Nat)
    (keep : ∀ s i s', I s → own i → M.step s i s' → I s')
    (lower : ∀ s i s', I s → own i → M.step s i s' → measure s' < measure s)
    {run : Nat → σ} (hrun : M.Scheduled own run) (start : I (run 0)) :
    ∃ k ≤ measure (run 0), I (run k) ∧ M.Still own (run k) := by
  by_contra hnever
  push Not at hnever
  have hall : ∀ k, k ≤ measure (run 0) + 1 →
      I (run k) ∧ measure (run k) + k ≤ measure (run 0) := by
    intro k
    induction k with
    | zero => exact fun _ => ⟨start, Nat.le_refl _⟩
    | succ k ih =>
        intro hk
        obtain ⟨hinv, hmeasure⟩ := ih (by omega)
        obtain ⟨i, hown, hstep⟩ := hrun k (hnever k (by omega) hinv)
        have hlower := lower _ _ _ hinv hown hstep
        exact ⟨keep _ _ _ hinv hown hstep, by omega⟩
  have hend := (hall (measure (run 0) + 1) (Nat.le_refl _)).2
  omega

end Machine

end Lib
