/-
Transition systems whose steps carry labels, and runs that are restricted step
by step.

A `Machine` is a set of initial states and a labelled step relation.
`Machine.Reach M ok` are the states some run reaches when every step of the run,
taken in state `s` with label `i`, meets the side condition `ok s i`; the
unrestricted runs are those of `Machine.Any`. `Reach.invariant` is the induction
rule every safety result goes through: it asks for the initial states and for one
step. `Machine.ofFun` is the machine of a partial step function, whose runs can be
computed (`replay`) and then certified as reachable (`Reach.replay`, `Reach.of_replay`).
-/
import Mathlib.Data.Option.Basic

namespace Lib

/-- A labelled transition system. -/
structure Machine (σ ι : Type*) where
  init : σ → Prop
  step : σ → ι → σ → Prop

namespace Machine

variable {σ ι : Type*} {M : Machine σ ι} {ok ok' : σ → ι → Prop}

/-- The side condition every step meets. -/
def Any (_ : σ) (_ : ι) : Prop := True

/-- The states reached by the runs of `M` all of whose steps meet `ok`, a condition on
the state before the step and the step's label. -/
inductive Reach (M : Machine σ ι) (ok : σ → ι → Prop) : σ → Prop
  | init {s : σ} : M.init s → Reach M ok s
  | step {s s' : σ} {i : ι} : Reach M ok s → ok s i → M.step s i s' → Reach M ok s'

/-- What holds initially and is kept by every step that meets `ok` holds in every state
reached through such steps. -/
theorem Reach.invariant {I : σ → Prop} (base : ∀ s, M.init s → I s)
    (next : ∀ s i s', I s → ok s i → M.step s i s' → I s') {s : σ} (h : M.Reach ok s) :
    I s := by
  induction h with
  | init h => exact base _ h
  | step _ hok hstep ih => exact next _ _ _ ih hok hstep

/-- A weaker side condition reaches at least as much. -/
theorem Reach.mono (weaker : ∀ s i, ok s i → ok' s i) {s : σ} (h : M.Reach ok s) :
    M.Reach ok' s := by
  induction h with
  | init h => exact .init h
  | step _ hok hstep ih => exact .step ih (weaker _ _ hok) hstep

/-- The machine of a partial step function. -/
def ofFun (start : σ) (next : σ → ι → Option σ) : Machine σ ι where
  init s := s = start
  step s i s' := next s i = some s'

/-- Run the labels of a list in order; a step that is not enabled, or that does not meet
`ok`, stops the run. -/
def replay (next : σ → ι → Option σ) (ok : σ → ι → Bool) : σ → List ι → Option σ
  | s, [] => some s
  | s, i :: rest => if ok s i then (next s i).bind (replay next ok · rest) else none

/-- A completed replay of steps of the machine, from a reachable state, ends in a reachable
state. -/
theorem Reach.replay {next : σ → ι → Option σ} {test : σ → ι → Bool}
    (steps : ∀ s i s', next s i = some s' → M.step s i s')
    (sound : ∀ s i, test s i = true → ok s i) :
    ∀ {labels : List ι} {s s' : σ}, M.Reach ok s →
      Machine.replay next test s labels = some s' → M.Reach ok s'
  | [], s, s', h, hrun => by
      simp only [Machine.replay, Option.some.injEq] at hrun
      exact hrun ▸ h
  | i :: rest, s, s', h, hrun => by
      simp only [Machine.replay] at hrun
      split at hrun
      · rename_i htest
        obtain ⟨mid, hmid, hrest⟩ := Option.bind_eq_some_iff.mp hrun
        exact Reach.replay steps sound (.step h (sound _ _ htest) (steps _ _ _ hmid)) hrest
      · cases hrun

/-- A completed replay of the machine of a step function. -/
theorem Reach.of_replay {start : σ} {next : σ → ι → Option σ} {test : σ → ι → Bool}
    (sound : ∀ s i, test s i = true → ok s i) {labels : List ι} {s s' : σ}
    (h : (ofFun start next).Reach ok s) (hrun : Machine.replay next test s labels = some s') :
    (ofFun start next).Reach ok s' :=
  h.replay (fun _ _ _ hstep => hstep) sound hrun

end Machine

end Lib
