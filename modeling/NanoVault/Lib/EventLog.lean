/-
Logs of events, and what each event finds told before it.

`Guarded ok log` says that `ok` holds of every event of the log and the events before it.
It grows with the log (`guarded_concat`), does not see events that ask nothing
(`guarded_append`), and survives leaving such events out (`guarded_filterMap`).
-/
import Mathlib.Data.List.Induction

namespace Lib

variable {E F : Type*} {ok : List E → E → Prop} {log es : List E} {e : E}

/-- Every event finds the events before it as `ok` asks. -/
def Guarded (ok : List E → E → Prop) (log : List E) : Prop :=
  ∀ before e after, log = before ++ e :: after → ok before e

theorem guarded_nil (ok : List E → E → Prop) : Guarded ok [] := by
  intro before e after h
  cases before <;> cases h

theorem guarded_concat : Guarded ok (log ++ [e]) ↔ Guarded ok log ∧ ok log e := by
  constructor
  · intro h
    exact ⟨fun before x after hlog => h before x (after ++ [e]) (by rw [hlog]; simp),
      h log e [] rfl⟩
  · rintro ⟨hlog, he⟩ before x after heq
    rcases List.eq_nil_or_concat after with rfl | ⟨after, y, rfl⟩
    · obtain ⟨rfl, hx⟩ := List.append_inj' heq rfl
      obtain rfl := (List.cons.inj hx).1
      exact he
    · rw [List.concat_eq_append, ← List.cons_append, ← List.append_assoc] at heq
      exact hlog before x after (List.append_inj' heq rfl).1

/-- Events that ask nothing of those before them change nothing. -/
theorem guarded_append (h : ∀ e ∈ es, ∀ before, ok before e) :
    Guarded ok (log ++ es) ↔ Guarded ok log := by
  induction es using List.reverseRecOn with
  | nil => rw [List.append_nil]
  | append_singleton es e ih =>
      rw [← List.append_assoc, guarded_concat,
        ih fun x hx => h x (List.mem_append_left _ hx)]
      exact and_iff_left (h e (by simp) _)

/-- A log is guarded if what is kept of it is, for events that are dropped only if they ask
nothing. -/
theorem guarded_filterMap {ok' : List F → F → Prop} {f : E → Option F}
    (hdrop : ∀ before e, f e = none → ok before e)
    (hkeep : ∀ before e e', f e = some e' → (ok' (before.filterMap f) e' ↔ ok before e)) :
    Guarded ok' (log.filterMap f) ↔ Guarded ok log := by
  induction log using List.reverseRecOn with
  | nil => exact ⟨fun _ => guarded_nil ok, fun _ => guarded_nil ok'⟩
  | append_singleton log e ih =>
      rw [List.filterMap_append, guarded_concat, ← ih]
      cases he : f e with
      | none =>
          rw [List.filterMap_cons_none he, List.filterMap_nil, List.append_nil]
          exact (and_iff_left (hdrop log e he)).symm
      | some e' =>
          rw [List.filterMap_cons_some he, List.filterMap_nil, guarded_concat,
            hkeep log e e' he]

end Lib
