/-
Scans for a maximum.

`pick f` keeps the earlier of two candidates unless the later one scores strictly more, and
`scan f a l` folds it over the candidates `a :: l`. Picking is associative, so a scan may be
cut into scans of its parts (`scan_parts`). It ends at a largest score (`le_scan`), and at the
first candidate of that score in whatever order the list follows (`scan_first`).
-/
import Mathlib.Data.List.Basic
import Mathlib.Order.Lattice

namespace Lib.FirstMax

variable {ι κ α : Type*} [LinearOrder α] (f : ι → α)

/-- The later candidate, if it scores more. -/
def pick (a b : ι) : ι := if f a < f b then b else a

/-- The candidate a scan of `a :: l` ends with. -/
def scan (a : ι) (l : List ι) : ι := l.foldl (pick f) a

@[simp] theorem scan_nil (a : ι) : scan f a [] = a := rfl

@[simp] theorem scan_cons (a b : ι) (l : List ι) : scan f a (b :: l) = scan f (pick f a b) l := rfl

theorem scan_append (a : ι) (l m : List ι) : scan f a (l ++ m) = scan f (scan f a l) m :=
  List.foldl_append

theorem pick_assoc (a b c : ι) : pick f (pick f a b) c = pick f a (pick f b c) := by
  unfold pick
  by_cases hab : f a < f b
  · by_cases hbc : f b < f c
    · simp [hab, hbc, hab.trans hbc]
    · simp [hab, hbc]
  · by_cases hbc : f b < f c
    · simp [hab, hbc]
    · have hac : ¬ f a < f c := not_lt.mpr ((not_lt.mp hbc).trans (not_lt.mp hab))
      simp [hab, hbc, hac]

/-- A scan of a part may be taken as one candidate. -/
theorem pick_scan (a b : ι) (l : List ι) : pick f a (scan f b l) = scan f a (b :: l) := by
  induction l generalizing b with
  | nil => rfl
  | cons c l ih => rw [scan_cons, ih, scan_cons, scan_cons, scan_cons, pick_assoc]

/-- The winners of the parts are scanned as the parts one after the other. -/
theorem scan_parts (first : κ → ι) (rest : κ → List ι) (a : ι) (parts : List κ) :
    scan f a (parts.map fun k => scan f (first k) (rest k)) =
      scan f a (parts.flatMap fun k => first k :: rest k) := by
  induction parts generalizing a with
  | nil => rfl
  | cons k parts ih =>
      rw [List.map_cons, List.flatMap_cons, scan_append, scan_cons, ih, pick_scan]

/-- Candidates may be renamed before the scan. -/
theorem scan_map (g : κ → ι) (k : κ) (l : List κ) :
    g (scan (fun j => f (g j)) k l) = scan f (g k) (l.map g) := by
  induction l generalizing k with
  | nil => rfl
  | cons j l ih =>
      rw [scan_cons, ih, List.map_cons, scan_cons]
      unfold pick
      split <;> rfl

variable {f}

theorem pick_mem (a b : ι) : pick f a b = a ∨ pick f a b = b := by
  unfold pick
  split
  · exact .inr rfl
  · exact .inl rfl

theorem le_pick (a b : ι) : f a ≤ f (pick f a b) ∧ f b ≤ f (pick f a b) := by
  unfold pick
  split
  · next hlt => exact ⟨hlt.le, le_rfl⟩
  · next hle => exact ⟨le_rfl, not_lt.mp hle⟩

theorem scan_mem (a : ι) (l : List ι) : scan f a l ∈ a :: l := by
  induction l generalizing a with
  | nil => exact List.mem_singleton_self a
  | cons b l ih =>
      rw [scan_cons]
      rcases List.mem_cons.mp (ih (pick f a b)) with heq | hin
      · rw [heq]
        rcases pick_mem (f := f) a b with hpick | hpick
        · rw [hpick]
          exact List.mem_cons_self
        · rw [hpick]
          exact List.mem_cons_of_mem _ List.mem_cons_self
      · exact List.mem_cons_of_mem _ (List.mem_cons_of_mem _ hin)

/-- No candidate scores more than the one the scan ends with. -/
theorem le_scan {a x : ι} {l : List ι} (hx : x ∈ a :: l) : f x ≤ f (scan f a l) := by
  induction l generalizing a x with
  | nil => rw [List.mem_singleton.mp hx, scan_nil]
  | cons b l ih =>
      have hhead : f (pick f a b) ≤ f (scan f (pick f a b) l) := ih List.mem_cons_self
      rcases List.mem_cons.mp hx with hx | hx
      · exact hx ▸ (le_pick a b).1.trans hhead
      · rcases List.mem_cons.mp hx with hx | hx
        · exact hx ▸ (le_pick a b).2.trans hhead
        · exact ih (List.mem_cons_of_mem _ hx)

/-- A first candidate that nothing beats is kept. -/
theorem scan_eq_head {a : ι} {l : List ι} (hmax : f (scan f a l) ≤ f a) : scan f a l = a := by
  induction l with
  | nil => rfl
  | cons b l ih =>
      have hle : ¬ f a < f b := not_lt.mpr
        ((le_scan (List.mem_cons_of_mem _ List.mem_cons_self)).trans hmax)
      have hpick : pick f a b = a := if_neg hle
      rw [scan_cons, hpick] at hmax ⊢
      exact ih hmax

/-- Of the candidates with the largest score the scan ends with the first. -/
theorem scan_first {r : ι → ι → Prop} {a x : ι} {l : List ι} (hord : (a :: l).Pairwise r)
    (hx : x ∈ a :: l) (hmax : f (scan f a l) ≤ f x) : scan f a l = x ∨ r (scan f a l) x := by
  induction l generalizing a with
  | nil => exact .inl (List.mem_singleton.mp hx).symm
  | cons b l ih =>
      obtain ⟨hfirst, hrest⟩ := List.pairwise_cons.mp hord
      by_cases hlt : f a < f b
      · have hpick : pick f a b = b := if_pos hlt
        rcases List.mem_cons.mp hx with rfl | hx
        · exact .inl (scan_eq_head hmax)
        · rw [scan_cons, hpick] at hmax ⊢
          exact ih hrest hx hmax
      · have hpick : pick f a b = a := if_neg hlt
        have hskip : (a :: l).Pairwise r :=
          List.pairwise_cons.mpr ⟨fun y hy => hfirst y (List.mem_cons_of_mem _ hy),
            (List.pairwise_cons.mp hrest).2⟩
        by_cases hxb : x = b
        · -- the skipped candidate ties with the winner, so the winner is the first one
          subst hxb
          rw [scan_eq_head (hmax.trans (not_lt.mp hlt))]
          exact .inr (hfirst x List.mem_cons_self)
        · rw [scan_cons, hpick] at hmax ⊢
          apply ih hskip _ hmax
          simpa [hxb] using hx

end Lib.FirstMax
