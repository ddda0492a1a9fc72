/-
Scanning a buffer by position.

A buffer is a list and a pointer into it a position; `data.drop p` is what the pointer
still sees. `skipTo` and `skipWhile` move a position over the elements that fail to
match, `search` finds the first occurrence of a key. `Found key data t` says that `key`
first occurs in front of `t`; its rules pass over a text segment by segment, and
`Found.search` turns the result into the answer of `search`.
-/
import Mathlib.Data.List.Basic
import Mathlib.Data.List.TakeWhile

namespace Lib.Scan

variable {α : Type*} [DecidableEq α]

/-- Move `p` to the first `ch` at or after it, or to the end. -/
def skipTo (data : List α) (p : Nat) (ch : α) : Nat :=
  p + ((data.drop p).takeWhile (· ≠ ch)).length

/-- Move `p` over the elements that satisfy `test`. -/
def skipWhile (data : List α) (p : Nat) (test : α → Bool) : Nat :=
  p + ((data.drop p).takeWhile test).length

/-- The first position, `limit` excluded, at which `key` occurs. -/
def search (data key : List α) (limit : Nat) : Option Nat :=
  (List.range limit).find? fun p => (data.drop p).take key.length = key

omit [DecidableEq α] in
theorem drop_add {data s t : List α} {p : Nat} (h : data.drop p = s ++ t) :
    data.drop (p + s.length) = t := by
  rw [← List.drop_drop, h, List.drop_left]

omit [DecidableEq α] in
theorem drop_succ {data t : List α} {p : Nat} {a : α} (h : data.drop p = a :: t) :
    data.drop (p + 1) = t := by
  rw [← List.drop_drop, h, List.drop_one, List.tail_cons]

omit [DecidableEq α] in
theorem lt_length_of_drop {data t : List α} {p : Nat} {a : α} (h : data.drop p = a :: t) :
    p < data.length := by
  by_contra hp
  rw [List.drop_eq_nil_of_le (Nat.not_lt.mp hp)] at h
  cases h

omit [DecidableEq α] in
theorem getElem?_of_drop {data t : List α} {p : Nat} {a : α} (h : data.drop p = a :: t) :
    data[p]? = some a := by
  rw [← Nat.add_zero p, ← List.getElem?_drop, h, List.getElem?_cons_zero]

omit [DecidableEq α] in
theorem le_skipWhile (data : List α) (p : Nat) (test : α → Bool) :
    p ≤ skipWhile data p test :=
  Nat.le_add_right _ _

theorem le_skipTo (data : List α) (p : Nat) (ch : α) : p ≤ skipTo data p ch :=
  Nat.le_add_right _ _

theorem skipTo_append {data s t : List α} {p : Nat} {ch : α} (h : data.drop p = s ++ ch :: t)
    (hs : ch ∉ s) : skipTo data p ch = p + s.length := by
  have hall : ∀ a ∈ s, decide (a ≠ ch) = true := fun a ha =>
    decide_eq_true fun hac => hs (hac ▸ ha)
  rw [skipTo, h, List.takeWhile_append_of_pos hall, List.takeWhile_cons_of_neg (by simp),
    List.append_nil]

theorem skipTo_absent {data : List α} {p : Nat} {ch : α} (h : ch ∉ data.drop p) :
    skipTo data p ch = p + (data.drop p).length := by
  have hall : ∀ a ∈ data.drop p, decide (a ≠ ch) = true := fun a ha =>
    decide_eq_true fun hac => h (hac ▸ ha)
  rw [skipTo, List.takeWhile_eq_self_iff.mpr hall]

omit [DecidableEq α] in
theorem skipWhile_stop {data t : List α} {p : Nat} {a : α} {test : α → Bool}
    (h : data.drop p = a :: t) (ha : test a = false) : skipWhile data p test = p := by
  simp [skipWhile, h, ha]

/-- The first occurrence of `key` in the text stands in front of `t`. -/
inductive Found (key : List α) : List α → List α → Prop where
  | here (t : List α) : Found key (key ++ t) t
  | skip {a : α} {s t : List α} : ¬ key <+: a :: s → Found key s t → Found key (a :: s) t

omit [DecidableEq α] in
/-- A segment without the key's first element is passed over. -/
theorem Found.append {key rest t : List α} {a : α} {s : List α} (hs : a ∉ s)
    (h : Found (a :: key) rest t) : Found (a :: key) (s ++ rest) t := by
  induction s with
  | nil => exact h
  | cons b s ih =>
      obtain ⟨hab, hs⟩ := not_or.mp (List.mem_cons.not.mp hs)
      exact .skip (fun hp => hab (List.cons_prefix_cons.mp hp).1) (ih hs)

omit [DecidableEq α] in
theorem Found.position {key data t : List α} (h : Found key data t) :
    ∃ n, data.drop n = key ++ t ∧ ∀ i < n, ¬ key <+: data.drop i := by
  induction h with
  | here t => exact ⟨0, rfl, fun i hi => absurd hi (Nat.not_lt_zero i)⟩
  | skip hne _ ih =>
      obtain ⟨n, hn, hbefore⟩ := ih
      refine ⟨n + 1, hn, fun i hi => ?_⟩
      cases i with
      | zero => exact hne
      | succ i => exact hbefore i (Nat.lt_of_succ_lt_succ hi)

/-- A first occurrence that does not end the text is where the search stops. -/
theorem Found.search {key data t : List α} (h : Found key data t) (ht : t ≠ []) :
    ∃ n, search data key (data.length - key.length) = some n ∧
      data.drop (n + key.length) = t := by
  obtain ⟨n, hn, hbefore⟩ := h.position
  have hlen : data.length - n = key.length + t.length := by
    rw [← List.length_drop, hn, List.length_append]
  have htl := List.length_pos_iff.mpr ht
  refine ⟨n, ?_, drop_add hn⟩
  rw [Scan.search, List.find?_range_eq_some]
  refine ⟨decide_eq_true ?_, List.mem_range.mpr (by omega), fun i hi => ?_⟩
  · rw [hn, List.take_left]
  · have hne := hbefore i hi
    rw [List.prefix_iff_eq_take] at hne
    simpa using fun heq => hne (Eq.symm heq)

end Lib.Scan
