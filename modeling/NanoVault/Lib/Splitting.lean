/-
Cutting a list after every separator.

`cut` gives the pieces that end in a separator, and what is left behind the last one. A list
of lists is recovered from its concatenation exactly if each of them has its only separator
at its end (`cut_flatten_iff`), and a list that arrives in parts can be cut as it arrives
(`cut_append`).
-/
import Mathlib

namespace Lib

variable {α : Type} [DecidableEq α]

/-- The pieces that end in a separator, and the rest. -/
def cut (sep : α) : List α → List (List α) × List α
  | [] => ([], [])
  | a :: l =>
      if a = sep then ([a] :: (cut sep l).1, (cut sep l).2)
      else
        match cut sep l with
        | ([], rest) => ([], a :: rest)
        | (p :: ps, rest) => ((a :: p) :: ps, rest)

/-- A list whose only separator is its last element. -/
def IsPiece (sep : α) (l : List α) : Prop := ∃ s, l = s ++ [sep] ∧ sep ∉ s

variable {sep : α} {l l' s : List α}

@[simp] theorem cut_nil (sep : α) : cut sep [] = ([], []) := rfl

@[simp] theorem cut_sep (l : List α) :
    cut sep (sep :: l) = ([sep] :: (cut sep l).1, (cut sep l).2) := by
  simp [cut]

/-- Without a separator there is only a rest. -/
theorem cut_of_notMem (h : sep ∉ l) : cut sep l = ([], l) := by
  induction l with
  | nil => rfl
  | cons a l ih =>
    obtain ⟨hne, hl⟩ := not_or.1 (mt List.mem_cons.2 h)
    simp [cut, Ne.symm hne, ih hl]

/-- The first piece ends at the first separator. -/
theorem cut_piece (hs : sep ∉ s) (l : List α) :
    cut sep (s ++ sep :: l) = ((s ++ [sep]) :: (cut sep l).1, (cut sep l).2) := by
  induction s with
  | nil => simp
  | cons a s ih =>
    obtain ⟨hne, hs⟩ := not_or.1 (mt List.mem_cons.2 hs)
    simp [cut, Ne.symm hne, ih hs]

/-- A list has no separator, or is a piece followed by a list. -/
@[elab_as_elim]
theorem pieceInduction (sep : α) {motive : List α → Prop} (l : List α)
    (rest : ∀ l, sep ∉ l → motive l)
    (piece : ∀ s l, sep ∉ s → motive l → motive (s ++ sep :: l)) : motive l := by
  induction hn : l.length using Nat.strong_induction_on generalizing l with
  | _ n ih =>
    subst hn
    by_cases h : sep ∈ l
    · obtain ⟨s, l, rfl, hs⟩ := List.eq_append_cons_of_mem h
      apply piece s l hs
      apply ih l.length _ l rfl
      simp only [List.length_append, List.length_cons]
      omega
    · exact rest l h

/-- Every piece has its only separator at its end. -/
theorem isPiece_of_mem_cut {p : List α} (hp : p ∈ (cut sep l).1) : IsPiece sep p := by
  induction l using pieceInduction sep with
  | rest l h => simp [cut_of_notMem h] at hp
  | piece s l hs ih =>
    rw [cut_piece hs] at hp
    obtain rfl | hp := List.mem_cons.1 hp
    · exact ⟨s, rfl, hs⟩
    · exact ih hp

/-- More elements are cut together with the rest. -/
theorem cut_append (l l' : List α) :
    cut sep (l ++ l') =
      ((cut sep l).1 ++ (cut sep ((cut sep l).2 ++ l')).1, (cut sep ((cut sep l).2 ++ l')).2) := by
  induction l using pieceInduction sep with
  | rest l h => simp [cut_of_notMem h]
  | piece s l hs ih => simp [cut_piece hs, ih]

/-- Pieces are found again behind each other. -/
theorem cut_flatten {pieces : List (List α)} (h : ∀ p ∈ pieces, IsPiece sep p) :
    cut sep pieces.flatten = (pieces, []) := by
  induction pieces with
  | nil => rfl
  | cons p ps ih =>
    obtain ⟨s, rfl, hs⟩ := h p (by simp)
    simp [cut_piece hs, ih fun p hp => h p (by simp [hp])]

/-- There is a piece for every separator. -/
theorem length_cut (l : List α) : (cut sep l).1.length = l.count sep := by
  induction l using pieceInduction sep with
  | rest l h => rw [cut_of_notMem h, List.count_eq_zero.2 h, List.length_nil]
  | piece s l hs ih =>
    rw [cut_piece hs, List.length_cons, ih, List.count_append, List.count_eq_zero.2 hs,
      List.count_cons_self, Nat.zero_add]

/-- In a part of the concatenation those that are complete are found. -/
theorem cut_prefix {pieces : List (List α)} (h : ∀ p ∈ pieces, IsPiece sep p)
    (hl : l ++ l' = pieces.flatten) : (cut sep l).1 = pieces.take (l.count sep) := by
  have hcut := cut_flatten h
  rw [← hl, cut_append] at hcut
  obtain rfl := (Prod.mk.inj hcut).1
  rw [← length_cut, List.take_left]

/-- Lists are found again in their concatenation exactly if each is a piece. -/
theorem cut_flatten_iff (pieces : List (List α)) :
    (cut sep pieces.flatten).1 = pieces ↔ ∀ p ∈ pieces, IsPiece sep p := by
  constructor
  · intro h p hp
    exact isPiece_of_mem_cut (h.symm ▸ hp)
  · intro h
    rw [cut_flatten h]

/-- A list is a piece exactly if it ends in its only separator. -/
theorem isPiece_iff : IsPiece sep l ↔ l.count sep = 1 ∧ l.getLast? = some sep := by
  constructor
  · rintro ⟨s, rfl, hs⟩
    simp [List.count_eq_zero.2 hs]
  · rintro ⟨hcount, hlast⟩
    obtain ⟨s, rfl⟩ := List.getLast?_eq_some_iff.1 hlast
    refine ⟨s, rfl, List.count_eq_zero.1 ?_⟩
    simpa using hcount

end Lib
