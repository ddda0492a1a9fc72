/-
Files that were cut off while they were written.

The loop of `parseArray` goes on while there is text, and ends without the closing bracket where
there is none. Inside of another container this is refused at the next turn; for the array of the
file nothing follows. So the files that are loaded although they are cut off are those cut in front
of the first object or right behind the comma of a later one (`truncated_iff`).
-/
import NanoVault.Json.RoundTrip

namespace NanoVault.Json

open Lib NanoVault.Table

variable {δ : Type} {D : Doubles δ} {q : Text} {data : List (JSONValue δ)}

/-- The cuts that are taken for a file: in front of the first object, or behind a comma with
objects in front of it that can all be read. -/
def Torn (D : Doubles δ) (data : List (JSONValue δ)) (p : Text) : Prop :=
  (∃ q, q <+: indented ∧ p = '[' :: q) ∨
    ∃ k, 0 < k ∧ k < data.length ∧ (∀ v ∈ data.take k, v.Finite D) ∧
      p = '[' :: front indented ((data.take k).map (valueToString D 2))

theorem loadFromFile_bracket (q : Text) : loadFromFile D ('[' :: q) =
    (parseArray (parse D) q).toOption.map Prod.fst := by
  rw [loadFromFile, parse_bracket]
  cases parseArray (parse D) q <;> rfl

/-- The objects in front of a cut behind a comma are read if their doubles are finite. -/
theorem parseArray_front (hclean : ∀ v ∈ data, v.Clean) {k : Nat} (hpos : 0 < k)
    (hk : k < data.length) :
    (parseArray (parse D)
      (front indented ((data.take k).map (valueToString D 2)))).toOption.isSome = true ↔
      ∀ v ∈ data.take k, v.Finite D := by
  obtain ⟨os, hprinted, hback⟩ := exists_readBack fun v hv =>
    hclean v (List.mem_of_mem_take hv : v ∈ data)
  have hne : (data.take k).map (valueToString D 2) ≠ [] :=
    List.ne_nil_of_length_pos (by rw [List.length_map, List.length_take]; omega)
  rw [parseArray, parseItems_front parse_skipsBlanks (.inl rfl) blank_indented hprinted hne,
    Option.isSome_map]
  exact mapM_isSome (hback.imp fun _ _ h => h.complete)

theorem Torn.loads (hclean : ∀ v ∈ data, v.Clean) (h : Torn D data ('[' :: q)) :
    (parseArray (parse D) q).toOption.isSome = true := by
  obtain ⟨q', hq, heq⟩ | ⟨k, hpos, hk, hfinite, heq⟩ := h
  · obtain rfl := (List.cons.inj heq).2
    rw [parseArray, parseItems_blank (blank_indented.cutOff hq)]
    rfl
  · obtain rfl := (List.cons.inj heq).2
    exact (parseArray_front hclean hpos hk).mpr hfinite

/-- A file that is cut off is refused unless the cut is one of those. -/
theorem truncated_iff (D : Doubles δ) (data : List (JSONValue δ)) (hne : data ≠ [])
    (hclean : ∀ v ∈ data, v.Clean) (p : Text) (hp : p <+: saveToFile D data)
    (hstrict : p ≠ saveToFile D data) : loadFromFile D p = none ↔ ¬Torn D data p := by
  rw [saveToFile_eq] at hp hstrict
  rcases List.prefix_cons_iff.mp hp with rfl | ⟨q, rfl, hq⟩
  · constructor
    · rintro - (⟨q, -, heq⟩ | ⟨k, -, -, -, heq⟩) <;> cases heq
    · exact fun _ => rfl
  · rw [loadFromFile_bracket, Option.map_eq_none_iff]
    constructor
    · intro hnone htorn
      have hsome := htorn.loads hclean
      rw [hnone] at hsome
      cases hsome
    · intro hwhole
      obtain ⟨os, hprinted, -⟩ := exists_readBack (D := D) hclean
      rcases parseItems_cut parse_skipsBlanks (.inl rfl) blank_indented (blank_line 0) hprinted hq
        with rfl | hnone | hblank | ⟨k, hpos, hk, hfront⟩
      · exact absurd rfl hstrict
      · exact hnone
      · obtain ⟨v, vs, rfl⟩ := List.exists_cons_of_ne_nil hne
        cases hprinted with
        | cons ht hts =>
            rw [List.map_cons, listing, List.append_assoc, List.append_assoc] at hq
            rcases prefix_append_cases hq with hq | ⟨q', rfl, hq', hq⟩
            · exact absurd (.inl ⟨q, hq, rfl⟩) hwhole
            · obtain ⟨c, cs, hhead, hspace, -⟩ := ht.head
              rw [hhead] at hq
              rcases List.prefix_cons_iff.mp hq with rfl | ⟨q'', rfl, -⟩
              · exact absurd rfl hq'
              · have hc := hblank c (by simp)
                rw [hspace] at hc
                cases hc
      · rw [List.length_map] at hk
        rw [← List.map_take] at hfront
        subst hfront
        rw [← Option.not_isSome_iff_eq_none, parseArray_front hclean hpos hk]
        exact fun hfinite => hwhole (.inr ⟨k, hpos, hk, hfinite, rfl⟩)

theorem truncated_iff_brace : loadFromFile zeroOnly "[\n  \x7b".toList = none := by
  refine (truncated_iff zeroOnly oneTable (by simp [oneTable]) oneTable_clean "[\n  \x7b".toList
    (List.isPrefixOf_iff_prefix.mp rfl) ?_).mpr ?_
  · intro heq
    have hlength := congrArg (fun text : Text => text.drop 5) heq
    cases hlength
  · rintro (⟨q, hq, heq⟩ | ⟨k, hpos, hk, -⟩)
    · obtain rfl := (List.cons.inj heq).2
      have hlength := hq.length_le
      revert hlength
      decide
    · simp only [oneTable, List.length_singleton] at hk
      omega

/-- A catalog whose file ends behind the first character is loaded as an empty one. -/
theorem bracket_is_file : "[".toList <+: saveToFile zeroOnly oneTable ∧
    "[".toList ≠ saveToFile zeroOnly oneTable ∧ loadFromFile zeroOnly "[".toList = some [] := by
  refine ⟨List.isPrefixOf_iff_prefix.mp rfl, fun heq => ?_, rfl⟩
  have htail := congrArg (fun text : Text => text.drop 1) heq
  cases htail

end NanoVault.Json
