/-
Maps kept as association lists in the order of their keys.

`SortedMap r V` is a list of entries together with the proof that its keys ascend in the
strict order `r`, as `std::map<K, V, r>` keeps them. `find?`, `insert` and `erase` go by
key, `first?` is the entry at `begin()`. The find lemmas determine a map (`ext_find?`), and a map
does not depend on the order in which its keys are inserted (`foldl_insertEntry`).
-/
import Mathlib.Order.RelClasses
import Mathlib.Data.List.Basic

namespace Lib

/-- A map whose entries stand in the order of their keys. -/
structure SortedMap {K : Type*} (r : K → K → Prop) (V : Type*) where
  entries : List (K × V)
  sorted : entries.Pairwise fun a b => r a.1 b.1

namespace SortedMap

variable {K V : Type*} {r : K → K → Prop}

theorem ext_entries {m m' : SortedMap r V} (h : m.entries = m'.entries) : m = m' := by
  cases m
  cases m'
  cases h
  rfl

def empty : SortedMap r V := ⟨[], List.Pairwise.nil⟩

/-- The entry at `begin()`. -/
def first? (m : SortedMap r V) : Option (K × V) := m.entries.head?

section Find

variable [DecidableEq K]

/-- The value an entry list holds for a key. -/
def findEntry (k : K) : List (K × V) → Option V
  | [] => none
  | (k', v) :: rest => if k' = k then some v else findEntry k rest

def find? (m : SortedMap r V) (k : K) : Option V := findEntry k m.entries

@[simp] theorem find?_empty (k : K) : (empty : SortedMap r V).find? k = none := rfl

/-- What is found is an entry. -/
theorem mem_of_findEntry {k : K} {v : V} {l : List (K × V)} (h : findEntry k l = some v) :
    (k, v) ∈ l := by
  induction l with
  | nil => cases h
  | cons e l ih =>
      obtain ⟨k', v'⟩ := e
      rw [findEntry] at h
      split at h
      · next hk =>
          cases h
          exact hk ▸ List.mem_cons_self
      · exact List.mem_cons_of_mem _ (ih h)

/-- In a sorted list an entry is found. -/
theorem findEntry_of_mem [Std.Irrefl r] {k : K} {v : V} {l : List (K × V)}
    (hl : l.Pairwise fun a b => r a.1 b.1) (h : (k, v) ∈ l) : findEntry k l = some v := by
  induction l with
  | nil => cases h
  | cons e l ih =>
      obtain ⟨k', v'⟩ := e
      obtain ⟨hfirst, hl⟩ := List.pairwise_cons.mp hl
      rw [findEntry]
      cases List.mem_cons.mp h with
      | inl heq =>
          cases heq
          rw [if_pos rfl]
      | inr hmem =>
          have hne : k' ≠ k := fun heq => Std.Irrefl.irrefl k (heq ▸ hfirst _ hmem)
          rw [if_neg hne, ih hl hmem]

/-- What is found is what is in the map. -/
theorem find?_eq_some [Std.Irrefl r] {m : SortedMap r V} {k : K} {v : V} :
    m.find? k = some v ↔ (k, v) ∈ m.entries :=
  ⟨mem_of_findEntry, findEntry_of_mem m.sorted⟩

/-- At most one entry has a given key. -/
theorem filter_key [Std.Irrefl r] (m : SortedMap r V) (k : K) :
    m.entries.filter (fun e => e.1 = k) = ((m.find? k).map (Prod.mk k)).toList := by
  obtain ⟨l, hsorted⟩ := m
  show l.filter (fun e => e.1 = k) = ((findEntry k l).map (Prod.mk k)).toList
  induction l with
  | nil => rfl
  | cons e l ih =>
      obtain ⟨k', v⟩ := e
      obtain ⟨hfirst, hl⟩ := List.pairwise_cons.mp hsorted
      rw [findEntry]
      by_cases hk : k' = k
      · have hnone : l.filter (fun e => e.1 = k) = [] := by
          rw [List.filter_eq_nil_iff]
          intro e he hek
          have hek : e.1 = k := of_decide_eq_true hek
          exact Std.Irrefl.irrefl k (by simpa [hk, hek] using hfirst e he)
        rw [List.filter_cons_of_pos (by simpa using hk), hnone, if_pos hk, hk]
        rfl
      · rw [List.filter_cons_of_neg (by simpa using hk), ih hl, if_neg hk]

/-- The first entry is the one no other key comes before. -/
theorem first?_eq_some [IsStrictOrder K r] {m : SortedMap r V} {k : K} {v : V} :
    m.first? = some (k, v) ↔
      m.find? k = some v ∧ ∀ k' v', m.find? k' = some v' → k' = k ∨ r k k' := by
  rw [first?]
  constructor
  · intro h
    obtain ⟨rest, hrest⟩ : ∃ rest, m.entries = (k, v) :: rest := by
      cases hm : m.entries with
      | nil => rw [hm] at h; cases h
      | cons e rest => rw [hm] at h; cases h; exact ⟨rest, rfl⟩
    have hsorted := m.sorted
    rw [hrest] at hsorted
    refine ⟨find?_eq_some.mpr (by simp [hrest]), fun k' v' hk' => ?_⟩
    have hmem := find?_eq_some.mp hk'
    rw [hrest] at hmem
    cases List.mem_cons.mp hmem with
    | inl heq => cases heq; exact .inl rfl
    | inr hmem => exact .inr ((List.pairwise_cons.mp hsorted).1 _ hmem)
  · intro ⟨hk, hfirst⟩
    have hmem := find?_eq_some.mp hk
    cases hm : m.entries with
    | nil => rw [hm] at hmem; cases hmem
    | cons e rest =>
        have hsorted := m.sorted
        rw [hm] at hsorted hmem
        cases List.mem_cons.mp hmem with
        | inl heq => rw [heq, List.head?_cons]
        | inr hin =>
            have hr := (List.pairwise_cons.mp hsorted).1 _ hin
            have he : m.find? e.1 = some e.2 := find?_eq_some.mpr (by simp [hm])
            cases hfirst _ _ he with
            | inl heq => rw [heq] at hr; exact absurd hr (Std.Irrefl.irrefl k)
            | inr hr' => exact absurd (IsTrans.trans _ _ _ hr hr') (Std.Irrefl.irrefl e.1)

/-- A map without a first entry is empty. -/
theorem first?_eq_none [Std.Irrefl r] {m : SortedMap r V} :
    m.first? = none ↔ ∀ k, m.find? k = none := by
  rw [first?, List.head?_eq_none_iff]
  constructor
  · intro h k
    rw [find?, h, findEntry]
  · intro h
    rw [List.eq_nil_iff_forall_not_mem]
    intro e he
    have := find?_eq_some.mpr (show (e.1, e.2) ∈ m.entries from he)
    rw [h] at this
    cases this

/-- The first entry is in the map. -/
theorem first?_find [IsStrictOrder K r] {m : SortedMap r V} {k : K} {v : V}
    (h : m.first? = some (k, v)) : m.find? k = some v :=
  (first?_eq_some.mp h).1

omit [DecidableEq K] in
theorem nodup_entries [Std.Irrefl r] (m : SortedMap r V) : m.entries.Nodup := by
  refine m.sorted.imp ?_
  rintro a b hr rfl
  exact Std.Irrefl.irrefl _ hr

/-- A map is determined by what it holds for each key. -/
theorem ext_find? [IsStrictOrder K r] {m m' : SortedMap r V}
    (h : ∀ k, m.find? k = m'.find? k) : m = m' := by
  have hmem : ∀ e, e ∈ m.entries ↔ e ∈ m'.entries := fun e => by
    rw [show e = (e.1, e.2) from rfl, ← find?_eq_some, ← find?_eq_some, h]
  refine ext_entries (List.Perm.eq_of_pairwise ?_ m.sorted m'.sorted
    ((List.perm_ext_iff_of_nodup m.nodup_entries m'.nodup_entries).mpr hmem))
  intro a b _ _ hab hba
  exact absurd (IsTrans.trans _ _ _ hab hba) (Std.Irrefl.irrefl a.1)

def keys (m : SortedMap r V) : List K := m.entries.map Prod.fst

omit [DecidableEq K] in
/-- The keys are in order. -/
theorem keys_sorted (m : SortedMap r V) : m.keys.Pairwise r := List.pairwise_map.mpr m.sorted

/-- The keys are those that are found. -/
theorem mem_keys [Std.Irrefl r] {m : SortedMap r V} {k : K} :
    k ∈ m.keys ↔ m.find? k ≠ none := by
  rw [keys, List.mem_map, ← Option.isSome_iff_ne_none, Option.isSome_iff_exists]
  constructor
  · rintro ⟨e, he, rfl⟩
    exact ⟨e.2, find?_eq_some.mpr he⟩
  · rintro ⟨v, hv⟩
    exact ⟨_, find?_eq_some.mp hv, rfl⟩

omit [DecidableEq K] in
/-- Two lists in strict order with the same elements are equal. -/
theorem eq_of_sorted [IsStrictOrder K r] {l l' : List K} (hl : l.Pairwise r)
    (hl' : l'.Pairwise r) (h : ∀ k, k ∈ l ↔ k ∈ l') : l = l' := by
  have hnodup : ∀ {l : List K}, l.Pairwise r → l.Nodup := fun hl => by
    refine hl.imp ?_
    rintro a _ hr rfl
    exact Std.Irrefl.irrefl a hr
  refine List.Perm.eq_of_pairwise ?_ hl hl'
    ((List.perm_ext_iff_of_nodup (hnodup hl) (hnodup hl')).mpr h)
  intro a b _ _ hab hba
  exact absurd (IsTrans.trans _ _ _ hab hba) (Std.Irrefl.irrefl a)

end Find

section Update

variable [DecidableRel r]

/-- Put a value under a key, in front of the first key behind it. -/
def insertEntry (r : K → K → Prop) [DecidableRel r] (k : K) (v : V) :
    List (K × V) → List (K × V)
  | [] => [(k, v)]
  | (k', v') :: rest =>
      if r k k' then (k, v) :: (k', v') :: rest
      else if r k' k then (k', v') :: insertEntry r k v rest
      else (k, v) :: rest

/-- What is in a map after an insertion. -/
theorem mem_insertEntry {k : K} {v : V} {e : K × V} {l : List (K × V)}
    (h : e ∈ insertEntry r k v l) : e = (k, v) ∨ e ∈ l := by
  induction l with
  | nil => exact .inl (List.mem_singleton.mp h)
  | cons e' l ih =>
      obtain ⟨k', v'⟩ := e'
      rw [insertEntry] at h
      split_ifs at h
      · exact List.mem_cons.mp h
      · cases List.mem_cons.mp h with
        | inl heq => exact .inr (heq ▸ List.mem_cons_self)
        | inr hmem => exact (ih hmem).imp_right (List.mem_cons_of_mem _)
      · exact (List.mem_cons.mp h).imp_right (List.mem_cons_of_mem _)

/-- An insertion keeps the order. -/
theorem insertEntry_sorted [IsStrictTotalOrder K r] {k : K} {v : V} {l : List (K × V)}
    (hl : l.Pairwise fun a b => r a.1 b.1) :
    (insertEntry r k v l).Pairwise fun a b => r a.1 b.1 := by
  induction l with
  | nil => exact List.pairwise_singleton _ _
  | cons e l ih =>
      obtain ⟨k', v'⟩ := e
      obtain ⟨hfirst, hrest⟩ := List.pairwise_cons.mp hl
      rw [insertEntry]
      split_ifs with hlt hgt
      · refine List.pairwise_cons.mpr ⟨fun e he => ?_, hl⟩
        cases List.mem_cons.mp he with
        | inl heq => exact heq ▸ hlt
        | inr hmem => exact IsTrans.trans _ _ _ hlt (hfirst _ hmem)
      · refine List.pairwise_cons.mpr ⟨fun e he => ?_, ih hrest⟩
        cases mem_insertEntry he with
        | inl heq => exact heq ▸ hgt
        | inr hmem => exact hfirst _ hmem
      · have heq : k = k' := (trichotomous_of r k k').elim (absurd · hlt)
          (·.elim id (absurd · hgt))
        subst heq
        exact List.pairwise_cons.mpr ⟨hfirst, hrest⟩

/-- A new key adds its entry. -/
theorem insertEntry_perm [IsStrictTotalOrder K r] {k : K} {v : V} {l : List (K × V)}
    (h : k ∉ l.map Prod.fst) : (insertEntry r k v l).Perm ((k, v) :: l) := by
  induction l with
  | nil => exact .refl _
  | cons e l ih =>
      obtain ⟨k', v'⟩ := e
      obtain ⟨hne, hrest⟩ := not_or.mp (List.mem_cons.not.mp h)
      rw [insertEntry]
      split_ifs with hlt hgt
      · exact .refl _
      · exact ((ih hrest).cons _).trans (.swap _ _ _)
      · exact absurd ((trichotomous_of r k k').elim (absurd · hlt) (·.elim id (absurd · hgt))) hne

/-- Inserting different keys one after the other sorts their entries. -/
theorem foldl_insertEntry [IsStrictTotalOrder K r] {l sorted : List (K × V)} (hperm : l.Perm sorted)
    (h : sorted.Pairwise fun a b => r a.1 b.1) :
    l.foldl (fun m e => insertEntry r e.1 e.2 m) [] = sorted := by
  have hkeys : (l.map Prod.fst).Nodup := by
    refine (hperm.map Prod.fst).nodup_iff.mpr (List.pairwise_map.mpr (h.imp ?_))
    intro a b hr heq
    rw [heq] at hr
    exact Std.Irrefl.irrefl _ hr
  -- what has been inserted so far is in order, and nothing is missing
  have hinsert : ∀ (l m : List (K × V)), ((m ++ l).map Prod.fst).Nodup →
      m.Pairwise (fun a b => r a.1 b.1) →
      (l.foldl (fun m e => insertEntry r e.1 e.2 m) m).Perm (m ++ l) ∧
        (l.foldl (fun m e => insertEntry r e.1 e.2 m) m).Pairwise fun a b => r a.1 b.1 := by
    intro l
    induction l with
    | nil => exact fun m _ hm => ⟨by rw [List.append_nil]; exact .refl _, hm⟩
    | cons e l ih =>
        intro m hnodup hm
        have hmove : (m ++ e :: l).Perm (e :: (m ++ l)) := List.perm_middle
        have hnew := List.nodup_cons.mp ((hmove.map Prod.fst).nodup_iff.mp hnodup)
        have hfresh : e.1 ∉ m.map Prod.fst := fun hmem =>
          hnew.1 (List.map_append (f := Prod.fst) ▸ List.mem_append_left _ hmem)
        have hfirst : (insertEntry r e.1 e.2 m ++ l).Perm (m ++ e :: l) :=
          ((insertEntry_perm hfresh).append_right l).trans hmove.symm
        obtain ⟨hrest, hsorted⟩ := ih (insertEntry r e.1 e.2 m)
          ((hfirst.map Prod.fst).nodup_iff.mpr hnodup) (insertEntry_sorted hm)
        exact ⟨hrest.trans hfirst, hsorted⟩
  obtain ⟨hall, hsorted⟩ := hinsert l [] hkeys .nil
  refine (hall.trans hperm).eq_of_pairwise ?_ hsorted h
  intro a b _ _ hab hba
  exact absurd (IsTrans.trans _ _ _ hab hba) (Std.Irrefl.irrefl a.1)

/-- `m[k] = v`. -/
def insert [IsStrictTotalOrder K r] (m : SortedMap r V) (k : K) (v : V) : SortedMap r V :=
  ⟨insertEntry r k v m.entries, insertEntry_sorted m.sorted⟩

variable [DecidableEq K]

/-- `m.erase(k)`. -/
def erase (m : SortedMap r V) (k : K) : SortedMap r V :=
  ⟨m.entries.filter fun e => decide (e.1 ≠ k), m.sorted.filter _⟩

/-- An insertion changes the value of its key only. -/
theorem findEntry_insertEntry [IsStrictTotalOrder K r] (k k' : K) (v : V) (l : List (K × V)) :
    findEntry k' (insertEntry r k v l) = if k = k' then some v else findEntry k' l := by
  induction l with
  | nil => rfl
  | cons e l ih =>
      obtain ⟨j, w⟩ := e
      rw [insertEntry]
      split_ifs with hlt hk hgt hk hk
      · rw [findEntry, if_pos hk]
      · rw [findEntry, if_neg hk]
      · have hne : j ≠ k' := fun heq => Std.Irrefl.irrefl k' (by rwa [heq, hk] at hgt)
        rw [findEntry, if_neg hne, ih, if_pos hk]
      · rw [findEntry, findEntry, ih, if_neg hk]
      · rw [findEntry, if_pos hk]
      · have heq : k = j := (trichotomous_of r k j).elim (absurd · hlt)
          (·.elim id (absurd · hgt))
        rw [findEntry, findEntry, if_neg hk, if_neg (heq ▸ hk)]

/-- What is found after an insertion. -/
theorem find?_insert [IsStrictTotalOrder K r] (m : SortedMap r V) (k k' : K) (v : V) :
    (m.insert k v).find? k' = if k = k' then some v else m.find? k' :=
  findEntry_insertEntry k k' v m.entries

@[simp] theorem find?_insert_self [IsStrictTotalOrder K r] (m : SortedMap r V) (k : K) (v : V) :
    (m.insert k v).find? k = some v := by
  rw [find?_insert, if_pos rfl]

/-- Another key's value is not changed. -/
theorem find?_insert_ne [IsStrictTotalOrder K r] (m : SortedMap r V) {k k' : K} (v : V)
    (h : k ≠ k') : (m.insert k v).find? k' = m.find? k' := by
  rw [find?_insert, if_neg h]

omit [DecidableRel r] in
/-- A key that is filtered out is not found. -/
theorem findEntry_filter (k k' : K) (l : List (K × V)) :
    findEntry k' (l.filter fun e => decide (e.1 ≠ k)) =
      if k = k' then none else findEntry k' l := by
  induction l with
  | nil => simp [findEntry]
  | cons e l ih =>
      obtain ⟨j, w⟩ := e
      rw [List.filter_cons]
      split_ifs with hj hk hk
      · rw [findEntry, ih, if_pos hk, if_neg (hk ▸ of_decide_eq_true hj)]
      · rw [findEntry, findEntry, ih, if_neg hk]
      · rw [ih, if_pos hk]
      · have hjk : j = k := by simpa using hj
        rw [ih, if_neg hk, findEntry, if_neg (hjk ▸ hk)]

omit [DecidableRel r] in
/-- What is found after an erasure. -/
theorem find?_erase (m : SortedMap r V) (k k' : K) :
    (m.erase k).find? k' = if k = k' then none else m.find? k' :=
  findEntry_filter k k' m.entries

omit [DecidableRel r] in
@[simp] theorem find?_erase_self (m : SortedMap r V) (k : K) : (m.erase k).find? k = none := by
  rw [find?_erase, if_pos rfl]

omit [DecidableRel r] in
/-- Another key's value is not erased. -/
theorem find?_erase_ne (m : SortedMap r V) {k k' : K} (h : k ≠ k') :
    (m.erase k).find? k' = m.find? k' := by
  rw [find?_erase, if_neg h]

end Update

end SortedMap

end Lib
