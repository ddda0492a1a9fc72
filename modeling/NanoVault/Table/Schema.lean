/-
Where the readers find what INSERT writes.

INSERT writes the values of a row in the order of their columns' names, without the primary
key; the readers take the id for the first of all names, sorted, and the values for those
behind it. For a table with one primary key and columns of different names, the two agree on
every column that sorts behind the primary key (`OneKey.find?_of_place`).
-/
import NanoVault.Table.RowFiles

namespace NanoVault.Table

open Lib

/-- `pk` is the one primary key, and the columns have different names. -/
structure OneKey (columns : List Column) (pk : Column) : Prop where
  mem : pk ∈ columns
  primary : pk.isPrimary = true
  one : OnePrimary columns
  names : (columns.map Column.name).Nodup

variable {r : Record} {value name : Text} {c pk : Column} {columns : List Column}
  {stmt : InsertStatement} {names vs : List Text} {row : Row}

/-! ### The order of the columns -/

/-- The columns INSERT writes are the ones that are not primary. -/
theorem mem_actualColumns : c ∈ actualColumns columns ↔ c ∈ columns ∧ c.isPrimary = false := by
  rw [actualColumns, List.mem_insertionSort, List.mem_filter, Bool.not_eq_true']

/-- A table's one primary column is the only one. -/
theorem OnePrimary.primaries (h : OnePrimary columns) (hpk : pk ∈ columns)
    (hprimary : pk.isPrimary = true) : columns.filter Column.isPrimary = [pk] := by
  rw [OnePrimary, List.countP_eq_length_filter, List.length_eq_one_iff] at h
  obtain ⟨c, hc⟩ := h
  have hmem : pk ∈ columns.filter Column.isPrimary := List.mem_filter.mpr ⟨hpk, hprimary⟩
  rw [hc, List.mem_singleton] at hmem
  rw [hc, hmem]

theorem OneKey.primaries (h : OneKey columns pk) : columns.filter Column.isPrimary = [pk] :=
  h.one.primaries h.mem h.primary

/-- A column that is primary is the key. -/
theorem OneKey.eq_pk (h : OneKey columns pk) (hc : c ∈ columns)
    (hprimary : c.isPrimary = true) : c = pk := by
  have hmem : c ∈ columns.filter Column.isPrimary := List.mem_filter.mpr ⟨hc, hprimary⟩
  rwa [h.primaries, List.mem_singleton] at hmem

theorem lastPrimary_of_primaries (h : columns.filter Column.isPrimary = [pk]) :
    lastPrimary columns = pk.name := by
  have hfold : Table.lastPrimary columns =
      (columns.filter Column.isPrimary).foldl (fun _ c => c.name) [] := by
    rw [List.foldl_filter]
    rfl
  rw [hfold, h]
  rfl

/-- The last primary column is the key. -/
theorem OneKey.lastPrimary (h : OneKey columns pk) : lastPrimary columns = pk.name :=
  lastPrimary_of_primaries h.primaries

/-- The columns are the key and the others. -/
theorem perm_of_primaries (h : columns.filter Column.isPrimary = [pk]) :
    columns.Perm (pk :: actualColumns columns) := by
  have hsplit := (List.filter_append_perm Column.isPrimary columns).symm
  rw [h] at hsplit
  exact hsplit.trans ((List.perm_insertionSort _ _).symm.cons pk)

theorem OneKey.perm (h : OneKey columns pk) : columns.Perm (pk :: actualColumns columns) :=
  perm_of_primaries h.primaries

/-- The key and the others have names of their own. -/
theorem OneKey.nodup (h : OneKey columns pk) :
    (pk.name :: (actualColumns columns).map Column.name).Nodup :=
  (h.perm.map Column.name).nodup_iff.mp h.names

/-- No other column has the key's name. -/
theorem OneKey.ne_pk (h : OneKey columns pk) (hc : c ∈ actualColumns columns) :
    c.name ≠ pk.name := fun heq =>
  (List.nodup_cons.mp h.nodup).1 (heq ▸ List.mem_map_of_mem hc)

/-- The readers find the primary key among the columns INSERT writes. -/
theorem allColumnNames_of_primaries (h : columns.filter Column.isPrimary = [pk]) :
    allColumnNames columns =
      ((actualColumns columns).map Column.name).orderedInsert (· ≤ ·) pk.name := by
  have hnames := (List.perm_insertionSort (· ≤ ·) (columns.map Column.name)).trans
    ((perm_of_primaries h).map Column.name)
  exact (hnames.trans (List.perm_orderedInsert (· ≤ ·) _ _).symm).eq_of_pairwise
    (fun _ _ _ _ => le_antisymm) (List.pairwise_insertionSort _ _)
    ((actualColumns_sorted columns).orderedInsert _ _)

/-- The names in order are those of the others with the key's put in its place. -/
theorem OneKey.allColumnNames (h : OneKey columns pk) : allColumnNames columns =
    ((actualColumns columns).map Column.name).orderedInsert (· ≤ ·) pk.name :=
  allColumnNames_of_primaries h.primaries

/-- What stands behind the inserted name moves by one. -/
theorem orderedInsert_getElem? {l : List Text} {a b : Text} {i : Nat}
    (hl : l.Pairwise (· ≤ ·)) (hb : l[i]? = some b) (hab : a < b) :
    (l.orderedInsert (· ≤ ·) a)[i + 1]? = some b := by
  induction l generalizing i with
  | nil => cases hb
  | cons first l ih =>
      obtain ⟨hfirst, hl⟩ := List.pairwise_cons.mp hl
      rw [List.orderedInsert_cons]
      split
      · exact hb
      · next hle =>
          cases i with
          | zero =>
              cases hb
              exact absurd (le_of_lt hab) hle
          | succ i => exact ih hl hb

/-- A column behind the primary key is one place further on for the readers. -/
theorem OneKey.place (h : OneKey columns pk) {j : Nat}
    (hname : ((actualColumns columns).map Column.name)[j]? = some name) (hfirst : pk.name < name) :
    (Table.allColumnNames columns)[j + 1]? = some name := by
  rw [h.allColumnNames]
  exact orderedInsert_getElem? (actualColumns_sorted columns) hname hfirst

theorem OneKey.names_nodup (h : OneKey columns pk) : (Table.allColumnNames columns).Nodup := by
  have hperm := List.perm_insertionSort (· ≤ ·) (columns.map Column.name)
  exact hperm.nodup_iff.mpr h.names

/-! ### The row of a record -/

/-- Filling a row leaves the names that are not filled. -/
theorem fill_other (hname : name ∉ names) : (fill row names vs).find? name = row.find? name := by
  induction names generalizing row vs with
  | nil => rfl
  | cons first names ih =>
      cases vs with
      | nil => rfl
      | cons v vs =>
          obtain ⟨hne, hname⟩ := not_or.mp (List.mem_cons.not.mp hname)
          have hrest : (fill row (first :: names) (v :: vs)).find? name =
              (row.insert first (.text v)).find? name := ih hname
          rw [hrest, SortedMap.find?_insert_ne _ _ (Ne.symm hne)]

/-- A row that is filled has the values under their names. -/
theorem fill_of_mem (hnames : names.Nodup) (hmem : (name, value) ∈ names.zip vs) :
    (fill row names vs).find? name = some (.text value) := by
  induction names generalizing row vs with
  | nil => cases hmem
  | cons first names ih =>
      cases vs with
      | nil => cases hmem
      | cons v vs =>
          obtain ⟨hfirst, hnames⟩ := List.nodup_cons.mp hnames
          rw [List.zip_cons_cons, List.mem_cons] at hmem
          cases hmem with
          | inl heq =>
              obtain ⟨rfl, rfl⟩ := Prod.mk.inj heq
              have hrest : (fill row (name :: names) (value :: vs)).find? name =
                  (row.insert name (.text value)).find? name := fill_other hfirst
              rw [hrest, SortedMap.find?_insert_self]
          | inr hmem => exact ih hnames hmem

/-- The value of a column behind the primary key stands in the record at the column's place. -/
theorem OneKey.find?_of_place (h : OneKey columns pk) {j : Nat}
    (hname : ((actualColumns columns).map Column.name)[j]? = some name) (hfirst : pk.name < name)
    (hvalue : r.values[j]? = some value) :
    (rowOf (Table.allColumnNames columns) r).find? name = some (.text value) := by
  have hplace := h.place hname hfirst
  have hnodup := h.names_nodup
  cases hnames : Table.allColumnNames columns with
  | nil =>
      rw [hnames] at hplace
      cases hplace
  | cons first rest =>
      rw [hnames] at hplace hnodup
      have hmem : (name, value) ∈ rest.zip r.values :=
        List.mem_of_getElem? (List.getElem?_zip_eq_some.mpr ⟨hplace, hvalue⟩)
      rw [rowOf, fill_of_mem (List.nodup_cons.mp hnodup).2 hmem]

/-! ### The values of an INSERT -/

theorem zipWith_names {cs : List Column} {gs : List (Text × Text)}
    (hnames : gs.map Prod.fst = cs.map Column.name) :
    (List.zipWith (fun c g => InsertColumn.mk g.1 g.2 c.isUnique) cs gs).map InsertColumn.name =
      cs.map Column.name := by
  induction cs generalizing gs with
  | nil => rfl
  | cons c cs ih =>
      cases gs with
      | nil => cases hnames
      | cons g gs =>
          obtain ⟨hname, hnames⟩ := List.cons.inj hnames
          rw [List.zipWith_cons_cons, List.map_cons, List.map_cons, ih hnames]
          exact congrArg (· :: _) hname

theorem mem_zipWith_of_mem {cs : List Column} {gs : List (Text × Text)}
    (hnames : gs.map Prod.fst = cs.map Column.name) (hc : c ∈ cs) :
    ∃ d ∈ List.zipWith (fun c g => InsertColumn.mk g.1 g.2 c.isUnique) cs gs,
      d.name = c.name ∧ d.isUnique = c.isUnique := by
  induction cs generalizing gs with
  | nil => cases hc
  | cons first cs ih =>
      cases gs with
      | nil => cases hnames
      | cons g gs =>
          obtain ⟨hname, hnames⟩ := List.cons.inj hnames
          cases List.mem_cons.mp hc with
          | inl heq =>
              subst heq
              exact ⟨_, List.mem_cons_self, hname, rfl⟩
          | inr hc =>
              obtain ⟨d, hd, hdname, hdunique⟩ := ih hnames hc
              exact ⟨d, List.mem_cons_of_mem _ hd, hdname, hdunique⟩

/-- What INSERT writes has the names of the columns. -/
theorem insertData_names (hnames : Names columns stmt) :
    (insertData columns stmt).map InsertColumn.name =
      (actualColumns columns).map Column.name := zipWith_names hnames

/-- Every column that is not primary gets a value. -/
theorem exists_mem_insertData (hnames : Names columns stmt) (hc : c ∈ actualColumns columns) :
    ∃ d ∈ insertData columns stmt, d.name = c.name ∧ d.isUnique = c.isUnique :=
  mem_zipWith_of_mem hnames hc

end NanoVault.Table
