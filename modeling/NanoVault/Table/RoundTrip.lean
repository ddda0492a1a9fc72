/-
What SELECT * returns after INSERTs (`generateInsertTableStatement`, `insertRow`, `handle`).

INSERT writes the id and then the values of the columns that are not primary, in the order of
their names; SELECT takes the first name of all, sorted, for the primary key and as many words as
if there were exactly one. The two agree exactly if there is one and its name comes first, or if
INSERT has nothing to write at all.
-/
import NanoVault.Table.Constraints

namespace NanoVault.Table

open Lib

def newRowId (stmt : InsertStatement) (t : TableState) : Except Fault Nat :=
  nextRowId t.files.index (1 + 2 * (insertData t.columns stmt).length)

/-- INSERTs that are accepted one after the other, with the ids of their rows. -/
inductive Accepted (t : TableState) : List (InsertStatement × Nat) → TableState → Prop
  | nil : Accepted t [] t
  | concat {inserts : List (InsertStatement × Nat)} {t₁ t₂ : TableState} {stmt : InsertStatement}
      {id : Nat} : Accepted t inserts t₁ → newRowId stmt t₁ = .ok id →
      generateInsert stmt t₁ = .ok t₂ → Accepted t (inserts ++ [(stmt, id)]) t₂

/-- The row has the values of the INSERT, and the id in the primary key. -/
structure Shows (columns : List Column) (stmt : InsertStatement) (id : Nat) (row : Row) :
    Prop where
  others : ∀ c ∈ columns, c.isPrimary = false →
    ∀ v, (c.name, v) ∈ stmt.columns.zip stmt.values → row.find? c.name = some (.text v)
  primary : ∀ c ∈ columns, c.isPrimary = true → row.find? c.name = some (.text (digits id))

/-- After INSERTs that are accepted, SELECT * returns their rows in the same order. -/
def RoundTrip (columns : List Column) : Prop :=
  ∀ inserts t, Accepted (createTable columns) inserts t →
    ∃ rows, select none t = .ok rows ∧
      List.Forall₂ (fun (i : InsertStatement × Nat) row => Shows columns i.1 i.2 row) inserts rows

/-- Every column is primary; or one is, all names are different, and its name comes first. -/
def Arranged (columns : List Column) : Prop :=
  (∀ c ∈ columns, c.isPrimary = true) ∨
    ∃ pk, OneKey columns pk ∧ ∀ c ∈ columns, c.isPrimary = false → pk.name < c.name

variable {columns : List Column} {pk c : Column} {t t' : TableState} {r : Record} {row row' : Row}
  {rows : List Row} {stmt : InsertStatement} {inserts : List (InsertStatement × Nat)}
  {names : List Text} {name : Text} {f : Files}

/-! ### The primary key comes first -/

theorem OneKey.names_front (h : OneKey columns pk)
    (hleads : ∀ c ∈ columns, c.isPrimary = false → pk.name < c.name) :
    Table.allColumnNames columns = pk.name :: (actualColumns columns).map Column.name := by
  rw [h.allColumnNames, orderedInsert_names hleads]

/-- The row of a record that INSERT has written. -/
theorem OneKey.shows (h : OneKey columns pk)
    (hleads : ∀ c ∈ columns, c.isPrimary = false → pk.name < c.name)
    (hnames : Names columns stmt)
    (hvalues : r.values = (insertData columns stmt).map InsertColumn.value) :
    Shows columns stmt r.id (rowOf (Table.allColumnNames columns) r) := by
  constructor
  · intro c hc hother v hv
    obtain ⟨j, hj⟩ := List.getElem?_of_mem (mem_given.mpr hv)
    have hname : ((actualColumns columns).map Column.name)[j]? = some c.name := by
      rw [← hnames, List.getElem?_map, hj]
      rfl
    refine h.find?_of_place hname (hleads c hc hother) ?_
    rw [List.getElem?_map, Option.map_eq_some_iff] at hname
    obtain ⟨c', hc', -⟩ := hname
    have hdata : (insertData columns stmt)[j]? = some ⟨c.name, v, c'.isUnique⟩ :=
      List.getElem?_zipWith_eq_some.mpr ⟨c', (c.name, v), hc', hj, rfl⟩
    rw [hvalues, List.getElem?_map, hdata]
    rfl
  · intro c hc hprimary
    rw [h.eq_pk hc hprimary, h.names_front hleads, rowOf,
      fill_other (List.nodup_cons.mp h.nodup).1, SortedMap.find?_insert_self]

/-- A record that an INSERT has written. -/
structure Written (columns : List Column) (insert : InsertStatement × Nat) (r : Record) :
    Prop where
  alive : r.dead = false
  id : r.id = insert.2
  names : Names columns insert.1
  values : r.values = (insertData columns insert.1).map InsertColumn.value

theorem live_written {rs : List Record} (h : List.Forall₂ (Written columns) inserts rs) :
    live rs = rs := by
  induction h with
  | nil => rfl
  | cons hwritten _ ih => rw [live_cons_alive hwritten.alive, ih]

/-- The table stores the records of the INSERTs. -/
theorem Accepted.written (h : OnePrimary columns)
    (haccepted : Accepted (createTable columns) inserts t) :
    t.columns = columns ∧ ∃ rs, Keeps (columns.length - 1) t rs ∧
      List.Forall₂ (Written columns) inserts rs := by
  induction haccepted with
  | nil => exact ⟨rfl, [], keeps_createTable h, .nil⟩
  | @concat inserts t₁ t₂ stmt id _ hid hinsert ih =>
      obtain ⟨hcolumns, rs, hkeeps, hrs⟩ := ih
      have hnames := (generateInsert_eq_ok.mp hinsert).1
      obtain ⟨-, hcolumns', -, hkeeps'⟩ := hkeeps.insert hinsert
      rw [newRowId, insertData_length hnames, hkeeps.others, hkeeps.stores.nextRowId] at hid
      rw [hcolumns] at hnames hkeeps'
      refine ⟨hcolumns'.trans hcolumns, _, hkeeps', List.rel_append hrs (.cons ?_ .nil)⟩
      exact ⟨rfl, Except.ok.inj hid, hnames, rfl⟩

theorem OneKey.roundTrip (h : OneKey columns pk)
    (hleads : ∀ c ∈ columns, c.isPrimary = false → pk.name < c.name) : RoundTrip columns := by
  intro inserts t haccepted
  obtain ⟨hcolumns, rs, hkeeps, hrs⟩ := haccepted.written h.one
  refine ⟨_, hkeeps.select_none, ?_⟩
  rw [hcolumns, liveRows, live_written hrs, List.forall₂_map_right_iff]
  refine hrs.imp fun insert r hwritten => ?_
  rw [← hwritten.id]
  exact h.shows hleads hwritten.names hwritten.values

theorem roundTrip_of_primary (h : ∀ c ∈ columns, c.isPrimary = true) : RoundTrip columns := by
  have hactual : actualColumns columns = [] := by
    refine List.eq_nil_iff_forall_not_mem.mpr fun c hc => ?_
    obtain ⟨hmem, hother⟩ := mem_actualColumns.mp hc
    rw [h c hmem] at hother
    cases hother
  intro inserts t haccepted
  suffices hnone : inserts = [] ∧ t = createTable columns by
    obtain ⟨rfl, rfl⟩ := hnone
    refine ⟨[], ?_, .nil⟩
    rw [select, rowCount, createTable, List.length_nil, Nat.zero_div]
    rfl
  induction haccepted with
  | nil => exact ⟨rfl, rfl⟩
  | concat _ _ hinsert ih =>
      obtain ⟨-, rfl⟩ := ih
      obtain ⟨-, hrow⟩ := generateInsert_eq_ok.mp hinsert
      have hcolumns : (createTable columns).columns = columns := rfl
      rw [hcolumns, insertData, hactual, List.zipWith_nil_left, insertRow, if_pos rfl] at hrow
      cases hrow

/-! ### One INSERT -/

/-- An INSERT of different values that are no ids. -/
def sample (columns : List Column) : InsertStatement where
  columns := (actualColumns columns).map Column.name
  values := (List.range (actualColumns columns).length).map fun j => List.replicate j 'x'

theorem sample_names (columns : List Column) :
    ((sample columns).columns.zip (sample columns).values).map Prod.fst =
      (actualColumns columns).map Column.name := by
  rw [List.map_fst_zip]
  · rfl
  · rw [sample, List.length_map, List.length_map, List.length_range]

theorem names_sample (columns : List Column) : Names columns (sample columns) := by
  have hsorted : ((sample columns).columns.zip (sample columns).values).Pairwise
      fun a b => a.1 ≤ b.1 := by
    have hnames := actualColumns_sorted columns
    rwa [← sample_names, List.pairwise_map] at hnames
  rw [Names, given, hsorted.insertionSort_eq, sample_names]

/-- The value of a column is that of its place. -/
theorem sample_value {j : Nat} (hname : ((actualColumns columns).map Column.name)[j]? = some name) :
    (name, List.replicate j 'x') ∈ (sample columns).columns.zip (sample columns).values := by
  obtain ⟨hj, -⟩ := List.getElem?_eq_some_iff.mp hname
  rw [List.length_map] at hj
  refine List.mem_of_getElem? (i := j) (List.getElem?_zip_eq_some.mpr ⟨hname, ?_⟩)
  rw [sample, List.getElem?_map, List.getElem?_range hj]
  rfl

theorem Shows.sample_nodup {id : Nat} (h : Shows columns (sample columns) id row) :
    ((actualColumns columns).map Column.name).Nodup := by
  rw [List.nodup_iff_getElem?_ne_getElem?]
  intro i j hij hj heq
  obtain ⟨name, hname⟩ : ∃ name, ((actualColumns columns).map Column.name)[j]? = some name :=
    ⟨_, List.getElem?_eq_getElem hj⟩
  have hmem : name ∈ (actualColumns columns).map Column.name := List.mem_of_getElem? hname
  obtain ⟨c, hc, rfl⟩ := List.mem_map.mp hmem
  obtain ⟨hcolumn, hother⟩ := mem_actualColumns.mp hc
  have hi := h.others c hcolumn hother _ (sample_value (heq.trans hname))
  rw [h.others c hcolumn hother _ (sample_value hname)] at hi
  have hlength := congrArg List.length (Value.text.inj (Option.some.inj hi))
  rw [List.length_replicate, List.length_replicate] at hlength
  exact absurd hlength.symm (Nat.ne_of_lt hij)

/-- No column but a primary one shows the id. -/
theorem Shows.sample_ne {id : Nat} (h : Shows columns (sample columns) id row) (hc : c ∈ columns)
    (hother : c.isPrimary = false) : row.find? c.name ≠ some (.text (digits 1)) := by
  obtain ⟨j, hj⟩ := List.getElem?_of_mem
    (List.mem_map_of_mem (f := Column.name) (mem_actualColumns.mpr ⟨hc, hother⟩))
  rw [h.others c hc hother _ (sample_value hj)]
  intro heq
  have hone : digits 1 = ['1'] := by decide
  have hmem : '1' ∈ List.replicate j 'x' := by
    rw [Value.text.inj (Option.some.inj heq), hone]
    exact List.mem_cons_self
  exact absurd (List.eq_of_mem_replicate hmem) (by decide)

/-- The table after the first INSERT. -/
theorem exists_firstInsert (hother : actualColumns columns ≠ []) :
    ∃ t words, generateInsert (sample columns) (createTable columns) = .ok t ∧
      newRowId (sample columns) (createTable columns) = .ok 1 ∧ t.columns = columns ∧
      t.files.delete = [0] ∧ t.files.index = 1 :: words ∧
      words.length = 2 * (actualColumns columns).length := by
  have hnames := names_sample columns
  have hlength := insertData_length hnames
  have hdata : insertData columns (sample columns) ≠ [] := by
    intro hnil
    rw [hnil, ← actualColumns_length] at hlength
    exact hother (List.eq_nil_of_length_eq_zero hlength.symm)
  have hrow : ∃ t, insertRow (lastPrimary columns) (insertData columns (sample columns))
      (createTable columns) = .ok t ∧ t.columns = columns ∧ t.files.delete = [0] ∧
      t.files.index =
        1 :: offsets 0 ((insertData columns (sample columns)).map InsertColumn.value) := by
    rw [insertRow, if_neg hdata]
    exact ⟨_, rfl, rfl, rfl, rfl⟩
  obtain ⟨t, hrow, hcolumns, hdelete, hindex⟩ := hrow
  refine ⟨t, _, generateInsert_eq_ok.mpr ⟨hnames, hrow⟩, rfl, hcolumns, hdelete, hindex, ?_⟩
  rw [offsets_length, List.length_map, hlength, actualColumns_length]

/-! ### The first row -/

theorem readColumns_other {data : Text} {words : List Nat} {failed failed' : Bool}
    (hread : readColumns data names words failed row = .ok (row', failed')) (hname : name ∉ names) :
    row'.find? name = row.find? name := by
  fun_induction readColumns data names words failed row with
  | case1 words failed row =>
      cases hread
      rfl
  | case2 => cases hread
  | case3 first names start stop words failed row hspan r ih =>
      obtain ⟨hne, hname⟩ := not_or.mp (List.mem_cons.not.mp hname)
      rw [ih hread hname, SortedMap.find?_insert_ne _ _ (Ne.symm hne)]
  | case4 => cases hread

/-- The first name shows the id, if no other is the same. -/
theorem readRow_first {first : Text} {rest : List Text} {id : Nat} {words : List Nat}
    {failed failed' : Bool} (hindex : f.index = id :: words) (hfirst : first ∉ rest)
    (hread : readRow f (first :: rest) 0 failed = .ok (row, failed')) :
    row.find? first = some (.text (digits id)) := by
  unfold readRow at hread
  rw [Nat.zero_mul, List.drop_zero, hindex] at hread
  rw [readColumns_other hread hfirst, SortedMap.find?_insert_self]

/-- SELECT * shows the first record first. -/
theorem select_first (hdelete : t.files.delete = [0])
    (hselect : select none t = .ok (row :: rows)) :
    0 < rowCount t.files (allColumnNames t.columns) ∧
      ∃ failed, readRow t.files (allColumnNames t.columns) 0 false = .ok (row, failed) := by
  rw [select] at hselect
  cases hcount : rowCount t.files (allColumnNames t.columns) with
  | zero =>
      rw [hcount] at hselect
      cases hselect
  | succ n =>
      refine ⟨Nat.succ_pos n, ?_⟩
      rw [hcount, List.range_succ_eq_map] at hselect
      have hfirst : t.files.delete[0]? = some 0 := by rw [hdelete]; rfl
      rw [selectLoop, hfirst] at hselect
      simp only [UInt8.zero_ne_one, if_false, bind, Except.bind] at hselect
      split at hselect
      · cases hselect
      · next r hread =>
          simp only [evaluateWhere, pure, Except.pure] at hselect
          split at hselect
          · cases hselect
          · cases hselect
            exact ⟨r.2, hread⟩

/-- The name that comes first is that of a primary column. -/
theorem Shows.exists_first {failed : Bool} (h : Shows columns (sample columns) 1 row)
    {words : List Nat} (hindex : f.index = 1 :: words)
    (hread : readRow f (allColumnNames columns) 0 false = .ok (row, failed))
    (hnodup : (columns.map Column.name).Nodup) :
    ∃ c ∈ columns, c.isPrimary = true ∧ ∀ c' ∈ columns, c.name ≤ c'.name := by
  have hperm : (allColumnNames columns).Perm (columns.map Column.name) :=
    List.perm_insertionSort _ _
  have hsorted : (allColumnNames columns).Pairwise (· ≤ ·) := List.pairwise_insertionSort _ _
  rw [← hperm.nodup_iff] at hnodup
  cases hnames : allColumnNames columns with
  | nil =>
      rw [hnames] at hread
      cases hread
  | cons first rest =>
      rw [hnames] at hread hnodup hsorted hperm
      have hid := readRow_first hindex (List.nodup_cons.mp hnodup).1 hread
      obtain ⟨c, hc, rfl⟩ := List.mem_map.mp (hperm.mem_iff.mp List.mem_cons_self)
      refine ⟨c, hc, ?_, ?_⟩
      · by_contra hother
        exact h.sample_ne hc (Bool.not_eq_true _ ▸ hother) hid
      · intro c' hc'
        rcases List.mem_cons.mp (hperm.mem_iff.mpr (List.mem_map_of_mem hc')) with heq | hrest
        · exact le_of_eq heq.symm
        · exact (List.pairwise_cons.mp hsorted).1 _ hrest

/-- Records that are as long as INSERT writes them have room for one primary key at most. -/
theorem primaries_length_le (hcolumns : t.columns = columns) {words : List Nat}
    (hindex : t.files.index = 1 :: words)
    (hwords : words.length = 2 * (actualColumns columns).length)
    (hcount : 0 < rowCount t.files (allColumnNames t.columns)) :
    (columns.filter Column.isPrimary).length ≤ 1 := by
  have hsplit := (List.filter_append_perm Column.isPrimary columns).length_eq
  rw [List.length_append, ← actualColumns_length] at hsplit
  rw [rowCount, Nat.div_pos_iff, rowWords, hindex, List.length_cons, hwords, hcolumns,
    allColumnNames, sortNames, List.length_insertionSort, List.length_map] at hcount
  omega

/-- The primary columns and the others are all of them. -/
theorem perm_primaries (columns : List Column) :
    columns.Perm (columns.filter Column.isPrimary ++ actualColumns columns) :=
  (List.filter_append_perm Column.isPrimary columns).symm.trans
    ((List.perm_insertionSort _ _).symm.append_left _)

/-- A table whose rows show the one primary column and the sample apart has no name twice. -/
theorem Shows.oneKey (h : Shows columns (sample columns) 1 row) {pk : Column}
    (hprimaries : columns.filter Column.isPrimary = [pk]) : OneKey columns pk := by
  have hperm : columns.Perm (pk :: actualColumns columns) := by
    have hsplit := perm_primaries columns
    rwa [hprimaries, List.singleton_append] at hsplit
  have hpk : pk ∈ columns.filter Column.isPrimary := by
    rw [hprimaries]
    exact List.mem_cons_self
  obtain ⟨hmem, hprimary⟩ := List.mem_filter.mp hpk
  refine ⟨hmem, hprimary, ?_, (hperm.map Column.name).nodup_iff.mpr
    (List.nodup_cons.mpr ⟨?_, h.sample_nodup⟩)⟩
  · rw [OnePrimary, List.countP_eq_length_filter, hprimaries]
    rfl
  · intro hsame
    obtain ⟨c, hc, heq⟩ := List.mem_map.mp hsame
    obtain ⟨hcolumn, hother⟩ := mem_actualColumns.mp hc
    refine h.sample_ne hcolumn hother ?_
    rw [heq]
    exact h.primary pk hmem hprimary

/-- A table that shows the sample has a primary column. -/
theorem Shows.primary_ne_nil {failed : Bool} (h : Shows columns (sample columns) 1 row)
    {words : List Nat} (hindex : f.index = 1 :: words)
    (hread : readRow f (allColumnNames columns) 0 false = .ok (row, failed)) :
    columns.filter Column.isPrimary ≠ [] := by
  intro hprimaries
  have hperm : columns.Perm (actualColumns columns) := by
    have hsplit := perm_primaries columns
    rwa [hprimaries, List.nil_append] at hsplit
  have hnodup := (hperm.map Column.name).nodup_iff.mpr h.sample_nodup
  obtain ⟨c, hc, hprimary, -⟩ := h.exists_first hindex hread hnodup
  have hmem : c ∈ columns.filter Column.isPrimary := List.mem_filter.mpr ⟨hc, hprimary⟩
  rw [hprimaries] at hmem
  cases hmem

/-- A table that gives its first row back has its columns arranged. -/
theorem arranged_of_roundTrip (h : RoundTrip columns) : Arranged columns := by
  by_cases hall : ∀ c ∈ columns, c.isPrimary = true
  · exact .inl hall
  obtain ⟨c, hc, hother⟩ : ∃ c ∈ columns, c.isPrimary = false := by
    push Not at hall
    obtain ⟨c, hc, hother⟩ := hall
    exact ⟨c, hc, Bool.not_eq_true _ ▸ hother⟩
  obtain ⟨t, words, hinsert, hid, hcolumns, hdelete, hindex, hwords⟩ :=
    exists_firstInsert (List.ne_nil_of_mem (mem_actualColumns.mpr ⟨hc, hother⟩))
  obtain ⟨rows, hselect, hrows⟩ := h [(sample columns, 1)] t (.concat .nil hid hinsert)
  obtain ⟨row, rest, hshows, hrest, rfl⟩ := List.forall₂_cons_left_iff.mp hrows
  obtain ⟨hcount, failed, hread⟩ := select_first hdelete hselect
  have hone := primaries_length_le hcolumns hindex hwords hcount
  rw [hcolumns] at hread
  obtain ⟨pk, more, hprimaries⟩ := List.exists_cons_of_ne_nil (hshows.primary_ne_nil hindex hread)
  rw [hprimaries, List.length_cons] at hone
  obtain rfl : more = [] := List.eq_nil_of_length_eq_zero (by omega)
  have hkey : OneKey columns pk := hshows.oneKey hprimaries
  obtain ⟨c, hc, hfirst, hleast⟩ := hshows.exists_first hindex hread hkey.names
  obtain rfl := hkey.eq_pk hc hfirst
  refine .inr ⟨c, hkey, fun c' hc' hother => ?_⟩
  exact lt_of_le_of_ne (hleast c' hc') (hkey.ne_pk (mem_actualColumns.mpr ⟨hc', hother⟩)).symm

/-- What is inserted is selected again exactly if the columns are arranged for it. -/
theorem roundTrip_iff : RoundTrip columns ↔ Arranged columns := by
  constructor
  · exact arranged_of_roundTrip
  · rintro (hall | ⟨pk, hkey, hleads⟩)
    · exact roundTrip_of_primary hall
    · exact hkey.roundTrip hleads

/-- `CREATE TABLE t (id INT PRIMARY KEY, a VARCHAR)`. -/
def keyedSecond : List Column :=
  [{ name := ['i', 'd'], type := .int, isPrimary := true }, { name := ['a'], type := .varchar }]

/-- The id is shown as the value of `a`, and the value of `a` as the primary key. -/
theorem id_under_other_name :
    ¬ RoundTrip keyedSecond ∧ ∃ t row,
      Accepted (createTable keyedSecond) [(⟨[['a']], [['x']]⟩, 1)] t ∧
        select none t = .ok [row] ∧ row.find? ['a'] = some (.text ['1']) ∧
        row.find? ['i', 'd'] = some (.text ['x']) := by
  obtain ⟨t, row, haccepted, hselect, ha, hid⟩ : ∃ t row,
      Accepted (createTable keyedSecond) [(⟨[['a']], [['x']]⟩, 1)] t ∧
        select none t = .ok [row] ∧ row.find? ['a'] = some (.text ['1']) ∧
        row.find? ['i', 'd'] = some (.text ['x']) :=
    ⟨_, _, .concat .nil rfl rfl, rfl, rfl, rfl⟩
  refine ⟨?_, t, row, haccepted, hselect, ha, hid⟩
  intro h
  obtain ⟨rows, hrows, hshows⟩ := h _ t haccepted
  obtain rfl := Except.ok.inj (hselect.symm.trans hrows)
  obtain ⟨hshows, -⟩ := List.forall₂_cons.mp hshows
  have hvalue := hshows.others { name := ['a'], type := .varchar } (by decide) rfl ['x']
    List.mem_cons_self
  rw [ha] at hvalue
  exact absurd (Value.text.inj (Option.some.inj hvalue)) (by decide)

end NanoVault.Table
