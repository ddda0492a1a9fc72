/-
The relation a table keeps.

A `Relation` has no files: it is a list of tuples, each an id and a text for every other
column, and the id given last. SELECT returns the rows a search finds, DELETE keeps those it
passes over, and UPDATE also appends the rows it has found, with the assigned texts and new
ids. A search ends at the first row on which the condition throws. The order in which the columns of
a row are printed is a parameter, the same for both.

On a table whose columns are declared in the order of their names, the primary key first,
whatever is executed one after the other answers what the relation answers (`relation_run`).
-/
import NanoVault.Table.Output
import NanoVault.Table.RowIds

namespace NanoVault.Table

open Lib

/-! ### Relations -/

/-- What a search has passed over, with everything behind an exception; what it has found; and
the exception. -/
structure Search (α : Type) where
  kept : List α := []
  found : List α := []
  fault : Option Fault := none

def searchFor {α : Type} (test : α → Except Fault Bool) : List α → Search α
  | [] => {}
  | x :: xs =>
      match test x with
      | .error e => ⟨x :: xs, [], some e⟩
      | .ok false => { searchFor test xs with kept := x :: (searchFor test xs).kept }
      | .ok true => { searchFor test xs with found := x :: (searchFor test xs).found }

structure Tuple where
  id : Nat
  fields : Row

/-- The row of a tuple, with its id under the name of the primary key. -/
def Tuple.row (key : Text) (u : Tuple) : Row := u.fields.insert key (.text (digits u.id))

structure Relation where
  key : Text
  columns : List Text
  tuples : List Tuple := []
  lastId : Nat := 0

/-- A statement, or a SELECT. -/
inductive Request where
  | execute (stmt : Statement)
  | select (whereClause : Option Expression)
deriving DecidableEq, Repr

/-- What is answered: whether an INSERT has been accepted, the exception of another statement,
the text of a SELECT. -/
inductive Reply where
  | inserted (accepted : Bool)
  | done (fault : Option Fault)
  | rows (text : Except Fault Text)

namespace Relation

/-- An INSERT gives a text to each of the columns, in any order. -/
def Accepts (R : Relation) (stmt : InsertStatement) : Prop :=
  R.columns ≠ [] ∧ ((stmt.columns.zip stmt.values).map Prod.fst).Perm R.columns

instance (R : Relation) (stmt : InsertStatement) : Decidable (R.Accepts stmt) :=
  inferInstanceAs (Decidable (_ ∧ _))

def insert (R : Relation) (stmt : InsertStatement) : Relation where
  key := R.key
  columns := R.columns
  tuples := R.tuples ++ [⟨R.lastId + 1, assign SortedMap.empty (stmt.columns.zip stmt.values)⟩]
  lastId := R.lastId + 1

def search (R : Relation) (whereClause : Option Expression) : Search Tuple :=
  searchFor (fun u => evaluateWhere whereClause (u.row R.key)) R.tuples

/-- The tuples found, with the texts assigned to them, under the ids from `id` on. -/
def successors (columns : List Text) (assignments : List (Text × Text)) :
    Nat → List Tuple → List Tuple
  | _, [] => []
  | id, u :: us =>
      ⟨id, assign u.fields (assignments.filter fun a => columns.contains a.1)⟩ ::
        successors columns assignments (id + 1) us

def update (R : Relation) (assignments : List (Text × Text)) (s : Search Tuple) : Relation where
  key := R.key
  columns := R.columns
  tuples := s.kept ++ successors R.columns assignments (R.lastId + 1) s.found
  lastId := R.lastId + s.found.length

/-- Vacuum goes back to the last id in use. -/
def vacuum (R : Relation) : Relation :=
  { R with lastId := (R.tuples.getLast?.map Tuple.id).getD 0 }

/-- The relation after a statement, and the answer. -/
def execute (R : Relation) : Statement → Relation × Reply
  | .insert stmt =>
      if R.Accepts stmt then (R.insert stmt, .inserted true) else (R, .inserted false)
  | .update assignments whereClause =>
      if assignments.any fun a => a.1 = R.key then
        (R, .done (some (.runtimeError "UPDATE of PRIMARY KEY is not allowed".toList)))
      else (R.update assignments (R.search whereClause), .done (R.search whereClause).fault)
  | .delete whereClause =>
      ({ R with tuples := (R.search whereClause).kept }, .done (R.search whereClause).fault)
  | .vacuum => (R.vacuum, .done none)

/-- The rows found, if the condition throws on none. -/
def select (R : Relation) (whereClause : Option Expression) : Except Fault (List Row) :=
  match (R.search whereClause).fault with
  | some e => .error e
  | none => .ok ((R.search whereClause).found.map (Tuple.row R.key))

def serve (order : HashOrder) (R : Relation) : Request → Relation × Reply
  | .execute stmt => R.execute stmt
  | .select whereClause => (R, .rows ((R.select whereClause).map (printRows order)))

/-- The answers to requests made one after the other. -/
def session (order : HashOrder) (R : Relation) : List Request → List Reply
  | [] => []
  | q :: qs => (R.serve order q).2 :: (R.serve order q).1.session order qs

end Relation

def serve (order : HashOrder) (t : TableState) : Request → TableState × Reply
  | .execute (.insert stmt) =>
      ((execute t (.insert stmt)).1, .inserted (execute t (.insert stmt)).2.isNone)
  | .execute stmt => ((execute t stmt).1, .done (execute t stmt).2)
  | .select whereClause => (t, .rows (selectText order whereClause t))

/-- The answers to requests made one after the other. -/
def session (order : HashOrder) (t : TableState) : List Request → List Reply
  | [] => []
  | q :: qs => (serve order t q).2 :: session order (serve order t q).1 qs

variable {columns : List Column} {pk : Column} {k : Nat} {t t' : TableState} {r : Record}
  {rs : List Record} {row row' : Row} {name value : Text} {names vs : List Text}
  {assignments pairs pairs' : List (Text × Text)} {whereClause : Option Expression}
  {R : Relation} {stmt : InsertStatement}

/-! ### Rows and their texts -/

/-- Two different names may be set in either order. -/
theorem insert_comm {a b : Text} {v w : Value} (hne : a ≠ b) :
    (row.insert a v).insert b w = (row.insert b w).insert a v := by
  apply SortedMap.ext_find?
  intro name
  simp only [SortedMap.find?_insert]
  by_cases ha : a = name
  · have hb : b ≠ name := fun hb => hne (ha.trans hb.symm)
    simp [ha, hb]
  · simp [ha]

/-- A name that is not filled may be set before or after. -/
theorem fill_insert {v : Value} (hname : name ∉ names) :
    fill (row.insert name v) names vs = (fill row names vs).insert name v := by
  induction names generalizing row vs with
  | nil => rfl
  | cons first names ih =>
      cases vs with
      | nil => rfl
      | cons value vs =>
          obtain ⟨hne, hname⟩ := not_or.mp (List.mem_cons.not.mp hname)
          have hswap : (row.insert name v).insert first (.text value) =
              (row.insert first (.text value)).insert name v := insert_comm hne
          show fill ((row.insert name v).insert first (.text value)) names vs = _
          rw [hswap, ih hname]
          rfl

/-- Assigning names and values is filling them in. -/
theorem assign_zip (row : Row) (names vs : List Text) :
    assign row (names.zip vs) = fill row names vs := rfl

/-- An assignment leaves the other names. -/
theorem assign_other (hname : name ∉ pairs.map Prod.fst) :
    (assign row pairs).find? name = row.find? name := by
  induction pairs generalizing row with
  | nil => rfl
  | cons p pairs ih =>
      obtain ⟨hne, hname⟩ := not_or.mp (List.mem_cons.not.mp hname)
      have hrest : (assign row (p :: pairs)).find? name =
          (row.insert p.1 (.text p.2)).find? name := ih hname
      rw [hrest, SortedMap.find?_insert_ne _ _ (Ne.symm hne)]

/-- An assignment sets its names to its values. -/
theorem assign_of_mem (hpairs : (pairs.map Prod.fst).Nodup) (hmem : (name, value) ∈ pairs) :
    (assign row pairs).find? name = some (.text value) := by
  induction pairs generalizing row with
  | nil => cases hmem
  | cons p pairs ih =>
      rw [List.map_cons, List.nodup_cons] at hpairs
      obtain ⟨hnot, hpairs⟩ := hpairs
      rcases List.mem_cons.mp hmem with rfl | hmem
      · have hrest : (assign row ((name, value) :: pairs)).find? name =
            (row.insert name (.text value)).find? name := assign_other hnot
        rw [hrest, SortedMap.find?_insert_self]
      · exact ih hpairs hmem

/-- The order of texts for different names does not matter. -/
theorem assign_perm (hpairs : (pairs.map Prod.fst).Nodup) (hperm : pairs.Perm pairs') :
    assign row pairs = assign row pairs' := by
  apply SortedMap.ext_find?
  intro name
  have hpairs' := (hperm.map Prod.fst).nodup_iff.mp hpairs
  by_cases hname : name ∈ pairs.map Prod.fst
  · obtain ⟨⟨name, value⟩, hmem, rfl⟩ := List.mem_map.mp hname
    rw [assign_of_mem hpairs hmem, assign_of_mem hpairs' (hperm.mem_iff.mp hmem)]
  · have hname' : name ∉ pairs'.map Prod.fst := fun hmem =>
      hname ((hperm.map Prod.fst).mem_iff.mpr hmem)
    rw [assign_other hname, assign_other hname']

/-- What is assigned to a column does not depend on the others. -/
theorem assign_known (hname : name ∈ names) (hrow : row.find? name = row'.find? name) :
    (assign row assignments).find? name =
      (assign row' (assignments.filter fun a => names.contains a.1)).find? name := by
  induction assignments generalizing row row' with
  | nil => exact hrow
  | cons a assignments ih =>
      have hnext : (row.insert a.1 (.text a.2)).find? name =
          if a.1 = name then some (.text a.2) else row'.find? name := by
        rw [SortedMap.find?_insert, hrow]
      rw [List.filter_cons]
      by_cases ha : a.1 ∈ names
      · rw [if_pos (List.contains_iff_mem.mpr ha)]
        refine @ih (row.insert a.1 (.text a.2)) (row'.insert a.1 (.text a.2)) ?_
        rw [hnext, SortedMap.find?_insert]
      · rw [if_neg (by simpa using ha)]
        refine @ih (row.insert a.1 (.text a.2)) row' ?_
        have hne : a.1 ≠ name := by
          intro heq
          rw [heq] at ha
          exact ha hname
        rw [hnext, if_neg hne]

theorem assign_text (h : ∃ s, row.find? name = some (.text s)) :
    ∃ s, (assign row assignments).find? name = some (.text s) := by
  induction assignments generalizing row with
  | nil => exact h
  | cons a assignments ih =>
      refine @ih (row.insert a.1 (.text a.2)) ?_
      rw [SortedMap.find?_insert]
      split
      · exact ⟨a.2, rfl⟩
      · exact h

/-! ### The relation of a table -/

def tupleOf (columns : List Column) (r : Record) : Tuple :=
  ⟨r.id, fill SortedMap.empty (otherNames columns) r.values⟩

/-- A table with the records `rs`, and a relation of those that are live. -/
structure Models (columns : List Column) (pk : Column) (t : TableState) (rs : List Record)
    (R : Relation) : Prop where
  keeps : Keeps (columns.length - 1) t rs
  columns_eq : t.columns = columns
  key : R.key = pk.name
  names : R.columns = otherNames columns
  tuples : R.tuples = (live rs).map (tupleOf columns)
  lastId : R.lastId + 1 = nextId rs

/-- What the readers find of a record is the row of its tuple. -/
theorem InOrder.row_tupleOf (h : InOrder columns pk) (r : Record) :
    rowOf (allColumnNames columns) r = (tupleOf columns r).row pk.name := by
  rw [h.allColumnNames, orderedInsert_names h.leads]
  exact fill_insert (List.nodup_cons.mp h.nodup).1

/-- What a scan of the files leaves and finds is what a search among the tuples leaves and
finds. -/
theorem InOrder.searchFor_live (h : InOrder columns pk) (whereClause : Option Expression)
    (rs : List Record) :
    searchFor (fun u => evaluateWhere whereClause (u.row pk.name))
        ((live rs).map (tupleOf columns)) =
      { kept := (live (sweep (allColumnNames columns) whereClause rs).records).map
          (tupleOf columns)
        found := (sweep (allColumnNames columns) whereClause rs).hits.map (tupleOf columns)
        fault := (sweep (allColumnNames columns) whereClause rs).fault } := by
  induction rs with
  | nil => rfl
  | cons r rs ih =>
      cases hdead : r.dead with
      | true =>
          rw [live_cons_dead hdead, sweep_dead hdead, live_cons_dead hdead]
          exact ih
      | false =>
          have hrow := h.row_tupleOf r
          rw [live_cons_alive hdead, List.map_cons, searchFor]
          cases hwhere : evaluateWhere whereClause (rowOf (allColumnNames columns) r) with
          | error e =>
              rw [sweep_error hdead hwhere, ← hrow, hwhere, live_cons_alive hdead]
              rfl
          | ok pass =>
              rw [← hrow, hwhere, ih]
              cases pass with
              | false => rw [sweep_false hdead hwhere, live_cons_alive hdead, List.map_cons]
              | true => rw [sweep_true hdead hwhere, live_cons_dead rfl, List.map_cons]

/-- The relation is searched as the records are. -/
theorem Models.search (h : InOrder columns pk) (hmodels : Models columns pk t rs R)
    (whereClause : Option Expression) :
    R.search whereClause =
      { kept := (live (sweep (allColumnNames columns) whereClause rs).records).map
          (tupleOf columns)
        found := (sweep (allColumnNames columns) whereClause rs).hits.map (tupleOf columns)
        fault := (sweep (allColumnNames columns) whereClause rs).fault } := by
  rw [Relation.search, hmodels.key, hmodels.tuples]
  exact h.searchFor_live whereClause rs

theorem sweep_ids (names : List Text) (whereClause : Option Expression) (rs : List Record) :
    (sweep names whereClause rs).records.map Record.id = rs.map Record.id :=
  sweep_map (fun _ => rfl) names whereClause rs

/-- A scan finds records that are there. -/
theorem mem_of_hits (hr : r ∈ (sweep names whereClause rs).hits) : r ∈ rs := by
  induction rs with
  | nil => cases hr
  | cons x rs ih =>
      cases hdead : x.dead with
      | true =>
          rw [sweep_dead hdead] at hr
          exact List.mem_cons_of_mem _ (ih hr)
      | false =>
          cases hwhere : evaluateWhere whereClause (rowOf names x) with
          | error e =>
              rw [sweep_error hdead hwhere] at hr
              cases hr
          | ok pass =>
              cases pass with
              | false =>
                  rw [sweep_false hdead hwhere] at hr
                  exact List.mem_cons_of_mem _ (ih hr)
              | true =>
                  rw [sweep_true hdead hwhere] at hr
                  rcases List.mem_cons.mp hr with rfl | hr
                  · exact List.mem_cons_self
                  · exact List.mem_cons_of_mem _ (ih hr)

/-! ### INSERT -/

/-- The texts of an accepted INSERT, in the order of the columns. -/
theorem zip_insertData (hnames : Names columns stmt) :
    (otherNames columns).zip ((insertData columns stmt).map InsertColumn.value) = given stmt := by
  rw [insertData, otherNames]
  rw [Names] at hnames
  generalize actualColumns columns = cs at hnames
  generalize given stmt = gs at hnames
  induction cs generalizing gs with
  | nil =>
      rw [List.map_nil, List.map_eq_nil_iff] at hnames
      rw [hnames]
      rfl
  | cons c cs ih =>
      cases gs with
      | nil => cases hnames
      | cons g gs =>
          obtain ⟨hname, hnames⟩ := List.cons.inj hnames
          rw [List.zipWith_cons_cons, List.map_cons, List.map_cons, List.zip_cons_cons,
            ih gs hnames, ← hname]

/-- The tuple of a row that is inserted has the given texts. -/
theorem OneKey.tupleOf_insertData (h : OneKey columns pk) (hnames : Names columns stmt)
    (id : Nat) :
    tupleOf columns ⟨id, false, (insertData columns stmt).map InsertColumn.value⟩ =
      ⟨id, assign SortedMap.empty (stmt.columns.zip stmt.values)⟩ := by
  have hnodup : ((given stmt).map Prod.fst).Nodup := by
    rw [hnames]
    exact (List.nodup_cons.mp h.nodup).2
  rw [tupleOf, ← assign_zip, zip_insertData hnames, assign_perm hnodup (given_perm stmt)]

/-- The relation accepts the INSERTs the table does. -/
theorem Models.accepts (hmodels : Models columns pk t rs R) :
    (∃ t', generateInsert stmt t = .ok t') ↔ R.Accepts stmt := by
  rw [hmodels.keeps.accepts, hmodels.columns_eq, Accepts, Relation.Accepts, hmodels.names]

/-- An INSERT adds a tuple. -/
theorem Models.insert (h : InOrder columns pk) (hmodels : Models columns pk t rs R)
    (hinsert : generateInsert stmt t = .ok t') :
    ∃ rs', Models columns pk t' rs' (R.insert stmt) := by
  have hgiven := (generateInsert_eq_ok.mp hinsert).1
  obtain ⟨node, hcolumns, -, hkeeps⟩ := hmodels.keeps.insert hinsert
  rw [hmodels.columns_eq] at hcolumns hkeeps hgiven
  refine ⟨_, hkeeps, hcolumns, hmodels.key, hmodels.names, ?_, ?_⟩
  · rw [live_append, live_cons_alive rfl, List.map_append, ← hmodels.tuples, List.map_cons,
      h.toOneKey.tupleOf_insertData hgiven, ← hmodels.lastId]
    rfl
  · rw [nextId_concat, ← hmodels.lastId]
    rfl

/-! ### UPDATE -/

theorem InOrder.updateColumns_values (h : InOrder columns pk) (row : Row) :
    (updateColumns columns row).map InsertColumn.value =
      (otherNames columns).map fun name => valueToStorageString (Row.value row name) := by
  rw [updateColumns, h.declared, otherNames, List.map_map, List.map_map]
  rfl

/-- The tuple of a row that is inserted again has the texts assigned to its columns. -/
theorem InOrder.fields_renewed (h : InOrder columns pk)
    (hwidth : r.values.length = (otherNames columns).length) :
    fill SortedMap.empty (otherNames columns) ((updateColumns columns
        (assign (rowOf (allColumnNames columns) r) assignments)).map InsertColumn.value) =
      assign (tupleOf columns r).fields
        (assignments.filter fun a => (otherNames columns).contains a.1) := by
  apply SortedMap.ext_find?
  intro name
  rw [h.updateColumns_values]
  have hnodup : (otherNames columns).Nodup := (List.nodup_cons.mp h.nodup).2
  by_cases hname : name ∈ otherNames columns
  · have hfields : ∃ s, (tupleOf columns r).fields.find? name = some (.text s) := by
      obtain ⟨j, hj⟩ := List.getElem?_of_mem hname
      have hlt : j < r.values.length := by
        rw [hwidth]
        exact (List.getElem?_eq_some_iff.mp hj).1
      exact ⟨r.values[j], fill_of_mem hnodup (List.mem_of_getElem?
        (List.getElem?_zip_eq_some.mpr ⟨hj, List.getElem?_eq_getElem hlt⟩))⟩
    have hne : pk.name ≠ name := by
      rintro rfl
      exact (List.nodup_cons.mp h.nodup).1 hname
    have hrow : (rowOf (allColumnNames columns) r).find? name =
        (tupleOf columns r).fields.find? name := by
      rw [h.row_tupleOf, Tuple.row, SortedMap.find?_insert_ne _ _ hne]
    obtain ⟨s, hs⟩ : ∃ s, (assign (rowOf (allColumnNames columns) r) assignments).find? name =
        some (.text s) := assign_text (hrow ▸ hfields)
    have hmem : (name, s) ∈ (otherNames columns).zip ((otherNames columns).map fun name =>
        valueToStorageString (Row.value (assign (rowOf (allColumnNames columns) r) assignments)
          name)) := by
      rw [List.zip_map_right, List.mem_map]
      refine ⟨(name, name), ?_, ?_⟩
      · rw [List.mem_iff_getElem?] at hname ⊢
        obtain ⟨j, hj⟩ := hname
        exact ⟨j, List.getElem?_zip_eq_some.mpr ⟨hj, hj⟩⟩
      · rw [Prod.map_apply, Row.value, hs]
        rfl
    rw [fill_of_mem hnodup hmem, ← assign_known hname hrow, hs]
  · have hother : name ∉ (assignments.filter fun a => (otherNames columns).contains a.1).map
        Prod.fst := by
      intro hmem
      obtain ⟨a, ha, rfl⟩ := List.mem_map.mp hmem
      exact hname (List.contains_iff_mem.mp (List.mem_filter.mp ha).2)
    rw [fill_other hname, assign_other hother, tupleOf, fill_other hname]

/-- What UPDATE inserts again are the successors of what it found. -/
theorem InOrder.renew_tuples (h : InOrder columns pk) {hits : List Record}
    (hwidth : ∀ r ∈ hits, r.values.length = (otherNames columns).length) (id : Nat) :
    (renew columns (allColumnNames columns) assignments id hits).map (tupleOf columns) =
      Relation.successors (otherNames columns) assignments id
        (hits.map (tupleOf columns)) := by
  induction hits generalizing id with
  | nil => rfl
  | cons r hits ih =>
      have hr := hwidth r List.mem_cons_self
      rw [renew, List.map_cons, List.map_cons, Relation.successors,
        ih (fun r hr => hwidth r (List.mem_cons_of_mem _ hr)), ← h.fields_renewed hr]
      rfl

theorem Models.width (hmodels : Models columns pk t rs R) (hr : r ∈ rs) :
    r.values.length = (otherNames columns).length := by
  have hothers := hmodels.keeps.others
  rw [hmodels.columns_eq] at hothers
  rw [hmodels.keeps.stores.width r hr, otherNames, List.length_map, actualColumns_length, hothers]

theorem InOrder.firstPrimary (h : InOrder columns pk) : firstPrimary columns = pk.name := by
  obtain ⟨pk', hmem, hprimary, hfirst, -⟩ := h.one.exists_pk
  rw [hfirst, h.toOneKey.eq_pk hmem hprimary]

/-- DELETE takes the tuples that meet its condition. -/
theorem Models.delete (h : InOrder columns pk) (hmodels : Models columns pk t rs R)
    (whereClause : Option Expression) :
    (handleDelete whereClause t).2 = (R.search whereClause).fault ∧
      ∃ rs', Models columns pk (handleDelete whereClause t).1 rs'
        { R with tuples := (R.search whereClause).kept } := by
  obtain ⟨t', hdelete, hcolumns, -, hkeeps⟩ := hmodels.keeps.delete whereClause
  rw [hmodels.columns_eq] at hdelete hcolumns hkeeps
  rw [hmodels.search h, hdelete]
  refine ⟨rfl, _, hkeeps, hcolumns, hmodels.key, hmodels.names, rfl, ?_⟩
  rw [nextId_eq, sweep_ids, ← nextId_eq]
  exact hmodels.lastId

/-- UPDATE replaces them. -/
theorem Models.update (h : InOrder columns pk) (hmodels : Models columns pk t rs R)
    (hprimary : (assignments.any fun a => a.1 = pk.name) = false)
    (whereClause : Option Expression) :
    (handleUpdate assignments whereClause t).2 = (R.search whereClause).fault ∧
      ∃ rs', Models columns pk (handleUpdate assignments whereClause t).1 rs'
        (R.update assignments (R.search whereClause)) := by
  have hfirst : firstPrimary t.columns = pk.name := by rw [hmodels.columns_eq, h.firstPrimary]
  rw [← hfirst] at hprimary
  obtain ⟨t', hupdate, hcolumns, hkeeps⟩ := hmodels.keeps.update hprimary whereClause
  rw [hmodels.columns_eq] at hupdate hcolumns hkeeps
  have hids := renew_ids columns (allColumnNames columns) assignments (nextId rs)
    (sweep (allColumnNames columns) whereClause rs).hits
  have hlength := congrArg List.length hids
  rw [List.length_map, List.length_range'] at hlength
  have hextends : Extends (columns.length - 1) rs t'
      (sweep (allColumnNames columns) whereClause rs).records
      (renew columns (allColumnNames columns) assignments (nextId rs)
        (sweep (allColumnNames columns) whereClause rs).hits) :=
    ⟨hkeeps, sweep_ids _ _ _, by rw [hids, hlength]⟩
  rw [hmodels.search h, hupdate]
  refine ⟨rfl, _, hkeeps, hcolumns, hmodels.key, hmodels.names, ?_, ?_⟩
  · rw [live_append, live_renew, List.map_append,
      h.renew_tuples fun r hr => hmodels.width (mem_of_hits hr), ← hmodels.names,
      ← hmodels.lastId]
    rfl
  · rw [hextends.nextId, hlength, ← hmodels.lastId]
    simp only [Relation.update, List.length_map]
    omega

/-! ### Sessions -/

/-- A vacuum forgets the ids of the dead. -/
theorem Models.vacuum (hmodels : Models columns pk t rs R) :
    (vacuumTable t).2 = none ∧ ∃ rs', Models columns pk (vacuumTable t).1 rs' R.vacuum := by
  obtain ⟨hvacuum, hkeeps⟩ := hmodels.keeps.vacuum
  have halive : live (live rs) = live rs := by rw [live, live, List.filter_filter]; simp
  rw [hvacuum] at hkeeps ⊢
  refine ⟨rfl, _, hkeeps, hmodels.columns_eq, hmodels.key, hmodels.names, ?_, ?_⟩
  · rw [halive]
    exact hmodels.tuples
  · show (R.tuples.getLast?.map Tuple.id).getD 0 + 1 = nextId (live rs)
    rw [hmodels.tuples, List.getLast?_map, Option.map_map]
    rfl

/-- SELECT goes through all rows, and throws where the search ends. -/
theorem passing_tuples (R : Relation) (us : List Tuple) (whereClause : Option Expression) :
    passing whereClause (us.map (Tuple.row R.key)) =
      Relation.select { R with tuples := us } whereClause := by
  induction us with
  | nil => rfl
  | cons u us ih =>
      rw [Relation.select, Relation.search] at ih ⊢
      dsimp only at ih ⊢
      rw [List.map_cons, passing, searchFor]
      cases hwhere : evaluateWhere whereClause (u.row R.key) with
      | error e => rfl
      | ok pass =>
          rw [ih]
          cases hfault : (searchFor (fun u => evaluateWhere whereClause (u.row R.key)) us).fault with
          | some e => cases pass <;> simp [hfault, bind, Except.bind]
          | none => cases pass <;> simp [hfault, bind, Except.bind, pure, Except.pure]

/-- SELECT finds the rows the relation finds. -/
theorem Models.select (h : InOrder columns pk) (hmodels : Models columns pk t rs R)
    (whereClause : Option Expression) :
    passing whereClause (liveRows (allColumnNames columns) rs) = R.select whereClause := by
  have hrows : liveRows (allColumnNames columns) rs = R.tuples.map (Tuple.row R.key) := by
    rw [liveRows, hmodels.tuples, hmodels.key, List.map_map]
    exact List.map_congr_left fun r _ => h.row_tupleOf r
  rw [hrows, passing_tuples]

/-- A request is answered as the relation answers it, and leaves a table that the relation
models again. -/
theorem Models.serve (h : InOrder columns pk) (hmodels : Models columns pk t rs R)
    (order : HashOrder) (q : Request) :
    (Table.serve order t q).2 = (R.serve order q).2 ∧
      ∃ rs', Models columns pk (Table.serve order t q).1 rs' (R.serve order q).1 := by
  cases q with
  | execute stmt =>
      cases stmt with
      | insert stmt =>
          simp only [Table.serve, Relation.serve, Relation.execute, Table.execute]
          cases hinsert : generateInsert stmt t with
          | ok t' =>
              rw [if_pos (hmodels.accepts.mp ⟨t', hinsert⟩)]
              exact ⟨rfl, hmodels.insert h hinsert⟩
          | error e =>
              have hrefused : ¬ R.Accepts stmt := by
                intro haccepts
                obtain ⟨t', hok⟩ := hmodels.accepts.mpr haccepts
                rw [hinsert] at hok
                cases hok
              rw [if_neg hrefused]
              exact ⟨rfl, rs, hmodels⟩
      | update assignments whereClause =>
          simp only [Table.serve, Relation.serve, Relation.execute, Table.execute, hmodels.key]
          cases hprimary : assignments.any fun a => a.1 = pk.name with
          | true =>
              have hassigned : (assignments.any fun a => a.1 = firstPrimary t.columns) = true := by
                rw [hmodels.columns_eq, h.firstPrimary]
                exact hprimary
              simp only [handleUpdate, hassigned, if_true]
              exact ⟨trivial, rs, hmodels⟩
          | false =>
              obtain ⟨hfault, hafter⟩ := hmodels.update h hprimary whereClause
              rw [hfault]
              exact ⟨rfl, hafter⟩
      | delete whereClause =>
          simp only [Table.serve, Relation.serve, Relation.execute, Table.execute]
          obtain ⟨hfault, hafter⟩ := hmodels.delete h whereClause
          rw [hfault]
          exact ⟨rfl, hafter⟩
      | vacuum =>
          simp only [Table.serve, Relation.serve, Relation.execute, Table.execute]
          obtain ⟨hfault, hafter⟩ := hmodels.vacuum
          rw [hfault]
          exact ⟨rfl, hafter⟩
  | select whereClause =>
      refine ⟨?_, rs, hmodels⟩
      simp only [Table.serve, Relation.serve, selectText]
      rw [handle_eq_select, hmodels.keeps.stores.readable.select hmodels.keeps.columns,
        hmodels.columns_eq, hmodels.select h]

/-- A new table is the empty relation. -/
theorem Models.created (h : InOrder columns pk) :
    Models columns pk (createTable columns) []
      { key := pk.name, columns := otherNames columns } :=
  ⟨keeps_createTable h.one, rfl, rfl, rfl, rfl, rfl⟩

/-- On a table whose columns are declared in the order of their names, the primary key first,
all statements and SELECTs, failing ones included, are answered as the relation of its columns
answers them, in whatever order the columns of a row are printed. -/
theorem relation_run (h : InOrder columns pk) (order : HashOrder) (qs : List Request) :
    session order (createTable columns) qs =
      Relation.session order { key := pk.name, columns := otherNames columns } qs := by
  suffices ∀ t rs R, Models columns pk t rs R → session order t qs = R.session order qs from
    this _ _ _ (.created h)
  induction qs with
  | nil => exact fun _ _ _ _ => rfl
  | cons q qs ih =>
      intro t rs R hmodels
      obtain ⟨hreply, rs', hafter⟩ := hmodels.serve h order q
      rw [session, Relation.session, hreply, ih _ _ _ hafter]

theorem inOrder_keyed :
    InOrder keyed { name := ['i', 'd'], type := .int, isPrimary := true } where
  mem := by decide
  primary := rfl
  one := rfl
  names := by decide
  leads := by decide
  declared := by decide

/-- Two rows are inserted, the first is changed, and the one that is found has the next id. -/
theorem relation_run_keyed :
    session .reversed (createTable keyed)
        [.execute (.insert ⟨[['v']], [['a']]⟩), .execute (.insert ⟨[['v']], [['c']]⟩),
          .execute (.update [(['v'], ['b'])] (vIs ['a'])), .select (vIs ['b'])] =
      [.inserted true, .inserted true, .done none,
        .rows (.ok "[\x7b\"v\":\"b\",\"id\":\"3\"\x7d]".toList)] :=
  (relation_run inOrder_keyed .reversed _).trans rfl

end NanoVault.Table
