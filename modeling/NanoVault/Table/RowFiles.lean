/-
The row files over whole runs.

A table with one primary key keeps files that store records, whatever statements are
executed on it, failing ones included (`keeps_run`). INSERT writes the tombstone byte of a
new row at its id minus one, the readers look for it at the row's position, and the two
differ once a vacuum has closed gaps; that ids keep ahead of positions, and that nothing but
zeros lies behind the last row's byte, makes up for it (`rowFiles_run`).
-/
import NanoVault.Table.Writes

namespace NanoVault.Table

open Lib

/-- Exactly one column is a PRIMARY KEY. -/
def OnePrimary (columns : List Column) : Prop := columns.countP Column.isPrimary = 1

/-- One statement after the other; an exception ends no statement but its own. -/
def run (t : TableState) (stmts : List Statement) : TableState :=
  stmts.foldl (fun t stmt => (execute t stmt).1) t

/-- A table whose files store these records, with `k` values each, for all its columns but
the primary key. -/
structure Keeps (k : Nat) (t : TableState) (rs : List Record) : Prop where
  columns : t.columns.length = k + 1
  others : (t.columns.filter fun c => !c.isPrimary).length = k
  stores : Stores k t.files rs

variable {k i p : Nat} {r : Record} {rs : List Record} {t t' : TableState}
  {stmt : InsertStatement} {columns : List Column} {data : List InsertColumn}

/-! ### INSERT -/

/-- The names and values an INSERT gives, in the order of the names. -/
def given (stmt : InsertStatement) : List (Text × Text) :=
  (stmt.columns.zip stmt.values).insertionSort fun a b => a.1 ≤ b.1

/-- The values INSERT hands on, marked as those of UNIQUE columns or not. -/
def insertData (columns : List Column) (stmt : InsertStatement) : List InsertColumn :=
  List.zipWith (fun c g => ⟨g.1, g.2, c.isUnique⟩) (actualColumns columns) (given stmt)

/-- The names of the columns that are not primary, in their order. -/
def otherNames (columns : List Column) : List Text := (actualColumns columns).map Column.name

/-- An INSERT names every column that is not primary once, in any order, and there is one. -/
def Accepts (columns : List Column) (stmt : InsertStatement) : Prop :=
  otherNames columns ≠ [] ∧
    ((stmt.columns.zip stmt.values).map Prod.fst).Perm (otherNames columns)

/-- INSERT accepts exactly the names of the columns that are not primary. -/
def Names (columns : List Column) (stmt : InsertStatement) : Prop :=
  (given stmt).map Prod.fst = (actualColumns columns).map Column.name

instance (columns : List Column) (stmt : InsertStatement) : Decidable (Accepts columns stmt) :=
  inferInstanceAs (Decidable (_ ∧ _))

/-- An INSERT is matched if its names are the columns', in order. -/
theorem matchColumns_eq_ok {cs : List Column} {given : List (Text × Text)} :
    matchColumns cs given = .ok data ↔ given.map Prod.fst = cs.map Column.name ∧
      data = List.zipWith (fun c g => ⟨g.1, g.2, c.isUnique⟩) cs given := by
  induction cs generalizing given data with
  | nil =>
      cases given with
      | nil => simp [matchColumns, pure, Except.pure, eq_comm]
      | cons g given => simp [matchColumns, throw, throwThe, MonadExceptOf.throw]
  | cons c cs ih =>
      cases given with
      | nil => simp [matchColumns, throw, throwThe, MonadExceptOf.throw]
      | cons g given =>
          obtain ⟨name, value⟩ := g
          rw [matchColumns]
          by_cases hname : c.name = name
          · rw [if_neg (not_not.mpr hname)]
            cases hrest : matchColumns cs given with
            | error e =>
                simp only [bind, Except.bind, List.map_cons, List.cons.injEq]
                constructor
                · intro h
                  cases h
                · rintro ⟨⟨-, hnames⟩, -⟩
                  rw [ih.mpr ⟨hnames, rfl⟩] at hrest
                  cases hrest
            | ok rest =>
                obtain ⟨hnames, rfl⟩ := ih.mp hrest
                simp [bind, Except.bind, pure, Except.pure, hname, hnames, eq_comm]
          · rw [if_pos hname]
            simp [throw, throwThe, MonadExceptOf.throw, Ne.symm hname]

/-- An accepted INSERT has named the columns, and inserts a row. -/
theorem generateInsert_eq_ok : generateInsert stmt t = .ok t' ↔ Names t.columns stmt ∧
    insertRow (lastPrimary t.columns) (insertData t.columns stmt) t = .ok t' := by
  rw [generateInsert]
  by_cases hnames : Names t.columns stmt
  · have hlength := congrArg List.length hnames
    rw [List.length_map, List.length_map] at hlength
    have hmatch : matchColumns (actualColumns t.columns) (given stmt) =
        .ok (insertData t.columns stmt) := matchColumns_eq_ok.mpr ⟨hnames, rfl⟩
    rw [given] at hlength hmatch
    rw [if_neg (not_not.mpr hlength.symm), hmatch]
    simp [hnames, bind, Except.bind]
  · constructor
    · intro h
      split at h
      · cases h
      · cases hmatch : matchColumns (actualColumns t.columns) (given stmt) with
        | error e =>
            rw [given] at hmatch
            rw [hmatch] at h
            cases h
        | ok data => exact absurd (matchColumns_eq_ok.mp hmatch).1 hnames
    · rintro ⟨h, -⟩
      exact absurd h hnames

theorem actualColumns_length (columns : List Column) :
    (actualColumns columns).length = (columns.filter fun c => !c.isPrimary).length :=
  List.length_insertionSort ..

/-- An INSERT that names the columns writes a value for each. -/
theorem insertData_length (hnames : Names columns stmt) :
    (insertData columns stmt).length = (columns.filter fun c => !c.isPrimary).length := by
  have hlength := congrArg List.length hnames
  rw [List.length_map, List.length_map] at hlength
  rw [insertData, List.length_zipWith, hlength, Nat.min_self, actualColumns_length]

/-- What INSERT is given is sorted by name. -/
theorem given_sorted (stmt : InsertStatement) :
    ((given stmt).map Prod.fst).Pairwise (· ≤ ·) := by
  have : Std.Total fun a b : Text × Text => a.1 ≤ b.1 := ⟨fun a b => le_total a.1 b.1⟩
  have : IsTrans (Text × Text) fun a b => a.1 ≤ b.1 := ⟨fun _ _ _ hab hbc => le_trans hab hbc⟩
  rw [List.pairwise_map]
  exact List.pairwise_insertionSort _ _

/-- What INSERT is given is its names with its values. -/
theorem given_perm (stmt : InsertStatement) :
    (given stmt).Perm (stmt.columns.zip stmt.values) := List.perm_insertionSort _ _

/-- The columns to write are sorted by name. -/
theorem actualColumns_sorted (columns : List Column) :
    ((actualColumns columns).map Column.name).Pairwise (· ≤ ·) := by
  have : Std.Total fun a b : Column => a.name ≤ b.name := ⟨fun a b => le_total a.name b.name⟩
  have : IsTrans Column fun a b => a.name ≤ b.name := ⟨fun _ _ _ hab hbc => le_trans hab hbc⟩
  rw [List.pairwise_map]
  exact List.pairwise_insertionSort _ _

/-- INSERT and the columns are sorted by name before they are compared, so that the order in which
the names are given does not matter. -/
theorem names_iff : Names columns stmt ↔
    ((stmt.columns.zip stmt.values).map Prod.fst).Perm (otherNames columns) := by
  have hperm := (given_perm stmt).map Prod.fst
  constructor
  · intro hnames
    rw [Names] at hnames
    rw [otherNames, ← hnames]
    exact hperm.symm
  · intro hnames
    apply (hperm.trans hnames).eq_of_pairwise _ (given_sorted stmt) (actualColumns_sorted columns)
    intro a b _ _ hab hba
    exact le_antisymm hab hba

/-- An INSERT is accepted exactly if it names the columns besides the primary key, and there are
some. -/
theorem Keeps.accepts (h : Keeps k t rs) :
    (∃ t', generateInsert stmt t = .ok t') ↔ Accepts t.columns stmt := by
  rw [Accepts, ← names_iff]
  have hempty : Names t.columns stmt →
      (otherNames t.columns = [] ↔ insertData t.columns stmt = []) := by
    intro hnames
    rw [← List.length_eq_zero_iff, ← List.length_eq_zero_iff, insertData_length hnames,
      otherNames, List.length_map, actualColumns_length]
  constructor
  · rintro ⟨t', hinsert⟩
    obtain ⟨hnames, hrow⟩ := generateInsert_eq_ok.mp hinsert
    refine ⟨fun hnil => ?_, hnames⟩
    rw [(hempty hnames).mp hnil] at hrow
    cases hrow
  · rintro ⟨hne, hnames⟩
    have hdata : insertData t.columns stmt ≠ [] := fun hnil => hne ((hempty hnames).mpr hnil)
    obtain ⟨t', -, hrow, -⟩ := h.stores.insertRow hdata ((insertData_length hnames).trans h.others)
      (lastPrimary t.columns)
    exact ⟨t', generateInsert_eq_ok.mpr ⟨hnames, hrow⟩⟩

/-- An accepted INSERT appends a record. -/
theorem Keeps.insert (h : Keeps k t rs) (hinsert : generateInsert stmt t = .ok t') :
    ∃ node, t'.columns = t.columns ∧
      t'.trees = insertKeys t.trees (lastPrimary t.columns) (insertData t.columns stmt)
        (nextId rs) node ∧
      Keeps k t' (rs ++ [⟨nextId rs, false, (insertData t.columns stmt).map
        InsertColumn.value⟩]) := by
  obtain ⟨hnames, hrow⟩ := generateInsert_eq_ok.mp hinsert
  have hdata : insertData t.columns stmt ≠ [] := by
    intro hnil
    rw [hnil] at hrow
    cases hrow
  have hlength := (insertData_length hnames).trans h.others
  obtain ⟨t₁, node, hrow', hcolumns, htrees, hstores⟩ :=
    h.stores.insertRow hdata hlength (lastPrimary t.columns)
  rw [hrow, Except.ok.injEq] at hrow'
  subst hrow'
  exact ⟨node, hcolumns, htrees, hcolumns ▸ h.columns, hcolumns ▸ h.others, hstores⟩

/-! ### DELETE, UPDATE and vacuum -/

theorem dropAll_columns (names : List Text) (hits : List Record) (t : TableState) :
    (dropAll names hits t).columns = t.columns := by
  induction hits generalizing t with
  | nil => rfl
  | cons r hits ih => exact ih (dropKeys t (rowOf names r))

/-- DELETE marks the records its condition holds of, up to the first exception. -/
theorem Keeps.delete (h : Keeps k t rs) (whereClause : Option Expression) :
    ∃ t', handleDelete whereClause t =
        (t', (sweep (allColumnNames t.columns) whereClause rs).fault) ∧
      t'.columns = t.columns ∧
      t'.trees = (dropAll (allColumnNames t.columns)
        (sweep (allColumnNames t.columns) whereClause rs).hits t).trees ∧
      Keeps k t' (sweep (allColumnNames t.columns) whereClause rs).records := by
  have hnames := allColumnNames_length h.columns
  have hstores : Stores k t.files ([] ++ rs) := h.stores
  obtain ⟨f, hloop, hf⟩ := hstores.deleteLoop hnames whereClause
  have hcolumns := dropAll_columns (allColumnNames t.columns)
    (sweep (allColumnNames t.columns) whereClause rs).hits t
  refine ⟨{ dropAll (allColumnNames t.columns) (sweep (allColumnNames t.columns)
    whereClause rs).hits t with files := f }, ?_, hcolumns, rfl, ⟨?_, ?_, hf⟩⟩
  · rw [handleDelete, h.stores.readable.rowCount hnames, List.range_eq_range']
    exact hloop
  · exact (congrArg List.length hcolumns).trans h.columns
  · exact (congrArg (fun cs : List Column => (cs.filter fun c => !c.isPrimary).length)
      hcolumns).trans h.others

/-- UPDATE marks the records its condition holds of, and appends their successors. -/
theorem Keeps.update (h : Keeps k t rs) {assignments : List (Text × Text)}
    (hprimary : (assignments.any fun a => a.1 = firstPrimary t.columns) = false)
    (whereClause : Option Expression) :
    ∃ t', handleUpdate assignments whereClause t =
        (t', (sweep (allColumnNames t.columns) whereClause rs).fault) ∧
      t'.columns = t.columns ∧
      Keeps k t' ((sweep (allColumnNames t.columns) whereClause rs).records ++
        renew t.columns (allColumnNames t.columns) assignments (nextId rs)
          (sweep (allColumnNames t.columns) whereClause rs).hits) := by
  have hnames := allColumnNames_length h.columns
  have hstores : Stores k t.files ([] ++ rs ++ []) := by simpa using h.stores
  obtain ⟨t', hloop, hcolumns, ht'⟩ := hstores.updateLoop hnames h.others
    (firstPrimary t.columns) assignments whereClause
  rw [List.append_nil] at ht'
  refine ⟨t', ?_, hcolumns, hcolumns ▸ h.columns, hcolumns ▸ h.others, ht'⟩
  rw [handleUpdate]
  dsimp only
  rw [hprimary, h.stores.readable.rowCount hnames, List.range_eq_range']
  exact hloop

/-- A vacuum leaves the live records. -/
theorem Keeps.vacuum (h : Keeps k t rs) :
    vacuumTable t = ({ t with files := packed (live rs) }, none) ∧
      Keeps k (vacuumTable t).1 (live rs) := by
  have hvacuum := h.stores.vacuumTable h.columns
  rw [hvacuum]
  exact ⟨rfl, h.columns, h.others, h.stores.packed_live⟩

/-! ### Runs -/

/-- Every statement leaves files that store records. -/
theorem Keeps.execute (h : Keeps k t rs) (stmt : Statement) :
    ∃ rs', Keeps k (execute t stmt).1 rs' ∧ (execute t stmt).1.columns = t.columns := by
  cases stmt with
  | insert stmt =>
      rw [Table.execute]
      cases hinsert : generateInsert stmt t with
      | error e => exact ⟨rs, h, rfl⟩
      | ok t' =>
          obtain ⟨node, hcolumns, -, ht'⟩ := h.insert hinsert
          exact ⟨_, ht', hcolumns⟩
  | update assignments whereClause =>
      rw [Table.execute]
      cases hprimary : assignments.any fun a => a.1 = firstPrimary t.columns with
      | true =>
          simp only [handleUpdate, hprimary, if_true]
          exact ⟨rs, h, trivial⟩
      | false =>
          obtain ⟨t', hupdate, hcolumns, ht'⟩ := h.update hprimary whereClause
          rw [hupdate]
          exact ⟨_, ht', hcolumns⟩
  | delete whereClause =>
      obtain ⟨t', hdelete, hcolumns, -, ht'⟩ := h.delete whereClause
      rw [Table.execute, hdelete]
      exact ⟨_, ht', hcolumns⟩
  | vacuum =>
      rw [Table.execute]
      exact ⟨_, h.vacuum.2, by rw [h.vacuum.1]⟩

/-- A new table stores no records. -/
theorem keeps_createTable (hone : OnePrimary columns) :
    Keeps (columns.length - 1) (createTable columns) [] := by
  have hcount : columns.length = columns.countP Column.isPrimary +
      columns.countP (fun c => decide ¬c.isPrimary = true) :=
    List.length_eq_countP_add_countP Column.isPrimary
  rw [OnePrimary] at hone
  refine ⟨?_, ?_, ?_⟩
  · show columns.length = columns.length - 1 + 1
    omega
  · show (columns.filter fun c => !c.isPrimary).length = columns.length - 1
    rw [← List.countP_eq_length_filter]
    have hneg : columns.countP (fun c => decide ¬c.isPrimary = true) =
        columns.countP fun c => !c.isPrimary := by
      congr 1
      funext c
      cases c.isPrimary <;> rfl
    omega
  · constructor <;> simp [createTable, layout, contents]

/-- Whatever is executed on a table with one primary key, its files store records. -/
theorem keeps_run (hone : OnePrimary columns) (stmts : List Statement) :
    (run (createTable columns) stmts).columns = columns ∧
      ∃ rs, Keeps (columns.length - 1) (run (createTable columns) stmts) rs := by
  suffices ∀ t rs, t.columns = columns → Keeps (columns.length - 1) t rs →
      (run t stmts).columns = columns ∧ ∃ rs, Keeps (columns.length - 1) (run t stmts) rs from
    this (createTable columns) [] rfl (keeps_createTable hone)
  induction stmts with
  | nil => exact fun t rs hcolumns h => ⟨hcolumns, rs, h⟩
  | cons stmt stmts ih =>
      intro t rs hcolumns h
      obtain ⟨rs', h', hcolumns'⟩ := h.execute stmt
      exact ih (execute t stmt).1 rs' (hcolumns'.trans hcolumns) h'

/-! ### The invariant of the files -/

/-- The number of records in the index file. -/
def recordCount (t : TableState) : Nat := rowCount t.files (allColumnNames t.columns)

/-- The id in the record at a position. -/
def recordId (t : TableState) (p : Nat) : Option Nat :=
  t.files.index[p * rowWords (allColumnNames t.columns)]?

/-- Ids increase and keep ahead of positions; every record has a byte in the `.delete` file,
and the bytes behind them are zeros. -/
structure RowFiles (t : TableState) : Prop where
  whole : t.files.index.length = recordCount t * rowWords (allColumnNames t.columns)
  ahead : ∀ p < recordCount t, ∃ id, recordId t p = some id ∧ p + 1 ≤ id
  increasing : ∀ p q a b, p < q → recordId t p = some a → recordId t q = some b → a < b
  marked : recordCount t ≤ t.files.delete.length
  unused : ∀ (p : Nat) (b : UInt8), recordCount t ≤ p → t.files.delete[p]? = some b → b = 0

/-- `t'` has one record more than `t`, which is live, and the others as `t` has them. -/
structure OneMore (t t' : TableState) : Prop where
  count : recordCount t' = recordCount t + 1
  alive : t'.files.delete[recordCount t]? = some 0
  others : ∀ p < recordCount t, recordId t' p = recordId t p ∧
    t'.files.delete[p]? = t.files.delete[p]?

/-- The rows deleted in `t` are still deleted in `t'`. -/
def NoneRaised (t t' : TableState) : Prop :=
  ∀ p < recordCount t, t.files.delete[p]? = some 1 →
    t'.files.delete[p]? = some 1 ∧ recordId t' p = recordId t p

theorem Keeps.recordCount (h : Keeps k t rs) : recordCount t = rs.length :=
  h.stores.readable.rowCount (allColumnNames_length h.columns)

theorem Keeps.rowWords (h : Keeps k t rs) : rowWords (allColumnNames t.columns) = 1 + 2 * k :=
  rowWords_eq (allColumnNames_length h.columns)

/-- The id of a record is read off the index. -/
theorem Keeps.recordId (h : Keeps k t rs) (p : Nat) :
    recordId t p = rs[p]?.map Record.id := by
  rw [Table.recordId, h.rowWords]
  cases hr : rs[p]? with
  | none =>
      have hp := Nat.mul_le_mul_right (1 + 2 * k) (List.getElem?_eq_none_iff.mp hr)
      rw [← h.stores.readable.index_length] at hp
      exact List.getElem?_eq_none hp
  | some r =>
      obtain ⟨spans, rest, hdrop, -⟩ := h.stores.readable.drop hr
      have hfirst := congrArg (fun words : List Nat => words[0]?) hdrop
      simpa using hfirst

/-- Files that store records have the form of row files. -/
theorem Keeps.rowFiles (h : Keeps k t rs) : RowFiles t := by
  constructor
  · rw [h.recordCount, h.rowWords, h.stores.readable.index_length]
  · intro p hp
    rw [h.recordCount] at hp
    have hr := List.getElem?_eq_getElem hp
    exact ⟨rs[p].id, by rw [h.recordId, hr]; rfl, h.stores.succ_le_id hr⟩
  · intro p q a b hpq ha hb
    rw [h.recordId, ← List.getElem?_map, List.getElem?_eq_some_iff] at ha hb
    obtain ⟨hp, rfl⟩ := ha
    obtain ⟨hq, rfl⟩ := hb
    exact List.pairwise_iff_getElem.mp h.stores.ascending p q hp hq hpq
  · rw [h.recordCount]
    rcases List.eq_nil_or_concat' rs with rfl | ⟨rs, r, rfl⟩
    · exact Nat.zero_le _
    · have hlast : (rs ++ [r])[rs.length]? = some r := by simp
      have hflag := h.stores.flags rs.length r hlast
      rw [List.length_append, List.length_singleton]
      exact (List.getElem?_eq_some_iff.mp hflag).1
  · intro p b hp hb
    rw [h.recordCount] at hp
    exact h.stores.unused p b hp hb

/-- The tombstones are those of the records. -/
theorem Keeps.delete_getElem? (h : Keeps k t rs) (hr : rs[p]? = some r) :
    t.files.delete[p]? = some r.flag := h.stores.flags p r hr

/-- A record more is one row more. -/
theorem Keeps.oneMore (h : Keeps k t rs) {new : Record} (h' : Keeps k t' (rs ++ [new]))
    (hnew : new.dead = false) : OneMore t t' := by
  constructor
  · rw [h'.recordCount, h.recordCount, List.length_append, List.length_singleton]
  · have hlast : (rs ++ [new])[rs.length]? = some new := by simp
    rw [h.recordCount, h'.delete_getElem? hlast, Record.flag, hnew]
    rfl
  · intro p hp
    rw [h.recordCount] at hp
    have hr := List.getElem?_eq_getElem hp
    have hr' : (rs ++ [new])[p]? = some rs[p] := by rw [List.getElem?_append_left hp, hr]
    rw [h.recordId, h'.recordId, h.delete_getElem? hr, h'.delete_getElem? hr', hr, hr']
    exact ⟨rfl, rfl⟩

theorem NoneRaised.refl (t : TableState) : NoneRaised t t := fun _ _ hdead => ⟨hdead, rfl⟩

/-- An INSERT raises no tombstone. -/
theorem OneMore.noneRaised (h : OneMore t t') : NoneRaised t t' := by
  intro p hp hdead
  obtain ⟨hid, hbyte⟩ := h.others p hp
  exact ⟨hbyte.trans hdead, hid⟩

/-- A scan leaves every record, or marks it. -/
theorem sweep_records (names : List Text) (whereClause : Option Expression) (rs : List Record) :
    List.Forall₂ (fun r r' => r' = r ∨ r' = r.kill) rs (sweep names whereClause rs).records := by
  induction rs with
  | nil => exact .nil
  | cons r rs ih =>
      rw [sweep]
      split
      · exact .cons (.inl rfl) ih
      · split
        · exact List.forall₂_same.mpr fun _ _ => .inl rfl
        · exact .cons (.inl rfl) ih
        · exact .cons (.inr rfl) ih

/-- A scan and an insertion raise no record from the dead. -/
theorem Keeps.noneRaised (h : Keeps k t rs) {whereClause : Option Expression}
    {new : List Record} (h' : Keeps k t'
      ((sweep (allColumnNames t.columns) whereClause rs).records ++ new)) : NoneRaised t t' := by
  intro p hp hdead
  rw [h.recordCount] at hp
  have hswept := sweep_records (allColumnNames t.columns) whereClause rs
  have hp' := hswept.length_eq ▸ hp
  have hr := List.getElem?_eq_getElem hp
  have hr' : ((sweep (allColumnNames t.columns) whereClause rs).records ++ new)[p]? =
      some (sweep (allColumnNames t.columns) whereClause rs).records[p] := by
    rw [List.getElem?_append_left hp', List.getElem?_eq_getElem hp']
  have hkept := hswept.get hp hp'
  rw [h.delete_getElem? hr, Option.some.injEq, Record.flag_eq_one] at hdead
  rw [h.recordId, h'.recordId, h'.delete_getElem? hr', hr, hr']
  simp only [List.get_eq_getElem] at hkept
  rcases hkept with hkept | hkept
  · rw [hkept]
    exact ⟨congrArg some (Record.flag_eq_one.mpr hdead), rfl⟩
  · rw [hkept]
    exact ⟨rfl, rfl⟩

/-- No statement but vacuum raises a deleted row. -/
theorem Keeps.execute_noneRaised (h : Keeps k t rs) {stmt : Statement} (hstmt : stmt ≠ .vacuum) :
    NoneRaised t (Table.execute t stmt).1 := by
  cases stmt with
  | insert stmt =>
      rw [Table.execute]
      cases hinsert : generateInsert stmt t with
      | error e => exact .refl t
      | ok t' =>
          obtain ⟨node, -, -, ht'⟩ := h.insert hinsert
          exact (h.oneMore ht' rfl).noneRaised
  | update assignments whereClause =>
      rw [Table.execute]
      cases hprimary : assignments.any fun a => a.1 = firstPrimary t.columns with
      | true =>
          simp only [handleUpdate, hprimary, if_true]
          exact .refl t
      | false =>
          obtain ⟨t', hupdate, -, ht'⟩ := h.update hprimary whereClause
          rw [hupdate]
          exact h.noneRaised ht'
  | delete whereClause =>
      obtain ⟨t', hdelete, -, -, ht'⟩ := h.delete whereClause
      rw [Table.execute, hdelete]
      exact h.noneRaised (by rwa [List.append_nil])
  | vacuum => exact absurd rfl hstmt

/-- In every state a table with one primary key gets into, its row files fit together; an INSERT
that names the other columns is accepted, which adds one live record and touches no other, any
other one is refused and changes nothing, and no statement but vacuum raises a deleted row. -/
theorem rowFiles_run (hone : OnePrimary columns) (stmts : List Statement) :
    RowFiles (run (createTable columns) stmts) ∧
      (∀ stmt, (execute (run (createTable columns) stmts) (.insert stmt)).2 = none ↔
        Accepts columns stmt) ∧
      (∀ stmt t', execute (run (createTable columns) stmts) (.insert stmt) = (t', none) →
        OneMore (run (createTable columns) stmts) t') ∧
      (∀ stmt t' e, execute (run (createTable columns) stmts) (.insert stmt) = (t', some e) →
        t' = run (createTable columns) stmts) ∧
      ∀ stmt, stmt ≠ .vacuum → NoneRaised (run (createTable columns) stmts)
        (execute (run (createTable columns) stmts) stmt).1 := by
  obtain ⟨hcolumns, rs, h⟩ := keeps_run hone stmts
  generalize run (createTable columns) stmts = t at hcolumns h
  subst hcolumns
  refine ⟨h.rowFiles, fun stmt => ?_, ?_, ?_, fun stmt hstmt => h.execute_noneRaised hstmt⟩
  · rw [← h.accepts, Table.execute]
    cases generateInsert stmt t with
    | error e => simp
    | ok t' => simp
  · intro stmt t' hinsert
    rw [Table.execute] at hinsert
    split at hinsert
    · cases hinsert
    · next t₁ hok =>
        cases hinsert
        obtain ⟨node, -, -, ht'⟩ := h.insert hok
        exact h.oneMore ht' rfl
  · intro stmt t' e hinsert
    rw [Table.execute] at hinsert
    split at hinsert
    · cases hinsert
      rfl
    · cases hinsert

/-- `CREATE TABLE t (id INT PRIMARY KEY, v VARCHAR)`. -/
def keyed : List Column :=
  [{ name := ['i', 'd'], type := .int, isPrimary := true }, { name := ['v'], type := .varchar }]

/-- The table after an INSERT. -/
def oneRow : TableState := run (createTable keyed) [.insert ⟨[['v']], [['a']]⟩]

/-- The condition `v = value`. -/
def vIs (value : Text) : Option Expression :=
  some (.comparison (.identifier ['v']) .equal (.stringLiteral value))

/-- A second row is inserted behind `oneRow`, and an INSERT of another column is refused. -/
theorem rowFiles_keyed : OnePrimary keyed ∧ RowFiles oneRow ∧
    (∃ t', execute oneRow (.insert ⟨[['v']], [['b']]⟩) = (t', none) ∧ OneMore oneRow t') ∧
    (∃ e, execute oneRow (.insert ⟨[['w']], [['b']]⟩) = (oneRow, some e)) ∧
    ∀ stmt, stmt ≠ .vacuum → NoneRaised oneRow (execute oneRow stmt).1 := by
  have hone : OnePrimary keyed := rfl
  obtain ⟨hfiles, haccepted, hadded, hsame, hraised⟩ :=
    rowFiles_run hone [.insert ⟨[['v']], [['a']]⟩]
  have hfirst : Accepts keyed ⟨[['v']], [['b']]⟩ := by decide
  have hsecond : ¬ Accepts keyed ⟨[['w']], [['b']]⟩ := by decide
  refine ⟨hone, hfiles, ⟨_, Prod.ext rfl ((haccepted _).mpr hfirst), ?_⟩, ?_, hraised⟩
  · exact hadded _ _ (Prod.ext rfl ((haccepted _).mpr hfirst))
  · obtain ⟨e, he⟩ := Option.ne_none_iff_exists'.mp (hsecond ∘ (haccepted _).mp)
    have hrefused : execute oneRow (.insert ⟨[['w']], [['b']]⟩) = (_, some e) := Prod.ext rfl he
    rw [hsame _ _ _ hrefused] at hrefused
    exact ⟨e, hrefused⟩

end NanoVault.Table
