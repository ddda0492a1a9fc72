/-
Starting again after a crash (`NanoVaultDB::execute` and `enter_shell` in
`main_db_class.hpp`, `logging.hpp`).

A statement is written to the log, executed, and taken out of the log if nothing has been
thrown. The start executes what it finds there, and cannot know whether that has been done
before. So the statement has been executed once, wherever the crash was, exactly if it does
nothing a second time (`recovery_exact`): every DELETE is such a statement, no accepted
INSERT is, and an UPDATE is if its condition does not hold of the rows it has put in.

A crash loses the trees. Nothing that is executed reads them (`execute_disk`), and what is
said here holds whatever the start has loaded in their place.
-/
import NanoVault.Sql.Splitting
import NanoVault.Table.Atomicity
import NanoVault.Table.Reload

namespace NanoVault.Table

open Lib Sql

def TableState.disk (t : TableState) : List Column × Files := (t.columns, t.files)

def Database.disk (db : Database) : List (List Column × Files) := db.map TableState.disk

/-- The tables and `logging.txt`. -/
structure Server where
  db : Database
  log : Text := []

/-- The lexer, the parser and the statement they find: the tables behind them, and whether one
of them has thrown. -/
def perform (parse : Text → Except Fault (Nat × Statement)) (sql : Text) (db : Database) :
    Database × Bool :=
  match parse sql with
  | .error _ => (db, true)
  | .ok s =>
      match db[s.1]? with
      | none => (db, true)
      | some t => (db.execute s, (Table.execute t s.2).2.isSome)

/-- `NanoVaultDB::execute`, ended by a crash behind so many of its steps; three are all. -/
def Server.execute (parse : Text → Except Fault (Nat × Statement)) (query : Text)
    (server : Server) : Nat → Server
  | 0 => server
  | 1 => { server with log := query }
  | 2 => { db := (perform parse query server.db).1, log := query }
  | _ + 3 =>
      { db := (perform parse query server.db).1
        log := if (perform parse query server.db).2 then query else [] }

/-- Statements that are executed one after the other. -/
def Server.run (parse : Text → Except Fault (Nat × Statement)) (server : Server)
    (history : List Text) : Server :=
  history.foldl (fun server query => server.execute parse query 3) server

/-- The recovery loop of `enter_shell`, with these trees loaded. -/
def Server.recover (parse : Text → Except Fault (Nat × Statement))
    (trees : TableState → Text → Option Tree) (server : Server) : Server where
  db := (exec_rem_sqls server.log).foldl (fun db sql => (perform parse sql db).1)
    (server.db.map fun t => { t with trees := trees t })

/-- The condition holds of one of the rows, and can be evaluated on those before it. -/
def meets (whereClause : Option Expression) : List Row → Bool
  | [] => false
  | row :: rows =>
      match evaluateWhere whereClause row with
      | .error _ => false
      | .ok pass => pass || meets whereClause rows

def matching (names : List Text) (whereClause : Option Expression) (rs : List Record) :
    List Record :=
  (live rs).filter fun r => meets whereClause [rowOf names r]

/-- The rows UPDATE puts in for those its condition holds of. -/
def updatedRows (assignments : List (Text × Text)) (whereClause : Option Expression)
    (t : TableState) : List Row :=
  let names := allColumnNames t.columns
  (renew t.columns names assignments (nextId (records t))
    (matching names whereClause (records t))).map (rowOf names)

/-- A statement that does nothing a second time: it is no INSERT with the names of the columns,
and an UPDATE is refused, or throws on some row, or its condition does not hold of the rows it
has put in. -/
def Repeatable (t : TableState) : Statement → Prop
  | .insert stmt => ¬ (Names t.columns stmt ∧ actualColumns t.columns ≠ [])
  | .update assignments whereClause =>
      (assignments.any fun a => a.1 = firstPrimary t.columns) = true ∨
        (∃ row ∈ liveRows (allColumnNames t.columns) (records t),
          ∃ e, evaluateWhere whereClause row = .error e) ∨
        meets whereClause (updatedRows assignments whereClause t) = false
  | .delete _ => True
  | .vacuum => True

variable {k : Nat} {rs new : List Record} {t t' : TableState} {names : List Text}
  {whereClause : Option Expression} {assignments : List (Text × Text)} {stmt : InsertStatement}
  {parse : Text → Except Fault (Nat × Statement)} {db db' : Database} {sql : Text}

/-! ### Two scans -/

/-- A scan throws exactly if the condition cannot be evaluated on some row. -/
theorem sweep_fault_iff : (sweep names whereClause rs).fault ≠ none ↔
    ∃ row ∈ liveRows names rs, ∃ e, evaluateWhere whereClause row = .error e := by
  rw [liveRows]
  induction rs with
  | nil => simp [live]
  | cons r rs ih =>
    cases hdead : r.dead with
    | true =>
      rw [live_cons_dead hdead, ← ih, sweep_dead hdead]
    | false =>
      simp only [live_cons_alive hdead, List.map_cons, List.mem_cons, exists_eq_or_imp, ← ih]
      cases hwhere : evaluateWhere whereClause (rowOf names r) with
      | error e => simp [sweep_error hdead hwhere]
      | ok pass =>
        cases pass with
        | false => simp [sweep_false hdead hwhere]
        | true => simp [sweep_true hdead hwhere]

/-- A scan that ends without a fault has hit what matches. -/
theorem sweep_hits (h : (sweep names whereClause rs).fault = none) :
    (sweep names whereClause rs).hits = matching names whereClause rs := by
  rw [matching]
  induction rs with
  | nil => rfl
  | cons r rs ih =>
    cases hdead : r.dead with
    | true =>
      rw [sweep_dead hdead] at h ⊢
      rw [live_cons_dead hdead]
      exact ih h
    | false =>
      rw [live_cons_alive hdead, List.filter_cons, meets]
      cases hwhere : evaluateWhere whereClause (rowOf names r) with
      | error e =>
        rw [sweep_error hdead hwhere] at h
        cases h
      | ok pass =>
        cases pass with
        | false =>
          rw [sweep_false hdead hwhere] at h ⊢
          exact ih h
        | true =>
          rw [sweep_true hdead hwhere] at h ⊢
          exact congrArg (r :: ·) (ih h)

/-- A second scan finds none of the records the first one has found. It ends with the same
exception, or goes on to what has been appended. -/
theorem sweep_again (names : List Text) (whereClause : Option Expression)
    (rs new : List Record) :
    (sweep names whereClause ((sweep names whereClause rs).records ++ new)).hits =
      if (sweep names whereClause rs).fault = none then (sweep names whereClause new).hits
      else [] := by
  induction rs with
  | nil => rfl
  | cons r rs ih =>
    cases hdead : r.dead with
    | true =>
      rw [sweep_dead hdead, List.cons_append, sweep_dead hdead]
      exact ih
    | false =>
      cases hwhere : evaluateWhere whereClause (rowOf names r) with
      | error e =>
        rw [sweep_error hdead hwhere, List.cons_append, sweep_error hdead hwhere]
        rfl
      | ok pass =>
        cases pass with
        | false =>
          rw [sweep_false hdead hwhere, List.cons_append, sweep_false hdead hwhere]
          exact ih
        | true =>
          rw [sweep_true hdead hwhere, List.cons_append, sweep_dead rfl]
          exact ih

/-- Live records are hit if one of them meets the condition. -/
theorem sweep_alive (h : ∀ r ∈ new, r.dead = false) :
    (sweep names whereClause new).hits = [] ↔
      meets whereClause (new.map (rowOf names)) = false := by
  induction new with
  | nil => simp [meets]
  | cons r new ih =>
    have hdead := h r List.mem_cons_self
    have hrest := ih fun x hx => h x (List.mem_cons_of_mem _ hx)
    rw [List.map_cons, meets]
    cases hwhere : evaluateWhere whereClause (rowOf names r) with
    | error e => simp [sweep_error hdead hwhere]
    | ok pass =>
      cases pass with
      | false => simpa [sweep_false hdead hwhere] using hrest
      | true => simp [sweep_true hdead hwhere]

/-- What UPDATE inserts again is live. -/
theorem renew_alive (columns : List Column) (names : List Text)
    (assignments : List (Text × Text)) (id : Nat) (rs : List Record) :
    ∀ r ∈ renew columns names assignments id rs, r.dead = false := by
  induction rs generalizing id with
  | nil => exact fun r hr => absurd hr List.not_mem_nil
  | cons r rs ih =>
    intro x hx
    obtain rfl | hx := List.mem_cons.mp hx
    · rfl
    · exact ih _ x hx

/-- The scan over the files finds a row exactly if the one over the records does. -/
theorem Keeps.matchesFirst_iff (h : Keeps k t rs) :
    MatchesFirst t whereClause ↔
      (sweep (allColumnNames t.columns) whereClause rs).hits ≠ [] := by
  have hnames := allColumnNames_length h.columns
  suffices hscan : ∀ done rest, rs = done ++ rest →
      (meetsMatch t.files (allColumnNames t.columns) whereClause
        (List.range' done.length rest.length) false = true ↔
        (sweep (allColumnNames t.columns) whereClause rest).hits ≠ []) by
    have hall := hscan [] rs rfl
    rw [MatchesFirst, h.stores.readable.rowCount hnames, List.range_eq_range']
    exact hall
  intro done rest
  induction rest generalizing done with
  | nil => simp [meetsMatch, sweep]
  | cons r rest ih =>
    intro hrs
    have hr : rs[done.length]? = some r := by rw [hrs]; simp
    have hnext := ih (done ++ [r]) (by rw [hrs, List.append_cons])
    rw [List.length_append, List.length_singleton] at hnext
    rw [List.length_cons, List.range'_succ, meetsMatch, visit, h.stores.flags _ _ hr]
    cases hdead : r.dead with
    | true =>
      simp only [Record.flag_eq_one.mpr hdead, if_true, sweep_dead hdead]
      exact hnext
    | false =>
      have hflag : ¬ r.flag = 1 := by simp [Record.flag_eq_one, hdead]
      simp only [hflag, if_false, h.stores.readable.readRow hnames hr]
      cases hwhere : evaluateWhere whereClause (rowOf (allColumnNames t.columns) r) with
      | error e => simp [sweep_error hdead hwhere]
      | ok pass =>
        cases pass with
        | false =>
          simp only [sweep_false hdead hwhere]
          exact hnext
        | true => simp [sweep_true hdead hwhere]

/-! ### The trees do not matter -/

/-- Inserting a row reads and writes nothing but what is on disk. -/
theorem insertRow_disk (h : t.disk = t'.disk) (primaryName : Text) (data : List InsertColumn) :
    (insertRow primaryName data t).map TableState.disk =
      (insertRow primaryName data t').map TableState.disk := by
  obtain ⟨hcolumns, hfiles⟩ := Prod.mk.inj h
  rw [insertRow, insertRow, hfiles]
  split
  · rfl
  · cases nextRowId t'.files.index (1 + 2 * data.length) with
    | error e => rfl
    | ok id => exact congrArg (fun columns => Except.ok (columns, _)) hcolumns

/-- So does INSERT. -/
theorem generateInsert_disk (h : t.disk = t'.disk) (stmt : InsertStatement) :
    (generateInsert stmt t).map TableState.disk = (generateInsert stmt t').map TableState.disk := by
  rw [generateInsert, generateInsert, (Prod.mk.inj h).1]
  split
  · rfl
  · cases matchColumns (actualColumns t'.columns)
        ((stmt.columns.zip stmt.values).insertionSort fun a b => a.1 ≤ b.1) with
    | error e => rfl
    | ok data => exact insertRow_disk h _ data

/-- Both throw the same exception, or leave the same on disk. -/
theorem disk_cases {x y : Except Fault TableState}
    (h : x.map TableState.disk = y.map TableState.disk) :
    (∃ e, x = .error e ∧ y = .error e) ∨ ∃ t t', x = .ok t ∧ y = .ok t' ∧ t.disk = t'.disk := by
  cases x with
  | error e =>
    cases y with
    | error e' =>
      cases h
      exact .inl ⟨e, rfl, rfl⟩
    | ok t' => cases h
  | ok t =>
    cases y with
    | error e' => cases h
    | ok t' => exact .inr ⟨t, t', rfl, rfl, Except.ok.inj h⟩

/-- What is taken out of the trees is not on disk. -/
theorem dropKeys_disk (h : t.disk = t'.disk) (row : Nat) (r : Row) :
    (dropKeys (tombstone t row) r).disk = (dropKeys (tombstone t' row) r).disk := by
  obtain ⟨hcolumns, hfiles⟩ := Prod.mk.inj h
  simp only [TableState.disk, dropKeys, tombstone, hcolumns, hfiles]

/-- DELETE does the same to two tables with the same files. -/
theorem deleteLoop_disk (h : t.disk = t'.disk) (rows : List Nat) (failed : Bool) :
    Prod.map TableState.disk id (deleteLoop names whereClause rows failed t) =
      Prod.map TableState.disk id (deleteLoop names whereClause rows failed t') := by
  induction rows generalizing failed t t' with
  | nil => exact congrArg (·, none) h
  | cons row rows ih =>
    rw [deleteLoop_cons, deleteLoop_cons, (Prod.mk.inj h).2]
    cases visit t'.files names whereClause row failed with
    | fault e => exact congrArg (·, some e) h
    | skip failed => exact ih h failed
    | hit r failed => exact ih (dropKeys_disk h row r) failed

/-- So does UPDATE. -/
theorem updateLoop_disk (h : t.disk = t'.disk) (primaryKey : Text) (rows : List Nat)
    (failed : Bool) :
    Prod.map TableState.disk id
        (updateLoop primaryKey names assignments whereClause rows failed t) =
      Prod.map TableState.disk id
        (updateLoop primaryKey names assignments whereClause rows failed t') := by
  induction rows generalizing failed t t' with
  | nil => exact congrArg (·, none) h
  | cons row rows ih =>
    rw [updateLoop_cons, updateLoop_cons, (Prod.mk.inj h).1, (Prod.mk.inj h).2]
    cases visit t'.files names whereClause row failed with
    | fault e => exact congrArg (·, some e) h
    | skip failed => exact ih h failed
    | hit r failed =>
      have hdropped := dropKeys_disk h row r
      have hrow := insertRow_disk hdropped primaryKey
        (updateColumns t'.columns (assign r assignments))
      dsimp only
      obtain ⟨e, hthrows, hthrows'⟩ | ⟨t₁, t₁', hinsert, hinsert', hsame⟩ := disk_cases hrow
      · rw [hthrows, hthrows']
        exact congrArg (·, some e) hdropped
      · rw [hinsert, hinsert']
        exact ih hsame failed

/-- What is on disk, and the exception, depend on what is on disk only. -/
theorem execute_disk (h : t.disk = t'.disk) (s : Statement) :
    Prod.map TableState.disk id (execute t s) = Prod.map TableState.disk id (execute t' s) := by
  obtain ⟨hcolumns, hfiles⟩ := Prod.mk.inj h
  cases s with
  | insert stmt =>
    rw [execute, execute]
    obtain ⟨e, hthrows, hthrows'⟩ | ⟨t₁, t₁', hinsert, hinsert', hsame⟩ :=
      disk_cases (generateInsert_disk h stmt)
    · rw [hthrows, hthrows']
      exact congrArg (·, some e) h
    · rw [hinsert, hinsert']
      exact congrArg (·, none) hsame
  | update assignments whereClause =>
    rw [execute, execute, handleUpdate, handleUpdate]
    simp only [hcolumns, hfiles]
    split
    · exact congrArg (·, _) h
    · exact updateLoop_disk h _ _ _
  | delete whereClause =>
    rw [execute, execute, handleDelete, handleDelete]
    simp only [hcolumns, hfiles]
    exact deleteLoop_disk h _ _
  | vacuum =>
    rw [execute, execute, vacuumTable, vacuumTable]
    simp only [hcolumns, hfiles]
    split
    · exact congrArg (·, _) h
    · rfl

/-! ### Executing a statement twice -/

/-- An INSERT is accepted if it names the columns and there is one to write. -/
theorem Keeps.insert_accepted (h : Keeps k t rs) :
    (∃ t', generateInsert stmt t = .ok t') ↔
      Names t.columns stmt ∧ actualColumns t.columns ≠ [] := by
  have hlength := actualColumns_length t.columns
  constructor
  · rintro ⟨t', hinsert⟩
    obtain ⟨hnames, hrow⟩ := generateInsert_eq_ok.mp hinsert
    refine ⟨hnames, fun hnil => ?_⟩
    rw [insertData, hnil, List.zipWith_nil_left] at hrow
    cases hrow
  · rintro ⟨hnames, hcolumns⟩
    have hwidth := insertData_length hnames
    have hdata : insertData t.columns stmt ≠ [] := by
      intro hnil
      rw [hnil, List.length_nil, ← hlength] at hwidth
      exact hcolumns (List.length_eq_zero_iff.mp hwidth.symm)
    obtain ⟨t', node, hrow, -⟩ :=
      h.stores.insertRow hdata (hwidth.trans h.others) (lastPrimary t.columns)
    exact ⟨t', generateInsert_eq_ok.mpr ⟨hnames, hrow⟩⟩

/-- An INSERT may be repeated if it was refused. -/
theorem Keeps.insert_again (h : Keeps k t rs) (stmt : InsertStatement) :
    (Table.execute (Table.execute t (.insert stmt)).1 (.insert stmt)).1.files =
        (Table.execute t (.insert stmt)).1.files ↔
      ¬ (Names t.columns stmt ∧ actualColumns t.columns ≠ []) := by
  rw [← h.insert_accepted]
  constructor
  · rintro heq ⟨t', hinsert⟩
    obtain ⟨node, hcolumns, -, h'⟩ := h.insert hinsert
    have hagain := h'.insert_accepted.mpr (hcolumns ▸ h.insert_accepted.mp ⟨t', hinsert⟩)
    obtain ⟨t'', hinsert'⟩ := hagain
    have hlonger := insertRow_index (generateInsert_eq_ok.mp hinsert').2
    simp only [Table.execute, hinsert, hinsert'] at heq
    rw [heq] at hlonger
    exact Nat.lt_irrefl _ hlonger
  · intro hrefused
    cases hinsert : generateInsert stmt t with
    | error e => simp only [Table.execute, hinsert]
    | ok t' => exact absurd ⟨t', hinsert⟩ hrefused

/-- A DELETE may be repeated. -/
theorem Keeps.delete_again (h : Keeps k t rs) (whereClause : Option Expression) :
    (handleDelete whereClause (handleDelete whereClause t).1).1 =
      (handleDelete whereClause t).1 := by
  obtain ⟨t', hdelete, hcolumns, -, h'⟩ := h.delete whereClause
  rw [hdelete, handleDelete_unchanged_iff, h'.matchesFirst_iff, hcolumns]
  have hagain := sweep_again (allColumnNames t.columns) whereClause rs []
  rw [List.append_nil] at hagain
  rw [hagain, not_not]
  split <;> rfl

/-- An UPDATE that leaves the files leaves the table. -/
theorem handleUpdate_files_iff (t : TableState) (assignments : List (Text × Text))
    (whereClause : Option Expression) :
    (handleUpdate assignments whereClause t).1.files = t.files ↔
      (handleUpdate assignments whereClause t).1 = t := by
  constructor
  · intro heq
    rw [handleUpdate_unchanged_iff, or_iff_not_imp_left]
    intro hprimary hmatch
    rw [handleUpdate, if_neg hprimary] at heq
    exact updateLoop_changed hmatch heq
  · intro heq
    rw [heq]

/-- An UPDATE may be repeated if it hits nothing it has written. -/
theorem Keeps.update_again (h : Keeps k t rs) (assignments : List (Text × Text))
    (whereClause : Option Expression) :
    (handleUpdate assignments whereClause (handleUpdate assignments whereClause t).1).1.files =
        (handleUpdate assignments whereClause t).1.files ↔
      Repeatable t (.update assignments whereClause) := by
  rw [handleUpdate_files_iff, Repeatable, updatedRows, h.records]
  cases hprimary : assignments.any fun a => a.1 = firstPrimary t.columns with
  | true => simp [handleUpdate, hprimary]
  | false =>
    obtain ⟨t', hupdate, hcolumns, h'⟩ := h.update hprimary whereClause
    rw [hupdate, handleUpdate_unchanged_iff, hcolumns, hprimary, h'.matchesFirst_iff, hcolumns,
      not_not, sweep_again, ← sweep_fault_iff,
      ← sweep_alive (renew_alive _ _ assignments _ _)]
    simp only [Bool.false_eq_true, false_or]
    by_cases hfault : (sweep (allColumnNames t.columns) whereClause rs).fault = none
    · simp [hfault, sweep_hits hfault]
    · simp [hfault]

/-- A statement does nothing a second time exactly if it is repeatable. -/
theorem Keeps.repeat_iff (h : Keeps k t rs) (s : Statement) :
    (Table.execute (Table.execute t s).1 s).1.files = (Table.execute t s).1.files ↔ Repeatable t s := by
  cases s with
  | insert stmt => exact h.insert_again stmt
  | update assignments whereClause => exact h.update_again assignments whereClause
  | delete whereClause =>
    simp only [Table.execute, h.delete_again whereClause, Repeatable]
  | vacuum =>
    obtain ⟨hvacuum, h'⟩ := h.vacuum
    rw [hvacuum] at h'
    simp only [Table.execute, hvacuum, h'.vacuum.1, live_live, Repeatable]

/-- A statement that throws can be repeated. -/
theorem Keeps.repeatable (h : Keeps k t rs) {s : Statement} (hfault : (Table.execute t s).2 ≠ none) :
    Repeatable t s := by
  cases s with
  | insert stmt =>
    rw [Repeatable, ← h.insert_accepted]
    rintro ⟨t', hinsert⟩
    simp [Table.execute, hinsert] at hfault
  | update assignments whereClause =>
    cases hprimary : assignments.any fun a => a.1 = firstPrimary t.columns with
    | true => exact .inl hprimary
    | false =>
      obtain ⟨t', hupdate, -, -⟩ := h.update hprimary whereClause
      rw [Table.execute, hupdate] at hfault
      right; left
      rw [h.records]
      exact sweep_fault_iff.mp hfault
  | delete whereClause => trivial
  | vacuum => trivial

/-! ### Databases -/

/-- Two databases with the same on disk have the same tables on disk. -/
theorem disk_getElem? (h : db.disk = db'.disk) (i : Nat) :
    (db[i]? = none ∧ db'[i]? = none) ∨
      ∃ t t', db[i]? = some t ∧ db'[i]? = some t' ∧ t.disk = t'.disk := by
  have hi := congrArg (fun l : List (List Column × Files) => l[i]?) h
  simp only [Database.disk, List.getElem?_map] at hi
  cases ht : db[i]? with
  | none =>
    rw [ht, Option.map_none, eq_comm, Option.map_eq_none_iff] at hi
    exact .inl ⟨rfl, hi⟩
  | some t =>
    rw [ht, Option.map_some, eq_comm, Option.map_eq_some_iff] at hi
    obtain ⟨t', ht', hsame⟩ := hi
    exact .inr ⟨t, t', rfl, ht', hsame.symm⟩

/-- A statement does the same to two databases with the same files. -/
theorem Database.execute_disk (h : db.disk = db'.disk) (s : Nat × Statement) :
    (db.execute s).disk = (db'.execute s).disk := by
  refine List.ext_getElem? fun i => ?_
  simp only [Database.disk, Database.execute, List.getElem?_map, List.getElem?_modify]
  obtain ⟨hnone, hnone'⟩ | ⟨t, t', ht, ht', hsame⟩ := disk_getElem? h i
  · rw [hnone, hnone']
  · rw [ht, ht']
    simp only [Option.map_eq_map, Option.map_some]
    split
    · exact congrArg (fun x => some x.1) (Table.execute_disk hsame s.2)
    · exact congrArg some hsame

/-- What is on disk after a statement, and whether it throws, depends on what is on disk
before. -/
theorem perform_disk (h : db.disk = db'.disk) (sql : Text) :
    (perform parse sql db).1.disk = (perform parse sql db').1.disk ∧
      (perform parse sql db).2 = (perform parse sql db').2 := by
  rw [perform, perform]
  cases parse sql with
  | error e => exact ⟨h, rfl⟩
  | ok s =>
    dsimp only
    obtain ⟨hnone, hnone'⟩ | ⟨t, t', ht, ht', hsame⟩ := disk_getElem? h s.1
    · rw [hnone, hnone']
      exact ⟨h, rfl⟩
    · rw [ht, ht']
      have hfault := congrArg Prod.snd (Table.execute_disk hsame s.2)
      exact ⟨Database.execute_disk h s, congrArg Option.isSome hfault⟩

/-- Every table keeps records. -/
def Database.Kept (db : Database) : Prop := ∀ t ∈ db, ∃ k rs, Keeps k t rs

/-- The statement a text is parsed to does nothing a second time. -/
def RepeatableOn (parse : Text → Except Fault (Nat × Statement)) (sql : Text) (db : Database) :
    Prop :=
  ∀ s t, parse sql = .ok s → db[s.1]? = some t → Repeatable t s.2

/-- What a line of the log does keeps the tables readable. -/
theorem Database.Kept.perform (h : db.Kept) (sql : Text) :
    (Table.perform parse sql db).1.Kept := by
  unfold Table.perform
  split
  · exact h
  · split
    · exact h
    · intro t' ht'
      cases Database.mem_execute ht' with
      | inl ht => exact h t' ht
      | inr hchanged =>
        obtain ⟨t, ht, rfl⟩ := hchanged
        obtain ⟨k, rs, hkeeps⟩ := h t ht
        obtain ⟨rs', hkeeps', -⟩ := hkeeps.execute _
        exact ⟨k, rs', hkeeps'⟩

theorem Database.execute_getElem? {s : Nat × Statement} (ht : db[s.1]? = some t) :
    (db.execute s)[s.1]? = some (Table.execute t s.2).1 := by
  simp only [Database.execute, List.getElem?_modify, ht, Option.map_eq_map, Option.map_some,
    if_true]

/-- A statement changes nothing on disk exactly if it changes nothing in its table's files. -/
theorem Database.execute_disk_iff {s : Nat × Statement} (ht : db[s.1]? = some t) :
    (db.execute s).disk = db.disk ↔ (Table.execute t s.2).1.disk = t.disk := by
  constructor
  · intro h
    have hs := congrArg (fun l : List (List Column × Files) => l[s.1]?) h
    simp only [Database.disk, List.getElem?_map, Database.execute_getElem? ht, ht] at hs
    exact Option.some.inj hs
  · intro h
    refine List.ext_getElem? fun i => ?_
    simp only [Database.disk, Database.execute, List.getElem?_map, List.getElem?_modify]
    by_cases hi : s.1 = i
    · subst hi
      simp only [ht, Option.map_eq_map, Option.map_some, if_true, h]
    · simp only [hi, if_false, id_map']

/-- Executing the statement of a text again does nothing exactly if it is repeatable. -/
theorem Database.Kept.repeat_iff (h : db.Kept) (sql : Text) :
    (Table.perform parse sql (Table.perform parse sql db).1).1.disk =
        (Table.perform parse sql db).1.disk ↔ RepeatableOn parse sql db := by
  cases hparse : parse sql with
  | error e =>
    simp only [Table.perform, hparse, RepeatableOn, reduceCtorEq, false_implies, implies_true]
  | ok s =>
    cases ht : db[s.1]? with
    | none =>
      have hnever : RepeatableOn parse sql db := by
        intro s' t hparse' ht'
        obtain rfl := Except.ok.inj (hparse.symm.trans hparse')
        rw [ht] at ht'
        cases ht'
      simp only [Table.perform, hparse, ht, hnever]
    | some t =>
      obtain ⟨k, rs, hkeeps⟩ := h t (List.mem_of_getElem? ht)
      obtain ⟨rs', hkeeps', -⟩ := hkeeps.execute s.2
      obtain ⟨-, -, hcolumns⟩ := hkeeps'.execute s.2
      have ht' := Database.execute_getElem? ht
      simp only [Table.perform, hparse, ht, ht']
      rw [Database.execute_disk_iff ht', TableState.disk, TableState.disk, Prod.mk.injEq,
        and_iff_right hcolumns, hkeeps.repeat_iff]
      constructor
      · intro hrepeatable s' t' hparse' ht'
        obtain rfl := Except.ok.inj (hparse.symm.trans hparse')
        obtain rfl := Option.some.inj (ht.symm.trans ht')
        exact hrepeatable
      · intro hrepeatable
        exact hrepeatable s t hparse ht

/-- A line that throws may be repeated. -/
theorem Database.Kept.repeatable (h : db.Kept) (hthrown : (Table.perform parse sql db).2 = true) :
    RepeatableOn parse sql db := by
  intro s t hparse ht
  obtain ⟨k, rs, hkeeps⟩ := h t (List.mem_of_getElem? ht)
  apply hkeeps.repeatable
  simp only [Table.perform, hparse, ht] at hthrown
  exact Option.isSome_iff_ne_none.mp hthrown

/-! ### Recovery -/

/-- Wherever `NanoVaultDB::execute` ends, the start leaves what the statement leaves behind when
it is executed once, or what was there before if the log had not been written. -/
def ExactlyOnce (parse : Text → Except Fault (Nat × Statement))
    (trees : TableState → Text → Option Tree) (server : Server) (query : Text) : Prop :=
  ∀ steps, ((server.execute parse query steps).recover parse trees).db.disk =
    if steps = 0 then server.db.disk else (perform parse query server.db).1.disk

/-- The tables keep records, and nothing is left in the log but a statement that does nothing. -/
structure Server.Ready (parse : Text → Except Fault (Nat × Statement)) (server : Server) :
    Prop where
  kept : server.db.Kept
  settled : server.log = [] ∨ exec_rem_sqls server.log = [server.log] ∧
    (perform parse server.log server.db).1.disk = server.db.disk

/-- Loading the trees leaves the files. -/
theorem loaded_disk (trees : TableState → Text → Option Tree) (db : Database) :
    Database.disk (db.map fun t => { t with trees := trees t }) = db.disk := by
  rw [Database.disk, List.map_map]
  rfl

section Server

variable {trees : TableState → Text → Option Tree} {server : Server} {query : Text}
  {schemas : List (List Column)} {history : List Text}

/-- An empty log leaves the files. -/
theorem Server.recover_nil (hlog : server.log = []) :
    (server.recover parse trees).db.disk = server.db.disk := by
  rw [Server.recover, hlog]
  exact loaded_disk trees server.db

/-- A log of one statement has it executed again. -/
theorem Server.recover_one (hlog : exec_rem_sqls server.log = [server.log]) :
    (server.recover parse trees).db.disk = (perform parse server.log server.db).1.disk := by
  rw [Server.recover, hlog]
  exact (perform_disk (loaded_disk trees server.db) server.log).1

/-- A server between statements is recovered as it was. -/
theorem Server.Ready.recover (h : server.Ready parse) :
    (server.recover parse trees).db.disk = server.db.disk := by
  cases h.settled with
  | inl hlog => exact Server.recover_nil hlog
  | inr hlog => exact (Server.recover_one hlog.1).trans hlog.2

/-- A statement that runs to its end leaves the server ready for the next one. -/
theorem Server.Ready.execute (h : server.Ready parse) (hquery : exec_rem_sqls query = [query]) :
    (server.execute parse query 3).Ready parse := by
  refine ⟨h.kept.perform query, ?_⟩
  cases hthrown : (perform parse query server.db).2 with
  | false => exact .inl (by simp [Server.execute, hthrown])
  | true =>
    have hlog : (server.execute parse query 3).log = query := by simp [Server.execute, hthrown]
    right
    rw [hlog]
    exact ⟨hquery, (h.kept.repeat_iff query).mpr (h.kept.repeatable hthrown)⟩

/-- A server that has answered its statements is between statements. -/
theorem ready_run (hschemas : ∀ columns ∈ schemas, OnePrimary columns)
    (hhistory : ∀ text ∈ history, exec_rem_sqls text = [text]) :
    (Server.run parse { db := schemas.map createTable } history).Ready parse := by
  suffices hrun : ∀ server : Server, server.Ready parse → (server.run parse history).Ready parse by
    refine hrun _ ⟨fun t ht => ?_, .inl rfl⟩
    obtain ⟨columns, hcolumns, rfl⟩ := List.mem_map.mp ht
    exact ⟨_, _, keeps_createTable (hschemas columns hcolumns)⟩
  induction history with
  | nil => exact fun server h => h
  | cons text history ih =>
    intro server h
    apply ih fun x hx => hhistory x (List.mem_cons_of_mem _ hx)
    exact h.execute (hhistory text List.mem_cons_self)

/-- A statement survives every crash exactly if it may be repeated. -/
theorem Server.Ready.exactlyOnce_iff (h : server.Ready parse)
    (hquery : exec_rem_sqls query = [query]) :
    ExactlyOnce parse trees server query ↔ RepeatableOn parse query server.db := by
  constructor
  · intro honce
    have htwice := honce 2
    rw [Server.recover_one hquery] at htwice
    exact (h.kept.repeat_iff query).mp htwice
  · intro hrepeatable steps
    have hready := h.execute hquery
    rcases steps with _ | _ | _ | steps
    · exact h.recover
    · exact Server.recover_one hquery
    · rw [Server.recover_one hquery]
      exact (h.kept.repeat_iff query).mpr hrepeatable
    · exact hready.recover

/-- On every database, after statements that the recovery finds again in the log, for a
statement that it finds again: it has been executed exactly once behind any crash and the start
after it, if and only if it does nothing a second time; and a statement that has thrown is not
executed at a later start, or has no effect there. -/
theorem recovery_exact (parse : Text → Except Fault (Nat × Statement))
    (trees : TableState → Text → Option Tree) (schemas : List (List Column))
    (history : List Text) (query : Text) (hschemas : ∀ columns ∈ schemas, OnePrimary columns)
    (hlogged : ∀ text ∈ query :: history, exec_rem_sqls text = [text]) :
    (ExactlyOnce parse trees (Server.run parse { db := schemas.map createTable } history) query ↔
      RepeatableOn parse query
        (Server.run parse { db := schemas.map createTable } history).db) ∧
    ((perform parse query (Server.run parse { db := schemas.map createTable } history).db).2 = true →
      ExactlyOnce parse trees (Server.run parse { db := schemas.map createTable } history)
        query) := by
  obtain ⟨hquery, hhistory⟩ := List.forall_mem_cons.mp hlogged
  have hready : (Server.run parse { db := schemas.map createTable } history).Ready parse :=
    ready_run hschemas hhistory
  refine ⟨hready.exactlyOnce_iff hquery, fun hthrown => ?_⟩
  exact (hready.exactlyOnce_iff hquery).mpr (hready.kept.repeatable hthrown)

/-- An INSERT, and a parser that knows nothing else. -/
def insertA : Text := "INSERT INTO t (v) VALUES ('a');".toList

def parseInsertA (_ : Text) : Except Fault (Nat × Statement) :=
  .ok (0, .insert ⟨[['v']], [['a']]⟩)

theorem recovery_exact_insertA :
    ExactlyOnce parseInsertA TableState.trees
        (Server.run parseInsertA { db := [keyed].map createTable } [insertA]) insertA ↔
      RepeatableOn parseInsertA insertA
        (Server.run parseInsertA { db := [keyed].map createTable } [insertA]).db :=
  (recovery_exact parseInsertA TableState.trees [keyed] [insertA] insertA
    (List.forall_mem_singleton.mpr rfl) (by decide)).1

/-- A crash in front of the third step, and the row is there twice. -/
theorem inserted_twice :
    ((Server.execute parseInsertA insertA { db := [createTable keyed] } 2).recover parseInsertA
        TableState.trees).db.map recordCount = [2] ∧
      ¬ ExactlyOnce parseInsertA TableState.trees { db := [createTable keyed] } insertA := by
  constructor
  · decide
  · intro honce
    have hcounts := congrArg (List.map fun table : List Column × Files => table.2.index.length)
      (honce 2)
    revert hcounts
    decide

end Server

end NanoVault.Table
