/-
The databases the program keeps.

`Databases` has no catalog and no files: it is a map from names to databases, each a map from
names to tables, with the name of the current one. A table whose columns are declared in the
order of their names, the primary key first, is the relation of these columns. Of the other
tables, and of HFT tables, it has only the names.

The program keeps it in the metadata files and in the files of the tables, and reads it from
there at every USE and at every restart. A start can also vacuum the tables of the current
database, whose next ids then follow the last row that is left. Whatever statements are executed
one after the other, the program answers what the databases answer (`databases_run`).
-/
import NanoVault.Catalog.Consistency
import NanoVault.Catalog.Dropped
import NanoVault.Table.Relation

namespace NanoVault.Catalog

open Lib NanoVault.Table NanoVault.Hft

/-! ### Databases -/

inductive Contents where
  | relation (R : Relation)
  | unspecified

/-- What is answered: to a statement on rows its reply, to another whether it has returned. -/
inductive Message where
  | reply (r : Reply)
  | returned (b : Bool)

structure Databases where
  current : Option Text := none
  tables : Text → Option (Text → Option Contents) := fun _ => none

/-- The column is the one primary key, its name comes before the other names, and these are
declared in their order. -/
def leads (columns : List Column) (pk : Column) : Bool :=
  pk.isPrimary && columns.countP Column.isPrimary == 1 &&
    decide (columns.map Column.name).Nodup &&
    columns.all (fun c => c.isPrimary || decide (pk.name < c.name)) &&
    columns.filter (fun c => !c.isPrimary) == actualColumns columns

def Contents.ofColumns (columns : List Column) : Contents :=
  match columns.find? (leads columns) with
  | some pk => .relation { key := pk.name, columns := otherNames columns }
  | none => .unspecified

/-- The columns of CREATE TABLE, as the statements on rows know them. -/
def columnsOf (columns : List TableColumnSpec) : Except Fault (List Column) :=
  ((columns.map TableColumnSpec.definition).mapM createColumn).map fun nodes =>
    nodes.map fun node => node.1.column

/-- What a statement on the rows of a missing table is answered. -/
def missing : Table.Request → Option Message
  | .execute (.insert _) => some (.reply (.inserted false))
  | .execute (.delete _) =>
      some (.reply (.done (some (.runtimeError "Failed to open data file".toList))))
  | _ => none

/-- Vacuum changes nothing but what ids are given next. -/
def Contents.vacuum : Contents → Contents
  | .relation R => .relation R.vacuum
  | .unspecified => .unspecified

namespace Databases

def setTable (A : Databases) (db : Text) (tables : Text → Option Contents) (name : Text)
    (c : Option Contents) : Databases :=
  { A with tables := Function.update A.tables db (some (Function.update tables name c)) }

/-- A statement that needs a database, on the tables of the current one. -/
def withDb (A : Databases)
    (statement : Text → (Text → Option Contents) → Databases × Option Message) :
    Databases × Option Message :=
  match A.current with
  | none => (A, some (.returned false))
  | some db => statement db ((A.tables db).getD fun _ => none)

/-- The tables of the current database after a vacuum. -/
def vacuum (A : Databases) : Databases :=
  match A.current with
  | none => A
  | some db =>
      { A with
        tables := Function.update A.tables db
          ((A.tables db).map fun tables n => (tables n).map Contents.vacuum) }

/-- A statement on the rows of a table. -/
def request (order : HashOrder) (A : Databases) (table : Text) (q : Table.Request) :
    Databases × Option Message :=
  A.withDb fun db tables =>
    match tables table with
    | some (.relation R) =>
        (A.setTable db tables table (some (.relation (R.serve order q).1)),
          some (.reply (R.serve order q).2))
    | some .unspecified => (A, none)
    | none => (A, missing q)

/-- A statement that makes a table, unless there is one of this name. -/
def create (A : Databases) (name : Text) (c : Except Fault Contents) (m : Option Message) :
    Databases × Option Message :=
  A.withDb fun db tables =>
    match tables name, c with
    | none, .ok c => (A.setTable db tables name (some c), m)
    | _, _ => (A, some (.returned false))

/-- The databases after a statement and what it is answered, if they say so. CREATE TABLE also
builds indexes, which can fail once the table is there. -/
def serve (order : HashOrder) (A : Databases) : Event → Databases × Option Message
  | .createDatabase name =>
      if (A.tables name).isSome then (A, some (.returned false))
      else
        ({ current := some name, tables := Function.update A.tables name (some fun _ => none) },
          some (.returned true))
  | .use name =>
      if (A.tables name).isSome then ({ A with current := some name }, some (.returned true))
      else (A, some (.returned false))
  | .createTable name columns => A.create name ((columnsOf columns).map .ofColumns) none
  | .createHft name _ _ _ => A.create name (.ok .unspecified) (some (.returned true))
  | .dropTable name => A.withDb fun db tables =>
      if (tables name).isSome then (A.setTable db tables name none, some (.returned true))
      else (A, some (.returned false))
  | .dropDatabase name => A.withDb fun _ _ =>
      if (A.tables name).isSome then
        ({ current := none, tables := Function.update A.tables name none },
          some (.returned true))
      else (A, some (.returned false))
  | .insert table stmt => A.request order table (.execute (.insert stmt))
  | .select table whereClause => A.request order table (.select whereClause)
  | .update table assignments whereClause =>
      A.request order table (.execute (.update assignments whereClause))
  | .delete table whereClause => A.request order table (.execute (.delete whereClause))
  | .restart vacuums => (if vacuums then A.vacuum else A, some (.returned true))
  | .addIndicator _ | .enableStrategy _ | .packet _ => (A, none)

/-- SELECT and UPDATE name a table that is there, and an HFT table that is created fits into a
slot. -/
def Safe (A : Databases) (e : Event) : Prop :=
  e.onTables = true ∧ ∀ db tables, A.current = some db → A.tables db = some tables →
    match e with
    | .select table _ | .update table _ _ => (tables table).isSome
    | .createHft name columns symbol _ => tables name = none → SlotFits symbol columns.length
    | _ => True

def AllSafe (order : HashOrder) (A : Databases) : List Event → Prop
  | [] => True
  | e :: es => A.Safe e ∧ (A.serve order e).1.AllSafe order es

/-- What statements are answered one after the other. -/
def messages (order : HashOrder) (A : Databases) : List Event → List (Option Message)
  | [] => []
  | e :: es => (A.serve order e).2 :: (A.serve order e).1.messages order es

end Databases

/-! ### What the program answers -/

def faultOf : Failure → Fault
  | .thrown e => e
  | _ => .undefined

def message (order : HashOrder) (stems : Stems) (s : State) (e : Event) : Message :=
  match s.currentDb, e with
  | some db, .insert table stmt =>
      .reply (.inserted (insertRows table stmt db s).2.isNone)
  | some db, .select table whereClause =>
      .reply (.rows (((selectRows table whereClause db s).2.mapError faultOf).map
        (printRows order)))
  | some db, .update table assignments whereClause =>
      .reply (.done ((updateRows table assignments whereClause db s).2.map faultOf))
  | some db, .delete table whereClause =>
      .reply (.done ((deleteRows table whereClause db s).2.map faultOf))
  | _, e => .returned (execute stems s e).2.isNone

/-- A restart that fails ends the process. -/
def ended (s : State) : Event → Bool
  | .restart vacuums => (restart vacuums s).2.isSome
  | _ => false

/-- What the program answers to statements one after the other. -/
def messages (order : HashOrder) (stems : Stems) : State → List Event → List Message
  | _, [] => []
  | s, e :: es =>
      if ended s e then []
      else message order stems s e :: messages order stems (execute stems s e).1 es

/-- As long as the process lives, each message is what has been foretold. -/
def Foretold : List (Option Message) → List Message → Prop
  | _, [] => True
  | [], _ :: _ => False
  | m :: ms, n :: ns => (∀ x, m = some x → n = x) ∧ Foretold ms ns

variable {s s' : State} {A A' : Databases} {db d name n table : Text} {root : JSONValue}
  {ts : List LoadedTable} {t : LoadedTable} {stems : Stems} {e : Event} {columns : List Column}
  {tables : Text → Option Contents} {R : Relation} {f : Files} {q : Table.Request}
  {entry : TableEntry} {c : Contents} {order : HashOrder}

/-! ### The databases in the files -/

/-- The files of a table store the relation. -/
def Kept (files : Option Files) (columns : List Column) (R : Relation) : Prop :=
  ∃ f pk rs, files = some f ∧ InOrder columns pk ∧
    ∀ trees, Models columns pk ⟨columns, f, trees⟩ rs R

/-- The columns of a table in a metadata file, as the statements on rows know them. -/
def LoadedTable.rowColumns (t : LoadedTable) : List Column := t.columns.map ColumnNode.column

/-- The tables of a database are those of its metadata file. -/
structure Lists (s : State) (db : Text) (ts : List LoadedTable) (tables : Text → Option Contents) :
    Prop where
  named : ∀ n, (tables n).isSome ↔ n ∈ ts.map LoadedTable.name
  filed : ∀ t ∈ ts, (s.files db t.name).isSome
  kept : ∀ t ∈ ts, ∀ R, tables t.name = some (.relation R) →
    Kept (s.files db t.name) t.rowColumns R

/-- The files have these databases. -/
structure Holds (s : State) (A : Databases) : Prop where
  current : s.currentDb = A.current
  absent : ∀ db, s.metadata db = none → A.tables db = none
  present : ∀ db root, s.metadata db = some root →
    ∃ ts tables, Written root ts ∧ A.tables db = some tables ∧ Lists s db ts tables

/-- A process that has just been started holds no databases. -/
theorem Holds.init : Holds {} {} := ⟨rfl, fun _ _ => rfl, nofun⟩

/-- A database is known if its metadata is there. -/
theorem Holds.isSome_eq (h : Holds s A) (db : Text) :
    (A.tables db).isSome = (s.metadata db).isSome := by
  cases hroot : s.metadata db with
  | none =>
      rw [h.absent db hroot]
      rfl
  | some root =>
      obtain ⟨ts, tables, -, htables, -⟩ := h.present db root hroot
      rw [htables]
      rfl

/-- Only the files of the database count. -/
theorem Lists.congr (h : Lists s db ts tables) (hfiles : ∀ n, s'.files db n = s.files db n) :
    Lists s' db ts tables := by
  refine ⟨h.named, fun t ht => ?_, fun t ht R hR => ?_⟩
  · rw [hfiles]
    exact h.filed t ht
  · rw [hfiles]
    exact h.kept t ht R hR

/-- One database has changed. -/
theorem Holds.write (h : Holds s A) (hcurrent : s'.currentDb = A'.current)
    (hothers : ∀ d, d ≠ db → s'.metadata d = s.metadata d ∧ s'.files d = s.files d ∧
      A'.tables d = A.tables d)
    (hroot : s'.metadata db = some root) (hwritten : Written root ts)
    (htables : A'.tables db = some tables) (hlists : Lists s' db ts tables) : Holds s' A' := by
  refine ⟨hcurrent, fun d hnone => ?_, fun d r hr => ?_⟩
  · have hd : d ≠ db := by
      rintro rfl
      rw [hroot] at hnone
      cases hnone
    obtain ⟨hmetadata, -, heq⟩ := hothers d hd
    rw [heq]
    exact h.absent d (hmetadata ▸ hnone)
  · by_cases hd : d = db
    · subst hd
      obtain rfl := Option.some.inj (hroot.symm.trans hr)
      exact ⟨ts, tables, hwritten, htables, hlists⟩
    · obtain ⟨hmetadata, hfiles, heq⟩ := hothers d hd
      obtain ⟨us, tables', hwritten', htables', hlists'⟩ := h.present d r (hmetadata ▸ hr)
      exact ⟨us, tables', hwritten', heq.trans htables', hlists'.congr fun n => by rw [hfiles]⟩

/-- The files and the current database are the same. -/
theorem Holds.congr (h : Holds s A) (hmetadata : s'.metadata = s.metadata)
    (hfiles : s'.files = s.files) (hcurrent : s'.currentDb = A'.current)
    (htables : A'.tables = A.tables) : Holds s' A' := by
  refine ⟨hcurrent, fun d hnone => ?_, fun d r hr => ?_⟩
  · rw [htables]
    exact h.absent d (hmetadata ▸ hnone)
  · obtain ⟨ts, tables, hwritten, hd, hlists⟩ := h.present d r (hmetadata ▸ hr)
    exact ⟨ts, tables, hwritten, by rw [htables, hd], hlists.congr fun n => by rw [hfiles]⟩

/-- What keeps metadata and files holds the same databases. -/
theorem Holds.unchanged (h : Holds s A) (hsame : Unchanged s s') : Holds s' A :=
  h.congr hsame.metadata hsame.files (hsame.currentDb.trans h.current) rfl

/-- What is known of the current database. -/
theorem Holds.here (h : Holds s A) (hsound : Sound s) (hphantoms : NoPhantoms s)
    (hdb : s.currentDb = some db) :
    ∃ root ts tables, s.metadata db = some root ∧ Written root ts ∧ Stored s db ts ∧
      A.tables db = some tables ∧ Lists s db ts tables ∧
      ∀ n, (s.find? db n).isSome = (tables n).isSome := by
  obtain ⟨root, hroot⟩ := Option.isSome_iff_exists.mp (hsound.current db hdb)
  obtain ⟨ts, tables, hwritten, htables, hlists⟩ := h.present db root hroot
  obtain ⟨us, hus, hstored⟩ := hsound.stored db root hroot
  obtain rfl := hus.unique hwritten
  refine ⟨root, us, tables, hroot, hwritten, hstored, htables, hlists, fun n => ?_⟩
  by_cases hn : n ∈ us.map LoadedTable.name
  · obtain ⟨t, ht, rfl⟩ := List.mem_map.mp hn
    rw [hstored.cached hdb t ht, (hlists.named t.name).mpr hn]
    rfl
  · have hnone := Option.not_isSome_iff_eq_none.mp ((hlists.named n).not.mpr hn)
    rw [hphantoms db root us hdb hroot hwritten n hn, hnone]
    rfl

/-! ### Tables that come and go -/

/-- A table that is created is one more in the list. -/
theorem Lists.create (h : Lists s db ts tables) (hfresh : tables t.name = none)
    (root' : JSONValue)
    (hkept : ∀ R, c = .relation R → Kept (some {}) t.rowColumns R) :
    Lists (s.create db t root') db (ts ++ [t]) (Function.update tables t.name (some c)) := by
  have hother : ∀ u ∈ ts, u.name ≠ t.name := by
    intro u hu heq
    have hsome := (h.named u.name).mpr (List.mem_map_of_mem hu)
    rw [heq, hfresh] at hsome
    cases hsome
  have hfiles : ∀ u ∈ ts, (s.create db t root').files db u.name = s.files db u.name :=
    fun u hu => setFiles_of_ne fun heq => hother u hu heq.2.symm
  have hself : (s.create db t root').files db t.name = some {} := setFiles_self
  refine ⟨fun n => ?_, fun u hu => ?_, fun u hu R hR => ?_⟩
  · rw [List.map_append, List.mem_append, List.map_singleton, List.mem_singleton,
      Function.update_apply]
    by_cases hn : n = t.name
    · simp [hn]
    · simp [hn, h.named n]
  · rcases List.mem_append.mp hu with hu | hu
    · rw [hfiles u hu]
      exact h.filed u hu
    · rw [List.mem_singleton.mp hu, hself]
      rfl
  · rcases List.mem_append.mp hu with hu | hu
    · rw [Function.update_of_ne (hother u hu)] at hR
      rw [hfiles u hu]
      exact h.kept u hu R hR
    · rw [List.mem_singleton.mp hu, Function.update_self, Option.some.injEq] at hR
      rw [List.mem_singleton.mp hu, hself]
      exact hkept R hR

/-- A table that is dropped is none. -/
theorem Lists.drop (h : Lists s db ts tables) (name : Text) (root' : JSONValue) :
    Lists (s.drop db name root') db (ts.filter fun t => t.name ≠ name)
      (Function.update tables name none) := by
  have hleft : ∀ t ∈ ts.filter fun t => t.name ≠ name, t ∈ ts ∧ t.name ≠ name ∧
      (s.drop db name root').files db t.name = s.files db t.name := by
    intro t ht
    obtain ⟨ht, hname⟩ := List.mem_filter.mp ht
    have hname := of_decide_eq_true hname
    exact ⟨ht, hname, setFiles_of_ne fun heq => hname heq.2.symm⟩
  refine ⟨fun n => ?_, fun t ht => ?_, fun t ht R hR => ?_⟩
  · rw [Function.update_apply]
    split
    · next hn =>
        subst hn
        simp
    · next hn =>
        rw [h.named n]
        constructor
        · intro hmem
          obtain ⟨t, ht, rfl⟩ := List.mem_map.mp hmem
          exact List.mem_map_of_mem (List.mem_filter.mpr ⟨ht, decide_eq_true hn⟩)
        · intro hmem
          obtain ⟨t, ht, rfl⟩ := List.mem_map.mp hmem
          exact List.mem_map_of_mem (List.mem_filter.mp ht).1
  · obtain ⟨ht, -, hfiles⟩ := hleft t ht
    rw [hfiles]
    exact h.filed t ht
  · obtain ⟨ht, hname, hfiles⟩ := hleft t ht
    rw [Function.update_of_ne hname] at hR
    rw [hfiles]
    exact h.kept t ht R hR

theorem inOrder_of_leads {pk : Column} (hpk : pk ∈ columns) (h : leads columns pk = true) :
    InOrder columns pk := by
  simp only [leads, Bool.and_eq_true, beq_iff_eq, decide_eq_true_eq, List.all_eq_true,
    Bool.or_eq_true] at h
  obtain ⟨⟨⟨⟨hprimary, hone⟩, hnames⟩, hleads⟩, hdeclared⟩ := h
  refine ⟨⟨hpk, hprimary, hone, hnames⟩, fun c hc hother => ?_, hdeclared⟩
  exact (hleads c hc).resolve_left (by rw [hother]; exact Bool.false_ne_true)

/-- A relation without tuples is kept in empty files. -/
theorem kept_ofColumns (h : Contents.ofColumns columns = .relation R) :
    Kept (some {}) columns R := by
  rw [Contents.ofColumns] at h
  split at h
  · next pk hpk =>
      obtain rfl := Contents.relation.inj h
      have horder : InOrder columns pk :=
        inOrder_of_leads (List.mem_of_find?_eq_some hpk) (List.find?_some hpk)
      obtain ⟨hkeeps, -⟩ := Models.created horder
      exact ⟨{}, pk, [], rfl, horder, fun _ =>
        ⟨⟨hkeeps.columns, hkeeps.others, hkeeps.stores⟩, rfl, rfl, rfl, rfl, rfl⟩⟩
  · cases h

/-! ### Statements on databases and tables -/

/-- CREATE DATABASE adds an empty database. -/
theorem Holds.createDatabase (h : Holds s A) (name : Text) :
    Holds (createDatabase name s).1 (A.serve order (.createDatabase name)).1 ∧
      (A.serve order (.createDatabase name)).2 =
        some (.returned (Catalog.createDatabase name s).2.isNone) := by
  rw [Databases.serve, Catalog.createDatabase, h.isSome_eq]
  cases hroot : s.metadata name with
  | some root => exact ⟨h, rfl⟩
  | none =>
      refine ⟨?_, rfl⟩
      refine h.write rfl (fun d hd => ?_) (Function.update_self ..) (.nil name)
        (Function.update_self ..) ?_
      · exact ⟨Function.update_of_ne hd .., rfl, Function.update_of_ne hd ..⟩
      · exact ⟨fun n => by simp, by simp, by simp⟩

/-- Loading the current database changes no file. -/
theorem Sound.load_frame (h : Sound s) (s' : State) (hmetadata : s'.metadata = s.metadata)
    (hcurrent : ∀ db, s'.currentDb = some db → (s.metadata db).isSome) :
    (initialDatabseLoad s').1.metadata = s'.metadata ∧
      (initialDatabseLoad s').1.files = s'.files ∧
      (initialDatabseLoad s').1.currentDb = s'.currentDb := by
  cases hdb : s'.currentDb with
  | none =>
      rw [initialDatabseLoad, hdb]
      exact ⟨rfl, rfl, hdb⟩
  | some db =>
      obtain ⟨root, hroot⟩ := Option.isSome_iff_exists.mp (hcurrent db hdb)
      obtain ⟨ts, hwritten, hstored⟩ := h.stored db root hroot
      rw [initialDatabseLoad_eq hdb (hmetadata ▸ hroot) hwritten hstored.fits]
      obtain ⟨hmeta, hcur, hfiles, -⟩ := foldl_put_frame ts db s'
      exact ⟨hmeta, hfiles, hcur.trans hdb⟩

/-- USE selects a database that is there. -/
theorem Holds.use (h : Holds s A) (hsound : Sound s) (name : Text) :
    Holds (parseUseStatement name s).1 (A.serve order (.use name)).1 ∧
      (A.serve order (.use name)).2 = some (.returned (parseUseStatement name s).2.isNone) := by
  rw [Databases.serve, h.isSome_eq]
  rcases parseUseStatement_cases name s with ⟨e, hnone, heq⟩ | ⟨hsome, heq⟩
  · rw [heq, hnone]
    exact ⟨h, rfl⟩
  · rw [heq, hsome, (hsound.opening hsome).2]
    obtain ⟨hmetadata, hfiles, hcurrent⟩ := hsound.load_frame (s.opening name) rfl
      fun db hdb => Option.some.inj hdb ▸ hsome
    exact ⟨h.congr hmetadata hfiles hcurrent rfl, rfl⟩

theorem Holds.withDb {statement : Text → (Text → Option Contents) → Databases × Option Message}
    (h : Holds s A) (hdb : s.currentDb = some db) (htables : A.tables db = some tables) :
    A.withDb statement = statement db tables := by
  have hcurrent : A.current = some db := h.current.symm.trans hdb
  simp only [Databases.withDb, hcurrent, htables, Option.getD_some]

theorem Holds.setTable (h : Holds s A) (hdb : s.currentDb = some db) (hdb' : s'.currentDb = some db)
    {root' : JSONValue} {us : List LoadedTable}
    (hmetadata : s'.metadata = Function.update s.metadata db (some root'))
    (hfiles : ∀ d, d ≠ db → s'.files d = s.files d) (hwritten : Written root' us)
    {c : Option Contents} (hlists : Lists s' db us (Function.update tables name c)) :
    Holds s' (A.setTable db tables name c) := by
  refine h.write (hdb'.trans (hdb.symm.trans h.current)) (fun d hd => ?_)
    (by rw [hmetadata, Function.update_self]) hwritten (Function.update_self ..) hlists
  exact ⟨by rw [hmetadata, Function.update_of_ne hd], hfiles d hd, Function.update_of_ne hd ..⟩

theorem setFiles_other {files : Text → Text → Option Files} {g : Option Files} (h : d ≠ db) :
    setFiles files db name g d = files d := Function.update_of_ne h ..

/-- A table is added to the files and to the current database. -/
theorem Holds.create {root' : JSONValue} {symbol : Int} (h : Holds s A) (hsound : Sound s)
    (hphantoms : NoPhantoms s) (hdb : s.currentDb = some db)
    (hadds : Adds s db t root' name symbol)
    (hkept : ∀ R, c = .relation R → Kept (some {}) t.rowColumns R) (m : Option Message) :
    Holds (s.create db t root') (A.create name (.ok c) m).1 ∧ (A.create name (.ok c) m).2 = m := by
  obtain ⟨root, ts, tables, hroot, hwritten, -, htables, hlists, hsome⟩ :=
    h.here hsound hphantoms hdb
  obtain ⟨rfl, -, hfresh, root₁, us, hroot₁, hwritten₁, hwritten'⟩ := hadds
  obtain rfl := Option.some.inj (hroot.symm.trans hroot₁)
  obtain rfl := hwritten.unique hwritten₁
  have hnone : tables t.name = none := by
    rw [← Option.not_isSome_iff_eq_none, ← hsome, hfresh]
    exact Bool.false_ne_true
  have hcreate : A.create t.name (.ok c) m = (A.setTable db tables t.name (some c), m) := by
    rw [Databases.create, h.withDb hdb htables, hnone]
  have hholds : Holds (s.create db t root') (A.setTable db tables t.name (some c)) :=
    h.setTable hdb (by exact hdb) (by rfl) (fun d hd => setFiles_other hd) hwritten'
      (hlists.create hnone root' hkept)
  rw [hcreate]
  exact ⟨hholds, rfl⟩

/-- A statement that would make a table is refused. -/
theorem Holds.create_refused {o : Except Fault Contents} (h : Holds s A) (hsound : Sound s)
    (hphantoms : NoPhantoms s) (hdb : s.currentDb = some db)
    (hrefused : (s.find? db name).isSome ∨ ∃ e, o = .error e) (m : Option Message) :
    A.create name o m = (A, some (.returned false)) := by
  obtain ⟨root, ts, tables, -, -, -, htables, -, hsome⟩ := h.here hsound hphantoms hdb
  rw [Databases.create, h.withDb hdb htables]
  rcases hrefused with htaken | ⟨e, rfl⟩
  · rw [hsome] at htaken
    obtain ⟨c, hc⟩ := Option.isSome_iff_exists.mp htaken
    rw [hc]
  · split
    · next heq => cases heq
    · rfl

/-- CREATE TABLE is refused, or adds the table of its columns. -/
theorem createTable_adds (h : Sound s) (hdb : s.currentDb = some db) (name : Text)
    (specs : List TableColumnSpec) :
    (∃ s' e, ((s.find? db name).isSome ∨ ∃ e, columnsOf specs = .error e) ∧
      generateCreateTableStatement
        { name := name, columns := specs.map TableColumnSpec.definition } db s =
          (s', some (.thrown e)) ∧ Unchanged s s') ∨
    ∃ t root' b f, Adds s db t root' name (-1) ∧ columnsOf specs = .ok t.rowColumns ∧
      generateCreateTableStatement
        { name := name, columns := specs.map TableColumnSpec.definition } db s =
          ({ s.create db t root' with dbBtrees := b }, f) := by
  rw [generateCreateTableStatement, columnsOf]
  cases hnodes : (specs.map TableColumnSpec.definition).mapM createColumn with
  | error e => exact .inl ⟨s, e, .inr ⟨e, rfl⟩, rfl, .refl s⟩
  | ok nodes =>
      have hload := mapM_loadColumn (fun col hcol => by
        obtain ⟨c, -, rfl⟩ := List.mem_map.mp hcol
        rfl) hnodes
      rcases addTable_cases h hdb _ (.bool false) nodes hload _ with
        ⟨s', e, htaken, heq, hsame⟩ | ⟨root, root', ts, hfresh, hroot, hwritten, hwritten', hadd⟩
      · exact .inl ⟨s', e, .inl htaken, heq, hsame⟩
      · obtain ⟨b, hb⟩ := initializeTables_trees
          ((s.create db ⟨name, -1, false, nodes.map Prod.fst⟩ root').tables.filter
            fun x => x.2.1 = name) (s.create db ⟨name, -1, false, nodes.map Prod.fst⟩ root')
        refine .inr ⟨⟨name, -1, false, nodes.map Prod.fst⟩, root', b, _,
          ⟨rfl, rfl, hfresh, root, ts, hroot, hwritten, hwritten'⟩, ?_,
          hadd.trans (Prod.ext hb rfl)⟩
        rw [LoadedTable.rowColumns, List.map_map]
        rfl

/-- DROP TABLE forgets the table and what it holds. -/
theorem Holds.dropTable (h : Holds s A) (hsound : Sound s) (hphantoms : NoPhantoms s)
    (hdb : s.currentDb = some db) (name : Text) :
    Holds (dropTable name db s).1 (A.serve order (.dropTable name)).1 ∧
      (A.serve order (.dropTable name)).2 = some (.returned (Catalog.dropTable name db s).2.isNone) := by
  obtain ⟨root, ts, tables, hroot, hwritten, hstored, htables, hlists, hsome⟩ :=
    h.here hsound hphantoms hdb
  rw [Databases.serve, h.withDb hdb htables, ← hsome]
  cases hfind : s.find? db name with
  | none =>
      have hrefused : (Catalog.dropTable name db s).2.isNone = false := by
        rw [Catalog.dropTable, hfind]
        split
        · rfl
        · rfl
      rw [hrefused, dropTable_missing hfind]
      exact ⟨h, rfl⟩
  | some entry =>
      obtain ⟨root', hdrop, hwritten'⟩ :=
        dropTable_eq (by rw [hfind]; rfl) hroot hwritten hstored.names
      rw [hdrop]
      exact ⟨h.setTable hdb (by exact hdb) (by rfl) (fun d hd => setFiles_other hd) hwritten'
        (hlists.drop name root'), rfl⟩

/-- DROP DATABASE forgets its tables. -/
theorem Holds.dropDatabase (h : Holds s A) (name : Text) (hdb : s.currentDb = some db) :
    Holds (dropDatabase name s).1 (A.serve order (.dropDatabase name)).1 ∧
      (A.serve order (.dropDatabase name)).2 =
        some (.returned (Catalog.dropDatabase name s).2.isNone) := by
  have hcurrent : A.current = some db := h.current.symm.trans hdb
  simp only [Databases.serve, Databases.withDb, hcurrent, h.isSome_eq, Catalog.dropDatabase]
  cases hroot : s.metadata name with
  | none => exact ⟨h, rfl⟩
  | some root =>
      refine ⟨⟨rfl, fun d hnone => ?_, fun d r hr => ?_⟩, rfl⟩
      · have hnone : Function.update s.metadata name none d = none := hnone
        by_cases hd : d = name
        · subst hd
          exact Function.update_self ..
        · rw [Function.update_of_ne hd] at hnone
          exact (Function.update_of_ne hd ..).trans (h.absent d hnone)
      · have hr : Function.update s.metadata name none d = some r := hr
        by_cases hd : d = name
        · subst hd
          rw [Function.update_self] at hr
          cases hr
        · rw [Function.update_of_ne hd] at hr
          obtain ⟨us, tables, hwritten, htables, hlists⟩ := h.present d r hr
          exact ⟨us, tables, hwritten, (Function.update_of_ne hd ..).trans htables,
            hlists.congr fun n => congrFun (Function.update_of_ne hd ..) n⟩

/-! ### Statements on rows -/

/-- The table and the request of a statement on rows. -/
def Event.request : Event → Option (Text × Table.Request)
  | .insert table stmt => some (table, .execute (.insert stmt))
  | .select table whereClause => some (table, .select whereClause)
  | .update table assignments whereClause =>
      some (table, .execute (.update assignments whereClause))
  | .delete table whereClause => some (table, .execute (.delete whereClause))
  | _ => none

/-- A request on rows is one of the four statements. -/
theorem Event.request_cases (he : e.request = some (table, q)) :
    (∃ stmt, e = .insert table stmt ∧ q = .execute (.insert stmt)) ∨
    (∃ whereClause, e = .select table whereClause ∧ q = .select whereClause) ∨
    (∃ assignments whereClause, e = .update table assignments whereClause ∧
      q = .execute (.update assignments whereClause)) ∨
    ∃ whereClause, e = .delete table whereClause ∧ q = .execute (.delete whereClause) := by
  cases e with
  | insert table' stmt =>
      obtain ⟨rfl, rfl⟩ := Prod.mk.inj (Option.some.inj he)
      exact .inl ⟨stmt, rfl, rfl⟩
  | select table' whereClause =>
      obtain ⟨rfl, rfl⟩ := Prod.mk.inj (Option.some.inj he)
      exact .inr (.inl ⟨whereClause, rfl, rfl⟩)
  | update table' assignments whereClause =>
      obtain ⟨rfl, rfl⟩ := Prod.mk.inj (Option.some.inj he)
      exact .inr (.inr (.inl ⟨assignments, whereClause, rfl, rfl⟩))
  | delete table' whereClause =>
      obtain ⟨rfl, rfl⟩ := Prod.mk.inj (Option.some.inj he)
      exact .inr (.inr (.inr ⟨whereClause, rfl, rfl⟩))
  | _ => cases he

theorem table_touch (hfind : s.find? db table = some entry) (f : Files) :
    (s.touch db table).table db table f = s.table db table f := by
  have htouch : (s.touch db table).find? db table = some entry := by
    rw [State.find?_touch, if_pos ⟨rfl, rfl⟩, hfind]
    rfl
  rw [State.table, State.table, htouch, hfind]
  rfl

theorem setFiles_same (hfiles : s.files db table = some f) :
    setFiles s.files db table (some f) = s.files := by
  rw [setFiles, ← hfiles, Function.update_eq_self, Function.update_eq_self]

/-- A statement on the rows of a table of the catalog does what the table does. -/
theorem execute_rows (stems : Stems) (he : e.request = some (table, q))
    (hdb : s.currentDb = some db) (hfind : s.find? db table = some entry)
    (hexists : checkIfTableExist s db table = .ok true) (hfiles : s.files db table = some f) :
    message order stems s e = .reply (Table.serve order (s.table db table f) q).2 ∧
      (execute stems s e).1.files =
        setFiles s.files db table (some (Table.serve order (s.table db table f) q).1.files) := by
  rcases Event.request_cases he with ⟨stmt, rfl, rfl⟩ | ⟨whereClause, rfl, rfl⟩ |
    ⟨assignments, whereClause, rfl, rfl⟩ | ⟨whereClause, rfl, rfl⟩
  · obtain ⟨tables, htables⟩ : ∃ tables, s.globalTableCache.find? db = some tables := by
      rw [State.find?] at hfind
      obtain ⟨tables, htables, -⟩ := Option.bind_eq_some_iff.mp hfind
      exact ⟨tables, htables⟩
    simp only [message, hdb, execute, State.withDb, insertRows, hexists, hfind, htables, hfiles,
      Option.isNone_some, Bool.false_eq_true, if_false, Option.getD_some, Table.serve,
      Table.execute]
    cases generateInsert stmt (s.table db table f) with
    | error e => exact ⟨rfl, (setFiles_same hfiles).symm⟩
    | ok t => exact ⟨rfl, rfl⟩
  · have htouch : (s.touch db table).files db table = some f := hfiles
    simp only [message, hdb, execute, State.withDb, selectRows, htouch, table_touch hfind,
      Table.serve, selectText, handle_eq_select]
    cases select whereClause (s.table db table f) with
    | error e => exact ⟨rfl, (setFiles_same hfiles).symm⟩
    | ok rows => exact ⟨rfl, (setFiles_same hfiles).symm⟩
  · have htouch : (s.touch db table).files db table = some f := hfiles
    simp only [message, hdb, execute, State.withDb, updateRows, htouch, table_touch hfind,
      Table.serve, Table.execute]
    generalize handleUpdate assignments whereClause (s.table db table f) = r
    obtain ⟨t, fault⟩ := r
    cases fault with
    | none => exact ⟨rfl, rfl⟩
    | some e => exact ⟨rfl, rfl⟩
  · simp only [message, hdb, execute, State.withDb, deleteRows, hfiles, table_touch hfind,
      Table.serve, Table.execute]
    generalize handleDelete whereClause (s.table db table f) = r
    obtain ⟨t, fault⟩ := r
    cases fault with
    | none => exact ⟨rfl, rfl⟩
    | some e => exact ⟨rfl, rfl⟩

/-- An INSERT into a table that is not there is refused, and so is a DELETE. -/
theorem execute_missing (stems : Stems) (he : e.request = some (table, q))
    (hdb : s.currentDb = some db) (hfind : s.find? db table = none)
    (hfiles : s.files db table = none) (hmissing : (missing q).isSome) :
    (execute stems s e).1 = s ∧ missing q = some (message order stems s e) := by
  rcases Event.request_cases he with ⟨stmt, rfl, rfl⟩ | ⟨whereClause, rfl, rfl⟩ |
    ⟨assignments, whereClause, rfl, rfl⟩ | ⟨whereClause, rfl, rfl⟩
  · have hrefused : (insertRows table stmt db s).2.isNone = false := by
      rw [insertRows, hfind]
      split
      · rfl
      · rfl
      · split
        · rfl
        · rfl
    simp only [message, hdb, execute, State.withDb, insertRows_missing hfind, hrefused]
    exact ⟨trivial, rfl⟩
  · cases hmissing
  · cases hmissing
  · simp only [message, hdb, execute, State.withDb, deleteRows, hfiles]
    exact ⟨trivial, rfl⟩

/-- A request on rows changes those of its table only. -/
theorem execute_rowsOnly (stems : Stems) (he : e.request = some (table, q))
    (hdb : s.currentDb = some db) : RowsOnly db table s (execute stems s e).1 := by
  rcases Event.request_cases he with ⟨stmt, rfl, rfl⟩ | ⟨whereClause, rfl, rfl⟩ |
    ⟨assignments, whereClause, rfl, rfl⟩ | ⟨whereClause, rfl, rfl⟩ <;>
    rw [execute, State.withDb, hdb]
  · exact insertRows_rowsOnly table stmt db s
  · exact selectRows_rowsOnly table whereClause db s
  · exact updateRows_rowsOnly table assignments whereClause db s
  · exact deleteRows_rowsOnly table whereClause db s

/-- A table is found in the root if it is one of those written. -/
theorem checkIfTableExist_written (hroot : s.metadata db = some root) (hwritten : Written root ts)
    (table : Text) :
    checkIfTableExist s db table = .ok (decide (table ∈ ts.map LoadedTable.name)) := by
  obtain ⟨items, hitems, hdescribes⟩ := hwritten.tables
  obtain ⟨v, hv, harray⟩ := ok_of_bind hitems
  rw [checkIfTableExist, hroot]
  simp only [hv, harray, bind, Except.bind]
  exact hasTable_eq hdescribes

/-- Only the files of one table have changed. -/
theorem Lists.rows (h : Lists s db ts tables)
    (hfiles : s'.files = setFiles s.files db table (some f)) (hsome : (tables table).isSome)
    (hkept : ∀ t ∈ ts, t.name = table → ∀ R, c = .relation R → Kept (some f) t.rowColumns R) :
    Lists s' db ts (Function.update tables table (some c)) := by
  have hself : s'.files db table = some f := by rw [hfiles, setFiles_self]
  have hother : ∀ n, n ≠ table → s'.files db n = s.files db n := fun n hn => by
    rw [hfiles, setFiles_of_ne fun heq => hn heq.2.symm]
  refine ⟨fun n => ?_, fun t ht => ?_, fun t ht R hR => ?_⟩
  · rw [← h.named n, Function.update_apply]
    split
    · next hn => simp [hn, hsome]
    · rfl
  · by_cases hname : t.name = table
    · rw [hname, hself]
      rfl
    · rw [hother t.name hname]
      exact h.filed t ht
  · by_cases hname : t.name = table
    · rw [hname, Function.update_self, Option.some.injEq] at hR
      rw [hname, hself]
      exact hkept t ht hname R hR
    · rw [Function.update_of_ne hname] at hR
      rw [hother t.name hname]
      exact h.kept t ht R hR

/-- The table a relation is kept in, when it has served a request. -/
theorem Kept.serve (h : Kept (some f) columns R) (order : HashOrder)
    (trees : Text → Option Tree) (q : Table.Request) :
    (Table.serve order ⟨columns, f, trees⟩ q).2 = (R.serve order q).2 ∧
      Kept (some (Table.serve order ⟨columns, f, trees⟩ q).1.files) columns (R.serve order q).1 := by
  obtain ⟨f', pk, rs, hf, horder, hmodels⟩ := h
  obtain rfl := Option.some.inj hf
  obtain ⟨hreply, rs', hafter⟩ := (hmodels trees).serve horder order q
  refine ⟨hreply, _, pk, rs', rfl, horder, fun trees' => ?_⟩
  obtain ⟨⟨hcolumns, hothers, hstores⟩, hsame, hkey, hnames, htuples, hlast⟩ := hafter
  rw [hsame] at hcolumns hothers
  exact ⟨⟨hcolumns, hothers, hstores⟩, rfl, hkey, hnames, htuples, hlast⟩

/-- A statement on rows changes the files as it changes the databases. -/
theorem Holds.request (h : Holds s A) (hsound : Sound s) (hphantoms : NoPhantoms s)
    (hdb : s.currentDb = some db) (he : e.request = some (table, q))
    (hsafe : ∀ tables, A.tables db = some tables → tables table = none → (missing q).isSome) :
    Holds (execute stems s e).1 (A.request order table q).1 ∧
      ∀ x, (A.request order table q).2 = some x → message order stems s e = x := by
  obtain ⟨root, ts, tables, hroot, hwritten, hstored, htables, hlists, hsome⟩ :=
    h.here hsound hphantoms hdb
  rw [Databases.request, h.withDb hdb htables]
  cases hc : tables table with
  | none =>
      -- A table that is not listed is neither in memory nor on disk, since there are no phantoms.
      have hfind : s.find? db table = none := by
        rw [← Option.not_isSome_iff_eq_none, hsome, hc]
        exact Bool.false_ne_true
      have hfiles : s.files db table = none := by
        rw [← Option.not_isSome_iff_eq_none]
        intro hfiled
        have hnamed := (hlists.named table).mpr (hstored.files table hfiled)
        rw [hc] at hnamed
        cases hnamed
      obtain ⟨hsame, hmessage⟩ := execute_missing stems he hdb hfind hfiles
        (hsafe tables htables hc)
      rw [hsame]
      refine ⟨h, fun x hx => ?_⟩
      exact Option.some.inj (hmessage.symm.trans hx)
  | some c =>
      have hmem := (hlists.named table).mp (by rw [hc]; rfl)
      obtain ⟨t, ht, hname⟩ := List.mem_map.mp hmem
      subst hname
      obtain ⟨f, hfiles⟩ := Option.isSome_iff_exists.mp (hlists.filed t ht)
      have hfind := hstored.cached hdb t ht
      have hexists := (checkIfTableExist_written hroot hwritten t.name).trans
        (congrArg Except.ok (decide_eq_true hmem))
      obtain ⟨hmessage, hafter⟩ := execute_rows stems he hdb hfind hexists hfiles
      have hrows := execute_rowsOnly stems he hdb
      have htable : s.table db t.name f = ⟨t.rowColumns, f, s.dbBtrees db t.name⟩ := by
        rw [State.table, hfind]
        rfl
      have hunique : ∀ u ∈ ts, u.name = t.name → u = t := fun u hu heq =>
        List.inj_on_of_nodup_map hstored.names hu ht heq
      have hwrite : ∀ c', (∀ R, c' = .relation R → Kept (some (Table.serve order
            ⟨t.rowColumns, f, s.dbBtrees db t.name⟩ q).1.files) t.rowColumns R) →
          Holds (execute stems s e).1 (A.setTable db tables t.name (some c')) := by
        intro c' hkept
        rw [htable] at hafter
        have hmetadata : (execute stems s e).1.metadata =
            Function.update s.metadata db (some root) := by
          rw [hrows.metadata, ← hroot, Function.update_eq_self]
        refine h.setTable hdb (hrows.currentDb.trans hdb) hmetadata (fun d hd => ?_) hwritten
          (hlists.rows hafter (by rw [hc]; rfl) fun u hu heq R hR => ?_)
        · rw [hafter, setFiles_other hd]
        · rw [hunique u hu heq]
          exact hkept R hR
      cases c with
      | relation R =>
          have hkept := hlists.kept t ht R hc
          rw [hfiles] at hkept
          obtain ⟨hreply, hkept'⟩ := hkept.serve order (s.dbBtrees db t.name) q
          refine ⟨hwrite _ fun R' hR' => ?_, fun x hx => ?_⟩
          · rw [← Contents.relation.inj hR']
            exact hkept'
          · rw [hmessage, htable, hreply]
            exact Option.some.inj hx
      | unspecified =>
          have hsame : A.setTable db tables t.name (some .unspecified) = A := by
            rw [Databases.setTable, ← hc, Function.update_eq_self, ← htables,
              Function.update_eq_self]
          refine ⟨hsame ▸ hwrite _ (fun R hR => by cases hR), fun x hx => by cases hx⟩

/-! ### The start -/

/-- The vacuum of a table that keeps a relation returns, and keeps the relation. -/
theorem vacuumFiles_kept (hfind : s.find? db name = some entry)
    (hkept : Kept (s.files db name) (entry.columns.map ColumnNode.column) R) :
    Kept ((vacuumFiles db name s).1.files db name) (entry.columns.map ColumnNode.column)
      R.vacuum := by
  obtain ⟨f, pk, rs, hfiles, -⟩ := id hkept
  rw [hfiles] at hkept
  have hafter := (hkept.serve .reversed (s.dbBtrees db name) (.execute .vacuum)).2
  have htable : s.table db name f =
      ⟨entry.columns.map ColumnNode.column, f, s.dbBtrees db name⟩ := by
    rw [State.table, hfind]
    rfl
  simp only [vacuumFiles, hfiles, htable, setFiles_self]
  exact hafter

/-- The vacuum of a table leaves the files of the others. -/
theorem vacuumFiles_other (hne : ¬ (db = d ∧ name = n)) :
    (vacuumFiles db name s).1.files d n = s.files d n := by
  rw [vacuumFiles]
  cases s.files db name with
  | none => rfl
  | some f => exact setFiles_of_ne hne

/-- The vacuum of a table leaves the catalog. -/
theorem vacuumFiles_find? (db name : Text) (s : State) (d n : Text) :
    (vacuumFiles db name s).1.find? d n = s.find? d n := by
  obtain ⟨files, -, heq⟩ := vacuumFiles_cases db name s
  rw [heq]
  rfl

/-- A relation is vacuumed if its table is among those gone through; another vacuum of the table
changes nothing more. -/
theorem runVacuum_kept (l : List (Text × Text × TableEntry)) (hfind : s.find? d n = some entry)
    (hkept : Kept (s.files d n) (entry.columns.map ColumnNode.column) R)
    (hreturns : (runVacuum l s).2 = none) :
    Kept ((runVacuum l s).1.files d n) (entry.columns.map ColumnNode.column)
      (if (d, n) ∈ l.map fun x => (x.1, x.2.1) then R.vacuum else R) := by
  induction l generalizing s R with
  | nil => exact hkept
  | cons x l ih =>
      obtain ⟨db, name, first⟩ := x
      have hfind' := (vacuumFiles_find? db name s d n).trans hfind
      rw [runVacuum] at hreturns ⊢
      by_cases hhere : db = d ∧ name = n
      · obtain ⟨rfl, rfl⟩ := hhere
        have hkept' := vacuumFiles_kept hfind hkept
        generalize vacuumFiles db name s = o at hfind' hkept' hreturns
        obtain ⟨s1, f⟩ := o
        cases f with
        | some e => cases hreturns
        | none =>
            have hrest := ih hfind' hkept' hreturns
            have htwice : R.vacuum.vacuum = R.vacuum := rfl
            rw [htwice, ite_self] at hrest
            rw [List.map_cons, if_pos List.mem_cons_self]
            exact hrest
      · have hkept' := hkept
        rw [← vacuumFiles_other hhere] at hkept'
        generalize vacuumFiles db name s = o at hfind' hkept' hreturns
        obtain ⟨s1, f⟩ := o
        cases f with
        | some e => cases hreturns
        | none =>
            have hrest := ih hfind' hkept' hreturns
            have hne : (d, n) ≠ (db, name) := fun heq =>
              hhere ⟨(congrArg Prod.fst heq).symm, (congrArg Prod.snd heq).symm⟩
            simpa only [List.map_cons, List.mem_cons, hne, false_or] using hrest

/-- The files of a database of which no table is gone through stay. -/
theorem runVacuum_other {l : List (Text × Text × TableEntry)} (hl : ∀ x ∈ l, x.1 ≠ d) :
    (runVacuum l s).1.files d = s.files d := by
  induction l generalizing s with
  | nil => rfl
  | cons x l ih =>
      obtain ⟨db, name, first⟩ := x
      have hfirst : (vacuumFiles db name s).1.files d = s.files d := funext fun n =>
        vacuumFiles_other fun heq => hl _ List.mem_cons_self heq.1
      rw [runVacuum]
      generalize vacuumFiles db name s = o at hfirst
      obtain ⟨s1, f⟩ := o
      cases f with
      | some e => exact hfirst
      | none => exact (ih fun x hx => hl x (List.mem_cons_of_mem _ hx)).trans hfirst

/-- The tables of the current database, and only these, are vacuumed. -/
theorem Lists.vacuum (h : Lists s db ts tables) (hstored : Stored s db ts)
    (hdb : s.currentDb = some db) (hreturns : (runVacuum s.tables s).2 = none) :
    Lists (runVacuum s.tables s).1 db ts fun n => (tables n).map Contents.vacuum := by
  obtain ⟨files, hsame, heq⟩ := runVacuum_cases s.tables s
  refine ⟨fun n => ?_, fun t ht => ?_, fun t ht R' hR' => ?_⟩
  · rw [Option.isSome_map]
    exact h.named n
  · rw [heq]
    exact (hsame db t.name).trans (h.filed t ht)
  · obtain ⟨c, hc, hvacuum⟩ := Option.map_eq_some_iff.mp hR'
    cases c with
    | unspecified => cases hvacuum
    | relation R =>
        obtain rfl := Contents.relation.inj hvacuum
        have hcached := hstored.cached hdb t ht
        have hkept := runVacuum_kept s.tables hcached (h.kept t ht R hc) hreturns
        rwa [if_pos (List.mem_map.mpr ⟨_, mem_tables.mpr hcached, rfl⟩)] at hkept

/-- A vacuum of the loaded tables, which are those of the current database. -/
theorem Holds.vacuum (h : Holds s A) (hsound : Sound s) (hphantoms : NoPhantoms s)
    (hloaded : ∀ d n entry, s.find? d n = some entry → s.currentDb = some d)
    (hreturns : (runVacuum s.tables s).2 = none) : Holds (runVacuum s.tables s).1 A.vacuum := by
  obtain ⟨files, -, heq⟩ := runVacuum_cases s.tables s
  have hcurrent : (runVacuum s.tables s).1.currentDb = A.current := by
    rw [heq]
    exact h.current
  cases hdb : s.currentDb with
  | none =>
      have hempty : s.tables = [] := by
        refine List.eq_nil_iff_forall_not_mem.mpr fun x hx => ?_
        obtain ⟨d, n, entry⟩ := x
        cases hdb.symm.trans (hloaded d n entry (mem_tables.mp hx))
      have hnone : A.current = none := h.current.symm.trans hdb
      rw [hempty, runVacuum, Databases.vacuum, hnone]
      exact h
  | some db =>
      obtain ⟨root, ts, tables, hroot, hwritten, hstored, htables, hlists, -⟩ :=
        h.here hsound hphantoms hdb
      have hvacuum : A.vacuum = { A with
          tables := Function.update A.tables db
            (some fun n => (tables n).map Contents.vacuum) } := by
        rw [Databases.vacuum, h.current.symm.trans hdb]
        simp only [htables, Option.map_some]
      rw [hvacuum]
      refine h.write hcurrent (fun d hd => ⟨?_, ?_, Function.update_of_ne hd ..⟩) (by rw [heq, hroot])
        hwritten (Function.update_self ..) (hlists.vacuum hstored hdb hreturns)
      · rw [heq]
      · refine runVacuum_other fun x hx hother => hd ?_
        obtain ⟨d', n, entry⟩ := x
        exact (hother.symm.trans (Option.some.inj
          ((hloaded d' n entry (mem_tables.mp hx)).symm.trans hdb)))

/-- Once the current database has been loaded into an empty catalog, there is no other table. -/
theorem Sound.loaded_only (h : Sound s)
    (hfind : (initialDatabseLoad s.starting).1.find? d n = some entry) :
    s.currentDb = some d := by
  cases hdb : s.currentDb with
  | none =>
      have hnone : initialDatabseLoad s.starting = (s.starting, none) := by
        have hstarting : s.starting.currentDb = none := hdb
        rw [initialDatabseLoad, hstarting]
      rw [hnone] at hfind
      cases hfind
  | some db =>
      obtain ⟨root, hroot⟩ := Option.isSome_iff_exists.mp (h.current db hdb)
      obtain ⟨ts, hwritten, hstored⟩ := h.stored db root hroot
      rw [initialDatabseLoad_eq (s := s.starting) hdb hroot hwritten hstored.fits] at hfind
      exact congrArg some (of_find?_loaded rfl hstored.names hfind).1.symm

/-- A start that returns has loaded the database, vacuumed it if it does, and loaded the trees. -/
theorem restart_returned {vacuums : Bool} (hreturns : (Catalog.restart vacuums s).2 = none) :
    ∃ s1 s2 b, initialDatabseLoad s.starting = (s1, none) ∧
      (if vacuums then runVacuum s1.tables s1 else (s1, none)) = (s2, none) ∧
      (Catalog.restart vacuums s).1 = { s2 with dbBtrees := b } := by
  rw [Catalog.restart] at hreturns ⊢
  generalize initialDatabseLoad s.starting = loaded at hreturns
  obtain ⟨s1, f⟩ := loaded
  cases f with
  | some e => cases hreturns
  | none =>
      dsimp only at hreturns ⊢
      generalize hvacuumed : (if vacuums then runVacuum s1.tables s1 else (s1, none)) = vacuumed
        at hreturns
      obtain ⟨s2, f⟩ := vacuumed
      cases f with
      | some e => cases hreturns
      | none =>
          obtain ⟨b, hb⟩ := initializeTables_trees s2.tables s2
          dsimp only at hreturns ⊢
          generalize initializeTables s2.tables s2 = started at hb hreturns
          obtain ⟨s3, f⟩ := started
          cases f with
          | some e => cases hreturns
          | none => exact ⟨s1, s2, b, rfl, hvacuumed, hb⟩

/-- A restart that returns changes nothing but what its vacuum does. -/
theorem Holds.restart {vacuums : Bool} (h : Holds s A) (hsound : Sound s)
    (hreturns : (Catalog.restart vacuums s).2 = none) :
    Holds (Catalog.restart vacuums s).1 (if vacuums then A.vacuum else A) := by
  obtain ⟨s1, s2, b, hload, hvacuum, heq⟩ := restart_returned hreturns
  obtain ⟨hmetadata, hfiles, hcurrent⟩ := hsound.load_frame s.starting rfl hsound.current
  have hsound1 := hsound.starting.1
  have hphantoms1 := NoPhantoms.load hsound s.starting rfl rfl hsound.current
  have honly : ∀ d n entry, (initialDatabseLoad s.starting).1.find? d n = some entry →
      (initialDatabseLoad s.starting).1.currentDb = some d :=
    fun d n entry hfind => hcurrent.trans (hsound.loaded_only hfind)
  rw [hload] at hmetadata hfiles hcurrent hsound1 hphantoms1 honly
  have hholds : Holds s1 A := h.congr hmetadata hfiles (hcurrent.trans h.current) rfl
  rw [heq]
  cases vacuums with
  | false =>
      obtain rfl : s1 = s2 := congrArg Prod.fst hvacuum
      exact hholds.congr rfl rfl hholds.current rfl
  | true =>
      have hvacuum : runVacuum s1.tables s1 = (s2, none) := hvacuum
      have hafter := hholds.vacuum hsound1 hphantoms1 honly (by rw [hvacuum])
      rw [hvacuum] at hafter
      exact hafter.congr rfl rfl hafter.current rfl

/-! ### Runs -/

theorem message_returned (h : s.currentDb = none ∨ e.request = none) :
    message order stems s e = .returned (execute stems s e).2.isNone := by
  rcases h with hdb | hnone
  · simp only [message, hdb]
  · cases e with
    | insert table stmt => cases hnone
    | select table whereClause => cases hnone
    | update table assignments whereClause => cases hnone
    | delete table whereClause => cases hnone
    | _ => cases hdb : s.currentDb <;> simp only [message, hdb]

/-- What is safe for the databases is safe for the catalog. -/
theorem Holds.catalogSafe (h : Holds s A) (hsound : Sound s) (hphantoms : NoPhantoms s)
    (hsafe : A.Safe e) : CatalogSafe s e := by
  refine ⟨hsafe.1, fun db hdb => ?_⟩
  obtain ⟨root, ts, tables, -, -, -, htables, -, hsome⟩ := h.here hsound hphantoms hdb
  have hhere := hsafe.2 db tables (h.current.symm.trans hdb) htables
  cases e with
  | select table whereClause => exact (hsome table).trans hhere
  | update table assignments whereClause => exact (hsome table).trans hhere
  | createHft name columns symbol top =>
      intro hnone
      refine hhere (Option.not_isSome_iff_eq_none.mp ?_)
      rw [← hsome, hnone]
      exact Bool.false_ne_true
  | _ => trivial

/-- A statement on rows finds its table, or is an INSERT or a DELETE. -/
theorem Databases.Safe.missing (h : A.Safe e) (he : e.request = some (table, q))
    (hcurrent : A.current = some db) (htables : A.tables db = some tables)
    (hnone : tables table = none) : (Catalog.missing q).isSome := by
  have hhere := h.2 db tables hcurrent htables
  rcases Event.request_cases he with ⟨stmt, rfl, rfl⟩ | ⟨whereClause, rfl, rfl⟩ |
    ⟨assignments, whereClause, rfl, rfl⟩ | ⟨whereClause, rfl, rfl⟩
  · rfl
  · have hhere : (tables table).isSome := hhere
    rw [hnone] at hhere
    cases hhere
  · have hhere : (tables table).isSome := hhere
    rw [hnone] at hhere
    cases hhere
  · rfl

/-- The statements that need a database. -/
def Event.needsDb : Event → Bool
  | .createDatabase _ | .use _ | .restart _ => false
  | .addIndicator _ | .enableStrategy _ | .packet _ => false
  | _ => true

/-- They are refused when none has been chosen. -/
theorem Holds.refused (h : Holds s A) (hdb : s.currentDb = none) (he : e.needsDb = true) :
    Holds (execute stems s e).1 (A.serve order e).1 ∧
      ∀ x, (A.serve order e).2 = some x → message order stems s e = x := by
  have hcurrent : A.current = none := h.current.symm.trans hdb
  have hserve : A.serve order e = (A, some (.returned false)) := by
    cases e <;> first
      | exact absurd he Bool.false_ne_true
      | simp only [Databases.serve, Databases.create, Databases.request, Databases.withDb, hcurrent]
  have hrefused : execute stems s e =
      (s, some (.error "No database selected. Use USE <db_name>;".toList)) := by
    cases e <;> first
      | exact absurd he Bool.false_ne_true
      | simp only [execute, State.withDb, hdb]
  rw [hserve, message_returned (.inl hdb), hrefused]
  exact ⟨h, fun x hx => Option.some.inj hx⟩

/-- CREATE TABLE adds an empty relation. -/
theorem Holds.createTable (h : Holds s A) (hsound : Sound s) (hphantoms : NoPhantoms s)
    (hdb : s.currentDb = some db) (name : Text) (specs : List TableColumnSpec) :
    Holds (execute stems s (.createTable name specs)).1 (A.serve order (.createTable name specs)).1 ∧
      ∀ x, (A.serve order (.createTable name specs)).2 = some x →
        message order stems s (.createTable name specs) = x := by
  rw [message_returned (.inr rfl), execute, State.withDb, hdb, Databases.serve]
  dsimp only
  rcases createTable_adds hsound hdb name specs with
    ⟨s', e, hrefused, heq, hsame⟩ | ⟨t, root', b, f, hadds, hcolumns, heq⟩
  · have hrefused : (s.find? db name).isSome ∨
        ∃ e, (columnsOf specs).map Contents.ofColumns = .error e := by
      rcases hrefused with htaken | ⟨e, he⟩
      · exact .inl htaken
      · exact .inr ⟨e, by rw [he]; rfl⟩
    rw [h.create_refused hsound hphantoms hdb hrefused, heq]
    exact ⟨h.unchanged hsame, fun x hx => Option.some.inj hx⟩
  · have hcontents : (columnsOf specs).map Contents.ofColumns = .ok (.ofColumns t.rowColumns) := by
      rw [hcolumns]
      rfl
    obtain ⟨hholds, hanswer⟩ :=
      h.create hsound hphantoms hdb hadds (fun R hR => kept_ofColumns hR) none
    rw [hcontents, heq, hanswer]
    exact ⟨hholds.congr rfl rfl hholds.current rfl, fun x hx => by cases hx⟩

/-- So does the statement for a high-frequency table, whose rows are not told. -/
theorem Holds.createHft (h : Holds s A) (hsound : Sound s) (hphantoms : NoPhantoms s)
    (hdb : s.currentDb = some db) {columns : List ColumnDefinition} {symbol : Int} {top : Bool}
    (hsafe : CatalogSafe s (.createHft name columns symbol top)) :
    Holds (execute stems s (.createHft name columns symbol top)).1
        (A.serve order (.createHft name columns symbol top)).1 ∧
      ∀ x, (A.serve order (.createHft name columns symbol top)).2 = some x →
        message order stems s (.createHft name columns symbol top) = x := by
  rw [message_returned (.inr rfl), execute, State.withDb, hdb, Databases.serve]
  dsimp only
  rcases createHft_cases hsound hdb name columns symbol top with
    ⟨s', e, htaken, heq, hsame⟩ | ⟨root', hadds, ⟨hwide, -⟩ | ⟨-, heq⟩⟩
  · rw [h.create_refused hsound hphantoms hdb (.inl htaken), heq]
    exact ⟨h.unchanged hsame, fun x hx => Option.some.inj hx⟩
  · exact absurd (hsafe.2 db hdb hadds.fresh) hwide
  · obtain ⟨hholds, hanswer⟩ := h.create hsound hphantoms hdb hadds
      (c := .unspecified) (fun R hR => by cases hR) (some (.returned true))
    rw [heq, hanswer]
    exact ⟨hholds.congr rfl rfl hholds.current rfl, fun x hx => Option.some.inj hx⟩

/-- A statement with a current database. -/
theorem Holds.chosen (h : Holds s A) (hsound : Sound s) (hphantoms : NoPhantoms s)
    (hsafe : A.Safe e) (hdb : s.currentDb = some db) (he : e.needsDb = true) :
    Holds (execute stems s e).1 (A.serve order e).1 ∧
      ∀ x, (A.serve order e).2 = some x → message order stems s e = x := by
  have hmissing : ∀ {table q}, e.request = some (table, q) →
      ∀ tables, A.tables db = some tables → tables table = none → (missing q).isSome :=
    fun hrequest tables htables => hsafe.missing hrequest (h.current.symm.trans hdb) htables
  cases e with
  | createTable name specs => exact h.createTable hsound hphantoms hdb name specs
  | createHft name columns symbol top =>
      exact h.createHft hsound hphantoms hdb (h.catalogSafe hsound hphantoms hsafe)
  | dropTable name =>
      obtain ⟨hholds, hanswer⟩ := h.dropTable hsound hphantoms hdb name
      rw [hanswer, message_returned (.inr rfl), execute, State.withDb, hdb]
      exact ⟨hholds, fun x hx => Option.some.inj hx⟩
  | dropDatabase name =>
      obtain ⟨hholds, hanswer⟩ := h.dropDatabase name hdb
      rw [hanswer, message_returned (.inr rfl), execute, State.withDb, hdb]
      exact ⟨hholds, fun x hx => Option.some.inj hx⟩
  | insert table stmt => exact h.request hsound hphantoms hdb rfl (hmissing rfl)
  | select table whereClause => exact h.request hsound hphantoms hdb rfl (hmissing rfl)
  | update table assignments whereClause =>
      exact h.request hsound hphantoms hdb rfl (hmissing rfl)
  | delete table whereClause => exact h.request hsound hphantoms hdb rfl (hmissing rfl)
  | _ => cases he

/-- The program does to the files what the databases do, and answers what they answer. -/
theorem Holds.step (h : Holds s A) (hsound : Sound s) (hphantoms : NoPhantoms s)
    (hsafe : A.Safe e) (hlives : ended s e = false) :
    Holds (execute stems s e).1 (A.serve order e).1 ∧
      ∀ x, (A.serve order e).2 = some x → message order stems s e = x := by
  cases hneeds : e.needsDb with
  | true =>
      cases hdb : s.currentDb with
      | none => exact h.refused hdb hneeds
      | some db => exact h.chosen hsound hphantoms hsafe hdb hneeds
  | false =>
      cases e with
      | createDatabase name =>
          obtain ⟨hholds, hanswer⟩ := h.createDatabase name
          rw [hanswer, message_returned (.inr rfl)]
          exact ⟨hholds, fun x hx => Option.some.inj hx⟩
      | use name =>
          obtain ⟨hholds, hanswer⟩ := h.use hsound name
          rw [hanswer, message_returned (.inr rfl)]
          exact ⟨hholds, fun x hx => Option.some.inj hx⟩
      | restart vacuums =>
          have hreturns : (Catalog.restart vacuums s).2 = none := by
            rw [← Option.not_isSome_iff_eq_none, Bool.not_eq_true]
            exact hlives
          rw [message_returned (.inr rfl), execute, Databases.serve, hreturns]
          exact ⟨h.restart hsound hreturns, fun x hx => Option.some.inj hx⟩
      | addIndicator stmt => cases hsafe.1
      | enableStrategy stmt => cases hsafe.1
      | packet p => cases hsafe.1
      | _ => cases hneeds

/-- Whatever databases, tables and rows are created, changed and dropped, by statements that
succeed or fail and across restarts, the program answers what the databases answer. -/
theorem databases_run (stems : Stems) (order : HashOrder) (es : List Event)
    (h : Databases.AllSafe order {} es) :
    Foretold (Databases.messages order {} es) (messages order stems {} es) := by
  suffices ∀ s A, Sound s → NoPhantoms s → Holds s A → A.AllSafe order es →
      Foretold (A.messages order es) (messages order stems s es) from
    this _ _ .init (fun db root ts hdb => by cases hdb) .init h
  clear h
  induction es with
  | nil => exact fun _ _ _ _ _ _ => trivial
  | cons e es ih =>
      intro s A hsound hphantoms hholds hsafe
      rw [messages]
      split
      · cases A.messages order (e :: es) <;> trivial
      · next hlives =>
          have hcatalog := hholds.catalogSafe hsound hphantoms hsafe.1
          obtain ⟨hafter, hanswer⟩ := hholds.step hsound hphantoms hsafe.1
            (Bool.not_eq_true _ ▸ hlives)
          exact ⟨hanswer, ih _ _ (hsound.step (hcatalog.ends hsound))
            (hphantoms.step hsound hcatalog) hafter hsafe.2⟩

/-- A row is inserted, another database chosen, and the row is found again after a restart. The
last row is deleted, and once a start has vacuumed the table its id is given again. -/
def comingBack : List Event :=
  [.createDatabase ['d'], .createTable ['t'] twoColumns, .insert ['t'] ⟨[['v']], [['a']]⟩,
    .createDatabase ['e'], .delete ['t'] none, .use ['d'], .restart false, .select ['t'] none,
    .delete ['t'] none, .restart true, .insert ['t'] ⟨[['v']], [['b']]⟩, .select ['t'] none]

theorem comingBack_safe : Databases.AllSafe .reversed {} comingBack := by
  refine ⟨⟨rfl, ?_⟩, ⟨rfl, ?_⟩, ⟨rfl, ?_⟩, ⟨rfl, ?_⟩, ⟨rfl, ?_⟩, ⟨rfl, ?_⟩, ⟨rfl, ?_⟩,
    ⟨rfl, ?_⟩, ⟨rfl, ?_⟩, ⟨rfl, ?_⟩, ⟨rfl, ?_⟩, ⟨rfl, ?_⟩, trivial⟩
  case' refine_8 | refine_12 =>
    rintro db tables ⟨⟩ ⟨⟩
    rfl
  all_goals exact fun _ _ _ _ => trivial

theorem databases_run_comingBack : Foretold
    [some (.returned true), none, some (.reply (.inserted true)), some (.returned true),
      some (.reply (.done (some (.runtimeError "Failed to open data file".toList)))),
      some (.returned true), some (.returned true),
      some (.reply (.rows (.ok "[\x7b\"v\":\"a\",\"id\":\"1\"\x7d]".toList))),
      some (.reply (.done none)), some (.returned true), some (.reply (.inserted true)),
      some (.reply (.rows (.ok "[\x7b\"v\":\"b\",\"id\":\"1\"\x7d]".toList)))]
    (messages .reversed noStems {} comingBack) :=
  databases_run noStems .reversed comingBack comingBack_safe

end NanoVault.Catalog
