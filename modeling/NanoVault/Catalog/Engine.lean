/-
The statements and what they do to the catalog (`SQL_PARSER.hpp`, `generator.hpp`,
`initialLoad.hpp`, `selectAstEvaluator.hpp`).

What the program knows of its tables is kept in four places: the metadata file of the
database, `globalTableCache`, the trees and the slots of the HFT tables. A statement changes
them one after the other and can throw in between; it then leaves what it has changed so far.
Every statement is parsed by a new parser, which reads the current database from its file, so
that `currentDatabase` and `currentDb` are the same.
-/
import NanoVault.Lib.Machine
import NanoVault.Catalog.Metadata
import NanoVault.Hft.Dispatch
import NanoVault.Table.Reload

namespace NanoVault.Catalog

open Lib NanoVault.Table NanoVault.Hft

/-- A map from names. The `unordered_map`s of the program are gone through here in the order of the
names. -/
abbrev Dict (V : Type) := SortedMap (fun a b : Text => a < b) V

/-- A table in `globalTableCache`: the number its string is the text of, `none` for the empty
string, and the columns. -/
structure TableEntry where
  symbol : Option Int := none
  columns : List ColumnNode := []
deriving DecidableEq, Repr

/-- The state of the program and of its files. `currentDb` is `none` for the empty string,
`metadata` has the object in the metadata file of a database, `files` the files of a table. -/
structure State where
  currentDb : Option Text := none
  metadata : Text → Option JSONValue := fun _ => none
  files : Text → Text → Option Files := fun _ _ => none
  globalTableCache : Dict (Dict TableEntry) := SortedMap.empty
  dbBtrees : Text → Text → Text → Option Tree := fun _ _ _ => none
  symbolAccessArray : SymbolAccessArray := fun _ => {}
  pools : Pools := {}

/-- The state behind a call, and how the call ended if it did not return. -/
abbrev Outcome := State × Option Failure

/-! ### The catalog -/

def State.find? (s : State) (db table : Text) : Option TableEntry :=
  (s.globalTableCache.find? db).bind fun tables => tables.find? table

/-- `globalTableCache[db]`, which inserts an empty map where there is none. -/
def State.touchDb (s : State) (db : Text) : State :=
  { s with
    globalTableCache :=
      s.globalTableCache.insert db ((s.globalTableCache.find? db).getD SortedMap.empty) }

/-- `globalTableCache[db][table] = entry`. -/
def State.setEntry (s : State) (db table : Text) (entry : TableEntry) : State :=
  { s with
    globalTableCache := s.globalTableCache.insert db
      (((s.globalTableCache.find? db).getD SortedMap.empty).insert table entry) }

/-- `globalTableCache[db].erase(table)`. -/
def State.eraseEntry (s : State) (db table : Text) : State :=
  { s with
    globalTableCache := s.globalTableCache.insert db
      (((s.globalTableCache.find? db).getD SortedMap.empty).erase table) }

/-- `globalTableCache[db][table]`, which inserts an empty entry where there is none. -/
def State.touch (s : State) (db table : Text) : State :=
  s.setEntry db table ((s.find? db table).getD {})

/-- A column as the statements on rows know it. -/
def ColumnNode.column (node : ColumnNode) : Column where
  name := node.name
  type := if node.type = "int".toList then .int else .varchar
  isPrimary := node.isPrimary
  isUnique := node.isUnique

/-- The table the statements on rows work on. -/
def State.table (s : State) (db table : Text) (files : Files) : TableState where
  columns := (((s.find? db table).getD {}).columns).map ColumnNode.column
  files := files
  trees := s.dbBtrees db table

def setTrees (dbBtrees : Text → Text → Text → Option Tree) (db table : Text)
    (trees : Text → Option Tree) : Text → Text → Text → Option Tree :=
  Function.update dbBtrees db (Function.update (dbBtrees db) table trees)

def setFiles (files : Text → Text → Option Files) (db table : Text) (f : Option Files) :
    Text → Text → Option Files :=
  Function.update files db (Function.update (files db) table f)

/-- The table behind a statement on its rows. -/
def State.setTable (s : State) (db table : Text) (t : TableState) : State :=
  { s with
    files := setFiles s.files db table (some t.files)
    dbBtrees := setTrees s.dbBtrees db table t.trees }

/-! ### Loading a database -/

/-- A table as `initialDatabseLoad` reads it. -/
structure LoadedTable where
  name : Text
  symbol : Int
  isTop : Bool
  columns : List ColumnNode
deriving DecidableEq, Repr

/-- `std::to_string(n)[0] == '1'`. -/
def startsWithOne (n : Int) : Bool := 0 < n && (digits n.toNat).head? = some '1'

/-- What `initialDatabseLoad` reads of a table. -/
def readTable (table : JSONValue) : Except Fault LoadedTable := do
  let name ← table.get "name".toList
  let symbol ← table.get "symbol".toList
  let top ← table.get "top".toList
  let columns ← (← table.get "columns".toList).asArray
  let nodes ← columns.mapM loadColumn
  return {
    name := name.getString
    symbol := symbol.getInt
    isTop := startsWithOne top.getInt
    columns := nodes }

/-- `init` of the slot of a symbol; without a slot, or without room for the columns, it writes
behind an array. -/
def initSlot (slots : SymbolAccessArray) (symbol : Int) (precisions : List Int) (isBook : Bool) :
    Option SymbolAccessArray :=
  match place symbol with
  | none => none
  | some i =>
      if maxColumn < precisions.length then none
      else some (Function.update slots i ((slots i).init precisions isBook symbol))

/-- The end of a round of `initialDatabseLoad`: the table is put into the catalog, and an HFT
table into its slot. The trees have been made while the columns were read. -/
def loadTable (db : Text) (t : LoadedTable) (s : State) : Option State :=
  let s := { s.setEntry db t.name ⟨some t.symbol, t.columns⟩ with
    dbBtrees := setTrees s.dbBtrees db t.name
      (t.columns.foldl (fun trees node =>
        if node.isPrimary || node.isUnique then
          Function.update trees node.name (some (.int fun _ => none))
        else trees) (s.dbBtrees db t.name)) }
  if t.symbol = -1 then some s
  else
    (initSlot s.symbolAccessArray t.symbol (t.columns.map ColumnNode.precision) t.isTop).map
      fun slots => { s with symbolAccessArray := slots }

/-- The loop of `initialDatabseLoad`. An exception ends it and is caught. -/
def loadTables (db : Text) : List JSONValue → State → Outcome
  | [], s => (s, none)
  | table :: tables, s =>
      match readTable table with
      | .error _ => (s, none)
      | .ok t =>
          match loadTable db t s with
          | none => (s, some .outOfBounds)
          | some s => loadTables db tables s

def initialDatabseLoad (s : State) : Outcome :=
  match s.currentDb with
  | none => (s, none)
  | some db =>
      match s.metadata db with
      | none => (s, none)
      | some root =>
          match (root.get "tables".toList).bind JSONValue.asArray with
          | .error _ => (s, none)
          | .ok tables => loadTables db tables s

/-- `initializePrimaryIndexBtrees` on one table. -/
def initializeTable (db name : Text) (entry : TableEntry) (s : State) : Outcome :=
  match s.files db name with
  | none => (s, some (.error "the table does not exist".toList))
  | some f =>
      match initializePrimaryIndexBtrees (entry.columns.map ColumnNode.column) f
          (s.dbBtrees db name) with
      | .error e => (s, some (.thrown e))
      | .ok trees => ({ s with dbBtrees := setTrees s.dbBtrees db name trees }, none)

/-- The loop of `initializePrimaryIndexBtrees` over the tables of all databases; HFT tables, and
entries without a symbol, are left out. -/
def initializeTables : List (Text × Text × TableEntry) → State → Outcome
  | [], s => (s, none)
  | (db, name, entry) :: rest, s =>
      if entry.symbol ≠ some (-1) then initializeTables rest s
      else
        match initializeTable db name entry s with
        | (s, none) => initializeTables rest s
        | (s, some e) => (s, some e)

/-- The tables in `globalTableCache`, in the order of their names. -/
def State.tables (s : State) : List (Text × Text × TableEntry) :=
  s.globalTableCache.entries.flatMap fun d => d.2.entries.map fun t => (d.1, t.1, t.2)

/-- `vacuumTable` on the files of a table, if they are there. -/
def vacuumFiles (db name : Text) (s : State) : Outcome :=
  match s.files db name with
  | none => (s, none)
  | some f =>
      let r := vacuumTable (s.table db name f)
      ({ s with files := setFiles s.files db name (some r.1.files) }, r.2.map Failure.thrown)

/-- `runVacuum` over the tables of all databases. -/
def runVacuum : List (Text × Text × TableEntry) → State → Outcome
  | [], s => (s, none)
  | (db, name, _) :: rest, s =>
      match vacuumFiles db name s with
      | (s, none) => runVacuum rest s
      | (s, some e) => (s, some e)

/-! ### CREATE -/

/-- `CreateStatement` of a table. -/
structure CreateStatement where
  name : Text
  symbol : Int := -1
  top : Bool := false
  columns : List ColumnDefinition
deriving DecidableEq, Repr

/-- The root object of a metadata file with another table in it. -/
def appendTable (root tableJson : JSONValue) : Except Fault JSONValue :=
  match root with
  | .object fields =>
      match fields.lookup "tables".toList with
      | some (.array tables) =>
          return .object (JSONValue.assign fields "tables".toList (.array (tables ++ [tableJson])))
      | _ => return .object (JSONValue.assign fields "tables".toList (.array [tableJson]))
  | _ => throw (.runtimeError "Root of DB JSON must be an object".toList)

/-- The exception of a metadata file that cannot be read. -/
def loadFailure (db : Text) : Failure :=
  .error (" Failed to load DB file: ./db/".toList ++ db ++ ".shivam.db".toList)

/-- What CREATE TABLE and CREATE HFT TABLE do once they have made the columns: the table is
written into the metadata file, put into the catalog and given its files, and what has been
handed to this follows. -/
def addTable (stmt : CreateStatement) (top : JSONValue) (columns : List (ColumnNode × JSONValue))
    (db : Text) (s : State) (next : State → Outcome) : Outcome :=
  let s := s.touchDb db
  if (s.find? db stmt.name).isSome then
    (s, some (.error (" Table '".toList ++ stmt.name ++ "' already exists in DB '".toList ++ db ++
      "'".toList)))
  else
    match s.metadata db with
    | none => (s, some (loadFailure db))
    | some root =>
        let tableJson := JSONValue.object [("name".toList, .string stmt.name),
          ("symbol".toList, .int stmt.symbol), ("top".toList, top),
          ("columns".toList, .array (columns.map Prod.snd))]
        match appendTable root tableJson with
        | .error e => (s, some (.thrown e))
        | .ok root =>
            next
              { s.setEntry db stmt.name ⟨some stmt.symbol, columns.map Prod.fst⟩ with
                metadata := Function.update s.metadata db (some root)
                files := setFiles s.files db stmt.name (some {}) }

def generateCreateTableStatement (stmt : CreateStatement) (db : Text) (s : State) : Outcome :=
  match stmt.columns.mapM createColumn with
  | .error e => (s, some (.thrown e))
  | .ok columns =>
      addTable stmt (.bool stmt.top) columns db s fun s =>
        initializeTables (s.tables.filter fun t => t.2.1 = stmt.name) s

def generateHFTCreateStatement (stmt : CreateStatement) (db : Text) (s : State) : Outcome :=
  addTable stmt (.int (if stmt.top then 1 else 0)) (stmt.columns.map createHftColumn) db s fun s =>
    match initSlot s.symbolAccessArray stmt.symbol (stmt.columns.map ColumnDefinition.precision)
        stmt.top with
    | none => (s, some .outOfBounds)
    | some slots => ({ s with symbolAccessArray := slots }, none)

/-- CREATE DATABASE in `parseCreateStatement`. -/
def createDatabase (name : Text) (s : State) : Outcome :=
  if (s.metadata name).isSome then (s, some (.error "Database already exists".toList))
  else
    ({ s with
        metadata := Function.update s.metadata name
          (some (.object [("name".toList, .string name), ("tables".toList, .array [])]))
        currentDb := some name }, none)

/-! ### USE and DROP -/

/-- The state USE loads the database into. -/
def State.opening (s : State) (name : Text) : State :=
  { s with
    globalTableCache := SortedMap.empty
    dbBtrees := fun _ _ _ => none
    currentDb := some name }

def parseUseStatement (name : Text) (s : State) : Outcome :=
  if (s.metadata name).isNone then
    (s, some (.error ("Database does not exist: ".toList ++ name)))
  else initialDatabseLoad (s.opening name)

/-- `std::get` of another alternative. -/
def badVariantAccess : Failure := .error "std::get: wrong index for variant".toList

/-- The tables without the first one of this name. -/
def removeTable (name : Text) : List JSONValue → Option (List JSONValue)
  | [] => some []
  | table :: tables =>
      match table with
      | .object fields =>
          match fields.lookup "name".toList with
          | some (.string tblName) =>
              if tblName = name then some tables else (removeTable name tables).map (table :: ·)
          | _ => none
      | _ => none

/-- DROP TABLE in `generateDropStatement`. -/
def dropTable (name db : Text) (s : State) : Outcome :=
  if (s.globalTableCache.find? db).isNone then
    (s, some (.error ("Database not found: ".toList ++ db)))
  else if (s.find? db name).isNone then
    (s, some (.error ("Table '".toList ++ name ++ "' does not exist".toList)))
  else
    let s := { s.eraseEntry db name with files := setFiles s.files db name none }
    match s.metadata db with
    | none => (s, some (.error ("Failed to load DB file: ./db/".toList ++ db ++ ".shivam.db".toList)))
    | some (.object fields) =>
        match fields.lookup "tables".toList with
        | none => (s, none)
        | some (.array tables) =>
            match removeTable name tables with
            | none => (s, some badVariantAccess)
            | some tables =>
                let root := JSONValue.object
                  (JSONValue.assign fields "tables".toList (.array tables))
                ({ s with metadata := Function.update s.metadata db (some root) }, none)
        | _ => (s, some badVariantAccess)
    | _ => (s, some badVariantAccess)

/-- DROP DATABASE in `generateDropStatement` and `parseDropStatement`. -/
def dropDatabase (name : Text) (s : State) : Outcome :=
  if (s.metadata name).isNone then
    (s, some (.error ("Database '".toList ++ name ++ "' does not exist.".toList)))
  else
    ({ s with
        files := Function.update s.files name fun _ => none
        metadata := Function.update s.metadata name none
        globalTableCache := SortedMap.empty
        dbBtrees := fun _ _ _ => none
        currentDb := none }, none)

/-! ### Statements on rows -/

/-- The loop of `checkIfTableExist`. -/
def hasTable (table : Text) : List JSONValue → Except Fault Bool
  | [] => return false
  | t :: tables => do
      match ← t.get "name".toList with
      | .string name => if name = table then return true else hasTable table tables
      | _ => throw (.runtimeError "Cannot convert to string".toList)

/-- `checkIfTableExist`: the table is in the metadata file. -/
def checkIfTableExist (s : State) (db table : Text) : Except Fault Bool :=
  match s.metadata db with
  | none => return false
  | some root => do hasTable table (← (← root.get "tables".toList).asArray)

/-- `parseInsertStatement` and `generateInsertTableStatement`. -/
def insertRows (table : Text) (stmt : InsertStatement) (db : Text) (s : State) : Outcome :=
  match checkIfTableExist s db table with
  | .error e => (s, some (.thrown e))
  | .ok false => (s, some (.error ("the table name ".toList ++ table ++ " not exist".toList)))
  | .ok true =>
      if (s.globalTableCache.find? db).isNone then
        (s, some (.error ("Database not found: ".toList ++ db ++ ['\n'])))
      else if (s.find? db table).isNone then
        (s, some (.error ("Table not found: ".toList ++ table ++ ['\n'])))
      else
        match generateInsert stmt (s.table db table ((s.files db table).getD {})) with
        | .error e => (s, some (.thrown e))
        | .ok t =>
            if (s.files db table).isNone then
              (s, some (.error ("Table ".toList ++ table ++
                " does not exist. Create it first.".toList)))
            else (s.setTable db table t, none)

/-- `SelectQueryHandler::handle`, with the rows it finds. -/
def selectRows (table : Text) (whereClause : Option Expression) (db : Text) (s : State) :
    State × Except Failure (List Row) :=
  let s := s.touch db table
  match s.files db table with
  | none => (s, .error (.error "Failed to read primary key  from index file".toList))
  | some f =>
      match select whereClause (s.table db table f) with
      | .error e => (s, .error (.thrown e))
      | .ok rows => (s, .ok rows)

/-- `handleUpdate`. -/
def updateRows (table : Text) (assignments : List (Text × Text)) (whereClause : Option Expression)
    (db : Text) (s : State) : Outcome :=
  let s := s.touch db table
  match s.files db table with
  | none =>
      if assignments.any fun a => a.1 = firstPrimary (s.table db table {}).columns then
        (s, some (.error "UPDATE of PRIMARY KEY is not allowed".toList))
      else (s, some (.error "Failed to open table files".toList))
  | some f =>
      let r := handleUpdate assignments whereClause (s.table db table f)
      (s.setTable db table r.1, r.2.map Failure.thrown)

/-- `handleDelete`. -/
def deleteRows (table : Text) (whereClause : Option Expression) (db : Text) (s : State) :
    Outcome :=
  match s.files db table with
  | none => (s, some (.error "Failed to open data file".toList))
  | some f =>
      let s := s.touch db table
      let r := handleDelete whereClause (s.table db table f)
      (s.setTable db table r.1, r.2.map Failure.thrown)

/-! ### Runs -/

/-- A column of CREATE TABLE: its name, type and constraints. -/
structure TableColumnSpec where
  name : Text
  type : Text
  constraints : List ColumnConstraint := []
deriving DecidableEq, Repr

/-- The `ColumnDefinition` the parser makes of it. -/
def TableColumnSpec.definition (c : TableColumnSpec) : ColumnDefinition where
  name := c.name
  type := c.type
  constraints := c.constraints

/-- The statements of clients, packets, and a restart, with or without a vacuum. -/
inductive Event where
  | createDatabase (name : Text)
  | use (name : Text)
  | createTable (name : Text) (columns : List TableColumnSpec)
  | createHft (name : Text) (columns : List ColumnDefinition) (symbol : Int) (top : Bool)
  | dropTable (name : Text)
  | dropDatabase (name : Text)
  | insert (table : Text) (stmt : InsertStatement)
  | select (table : Text) (whereClause : Option Expression)
  | update (table : Text) (assignments : List (Text × Text)) (whereClause : Option Expression)
  | delete (table : Text) (whereClause : Option Expression)
  | addIndicator (stmt : AddIndicatorStatement)
  | enableStrategy (stmt : AddStrategyStatement)
  | packet (p : Packet)
  | restart (vacuums : Bool)

/-- A statement that needs a database. -/
def State.withDb (s : State) (statement : Text → State → Outcome) : Outcome :=
  match s.currentDb with
  | none => (s, some (.error "No database selected. Use USE <db_name>;".toList))
  | some db => statement db s

def State.starting (s : State) : State :=
  { currentDb := s.currentDb, metadata := s.metadata, files := s.files }

/-- The start of a new process; what it throws ends the process. The network server and
`NanoVaultDB` vacuum the tables they have loaded, and `main` does not. -/
def restart (vacuums : Bool) (s : State) : Outcome :=
  match initialDatabseLoad s.starting with
  | (s, some e) => (s, some e)
  | (s, none) =>
      match if vacuums then runVacuum s.tables s else (s, none) with
      | (s, some _) => (s, some .aborted)
      | (s, none) =>
          match initializeTables s.tables s with
          | (s, none) => (s, none)
          | (s, some _) => (s, some .aborted)

/-- The state behind an event, and how it ended if it did not return. -/
def execute (stems : Stems) (s : State) : Event → Outcome
  | .createDatabase name => createDatabase name s
  | .use name => parseUseStatement name s
  | .createTable name columns =>
      s.withDb (generateCreateTableStatement
        { name := name, columns := columns.map TableColumnSpec.definition })
  | .createHft name columns symbol top => s.withDb (generateHFTCreateStatement
      { name := name, symbol := symbol, top := top, columns := columns })
  | .dropTable name => s.withDb (dropTable name)
  | .dropDatabase name => s.withDb fun _ => dropDatabase name
  | .insert table stmt => s.withDb (insertRows table stmt)
  | .select table whereClause => s.withDb fun db s =>
      ((selectRows table whereClause db s).1, none)
  | .update table assignments whereClause => s.withDb (updateRows table assignments whereClause)
  | .delete table whereClause => s.withDb (deleteRows table whereClause)
  | .addIndicator stmt =>
      let r := parsingAddIndicator stems stmt s.symbolAccessArray s.pools
      ({ s with symbolAccessArray := r.1, pools := r.2.1 }, r.2.2)
  | .enableStrategy stmt =>
      let r := parsingAddStrategy stems stmt s.symbolAccessArray s.pools
      ({ s with symbolAccessArray := r.1, pools := r.2.1 }, r.2.2)
  | .packet p =>
      match processPacket s.symbolAccessArray p with
      | .error e => (s, some e)
      | .ok r => ({ s with symbolAccessArray := r.1 }, none)
  | .restart vacuums => restart vacuums s

/-- What can follow an event: nothing once the process has ended, and anything once an array has
been left or a callback was called that had not been set. -/
def Follows : Outcome → State → Prop
  | (s, none), s' => s' = s
  | (s, some (.thrown _)), s' => s' = s
  | (_, some .aborted), _ => False
  | (_, some .outOfBounds), _ => True
  | (_, some .uninitialised), _ => True

/-- The runs of the program from an empty directory. -/
def engine (stems : Stems) : Machine State Event where
  init s := s = {}
  step s e s' := Follows (execute stems s e) s'

end NanoVault.Catalog
