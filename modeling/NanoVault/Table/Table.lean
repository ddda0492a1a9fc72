/-
A table: its schema, its three files and its index trees (`generator.hpp`,
`PagerHandler` in `utility.hpp`, `SelectQueryHandler` in `selectAstEvaluator.hpp`).

The index file is a list of 8-byte words: each record is an id followed by a start and an
end offset into the data file for every value. The `.delete` file has one byte for each
row. INSERT derives the number of values in a record from the columns it is given, the
readers from the number of columns of the table (`rowWords`). The trees are finite maps.

UPDATE and DELETE can throw in the middle; their loops return the table they have reached
next to the exception. Neither removes a key from a tree over `int64_t`: the removal stands
behind a `requires` that wants `std::stoll` to return an `int64_t`, and it returns a
`long long`, which on every platform where `valueToStorageString` compiles is another
type (`dropKeys`).
-/
import NanoVault.Table.Value

namespace NanoVault.Table

open Lib

inductive ColumnType where
  | int
  | varchar
deriving DecidableEq, Repr

/-- `TableGlobalColumnNode`. -/
structure Column where
  name : Text
  type : ColumnType
  isPrimary : Bool := false
  isUnique : Bool := false
deriving DecidableEq, Repr

/-- `IndexNode`: where a row's record starts and ends in the index file. -/
structure IndexNode where
  start : Int64
  stop : Int16
deriving DecidableEq, Repr

/-- `TreeVariant`. -/
inductive Tree where
  | int (keys : Int64 → Option IndexNode)
  | text (keys : Text → Option IndexNode)

structure Files where
  index : List Nat := []
  data : Text := []
  delete : List UInt8 := []
deriving DecidableEq, Repr

structure TableState where
  columns : List Column
  files : Files := {}
  trees : Text → Option Tree := fun _ => none

/-- `std::sort` on names. -/
def sortNames (names : List Text) : List Text := names.insertionSort (· ≤ ·)

/-! ### CREATE TABLE -/

/-- The tree `initializePrimaryIndexBtrees` makes for a column, if it makes one. -/
def Column.newTree (c : Column) : Option Tree :=
  match c.isPrimary, c.isUnique, c.type with
  | true, _, .int => some (.int fun _ => none)
  | true, _, .varchar => none
  | false, true, .int => some (.int fun _ => none)
  | false, true, .varchar => some (.text fun _ => none)
  | false, false, _ => none

/-- `initializePrimaryIndexBtrees` on a table without rows. -/
def initializeTrees (columns : List Column) : Text → Option Tree :=
  columns.foldl (fun trees c =>
    match c.newTree with
    | none => trees
    | some tree => Function.update trees c.name (some tree)) fun _ => none

/-- `generateCreateTableStatement`; no list of columns is refused. -/
def createTable (columns : List Column) : TableState where
  columns := columns
  trees := initializeTrees columns

/-! ### Inserting a row -/

/-- An element of the vector handed to `insertRow`. -/
structure InsertColumn where
  name : Text
  value : Text
  isUnique : Bool
deriving DecidableEq, Repr

/-- Write one byte at a position; a gap is filled with zeros. -/
def writeByte (bytes : List UInt8) (pos : Nat) (b : UInt8) : List UInt8 :=
  if pos < bytes.length then bytes.set pos b
  else bytes ++ List.replicate (pos - bytes.length) 0 ++ [b]

/-- The id of the next row: one more than the last record's, for records of this many
words. -/
def nextRowId (index : List Nat) (words : Nat) : Except Fault Nat :=
  if index = [] then return 1
  else if index.length < words then
    throw (.runtimeError "Failed to read last row ID from index file".toList)
  else
    match index[index.length - words]? with
    | none => throw (.runtimeError "Failed to read last row ID from index file".toList)
    | some lastRowId => return lastRowId + 1

/-- The offsets of values that are appended one after the other, from `pos` on. -/
def offsets (pos : Nat) : List Text → List Nat
  | [] => []
  | v :: vs => pos :: (pos + v.length) :: offsets (pos + v.length) vs

/-- `treePtr->insert` of the primary tree. -/
def Tree.insertId (newRowId : Nat) (node : IndexNode) : Tree → Tree
  | .int keys => .int (Function.update keys (Int64.ofNat newRowId) (some node))
  | .text keys => .text (Function.update keys (digits newRowId) (some node))

/-- `treePtr->insert` of a UNIQUE column's tree; a value `stoll` refuses counts as 0. -/
def Tree.insertValue (value : Text) (node : IndexNode) : Tree → Tree
  | .int keys =>
      let val := match stoll value with
        | .ok v => v
        | .error _ => 0
      .int (Function.update keys val (some node))
  | .text keys => .text (Function.update keys value (some node))

/-- Change the tree of a column that has one. -/
def modifyTree (trees : Text → Option Tree) (name : Text) (f : Tree → Tree) :
    Text → Option Tree :=
  Function.update trees name ((trees name).map f)

/-- The end of `insertRow`: the new row's keys. -/
def insertKeys (trees : Text → Option Tree) (primaryName : Text) (data : List InsertColumn)
    (newRowId : Nat) (node : IndexNode) : Text → Option Tree :=
  let trees :=
    if primaryName ≠ [] then modifyTree trees primaryName (Tree.insertId newRowId node)
    else trees
  data.foldl (fun trees c =>
    if c.isUnique then modifyTree trees c.name (Tree.insertValue c.value node)
    else trees) trees

def insertRow (primaryName : Text) (data : List InsertColumn) (t : TableState) :
    Except Fault TableState :=
  if data = [] then throw (.runtimeError "Cannot insert empty row data".toList)
  else do
    let newRowId ← nextRowId t.files.index (1 + 2 * data.length)
    let values := data.map InsertColumn.value
    let index := t.files.index ++ newRowId :: offsets t.files.data.length values
    let node : IndexNode :=
      { start := Int64.ofNat (8 * t.files.index.length)
        stop := Int16.ofNat (8 * index.length) }
    return { t with
      files :=
        { index := index
          data := t.files.data ++ values.flatten
          delete := writeByte t.files.delete (newRowId - 1) 0 }
      trees := insertKeys t.trees primaryName data newRowId node }

structure InsertStatement where
  columns : List Text
  values : List Text
deriving DecidableEq, Repr

/-- The name of the primary key; of the last one where there are several. -/
def lastPrimary (columns : List Column) : Text :=
  columns.foldl (fun name c => if c.isPrimary then c.name else name) []

/-- The comparison of the given names with the actual ones, both sorted; it marks the
values of UNIQUE columns. -/
def matchColumns : List Column → List (Text × Text) → Except Fault (List InsertColumn)
  | [], [] => return []
  | c :: cs, (name, value) :: given =>
      if c.name ≠ name then
        throw (.runtimeError ("error  get column Name ".toList ++ name ++ " instead of  ".toList ++
          c.name ++ ['\n']))
      else return ⟨name, value, c.isUnique⟩ :: (← matchColumns cs given)
  | _, _ =>
      throw (.runtimeError
        "the given column size does not match with the actual column size".toList)

/-- The columns INSERT wants values for, in the order of their names. -/
def actualColumns (columns : List Column) : List Column :=
  (columns.filter fun c => !c.isPrimary).insertionSort fun a b => a.name ≤ b.name

/-- `generateInsertTableStatement`. -/
def generateInsert (stmt : InsertStatement) (t : TableState) : Except Fault TableState :=
  let given := (stmt.columns.zip stmt.values).insertionSort fun a b => a.1 ≤ b.1
  let actual := actualColumns t.columns
  if actual.length ≠ given.length then
    throw (.runtimeError
      "the given column size does not match with the actual column size".toList)
  else do
    let data ← matchColumns actual given
    insertRow (lastPrimary t.columns) data t

/-! ### Reading rows -/

/-- `seekg(start)` and `read` of `len` characters into a string of zeros, on a data file
that has failed before or not: what is read, and whether the file has failed now. -/
def readText (failed : Bool) (data : Text) (start len : Nat) : Text × Bool :=
  if failed then (List.replicate len '\x00', true)
  else
    let got := (data.drop start).take len
    (got ++ List.replicate (len - got.length) '\x00', decide (got.length < len))

/-- The values of the columns after the first, from the words of the record. -/
def readColumns (data : Text) : List Text → List Nat → Bool → Row → Except Fault (Row × Bool)
  | [], _, failed, row => return (row, failed)
  | name :: names, start :: stop :: words, failed, row =>
      if stop < start then throw .lengthError
      else
        let r := readText failed data start (stop - start)
        readColumns data names words r.2 (row.insert name (.text r.1))
  | _ :: _, _, _, _ => throw .undefined

/-- The words of a record, as the readers count them. -/
def rowWords (names : List Text) : Nat := 2 * names.length - 1

/-- The row in the record at a position: the first of the sorted names is given the id,
each of the others a value. -/
def readRow (f : Files) (names : List Text) (row : Nat) (failed : Bool) :
    Except Fault (Row × Bool) :=
  match names, f.index.drop (row * rowWords names) with
  | first :: rest, id :: words =>
      readColumns f.data rest words failed (SortedMap.empty.insert first (.text (digits id)))
  | _, _ => throw .undefined

/-- The names of all columns, sorted, as every reader starts. -/
def allColumnNames (columns : List Column) : List Text := sortNames (columns.map Column.name)

/-- How many records of the readers' size the index file has. -/
def rowCount (f : Files) (names : List Text) : Nat := f.index.length / rowWords names

/-- The loop of `handle` over the rows. -/
def selectLoop (f : Files) (names : List Text) (whereClause : Option Expression) :
    List Nat → Bool → Except Fault (List Row)
  | [], _ => return []
  | row :: rows, failed =>
      match f.delete[row]? with
      | none => throw .undefined
      | some deleted =>
          if deleted = 1 then selectLoop f names whereClause rows failed
          else do
            let r ← readRow f names row failed
            let pass ← evaluateWhere whereClause r.1
            let rest ← selectLoop f names whereClause rows r.2
            return if pass then r.1 :: rest else rest

/-- `SelectQueryHandler::handle`, up to the printing of the rows. The column list of the
statement has no effect on them. -/
def select (whereClause : Option Expression) (t : TableState) : Except Fault (List Row) :=
  let names := allColumnNames t.columns
  selectLoop t.files names whereClause (List.range (rowCount t.files names)) false

/-! ### UPDATE and DELETE -/

/-- Set the row's byte in the `.delete` file. -/
def tombstone (t : TableState) (row : Nat) : TableState :=
  { t with files := { t.files with delete := writeByte t.files.delete row 1 } }

/-- `row.columns[name]`, which inserts the default value where there is none. -/
def Row.value (row : Row) (name : Text) : Value := (row.find? name).getD (.int 0)

/-- The removal of a row's keys. Only a tree over strings is changed: the branch for
`int64_t` keys is discarded when the program is compiled. -/
def dropKeys (t : TableState) (row : Row) : TableState :=
  { t with trees := fun name =>
      match t.trees name with
      | some (.text keys) =>
          some (.text (Function.update keys (valueToStorageString (Row.value row name)) none))
      | tree => tree }

/-- `newRow.columns[col] = val` for every assignment. -/
def assign (row : Row) (assignments : List (Text × Text)) : Row :=
  assignments.foldl (fun row a => row.insert a.1 (.text a.2)) row

/-- The values of the re-inserted row, in the order the columns were declared in. -/
def updateColumns (columns : List Column) (row : Row) : List InsertColumn :=
  (columns.filter fun c => !c.isPrimary).map fun c =>
    ⟨c.name, valueToStorageString (Row.value row c.name), c.isUnique⟩

/-- The loop of `handleUpdate`. -/
def updateLoop (primaryKey : Text) (names : List Text) (assignments : List (Text × Text))
    (whereClause : Option Expression) : List Nat → Bool → TableState → TableState × Option Fault
  | [], _, t => (t, none)
  | row :: rows, failed, t =>
      match t.files.delete[row]? with
      | none => (t, some .undefined)
      | some deleted =>
          if deleted = 1 then updateLoop primaryKey names assignments whereClause rows failed t
          else
            match readRow t.files names row failed with
            | .error e => (t, some e)
            | .ok (oldRow, failed) =>
                match evaluateWhere whereClause oldRow with
                | .error e => (t, some e)
                | .ok false => updateLoop primaryKey names assignments whereClause rows failed t
                | .ok true =>
                    let t := dropKeys (tombstone t row) oldRow
                    match insertRow primaryKey
                        (updateColumns t.columns (assign oldRow assignments)) t with
                    | .error e => (t, some e)
                    | .ok t =>
                        updateLoop primaryKey names assignments whereClause rows failed t

/-- The name of the first primary key column. -/
def firstPrimary (columns : List Column) : Text :=
  ((columns.find? Column.isPrimary).map Column.name).getD []

/-- `handleUpdate`: the table after the statement, and the exception it ended with. -/
def handleUpdate (assignments : List (Text × Text)) (whereClause : Option Expression)
    (t : TableState) : TableState × Option Fault :=
  let primaryKey := firstPrimary t.columns
  if assignments.any fun a => a.1 = primaryKey then
    (t, some (.runtimeError "UPDATE of PRIMARY KEY is not allowed".toList))
  else
    let names := allColumnNames t.columns
    updateLoop primaryKey names assignments whereClause
      (List.range (rowCount t.files names)) false t

/-- The loop of `handleDelete`. -/
def deleteLoop (names : List Text) (whereClause : Option Expression) :
    List Nat → Bool → TableState → TableState × Option Fault
  | [], _, t => (t, none)
  | row :: rows, failed, t =>
      match t.files.delete[row]? with
      | none => (t, some .undefined)
      | some deleted =>
          if deleted = 1 then deleteLoop names whereClause rows failed t
          else
            match readRow t.files names row failed with
            | .error e => (t, some e)
            | .ok (r, failed) =>
                match evaluateWhere whereClause r with
                | .error e => (t, some e)
                | .ok false => deleteLoop names whereClause rows failed t
                | .ok true =>
                    deleteLoop names whereClause rows failed (dropKeys (tombstone t row) r)

def handleDelete (whereClause : Option Expression) (t : TableState) : TableState × Option Fault :=
  let names := allColumnNames t.columns
  deleteLoop names whereClause (List.range (rowCount t.files names)) false t

/-! ### Vacuum -/

/-- The values of a record, as `vacuumTable` copies them. -/
def readValues (data : Text) : Nat → List Nat → Bool → Except Fault (List Text × Bool)
  | 0, _, failed => return ([], failed)
  | n + 1, start :: stop :: words, failed =>
      if stop < start then throw .lengthError
      else do
        let r := readText failed data start (stop - start)
        let rest ← readValues data n words r.2
        return (r.1 :: rest.1, rest.2)
  | _ + 1, _, _ => throw .undefined

/-- The loop of `vacuumTable`, writing the new files. -/
def vacuumLoop (f : Files) (words : Nat) : List Nat → Bool → Files → Except Fault Files
  | [], _, new => return new
  | row :: rows, failed, new =>
      match f.delete[row]? with
      | none => throw .undefined
      | some deleted =>
          if deleted = 1 then vacuumLoop f words rows failed new
          else
            match f.index.drop (row * words) with
            | [] => throw .undefined
            | id :: rest => do
                let r ← readValues f.data ((words - 1) / 2) rest failed
                vacuumLoop f words rows r.2
                  { index := new.index ++ id :: offsets new.data.length r.1
                    data := new.data ++ r.1.flatten
                    delete := new.delete ++ [0] }

/-- `vacuumTable`: the live records move to new files; the trees stay as they are. -/
def vacuumTable (t : TableState) : TableState × Option Fault :=
  let words := 2 * t.columns.length - 1
  match vacuumLoop t.files words (List.range (t.files.index.length / words)) false {} with
  | .error e => (t, some e)
  | .ok files => ({ t with files := files }, none)

/-! ### Statements -/

inductive Statement where
  | insert (stmt : InsertStatement)
  | update (assignments : List (Text × Text)) (whereClause : Option Expression)
  | delete (whereClause : Option Expression)
  | vacuum
deriving DecidableEq, Repr

/-- The table after a statement, and the exception it ended with. -/
def execute (t : TableState) : Statement → TableState × Option Fault
  | .insert stmt =>
      match generateInsert stmt t with
      | .error e => (t, some e)
      | .ok t => (t, none)
  | .update assignments whereClause => handleUpdate assignments whereClause t
  | .delete whereClause => handleDelete whereClause t
  | .vacuum => vacuumTable t

end NanoVault.Table
