/-
The metadata file of a database and the columns in it (`json.hpp`,
`databaseSchemaReader.hpp`, the column loops of `generator.hpp` and `initialLoad.hpp`).

A `<name>.shivam.db` file holds one object with the tables of the database. CREATE TABLE
writes the columns into the file and, from the same definitions, the nodes of the catalog;
loading a database reads the nodes from the file. What is read is what was put into the
catalog (`loadColumns_written`). A file is taken for the value it is the text of.
-/
import NanoVault.Table.Value

namespace NanoVault.Catalog

open NanoVault.Table

/-! ### Values -/

/-- `JSONValue`; nothing the catalog keeps is a `double`. -/
inductive JSONValue where
  | null
  | bool (b : Bool)
  | int (v : Int)
  | string (s : Text)
  | array (items : List JSONValue)
  | object (fields : List (Text × JSONValue))

namespace JSONValue

/-- `obj[key] = value`. -/
def assign (fields : List (Text × JSONValue)) (key : Text) (value : JSONValue) :
    List (Text × JSONValue) :=
  (key, value) :: fields.filter fun field => field.1 ≠ key

/-- `operator[]` of a `JSONWrapper`. -/
def get (v : JSONValue) (key : Text) : Except Fault JSONValue :=
  match v with
  | .object fields =>
      match fields.lookup key with
      | some value => return value
      | none => throw (.runtimeError ("Key '".toList ++ key ++ "' not found in object".toList))
  | _ => throw (.runtimeError "Cannot use string key on non-object type".toList)

def hasKey (v : JSONValue) (key : Text) : Bool :=
  match v with
  | .object fields => (fields.lookup key).isSome
  | _ => false

def asArray : JSONValue → Except Fault (List JSONValue)
  | .array items => return items
  | _ => throw (.runtimeError "Value is not an array".toList)

def getString : JSONValue → Text
  | .string s => s
  | _ => []

def getInt : JSONValue → Int
  | .int v => v
  | _ => 0

/-- The conversion to an `int`. -/
def toInt : JSONValue → Except Fault Int
  | .int v => return v
  | _ => throw (.runtimeError "Cannot convert to int".toList)

end JSONValue

/-! ### Columns -/

inductive ColumnConstraint where
  | notNull
  | primaryKey
  | unique
  | autoIncrement
deriving DecidableEq, Repr

/-- The text of a constraint in the file. -/
def ColumnConstraint.text : ColumnConstraint → Text
  | .notNull => "not_null".toList
  | .primaryKey => "primary_key".toList
  | .unique => "unique".toList
  | .autoIncrement => "auto_increment".toList

structure ColumnDefinition where
  name : Text
  type : Text
  precision : Int := 0
  constraints : List ColumnConstraint := []
deriving DecidableEq, Repr

def intMax : Int := 2 ^ 31 - 1

/-- `TableGlobalColumnNode`. Its vector `constraint`, which nothing reads, is left out. -/
structure ColumnNode where
  name : Text
  type : Text
  precision : Int := 0
  autoIncrement : Bool := false
  isUnique : Bool := false
  isPrimary : Bool := false
  createIndex : Bool := false
  length : Int := intMax
deriving DecidableEq, Repr

/-- `std::stoi`. -/
def stoi (s : Text) : Except Fault Int := do
  let v ← stoll s
  if v.toInt < -2 ^ 31 ∨ intMax < v.toInt then throw .outOfRange else return v.toInt

/-- The length in the type of a column, `varchar(<length>)`. -/
def varcharLength (type : Text) : Except Fault (Option Int) :=
  if "varchar(".toList <:+: type ∧ ')' ∈ type ∧ type.idxOf '(' + 1 < type.idxOf ')' then
    match stoi ((type.take (type.idxOf ')')).drop (type.idxOf '(' + 1)) with
    | .ok length => return some length
    | .error _ => throw (.runtimeError "Invalid VARCHAR length".toList)
  else return none

/-- The object of a column of CREATE TABLE. -/
def columnJson (col : ColumnDefinition) (length : Option Int) : JSONValue :=
  let colJson := [("name".toList, JSONValue.string col.name),
    ("precision".toList, .int col.precision), ("type".toList, .string col.type)]
  let colJson :=
    match length with
    | none => colJson
    | some length =>
        JSONValue.assign (JSONValue.assign colJson "length".toList (.int length)) "type".toList
          (.string "varchar".toList)
  let constraintArray := col.constraints.map fun c => JSONValue.string c.text
  .object (JSONValue.assign colJson "constraints".toList (.array constraintArray))

/-- One round of the column loop of `generateCreateTableStatement`: the node for the catalog
and the object for the file. -/
def createColumn (col : ColumnDefinition) : Except Fault (ColumnNode × JSONValue) := do
  let length ← varcharLength col.type
  return ({
      name := col.name
      type := if length.isSome then "varchar".toList else col.type
      length := length.getD intMax
      autoIncrement := col.constraints.contains .autoIncrement
      isUnique := col.constraints.contains .unique
      isPrimary := col.constraints.contains .primaryKey },
    columnJson col length)

/-- One round of the column loop of `generateHFTCreateStatement`. -/
def createHftColumn (col : ColumnDefinition) : ColumnNode × JSONValue :=
  ({ name := col.name, type := col.type, precision := col.precision },
    .object [("name".toList, .string col.name), ("type".toList, .string col.type),
      ("precision".toList, .int col.precision), ("constraints".toList, .array [])])

/-- The length of a column in the file, `INT_MAX` where there is none. -/
def loadLength (column : JSONValue) : Except Fault Int :=
  if column.hasKey "length".toList then do (← column.get "length".toList).toInt
  else return intMax

/-- One round of the column loop of `initialDatabseLoad`. -/
def loadColumn (column : JSONValue) : Except Fault ColumnNode := do
  let name ← column.get "name".toList
  let type ← column.get "type".toList
  let constraints ← (← column.get "constraints".toList).asArray
  let precision ← column.get "precision".toList
  let length ← loadLength column
  let holds (constraint : String) : Bool := constraints.any fun c => c.getString = constraint.toList
  return {
    name := name.getString
    type := type.getString
    precision := precision.getInt
    length := length
    isPrimary := holds "primary_key"
    autoIncrement := holds "auto_increment"
    isUnique := holds "unique"
    createIndex := holds "create_index" }

/-! ### What is written is read -/

variable {col : ColumnDefinition} {node : ColumnNode} {colJson : JSONValue}

theorem any_constraint (constraints : List ColumnConstraint) (c : ColumnConstraint) :
    ((constraints.map fun c => JSONValue.string c.text).any fun v => v.getString = c.text) =
      constraints.contains c := by
  induction constraints with
  | nil => rfl
  | cons d constraints ih =>
      rw [List.map_cons, List.any_cons, ih, List.contains_cons]
      cases c <;> cases d <;> rfl

theorem any_createIndex (constraints : List ColumnConstraint) :
    ((constraints.map fun c => JSONValue.string c.text).any fun v =>
      v.getString = "create_index".toList) = false := by
  induction constraints with
  | nil => rfl
  | cons d constraints ih =>
      rw [List.map_cons, List.any_cons, ih]
      cases d <;> rfl

theorem get_columnJson (col : ColumnDefinition) (length : Option Int) :
    (columnJson col length).get "name".toList = .ok (.string col.name) ∧
      (columnJson col length).get "type".toList =
        .ok (.string (if length.isSome then "varchar".toList else col.type)) ∧
      (columnJson col length).get "precision".toList = .ok (.int col.precision) ∧
      (columnJson col length).get "constraints".toList =
        .ok (.array (col.constraints.map fun c => JSONValue.string c.text)) := by
  cases length <;> exact ⟨rfl, rfl, rfl, rfl⟩

theorem loadLength_columnJson (col : ColumnDefinition) (length : Option Int) :
    loadLength (columnJson col length) = .ok (length.getD intMax) := by
  cases length <;> rfl

/-- A column of CREATE TABLE is loaded as it was put into the catalog, where it has no
precision. -/
theorem loadColumn_written (h : createColumn col = .ok (node, colJson))
    (hprecision : col.precision = 0) : loadColumn colJson = .ok node := by
  rw [createColumn] at h
  obtain ⟨length, -, h⟩ := ok_of_bind h
  obtain ⟨hnode, hjson⟩ := Prod.mk.inj (Except.ok.inj h)
  subst hnode hjson
  obtain ⟨hname, htype, hprec, hconstraints⟩ := get_columnJson col length
  rw [loadColumn, hname, htype, hprec, hconstraints, loadLength_columnJson]
  refine congrArg Except.ok ?_
  rw [ColumnNode.mk.injEq]
  exact ⟨rfl, rfl, hprecision, any_constraint _ .autoIncrement, any_constraint _ .unique,
    any_constraint _ .primaryKey, any_createIndex _, rfl⟩

theorem loadColumn_hft (col : ColumnDefinition) :
    loadColumn (createHftColumn col).2 = .ok (createHftColumn col).1 := rfl

end NanoVault.Catalog
