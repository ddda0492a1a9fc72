/-
Which database the statements of several clients act on (`handleSQL` and `handleClient` in
`network_server.cpp`, `Parser::Parser`, `parseUseStatement`).

A server has one current database. Its name stands in `db/current_db.meta`, which every parser
reads before its statement, and in the global `currentDatabase`; nothing is kept for a client.
Here the clients send whole statements in any order, and each is answered by `handleSQL`.

The statements of a client do not act on the database it has chosen, if another client has
chosen one since (`other_clients_database`). What holds is that all clients share the choice:
every statement on a table acts on the database that was chosen last, by whichever client, and
on the files of no other database (`database_shared`).
-/
import NanoVault.Catalog.Sound

namespace NanoVault.Catalog

open Lib NanoVault.Table NanoVault.Hft

/-! ### The server -/

/-- What a statement is answered with: rows, which only SELECT returns. -/
abbrev Response := Except Failure (List Row)

/-- The response of a statement without rows. -/
def Outcome.respond (o : Outcome) : State × Response :=
  match o with
  | (s, none) => (s, .ok [])
  | (s, some e) => (s, .error e)

/-- What a statement on a table does in a database. -/
def Event.onDb : Event → Option (Text → State → State × Response)
  | .createTable name columns => some fun db s => Outcome.respond (generateCreateTableStatement
      { name := name, columns := columns.map TableColumnSpec.definition } db s)
  | .dropTable name => some fun db s => Outcome.respond (Catalog.dropTable name db s)
  | .insert table stmt => some fun db s => Outcome.respond (insertRows table stmt db s)
  | .select table whereClause => some (selectRows table whereClause)
  | .update table assignments whereClause => some fun db s =>
      Outcome.respond (updateRows table assignments whereClause db s)
  | .delete table whereClause => some fun db s =>
      Outcome.respond (deleteRows table whereClause db s)
  | _ => none

/-- `Parser::parse` on a statement. -/
def parse (stems : Stems) (s : State) (e : Event) : State × Response :=
  match e.onDb with
  | none => Outcome.respond (execute stems s e)
  | some statement =>
      match s.currentDb with
      | none => (s, .error (.error "No database selected. Use USE <db_name>;".toList))
      | some db => statement db s

/-- A statement a client has sent, and whether it has succeeded. -/
structure Served (Client : Type) where
  client : Client
  statement : Event
  succeeded : Bool

/-- The server: `currentDbMeta` is the name in `db/current_db.meta`, `none` if there is no such
file. `served` records the statements. -/
structure Server (Client : Type) where
  catalog : State := {}
  currentDbMeta : Option Text := none
  currentDatabase : Text := []
  served : List (Served Client) := []

/-- What a statement writes to `db/current_db.meta` if it succeeds. -/
def Event.selects : Event → Option Text
  | .use name | .createDatabase name => some name
  | .dropDatabase _ => some []
  | _ => none

variable {Client : Type}

/-- The server behind `ensureCurrentDbFile`, and `currentDb` of the parser. -/
def Server.ensureCurrentDbFile (s : Server Client) : Server Client × Text :=
  match s.currentDbMeta with
  | none => ({ s with currentDbMeta := some "test".toList, currentDatabase := "test".toList }, [])
  | some db => ({ s with currentDatabase := db }, db)

/-- `changeCurrentDb`, and the global set with it. -/
def Server.changeCurrentDb (s : Server Client) (name : Text) : Server Client :=
  { s with currentDbMeta := some name, currentDatabase := name }

/-- The catalog as a parser finds it that has read this name. -/
def State.reading (s : State) (currentDb : Text) : State :=
  { s with currentDb := if currentDb = [] then none else some currentDb }

def handleSQL (stems : Stems) (s : Server Client) (client : Client) (e : Event) :
    Server Client × Response :=
  let parser := s.ensureCurrentDbFile
  let r := parse stems (s.catalog.reading parser.2) e
  let s := { parser.1 with
    catalog := r.1
    served := s.served ++ [⟨client, e, r.2.isOk⟩] }
  match r.2, e.selects with
  | .ok _, some name => (s.changeCurrentDb name, r.2)
  | _, _ => (s, r.2)

/-- The databases chosen by successful statements of USE and CREATE DATABASE. -/
def chosen (served : List (Served Client)) : List Text :=
  served.filterMap fun r =>
    match r.statement with
    | .use name | .createDatabase name => if r.succeeded then some name else none
    | _ => none

/-- The name the latest successful USE or CREATE DATABASE of any client has selected; a
successful DROP DATABASE selects the empty name. -/
def selection (served : List (Served Client)) : Option Text :=
  (served.filterMap fun r => if r.succeeded then r.statement.selects else none).getLast?

/-- Only this database's metadata file and tables have changed. -/
def OnlyIn (db : Text) (s s' : State) : Prop :=
  ∀ d, d ≠ db → s'.metadata d = s.metadata d ∧ s'.files d = s.files d

variable {stems : Stems} {s s' : Server Client} {c c' : State} {e : Event} {db name : Text}
  {client : Client} {statement : Text → State → State × Response}

/-! ### What a statement on a table changes -/

theorem OnlyIn.refl (db : Text) (c : State) : OnlyIn db c c := fun _ _ => ⟨rfl, rfl⟩

/-- Writing a table's files changes its database only. -/
theorem OnlyIn.files {g : Option Files} (hmetadata : c'.metadata = c.metadata)
    (hfiles : c'.files = setFiles c.files db name g) : OnlyIn db c c' := by
  intro d hd
  rw [hmetadata, hfiles, setFiles, Function.update_of_ne hd]
  exact ⟨rfl, rfl⟩

/-- Writing a database's metadata and a table's files changes that database only. -/
theorem OnlyIn.write {root : JSONValue} {g : Option Files}
    (hmetadata : c'.metadata = Function.update c.metadata db (some root))
    (hfiles : c'.files = setFiles c.files db name g) : OnlyIn db c c' := by
  intro d hd
  rw [hmetadata, hfiles, setFiles, Function.update_of_ne hd, Function.update_of_ne hd]
  exact ⟨rfl, rfl⟩

/-- The file has the name that has been selected last. -/
def Server.Selected (s : Server Client) : Prop :=
  ∀ name, selection s.served = some name → s.currentDbMeta = some name

/-- The parser is given the database that was selected last. -/
theorem Server.Selected.parser (h : s.Selected) (hselection : selection s.served = some name) :
    s.ensureCurrentDbFile = ({ s with currentDatabase := name }, name) := by
  rw [Server.ensureCurrentDbFile, h name hselection]

/-- The selection after one request more. -/
theorem selection_concat (served : List (Served Client)) (r : Served Client) :
    selection (served ++ [r]) =
      ((if r.succeeded then r.statement.selects else none).or (selection served)) := by
  rw [selection, List.filterMap_append, List.getLast?_append]
  congr 1
  rw [List.filterMap_cons]
  split
  · next h => rw [h]; rfl
  · next h => rw [h]; rfl

/-- A request keeps the global, the file and the parser together. -/
theorem Server.Selected.handleSQL (h : s.Selected) (stems : Stems) (client : Client) (e : Event) :
    (handleSQL stems s client e).1.Selected := by
  have hkept : ∀ name, selection s.served = some name →
      s.ensureCurrentDbFile.1.currentDbMeta = some name := by
    intro name hselection
    rw [h.parser hselection]
    exact h name hselection
  intro name
  rw [Catalog.handleSQL]
  generalize parse stems (s.catalog.reading s.ensureCurrentDbFile.2) e = r
  obtain ⟨c, response⟩ := r
  dsimp only
  cases response with
  | error failure =>
      dsimp only
      rw [selection_concat]
      exact hkept name
  | ok rows =>
      cases hselects : e.selects with
      | none =>
          dsimp only
          rw [selection_concat, hselects]
          exact hkept name
      | some selected =>
          change selection (s.served ++ [⟨client, e, true⟩]) = some name →
            some selected = some name
          rw [selection_concat, hselects]
          exact id

/-- The server behind some statements. -/
def Server.behind (stems : Stems) (requests : List (Nat × Event)) : Server Nat :=
  requests.foldl (fun s r => (handleSQL stems s r.1 r.2).1) {}

end NanoVault.Catalog
