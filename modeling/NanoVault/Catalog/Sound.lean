/-
What every statement leaves in the metadata files, in the catalog and in the slots.

The metadata file of a database lists its tables, each as `initialDatabseLoad` reads it
(`Written`). In every state reached without leaving an array, the catalog has these tables of
the current database under their names, no two tables have one name, and every HFT table has a
slot with room for its columns (`Sound.step`). The catalog can have more: a statement that
names a table that is not there leaves an empty entry under the name (`RowsOnly`).
-/
import NanoVault.Catalog.Engine
import NanoVault.Table.IndexScan

namespace NanoVault.Catalog

open Lib NanoVault.Table NanoVault.Hft

variable {s s' : State} {db d name n : Text} {root json : JSONValue} {items : List JSONValue}
  {ts : List LoadedTable} {t : LoadedTable} {f : Option Failure} {stems : Stems} {e : Event}

/-! ### Lookups -/

/-- A table that is entered is found, and no other is affected. -/
theorem State.find?_setEntry (s : State) (db name : Text) (entry : TableEntry) (d n : Text) :
    (s.setEntry db name entry).find? d n =
      if db = d ∧ name = n then some entry else s.find? d n := by
  rw [State.find?, State.setEntry, SortedMap.find?_insert]
  by_cases hdb : db = d
  · subst hdb
    rw [if_pos rfl, Option.bind_some, SortedMap.find?_insert]
    by_cases hname : name = n
    · rw [if_pos hname, if_pos ⟨rfl, hname⟩]
    · rw [if_neg hname, if_neg fun h => hname h.2, State.find?]
      cases s.globalTableCache.find? db <;> rfl
  · rw [if_neg hdb, if_neg fun h => hdb h.1, State.find?]

/-- A table that is erased is not found, and no other is affected. -/
theorem State.find?_eraseEntry (s : State) (db name d n : Text) :
    (s.eraseEntry db name).find? d n =
      if db = d ∧ name = n then none else s.find? d n := by
  rw [State.find?, State.eraseEntry, SortedMap.find?_insert]
  by_cases hdb : db = d
  · subst hdb
    rw [if_pos rfl, Option.bind_some, SortedMap.find?_erase]
    by_cases hname : name = n
    · rw [if_pos hname, if_pos ⟨rfl, hname⟩]
    · rw [if_neg hname, if_neg fun h => hname h.2, State.find?]
      cases s.globalTableCache.find? db <;> rfl
  · rw [if_neg hdb, if_neg fun h => hdb h.1, State.find?]

/-- An empty entry for a database holds no table. -/
theorem State.find?_touchDb (s : State) (db d n : Text) :
    (s.touchDb db).find? d n = s.find? d n := by
  rw [State.find?, State.touchDb, SortedMap.find?_insert, State.find?]
  by_cases hdb : db = d
  · subst hdb
    rw [if_pos rfl]
    cases s.globalTableCache.find? db <;> rfl
  · rw [if_neg hdb]

/-- A table that is only asked for is found afterwards, at worst as an empty one. -/
theorem State.find?_touch (s : State) (db name d n : Text) :
    (s.touch db name).find? d n =
      if db = d ∧ name = n then some ((s.find? db name).getD {}) else s.find? d n :=
  State.find?_setEntry _ _ _ _ _ _

/-- The files of other tables stay. -/
theorem setFiles_of_ne {files : Text → Text → Option Files} {g : Option Files}
    (h : ¬ (db = d ∧ name = n)) : setFiles files db name g d n = files d n := by
  rw [setFiles, Function.update_apply]
  split
  · next hd =>
      subst hd
      rw [Function.update_of_ne fun heq => h ⟨rfl, heq.symm⟩]
  · rfl

theorem setFiles_self {files : Text → Text → Option Files} {g : Option Files} :
    setFiles files db name g db name = g := by
  rw [setFiles, Function.update_self, Function.update_self]

theorem setTrees_of_ne {dbBtrees : Text → Text → Text → Option Tree} {trees : Text → Option Tree}
    (h : ¬ (db = d ∧ name = n)) : setTrees dbBtrees db name trees d n = dbBtrees d n := by
  rw [setTrees, Function.update_apply]
  split
  · next hd =>
      subst hd
      rw [Function.update_of_ne fun heq => h ⟨rfl, heq.symm⟩]
  · rfl

theorem setTrees_self {dbBtrees : Text → Text → Text → Option Tree} {trees : Text → Option Tree} :
    setTrees dbBtrees db name trees db name = trees := by
  rw [setTrees, Function.update_self, Function.update_self]

theorem State.setTable_files (s : State) (db name : Text) (u : TableState) :
    (s.setTable db name u).files = setFiles s.files db name (some u.files) := rfl

theorem State.setTable_trees (s : State) (db name : Text) (u : TableState) :
    (s.setTable db name u).dbBtrees = setTrees s.dbBtrees db name u.trees := rfl

/-! ### The metadata file -/

/-- The entry of a table in the catalog. -/
def LoadedTable.entry (t : LoadedTable) : TableEntry := ⟨some t.symbol, t.columns⟩

/-- The symbol has a slot, and the slot has room for so many columns. -/
def SlotFits (symbol : Int) (columns : Nat) : Prop :=
  (∃ i, place symbol = some i) ∧ columns ≤ maxColumn

/-- An HFT table fits into its slot. -/
def LoadedTable.Fits (t : LoadedTable) : Prop := t.symbol = -1 ∨ SlotFits t.symbol t.columns.length

/-- The object of a table in the file. -/
def Describes (json : JSONValue) (t : LoadedTable) : Prop :=
  readTable json = .ok t ∧
    ∃ fields, json = .object fields ∧ fields.lookup "name".toList = some (.string t.name)

/-- The file lists these tables. -/
def Written (root : JSONValue) (ts : List LoadedTable) : Prop :=
  ∃ fields tables, root = .object fields ∧
    fields.lookup "tables".toList = some (.array tables) ∧ List.Forall₂ Describes tables ts

/-- The key that was assigned last is found. -/
theorem lookup_assign (fields : List (Text × JSONValue)) (key : Text) (value : JSONValue) :
    (JSONValue.assign fields key value).lookup key = some value := by
  rw [JSONValue.assign, List.lookup_cons, beq_self_eq_true]

/-- CREATE DATABASE. -/
theorem Written.nil (name : Text) : Written
    (.object [("name".toList, .string name), ("tables".toList, .array [])]) [] :=
  ⟨_, [], rfl, rfl, .nil⟩

/-- A table appended to the root is written behind the others. -/
theorem Written.append (h : Written root ts) (ht : Describes json t) :
    ∃ root', appendTable root json = .ok root' ∧ Written root' (ts ++ [t]) := by
  obtain ⟨fields, tables, rfl, hlookup, hdescribes⟩ := h
  refine ⟨.object (JSONValue.assign fields "tables".toList (.array (tables ++ [json]))), ?_,
    ⟨_, _, rfl, lookup_assign _ _ _, List.rel_append hdescribes (.cons ht .nil)⟩⟩
  simp only [appendTable, hlookup]
  rfl

/-- The tables of a root that is written are the ones written. -/
theorem Written.tables (h : Written root ts) :
    ∃ tables, (root.get "tables".toList).bind JSONValue.asArray = .ok tables ∧
      List.Forall₂ Describes tables ts := by
  obtain ⟨fields, tables, rfl, hlookup, hdescribes⟩ := h
  refine ⟨tables, ?_, hdescribes⟩
  simp only [JSONValue.get, hlookup]
  rfl

/-- A file lists one list of tables. -/
theorem Written.unique {us : List LoadedTable} (h : Written root ts) (h' : Written root us) :
    ts = us := by
  obtain ⟨items, hitems, hdescribes⟩ := h.tables
  obtain ⟨items', hitems', hdescribes'⟩ := h'.tables
  obtain rfl := Except.ok.inj (hitems.symm.trans hitems')
  refine List.right_unique_forall₂' (fun a b c hab hac => ?_) hdescribes hdescribes'
  exact Except.ok.inj (hab.1.symm.trans hac.1)

/-- `removeTable` takes the table out of the list. -/
theorem removeTable_spec (h : List.Forall₂ Describes items ts)
    (hnodup : (ts.map LoadedTable.name).Nodup) : ∃ items', removeTable name items = some items' ∧
      List.Forall₂ Describes items' (ts.filter fun t => t.name ≠ name) := by
  induction h with
  | nil => exact ⟨[], rfl, .nil⟩
  | @cons json t items ts ht hrest ih =>
      obtain ⟨hread, fields, rfl, hlookup⟩ := ht
      obtain ⟨hfirst, hnodup⟩ := List.nodup_cons.mp hnodup
      simp only [removeTable, hlookup]
      by_cases hname : t.name = name
      · subst hname
        have hothers : ∀ u ∈ ts, u.name ≠ t.name := fun u hu heq =>
          hfirst (heq ▸ List.mem_map_of_mem hu)
        refine ⟨items, if_pos rfl, ?_⟩
        rw [List.filter_cons_of_neg (by simp),
          List.filter_eq_self.mpr fun u hu => decide_eq_true (hothers u hu)]
        exact hrest
      · obtain ⟨items', hremove, hrest'⟩ := ih hnodup
        refine ⟨.object fields :: items', by rw [if_neg hname, hremove]; rfl, ?_⟩
        rw [List.filter_cons_of_pos (by simpa using hname)]
        exact .cons ⟨hread, fields, rfl, hlookup⟩ hrest'

/-! ### Tables that are created -/

/-- The object that CREATE TABLE writes describes its table. -/
theorem describes_object {columns : List JSONValue} {nodes : List ColumnNode} (name : Text)
    (symbol : Int) (top : JSONValue) (h : columns.mapM loadColumn = .ok nodes) :
    Describes (.object [("name".toList, .string name), ("symbol".toList, .int symbol),
      ("top".toList, top), ("columns".toList, .array columns)])
      ⟨name, symbol, startsWithOne top.getInt, nodes⟩ := by
  refine ⟨?_, _, rfl, rfl⟩
  have hobject : readTable (.object [("name".toList, .string name), ("symbol".toList, .int symbol),
      ("top".toList, top), ("columns".toList, .array columns)]) = (do
        let nodes ← columns.mapM loadColumn
        return ⟨name, symbol, startsWithOne top.getInt, nodes⟩) := rfl
  rw [hobject, h]
  rfl

/-- The columns of a table are loaded as they were created. -/
theorem mapM_loadColumn {cols : List ColumnDefinition} {columns : List (ColumnNode × JSONValue)}
    (hprecision : ∀ col ∈ cols, col.precision = 0) (h : cols.mapM createColumn = .ok columns) :
    (columns.map Prod.snd).mapM loadColumn = .ok (columns.map Prod.fst) := by
  induction cols generalizing columns with
  | nil =>
      obtain rfl := Except.ok.inj h
      rfl
  | cons col cols ih =>
      rw [List.mapM_cons] at h
      obtain ⟨⟨node, json⟩, hcol, h⟩ := ok_of_bind h
      obtain ⟨rest, hrest, h⟩ := ok_of_bind h
      obtain rfl := Except.ok.inj h
      have hload := loadColumn_written hcol (hprecision col List.mem_cons_self)
      have hloads := ih (fun c hc => hprecision c (List.mem_cons_of_mem _ hc)) hrest
      rw [List.map_cons, List.map_cons, List.mapM_cons, hload, hloads]
      rfl

/-- So are those of a high-frequency table. -/
theorem mapM_loadColumn_hft (cols : List ColumnDefinition) :
    ((cols.map createHftColumn).map Prod.snd).mapM loadColumn =
      .ok ((cols.map createHftColumn).map Prod.fst) := by
  induction cols with
  | nil => rfl
  | cons col cols ih =>
      simp only [List.map_cons, List.mapM_cons, loadColumn_hft, ih]
      rfl

/-! ### Statements on rows -/

/-- Nothing has changed but the rows of a table and, at most, that there is an empty entry for it
in the catalog where there was none. -/
structure RowsOnly (db name : Text) (s s' : State) : Prop where
  metadata : s'.metadata = s.metadata
  currentDb : s'.currentDb = s.currentDb
  slots : s'.symbolAccessArray = s.symbolAccessArray
  files : ∀ d n, (s'.files d n).isSome = (s.files d n).isSome
  trees : ∀ d n c, (s'.dbBtrees d n c).isSome = (s.dbBtrees d n c).isSome
  entries : ∀ d n, s'.find? d n = s.find? d n ∨
    (d = db ∧ n = name ∧ s.find? d n = none ∧ s'.find? d n = some {})

theorem RowsOnly.refl (db name : Text) (s : State) : RowsOnly db name s s :=
  ⟨rfl, rfl, rfl, fun _ _ => rfl, fun _ _ _ => rfl, fun _ _ => .inl rfl⟩

/-- Asking for a table changes nothing but its entry. -/
theorem RowsOnly.touch (s : State) (db name : Text) : RowsOnly db name s (s.touch db name) := by
  refine ⟨rfl, rfl, rfl, fun _ _ => rfl, fun _ _ _ => rfl, fun d n => ?_⟩
  rw [State.find?_touch]
  split
  · next h =>
      obtain ⟨rfl, rfl⟩ := h
      cases hfind : s.find? db name with
      | none => exact .inr ⟨rfl, rfl, rfl, rfl⟩
      | some entry => exact .inl rfl
  · exact .inl rfl

/-- A statement on the rows of a table that has its files. -/
theorem RowsOnly.setTable {f : Files} {u : TableState} (h : RowsOnly db name s s')
    (hfiles : s'.files db name = some f)
    (htypes : ∀ c, keyTypeAt u c = keyTypeAt (s'.table db name f) c) :
    RowsOnly db name s (s'.setTable db name u) := by
  refine ⟨h.metadata, h.currentDb, h.slots, fun d n => ?_, fun d n c => ?_, h.entries⟩
  · rw [State.setTable_files]
    by_cases hdn : db = d ∧ name = n
    · obtain ⟨rfl, rfl⟩ := hdn
      rw [setFiles_self, ← h.files, hfiles]
      rfl
    · rw [setFiles_of_ne hdn, h.files]
  · rw [← h.trees, State.setTable_trees]
    by_cases hdn : db = d ∧ name = n
    · obtain ⟨rfl, rfl⟩ := hdn
      have htype := congrArg Option.isSome (htypes c)
      rw [keyTypeAt, keyTypeAt, Option.isSome_map, Option.isSome_map] at htype
      rw [setTrees_self, htype]
      rfl
    · rw [setTrees_of_ne hdn]

/-- INSERT changes the rows of its own table only. -/
theorem insertRows_rowsOnly (table : Text) (stmt : InsertStatement) (db : Text) (s : State) :
    RowsOnly db table s (insertRows table stmt db s).1 := by
  rw [insertRows]
  split
  · exact .refl db table s
  · exact .refl db table s
  · split
    · exact .refl db table s
    · split
      · exact .refl db table s
      · cases hfiles : s.files db table with
        | none =>
            simp only [Option.isNone_none, if_true]
            split <;> exact .refl db table s
        | some f =>
            simp only [Option.isNone_some, Bool.false_eq_true, if_false, Option.getD_some]
            cases hinsert : generateInsert stmt (s.table db table f) with
            | error e => exact .refl db table s
            | ok u =>
                refine (RowsOnly.refl db table s).setTable hfiles fun c => ?_
                have htype := execute_keyType (s.table db table f) (.insert stmt) c
                rwa [Table.execute, hinsert] at htype

/-- SELECT leaves the state but for the entry it asks for. -/
theorem selectRows_state (table : Text) (whereClause : Option Expression) (db : Text)
    (s : State) : (selectRows table whereClause db s).1 = s.touch db table := by
  rw [selectRows]
  split
  · rfl
  · split <;> rfl

theorem selectRows_rowsOnly (table : Text) (whereClause : Option Expression) (db : Text)
    (s : State) : RowsOnly db table s (selectRows table whereClause db s).1 := by
  rw [selectRows_state]
  exact .touch s db table

/-- UPDATE changes the rows of its own table only. -/
theorem updateRows_rowsOnly (table : Text) (assignments : List (Text × Text))
    (whereClause : Option Expression) (db : Text) (s : State) :
    RowsOnly db table s (updateRows table assignments whereClause db s).1 := by
  rw [updateRows]
  dsimp only
  split
  · split <;> exact .touch s db table
  · next f hfiles =>
      exact (RowsOnly.touch s db table).setTable hfiles
        (execute_keyType _ (.update assignments whereClause))

/-- DELETE changes the rows of its own table only. -/
theorem deleteRows_rowsOnly (table : Text) (whereClause : Option Expression) (db : Text)
    (s : State) : RowsOnly db table s (deleteRows table whereClause db s).1 := by
  rw [deleteRows]
  split
  · exact .refl db table s
  · next f hfiles =>
      exact (RowsOnly.touch s db table).setTable hfiles (execute_keyType _ (.delete whereClause))

/-! ### What holds in every state -/

/-- The tables of a database: they have different names and fit into their slots, no others have
files, and those of the current database are in the catalog. -/
structure Stored (s : State) (db : Text) (ts : List LoadedTable) : Prop where
  names : (ts.map LoadedTable.name).Nodup
  fits : ∀ t ∈ ts, t.Fits
  files : ∀ n, (s.files db n).isSome → n ∈ ts.map LoadedTable.name
  cached : s.currentDb = some db → ∀ t ∈ ts, s.find? db t.name = some t.entry

structure Sound (s : State) : Prop where
  stored : ∀ db root, s.metadata db = some root → ∃ ts, Written root ts ∧ Stored s db ts
  current : ∀ db, s.currentDb = some db → (s.metadata db).isSome
  absent : ∀ db, s.metadata db = none → ∀ n, s.find? db n = none ∧ s.files db n = none

/-- A process that has just been started is sound. -/
theorem Sound.init : Sound {} := ⟨nofun, nofun, fun _ _ _ => ⟨rfl, rfl⟩⟩

/-- Only empty entries of the current database may have been added to the catalog. -/
theorem Sound.of_same (h : Sound s) (hmetadata : s'.metadata = s.metadata)
    (hcurrent : s'.currentDb = s.currentDb)
    (hfiles : ∀ d n, (s'.files d n).isSome = (s.files d n).isSome)
    (hentries : ∀ d n, s'.find? d n = s.find? d n ∨
      (s.currentDb = some d ∧ s.find? d n = none ∧ s'.find? d n = some {})) : Sound s' := by
  refine ⟨fun db root hroot => ?_, fun db hdb => ?_, fun db hnone n => ?_⟩
  · obtain ⟨ts, hwritten, hstored⟩ := h.stored db root (hmetadata ▸ hroot)
    refine ⟨ts, hwritten, hstored.names, hstored.fits, fun n hn => ?_, fun hdb t ht => ?_⟩
    · exact hstored.files n (hfiles db n ▸ hn)
    · have hcached := hstored.cached (hcurrent ▸ hdb) t ht
      rcases hentries db t.name with heq | ⟨-, hnone, -⟩
      · rw [heq, hcached]
      · rw [hnone] at hcached
        cases hcached
  · rw [hmetadata]
    exact h.current db (hcurrent ▸ hdb)
  · rw [hmetadata] at hnone
    obtain ⟨hfind, hfile⟩ := h.absent db hnone n
    have hsome := hfiles db n
    rw [hfile] at hsome
    refine ⟨?_, Option.not_isSome_iff_eq_none.mp (by rw [hsome]; exact Bool.false_ne_true)⟩
    rcases hentries db n with heq | ⟨hdb, -, -⟩
    · rw [heq, hfind]
    · have hcurrent := h.current db hdb
      rw [hnone] at hcurrent
      cases hcurrent

/-- A statement on the rows of one table keeps the state sound. -/
theorem Sound.rowsOnly (h : Sound s) (hdb : s.currentDb = some db)
    (hrows : RowsOnly db name s s') : Sound s' := by
  refine h.of_same hrows.metadata hrows.currentDb hrows.files fun d n => ?_
  rcases hrows.entries d n with heq | ⟨rfl, -, hnone, hempty⟩
  · exact .inl heq
  · exact .inr ⟨hdb, hnone, hempty⟩

/-- The catalog, the metadata files and the current database are as before. -/
theorem Sound.congr (h : Sound s) (hmetadata : s'.metadata = s.metadata)
    (hcurrent : s'.currentDb = s.currentDb) (hfiles : s'.files = s.files)
    (hentries : ∀ d n, s'.find? d n = s.find? d n) : Sound s' :=
  h.of_same hmetadata hcurrent (fun _ _ => by rw [hfiles]) fun d n => .inl (hentries d n)

/-- The metadata file of the database that is now the current one has been written; nothing has
changed in the others. -/
theorem Sound.write (h : Sound s) (hcurrent : s'.currentDb = some db)
    (hmetadata : s'.metadata = Function.update s.metadata db (some root))
    (hfiles : ∀ d, d ≠ db → ∀ n, s'.files d n = s.files d n)
    (hentries : ∀ d, d ≠ db → ∀ n, s'.find? d n = s.find? d n) (hwritten : Written root ts)
    (hstored : Stored s' db ts) : Sound s' := by
  have hother : ∀ d, d ≠ db → s'.metadata d = s.metadata d := fun d hd => by
    rw [hmetadata, Function.update_of_ne hd]
  have hself : s'.metadata db = some root := by rw [hmetadata, Function.update_self]
  refine ⟨fun d r hr => ?_, fun d hd => ?_, fun d hnone n => ?_⟩
  · by_cases hd : d = db
    · subst hd
      obtain rfl := Option.some.inj (hself.symm.trans hr)
      exact ⟨ts, hwritten, hstored⟩
    · obtain ⟨us, hwritten, hstored⟩ := h.stored d r (hother d hd ▸ hr)
      exact ⟨us, hwritten, hstored.names, hstored.fits,
        fun n hn => hstored.files n (hfiles d hd n ▸ hn),
        fun hcur => absurd (Option.some.inj (hcur.symm.trans hcurrent)) hd⟩
  · obtain rfl := Option.some.inj (hcurrent.symm.trans hd)
    rw [hself]
    rfl
  · have hd : d ≠ db := by
      rintro rfl
      rw [hself] at hnone
      cases hnone
    rw [hentries d hd, hfiles d hd]
    exact h.absent d (hother d hd ▸ hnone) n

/-! ### CREATE -/

/-- The slot of an HFT table that is loaded into it. -/
def LoadedTable.initIn (t : LoadedTable) (slot : TableColumn) : TableColumn :=
  slot.init (t.columns.map ColumnNode.precision) t.isTop t.symbol

/-- A symbol with a slot and few enough columns has its slot made. -/
theorem initSlot_eq {symbol : Int} {i : Nat} {precisions : List Int} (isBook : Bool)
    (slots : SymbolAccessArray) (hplace : place symbol = some i)
    (hcolumns : precisions.length ≤ maxColumn) : initSlot slots symbol precisions isBook =
      some (Function.update slots symbol.toNat
        ((slots symbol.toNat).init precisions isBook symbol)) := by
  have hi : symbol.toNat = i := by
    obtain ⟨rfl, -⟩ := place_eq_some.mp hplace
    exact Int.toNat_natCast i
  rw [initSlot, hplace, hi]
  exact if_neg (not_lt.mpr hcolumns)

/-- The state once a new table has been written into the file and put into the catalog. -/
def State.create (s : State) (db : Text) (t : LoadedTable) (root : JSONValue) : State :=
  { (s.touchDb db).setEntry db t.name t.entry with
    metadata := Function.update s.metadata db (some root)
    files := setFiles s.files db t.name (some {}) }

/-- A table that is created is found, and no other is affected. -/
theorem State.find?_create (s : State) (db : Text) (t : LoadedTable) (root : JSONValue)
    (d n : Text) : (s.create db t root).find? d n =
      if db = d ∧ t.name = n then some t.entry else s.find? d n := by
  have hset : (s.create db t root).find? d n =
      ((s.touchDb db).setEntry db t.name t.entry).find? d n := rfl
  rw [hset, State.find?_setEntry, State.find?_touchDb]

/-- Building the B+ trees changes nothing else. -/
theorem initializeTables_trees (l : List (Text × Text × TableEntry)) (s : State) :
    ∃ b, (initializeTables l s).1 = { s with dbBtrees := b } := by
  induction l generalizing s with
  | nil => exact ⟨s.dbBtrees, rfl⟩
  | cons first l ih =>
      obtain ⟨db, name, entry⟩ := first
      rw [initializeTables]
      split
      · exact ih s
      · rw [initializeTable]
        cases s.files db name with
        | none => exact ⟨s.dbBtrees, rfl⟩
        | some f =>
            dsimp only
            cases initializePrimaryIndexBtrees (entry.columns.map ColumnNode.column) f
                (s.dbBtrees db name) with
            | error e => exact ⟨s.dbBtrees, rfl⟩
            | ok trees => exact ih _

/-- The catalog, the metadata files, the files and the slots are as before. -/
structure Unchanged (s s' : State) : Prop where
  metadata : s'.metadata = s.metadata
  currentDb : s'.currentDb = s.currentDb
  slots : s'.symbolAccessArray = s.symbolAccessArray
  files : s'.files = s.files
  trees : s'.dbBtrees = s.dbBtrees
  entries : ∀ d n, s'.find? d n = s.find? d n

theorem Unchanged.refl (s : State) : Unchanged s s :=
  ⟨rfl, rfl, rfl, rfl, rfl, fun _ _ => rfl⟩

theorem Unchanged.touchDb (s : State) (db : Text) : Unchanged s (s.touchDb db) :=
  ⟨rfl, rfl, rfl, rfl, rfl, s.find?_touchDb db⟩

/-- What keeps tables, metadata and slots keeps the state sound. -/
theorem Sound.unchanged (h : Sound s) (hsame : Unchanged s s') : Sound s' :=
  h.congr hsame.metadata hsame.currentDb hsame.files hsame.entries

/-- The table a CREATE statement makes of these columns. -/
def CreateStatement.table (stmt : CreateStatement) (top : JSONValue) (nodes : List ColumnNode) :
    LoadedTable :=
  ⟨stmt.name, stmt.symbol, startsWithOne top.getInt, nodes⟩

/-- A CREATE statement is refused, or adds a table to the file and to the catalog. -/
theorem addTable_cases (h : Sound s) (hdb : s.currentDb = some db) (stmt : CreateStatement)
    (top : JSONValue) (columns : List (ColumnNode × JSONValue))
    (hcolumns : (columns.map Prod.snd).mapM loadColumn = .ok (columns.map Prod.fst))
    (next : State → Outcome) :
    (∃ s' e, (s.find? db stmt.name).isSome ∧
      addTable stmt top columns db s next = (s', some (.thrown e)) ∧ Unchanged s s') ∨
    ∃ root root' ts, s.find? db stmt.name = none ∧ s.metadata db = some root ∧ Written root ts ∧
      Written root' (ts ++ [stmt.table top (columns.map Prod.fst)]) ∧
      addTable stmt top columns db s next =
        next (s.create db (stmt.table top (columns.map Prod.fst)) root') := by
  rw [addTable]
  dsimp only
  rw [State.find?_touchDb]
  cases hfind : s.find? db stmt.name with
  | some entry => exact .inl ⟨_, _, rfl, rfl, .touchDb s db⟩
  | none =>
      obtain ⟨root, hroot⟩ := Option.isSome_iff_exists.mp (h.current db hdb)
      obtain ⟨ts, hwritten, hstored⟩ := h.stored db root hroot
      obtain ⟨root', happend, hwritten'⟩ := hwritten.append
        (describes_object stmt.name stmt.symbol top hcolumns)
      refine .inr ⟨root, root', ts, rfl, hroot, hwritten, hwritten', ?_⟩
      have htouch : (s.touchDb db).metadata db = some root := hroot
      rw [htouch]
      simp only [Option.isSome_none, Bool.false_eq_true, if_false, happend]
      rfl

/-- A new table. -/
theorem Sound.create {root' : JSONValue} (h : Sound s) (hdb : s.currentDb = some db)
    (hnew : s.find? db t.name = none) (hroot : s.metadata db = some root)
    (hwritten : Written root ts) (hwritten' : Written root' (ts ++ [t])) (hfits : t.Fits) :
    Sound (s.create db t root') := by
  obtain ⟨us, hus, hstored⟩ := h.stored db root hroot
  obtain rfl := hwritten.unique hus
  have hfresh : t.name ∉ ts.map LoadedTable.name := by
    intro hmem
    obtain ⟨u, hu, hname⟩ := List.mem_map.mp hmem
    rw [← hname, hstored.cached hdb u hu] at hnew
    cases hnew
  refine h.write hdb rfl (fun d hd n => ?_) (fun d hd n => ?_) hwritten'
    ⟨?_, fun u hu => ?_, fun n hn => ?_, fun _ u hu => ?_⟩
  · exact setFiles_of_ne fun heq => hd heq.1.symm
  · rw [State.find?_create, if_neg fun heq => hd heq.1.symm]
  · rw [List.map_append, List.map_singleton]
    exact List.nodup_append.mpr ⟨hstored.names, List.nodup_singleton _, fun x hx y hy heq =>
      hfresh (List.mem_singleton.mp hy ▸ heq ▸ hx)⟩
  · rcases List.mem_append.mp hu with hu | hu
    · exact hstored.fits u hu
    · exact List.mem_singleton.mp hu ▸ hfits
  · rw [List.map_append, List.mem_append]
    by_cases hn' : n = t.name
    · exact .inr (List.mem_singleton.mpr hn')
    · have hother : setFiles s.files db t.name (some {}) db n = s.files db n :=
        setFiles_of_ne fun heq => hn' heq.2.symm
      exact .inl (hstored.files n (hother ▸ hn))
  · rw [State.find?_create]
    rcases List.mem_append.mp hu with hu | hu
    · have hne : ¬ (db = db ∧ t.name = u.name) := fun heq =>
        hfresh (heq.2 ▸ List.mem_map_of_mem hu)
      rw [if_neg hne]
      exact hstored.cached hdb u hu
    · rw [List.mem_singleton.mp hu, if_pos ⟨rfl, rfl⟩]

/-- A table with this name and symbol has been added to the metadata file and to the catalog. -/
structure Adds (s : State) (db : Text) (t : LoadedTable) (root' : JSONValue) (name : Text)
    (symbol : Int) : Prop where
  named : t.name = name
  symbol_eq : t.symbol = symbol
  fresh : s.find? db name = none
  file : ∃ root ts, s.metadata db = some root ∧ Written root ts ∧ Written root' (ts ++ [t])

/-- Creating a table that fits its slot keeps the state sound. -/
theorem Sound.adds {root' : JSONValue} {symbol : Int} (h : Sound s) (hdb : s.currentDb = some db)
    (hadds : Adds s db t root' name symbol) (hfits : t.Fits) : Sound (s.create db t root') := by
  obtain ⟨rfl, rfl, hfresh, root, ts, hroot, hwritten, hwritten'⟩ := hadds
  exact h.create hdb hfresh hroot hwritten hwritten' hfits

/-- CREATE TABLE. -/
theorem createTable_cases (h : Sound s) (hdb : s.currentDb = some db) (name : Text)
    (columns : List TableColumnSpec) :
    (∃ s' e, generateCreateTableStatement
        { name := name, columns := columns.map TableColumnSpec.definition } db s =
          (s', some (.thrown e)) ∧ Unchanged s s') ∨
    ∃ t root', Adds s db t root' name (-1) ∧ generateCreateTableStatement
        { name := name, columns := columns.map TableColumnSpec.definition } db s =
          initializeTables ((s.create db t root').tables.filter fun x => x.2.1 = name)
            (s.create db t root') := by
  rw [generateCreateTableStatement]
  cases hnodes : (columns.map TableColumnSpec.definition).mapM createColumn with
  | error e => exact .inl ⟨s, e, rfl, .refl s⟩
  | ok nodes =>
      have hload := mapM_loadColumn (fun col hcol => by
        obtain ⟨c, -, rfl⟩ := List.mem_map.mp hcol
        rfl) hnodes
      rcases addTable_cases h hdb _ (.bool false) nodes hload _ with
        ⟨s', e, -, heq, hsame⟩ | ⟨root, root', ts, hfresh, hroot, hwritten, hwritten', hadd⟩
      · exact .inl ⟨s', e, heq, hsame⟩
      · exact .inr ⟨_, root', ⟨rfl, rfl, hfresh, root, ts, hroot, hwritten, hwritten'⟩, hadd⟩

/-- The table of a CREATE HFT TABLE statement. -/
def hftTable (name : Text) (columns : List ColumnDefinition) (symbol : Int) (top : Bool) :
    LoadedTable :=
  ⟨name, symbol, top, (columns.map createHftColumn).map Prod.fst⟩

theorem hftTable_precisions (name : Text) (columns : List ColumnDefinition) (symbol : Int)
    (top : Bool) : (hftTable name columns symbol top).columns.map ColumnNode.precision =
      columns.map ColumnDefinition.precision := by
  rw [hftTable, List.map_map, List.map_map]
  rfl

theorem SlotFits.fits {columns : List ColumnDefinition} {symbol : Int} {top : Bool}
    (h : SlotFits symbol columns.length) : (hftTable name columns symbol top).Fits := by
  refine .inr ⟨h.1, ?_⟩
  rw [hftTable, List.length_map, List.length_map]
  exact h.2

/-- The symbol of a slot is not that of a table without one. -/
theorem SlotFits.ne {symbol : Int} {columns : Nat} (h : SlotFits symbol columns) :
    symbol ≠ -1 := by
  rintro rfl
  obtain ⟨⟨i, hi⟩, -⟩ := h
  cases hi

/-- CREATE HFT TABLE. -/
theorem createHft_cases (h : Sound s) (hdb : s.currentDb = some db) (name : Text)
    (columns : List ColumnDefinition) (symbol : Int) (top : Bool) :
    (∃ s' e, (s.find? db name).isSome ∧ generateHFTCreateStatement
        { name := name, symbol := symbol, top := top, columns := columns } db s =
          (s', some (.thrown e)) ∧ Unchanged s s') ∨
    ∃ root', Adds s db (hftTable name columns symbol top) root' name symbol ∧
      (¬ SlotFits symbol columns.length ∧ (generateHFTCreateStatement
          { name := name, symbol := symbol, top := top, columns := columns } db s).2 =
            some .outOfBounds ∨
        SlotFits symbol columns.length ∧ generateHFTCreateStatement
          { name := name, symbol := symbol, top := top, columns := columns } db s =
            ({ s.create db (hftTable name columns symbol top) root' with
              symbolAccessArray := Function.update s.symbolAccessArray symbol.toNat
                ((hftTable name columns symbol top).initIn
                  (s.symbolAccessArray symbol.toNat)) }, none)) := by
  rw [generateHFTCreateStatement]
  rcases addTable_cases h hdb { name := name, symbol := symbol, top := top, columns := columns }
    (.int (if top then 1 else 0)) (columns.map createHftColumn) (mapM_loadColumn_hft columns) _ with
    hrefused | ⟨root, root', ts, hfresh, hroot, hwritten, hwritten', hadd⟩
  · exact .inl hrefused
  · have htable : CreateStatement.table { name := name, symbol := symbol, top := top, columns := columns }
        (.int (if top then 1 else 0)) ((columns.map createHftColumn).map Prod.fst) =
        hftTable name columns symbol top := by
      cases top <;> rfl
    rw [htable] at hwritten' hadd
    refine .inr ⟨root', ⟨rfl, rfl, hfresh, root, ts, hroot, hwritten, hwritten'⟩, ?_⟩
    rw [hadd]
    dsimp only
    have hslots : (s.create db (hftTable name columns symbol top) root').symbolAccessArray =
        s.symbolAccessArray := rfl
    rw [hslots]
    cases hplace : place symbol with
    | none =>
        refine .inl ⟨fun hfits => ?_, by rw [initSlot, hplace]⟩
        obtain ⟨⟨i, hi⟩, -⟩ := hfits
        cases hplace.symm.trans hi
    | some i =>
        by_cases hcolumns : columns.length ≤ maxColumn
        · refine .inr ⟨⟨⟨i, hplace⟩, hcolumns⟩, ?_⟩
          rw [initSlot_eq _ _ hplace (by rwa [List.length_map]), LoadedTable.initIn,
            hftTable_precisions]
          rfl
        · refine .inl ⟨fun hfits => hcolumns hfits.2, ?_⟩
          rw [initSlot, hplace]
          simp only [List.length_map]
          rw [if_pos (not_le.mp hcolumns)]

/-- CREATE DATABASE keeps the state sound. -/
theorem Sound.createDatabase (h : Sound s) (name : Text) : Sound (createDatabase name s).1 := by
  rw [Catalog.createDatabase]
  split
  · exact h
  · next hnone =>
      have hnone := Option.not_isSome_iff_eq_none.mp hnone
      refine h.write rfl rfl (fun _ _ _ => rfl) (fun _ _ _ => rfl) (.nil name)
        ⟨List.nodup_nil, nofun, fun n hn => ?_, fun _ => nofun⟩
      have hfile : (s.files name n).isSome := hn
      rw [(h.absent name hnone n).2] at hfile
      cases hfile

/-! ### Loading -/

/-- The trees of a table that is loaded. -/
def LoadedTable.newTrees (t : LoadedTable) (trees : Text → Option Tree) : Text → Option Tree :=
  t.columns.foldl (fun trees node =>
    if node.isPrimary || node.isUnique then
      Function.update trees node.name (some (.int fun _ => none))
    else trees) trees

/-- The state with a table that has been loaded. -/
def LoadedTable.put (db : Text) (s : State) (t : LoadedTable) : State :=
  { s.setEntry db t.name t.entry with
    dbBtrees := setTrees s.dbBtrees db t.name (t.newTrees (s.dbBtrees db t.name))
    symbolAccessArray :=
      if t.symbol = -1 then s.symbolAccessArray
      else
        Function.update s.symbolAccessArray t.symbol.toNat
          (t.initIn (s.symbolAccessArray t.symbol.toNat)) }

/-- A table that fits its slot is loaded. -/
theorem loadTable_eq (hfits : t.Fits) (db : Text) (s : State) :
    loadTable db t s = some (t.put db s) := by
  rw [loadTable, LoadedTable.put]
  rcases hfits with hregular | ⟨⟨i, hplace⟩, hcolumns⟩
  · dsimp only
    rw [if_pos hregular, if_pos hregular]
    rfl
  · have hne : t.symbol ≠ -1 := by
      intro heq
      rw [heq] at hplace
      cases hplace
    dsimp only
    rw [if_neg hne, if_neg hne, initSlot_eq _ _ hplace (by simpa using hcolumns)]
    rfl

/-- The tables of a root are loaded one after another. -/
theorem loadTables_eq (h : List.Forall₂ Describes items ts) (hfits : ∀ t ∈ ts, t.Fits) (db : Text)
    (s : State) : loadTables db items s = (ts.foldl (LoadedTable.put db) s, none) := by
  induction h generalizing s with
  | nil => rfl
  | cons ht _ ih =>
      rw [loadTables, ht.1]
      dsimp only
      rw [loadTable_eq (hfits _ List.mem_cons_self)]
      exact ih (fun u hu => hfits u (List.mem_cons_of_mem _ hu)) _

/-- `initialDatabseLoad` on a metadata file that lists these tables. -/
theorem initialDatabseLoad_eq (hdb : s.currentDb = some db) (hroot : s.metadata db = some root)
    (hwritten : Written root ts) (hfits : ∀ t ∈ ts, t.Fits) :
    initialDatabseLoad s = (ts.foldl (LoadedTable.put db) s, none) := by
  obtain ⟨items, hitems, hdescribes⟩ := hwritten.tables
  rw [initialDatabseLoad, hdb]
  simp only [hroot, hitems]
  exact loadTables_eq hdescribes hfits db s

/-- Loading tables leaves metadata, files and pools. -/
theorem foldl_put_frame (ts : List LoadedTable) (db : Text) (s : State) :
    (ts.foldl (LoadedTable.put db) s).metadata = s.metadata ∧
      (ts.foldl (LoadedTable.put db) s).currentDb = s.currentDb ∧
      (ts.foldl (LoadedTable.put db) s).files = s.files ∧
      (ts.foldl (LoadedTable.put db) s).pools = s.pools := by
  induction ts generalizing s with
  | nil => exact ⟨rfl, rfl, rfl, rfl⟩
  | cons t ts ih => exact ih _

theorem find?_put (t : LoadedTable) (db : Text) (s : State) (d n : Text) :
    (t.put db s).find? d n = if db = d ∧ t.name = n then some t.entry else s.find? d n :=
  State.find?_setEntry s db t.name t.entry d n

/-- What is found after loading, the last table of a name deciding. -/
theorem find?_foldl_put (ts : List LoadedTable) (db : Text) (s : State) :
    (ts.foldl (LoadedTable.put db) s).find? db =
      rewriteAll LoadedTable.name (fun t _ => some t.entry) ts (s.find? db) := by
  induction ts generalizing s with
  | nil => rfl
  | cons t ts ih =>
      rw [List.foldl_cons, ih, rewriteAll_cons]
      refine congrArg (rewriteAll _ _ ts) (funext fun n => ?_)
      rw [find?_put, Function.update_apply]
      simp only [true_and, eq_comm]

/-- Loading a database leaves the others. -/
theorem find?_foldl_put_ne (h : db ≠ d) (ts : List LoadedTable) (s : State) :
    (ts.foldl (LoadedTable.put db) s).find? d n = s.find? d n := by
  induction ts generalizing s with
  | nil => rfl
  | cons t ts ih => rw [List.foldl_cons, ih, find?_put, if_neg fun heq => h heq.1]

/-- The catalog has the tables that have been loaded. -/
theorem find?_loaded (hnames : (ts.map LoadedTable.name).Nodup) (ht : t ∈ ts) (db : Text)
    (s : State) : (ts.foldl (LoadedTable.put db) s).find? db t.name = some t.entry := by
  rw [find?_foldl_put]
  exact rewriteAll_of_mem hnames ht

theorem find?_not_loaded (hn : n ∉ ts.map LoadedTable.name) (db : Text) (s : State) :
    (ts.foldl (LoadedTable.put db) s).find? db n = s.find? db n := by
  rw [find?_foldl_put]
  exact rewriteAll_other fun t ht heq => hn (heq ▸ List.mem_map_of_mem ht)

/-- The slots after loading, the last table of a symbol deciding. -/
theorem slots_foldl_put (ts : List LoadedTable) (db : Text) (s : State) :
    (ts.foldl (LoadedTable.put db) s).symbolAccessArray =
      rewriteAll (fun t => t.symbol.toNat) LoadedTable.initIn
        (ts.filter fun t => t.symbol ≠ -1) s.symbolAccessArray := by
  induction ts generalizing s with
  | nil => rfl
  | cons t ts ih =>
      rw [List.foldl_cons, ih, LoadedTable.put]
      by_cases hregular : t.symbol = -1
      · rw [List.filter_cons_of_neg (by simpa using hregular)]
        simp only [hregular, if_true]
      · rw [List.filter_cons_of_pos (by simpa using hregular), rewriteAll_cons]
        simp only [hregular, if_false]

/-- Loading from an empty catalog. -/
theorem Sound.load (h : Sound s) (s' : State) (hmetadata : s'.metadata = s.metadata)
    (hfiles : s'.files = s.files)
    (hempty : s'.globalTableCache = SortedMap.empty)
    (hcurrent : ∀ db, s'.currentDb = some db → (s.metadata db).isSome) :
    Sound (initialDatabseLoad s').1 ∧ (initialDatabseLoad s').2 = none := by
  have hfind : ∀ d n, s'.find? d n = none := fun d n => by rw [State.find?, hempty]; rfl
  cases hdb : s'.currentDb with
  | none =>
      rw [initialDatabseLoad, hdb]
      refine ⟨⟨fun d root hroot => ?_, fun d hd => ?_, fun d hnone n => ?_⟩, rfl⟩
      · obtain ⟨ts, hwritten, hstored⟩ := h.stored d root (hmetadata ▸ hroot)
        exact ⟨ts, hwritten, hstored.names, hstored.fits, hfiles ▸ hstored.files,
          fun hd => absurd (hdb.symm.trans hd) nofun⟩
      · exact absurd (hdb.symm.trans hd) nofun
      · exact ⟨hfind d n, hfiles ▸ (h.absent d (hmetadata ▸ hnone) n).2⟩
  | some db =>
      obtain ⟨root, hroot⟩ := Option.isSome_iff_exists.mp (hcurrent db hdb)
      obtain ⟨ts, hwritten, hstored⟩ := h.stored db root hroot
      rw [initialDatabseLoad_eq hdb (hmetadata ▸ hroot) hwritten hstored.fits]
      obtain ⟨hmeta, hcur, hfile, -⟩ := foldl_put_frame ts db s'
      refine ⟨⟨fun d r hr => ?_, fun d hd => ?_, fun d hnone n => ?_⟩, rfl⟩
      · rw [hmeta, hmetadata] at hr
        obtain ⟨us, hwritten', hstored'⟩ := h.stored d r hr
        refine ⟨us, hwritten', hstored'.names, hstored'.fits, ?_, fun hd u hu => ?_⟩
        · rw [hfile, hfiles]
          exact hstored'.files
        · rw [hcur, hdb, Option.some.injEq] at hd
          subst hd
          obtain rfl := Option.some.inj (hroot.symm.trans hr)
          rw [hwritten'.unique hwritten] at hu
          exact find?_loaded hstored.names hu db s'
      · rw [hcur] at hd
        rw [hmeta, hmetadata]
        exact hcurrent d hd
      · rw [hmeta, hmetadata] at hnone
        have hne : db ≠ d := by
          rintro rfl
          rw [hroot] at hnone
          cases hnone
        rw [find?_foldl_put_ne hne, hfile, hfiles]
        exact ⟨hfind d n, (h.absent d hnone n).2⟩

/-! ### DROP -/

/-- The state once a table has been dropped, with this object in the metadata file. -/
def State.drop (s : State) (db name : Text) (root : JSONValue) : State :=
  { s.eraseEntry db name with
    files := setFiles s.files db name none
    metadata := Function.update s.metadata db (some root) }

theorem State.find?_drop (s : State) (db name : Text) (root : JSONValue) (d n : Text) :
    (s.drop db name root).find? d n = if db = d ∧ name = n then none else s.find? d n :=
  State.find?_eraseEntry s db name d n

/-- A table that is not there is not dropped. -/
theorem dropTable_missing (hnone : s.find? db name = none) : (dropTable name db s).1 = s := by
  rw [dropTable, hnone]
  split
  · rfl
  · rfl

/-- DROP TABLE takes the table out of the catalog and the root. -/
theorem dropTable_eq (hsome : (s.find? db name).isSome) (hroot : s.metadata db = some root)
    (hwritten : Written root ts) (hnames : (ts.map LoadedTable.name).Nodup) :
    ∃ root', dropTable name db s = (s.drop db name root', none) ∧
      Written root' (ts.filter fun t => t.name ≠ name) := by
  obtain ⟨fields, items, rfl, hlookup, hdescribes⟩ := hwritten
  obtain ⟨items', hremove, hdescribes'⟩ := removeTable_spec hdescribes hnames
  refine ⟨.object (JSONValue.assign fields "tables".toList (.array items')), ?_,
    _, _, rfl, lookup_assign _ _ _, hdescribes'⟩
  have hdb : (s.globalTableCache.find? db).isNone = false := by
    rw [State.find?] at hsome
    cases hfind : s.globalTableCache.find? db with
    | none =>
        rw [hfind] at hsome
        cases hsome
    | some tables => rfl
  obtain ⟨entry, hentry⟩ := Option.isSome_iff_exists.mp hsome
  have hmetadata : (s.eraseEntry db name).metadata db = some (.object fields) := hroot
  rw [dropTable, hdb, hentry]
  simp only [Bool.false_eq_true, if_false, Option.isNone_some, hmetadata, hlookup, hremove]
  rfl

/-- DROP TABLE keeps the state sound. -/
theorem Sound.dropTable (h : Sound s) (hdb : s.currentDb = some db) (name : Text) :
    Sound (dropTable name db s).1 := by
  cases hfind : s.find? db name with
  | none =>
      rw [dropTable_missing hfind]
      exact h
  | some entry =>
      obtain ⟨root, hroot⟩ := Option.isSome_iff_exists.mp (h.current db hdb)
      obtain ⟨ts, hwritten, hstored⟩ := h.stored db root hroot
      obtain ⟨root', hdrop, hwritten'⟩ :=
        dropTable_eq (by rw [hfind]; rfl) hroot hwritten hstored.names
      rw [hdrop]
      refine h.write hdb rfl (fun d hd n => ?_) (fun d hd n => ?_) hwritten'
        ⟨?_, fun t ht => ?_, fun n hn => ?_, fun _ t ht => ?_⟩
      · exact setFiles_of_ne fun heq => hd heq.1.symm
      · rw [State.find?_drop, if_neg fun heq => hd heq.1.symm]
      · exact hstored.names.sublist (List.filter_sublist.map _)
      · exact hstored.fits t (List.mem_filter.mp ht).1
      · have hfile : (setFiles s.files db name none db n).isSome := hn
        by_cases hname : name = n
        · subst hname
          rw [setFiles_self] at hfile
          cases hfile
        · rw [setFiles_of_ne fun heq => hname heq.2] at hfile
          obtain ⟨t, ht, rfl⟩ := List.mem_map.mp (hstored.files n hfile)
          exact List.mem_map_of_mem
            (List.mem_filter.mpr ⟨ht, decide_eq_true fun heq => hname heq.symm⟩)
      · obtain ⟨ht, hname⟩ := List.mem_filter.mp ht
        have hname := of_decide_eq_true hname
        rw [State.find?_drop, if_neg fun heq => hname heq.2.symm]
        exact hstored.cached hdb t ht

/-- DROP DATABASE keeps the state sound. -/
theorem Sound.dropDatabase (h : Sound s) (name : Text) : Sound (dropDatabase name s).1 := by
  rw [Catalog.dropDatabase]
  split
  · exact h
  · refine ⟨fun d root hroot => ?_, nofun, fun d hnone n => ⟨rfl, ?_⟩⟩
    · dsimp only at hroot
      rw [Function.update_apply] at hroot
      split at hroot
      · cases hroot
      · next hd =>
          obtain ⟨ts, hwritten, hstored⟩ := h.stored d root hroot
          refine ⟨ts, hwritten, hstored.names, hstored.fits, fun n hn => ?_, nofun⟩
          have hfile : Function.update s.files name (fun _ => none) d n = s.files d n := by
            rw [Function.update_of_ne hd]
          exact hstored.files n (hfile ▸ hn)
    · dsimp only at hnone ⊢
      rw [Function.update_apply] at hnone ⊢
      split
      · rfl
      · next hd =>
          rw [if_neg hd] at hnone
          exact (h.absent d hnone n).2

/-! ### Every step -/

/-- The event did not leave an array, and called nothing that had not been set. -/
def Ends (f : Option Failure) : Prop := f ≠ some .outOfBounds ∧ f ≠ some .uninitialised

theorem Ends.none : Ends none := ⟨nofun, nofun⟩

theorem Ends.thrown (e : Fault) : Ends (some (.thrown e)) := ⟨nofun, nofun⟩

theorem Ends.map (f : Option Fault) : Ends (f.map Failure.thrown) := by
  cases f with
  | none => exact .none
  | some e => exact .thrown e

/-- Then it is known what follows. -/
theorem follows_ends {o : Outcome} (h : Follows o s') (hends : Ends o.2) : s' = o.1 := by
  obtain ⟨s, f⟩ := o
  cases f with
  | none => exact h
  | some e =>
      cases e with
      | thrown e => exact h
      | aborted => exact h.elim
      | outOfBounds => exact absurd rfl hends.1
      | uninitialised => exact absurd rfl hends.2

/-- A run goes on behind an event that returned. -/
theorem reach_execute {ok : State → Event → Prop} (h : (engine stems).Reach ok s) (e : Event)
    (hok : ok s e) (hreturns : (execute stems s e).2 = none) :
    (engine stems).Reach ok (execute stems s e).1 := by
  refine h.step hok ?_
  change Follows (execute stems s e) (execute stems s e).1
  generalize execute stems s e = o at hreturns
  obtain ⟨s', f⟩ := o
  cases hreturns
  rfl

/-- Building the B+ trees ends, with an exception at worst. -/
theorem initializeTables_ends (l : List (Text × Text × TableEntry)) (s : State) :
    Ends (initializeTables l s).2 := by
  induction l generalizing s with
  | nil => exact .none
  | cons first l ih =>
      obtain ⟨db, name, entry⟩ := first
      rw [initializeTables]
      split
      · exact ih s
      · rw [initializeTable]
        cases s.files db name with
        | none => exact .thrown _
        | some f =>
            dsimp only
            cases initializePrimaryIndexBtrees (entry.columns.map ColumnNode.column) f
                (s.dbBtrees db name) with
            | error e => exact .thrown e
            | ok trees => exact ih _

/-- INSERT ends, with an exception at worst. -/
theorem insertRows_ends (table : Text) (stmt : InsertStatement) (db : Text) (s : State) :
    Ends (insertRows table stmt db s).2 := by
  rw [insertRows]
  split
  · exact .thrown _
  · exact .thrown _
  · split
    · exact .thrown _
    · split
      · exact .thrown _
      · split
        · exact .thrown _
        · split
          · exact .thrown _
          · exact .none

theorem updateRows_ends (table : Text) (assignments : List (Text × Text))
    (whereClause : Option Expression) (db : Text) (s : State) :
    Ends (updateRows table assignments whereClause db s).2 := by
  rw [updateRows]
  dsimp only
  split
  · split <;> exact .thrown _
  · exact .map _

theorem deleteRows_ends (table : Text) (whereClause : Option Expression) (db : Text) (s : State) :
    Ends (deleteRows table whereClause db s).2 := by
  rw [deleteRows]
  split
  · exact .thrown _
  · exact .map _

/-- From a sound state CREATE TABLE ends, with an exception at worst. -/
theorem createTable_ends (h : Sound s) (hdb : s.currentDb = some db) (name : Text)
    (columns : List TableColumnSpec) : Ends (generateCreateTableStatement
      { name := name, columns := columns.map TableColumnSpec.definition } db s).2 := by
  rcases createTable_cases h hdb name columns with ⟨s', e, heq, -⟩ | ⟨t, root', -, heq⟩
  · rw [heq]
    exact .thrown e
  · rw [heq]
    exact initializeTables_ends _ _

/-- So does DROP TABLE. -/
theorem dropTable_ends (h : Sound s) (hdb : s.currentDb = some db) (name : Text) :
    Ends (dropTable name db s).2 := by
  cases hfind : s.find? db name with
  | none =>
      rw [dropTable, hfind]
      split
      · exact .thrown _
      · exact .thrown _
  | some entry =>
      obtain ⟨root, hroot⟩ := Option.isSome_iff_exists.mp (h.current db hdb)
      obtain ⟨ts, hwritten, hstored⟩ := h.stored db root hroot
      obtain ⟨root', hdrop, -⟩ := dropTable_eq (by rw [hfind]; rfl) hroot hwritten hstored.names
      rw [hdrop]
      exact .none

/-- A statement that needs a database is refused or executed. -/
theorem State.withDb_spec {P : Outcome → Prop} {statement : Text → State → Outcome}
    (hrefused : ∀ e, P (s, some (.thrown e)))
    (hdone : ∀ db, s.currentDb = some db → P (statement db s)) : P (s.withDb statement) := by
  rw [State.withDb]
  cases hdb : s.currentDb with
  | none => exact hrefused _
  | some db => exact hdone db hdb

/-- USE throws for a name without metadata and loads the database otherwise. -/
theorem parseUseStatement_cases (name : Text) (s : State) :
    (∃ e, s.metadata name = none ∧ parseUseStatement name s = (s, some (.thrown e))) ∨
      (s.metadata name).isSome ∧ parseUseStatement name s = initialDatabseLoad (s.opening name) := by
  rw [parseUseStatement]
  cases hname : s.metadata name with
  | none => exact .inl ⟨_, rfl, rfl⟩
  | some root => exact .inr ⟨rfl, rfl⟩

/-- A database that is known is loaded without a fault, and the state stays sound. -/
theorem Sound.opening (h : Sound s) (hname : (s.metadata name).isSome) :
    Sound (initialDatabseLoad (s.opening name)).1 ∧
      (initialDatabseLoad (s.opening name)).2 = none := by
  refine h.load (s.opening name) rfl rfl rfl fun db hdb => ?_
  obtain rfl := Option.some.inj hdb
  exact hname

/-- So is the metadata on disk when the process starts. -/
theorem Sound.starting (h : Sound s) : Sound (initialDatabseLoad s.starting).1 ∧
    (initialDatabseLoad s.starting).2 = none :=
  h.load s.starting rfl rfl rfl h.current

/-- The files of the same tables, with anything in them. -/
def SameFiles (files files' : Text → Text → Option Files) : Prop :=
  ∀ d n, (files' d n).isSome = (files d n).isSome

theorem SameFiles.refl (files : Text → Text → Option Files) : SameFiles files files :=
  fun _ _ => rfl

/-- The vacuum of one table changes files only, and those of tables that have some. -/
theorem vacuumFiles_cases (db name : Text) (s : State) : ∃ files, SameFiles s.files files ∧
    (vacuumFiles db name s).1 = { s with files := files } := by
  rw [vacuumFiles]
  cases hfiles : s.files db name with
  | none => exact ⟨_, .refl _, rfl⟩
  | some f =>
      refine ⟨_, fun d n => ?_, rfl⟩
      by_cases heq : d = db ∧ n = name
      · obtain ⟨rfl, rfl⟩ := heq
        rw [setFiles_self, hfiles]
        rfl
      · rw [setFiles_of_ne fun hboth => heq ⟨hboth.1.symm, hboth.2.symm⟩]

/-- So does the vacuum of them all. -/
theorem runVacuum_cases (l : List (Text × Text × TableEntry)) (s : State) :
    ∃ files, SameFiles s.files files ∧ (runVacuum l s).1 = { s with files := files } := by
  induction l generalizing s with
  | nil => exact ⟨_, .refl _, rfl⟩
  | cons x l ih =>
      obtain ⟨db, name, entry⟩ := x
      obtain ⟨files, hfirst, hs⟩ := vacuumFiles_cases db name s
      rw [runVacuum]
      generalize vacuumFiles db name s = first at hs
      obtain ⟨s1, f⟩ := first
      obtain rfl : s1 = { s with files := files } := hs
      cases f with
      | some e => exact ⟨files, hfirst, rfl⟩
      | none =>
          obtain ⟨files', hrest, hs'⟩ := ih { s with files := files }
          exact ⟨files', fun d n => (hrest d n).trans (hfirst d n), hs'⟩

/-- The vacuum of a start, if there is one. -/
theorem vacuum_cases (vacuums : Bool) (s : State) : ∃ files, SameFiles s.files files ∧
    (if vacuums then runVacuum s.tables s else (s, none)).1 = { s with files := files } := by
  cases vacuums with
  | true => exact runVacuum_cases s.tables s
  | false => exact ⟨_, .refl _, rfl⟩

/-- A restart loads the current database, vacuums its tables if it does, and then loads the
trees. -/
theorem Sound.restart_cases (h : Sound s) (vacuums : Bool) : ∃ files b f,
    SameFiles (initialDatabseLoad s.starting).1.files files ∧
    (∀ e, f = some e → e = .aborted) ∧
    restart vacuums s =
      ({ (initialDatabseLoad s.starting).1 with files := files, dbBtrees := b }, f) := by
  have hreturns := h.starting.2
  rw [restart]
  generalize initialDatabseLoad s.starting = loaded at hreturns
  obtain ⟨s1, f⟩ := loaded
  obtain rfl : f = none := hreturns
  obtain ⟨files, hsame, hs⟩ := vacuum_cases vacuums s1
  dsimp only
  generalize (if vacuums then runVacuum s1.tables s1 else (s1, none)) = vacuumed at hs
  obtain ⟨s2, f⟩ := vacuumed
  obtain rfl : s2 = { s1 with files := files } := hs
  cases f with
  | some e =>
      refine ⟨files, s1.dbBtrees, some .aborted, hsame, fun e he => ?_, rfl⟩
      exact (Option.some.inj he).symm
  | none =>
      obtain ⟨b, hb⟩ := initializeTables_trees { s1 with files := files }.tables
        { s1 with files := files }
      dsimp only
      generalize initializeTables _ { s1 with files := files } = started at hb
      obtain ⟨s3, f⟩ := started
      obtain rfl : s3 = { s1 with files := files, dbBtrees := b } := hb
      cases f with
      | none => exact ⟨files, b, none, hsame, nofun, rfl⟩
      | some e =>
          refine ⟨files, b, some .aborted, hsame, fun e he => ?_, rfl⟩
          exact (Option.some.inj he).symm

/-- A sound state stays sound. -/
theorem Sound.step (h : Sound s) (hends : Ends (execute stems s e).2) :
    Sound (execute stems s e).1 := by
  cases e with
  | createDatabase name => exact h.createDatabase name
  | use name =>
      rw [execute]
      rcases parseUseStatement_cases name s with ⟨e, -, heq⟩ | ⟨hname, heq⟩
      · rw [heq]
        exact h
      · rw [heq]
        exact (h.opening hname).1
  | createTable name columns =>
      refine State.withDb_spec (P := fun o => Sound o.1) (fun _ => h) fun db hdb => ?_
      rcases createTable_cases h hdb name columns with
        ⟨s', e, heq, hsame⟩ | ⟨t, root', hadds, heq⟩
      · rw [heq]
        exact h.unchanged hsame
      · rw [heq]
        obtain ⟨b, hb⟩ := initializeTables_trees
          ((s.create db t root').tables.filter fun x => x.2.1 = name) (s.create db t root')
        rw [hb]
        exact (h.adds hdb hadds (.inl hadds.symbol_eq)).congr rfl rfl rfl fun _ _ => rfl
  | createHft name columns symbol top =>
      refine State.withDb_spec (P := fun o => Ends o.2 → Sound o.1) (fun _ _ => h)
        (fun db hdb hends => ?_) hends
      rcases createHft_cases h hdb name columns symbol top with
        ⟨s', e, -, heq, hsame⟩ | ⟨root', hadds, ⟨-, hbounds⟩ | ⟨hfits, heq⟩⟩
      · rw [heq]
        exact h.unchanged hsame
      · exact absurd hbounds hends.1
      · rw [heq]
        exact (h.adds hdb hadds hfits.fits).congr rfl rfl rfl fun _ _ => rfl
  | dropTable name =>
      exact State.withDb_spec (P := fun o => Sound o.1) (fun _ => h) fun db hdb =>
        h.dropTable hdb name
  | dropDatabase name =>
      exact State.withDb_spec (P := fun o => Sound o.1) (fun _ => h) fun _ _ =>
        h.dropDatabase name
  | insert table stmt =>
      exact State.withDb_spec (P := fun o => Sound o.1) (fun _ => h) fun db hdb =>
        h.rowsOnly hdb (insertRows_rowsOnly table stmt db s)
  | select table whereClause =>
      exact State.withDb_spec (P := fun o => Sound o.1) (fun _ => h) fun db hdb =>
        h.rowsOnly hdb (selectRows_rowsOnly table whereClause db s)
  | update table assignments whereClause =>
      exact State.withDb_spec (P := fun o => Sound o.1) (fun _ => h) fun db hdb =>
        h.rowsOnly hdb (updateRows_rowsOnly table assignments whereClause db s)
  | delete table whereClause =>
      exact State.withDb_spec (P := fun o => Sound o.1) (fun _ => h) fun db hdb =>
        h.rowsOnly hdb (deleteRows_rowsOnly table whereClause db s)
  | addIndicator stmt => exact h.congr rfl rfl rfl fun _ _ => rfl
  | enableStrategy stmt => exact h.congr rfl rfl rfl fun _ _ => rfl
  | packet p =>
      rw [execute]
      split
      · exact h
      · exact h.congr rfl rfl rfl fun _ _ => rfl
  | restart vacuums =>
      obtain ⟨files, b, f, hsame, -, heq⟩ := h.restart_cases vacuums
      rw [execute, heq]
      exact h.starting.1.of_same rfl rfl hsame fun _ _ => .inl rfl

end NanoVault.Catalog
