/-
What is left of a table that has been dropped.

DROP TABLE removes the files of a table, its entry in the catalog and its object in the metadata
file, so that INSERT, SELECT, UPDATE and DELETE fail from then on (`dropped_rows_refused`). The
trees of its columns stay in `dbBtrees`: STATISTICS, which looks at nothing else, goes on
answering, also once another table has been created under the name (`drop_remembers`).

DROP DATABASE deselects the current database and empties the catalog and the trees, whichever
database it drops; it leaves another database as it is only by failing (`dropDatabase_iff`).
-/
import NanoVault.Catalog.Slots
import NanoVault.Table.Statistics

namespace NanoVault.Catalog

open Lib NanoVault.Table NanoVault.Hft

/-! ### Statements on the rows of one table -/

inductive RowStatement where
  | insert (stmt : InsertStatement)
  | select (whereClause : Option Expression)
  | update (assignments : List (Text × Text)) (whereClause : Option Expression)
  | delete (whereClause : Option Expression)
  | statistics (type : StatType) (col : Text) (whereClause : Option Expression)

inductive Answer where
  | done
  | rows (rows : List Row)
  | report (report : Report)
  | failed (e : Failure)

def answerOf : Option Failure → Answer
  | none => .done
  | some e => .failed e

/-- STATISTICS reads the trees of the table and nothing else. -/
def statisticsAnswer (forEachKey : Tree → Walk) (type : StatType) (table col : Text)
    (whereClause : Option Expression) (db : Text) (s : State) : Answer :=
  match ExecStatStat forEachKey type table col whereClause (s.table db table {}) with
  | .error e => .failed (.thrown e)
  | .ok report => .report report

/-- The state behind a statement, and its answer. -/
def RowStatement.run (forEachKey : Tree → Walk) (table db : Text) (s : State) :
    RowStatement → State × Answer
  | .insert stmt => let o := insertRows table stmt db s; (o.1, answerOf o.2)
  | .select whereClause =>
      let o := selectRows table whereClause db s
      (o.1, match o.2 with
        | .error e => .failed e
        | .ok rows => .rows rows)
  | .update assignments whereClause =>
      let o := updateRows table assignments whereClause db s
      (o.1, answerOf o.2)
  | .delete whereClause => let o := deleteRows table whereClause db s; (o.1, answerOf o.2)
  | .statistics type col whereClause =>
      (s, statisticsAnswer forEachKey type table col whereClause db s)

/-- The answers to statements one after the other. -/
def answers (forEachKey : Tree → Walk) (table db : Text) : State → List RowStatement → List Answer
  | _, [] => []
  | s, stmt :: rest =>
      let r := stmt.run forEachKey table db s
      r.2 :: answers forEachKey table db r.1 rest

/-- Every statement on the rows of the table fails. -/
def RowsRefused (forEachKey : Tree → Walk) (table db : Text) (s : State) : Prop :=
  ∀ stmt : RowStatement, ∃ e, (stmt.run forEachKey table db s).2 = .failed e

/-- The state in which there has never been a table of this name. -/
def State.without (s : State) (table db : Text) : State :=
  let s := (dropTable table db s).1
  { s with dbBtrees := setTrees s.dbBtrees db table fun _ => none }

/-- CREATE TABLE. -/
def State.withTable (s : State) (table db : Text) (columns : List TableColumnSpec) : State :=
  (generateCreateTableStatement
    { name := table, columns := columns.map TableColumnSpec.definition } db s).1

/-- Whatever table is created after DROP TABLE, statements on it are answered as if there had never
been one of this name. -/
def CreatedAfresh (forEachKey : Tree → Walk) (table db : Text) (s : State) : Prop :=
  ∀ columns stmts, answers forEachKey table db
      ((dropTable table db s).1.withTable table db columns) stmts =
    answers forEachKey table db ((s.without table db).withTable table db columns) stmts

/-- The behaviour of the event is defined. -/
def Defined (stems : Stems) (s : State) (e : Event) : Prop :=
  Ends (execute stems s e).2 ∧ (execute stems s e).2 ≠ some (.thrown .undefined)

variable {s s' : State} {db d name n c table : Text} {root : JSONValue} {ts : List LoadedTable}
  {t : LoadedTable} {stems : Stems} {e : Event} {columns : List Column} {f : Files}
  {trees trees' : Text → Option Tree} {entry : TableEntry} {node : ColumnNode}
  {forEachKey : Tree → Walk}

/-! ### The trees of one table -/

/-- Loading a key's tree fails only by reading past the files. -/
theorem loadPrimaryLoop_error {words : Nat} {rows : List Nat} {tree : Tree} {e : Fault}
    (h : loadPrimaryLoop f words rows tree = .error e) : e = .undefined := by
  induction rows generalizing tree with
  | nil => cases h
  | cons row rows ih =>
      rw [loadPrimaryLoop] at h
      split at h
      · exact (Except.error.inj h).symm
      · exact ih h

/-- So does loading a unique column's tree. -/
theorem loadUniqueLoop_error {words place : Nat} {rows : List Nat} {failed : Bool} {tree : Tree}
    {e : Fault} (h : loadUniqueLoop f words place rows failed tree = .error e) :
    e = .undefined := by
  induction rows generalizing failed tree with
  | nil => cases h
  | cons row rows ih =>
      rw [loadUniqueLoop] at h
      split at h
      · exact (Except.error.inj h).symm
      · split at h
        · split at h
          · exact ih h
          · exact ih h
        · exact (Except.error.inj h).symm

/-- Loading a column throws nothing; it can read what is not there. -/
theorem loadTree_error {col : Column} {tree : Tree} {e : Fault} (hcol : col ∈ columns)
    (h : loadTree columns f col tree = .error e) : e = .undefined := by
  rw [loadTree] at h
  split at h
  · exact loadPrimaryLoop_error h
  · rw [loadAllNodesOfBtreeForUniqueKey] at h
    have hmem : col.name ∈ allColumnNames columns :=
      (List.mem_insertionSort _).mpr (List.mem_map_of_mem hcol)
    cases hplace : (allColumnNames columns).idxOf? col.name with
    | none => exact absurd hmem (List.idxOf?_eq_none_iff.mp hplace)
    | some i =>
        rw [hplace] at h
        exact loadUniqueLoop_error h

/-- A round of `initializePrimaryIndexBtrees`. -/
def loadColumnTree (columns : List Column) (f : Files) (trees : Text → Option Tree) (c : Column) :
    Except Fault (Text → Option Tree) :=
  match c.newTree with
  | none => return trees
  | some tree => do
      let tree ← loadTree columns f c tree
      return Function.update trees c.name (some tree)

theorem initializePrimaryIndexBtrees_eq (columns : List Column) (f : Files)
    (trees : Text → Option Tree) : initializePrimaryIndexBtrees columns f trees =
      columns.foldlM (loadColumnTree columns f) trees := rfl

/-- A column's tree is loaded unless the files are too short or the column has none. -/
theorem loadColumnTree_cases {col : Column} (hcol : col ∈ columns) (f : Files)
    (trees : Text → Option Tree) : loadColumnTree columns f trees col = .error .undefined ∨
      col.newTree = none ∧ loadColumnTree columns f trees col = .ok trees ∨
      ∃ tree, loadColumnTree columns f trees col =
        .ok (Function.update trees col.name (some tree)) := by
  rw [loadColumnTree]
  cases hnew : col.newTree with
  | none => exact .inr (.inl ⟨rfl, rfl⟩)
  | some tree =>
      dsimp only
      cases hload : loadTree columns f col tree with
      | error e =>
          obtain rfl := loadTree_error hcol hload
          exact .inl rfl
      | ok tree' => exact .inr (.inr ⟨tree', rfl⟩)

/-- Loading some columns reads what is not there, or gives a tree to each of them that is to have
one; no tree is taken away, and those of other names stay. -/
theorem loadColumnTrees {l : List Column} (hl : ∀ col ∈ l, col ∈ columns) (f : Files)
    (trees : Text → Option Tree) : l.foldlM (loadColumnTree columns f) trees = .error .undefined ∨
      ∃ trees', l.foldlM (loadColumnTree columns f) trees = .ok trees' ∧
        (∀ c, (trees c).isSome → (trees' c).isSome) ∧
        (∀ col ∈ l, col.newTree.isSome → (trees' col.name).isSome) ∧
        ∀ c, c ∉ l.map Column.name → trees' c = trees c := by
  induction l generalizing trees with
  | nil => exact .inr ⟨trees, rfl, fun _ h => h, nofun, fun _ _ => rfl⟩
  | cons col l ih =>
      have hrest := fun trees => ih (fun c hc => hl c (List.mem_cons_of_mem _ hc)) trees
      rw [List.foldlM_cons]
      rcases loadColumnTree_cases (hl col List.mem_cons_self) f trees with
        hcol | ⟨hnone, hcol⟩ | ⟨tree, hcol⟩
      · rw [hcol]
        exact .inl rfl
      · rw [hcol]
        rcases hrest trees with hload | ⟨trees', hload, hgrows, hhas, hothers⟩
        · exact .inl hload
        · refine .inr ⟨trees', hload, hgrows, fun c hc hnew => ?_, fun c hc => ?_⟩
          · rcases List.mem_cons.mp hc with rfl | hc
            · rw [hnone] at hnew
              cases hnew
            · exact hhas c hc hnew
          · exact hothers c fun hmem => hc (List.mem_cons_of_mem _ hmem)
      · rw [hcol]
        rcases hrest (Function.update trees col.name (some tree)) with
          hload | ⟨trees', hload, hgrows, hhas, hothers⟩
        · exact .inl hload
        · refine .inr ⟨trees', hload, fun c hc => hgrows c ?_, fun c hc hnew => ?_, fun c hc => ?_⟩
          · rw [Function.update_apply]
            split
            · rfl
            · exact hc
          · rcases List.mem_cons.mp hc with rfl | hc
            · exact hgrows c.name (by rw [Function.update_self]; rfl)
            · exact hhas c hc hnew
          · rw [List.map_cons, List.mem_cons, not_or] at hc
            rw [hothers c hc.2, Function.update_of_ne hc.1]

/-! ### The trees of the catalog -/

/-- Every primary key of numbers has a tree. -/
def HasTrees (columns : List ColumnNode) (trees : Text → Option Tree) : Prop :=
  ∀ node ∈ columns, node.isPrimary = true → node.type = "int".toList → (trees node.name).isSome

/-- No tree has been taken away. -/
def Grows (dbBtrees dbBtrees' : Text → Text → Text → Option Tree) : Prop :=
  ∀ d n c, (dbBtrees d n c).isSome → (dbBtrees' d n c).isSome

theorem Grows.refl (dbBtrees : Text → Text → Text → Option Tree) : Grows dbBtrees dbBtrees :=
  fun _ _ _ h => h

theorem Grows.trans {b b' b'' : Text → Text → Text → Option Tree} (h : Grows b b')
    (h' : Grows b' b'') : Grows b b'' :=
  fun d n c hc => h' d n c (h d n c hc)

/-- Trees that are there stay. -/
theorem HasTrees.grows {nodes : List ColumnNode} (h : HasTrees nodes trees)
    (hgrows : ∀ c, (trees c).isSome → (trees' c).isSome) : HasTrees nodes trees' :=
  fun node hnode hprimary hint => hgrows _ (h node hnode hprimary hint)

/-- The trees of one table may be replaced if none is lost. -/
theorem Grows.setTrees {b : Text → Text → Text → Option Tree}
    (h : ∀ c, (b db name c).isSome → (trees c).isSome) : Grows b (setTrees b db name trees) := by
  intro d n c hc
  by_cases hdn : db = d ∧ name = n
  · obtain ⟨rfl, rfl⟩ := hdn
    rw [setTrees_self]
    exact h c hc
  · rwa [setTrees_of_ne hdn]

/-- The tables of a state are those that are found. -/
theorem mem_tables : (d, n, entry) ∈ s.tables ↔ s.find? d n = some entry := by
  rw [State.tables, List.mem_flatMap, State.find?, Option.bind_eq_some_iff]
  constructor
  · rintro ⟨⟨d', m⟩, hm, hmem⟩
    obtain ⟨⟨n', entry'⟩, hentry, heq⟩ := List.mem_map.mp hmem
    obtain ⟨rfl, rfl, rfl⟩ := heq
    exact ⟨m, SortedMap.find?_eq_some.mpr hm, SortedMap.find?_eq_some.mpr hentry⟩
  · rintro ⟨m, hm, hentry⟩
    exact ⟨(d, m), SortedMap.find?_eq_some.mp hm,
      List.mem_map.mpr ⟨(n, entry), SortedMap.find?_eq_some.mp hentry, rfl⟩⟩

/-- Loading the trees of one table that has its files. -/
theorem initializeTable_cases (hfiles : (s.files db name).isSome) (entry : TableEntry) :
    initializeTable db name entry s = (s, some (.thrown .undefined)) ∨
      ∃ trees, initializeTable db name entry s =
          ({ s with dbBtrees := setTrees s.dbBtrees db name trees }, none) ∧
        (∀ c, (s.dbBtrees db name c).isSome → (trees c).isSome) ∧ HasTrees entry.columns trees ∧
        ∀ c, c ∉ entry.columns.map ColumnNode.name → trees c = s.dbBtrees db name c := by
  obtain ⟨f, hf⟩ := Option.isSome_iff_exists.mp hfiles
  rw [initializeTable, hf]
  dsimp only
  rw [initializePrimaryIndexBtrees_eq]
  rcases loadColumnTrees (l := entry.columns.map ColumnNode.column) (fun _ h => h) f
    (s.dbBtrees db name) with hload | ⟨trees, hload, hgrows, hhas, hothers⟩
  · rw [hload]
    exact .inl rfl
  · rw [hload]
    refine .inr ⟨trees, rfl, hgrows, fun node hnode hprimary hint => ?_, fun c hc => ?_⟩
    · have hnew : node.column.newTree = some (.int fun _ => none) := by
        rw [Column.newTree, ColumnNode.column]
        simp only [hprimary, hint, if_true]
      exact hhas node.column (List.mem_map_of_mem hnode) (by rw [hnew]; rfl)
    · exact hothers c (by rwa [List.map_map])

/-- Loading the trees of tables that have their files; the columns of none of them have the name
`c` where the table is `name`. -/
theorem initializeTables_cases {l : List (Text × Text × TableEntry)}
    (hfiles : ∀ d n entry, (d, n, entry) ∈ l → entry.symbol = some (-1) → (s.files d n).isSome) :
    (initializeTables l s).2 = some (.thrown .undefined) ∧
        Grows s.dbBtrees (initializeTables l s).1.dbBtrees ∨
      (initializeTables l s).2 = none ∧ Grows s.dbBtrees (initializeTables l s).1.dbBtrees ∧
        ∀ d n entry, (d, n, entry) ∈ l → entry.symbol = some (-1) →
          HasTrees entry.columns ((initializeTables l s).1.dbBtrees d n) := by
  induction l generalizing s with
  | nil => exact .inr ⟨rfl, .refl _, nofun⟩
  | cons first l ih =>
      obtain ⟨db, name, entry⟩ := first
      rw [initializeTables]
      by_cases hregular : entry.symbol = some (-1)
      · rw [if_neg (not_not_intro hregular)]
        rcases initializeTable_cases (hfiles db name entry List.mem_cons_self hregular) entry with
          hload | ⟨trees, hload, hgrows, hhas, -⟩
        · rw [hload]
          exact .inl ⟨rfl, .refl _⟩
        · rw [hload]
          dsimp only
          have hgrow : Grows s.dbBtrees (setTrees s.dbBtrees db name trees) := .setTrees hgrows
          rcases ih (s := { s with dbBtrees := setTrees s.dbBtrees db name trees })
            (fun d n entry hmem => hfiles d n entry (List.mem_cons_of_mem _ hmem)) with
            ⟨hend, hgrow'⟩ | ⟨hend, hgrow', hhas'⟩
          · exact .inl ⟨hend, hgrow.trans hgrow'⟩
          · refine .inr ⟨hend, hgrow.trans hgrow', fun d n entry' hmem hregular' => ?_⟩
            rcases List.mem_cons.mp hmem with heq | hmem
            · obtain ⟨rfl, rfl, rfl⟩ := heq
              refine hhas.grows fun c hc => hgrow' db name c ?_
              show (setTrees s.dbBtrees db name trees db name c).isSome
              rwa [setTrees_self]
            · exact hhas' d n entry' hmem hregular'
      · rw [if_pos hregular]
        rcases ih fun d n entry hmem => hfiles d n entry (List.mem_cons_of_mem _ hmem) with
          hend | ⟨hend, hgrow, hhas⟩
        · exact .inl hend
        · refine .inr ⟨hend, hgrow, fun d n entry' hmem hregular' => ?_⟩
          rcases List.mem_cons.mp hmem with heq | hmem
          · obtain ⟨rfl, rfl, rfl⟩ := heq
            exact absurd hregular' hregular
          · exact hhas d n entry' hmem hregular'

/-! ### Loading a database -/

/-- A table that is loaded has a tree for each column that should have one. -/
theorem LoadedTable.newTrees_has (t : LoadedTable) (trees : Text → Option Tree) :
    (∀ c, (trees c).isSome → (t.newTrees trees c).isSome) ∧ HasTrees t.columns (t.newTrees trees) := by
  rw [LoadedTable.newTrees, HasTrees]
  generalize t.columns = nodes
  induction nodes generalizing trees with
  | nil => exact ⟨fun _ h => h, nofun⟩
  | cons node nodes ih =>
      rw [List.foldl_cons]
      by_cases hindexed : node.isPrimary || node.isUnique
      · rw [if_pos hindexed]
        obtain ⟨hgrows, hhas⟩ := ih (Function.update trees node.name (some (.int fun _ => none)))
        refine ⟨fun c hc => hgrows c ?_, fun node' hnode hprimary hint => ?_⟩
        · rw [Function.update_apply]
          split
          · rfl
          · exact hc
        · rcases List.mem_cons.mp hnode with rfl | hnode
          · exact hgrows node'.name (by rw [Function.update_self]; rfl)
          · exact hhas node' hnode hprimary hint
      · rw [if_neg hindexed]
        obtain ⟨hgrows, hhas⟩ := ih trees
        refine ⟨hgrows, fun node' hnode hprimary hint => ?_⟩
        rcases List.mem_cons.mp hnode with rfl | hnode
        · rw [hprimary] at hindexed
          exact absurd rfl hindexed
        · exact hhas node' hnode hprimary hint

/-- So have all tables that are loaded, and no tree is lost. -/
theorem foldl_put_trees (ts : List LoadedTable) (db : Text) (s : State) :
    Grows s.dbBtrees (ts.foldl (LoadedTable.put db) s).dbBtrees ∧
      ∀ t ∈ ts, HasTrees t.columns ((ts.foldl (LoadedTable.put db) s).dbBtrees db t.name) := by
  induction ts generalizing s with
  | nil => exact ⟨.refl _, nofun⟩
  | cons t ts ih =>
      obtain ⟨hgrow, hhas⟩ := ih (t.put db s)
      obtain ⟨hnew, hown⟩ := t.newTrees_has (s.dbBtrees db t.name)
      refine ⟨Grows.trans (.setTrees hnew) hgrow, fun u hu => ?_⟩
      rcases List.mem_cons.mp hu with rfl | hu
      · refine hown.grows fun c hc => hgrow db u.name c ?_
        show (setTrees s.dbBtrees db u.name _ db u.name c).isSome
        rwa [setTrees_self]
      · exact hhas u hu

/-- What is in the catalog once tables have been loaded into an empty one. -/
theorem of_find?_loaded (hempty : s.globalTableCache = SortedMap.empty)
    (hnames : (ts.map LoadedTable.name).Nodup)
    (h : (ts.foldl (LoadedTable.put db) s).find? d n = some entry) :
    d = db ∧ ∃ t ∈ ts, t.name = n ∧ entry = t.entry := by
  have hnone : s.find? d n = none := by
    rw [State.find?, hempty]
    rfl
  by_cases hd : db = d
  · subst hd
    by_cases hn : n ∈ ts.map LoadedTable.name
    · obtain ⟨t, ht, rfl⟩ := List.mem_map.mp hn
      rw [find?_loaded hnames ht] at h
      exact ⟨rfl, t, ht, rfl, (Option.some.inj h).symm⟩
    · rw [find?_not_loaded hn, hnone] at h
      cases h
  · rw [find?_foldl_put_ne hd, hnone] at h
    cases h

/-! ### What holds in every state -/

/-- The tables of the metadata files and of the catalog have files, and the primary keys of those
in the catalog have trees. -/
structure Indexing (s : State) : Prop where
  sound : Sound s
  files : ∀ db root ts, s.metadata db = some root → Written root ts →
    ∀ t ∈ ts, (s.files db t.name).isSome
  cached : ∀ db name entry, s.find? db name = some entry → entry.symbol = some (-1) →
    (s.files db name).isSome ∧ HasTrees entry.columns (s.dbBtrees db name)

/-- A process that has just been started has no table. -/
theorem Indexing.init : Indexing {} := ⟨.init, nofun, nofun⟩

/-- No files and no trees have been taken away, and no tables added. -/
theorem Indexing.of_same (h : Indexing s) (hsound : Sound s')
    (hmetadata : s'.metadata = s.metadata)
    (hfiles : ∀ d n, (s.files d n).isSome → (s'.files d n).isSome)
    (htrees : Grows s.dbBtrees s'.dbBtrees)
    (hentries : ∀ d n entry, s'.find? d n = some entry → entry.symbol = some (-1) →
      s.find? d n = some entry) : Indexing s' := by
  refine ⟨hsound, fun db root ts hroot hwritten t ht => ?_, fun db name entry hfind hregular => ?_⟩
  · exact hfiles db t.name (h.files db root ts (hmetadata ▸ hroot) hwritten t ht)
  · obtain ⟨hfile, hhas⟩ := h.cached db name entry (hentries db name entry hfind hregular) hregular
    exact ⟨hfiles db name hfile, hhas.grows (htrees db name)⟩

/-- A statement on rows keeps the trees of all tables. -/
theorem Indexing.rowsOnly (h : Indexing s) (hdb : s.currentDb = some db)
    (hrows : RowsOnly db name s s') : Indexing s' := by
  refine h.of_same (h.sound.rowsOnly hdb hrows) hrows.metadata
    (fun d n hfile => by rwa [hrows.files]) (fun d n c htree => by rwa [hrows.trees])
    fun d n entry hfind hregular => ?_
  rcases hrows.entries d n with heq | ⟨-, -, -, hempty⟩
  · rwa [← heq]
  · rw [hempty] at hfind
    cases hfind
    cases hregular

/-- What keeps tables and trees keeps each table's trees. -/
theorem Indexing.unchanged (h : Indexing s) (hsame : Unchanged s s') : Indexing s' := by
  refine h.of_same (h.sound.unchanged hsame) hsame.metadata (fun d n hfile => by rwa [hsame.files])
    (fun d n c htree => by rwa [hsame.trees]) fun d n entry hfind _ => ?_
  rwa [← hsame.entries]

/-- A new table has its files; a regular one still needs its trees. -/
theorem Indexing.create {root' : JSONValue} {symbol : Int} (h : Indexing s)
    (hdb : s.currentDb = some db) (hadds : Adds s db t root' name symbol) :
    (∀ d root ts, (s.create db t root').metadata d = some root → Written root ts →
        ∀ u ∈ ts, ((s.create db t root').files d u.name).isSome) ∧
      ∀ d n entry, (s.create db t root').find? d n = some entry → entry.symbol = some (-1) →
        ((s.create db t root').files d n).isSome ∧
          ((d, n) = (db, t.name) ∧ entry = t.entry ∨
            HasTrees entry.columns (s.dbBtrees d n)) := by
  have hfiles : ∀ d n, (s.files d n).isSome ∨ (d, n) = (db, t.name) →
      ((s.create db t root').files d n).isSome := by
    intro d n hfile
    show (setFiles s.files db t.name (some {}) d n).isSome
    by_cases hdn : db = d ∧ t.name = n
    · obtain ⟨rfl, rfl⟩ := hdn
      rw [setFiles_self]
      rfl
    · rw [setFiles_of_ne hdn]
      refine hfile.resolve_right fun heq => hdn ?_
      exact ⟨(congrArg Prod.fst heq).symm, (congrArg Prod.snd heq).symm⟩
  obtain ⟨-, -, -, root, ts, hroot, hwritten, hwritten'⟩ := hadds
  refine ⟨fun d r us hr hus u hu => hfiles d u.name ?_, fun d n entry hfind hregular => ?_⟩
  · have hr : Function.update s.metadata db (some root') d = some r := hr
    by_cases hd : d = db
    · subst hd
      rw [Function.update_self] at hr
      obtain rfl := Option.some.inj hr
      rw [hus.unique hwritten'] at hu
      rcases List.mem_append.mp hu with hu | hu
      · exact .inl (h.files d root ts hroot hwritten u hu)
      · exact .inr (by rw [List.mem_singleton.mp hu])
    · rw [Function.update_of_ne hd] at hr
      exact .inl (h.files d r us hr hus u hu)
  · rw [State.find?_create] at hfind
    split at hfind
    · next hdn =>
        obtain ⟨rfl, rfl⟩ := hdn
        exact ⟨hfiles _ _ (.inr rfl), .inl ⟨rfl, (Option.some.inj hfind).symm⟩⟩
    · obtain ⟨hfile, hhas⟩ := h.cached d n entry hfind hregular
      exact ⟨hfiles d n (.inl hfile), .inr hhas⟩

/-- Loading a database into an empty catalog. -/
theorem Indexing.load (h : Indexing s) (s' : State) (hmetadata : s'.metadata = s.metadata)
    (hfiles : s'.files = s.files) (hempty : s'.globalTableCache = SortedMap.empty)
    (hcurrent : ∀ db, s'.currentDb = some db → (s.metadata db).isSome)
    (hsound : Sound (initialDatabseLoad s').1) : Indexing (initialDatabseLoad s').1 := by
  cases hdb : s'.currentDb with
  | none =>
      rw [initialDatabseLoad, hdb] at hsound ⊢
      refine ⟨hsound, by rw [hmetadata, hfiles]; exact h.files, fun d n entry hfind => ?_⟩
      rw [State.find?, hempty] at hfind
      cases hfind
  | some db =>
      obtain ⟨root, hroot⟩ := Option.isSome_iff_exists.mp (hcurrent db hdb)
      obtain ⟨ts, hwritten, hstored⟩ := h.sound.stored db root hroot
      rw [initialDatabseLoad_eq hdb (hmetadata ▸ hroot) hwritten hstored.fits] at hsound ⊢
      obtain ⟨hmeta, -, hfile, -⟩ := foldl_put_frame ts db s'
      refine ⟨hsound, by rw [hmeta, hmetadata, hfile, hfiles]; exact h.files,
        fun d n entry hfind _ => ?_⟩
      obtain ⟨rfl, t, ht, rfl, rfl⟩ := of_find?_loaded hempty hstored.names hfind
      refine ⟨?_, (foldl_put_trees ts d s').2 t ht⟩
      rw [hfile, hfiles]
      exact h.files d root ts hroot hwritten t ht

/-- DROP TABLE leaves the trees, its own too. -/
theorem Indexing.dropTable (h : Indexing s) (hdb : s.currentDb = some db) (name : Text) :
    Indexing (dropTable name db s).1 := by
  have hsound := h.sound.dropTable hdb name
  cases hfind : s.find? db name with
  | none =>
      rw [dropTable_missing hfind]
      exact h
  | some entry =>
      obtain ⟨root, hroot⟩ := Option.isSome_iff_exists.mp (h.sound.current db hdb)
      obtain ⟨ts, hwritten, hstored⟩ := h.sound.stored db root hroot
      obtain ⟨root', hdrop, hwritten'⟩ :=
        dropTable_eq (by rw [hfind]; rfl) hroot hwritten hstored.names
      rw [hdrop] at hsound ⊢
      have hfiles : ∀ d n, ¬ (db = d ∧ name = n) → (s.files d n).isSome →
          ((s.drop db name root').files d n).isSome := by
        intro d n hdn hfile
        show (setFiles s.files db name none d n).isSome
        rwa [setFiles_of_ne hdn]
      refine ⟨hsound, fun d r us hr hus u hu => ?_, fun d n entry' hentry hregular => ?_⟩
      · have hr : Function.update s.metadata db (some root') d = some r := hr
        by_cases hd : d = db
        · subst hd
          rw [Function.update_self] at hr
          obtain rfl := Option.some.inj hr
          rw [hus.unique hwritten'] at hu
          obtain ⟨hu, hname⟩ := List.mem_filter.mp hu
          exact hfiles d u.name (fun heq => of_decide_eq_true hname heq.2.symm)
            (h.files d root ts hroot hwritten u hu)
        · rw [Function.update_of_ne hd] at hr
          exact hfiles d u.name (fun heq => hd heq.1.symm) (h.files d r us hr hus u hu)
      · rw [State.find?_drop] at hentry
        split at hentry
        · cases hentry
        · next hdn =>
            obtain ⟨hfile, hhas⟩ := h.cached d n entry' hentry hregular
            exact ⟨hfiles d n hdn hfile, hhas⟩

/-! ### One step -/

/-- CREATE TABLE and the trees. -/
theorem Indexing.createTable (h : Indexing s) (hdb : s.currentDb = some db) (name : Text)
    (columns : List TableColumnSpec)
    (hdefined : (generateCreateTableStatement
      { name := name, columns := columns.map TableColumnSpec.definition } db s).2 ≠
        some (.thrown .undefined))
    (hsound : Sound (generateCreateTableStatement
      { name := name, columns := columns.map TableColumnSpec.definition } db s).1) :
    Indexing (generateCreateTableStatement
      { name := name, columns := columns.map TableColumnSpec.definition } db s).1 := by
  rcases createTable_cases h.sound hdb name columns with
    ⟨s', e, heq, hsame⟩ | ⟨t, root', hadds, heq⟩
  · rw [heq]
    exact h.unchanged hsame
  · rw [heq] at hdefined hsound ⊢
    obtain ⟨hfiles, hcached⟩ := h.create hdb hadds
    rcases initializeTables_cases (s := s.create db t root')
      (l := (s.create db t root').tables.filter fun x => x.2.1 = name)
      (fun d n entry hmem hregular =>
        (hcached d n entry (mem_tables.mp (List.mem_filter.mp hmem).1) hregular).1) with
      ⟨hend, -⟩ | ⟨-, hgrow, hhas⟩
    · exact absurd hend hdefined
    · obtain ⟨b, hb⟩ := initializeTables_trees
        ((s.create db t root').tables.filter fun x => x.2.1 = name) (s.create db t root')
      rw [hb] at hsound hgrow hhas ⊢
      refine ⟨hsound, hfiles, fun d n entry hfind hregular => ?_⟩
      obtain ⟨hfile, htrees⟩ := hcached d n entry hfind hregular
      refine ⟨hfile, ?_⟩
      rcases htrees with ⟨hnew, -⟩ | htrees
      · refine hhas d n entry (List.mem_filter.mpr ⟨mem_tables.mpr hfind, ?_⟩) hregular
        exact decide_eq_true ((congrArg Prod.snd hnew).trans hadds.named)
      · exact htrees.grows (hgrow d n)

/-- A restart takes no tree away that it has loaded. -/
theorem Indexing.restart_grows (h : Indexing s)
    (hloaded : Indexing (initialDatabseLoad s.starting).1) (vacuums : Bool) :
    Grows (initialDatabseLoad s.starting).1.dbBtrees (restart vacuums s).1.dbBtrees := by
  have hreturns := h.sound.starting.2
  rw [restart]
  generalize initialDatabseLoad s.starting = loaded at hreturns hloaded
  obtain ⟨s1, f⟩ := loaded
  obtain rfl : f = none := hreturns
  obtain ⟨files, hsame, hs⟩ := vacuum_cases vacuums s1
  have hgrow : Grows s1.dbBtrees
      (initializeTables { s1 with files := files }.tables { s1 with files := files }).1.dbBtrees := by
    rcases initializeTables_cases (s := { s1 with files := files })
        (l := { s1 with files := files }.tables) fun d n entry hmem hregular =>
      (hsame d n).trans (hloaded.cached d n entry (mem_tables.mp hmem) hregular).1 with
      ⟨-, hgrow⟩ | ⟨-, hgrow, -⟩
    · exact hgrow
    · exact hgrow
  dsimp only
  generalize (if vacuums then runVacuum s1.tables s1 else (s1, none)) = vacuumed at hs
  obtain ⟨s2, f⟩ := vacuumed
  obtain rfl : s2 = { s1 with files := files } := hs
  cases f with
  | some e => exact .refl _
  | none =>
      dsimp only
      generalize initializeTables _ { s1 with files := files } = started at hgrow
      obtain ⟨s3, f⟩ := started
      cases f with
      | none => exact hgrow
      | some e => exact hgrow

/-- CREATE DATABASE leaves the trees. -/
theorem Indexing.createDatabase (h : Indexing s) (name : Text)
    (hsound : Sound (createDatabase name s).1) : Indexing (createDatabase name s).1 := by
  rw [Catalog.createDatabase] at hsound ⊢
  split
  · exact h
  · next hname =>
      rw [if_neg hname] at hsound
      refine ⟨hsound, fun d root ts hroot hwritten t ht => ?_, h.cached⟩
      dsimp only at hroot
      rw [Function.update_apply] at hroot
      split at hroot
      · obtain rfl := Option.some.inj hroot
        rw [hwritten.unique (.nil name)] at ht
        cases ht
      · exact h.files d root ts hroot hwritten t ht

/-- What a database leaves behind is not that of another. -/
theorem Indexing.dropDatabase (h : Indexing s) (name : Text)
    (hsound : Sound (dropDatabase name s).1) : Indexing (dropDatabase name s).1 := by
  rw [Catalog.dropDatabase] at hsound ⊢
  split
  · exact h
  · next hname =>
      rw [if_neg hname] at hsound
      refine ⟨hsound, fun d root ts hroot hwritten t ht => ?_,
        fun d n entry hentry => absurd hentry (Option.some_ne_none entry).symm⟩
      dsimp only at hroot ⊢
      rw [Function.update_apply] at hroot
      split at hroot
      · cases hroot
      · next hd =>
          rw [Function.update_of_ne hd]
          exact h.files d root ts hroot hwritten t ht

/-- An HFT table has no trees. -/
theorem Indexing.createHft (h : Indexing s) (hdb : s.currentDb = some db) (name : Text)
    (columns : List ColumnDefinition) (symbol : Int) (top : Bool)
    (hbounds : (generateHFTCreateStatement
      { name := name, symbol := symbol, top := top, columns := columns } db s).2 ≠
        some .outOfBounds)
    (hsound : Sound (generateHFTCreateStatement
      { name := name, symbol := symbol, top := top, columns := columns } db s).1) :
    Indexing (generateHFTCreateStatement
      { name := name, symbol := symbol, top := top, columns := columns } db s).1 := by
  rcases createHft_cases h.sound hdb name columns symbol top with
    ⟨s', e, -, heq, hsame⟩ | ⟨root', hadds, ⟨-, hend⟩ | ⟨hfits, heq⟩⟩
  · rw [heq]
    exact h.unchanged hsame
  · exact absurd hend hbounds
  · rw [heq] at hsound ⊢
    obtain ⟨hfiles, hcached⟩ := h.create hdb hadds
    refine ⟨hsound, hfiles, fun d n entry hfind hregular => ?_⟩
    obtain ⟨hfile, htrees⟩ := hcached d n entry hfind hregular
    refine ⟨hfile, htrees.resolve_left ?_⟩
    rintro ⟨-, rfl⟩
    exact hfits.ne (Option.some.inj hregular)

/-- An event with defined behaviour. -/
theorem Indexing.step (h : Indexing s) (hdefined : Defined stems s e) :
    Indexing (execute stems s e).1 := by
  have hsound := h.sound.step hdefined.1
  cases e with
  | createDatabase name => exact h.createDatabase name hsound
  | use name =>
      rw [execute] at hsound ⊢
      rcases parseUseStatement_cases name s with ⟨e, -, heq⟩ | ⟨hname, heq⟩
      · rw [heq]
        exact h
      · rw [heq] at hsound ⊢
        refine h.load (s.opening name) rfl rfl rfl (fun db hdb => ?_) hsound
        obtain rfl := Option.some.inj hdb
        exact hname
  | createTable name columns =>
      refine State.withDb_spec (P := fun o => o.2 ≠ some (.thrown .undefined) → Sound o.1 →
        Indexing o.1) (fun _ _ _ => h) (fun db hdb hdefined hsound => ?_) hdefined.2 hsound
      exact h.createTable hdb name columns hdefined hsound
  | createHft name columns symbol top =>
      refine State.withDb_spec (P := fun o => Ends o.2 → Sound o.1 → Indexing o.1)
        (fun _ _ _ => h) (fun db hdb hends hsound => ?_) hdefined.1 hsound
      exact h.createHft hdb name columns symbol top hends.1 hsound
  | dropTable name =>
      exact State.withDb_spec (P := fun o => Indexing o.1) (fun _ => h) fun db hdb =>
        h.dropTable hdb name
  | dropDatabase name =>
      exact State.withDb_spec (P := fun o => Sound o.1 → Indexing o.1) (fun _ _ => h)
        (fun _ _ => h.dropDatabase name) hsound
  | insert table stmt =>
      exact State.withDb_spec (P := fun o => Indexing o.1) (fun _ => h) fun db hdb =>
        h.rowsOnly hdb (insertRows_rowsOnly table stmt db s)
  | select table whereClause =>
      exact State.withDb_spec (P := fun o => Indexing o.1) (fun _ => h) fun db hdb =>
        h.rowsOnly hdb (selectRows_rowsOnly table whereClause db s)
  | update table assignments whereClause =>
      exact State.withDb_spec (P := fun o => Indexing o.1) (fun _ => h) fun db hdb =>
        h.rowsOnly hdb (updateRows_rowsOnly table assignments whereClause db s)
  | delete table whereClause =>
      exact State.withDb_spec (P := fun o => Indexing o.1) (fun _ => h) fun db hdb =>
        h.rowsOnly hdb (deleteRows_rowsOnly table whereClause db s)
  | addIndicator stmt =>
      exact h.of_same hsound rfl (fun _ _ h => h) (.refl _) fun _ _ _ hfind _ => hfind
  | enableStrategy stmt =>
      exact h.of_same hsound rfl (fun _ _ h => h) (.refl _) fun _ _ _ hfind _ => hfind
  | packet p =>
      rw [execute] at hsound ⊢
      split at hsound
      · exact h
      · exact h.of_same hsound rfl (fun _ _ h => h) (.refl _) fun _ _ _ hfind _ => hfind
  | restart vacuums =>
      have hloaded := h.load s.starting rfl rfl rfl h.sound.current h.sound.starting.1
      have hgrow := h.restart_grows hloaded vacuums
      obtain ⟨files, b, f, hsame, -, heq⟩ := h.sound.restart_cases vacuums
      rw [execute, heq] at hsound ⊢
      rw [heq] at hgrow
      exact hloaded.of_same hsound rfl (fun d n hfile => (hsame d n).trans hfile) hgrow
        fun _ _ _ hfind _ => hfind

/-! ### DROP TABLE -/

/-- In every state reached each table has its trees. -/
theorem indexing_of_reach (h : (engine stems).Reach (Defined stems) s) : Indexing s := by
  refine h.invariant (I := Indexing) (fun s hs => ?_) fun s e s' hinv hdefined hstep => ?_
  · obtain rfl : s = {} := hs
    exact .init
  · obtain rfl := follows_ends hstep hdefined.1
    exact hinv.step hdefined

/-- A table is found in the root by its name. -/
theorem hasTable_eq {items : List JSONValue} (h : List.Forall₂ Describes items ts) :
    hasTable table items = .ok (decide (table ∈ ts.map LoadedTable.name)) := by
  induction h with
  | nil => rfl
  | @cons json t items ts ht _ ih =>
      obtain ⟨-, fields, rfl, hlookup⟩ := ht
      have hget : (JSONValue.object fields).get "name".toList = .ok (.string t.name) := by
        simp only [JSONValue.get, hlookup]
        rfl
      rw [hasTable, hget, List.map_cons]
      by_cases hname : t.name = table
      · subst hname
        rw [decide_eq_true List.mem_cons_self]
        exact if_pos rfl
      · refine (if_neg hname).trans (ih.trans (congrArg Except.ok ?_))
        rw [decide_eq_decide, List.mem_cons, or_iff_right fun heq => hname heq.symm]

/-- After DROP TABLE every statement on the rows but STATISTICS fails. -/
theorem dropped_rows_refused (h : Sound s) (hdb : s.currentDb = some db)
    (hsome : (s.find? db table).isSome) (stmt : RowStatement)
    (hstmt : ∀ type col whereClause, stmt ≠ .statistics type col whereClause) :
    ∃ e, (stmt.run forEachKey table db (dropTable table db s).1).2 = .failed e := by
  obtain ⟨root, hroot⟩ := Option.isSome_iff_exists.mp (h.current db hdb)
  obtain ⟨ts, hwritten, hstored⟩ := h.stored db root hroot
  obtain ⟨root', hdrop, hwritten'⟩ := dropTable_eq hsome hroot hwritten hstored.names
  rw [hdrop]
  have hfiles : (s.drop db table root').files db table = none := setFiles_self
  cases stmt with
  | insert stmt =>
      obtain ⟨items, hitems, hdescribes⟩ := hwritten'.tables
      have hself : (s.drop db table root').metadata db = some root' := Function.update_self ..
      have hmissing : checkIfTableExist (s.drop db table root') db table = .ok false := by
        obtain ⟨v, hv, harray⟩ := ok_of_bind hitems
        rw [checkIfTableExist, hself]
        simp only [hv, harray, bind, Except.bind]
        rw [hasTable_eq hdescribes]
        refine congrArg Except.ok (decide_eq_false fun hmem => ?_)
        obtain ⟨t, ht, hname⟩ := List.mem_map.mp hmem
        exact of_decide_eq_true (List.mem_filter.mp ht).2 hname
      rw [RowStatement.run, insertRows, hmissing]
      exact ⟨_, rfl⟩
  | select whereClause =>
      have hselect : (selectRows table whereClause db (s.drop db table root')).2 =
          .error (.error "Failed to read primary key  from index file".toList) := by
        rw [selectRows]
        have htouch : ((s.drop db table root').touch db table).files db table = none := hfiles
        rw [htouch]
      rw [RowStatement.run, hselect]
      exact ⟨_, rfl⟩
  | update assignments whereClause =>
      rw [RowStatement.run, updateRows]
      have htouch : ((s.drop db table root').touch db table).files db table = none := hfiles
      rw [htouch]
      dsimp only
      split
      · exact ⟨_, rfl⟩
      · exact ⟨_, rfl⟩
  | delete whereClause =>
      rw [RowStatement.run, deleteRows, hfiles]
      exact ⟨_, rfl⟩
  | statistics type col whereClause => exact absurd rfl (hstmt type col whereClause)

/-! ### STATISTICS -/

/-- Without a condition a scan does not throw. -/
theorem scanLoop_none (col : Text) (keys : List Int64) (scan : Scan) :
    ∃ scan', scanLoop col none keys scan = .ok scan' := by
  induction keys generalizing scan with
  | nil => exact ⟨scan, rfl⟩
  | cons key keys ih => exact ih (scan.add key)

/-- Without a condition a count does not throw. -/
theorem countLoop_none (col : Text) (keys : List Text) (count : Int64) :
    ∃ count', countLoop col none keys count = .ok count' := by
  induction keys generalizing count with
  | nil => exact ⟨count, rfl⟩
  | cons key keys ih => exact ih (count + 1)

/-- Where there is a tree its keys can be counted. -/
theorem statisticsAnswer_tree (forEachKey : Tree → Walk) (h : (s.dbBtrees db table c).isSome) :
    ∃ report, statisticsAnswer forEachKey .count table c none db s = .report report := by
  obtain ⟨tree, htree⟩ := Option.isSome_iff_exists.mp h
  have htrees : (s.table db table {}).trees c = some tree := htree
  rw [statisticsAnswer, ExecStatStat, htrees]
  dsimp only
  cases forEachKey tree with
  | int keys =>
      obtain ⟨scan, hscan⟩ := scanLoop_none c keys {}
      simp only [hscan]
      exact ⟨_, rfl⟩
  | text keys =>
      obtain ⟨count, hcount⟩ := countLoop_none c keys 0
      simp only [hcount, bind, Except.bind]
      by_cases hzero : count = 0
      · rw [if_pos hzero]
        exact ⟨_, rfl⟩
      · rw [if_neg hzero]
        exact ⟨_, rfl⟩

/-- COUNT on a column without a tree throws. -/
theorem statisticsAnswer_no_tree (forEachKey : Tree → Walk) (h : s.dbBtrees db table c = none) :
    ∃ e, statisticsAnswer forEachKey .count table c none db s = .failed e := by
  have htrees : (s.table db table {}).trees c = none := h
  rw [statisticsAnswer, ExecStatStat, htrees]
  exact ⟨_, rfl⟩

/-! ### CREATE TABLE under the name of a table that was dropped -/

/-- Trees of names that no column has stay. -/
theorem initializeTables_frame {l : List (Text × Text × TableEntry)}
    (hl : ∀ entry, (db, name, entry) ∈ l → c ∉ entry.columns.map ColumnNode.name) :
    (initializeTables l s).1.dbBtrees db name c = s.dbBtrees db name c := by
  induction l generalizing s with
  | nil => rfl
  | cons first l ih =>
      obtain ⟨d, n, entry⟩ := first
      have hrest := fun s => ih (s := s) fun entry hmem => hl entry (List.mem_cons_of_mem _ hmem)
      rw [initializeTables]
      split
      · exact hrest s
      · rw [initializeTable]
        cases s.files d n with
        | none => rfl
        | some f =>
            dsimp only
            rw [initializePrimaryIndexBtrees_eq]
            rcases loadColumnTrees (l := entry.columns.map ColumnNode.column)
              (fun _ h => h) f (s.dbBtrees d n) with hload | ⟨trees, hload, -, -, hothers⟩
            · rw [hload]
            · rw [hload]
              refine (hrest _).trans ?_
              show setTrees s.dbBtrees d n trees db name c = s.dbBtrees db name c
              by_cases hdn : d = db ∧ n = name
              · obtain ⟨rfl, rfl⟩ := hdn
                rw [setTrees_self, hothers c]
                rw [List.map_map]
                exact hl entry List.mem_cons_self
              · rw [setTrees_of_ne hdn]

/-- The columns that are created have the names given. -/
theorem mapM_createColumn_names {cols : List ColumnDefinition}
    {nodes : List (ColumnNode × JSONValue)} (h : cols.mapM createColumn = .ok nodes) :
    (nodes.map Prod.fst).map ColumnNode.name = cols.map ColumnDefinition.name := by
  induction cols generalizing nodes with
  | nil =>
      obtain rfl := Except.ok.inj h
      rfl
  | cons col cols ih =>
      rw [List.mapM_cons] at h
      obtain ⟨node, hcol, h⟩ := ok_of_bind h
      obtain ⟨rest, hrest, h⟩ := ok_of_bind h
      obtain rfl := Except.ok.inj h
      rw [createColumn] at hcol
      obtain ⟨length, -, hcol⟩ := ok_of_bind hcol
      obtain rfl := Except.ok.inj hcol
      rw [List.map_cons, List.map_cons, List.map_cons, ih hrest]

/-- CREATE TABLE touches no trees of other columns. -/
theorem withTable_trees (h : Sound s) (hdb : s.currentDb = some db) (table : Text)
    {columns : List TableColumnSpec} (hc : c ∉ columns.map TableColumnSpec.name) :
    (s.withTable table db columns).dbBtrees db table c = s.dbBtrees db table c := by
  rw [State.withTable, generateCreateTableStatement]
  cases hnodes : (columns.map TableColumnSpec.definition).mapM createColumn with
  | error e => rfl
  | ok nodes =>
      have hload := mapM_loadColumn (fun col hcol => by
        obtain ⟨c, -, rfl⟩ := List.mem_map.mp hcol
        rfl) hnodes
      rcases addTable_cases h hdb _ (.bool false) nodes hload _ with
        ⟨s', e, -, heq, hsame⟩ | ⟨root, root', ts, -, -, -, -, heq⟩
      · exact (congrArg (fun o : Outcome => o.1.dbBtrees db table c) heq).trans
          (by rw [hsame.trees])
      · refine (congrArg (fun o : Outcome => o.1.dbBtrees db table c) heq).trans ?_
        refine initializeTables_frame fun entry hmem => ?_
        have hfind := mem_tables.mp (List.mem_filter.mp hmem).1
        rw [State.find?_create, if_pos ⟨rfl, rfl⟩] at hfind
        obtain rfl := Option.some.inj hfind
        have hnames : (nodes.map Prod.fst).map ColumnNode.name = columns.map TableColumnSpec.name :=
          (mapM_createColumn_names hnodes).trans (List.map_map ..)
        exact fun hmem => hc (hnames ▸ hmem)

/-- After DROP TABLE the primary key of the table can still be counted, also once another table
has been created under the name: DROP TABLE never forgets a table with a primary key of
numbers. -/
theorem drop_remembers (h : (engine stems).Reach (Defined stems) s) (hdb : s.currentDb = some db)
    (hentry : s.find? db table = some entry) (hregular : entry.symbol = some (-1))
    (hnode : node ∈ entry.columns) (hprimary : node.isPrimary = true)
    (hint : node.type = "int".toList) (forEachKey : Tree → Walk) :
    ¬ RowsRefused forEachKey table db (dropTable table db s).1 ∧
      ¬ CreatedAfresh forEachKey table db s := by
  have hinv := indexing_of_reach h
  have htree := (hinv.cached db table entry hentry hregular).2 node hnode hprimary hint
  have hsound := hinv.sound.dropTable hdb table
  obtain ⟨root, hroot⟩ := Option.isSome_iff_exists.mp (hinv.sound.current db hdb)
  obtain ⟨ts, hwritten, hstored⟩ := hinv.sound.stored db root hroot
  obtain ⟨root', hdrop, -⟩ := dropTable_eq (by rw [hentry]; rfl) hroot hwritten hstored.names
  have hwithout : Sound (s.without table db) :=
    hsound.congr rfl rfl rfl fun _ _ => rfl
  have hcurrent : (dropTable table db s).1.currentDb = some db := by rw [hdrop]; exact hdb
  have hleft : ((dropTable table db s).1.dbBtrees db table node.name).isSome := by
    rw [hdrop]
    exact htree
  refine ⟨fun hrefused => ?_, fun hafresh => ?_⟩
  · obtain ⟨e, he⟩ := hrefused (.statistics .count node.name none)
    obtain ⟨report, hreport⟩ := statisticsAnswer_tree forEachKey hleft
    cases hreport.symm.trans he
  · -- a table whose only column has another name
    have hother : node.name ∉ [(⟨node.name ++ ['x'], "int".toList, [.primaryKey]⟩ :
        TableColumnSpec)].map TableColumnSpec.name := by
      simp
    obtain ⟨report, hreport⟩ := statisticsAnswer_tree forEachKey
      (by rwa [withTable_trees hsound hcurrent table hother])
    obtain ⟨e, he⟩ := statisticsAnswer_no_tree forEachKey
      ((withTable_trees hwithout hcurrent table hother).trans (congrFun setTrees_self node.name))
    have hsame := hafresh [⟨node.name ++ ['x'], "int".toList, [.primaryKey]⟩]
      [.statistics .count node.name none]
    rw [answers, answers, answers, answers, RowStatement.run, RowStatement.run, hreport, he] at hsame
    cases hsame

/-- A statement that returns stays within the source's bounds. -/
theorem Defined.of_returns (h : (execute stems s e).2 = none) : Defined stems s e := by
  rw [Defined, h]
  exact ⟨.none, nofun⟩

/-- The state behind CREATE DATABASE d and CREATE TABLE t with a number and a text. -/
theorem reach_twoColumns : (engine noStems).Reach (Defined noStems)
    (after noStems [.createDatabase ['d'], .createTable ['t'] twoColumns]) :=
  reach_execute (reach_execute (.init rfl) (.createDatabase ['d']) (.of_returns (by decide))
    (by decide)) (.createTable ['t'] twoColumns) (.of_returns (by decide)) (by decide)

theorem drop_remembers_twoColumns : ¬ RowsRefused (fun _ => .int []) ['t'] ['d']
    (after noStems [.createDatabase ['d'], .createTable ['t'] twoColumns, .dropTable ['t']]) :=
  (drop_remembers reach_twoColumns (by decide) rfl (by decide) List.mem_cons_self (by decide)
    (by decide) fun _ => .int []).1

/-- STATISTICS on a table that has been dropped answers. -/
theorem dropped_tree : ¬ ∀ (forEachKey : Tree → Walk) (s : State) (db table : Text)
    (entry : TableEntry), (engine noStems).Reach (Defined noStems) s → s.currentDb = some db →
      s.find? db table = some entry → entry.symbol = some (-1) →
      (∃ node ∈ entry.columns, node.isPrimary = true ∧ node.type = "int".toList) →
      RowsRefused forEachKey table db (dropTable table db s).1 ∧
        CreatedAfresh forEachKey table db s := by
  intro h
  obtain ⟨hrefused, -⟩ := h (fun _ => .int []) _ ['d'] ['t'] _ reach_twoColumns (by decide) rfl
    (by decide) ⟨_, List.mem_cons_self, by decide, by decide⟩
  obtain ⟨e, he⟩ := hrefused (.statistics .count ['i', 'd'] none)
  have hanswer : ((RowStatement.statistics .count ['i', 'd'] none).run (fun _ => .int []) ['t'] ['d']
      (dropTable ['t'] ['d'] (after noStems
        [.createDatabase ['d'], .createTable ['t'] twoColumns])).1).2 = .report .noData := rfl
  cases hanswer.symm.trans he

/-! ### Another database -/

/-- A statement on the current database or on its tables. -/
def Event.onCurrent : Event → Bool
  | .createDatabase _ | .use _ | .dropDatabase _ | .packet _ | .restart _ => false
  | _ => true

/-- How statements end, one after the other. -/
def endings (stems : Stems) : State → List Event → List (Option Failure)
  | _, [] => []
  | s, e :: rest => (execute stems s e).2 :: endings stems (execute stems s e).1 rest

/-- The answers to statements on a table of the current database, if there is one. -/
def State.answersHere (forEachKey : Tree → Walk) (table : Text) (s : State)
    (stmts : List RowStatement) : Option (List Answer) :=
  s.currentDb.map fun db => answers forEachKey table db s stmts

/-- The database `c` is selected as before, its catalog and its trees are the same, and so is what
later statements on it do. -/
structure Untouched (stems : Stems) (c : Text) (s s' : State) : Prop where
  selection : s'.currentDb = s.currentDb
  catalog : s'.globalTableCache.find? c = s.globalTableCache.find? c
  trees : s'.dbBtrees c = s.dbBtrees c
  endings : ∀ es, (∀ e ∈ es, Event.onCurrent e = true) →
    endings stems s' es = endings stems s es
  answers : ∀ forEachKey table stmts,
    s'.answersHere forEachKey table stmts = s.answersHere forEachKey table stmts

theorem Untouched.refl (stems : Stems) (c : Text) (s : State) : Untouched stems c s s :=
  ⟨rfl, rfl, rfl, fun _ _ => rfl, fun _ _ _ => rfl⟩

/-- With the database `c` selected, DROP DATABASE of any database leaves `c` untouched exactly
when there is no database of that name. -/
theorem dropDatabase_iff (stems : Stems) (s : State) (c d : Text) (hc : s.currentDb = some c) :
    Untouched stems c s (execute stems s (.dropDatabase d)).1 ↔ s.metadata d = none := by
  have hrun : execute stems s (.dropDatabase d) = dropDatabase d s := by
    simp only [execute, State.withDb, hc]
  rw [hrun, dropDatabase]
  constructor
  · intro h
    by_contra hsome
    have hselection := h.selection
    rw [if_neg (by simpa using hsome), hc] at hselection
    cases hselection
  · intro hnone
    rw [if_pos (by rw [hnone]; rfl)]
    exact .refl stems c s

/-- Two databases, a table in the second. -/
def twoDatabases : List Event :=
  [.createDatabase ['d'], .createDatabase ['c'], .createTable ['t'] twoColumns]

theorem dropDatabase_iff_missing :
    (after noStems twoDatabases).currentDb = some ['c'] ∧
      (Untouched noStems ['c'] (after noStems twoDatabases)
          (execute noStems (after noStems twoDatabases) (.dropDatabase ['e'])).1 ↔
        (after noStems twoDatabases).metadata ['e'] = none) :=
  ⟨by decide, dropDatabase_iff noStems (after noStems twoDatabases) ['c'] ['e'] (by decide)⟩

/-- Dropping `d` deselects `c` and empties its catalog, and CREATE TABLE fails from then on. -/
theorem dropDatabase_other :
    (engine noStems).Reach Machine.Any (after noStems twoDatabases) ∧
      (after noStems twoDatabases).currentDb = some ['c'] ∧
      ((after noStems twoDatabases).find? ['c'] ['t']).isSome ∧
      (after noStems (twoDatabases ++ [.dropDatabase ['d']])).currentDb = none ∧
      (after noStems (twoDatabases ++ [.dropDatabase ['d']])).find? ['c'] ['t'] = none ∧
      ¬ Untouched noStems ['c'] (after noStems twoDatabases)
        (execute noStems (after noStems twoDatabases) (.dropDatabase ['d'])).1 := by
  refine ⟨?_, by decide, by decide, by decide, by decide, fun h => ?_⟩
  · exact reach_execute (reach_execute (reach_execute (.init rfl) (.createDatabase ['d']) trivial
      (by decide)) (.createDatabase ['c']) trivial (by decide)) (.createTable ['t'] twoColumns)
        trivial (by decide)
  · exact absurd h.selection (by decide)

end NanoVault.Catalog
