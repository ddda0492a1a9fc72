/-
Loading a database again (`initialLoad.hpp`, `parseUseStatement` in `SQL_PARSER.hpp`).

A restart gives every indexed column an empty tree and then fills it from the files; USE
stops at the empty trees, all of them over `int64_t`. The loaders do not look at the
`.delete` file, so the trees over strings get back the keys DELETE has removed.
`reload_exact` says for every history of INSERTs and DELETEs when the trees are the ones
from before.
-/
import NanoVault.Lib.Scan
import NanoVault.Table.Indexes

namespace NanoVault.Table

open Lib

/-! ### The loaders -/

/-- `initialDatabseLoad`: an empty tree over `int64_t` for every column with an index. -/
def initialDatabseLoad (columns : List Column) : Text → Option Tree :=
  columns.foldl (fun trees c =>
    if c.isPrimary || c.isUnique then Function.update trees c.name (some (.int fun _ => none))
    else trees) fun _ => none

/-- The node of a record of this many words. -/
def rowNode (words row : Nat) : IndexNode where
  start := Int64.ofNat (8 * (row * words))
  stop := Int16.ofNat (8 * (row * words + words))

/-- The loop of `loadAllNodesOfBtreeForPrimaryKey`. -/
def loadPrimaryLoop (f : Files) (words : Nat) : List Nat → Tree → Except Fault Tree
  | [], tree => return tree
  | row :: rows, tree =>
      match f.index.drop (row * words) with
      | [] => throw .undefined
      | id :: _ => loadPrimaryLoop f words rows (tree.insertId id (rowNode words row))

def loadAllNodesOfBtreeForPrimaryKey (f : Files) (size : Nat) (tree : Tree) : Except Fault Tree :=
  let words := 2 * size - 1
  loadPrimaryLoop f words (List.range (f.index.length / words)) tree

/-- The loop of `loadAllNodesOfBtreeForUniqueKey` for the column in this place, counted from
one. The words of the first place would be read from in front of the record. Where a string
cannot be made the variant keeps its default, the number 0. -/
def loadUniqueLoop (f : Files) (words place : Nat) :
    List Nat → Bool → Tree → Except Fault Tree
  | [], _, tree => return tree
  | row :: rows, failed, tree =>
      if place < 2 then throw .undefined
      else
        match f.index.drop (row * words + 1 + 2 * (place - 2)) with
        | start :: stop :: _ =>
            if stop < start then
              loadUniqueLoop f words place rows failed
                (tree.insertValue ['0'] (rowNode words row))
            else
              let r := readText failed f.data start (stop - start)
              loadUniqueLoop f words place rows r.2 (tree.insertValue r.1 (rowNode words row))
        | _ => throw .undefined

def loadAllNodesOfBtreeForUniqueKey (f : Files) (size : Nat) (columnName : Text)
    (sortedColumns : List Text) (tree : Tree) : Except Fault Tree :=
  let words := 2 * size - 1
  match sortedColumns.idxOf? columnName with
  | none =>
      throw (.runtimeError ("unique key ".toList ++ columnName ++
        " does not exist in table ./db/tables".toList))
  | some i => loadUniqueLoop f words (i + 1) (List.range (f.index.length / words)) false tree

/-- The loader for a column. -/
def loadTree (columns : List Column) (f : Files) (c : Column) (tree : Tree) : Except Fault Tree :=
  if c.isPrimary then loadAllNodesOfBtreeForPrimaryKey f columns.length tree
  else
    loadAllNodesOfBtreeForUniqueKey f columns.length c.name (allColumnNames columns) tree

/-- `initializePrimaryIndexBtrees` on one table. -/
def initializePrimaryIndexBtrees (columns : List Column) (f : Files)
    (trees : Text → Option Tree) : Except Fault (Text → Option Tree) :=
  columns.foldlM (fun trees c =>
    match c.newTree with
    | none => return trees
    | some tree => do
        let tree ← loadTree columns f c tree
        return Function.update trees c.name (some tree)) trees

/-! ### Databases -/

/-- The tables of a database. -/
abbrev Database := List TableState

/-- A statement on the table in this place; one on a table that is not there is refused. -/
def Database.execute (db : Database) (s : Nat × Statement) : Database :=
  db.modify s.1 fun t => (Table.execute t s.2).1

def Database.run (db : Database) (history : List (Nat × Statement)) : Database :=
  history.foldl Database.execute db

/-- The trees after a restart, as `main` does it. -/
def Database.restart (db : Database) : Except Fault (List (Text → Option Tree)) :=
  db.mapM fun t => initializePrimaryIndexBtrees t.columns t.files (initialDatabseLoad t.columns)

/-- The trees after USE of the same database. -/
def Database.use (db : Database) : List (Text → Option Tree) :=
  db.map fun t => initialDatabseLoad t.columns

/-- A tree of the same type with the same keys for every indexed column. -/
def SameIndexes (t : TableState) (trees : Text → Option Tree) : Prop :=
  ∀ c ∈ t.columns, c.indexed = true → ∃ tree tree', t.trees c.name = some tree ∧
    trees c.name = some tree' ∧ tree'.keyType = tree.keyType ∧
      ∀ key, tree'.has key = tree.has key

/-- Every value a deleted row had in a UNIQUE column of strings is a live row's again. -/
def ValuesReused (t : TableState) : Prop :=
  ∀ c ∈ t.columns, c.isPrimary = false → c.isUnique = true → c.type = .varchar →
    ∀ r ∈ records t, ∃ r' ∈ live (records t),
      cell t.columns c.name r' = cell t.columns c.name r

/-- A table without rows, and without a UNIQUE column of strings. -/
def NothingToLoad (t : TableState) : Prop :=
  records t = [] ∧ ∀ c ∈ t.columns, c.isPrimary = false → c.isUnique = true → c.type = .int

instance (columns : List Column) (rs : List Record) : Decidable (DistinctValues columns rs) :=
  inferInstanceAs (Decidable (∀ c ∈ columns, c.isPrimary = false → c.isUnique = true →
    ((live rs).map (cell columns c.name)).Nodup))

variable {k i j : Nat} {r : Record} {rs : List Record} {f : Files} {t : TableState} {tree : Tree}
  {value name data : Text} {c pk : Column} {columns : List Column} {values : List Text}
  {words : List Nat} {db : Database} {trees : Text → Option Tree}

/-! ### What the loaders read -/

/-- The offsets of a value among those of its record. -/
theorem Spans.getElem (h : Spans data values words) (hvalue : values[j]? = some value) :
    ∃ start more, words.drop (2 * j) = start :: (start + value.length) :: more ∧
      (data.drop start).take value.length = value := by
  induction h generalizing j with
  | nil => cases hvalue
  | @cons v vs start words hv _ ih =>
      cases j with
      | zero =>
          cases hvalue
          exact ⟨start, words, rfl, hv⟩
      | succ j => exact ih hvalue

theorem Readable.loadPrimaryLoop (h : Readable k f rs) (htree : tree.keyType = .int)
    {done rest : List Record} (hrs : rs = done ++ rest) :
    ∃ tree', loadPrimaryLoop f (1 + 2 * k) (List.range' done.length rest.length) tree =
        .ok tree' ∧ tree'.keyType = .int ∧ ∀ key, tree'.has key ↔
          tree.has key ∨ key ∈ rest.map fun r => Key.int (Int64.ofNat r.id) := by
  induction rest generalizing done tree with
  | nil => exact ⟨tree, rfl, htree, fun key => by simp⟩
  | cons r rest ih =>
      have hr : rs[done.length]? = some r := by rw [hrs]; simp
      obtain ⟨spans, more, hdrop, -⟩ := h.drop hr
      have hnode : (tree.insertId r.id (rowNode (1 + 2 * k) done.length)).keyType = .int :=
        tree.insertId_keyType.trans htree
      have hnext : rs = (done ++ [r]) ++ rest := by rw [hrs, List.append_cons]
      obtain ⟨tree', hload, htype, hkeys⟩ := ih hnode hnext
      rw [List.length_append, List.length_singleton] at hload
      refine ⟨tree', ?_, htype, fun key => ?_⟩
      · rw [List.length_cons, List.range'_succ, Table.loadPrimaryLoop, hdrop]
        exact hload
      · rw [hkeys, Tree.insertId_has htree, List.map_cons, List.mem_cons, or_assoc]
        exact or_congr Iff.rfl (or_congr_left eq_comm)

/-- The loader for UNIQUE columns reads the value in the column's place. -/
theorem Readable.loadUniqueLoop (h : Readable k f rs) {cellOf : Record → Text}
    (hcell : ∀ r ∈ rs, r.values[j]? = some (cellOf r)) {done rest : List Record}
    (hrs : rs = done ++ rest) (tree : Tree) :
    ∃ tree', loadUniqueLoop f (1 + 2 * k) (j + 2) (List.range' done.length rest.length) false
        tree = .ok tree' ∧ tree'.keyType = tree.keyType ∧ ∀ key, tree'.has key ↔
          tree.has key ∨ key ∈ rest.map fun r => tree.keyType.key (cellOf r) := by
  induction rest generalizing done tree with
  | nil => exact ⟨tree, rfl, rfl, fun key => by simp⟩
  | cons r rest ih =>
      have hr : rs[done.length]? = some r := by rw [hrs]; simp
      obtain ⟨spans, more, hdrop, hspans⟩ := h.drop hr
      obtain ⟨start, after, hspan, hread⟩ :=
        hspans.getElem (hcell r (List.mem_of_getElem? hr))
      have hwords : f.index.drop (done.length * (1 + 2 * k) + 1 + 2 * j) =
          start :: (start + (cellOf r).length) :: (after ++ more) := by
        have hle : 2 * j ≤ spans.length := by
          by_contra hlt
          rw [List.drop_eq_nil_of_le (by omega)] at hspan
          cases hspan
        rw [← List.drop_drop, ← List.drop_drop, hdrop, List.drop_one, List.tail_cons,
          List.drop_append_of_le_length hle, hspan]
        rfl
      have hnext : rs = (done ++ [r]) ++ rest := by rw [hrs, List.append_cons]
      obtain ⟨tree', hload, htype, hkeys⟩ :=
        ih hnext (tree.insertValue (cellOf r) (rowNode (1 + 2 * k) done.length))
      rw [List.length_append, List.length_singleton] at hload
      rw [Tree.insertValue_keyType] at htype
      refine ⟨tree', ?_, htype, fun key => ?_⟩
      · rw [List.length_cons, List.range'_succ, Table.loadUniqueLoop, if_neg (by omega),
          Nat.add_sub_cancel, hwords]
        simp only [Nat.not_lt.mpr (Nat.le_add_right _ _), if_false, Nat.add_sub_cancel_left,
          readText_ok hread]
        exact hload
      · rw [hkeys, Tree.insertValue_has, Tree.insertValue_keyType, List.map_cons, List.mem_cons,
          or_assoc]
        exact or_congr Iff.rfl (or_congr_left eq_comm)

/-! ### Restart -/

theorem idxOf?_of_nodup {l : List Text} (hl : l.Nodup) (hname : l[j]? = some name) :
    l.idxOf? name = some j := by
  obtain ⟨hj, rfl⟩ := List.getElem?_eq_some_iff.mp hname
  refine List.idxOf?_eq_some_iff.mpr ⟨hj, rfl, fun i hi heq => ?_⟩
  exact Nat.ne_of_lt hi (hl.getElem_inj_iff.mp heq)

theorem IntKey.length_eq (h : IntKey columns pk) :
    columns.length = (actualColumns columns).length + 1 :=
  h.perm.length_eq

/-- The loader of a column makes a tree with the keys of all records, deleted ones included. -/
theorem KeyFirst.loadTree (h : KeyFirst columns pk) (hlength : columns.length = k + 1)
    (hstores : Readable k f rs) (hc : c ∈ columns) (hindexed : c.indexed = true) :
    ∃ tree tree', c.newTree = some tree ∧ Table.loadTree columns f c tree = .ok tree' ∧
      tree'.keyType = c.type ∧ tree'.Lists (rs.map (c.keyOf columns)) := by
  obtain ⟨tree, hnew, htype, hnone⟩ := h.newTree hc hindexed
  have hwords : 2 * columns.length - 1 = 1 + 2 * k := by omega
  have hcount : f.index.length / (1 + 2 * k) = rs.length := by
    rw [hstores.index_length]
    exact Nat.mul_div_cancel _ (by omega)
  have hhas : ∀ key, ¬ tree.has key = true := by simpa [Tree.Lists] using hnone
  cases h.indexed_cases hc hindexed with
  | inl hpk =>
      subst hpk
      obtain ⟨tree', hload, htype', hkeys⟩ :=
        hstores.loadPrimaryLoop (htype.trans h.int) (List.nil_append rs).symm
      refine ⟨tree, tree', hnew, ?_, htype'.trans h.int.symm, fun key => ?_⟩
      · rw [Table.loadTree, if_pos h.primary]
        simp only [loadAllNodesOfBtreeForPrimaryKey, hwords, hcount, List.range_eq_range']
        exact hload
      · have hkeyOf : c.keyOf columns = fun r => Key.int (Int64.ofNat r.id) := by
          funext r
          rw [Column.keyOf, if_pos h.primary]
        rw [hkeys, hkeyOf, or_iff_right (hhas key)]
  | inr hunique =>
      obtain ⟨hactual, hother, hunique⟩ := hunique
      obtain ⟨j, hj, hget⟩ := List.getElem_of_mem hactual
      have hname : ((actualColumns columns).map Column.name)[j]? = some c.name := by
        rw [List.getElem?_map, List.getElem?_eq_getElem hj, hget, Option.map_some]
      have hplace : (Table.allColumnNames columns).idxOf? c.name = some (j + 1) := by
        apply idxOf?_of_nodup h.names_nodup
        exact h.place hname (h.first c hc hother hunique)
      have hcell : ∀ r ∈ rs, r.values[j]? = some (cell columns c.name r) := by
        intro r hr
        have hwidth : j < r.values.length := by
          rw [hstores.width r hr]
          rw [h.length_eq] at hlength
          omega
        have hvalue := List.getElem?_eq_getElem hwidth
        rw [hvalue, h.cell_of_place hname (h.first c hc hother hunique) hvalue]
      obtain ⟨tree', hload, htype', hkeys⟩ :=
        hstores.loadUniqueLoop hcell (List.nil_append rs).symm tree
      refine ⟨tree, tree', hnew, ?_, htype'.trans htype, fun key => ?_⟩
      · rw [Table.loadTree, hother, if_neg Bool.false_ne_true]
        simp only [loadAllNodesOfBtreeForUniqueKey, hplace, hwords, hcount, List.range_eq_range']
        exact hload
      · have hkeyOf : c.keyOf columns = fun r => c.type.key (cell columns c.name r) := by
          funext r
          rw [Column.keyOf, hother]
          rfl
        rw [hkeys, hkeyOf, htype, or_iff_right (hhas key)]

/-- The columns are loaded one after the other, each into a new tree. -/
theorem KeyFirst.initializePrimaryIndexBtrees (h : KeyFirst columns pk)
    (hlength : columns.length = k + 1) (hstores : Readable k f rs)
    (trees : Text → Option Tree) :
    ∃ trees', initializePrimaryIndexBtrees columns f trees = .ok trees' ∧
      ∀ c ∈ columns, c.indexed = true → ∃ tree', trees' c.name = some tree' ∧
        tree'.keyType = c.type ∧ tree'.Lists (rs.map (c.keyOf columns)) := by
  have hloop : Table.initializePrimaryIndexBtrees columns f trees = .ok (rewriteAll Column.name
      (fun c old =>
        (c.newTree.bind fun tree => (Table.loadTree columns f c tree).toOption) <|> old)
      columns trees) := by
    apply foldlM_eq_rewriteAll
    intro trees c hc
    cases hnew : c.newTree with
    | none => exact congrArg Except.ok (Function.update_eq_self c.name trees).symm
    | some tree =>
        have hindexed : c.indexed = true := by
          rw [Column.newTree] at hnew
          rw [Column.indexed]
          cases hprimary : c.isPrimary with
          | true => rfl
          | false =>
              cases hunique : c.isUnique with
              | true => rfl
              | false =>
                  rw [hprimary, hunique] at hnew
                  cases hnew
        obtain ⟨tree, tree', hnew', hload, -⟩ := h.loadTree hlength hstores hc hindexed
        rw [hnew] at hnew'
        cases hnew'
        simp only [Option.bind_some, hload]
        rfl
  refine ⟨_, hloop, fun c hc hindexed => ?_⟩
  obtain ⟨tree, tree', hnew, hload, htype, hkeys⟩ := h.loadTree hlength hstores hc hindexed
  refine ⟨tree', ?_, htype, hkeys⟩
  rw [rewriteAll_of_mem h.names hc, hnew, Option.bind_some, hload]
  rfl

theorem loadTree_empty (hc : c ∈ columns) (tree : Tree) :
    loadTree columns {} c tree = .ok tree := by
  rw [Table.loadTree]
  split
  · simp [loadAllNodesOfBtreeForPrimaryKey, Table.loadPrimaryLoop, pure, Except.pure]
  · have hname : c.name ∈ allColumnNames columns := by
      rw [allColumnNames, sortNames, List.mem_insertionSort]
      exact List.mem_map_of_mem hc
    obtain ⟨i, hi⟩ := Option.isSome_iff_exists.mp (List.isSome_idxOf?.mpr hname)
    simp [loadAllNodesOfBtreeForUniqueKey, hi, Table.loadUniqueLoop, pure, Except.pure]

/-- On a table without rows it makes the trees of CREATE TABLE. -/
theorem initializePrimaryIndexBtrees_empty (columns : List Column) :
    initializePrimaryIndexBtrees columns {} (fun _ => none) = .ok (initializeTrees columns) := by
  rw [initializeTrees_eq]
  apply foldlM_eq_rewriteAll
  intro trees c hc
  cases c.newTree with
  | none => exact congrArg Except.ok (Function.update_eq_self c.name trees).symm
  | some tree =>
      simp only [loadTree_empty hc]
      rfl

/-- A table whose trees are in step with its records. -/
structure InStep (t : TableState) : Prop where
  key : ∃ pk, KeyFirst t.columns pk
  keeps : Keeps (t.columns.length - 1) t (records t)
  indexed : Indexed t.columns t (records t)

/-- A restart brings the trees back if and only if no value has gone for good. -/
theorem InStep.restart (h : InStep t) :
    ∃ trees, initializePrimaryIndexBtrees t.columns t.files (initialDatabseLoad t.columns) =
      .ok trees ∧ (SameIndexes t trees ↔ ValuesReused t) := by
  obtain ⟨pk, hkey⟩ := h.key
  obtain ⟨trees, hload, htrees⟩ := hkey.initializePrimaryIndexBtrees h.keeps.columns
    h.keeps.stores.readable (initialDatabseLoad t.columns)
  refine ⟨trees, hload, ?_⟩
  constructor
  · intro hsame c hc hother hunique htext r hr
    have hindexed : c.indexed = true := by rw [Column.indexed, hother, hunique]; rfl
    obtain ⟨tree, tree', htree, htree', -, hkeys⟩ := hsame c hc hindexed
    obtain ⟨tree₁, htree₁, -, hlists⟩ := h.indexed c hc hindexed
    obtain ⟨tree₂, htree₂, -, hlists'⟩ := htrees c hc hindexed
    obtain rfl := Option.some.inj (htree.symm.trans htree₁)
    obtain rfl := Option.some.inj (htree'.symm.trans htree₂)
    obtain ⟨-, -, hkeyOf⟩ := hkey.text_column hc hindexed htext
    have hmem : c.keyOf t.columns r ∈ (c.kept (records t)).map (c.keyOf t.columns) := by
      rw [← hlists, ← hkeys, hlists']
      exact List.mem_map_of_mem hr
    rw [Column.kept, htext, hkeyOf] at hmem
    obtain ⟨r', hr', heq⟩ := List.mem_map.mp hmem
    exact ⟨r', hr', Key.text.inj heq⟩
  · intro hreused c hc hindexed
    obtain ⟨tree, htree, htype, hlists⟩ := h.indexed c hc hindexed
    obtain ⟨tree', htree', htype', hlists'⟩ := htrees c hc hindexed
    refine ⟨tree, tree', htree, htree', htype'.trans htype.symm, fun key => ?_⟩
    rw [Bool.eq_iff_iff, hlists, hlists', Column.kept]
    cases htext : c.type with
    | int => rfl
    | varchar =>
        obtain ⟨hother, hunique, hkeyOf⟩ := hkey.text_column hc hindexed htext
        constructor
        · intro hmem
          obtain ⟨r, hr, rfl⟩ := List.mem_map.mp hmem
          obtain ⟨r', hr', heq⟩ := hreused c hc hother hunique htext r hr
          rw [hkeyOf]
          exact List.mem_map.mpr ⟨r', hr', congrArg Key.text heq⟩
        · intro hmem
          obtain ⟨r, hr, rfl⟩ := List.mem_map.mp hmem
          exact List.mem_map_of_mem (List.mem_filter.mp hr).1

/-! ### USE -/

theorem initialDatabseLoad_apply (hnames : (columns.map Column.name).Nodup) (hc : c ∈ columns)
    (hindexed : c.indexed = true) :
    initialDatabseLoad columns c.name = some (.int fun _ => none) := by
  have hloop : initialDatabseLoad columns = rewriteAll Column.name
      (fun c old => if c.indexed then some (.int fun _ => none) else old) columns
      fun _ => none := by
    apply foldl_eq_rewriteAll
    intro trees c _
    rw [Column.indexed]
    split
    · rfl
    · exact (Function.update_eq_self c.name trees).symm
  rw [hloop, rewriteAll_of_mem hnames hc, if_pos hindexed]

/-- USE brings the trees back if and only if there is nothing in them. -/
theorem InStep.use (h : InStep t) :
    SameIndexes t (initialDatabseLoad t.columns) ↔ NothingToLoad t := by
  obtain ⟨pk, hkey⟩ := h.key
  constructor
  · intro hsame
    constructor
    · have hindexed : pk.indexed = true := by rw [Column.indexed, hkey.primary]; rfl
      obtain ⟨tree, tree', htree, htree', -, hkeys⟩ := hsame pk hkey.mem hindexed
      obtain ⟨tree₁, htree₁, -, hlists⟩ := h.indexed pk hkey.mem hindexed
      rw [initialDatabseLoad_apply hkey.names hkey.mem hindexed] at htree'
      obtain rfl := Option.some.inj (htree.symm.trans htree₁)
      obtain rfl := Option.some.inj htree'
      rw [Column.kept, hkey.int] at hlists
      apply List.eq_nil_iff_forall_not_mem.mpr
      intro r hr
      have hhas := (hlists (pk.keyOf t.columns r)).mpr (List.mem_map_of_mem hr)
      rw [← hkeys, Column.keyOf, hkey.primary] at hhas
      cases hhas
    · intro c hc hother hunique
      have hindexed : c.indexed = true := by rw [Column.indexed, hother, hunique]; rfl
      obtain ⟨tree, tree', htree, htree', htype, -⟩ := hsame c hc hindexed
      obtain ⟨tree₁, htree₁, htype₁, -⟩ := h.indexed c hc hindexed
      rw [initialDatabseLoad_apply hkey.names hc hindexed] at htree'
      obtain rfl := Option.some.inj (htree.symm.trans htree₁)
      obtain rfl := Option.some.inj htree'
      exact htype₁.symm.trans htype.symm
  · rintro ⟨hnone, hints⟩ c hc hindexed
    obtain ⟨tree, htree, htype, hlists⟩ := h.indexed c hc hindexed
    have hint : c.type = .int := by
      cases hkey.indexed_cases hc hindexed with
      | inl hpk => rw [hpk, hkey.int]
      | inr hunique => exact hints c hc hunique.2.1 hunique.2.2
    refine ⟨tree, _, htree, initialDatabseLoad_apply hkey.names hc hindexed,
      (htype.trans hint).symm, fun key => ?_⟩
    rw [Column.kept, hint, hnone] at hlists
    have hempty : tree.has key = false := Bool.eq_false_iff.mpr fun hhas => by
      cases (hlists key).mp hhas
    rw [hempty]
    cases key <;> rfl

/-! ### Histories -/

theorem InStep.createTable (h : KeyFirst columns pk) : InStep (createTable columns) := by
  have hkeeps := keeps_createTable h.one
  have hrecords := hkeeps.records
  exact ⟨⟨pk, h⟩, by rwa [hrecords], by rw [hrecords]; exact h.indexed_createTable⟩

theorem InStep.execute (h : InStep t) (hdistinct : DistinctValues t.columns (records t))
    {stmt : Statement} (hstmt : stmt.insertsOrDeletes = true) :
    InStep (Table.execute t stmt).1 := by
  obtain ⟨pk, hkey⟩ := h.key
  obtain ⟨rs, hkeeps, hcolumns, hindexed⟩ := h.indexed.execute hkey h.keeps rfl hdistinct hstmt
  have hrecords := hkeeps.records
  exact ⟨⟨pk, by rwa [hcolumns]⟩, by rwa [hrecords, hcolumns], by rwa [hrecords, hcolumns]⟩

/-- A statement changes one table. -/
theorem Database.mem_execute {s : Nat × Statement} {t' : TableState} (h : t' ∈ db.execute s) :
    t' ∈ db ∨ ∃ t ∈ db, t' = (Table.execute t s.2).1 := by
  obtain ⟨i, hi⟩ := List.getElem?_of_mem h
  rw [Database.execute, List.getElem?_modify] at hi
  cases ht : db[i]? with
  | none =>
      rw [ht] at hi
      cases hi
  | some t =>
      rw [ht, Option.map_eq_map, Option.map_some, Option.some.injEq] at hi
      split at hi
      · exact .inr ⟨t, List.mem_of_getElem? ht, hi.symm⟩
      · exact .inl (hi ▸ List.mem_of_getElem? ht)

/-- INSERTs and DELETEs keep all tables in step. -/
theorem inStep_run {history : List (Nat × Statement)} (hdb : ∀ t ∈ db, InStep t)
    (hhistory : ∀ s ∈ history, s.2.insertsOrDeletes = true)
    (hdistinct : ∀ n, ∀ t ∈ db.run (history.take n), DistinctValues t.columns (records t)) :
    ∀ t ∈ db.run history, InStep t := by
  induction history generalizing db with
  | nil => exact hdb
  | cons s history ih =>
      have hrest : ∀ s ∈ history, s.2.insertsOrDeletes = true :=
        fun s hs => hhistory s (List.mem_cons_of_mem _ hs)
      suffices ∀ t ∈ db.execute s, InStep t from ih this hrest fun n => hdistinct (n + 1)
      intro t' ht'
      cases Database.mem_execute ht' with
      | inl ht => exact hdb t' ht
      | inr hchanged =>
          obtain ⟨t, ht, rfl⟩ := hchanged
          exact (hdb t ht).execute (hdistinct 0 t ht) (hhistory s List.mem_cons_self)

/-- A restart that succeeds on every table, with a property of the trees of each. -/
theorem Database.restart_ok {P : TableState → (Text → Option Tree) → Prop}
    (h : ∀ t ∈ db, ∃ trees, Table.initializePrimaryIndexBtrees t.columns t.files
      (initialDatabseLoad t.columns) = .ok trees ∧ P t trees) :
    ∃ reloaded, db.restart = .ok reloaded ∧ List.Forall₂ P db reloaded := by
  induction db with
  | nil => exact ⟨[], rfl, .nil⟩
  | cons t db ih =>
      obtain ⟨trees, hload, hP⟩ := h t List.mem_cons_self
      obtain ⟨reloaded, hrest, hPs⟩ := ih fun t ht => h t (List.mem_cons_of_mem _ ht)
      refine ⟨trees :: reloaded, ?_, .cons hP hPs⟩
      rw [Database.restart] at hrest ⊢
      rw [List.mapM_cons, hload, hrest]
      rfl

theorem forall₂_iff_forall {P : TableState → (Text → Option Tree) → Prop}
    {Q : TableState → Prop} {reloaded : List (Text → Option Tree)}
    (h : List.Forall₂ (fun t trees => P t trees ↔ Q t) db reloaded) :
    List.Forall₂ P db reloaded ↔ ∀ t ∈ db, Q t := by
  induction h with
  | nil => simp
  | cons hhead _ ih => simp only [List.forall₂_cons, ih, hhead, List.forall_mem_cons]

/-- Whatever INSERTs and DELETEs have been executed on a database whose tables have an int
primary key that sorts before the UNIQUE columns, with distinct values in these all along: a
restart succeeds and brings all trees back exactly if every value deleted from a UNIQUE column of
strings is in use again, and USE brings them back exactly if the tables have no rows and no
such columns. -/
theorem reload_exact (schemas : List (List Column)) (history : List (Nat × Statement))
    (hschemas : ∀ columns ∈ schemas, ∃ pk, KeyFirst columns pk)
    (hhistory : ∀ s ∈ history, s.2.insertsOrDeletes = true)
    (hdistinct : ∀ n, ∀ t ∈ Database.run (schemas.map createTable) (history.take n),
      DistinctValues t.columns (records t)) :
    (∃ reloaded, (Database.run (schemas.map createTable) history).restart = .ok reloaded ∧
      (List.Forall₂ SameIndexes (Database.run (schemas.map createTable) history) reloaded ↔
        ∀ t ∈ Database.run (schemas.map createTable) history, ValuesReused t)) ∧
    (List.Forall₂ SameIndexes (Database.run (schemas.map createTable) history)
        (Database.run (schemas.map createTable) history).use ↔
      ∀ t ∈ Database.run (schemas.map createTable) history, NothingToLoad t) := by
  have hcreated : ∀ t ∈ schemas.map createTable, InStep t := by
    intro t ht
    obtain ⟨columns, hcolumns, rfl⟩ := List.mem_map.mp ht
    obtain ⟨pk, hkey⟩ := hschemas columns hcolumns
    exact .createTable hkey
  have hinStep := inStep_run hcreated hhistory hdistinct
  generalize Database.run (schemas.map createTable) history = db at hinStep
  constructor
  · obtain ⟨reloaded, hrestart, hsame⟩ := Database.restart_ok fun t ht => (hinStep t ht).restart
    exact ⟨reloaded, hrestart, forall₂_iff_forall hsame⟩
  · rw [Database.use, List.forall₂_map_right_iff, List.forall₂_same]
    exact forall₂_congr fun t ht => (hinStep t ht).use

/-- `CREATE TABLE t (id INT PRIMARY KEY, v VARCHAR UNIQUE)`. -/
def uniqueKeyed : List Column :=
  [{ name := ['i', 'd'], type := .int, isPrimary := true },
    { name := ['v'], type := .varchar, isUnique := true }]

/-- An INSERT, and a DELETE of all rows. -/
def insertThenDelete : List (Nat × Statement) :=
  [(0, .insert ⟨[['v']], [['a']]⟩), (0, .delete none)]

/-- The database after the INSERT, or after both statements. -/
def uniqueDb (n : Nat) : Database :=
  Database.run ([uniqueKeyed].map createTable) (insertThenDelete.take n)

theorem keyFirst_uniqueKeyed : KeyFirst uniqueKeyed
    { name := ['i', 'd'], type := .int, isPrimary := true } where
  mem := by decide
  primary := rfl
  one := rfl
  int := rfl
  named := by decide
  names := by decide
  first := by decide

theorem distinctValues_uniqueDb (n : Nat) :
    ∀ t ∈ uniqueDb n, DistinctValues t.columns (records t) := by
  cases n with
  | zero => decide
  | succ n =>
      cases n with
      | zero => decide
      | succ n =>
          have hall : insertThenDelete.take (n + 2) = insertThenDelete :=
            List.take_of_length_le (Nat.le_add_left 2 n)
          rw [uniqueDb, hall]
          decide

theorem reload_exact_uniqueDb :
    (∀ n, ∀ t ∈ uniqueDb n, DistinctValues t.columns (records t)) ∧
    (∃ reloaded, (uniqueDb 2).restart = .ok reloaded ∧
      (List.Forall₂ SameIndexes (uniqueDb 2) reloaded ↔ ∀ t ∈ uniqueDb 2, ValuesReused t)) ∧
    (List.Forall₂ SameIndexes (uniqueDb 2) (uniqueDb 2).use ↔
      ∀ t ∈ uniqueDb 2, NothingToLoad t) :=
  ⟨distinctValues_uniqueDb,
    reload_exact [uniqueKeyed] insertThenDelete
      (List.forall_mem_singleton.mpr ⟨_, keyFirst_uniqueKeyed⟩) (by decide)
      distinctValues_uniqueDb⟩

theorem SameIndexes.has (h : SameIndexes t trees) (hc : c ∈ t.columns)
    (hindexed : c.indexed = true) (key : Key) :
    (trees c.name).map (Tree.has · key) = (t.trees c.name).map (Tree.has · key) := by
  obtain ⟨tree, tree', htree, htree', -, hkeys⟩ := h c hc hindexed
  rw [htree, htree', Option.map_some, Option.map_some, hkeys]

/-- A restart brings back the key of a deleted row, and USE loses that of a live one. -/
theorem deleted_key_revived :
    (∀ n, ∀ t ∈ uniqueDb n, DistinctValues t.columns (records t)) ∧
    (∃ reloaded, (uniqueDb 2).restart = .ok reloaded ∧
      ¬ List.Forall₂ SameIndexes (uniqueDb 2) reloaded) ∧
    ¬ List.Forall₂ SameIndexes (uniqueDb 1) (uniqueDb 1).use := by
  refine ⟨distinctValues_uniqueDb, ⟨_, rfl, ?_⟩, ?_⟩
  · intro hsame
    cases hsame with
    | cons hhead _ =>
        have hkeys := hhead.has (c := { name := ['v'], type := .varchar, isUnique := true })
          (by decide) rfl (.text ['a'])
        revert hkeys
        decide
  · intro hsame
    cases hsame with
    | cons hhead _ =>
        have hkeys := hhead.has
          (c := { name := ['i', 'd'], type := .int, isPrimary := true })
          (by decide) rfl (.int 1)
        revert hkeys
        decide

end NanoVault.Table
