/-
The keys in the index trees (`insertRow` in `utility.hpp`, `handleDelete` in
`generator.hpp`).

A tree is seen through the keys it has. Whatever INSERT and DELETE do to a table whose
primary key sorts before the UNIQUE columns, the trees over `int64_t` have a key for every
record ever inserted, deleted or not, and the trees over strings have one for every live
record (`Indexed.execute`), as long as no two live rows share a value of a UNIQUE column.
-/
import NanoVault.Lib.Rewriting
import NanoVault.Table.Schema
import NanoVault.Table.Vacuum

namespace NanoVault.Table

open Lib

/-! ### Keys -/

/-- A key of a tree. -/
inductive Key where
  | int (n : Int64)
  | text (s : Text)
deriving DecidableEq, Repr

/-- The key of a value in a tree over this type; a value `stoll` refuses counts as 0. -/
def ColumnType.key : ColumnType → Text → Key
  | .int, value =>
      .int (match stoll value with
        | .ok v => v
        | .error _ => 0)
  | .varchar, value => .text value

def Tree.keyType : Tree → ColumnType
  | .int _ => .int
  | .text _ => .varchar

def Tree.has : Tree → Key → Bool
  | .int keys, .int n => (keys n).isSome
  | .text keys, .text s => (keys s).isSome
  | _, _ => false

/-- What `dropKeys` does to a tree. -/
def Tree.dropValue (value : Text) : Tree → Tree
  | .int keys => .int keys
  | .text keys => .text (Function.update keys value none)

variable {k id : Nat} {r new : Record} {rs : List Record} {t t' : TableState} {tree : Tree}
  {node : IndexNode} {key : Key} {value name : Text} {c pk : Column} {columns : List Column}
  {stmt : InsertStatement} {data : List InsertColumn} {names vs : List Text} {row : Row}

@[simp] theorem Tree.insertId_keyType : (tree.insertId id node).keyType = tree.keyType := by
  cases tree <;> rfl

@[simp] theorem Tree.insertValue_keyType :
    (tree.insertValue value node).keyType = tree.keyType := by
  cases tree <;> rfl

@[simp] theorem Tree.dropValue_keyType : (tree.dropValue value).keyType = tree.keyType := by
  cases tree <;> rfl

theorem update_some_isSome {K : Type} [DecidableEq K] (keys : K → Option IndexNode) (a b : K)
    (node : IndexNode) :
    (Function.update keys a (some node) b).isSome ↔ (keys b).isSome ∨ a = b := by
  rw [Function.update_apply]
  split
  · next heq => simp [heq]
  · next hne => simp [Ne.symm hne]

theorem update_none_isSome {K : Type} [DecidableEq K] (keys : K → Option IndexNode) (a b : K) :
    (Function.update keys a none b).isSome ↔ (keys b).isSome ∧ a ≠ b := by
  rw [Function.update_apply]
  split
  · next heq => simp [heq]
  · next hne => simp [Ne.symm hne]

/-- The keys after an id is inserted. -/
theorem Tree.insertId_has (htree : tree.keyType = .int) :
    (tree.insertId id node).has key ↔ tree.has key ∨ Key.int (Int64.ofNat id) = key := by
  cases tree with
  | text keys => cases htree
  | int keys =>
      cases key with
      | text s => simp [Tree.insertId, Tree.has]
      | int n =>
          rw [Key.int.injEq]
          exact update_some_isSome keys _ n node

/-- The keys after a value is inserted. -/
theorem Tree.insertValue_has : (tree.insertValue value node).has key ↔
    tree.has key ∨ tree.keyType.key value = key := by
  cases tree with
  | int keys =>
      cases key with
      | text s => simp [Tree.insertValue, Tree.has, Tree.keyType, ColumnType.key]
      | int n =>
          rw [Tree.keyType, ColumnType.key, Key.int.injEq]
          exact update_some_isSome keys _ n node
  | text keys =>
      cases key with
      | int n => simp [Tree.insertValue, Tree.has, Tree.keyType, ColumnType.key]
      | text s =>
          rw [Tree.keyType, ColumnType.key, Key.text.injEq]
          exact update_some_isSome keys value s node

/-- The keys after a value is dropped. -/
theorem Tree.dropValue_has :
    (tree.dropValue value).has key ↔ tree.has key ∧ Key.text value ≠ key := by
  cases tree with
  | int keys => cases key <;> simp [Tree.dropValue, Tree.has]
  | text keys =>
      cases key with
      | int n => simp [Tree.dropValue, Tree.has]
      | text s =>
          rw [ne_eq, Key.text.injEq]
          exact update_none_isSome keys value s

/-- Every tree of the table drops the row's value. -/
theorem dropKeys_trees (t : TableState) (row : Row) (name : Text) :
    (dropKeys t row).trees name =
      (t.trees name).map (Tree.dropValue (valueToStorageString (Row.value row name))) := by
  simp only [dropKeys]
  cases t.trees name with
  | none => rfl
  | some tree => cases tree <;> rfl

/-! ### Tables with an int primary key -/

/-- `pk` is the one primary key, over `int`, and the columns have different names. -/
structure IntKey (columns : List Column) (pk : Column) : Prop extends OneKey columns pk where
  int : pk.type = .int
  named : pk.name ≠ []

/-- The primary key sorts before the UNIQUE columns. -/
structure KeyFirst (columns : List Column) (pk : Column) : Prop extends IntKey columns pk where
  first : ∀ c ∈ columns, c.isPrimary = false → c.isUnique = true → pk.name < c.name

/-! ### The key of a record -/

/-- The value a record has in a column, as the readers find it. -/
def cell (columns : List Column) (name : Text) (r : Record) : Text :=
  valueToStorageString (Row.value (rowOf (allColumnNames columns) r) name)

/-- The key of a record in the tree of a column. -/
def Column.keyOf (columns : List Column) (c : Column) (r : Record) : Key :=
  if c.isPrimary then .int (Int64.ofNat r.id) else c.type.key (cell columns c.name r)

/-- The value of a column behind the primary key stands in the record at the column's place. -/
theorem OneKey.cell_of_place (h : OneKey columns pk) {j : Nat}
    (hname : ((actualColumns columns).map Column.name)[j]? = some name) (hfirst : pk.name < name)
    (hvalue : r.values[j]? = some value) : cell columns name r = value := by
  rw [cell, Row.value, h.find?_of_place hname hfirst hvalue]
  rfl

/-! ### What the trees have -/

/-- The tree has exactly these keys. -/
def Tree.Lists (tree : Tree) (keys : List Key) : Prop := ∀ key, tree.has key ↔ key ∈ keys

/-- A column with a tree. -/
def Column.indexed (c : Column) : Bool := c.isPrimary || c.isUnique

/-- The records whose keys stay in a column's tree: DELETE removes those over strings only. -/
def Column.kept (c : Column) (rs : List Record) : List Record :=
  match c.type with
  | .int => rs
  | .varchar => live rs

/-- Every tree has the keys of the records that are kept in it. -/
def Indexed (columns : List Column) (t : TableState) (rs : List Record) : Prop :=
  ∀ c ∈ columns, c.indexed = true → ∃ tree, t.trees c.name = some tree ∧
    tree.keyType = c.type ∧ tree.Lists ((c.kept rs).map (c.keyOf columns))

/-- No two live rows share a value of a UNIQUE column. -/
def DistinctValues (columns : List Column) (rs : List Record) : Prop :=
  ∀ c ∈ columns, c.isPrimary = false → c.isUnique = true →
    ((live rs).map (cell columns c.name)).Nodup

/-- A column's tree keeps the new record too. -/
theorem Column.kept_concat (c : Column) (hnew : new.dead = false) :
    c.kept (rs ++ [new]) = c.kept rs ++ [new] := by
  have hlive : live [new] = [new] := live_cons_alive hnew
  cases htype : c.type with
  | int => simp only [Column.kept, htype]
  | varchar => simp only [Column.kept, htype, live_append, hlive]

/-- The tree after the key of one more record. -/
theorem Tree.Lists.concat {tree' : Tree} (h : tree.Lists ((c.kept rs).map (c.keyOf columns)))
    (hnew : new.dead = false)
    (htree : ∀ key, tree'.has key ↔ tree.has key ∨ c.keyOf columns new = key) :
    tree'.Lists ((c.kept (rs ++ [new])).map (c.keyOf columns)) := by
  intro key
  rw [htree, h key, c.kept_concat hnew, List.map_append, List.mem_append, List.map_singleton,
    List.mem_singleton]
  exact or_congr Iff.rfl eq_comm

/-- An indexed column is the key or a unique column. -/
theorem IntKey.indexed_cases (h : IntKey columns pk) (hc : c ∈ columns)
    (hindexed : c.indexed = true) :
    c = pk ∨ c ∈ actualColumns columns ∧ c.isPrimary = false ∧ c.isUnique = true := by
  cases hprimary : c.isPrimary with
  | true => exact .inl (h.eq_pk hc hprimary)
  | false =>
      rw [Column.indexed, hprimary, Bool.false_or] at hindexed
      exact .inr ⟨mem_actualColumns.mpr ⟨hc, hprimary⟩, rfl, hindexed⟩

/-! ### CREATE TABLE -/

theorem initializeTrees_eq (columns : List Column) : initializeTrees columns =
    rewriteAll Column.name (fun c old => c.newTree <|> old) columns fun _ => none := by
  apply foldl_eq_rewriteAll
  intro trees c _
  cases c.newTree with
  | none => exact (Function.update_eq_self c.name trees).symm
  | some tree => rfl

/-- Each column's tree is the one made for it. -/
theorem initializeTrees_apply (hnames : (columns.map Column.name).Nodup) (hc : c ∈ columns) :
    initializeTrees columns c.name = c.newTree := by
  rw [initializeTrees_eq, rewriteAll_of_mem hnames hc]
  cases c.newTree <;> rfl

/-- An indexed column has a tree of its type, without keys. -/
theorem IntKey.newTree (h : IntKey columns pk) (hc : c ∈ columns)
    (hindexed : c.indexed = true) :
    ∃ tree, c.newTree = some tree ∧ tree.keyType = c.type ∧ tree.Lists [] := by
  cases h.indexed_cases hc hindexed with
  | inl hpk =>
      subst hpk
      refine ⟨.int fun _ => none, ?_, h.int.symm, fun key => ?_⟩
      · rw [Column.newTree, h.primary, h.int]
      · cases key <;> simp [Tree.has]
  | inr hunique =>
      obtain ⟨-, hother, hunique⟩ := hunique
      cases htype : c.type with
      | int =>
          refine ⟨.int fun _ => none, ?_, rfl, fun key => ?_⟩
          · rw [Column.newTree, hother, hunique, htype]
          · cases key <;> simp [Tree.has]
      | varchar =>
          refine ⟨.text fun _ => none, ?_, rfl, fun key => ?_⟩
          · rw [Column.newTree, hother, hunique, htype]
          · cases key <;> simp [Tree.has]

/-- The trees of a new table are those of no records. -/
theorem IntKey.indexed_createTable (h : IntKey columns pk) :
    Indexed columns (createTable columns) [] := by
  intro c hc hindexed
  obtain ⟨tree, hnew, htype, hkeys⟩ := h.newTree hc hindexed
  have hnone : c.kept [] = [] := by
    cases htype : c.type <;> simp [Column.kept, htype, live]
  refine ⟨tree, ?_, htype, ?_⟩
  · exact (initializeTrees_apply h.names hc).trans hnew
  · rwa [hnone]

/-! ### INSERT -/

/-- The value INSERT is given for a column behind the primary key is what the readers find. -/
theorem IntKey.exists_value (h : IntKey columns pk) (hnames : Names columns stmt)
    (hc : c ∈ actualColumns columns) (hfirst : pk.name < c.name) :
    ∃ d ∈ insertData columns stmt, d.name = c.name ∧ d.isUnique = c.isUnique ∧
      ∀ id dead, cell columns c.name
        ⟨id, dead, (insertData columns stmt).map InsertColumn.value⟩ = d.value := by
  obtain ⟨d, hd, hdname, hdunique⟩ := exists_mem_insertData hnames hc
  refine ⟨d, hd, hdname, hdunique, fun id dead => ?_⟩
  obtain ⟨j, hj⟩ := List.getElem?_of_mem hd
  have hname : ((actualColumns columns).map Column.name)[j]? = some c.name := by
    rw [← insertData_names hnames, List.getElem?_map, hj, ← hdname]
    rfl
  apply h.cell_of_place hname hfirst
  rw [List.getElem?_map, hj]
  rfl

/-- The loop over the values of a new row. -/
theorem insertKeys_eq (trees : Text → Option Tree) (primaryName : Text) :
    insertKeys trees primaryName data id node = rewriteAll InsertColumn.name
      (fun d old => if d.isUnique then old.map (Tree.insertValue d.value node) else old) data
      (if primaryName ≠ [] then modifyTree trees primaryName (Tree.insertId id node)
        else trees) := by
  apply foldl_eq_rewriteAll
  intro trees d _
  split
  · rfl
  · exact (Function.update_eq_self d.name trees).symm

/-- INSERT enters a unique column's value in its tree. -/
theorem insertKeys_unique (id : Nat) (node : IndexNode) (trees : Text → Option Tree)
    {primaryName : Text} (hdata : (data.map InsertColumn.name).Nodup) {d : InsertColumn}
    (hd : d ∈ data) (hunique : d.isUnique = true) (hne : d.name ≠ primaryName) :
    insertKeys trees primaryName data id node d.name =
      (trees d.name).map (Tree.insertValue d.value node) := by
  rw [insertKeys_eq, rewriteAll_of_mem hdata hd, if_pos hunique]
  split
  · rw [modifyTree, Function.update_of_ne hne]
  · rfl

/-- INSERT enters the id in the key's tree. -/
theorem insertKeys_primary (trees : Text → Option Tree) {primaryName : Text}
    (hnamed : primaryName ≠ []) (hdata : ∀ d ∈ data, d.name ≠ primaryName) :
    insertKeys trees primaryName data id node primaryName =
      (trees primaryName).map (Tree.insertId id node) := by
  rw [insertKeys_eq, rewriteAll_other hdata, if_pos hnamed, modifyTree, Function.update_self]

/-- An accepted INSERT adds the keys of its record. -/
theorem Indexed.insert (h : KeyFirst columns pk) (hkeeps : Keeps k t rs)
    (hcolumns : t.columns = columns) (hindexed : Indexed columns t rs)
    (hinsert : generateInsert stmt t = .ok t') :
    Indexed columns t' (rs ++ [⟨nextId rs, false, (insertData columns stmt).map
      InsertColumn.value⟩]) := by
  obtain ⟨node, -, htrees, -⟩ := hkeeps.insert hinsert
  have hnames := (generateInsert_eq_ok.mp hinsert).1
  rw [hcolumns] at htrees hnames
  rw [h.lastPrimary] at htrees
  have hdatanames := insertData_names hnames
  have hothers : ∀ d ∈ insertData columns stmt, d.name ≠ pk.name := by
    intro d hd heq
    have hmem := List.mem_map_of_mem (f := InsertColumn.name) hd
    rw [hdatanames, heq] at hmem
    obtain ⟨c, hc, hname⟩ := List.mem_map.mp hmem
    exact h.ne_pk hc hname
  intro c hc hcindexed
  obtain ⟨tree, htree, htype, hkeys⟩ := hindexed c hc hcindexed
  rw [htrees]
  cases h.indexed_cases hc hcindexed with
  | inl hpk =>
      subst hpk
      rw [insertKeys_primary _ h.named hothers, htree]
      refine ⟨_, rfl, tree.insertId_keyType.trans htype, hkeys.concat rfl fun key => ?_⟩
      rw [Tree.insertId_has (htype.trans h.int), Column.keyOf, if_pos h.primary]
  | inr hunique =>
      obtain ⟨hactual, hother, hunique⟩ := hunique
      obtain ⟨d, hd, hdname, hdunique, hcell⟩ :=
        h.exists_value hnames hactual (h.first c hc hother hunique)
      have hkeysof := insertKeys_unique (nextId rs) node t.trees
        (hdatanames ▸ (List.nodup_cons.mp h.nodup).2) hd (hdunique.trans hunique) (hothers d hd)
      rw [hdname, htree] at hkeysof
      rw [hkeysof]
      refine ⟨_, rfl, tree.insertValue_keyType.trans htype, hkeys.concat rfl fun key => ?_⟩
      rw [Tree.insertValue_has, Column.keyOf, hother, hcell, htype]
      rfl

/-! ### DELETE -/

/-- A tree of integers has no texts. -/
theorem Tree.has_text (htype : tree.keyType = .int) (value : Text) :
    tree.has (.text value) = false := by
  cases tree with
  | int keys => rfl
  | text keys => cases htype

/-- The tree of a column after the removal of the keys of some records. -/
theorem dropAll_tree (columns : List Column) (hits : List Record)
    (htree : t.trees name = some tree) :
    ∃ tree', (dropAll (allColumnNames columns) hits t).trees name = some tree' ∧
      tree'.keyType = tree.keyType ∧
      ∀ key, tree'.has key ↔ tree.has key ∧ key ∉ hits.map fun r =>
        Key.text (cell columns name r) := by
  induction hits generalizing t tree with
  | nil => exact ⟨tree, htree, rfl, fun key => by simp⟩
  | cons r hits ih =>
      have hdropped : (dropKeys t (rowOf (allColumnNames columns) r)).trees name =
          some (tree.dropValue (cell columns name r)) := by
        rw [dropKeys_trees, htree]
        rfl
      obtain ⟨tree', htree', htype, hkeys⟩ := ih hdropped
      refine ⟨tree', htree', htype.trans tree.dropValue_keyType, fun key => ?_⟩
      rw [hkeys, Tree.dropValue_has, List.map_cons, List.mem_cons, not_or, and_assoc]
      exact and_congr_right fun _ => and_congr_left fun _ => ne_comm

/-- A scan keeps what a tombstone does not touch. -/
theorem sweep_map {α : Type} {g : Record → α} (hg : ∀ r, g r.kill = g r) (names : List Text)
    (whereClause : Option Expression) (rs : List Record) :
    (sweep names whereClause rs).records.map g = rs.map g := by
  induction rs with
  | nil => rfl
  | cons r rs ih =>
      rw [sweep]
      split
      · exact congrArg (g r :: ·) ih
      · split
        · rfl
        · exact congrArg (g r :: ·) ih
        · rw [List.map_cons, List.map_cons, hg, ih]

/-- The records that were live are those a scan has marked and those still live. -/
theorem sweep_live (names : List Text) (whereClause : Option Expression) (rs : List Record) :
    (live rs).Perm ((sweep names whereClause rs).hits ++
      live (sweep names whereClause rs).records) := by
  induction rs with
  | nil => exact .refl _
  | cons r rs ih =>
      rw [sweep]
      split
      · next hdead => rwa [live_cons_dead hdead, live_cons_dead hdead]
      · next hdead =>
          have halive : r.dead = false := Bool.eq_false_iff.mpr hdead
          split
          · exact .refl _
          · rw [live_cons_alive halive, live_cons_alive halive]
            exact (ih.cons r).trans List.perm_middle.symm
          · rw [live_cons_alive halive, live_cons_dead rfl]
            exact ih.cons r

/-- An indexed column of texts is a unique one. -/
theorem IntKey.text_column (h : IntKey columns pk) (hc : c ∈ columns)
    (hindexed : c.indexed = true) (htype : c.type = .varchar) :
    c.isPrimary = false ∧ c.isUnique = true ∧
      c.keyOf columns = Key.text ∘ cell columns c.name := by
  cases h.indexed_cases hc hindexed with
  | inl hpk =>
      rw [hpk, h.int] at htype
      cases htype
  | inr hunique =>
      obtain ⟨-, hother, hunique⟩ := hunique
      refine ⟨hother, hunique, funext fun r => ?_⟩
      rw [Column.keyOf, hother, htype]
      rfl

/-- DELETE removes the keys over strings of the records it marks, and no others. -/
theorem Indexed.delete (h : IntKey columns pk) (hkeeps : Keeps k t rs)
    (hcolumns : t.columns = columns) (hindexed : Indexed columns t rs)
    (hdistinct : DistinctValues columns rs) (whereClause : Option Expression) :
    Indexed columns (handleDelete whereClause t).1
      (sweep (allColumnNames columns) whereClause rs).records := by
  obtain ⟨t', hdelete, -, htrees, -⟩ := hkeeps.delete whereClause
  rw [hdelete]
  rw [hcolumns] at htrees
  intro c hc hcindexed
  obtain ⟨tree, htree, htype, hkeys⟩ := hindexed c hc hcindexed
  obtain ⟨tree', htree', htype', hkeys'⟩ :=
    dropAll_tree columns (sweep (allColumnNames columns) whereClause rs).hits htree
  refine ⟨tree', htrees ▸ htree', htype'.trans htype, fun key => ?_⟩
  rw [hkeys', hkeys]
  have hkeyOf : ∀ r : Record, c.keyOf columns r.kill = c.keyOf columns r := fun _ => rfl
  cases hctype : c.type with
  | int =>
      simp only [Column.kept, hctype, sweep_map hkeyOf]
      refine and_iff_left_of_imp fun hkey hdropped => ?_
      obtain ⟨r, -, rfl⟩ := List.mem_map.mp hdropped
      have hhas : tree.has (.text (cell columns c.name r)) = true := by
        rw [hkeys]
        simpa only [Column.kept, hctype] using hkey
      rw [Tree.has_text (htype.trans hctype)] at hhas
      cases hhas
  | varchar =>
      obtain ⟨hother, hunique, hkey⟩ := h.text_column hc hcindexed hctype
      have hnodup : ((live rs).map (c.keyOf columns)).Nodup := by
        have hcells := (hdistinct c hc hother hunique).map (f := Key.text) fun _ _ => Key.text.inj
        rwa [List.map_map, ← hkey] at hcells
      have htexts : (fun r => Key.text (cell columns c.name r)) = c.keyOf columns := hkey.symm
      have hperm := (sweep_live (allColumnNames columns) whereClause rs).map (c.keyOf columns)
      rw [List.map_append] at hperm
      have hdisjoint := List.disjoint_of_nodup_append (hperm.nodup_iff.mp hnodup)
      simp only [Column.kept, hctype, hperm.mem_iff, List.mem_append, htexts]
      constructor
      · rintro ⟨hhit | hlive, hnot⟩
        · exact absurd hhit hnot
        · exact hlive
      · intro hlive
        exact ⟨.inr hlive, fun hhit => hdisjoint hhit hlive⟩

/-! ### Runs -/

/-- INSERT or DELETE. -/
def Statement.insertsOrDeletes : Statement → Bool
  | .insert _ | .delete _ => true
  | .update .. | .vacuum => false

/-- One statement keeps the trees in step with the records. -/
theorem Indexed.execute (h : KeyFirst columns pk) (hkeeps : Keeps k t rs)
    (hcolumns : t.columns = columns) (hindexed : Indexed columns t rs)
    (hdistinct : DistinctValues columns rs) {stmt : Statement}
    (hstmt : stmt.insertsOrDeletes = true) :
    ∃ rs', Keeps k (execute t stmt).1 rs' ∧ (execute t stmt).1.columns = columns ∧
      Indexed columns (execute t stmt).1 rs' := by
  cases stmt with
  | insert stmt =>
      rw [Table.execute]
      cases hinsert : generateInsert stmt t with
      | error e => exact ⟨rs, hkeeps, hcolumns, hindexed⟩
      | ok t' =>
          obtain ⟨node, hcolumns', -, hkeeps'⟩ := hkeeps.insert hinsert
          rw [hcolumns] at hkeeps'
          exact ⟨_, hkeeps', hcolumns'.trans hcolumns,
            hindexed.insert h hkeeps hcolumns hinsert⟩
  | delete whereClause =>
      rw [Table.execute]
      obtain ⟨t', hdelete, hcolumns', -, hkeeps'⟩ := hkeeps.delete whereClause
      have hindexed' := hindexed.delete h.toIntKey hkeeps hcolumns hdistinct whereClause
      rw [hdelete] at hindexed' ⊢
      rw [hcolumns] at hkeeps'
      exact ⟨_, hkeeps', hcolumns'.trans hcolumns, hindexed'⟩
  | update assignments whereClause => cases hstmt
  | vacuum => cases hstmt

end NanoVault.Table
