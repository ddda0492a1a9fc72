/-
When STATISTICS and SELECT agree over whole runs (`statistics_agree`).

A tree over `int64_t` never loses a key: INSERT and the re-insertion of UPDATE put keys in,
and no removal is compiled. Where the columns are declared in the order of their names,
behind the primary key, such a tree has the keys of all records, deleted ones included
(`AllKeys`).
-/
import NanoVault.Table.Atomicity
import NanoVault.Table.Statistics

namespace NanoVault.Table

open Lib

variable {k n id row : Nat} {r : Record} {rs : List Record} {t t' : TableState} {tree : Tree}
  {node : IndexNode} {name primaryKey : Text} {c pk : Column} {columns : List Column}
  {data : List InsertColumn} {names : List Text} {assignments : List (Text × Text)}
  {whereClause : Option Expression} {stmt : InsertStatement}

/-! ### The types of the trees -/

/-- The type of the tree under a name. -/
def keyTypeAt (t : TableState) (name : Text) : Option ColumnType :=
  (t.trees name).map Tree.keyType

/-- What is done to a tree keeps its type. -/
theorem modifyTree_keyType {f : Tree → Tree} (hf : ∀ tree, (f tree).keyType = tree.keyType)
    (trees : Text → Option Tree) (name name' : Text) :
    ((modifyTree trees name f) name').map Tree.keyType = (trees name').map Tree.keyType := by
  rw [modifyTree, Function.update_apply]
  split
  · next heq =>
    subst heq
    rw [Option.map_map]
    exact congrArg (Option.map · _) (funext hf)
  · rfl

/-- Entering keys keeps the types of the trees. -/
theorem insertKeys_keyType (trees : Text → Option Tree) (primaryName : Text)
    (data : List InsertColumn) (id : Nat) (node : IndexNode) (name : Text) :
    (insertKeys trees primaryName data id node name).map Tree.keyType =
      (trees name).map Tree.keyType := by
  rw [insertKeys]
  suffices hloop : ∀ trees' : Text → Option Tree,
      (trees' name).map Tree.keyType = (trees name).map Tree.keyType →
      ((data.foldl (fun trees c => if c.isUnique then
        modifyTree trees c.name (Tree.insertValue c.value node) else trees) trees') name).map
        Tree.keyType = (trees name).map Tree.keyType by
    apply hloop
    split
    · exact modifyTree_keyType (fun tree => tree.insertId_keyType) trees primaryName name
    · rfl
  induction data with
  | nil => exact fun trees' h => h
  | cons d data ih =>
    intro trees' h
    apply ih
    dsimp only
    split
    · exact (modifyTree_keyType (fun tree => tree.insertValue_keyType) trees' d.name name).trans h
    · exact h

theorem insertRow_keyType (h : insertRow primaryKey data t = .ok t') (name : Text) :
    keyTypeAt t' name = keyTypeAt t name := by
  rw [insertRow] at h
  split at h
  · cases h
  · obtain ⟨id, -, h⟩ := ok_of_bind h
    cases h
    exact insertKeys_keyType ..

theorem dropKeys_keyType (t : TableState) (row : Nat) (r : Row) (name : Text) :
    keyTypeAt (dropKeys (tombstone t row) r) name = keyTypeAt t name := by
  rw [keyTypeAt, dropKeys_trees, Option.map_map]
  exact congrArg (Option.map · _) (funext fun tree => tree.dropValue_keyType)

/-- No statement changes the type of a tree, or makes one. -/
theorem execute_keyType (t : TableState) (s : Statement) (name : Text) :
    keyTypeAt (execute t s).1 name = keyTypeAt t name := by
  cases s with
  | insert stmt =>
    rw [execute]
    cases hinsert : generateInsert stmt t with
    | error e => rfl
    | ok t' => exact insertRow_keyType (generateInsert_eq_ok.mp hinsert).2 name
  | update assignments whereClause =>
    rw [execute, handleUpdate]
    dsimp only
    split
    · rfl
    · exact updateLoop_keeps (P := fun t' => keyTypeAt t' name = keyTypeAt t name)
        (fun t' row _ r h => (dropKeys_keyType t' row r name).trans h)
        (fun _ _ _ h hrow => (insertRow_keyType hrow name).trans h) rfl
  | delete whereClause =>
    exact deleteLoop_keeps (P := fun t' => keyTypeAt t' name = keyTypeAt t name)
      (fun t' row _ r h => (dropKeys_keyType t' row r name).trans h) rfl
  | vacuum =>
    rw [execute, vacuumTable]
    split <;> rfl

/-- No statement changes the type of a tree. -/
theorem run_keyType (t : TableState) (stmts : List Statement) (name : Text) :
    keyTypeAt (run t stmts) name = keyTypeAt t name := by
  induction stmts generalizing t with
  | nil => rfl
  | cons s stmts ih => exact (ih _).trans (execute_keyType t s name)

/-! ### The keys of all records -/

/-- The primary key sorts before the other columns, and these are declared in the order of their
names. -/
structure InOrder (columns : List Column) (pk : Column) : Prop extends OneKey columns pk where
  leads : ∀ c ∈ columns, c.isPrimary = false → pk.name < c.name
  declared : columns.filter (fun c => !c.isPrimary) = actualColumns columns

/-- The tree of a column over `int` has the keys of these records. -/
def AllKeys (columns : List Column) (c : Column) (t : TableState) (rs : List Record) : Prop :=
  ∃ tree, t.trees c.name = some tree ∧ tree.keyType = .int ∧
    tree.Lists (rs.map (c.keyOf columns))

/-- Values for the columns behind the primary key, marked as those of UNIQUE columns or not. -/
def Fits (columns : List Column) (data : List InsertColumn) : Prop :=
  data.map (fun d => (d.name, d.isUnique)) =
    (actualColumns columns).map fun c => (c.name, c.isUnique)

theorem Fits.columnNames (h : Fits columns data) :
    data.map InsertColumn.name = (actualColumns columns).map Column.name := by
  have hnames := congrArg (List.map Prod.fst) h
  rwa [List.map_map, List.map_map] at hnames

/-- Every column that is not primary has its value in the data. -/
theorem Fits.exists_value (h : Fits columns data) (hkey : InOrder columns pk)
    (hc : c ∈ actualColumns columns) :
    ∃ d ∈ data, d.name = c.name ∧ d.isUnique = c.isUnique ∧ ∀ id dead,
      cell columns c.name ⟨id, dead, data.map InsertColumn.value⟩ = d.value := by
  obtain ⟨j, hj⟩ := List.getElem?_of_mem hc
  have hat := congrArg (fun l : List (Text × Bool) => l[j]?) h
  simp only [List.getElem?_map, hj, Option.map_some, Option.map_eq_some_iff] at hat
  obtain ⟨d, hd, hmark⟩ := hat
  obtain ⟨hname, hunique⟩ := Prod.mk.inj hmark
  refine ⟨d, List.mem_of_getElem? hd, hname, hunique, fun id dead => ?_⟩
  obtain ⟨hmem, hother⟩ := mem_actualColumns.mp hc
  apply hkey.cell_of_place (j := j) _ (hkey.leads c hmem hother)
  · rw [List.getElem?_map, hd]
    rfl
  · rw [List.getElem?_map, hj]
    rfl

/-- INSERT writes data that fits the columns. -/
theorem fits_insertData (hnames : Names columns stmt) :
    Fits columns (insertData columns stmt) := by
  rw [Fits, insertData]
  rw [Names] at hnames
  generalize actualColumns columns = cs at hnames
  generalize given stmt = gs at hnames
  induction cs generalizing gs with
  | nil => rfl
  | cons c cs ih =>
    cases gs with
    | nil => cases hnames
    | cons g gs =>
      obtain ⟨hname, hnames⟩ := List.cons.inj hnames
      rw [List.zipWith_cons_cons, List.map_cons, List.map_cons, ih gs hnames]
      exact congrArg (fun name => (name, c.isUnique) :: _) hname

/-- So does UPDATE. -/
theorem InOrder.fits_updateColumns (h : InOrder columns pk) (row : Row) :
    Fits columns (updateColumns columns row) := by
  rw [Fits, updateColumns, h.declared, List.map_map]
  rfl

/-- A row that is inserted adds its key. -/
theorem AllKeys.insertRow (h : InOrder columns pk) (hkey : IntKey columns pk) (hc : c ∈ columns)
    (hindexed : c.indexed = true) (hint : c.type = .int) (hcolumns : t.columns = columns)
    (hkeeps : Keeps k t rs)
    (hall : AllKeys columns c t rs) (hfits : Fits columns data)
    (hrow : Table.insertRow pk.name data t = .ok t') :
    ∃ new, Keeps k t' (rs ++ [new]) ∧ t'.columns = columns ∧ AllKeys columns c t' (rs ++ [new]) := by
  have hdata : data ≠ [] := by
    rintro rfl
    cases hrow
  have hlength : data.length = k := by
    have hnames := congrArg List.length hfits.columnNames
    rw [List.length_map, List.length_map, actualColumns_length, ← hcolumns, hkeeps.others] at hnames
    exact hnames
  obtain ⟨t₁, node, hrow', hcolumns', htrees, hstores⟩ :=
    hkeeps.stores.insertRow hdata hlength pk.name
  obtain rfl := Except.ok.inj (hrow.symm.trans hrow')
  have hkept : Keeps k t' (rs ++ [⟨nextId rs, false, data.map InsertColumn.value⟩]) :=
    ⟨hcolumns' ▸ hkeeps.columns, hcolumns' ▸ hkeeps.others, hstores⟩
  refine ⟨_, hkept, hcolumns'.trans hcolumns, ?_⟩
  obtain ⟨tree, htree, htype, hlists⟩ := hall
  have hothers : ∀ d ∈ data, d.name ≠ pk.name := by
    intro d hd heq
    have hmem := List.mem_map_of_mem (f := InsertColumn.name) hd
    rw [hfits.columnNames, heq] at hmem
    obtain ⟨c, hc, hname⟩ := List.mem_map.mp hmem
    exact h.ne_pk hc hname
  have hconcat : ∀ tree' : Tree,
      (∀ key, tree'.has key ↔ tree.has key ∨
        c.keyOf columns ⟨nextId rs, false, data.map InsertColumn.value⟩ = key) →
      tree'.Lists ((rs ++ [Record.mk (nextId rs) false (data.map InsertColumn.value)]).map
        (c.keyOf columns)) := by
    intro tree' htree' key
    rw [htree', hlists key, List.map_append, List.mem_append, List.map_singleton,
      List.mem_singleton]
    exact or_congr Iff.rfl eq_comm
  rw [AllKeys, htrees]
  cases hkey.indexed_cases hc hindexed with
  | inl hpk =>
    subst hpk
    rw [insertKeys_primary _ hkey.named hothers, htree]
    refine ⟨_, rfl, tree.insertId_keyType.trans htype, hconcat _ fun key => ?_⟩
    rw [Tree.insertId_has htype, Column.keyOf, if_pos h.primary]
  | inr hunique =>
    obtain ⟨hactual, hother, hunique⟩ := hunique
    obtain ⟨d, hd, hdname, hdunique, hcell⟩ := hfits.exists_value h hactual
    have hkeysof := insertKeys_unique (nextId rs) node t.trees
      (hfits.columnNames ▸ (List.nodup_cons.mp h.nodup).2) hd (hdunique.trans hunique) (hothers d hd)
    rw [hdname, htree] at hkeysof
    rw [hkeysof]
    refine ⟨_, rfl, tree.insertValue_keyType.trans htype, hconcat _ fun key => ?_⟩
    rw [Tree.insertValue_has, Column.keyOf, hother, hcell, htype, hint]
    rfl

/-- A row that is deleted keeps its key. -/
theorem AllKeys.drop (hkeeps : Keeps k t rs) (hall : AllKeys columns c t rs)
    (hrow : row < rs.length) (r : Row) :
    ∃ rs', rs'.length = rs.length ∧ Keeps k (dropKeys (tombstone t row) r) rs' ∧
      AllKeys columns c (dropKeys (tombstone t row) r) rs' := by
  have hsplit : rs = rs.take row ++ rs[row] :: rs.drop (row + 1) := by
    rw [List.getElem_cons_drop, List.take_append_drop]
  have hlength : (rs.take row).length = row := List.length_take_of_le (Nat.le_of_lt hrow)
  have hstores := hkeeps.stores
  rw [hsplit] at hstores
  have hkilled := hstores.tombstone
  rw [hlength] at hkilled
  refine ⟨rs.take row ++ rs[row].kill :: rs.drop (row + 1), ?_, ⟨hkeeps.columns, hkeeps.others,
    hkilled⟩, ?_⟩
  · conv_rhs => rw [hsplit]
    rw [List.length_append, List.length_append, List.length_cons, List.length_cons]
  · obtain ⟨tree, htree, htype, hlists⟩ := hall
    refine ⟨tree, ?_, htype, ?_⟩
    · rw [dropKeys_trees]
      show (t.trees c.name).map _ = some tree
      rw [htree]
      cases tree with
      | int keys => rfl
      | text keys => cases htype
    · rw [hsplit] at hlists
      rw [List.map_append, List.map_cons] at hlists ⊢
      exact hlists

/-- Tables with at least `n` rows whose tree has the keys of all records. -/
def Counted (k : Nat) (columns : List Column) (c : Column) (n : Nat) (t : TableState) : Prop :=
  t.columns = columns ∧ ∃ rs, n ≤ rs.length ∧ Keeps k t rs ∧ AllKeys columns c t rs

/-- Dropping a row's keys keeps the counts in bounds. -/
theorem Counted.drop (h : Counted k columns c n t) (hrow : row < n) (r : Row) :
    Counted k columns c n (dropKeys (tombstone t row) r) := by
  obtain ⟨hcolumns, rs, hlength, hkeeps, hall⟩ := h
  obtain ⟨rs', hlength', hkeeps', hall'⟩ := hall.drop hkeeps (Nat.lt_of_lt_of_le hrow hlength) r
  exact ⟨hcolumns, rs', hlength'.symm ▸ hlength, hkeeps', hall'⟩

theorem OneKey.firstPrimary (h : OneKey columns pk) : firstPrimary columns = pk.name := by
  rw [Table.firstPrimary, ← List.head?_filter, h.primaries]
  rfl

/-- Every statement but a vacuum keeps all keys. -/
theorem AllKeys.execute (h : InOrder columns pk) (hkey : IntKey columns pk) (hc : c ∈ columns)
    (hindexed : c.indexed = true) (hint : c.type = .int) (hcolumns : t.columns = columns)
    (hkeeps : Keeps k t rs)
    (hall : AllKeys columns c t rs) {s : Statement} (hs : s ≠ .vacuum) :
    ∃ rs', (execute t s).1.columns = columns ∧ Keeps k (execute t s).1 rs' ∧
      AllKeys columns c (execute t s).1 rs' := by
  have hcounted : Counted k columns c rs.length t := ⟨hcolumns, rs, le_refl _, hkeeps, hall⟩
  have hrows : ∀ row ∈ List.range (rowCount t.files (allColumnNames t.columns)),
      row < rs.length := by
    intro row hrow
    rw [hkeeps.stores.readable.rowCount (allColumnNames_length hkeeps.columns)] at hrow
    exact List.mem_range.mp hrow
  cases s with
  | insert stmt =>
    rw [Table.execute]
    cases hinsert : generateInsert stmt t with
    | error e => exact ⟨rs, hcolumns, hkeeps, hall⟩
    | ok t' =>
      obtain ⟨hnames, hrow⟩ := generateInsert_eq_ok.mp hinsert
      rw [hcolumns] at hnames hrow
      rw [h.lastPrimary] at hrow
      obtain ⟨new, hkeeps', hcolumns', hall'⟩ := hall.insertRow h hkey hc hindexed hint hcolumns hkeeps
        (fits_insertData hnames) hrow
      exact ⟨_, hcolumns', hkeeps', hall'⟩
  | update assignments whereClause =>
    rw [Table.execute, handleUpdate]
    dsimp only
    split
    · exact ⟨rs, hcolumns, hkeeps, hall⟩
    · have hloop : Counted k columns c rs.length (updateLoop (firstPrimary t.columns)
          (allColumnNames t.columns) assignments whereClause
          (List.range (rowCount t.files (allColumnNames t.columns))) false t).1 := by
        apply updateLoop_keeps (P := Counted k columns c rs.length) _ _ hcounted
        · intro t row hrow r hcounted
          exact hcounted.drop (hrows row hrow) r
        · rintro t₁ t₂ r ⟨hcolumns₁, rs₁, hlength₁, hkeeps₁, hall₁⟩ hrow
          rw [hcolumns, h.firstPrimary, hcolumns₁] at hrow
          obtain ⟨new, hkeeps₂, hcolumns₂, hall₂⟩ := hall₁.insertRow h hkey hc hindexed hint hcolumns₁
            hkeeps₁ (h.fits_updateColumns _) hrow
          exact ⟨hcolumns₂, _, by rw [List.length_append]; omega, hkeeps₂, hall₂⟩
      obtain ⟨hcolumns', rs', -, hkeeps', hall'⟩ := hloop
      exact ⟨rs', hcolumns', hkeeps', hall'⟩
  | delete whereClause =>
    have hloop : Counted k columns c rs.length (handleDelete whereClause t).1 := by
      apply deleteLoop_keeps (P := Counted k columns c rs.length) _ hcounted
      intro t row hrow r hcounted
      exact hcounted.drop (hrows row hrow) r
    obtain ⟨hcolumns', rs', -, hkeeps', hall'⟩ := hloop
    exact ⟨rs', hcolumns', hkeeps', hall'⟩
  | vacuum => exact absurd rfl hs

/-- After any statements but a vacuum the tree of a column over `int` has the keys of all
records. -/
theorem allKeys_run (h : InOrder columns pk) (hkey : IntKey columns pk) (hc : c ∈ columns)
    (hindexed : c.indexed = true) (hint : c.type = .int) {stmts : List Statement}
    (hstmts : ∀ s ∈ stmts, s ≠ .vacuum) :
    AllKeys columns c (run (createTable columns) stmts)
      (records (run (createTable columns) stmts)) := by
  suffices hrun : ∀ t rs, t.columns = columns → Keeps (columns.length - 1) t rs →
      AllKeys columns c t rs → AllKeys columns c (run t stmts) (records (run t stmts)) by
    obtain ⟨tree, hnew, htype, hlists⟩ := hkey.newTree hc hindexed
    refine hrun (createTable columns) [] rfl (keeps_createTable h.one) ⟨tree, ?_, ?_, hlists⟩
    · exact (initializeTrees_apply h.names hc).trans hnew
    · exact htype.trans hint
  induction stmts with
  | nil =>
    intro t rs _ hkeeps hall
    rwa [run, List.foldl_nil, hkeeps.records]
  | cons s stmts ih =>
    intro t rs hcolumns hkeeps hall
    obtain ⟨rs', hcolumns', hkeeps', hall'⟩ :=
      hall.execute h hkey hc hindexed hint hcolumns hkeeps (hstmts s List.mem_cons_self)
    exact ih (fun s hs => hstmts s (List.mem_cons_of_mem _ hs)) _ rs' hcolumns' hkeeps' hall'

/-! ### Agreement over runs -/

/-- The live rows have numbers in the column, which are different and in range, and the number
of every deleted row is one of them. -/
def ValuesInUse (c : Column) (t : TableState) : Prop :=
  ∃ vs, columnNumbers c.name (liveRows (allColumnNames t.columns) (records t)) = vs.map some ∧
    vs.Nodup ∧ Summable vs ∧
    ∀ r ∈ records t, r.dead = true → ∃ v ∈ vs, c.keyOf t.columns r = .int v

theorem orderedInsert_front {l : List Text} {a : Text} (h : ∀ b ∈ l, a ≤ b) :
    l.orderedInsert (· ≤ ·) a = a :: l := by
  cases l with
  | nil => rfl
  | cons b l => exact List.orderedInsert_cons_of_le _ l (h b List.mem_cons_self)

/-- A primary key whose name sorts before the others stands first. -/
theorem orderedInsert_names (hleads : ∀ c ∈ columns, c.isPrimary = false → pk.name < c.name) :
    ((actualColumns columns).map Column.name).orderedInsert (· ≤ ·) pk.name =
      pk.name :: (actualColumns columns).map Column.name := by
  refine orderedInsert_front fun name hname => ?_
  obtain ⟨c, hc, rfl⟩ := List.mem_map.mp hname
  obtain ⟨hmem, hother⟩ := mem_actualColumns.mp hc
  exact le_of_lt (hleads c hmem hother)

theorem InOrder.cell_primary (h : InOrder columns pk) (r : Record) :
    cell columns pk.name r = digits r.id := by
  rw [cell, Row.value, h.allColumnNames, orderedInsert_names h.leads, rowOf,
    fill_other (List.nodup_cons.mp h.nodup).1, SortedMap.find?_insert_self]
  rfl

/-- A number that is shown is the key of its record. -/
theorem InOrder.keyOf_of_number (h : InOrder columns pk) (hkey : IntKey columns pk)
    (hc : c ∈ columns) (hindexed : c.indexed = true) (hint : c.type = .int) {v : Int64}
    (hv : number? (cell columns c.name r) = some v) : c.keyOf columns r = .int v := by
  obtain ⟨-, hstoll⟩ := number?_eq_some.mp hv
  cases hkey.indexed_cases hc hindexed with
  | inl hpk =>
    subst hpk
    rw [Column.keyOf, if_pos h.primary]
    rw [h.cell_primary] at hstoll
    rw [eq_of_stoll_digits hstoll]
  | inr hunique =>
    rw [Column.keyOf, hunique.2.1, if_neg Bool.false_ne_true, hint, ColumnType.key, hstoll]

/-- With the keys of all records in the tree, it has the numbers of the live rows exactly if it
has no others of deleted ones. -/
theorem AllKeys.settled_iff (h : InOrder columns pk) (hkey : IntKey columns pk)
    (hc : c ∈ columns) (hindexed : c.indexed = true) (hint : c.type = .int)
    (hcolumns : t.columns = columns)
    (hall : AllKeys columns c t (records t)) : Settled c.name t ↔ ValuesInUse c t := by
  obtain ⟨tree, htree, htype, hlists⟩ := hall
  refine exists_congr fun vs => and_congr_right fun hnumbers => and_congr_right fun _ =>
    and_congr_right fun _ => ?_
  rw [columnNumbers, liveRows, List.map_map, hcolumns] at hnumbers
  have hlive : ∀ r ∈ live (records t), ∃ v ∈ vs, c.keyOf columns r = .int v := by
    intro r hr
    have hmem : number? (cell columns c.name r) ∈ vs.map some := by
      rw [← hnumbers]
      exact List.mem_map_of_mem hr
    obtain ⟨v, hv, heq⟩ := List.mem_map.mp hmem
    exact ⟨v, hv, h.keyOf_of_number hkey hc hindexed hint heq.symm⟩
  have hshown : ∀ v ∈ vs, ∃ r ∈ live (records t), c.keyOf columns r = .int v := by
    intro v hv
    have hmem : some v ∈ vs.map some := List.mem_map_of_mem hv
    rw [← hnumbers] at hmem
    obtain ⟨r, hr, heq⟩ := List.mem_map.mp hmem
    exact ⟨r, hr, h.keyOf_of_number hkey hc hindexed hint heq⟩
  constructor
  · intro hkeys r hr _
    have hhas := (hlists (c.keyOf columns r)).mpr (List.mem_map_of_mem hr)
    rw [hcolumns]
    cases hkey : c.keyOf columns r with
    | int v =>
      rw [hkey] at hhas
      exact ⟨v, (hkeys tree htree v).mp hhas, rfl⟩
    | text value =>
      rw [hkey, Tree.has_text htype] at hhas
      cases hhas
  · intro hdead tree' htree' key
    obtain rfl := Option.some.inj (htree.symm.trans htree')
    rw [hlists]
    constructor
    · intro hmem
      obtain ⟨r, hr, hkey⟩ := List.mem_map.mp hmem
      obtain ⟨v, hv, heq⟩ : ∃ v ∈ vs, c.keyOf columns r = .int v := by
        cases hd : r.dead with
        | true => exact hcolumns ▸ hdead r hr hd
        | false => exact hlive r (List.mem_filter.mpr ⟨hr, by rw [hd]; rfl⟩)
      rw [hkey] at heq
      rwa [Key.int.inj heq]
    · intro hv
      obtain ⟨r, hr, heq⟩ := hshown key hv
      rw [← heq]
      exact List.mem_map_of_mem (List.mem_filter.mp hr).1

/-- On every state a table with one primary key gets into, for a column with a tree over `int64_t`:
STATISTICS says what SELECT would under all conditions over the column if and only if the
table is settled. If the columns are in order and there has been no vacuum, that says that
the numbers of the deleted rows are in use. -/
theorem statistics_agree (hone : OnePrimary columns) (stmts : List Statement)
    (hcol : name ∈ columns.map Column.name)
    (hindex : keyTypeAt (createTable columns) name = some .int)
    (forEachKey : Tree → Walk) (table : Text)
    (hwalk : ∀ tree, (run (createTable columns) stmts).trees name = some tree →
      tree.Walks (forEachKey tree)) :
    ((∀ whereClause : Option Expression, (∀ e, whereClause = some e → e.over name = true) →
        Agrees forEachKey table name (run (createTable columns) stmts) whereClause) ↔
      Settled name (run (createTable columns) stmts)) ∧
    ∀ pk c, InOrder columns pk → IntKey columns pk → c ∈ columns → c.name = name →
      c.indexed = true → c.type = .int → (∀ s ∈ stmts, s ≠ .vacuum) →
      (Settled name (run (createTable columns) stmts) ↔
        ValuesInUse c (run (createTable columns) stmts)) := by
  obtain ⟨hcolumns, rs, hkeeps⟩ := keeps_run hone stmts
  constructor
  · have htype := (run_keyType (createTable columns) stmts name).trans hindex
    have hcol' : name ∈ allColumnNames (run (createTable columns) stmts).columns := by
      rw [hcolumns, allColumnNames, sortNames, List.mem_insertionSort]
      exact hcol
    obtain ⟨tree, htree, hint⟩ := Option.map_eq_some_iff.mp htype
    have hwalks := hwalk tree htree
    cases tree with
    | text keys => cases hint
    | int keys =>
      cases hkeys : forEachKey (.int keys) with
      | text ks =>
        rw [hkeys] at hwalks
        cases hwalks
      | int ks =>
        rw [hkeys] at hwalks
        constructor
        · exact hkeeps.settled hcol' htree hkeys hwalks
        · intro hsettled whereClause hover
          exact hkeeps.agrees hcol' htree hkeys hwalks hsettled hover
  · rintro pk c horder hkey hc rfl hindexed hint hstmts
    exact (allKeys_run horder hkey hc hindexed hint hstmts).settled_iff horder hkey hc hindexed hint
      hcolumns

/-- The walk over a tree with the key 1 only. -/
def walkOne (_ : Tree) : Walk := .int [1]

theorem walks_one {keys : Int64 → Option IndexNode}
    (hkeys : keys = Function.update (fun _ => none) 1 (some node)) :
    (Tree.int keys).Walks (.int [1]) := by
  refine ⟨List.pairwise_singleton .., fun key => ?_⟩
  rw [hkeys, List.mem_singleton, Function.update_apply]
  split <;> simp [*]

theorem walks_oneRow : ∀ tree, oneRow.trees ['i', 'd'] = some tree → tree.Walks (walkOne tree) := by
  intro tree htree
  cases htree
  exact walks_one rfl

theorem statistics_agree_oneRow :
    (∀ whereClause : Option Expression, (∀ e, whereClause = some e → e.over ['i', 'd'] = true) →
        Agrees walkOne ['t'] ['i', 'd'] oneRow whereClause) ↔ Settled ['i', 'd'] oneRow :=
  have hone : OnePrimary keyed := rfl
  (statistics_agree hone [.insert ⟨[['v']], [['a']]⟩] (by decide) rfl walkOne ['t']
    walks_oneRow).1

/-- The table after an INSERT and a DELETE of all rows. -/
def noRow : TableState := run (createTable keyed) [.insert ⟨[['v']], [['a']]⟩, .delete none]

/-- SELECT returns nothing, STATISTICS counts the deleted row. -/
theorem deleted_row_counted :
    (∀ tree, noRow.trees ['i', 'd'] = some tree → tree.Walks (walkOne tree)) ∧
      select none noRow = .ok [] ∧
      ExecStatStat walkOne .count ['t'] ['i', 'd'] none noRow = .ok (.count 1) ∧
      ¬ Agrees walkOne ['t'] ['i', 'd'] noRow none := by
  have hselect : select none noRow = .ok [] := rfl
  have hstat : ∀ type, ExecStatStat walkOne type ['t'] ['i', 'd'] none noRow =
      .ok (Scan.report type (Scan.add {} 1)) := by
    intro type
    rfl
  refine ⟨?_, hselect, hstat .count, fun hagrees => ?_⟩
  · intro tree htree
    cases htree
    exact walks_one rfl
  · obtain ⟨vs, hvs, hreport⟩ := hagrees [] _ hselect hstat
    obtain rfl := List.map_eq_nil_iff.mp hvs.symm
    cases hreport .count

end NanoVault.Table
