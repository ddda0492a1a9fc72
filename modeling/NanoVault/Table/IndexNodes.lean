/-
The nodes of the primary tree against the index file (`insertRow`, `vacuumTable`,
`loadAllNodesOfBtreeForPrimaryKey`).

A node says where a row's record begins and ends. INSERT and the loader write it, the end
into an `int16_t`; vacuum moves the records and leaves the trees. While the index file has
at most 32767 bytes and no vacuum closes a gap in front of a live record, the record with
id `p + 1` is the one at position `p`, and its node is right (`located_iff`).
-/
import NanoVault.Table.RowIds

namespace NanoVault.Table

open Lib

/-- The int primary key, whose name sorts before those of the other columns. -/
structure SortsFirst (columns : List Column) (pk : Column) : Prop where
  one : OnePrimary columns
  mem : pk ∈ columns
  primary : pk.isPrimary = true
  int : pk.type = .int
  named : pk.name ≠ []
  first : ∀ c ∈ columns, c.isPrimary = false → pk.name < c.name

/-- The node is that of the record at a position, for records of this many words. -/
structure IndexNode.Locates (node : IndexNode) (words p : Nat) : Prop where
  start : node.start.toInt = (8 * (p * words) : Nat)
  stop : node.stop.toInt = (8 * (p * words + words) : Nat)

/-- The primary tree has a node for the id of every live row that locates its record. -/
def Located (pk : Column) (t : TableState) : Prop :=
  ∀ p r, (records t)[p]? = some r → r.dead = false →
    ∃ keys node, t.trees pk.name = some (.int keys) ∧ keys (Int64.ofNat r.id) = some node ∧
      node.Locates (rowWords (allColumnNames t.columns)) p

def Action.isUpdate : Action → Bool
  | .statement (.update ..) => true
  | _ => false

/-- INSERT, DELETE, vacuum and restart, from CREATE TABLE on. -/
def tables (columns : List Column) : Machine TableState Action where
  init t := t = createTable columns
  step t a t' := a.isUpdate = false ∧ t.act a = some t'

/-- No live row's record stands behind that of a deleted one. -/
def GapFree (t : TableState) : Prop :=
  (records t).Pairwise fun r r' => r.dead = true → r'.dead = true

/-- An INSERT that names the columns leaves an index file whose size is an `int16_t`; a
vacuum moves no record. -/
def NodesFit (t : TableState) : Action → Prop
  | .statement (.insert stmt) => Names t.columns stmt →
      8 * (t.files.index.length + rowWords (allColumnNames t.columns)) < 2 ^ 15
  | .statement .vacuum => GapFree t
  | _ => True

variable {k p words : Nat} {r : Record} {rs rs' old new : List Record} {f : Files}
  {t t' : TableState} {pk : Column} {a : Action} {columns : List Column}
  {stmt : InsertStatement} {data : List InsertColumn} {name : Text} {node : IndexNode}
  {keys : Int64 → Option IndexNode} {trees trees' : Text → Option Tree} {tree tree' : Tree}

/-! ### Columns -/

theorem SortsFirst.primaries (h : SortsFirst columns pk) :
    columns.filter Column.isPrimary = [pk] :=
  h.one.primaries h.mem h.primary

theorem SortsFirst.lastPrimary (h : SortsFirst columns pk) : lastPrimary columns = pk.name :=
  lastPrimary_of_primaries h.primaries

/-- No other column has the name of the primary key. -/
theorem SortsFirst.eq_pk (h : SortsFirst columns pk) {c : Column} (hc : c ∈ columns)
    (hname : c.name = pk.name) : c = pk := by
  cases hprimary : c.isPrimary with
  | true =>
      have hmem : c ∈ columns.filter Column.isPrimary := List.mem_filter.mpr ⟨hc, hprimary⟩
      rwa [h.primaries, List.mem_singleton] at hmem
  | false =>
      have hlt := h.first c hc hprimary
      rw [hname] at hlt
      exact absurd hlt (lt_irrefl _)

theorem SortsFirst.insertData_ne (h : SortsFirst columns pk) (hnames : Names columns stmt)
    {d : InsertColumn} (hd : d ∈ insertData columns stmt) : d.name ≠ pk.name := by
  intro heq
  have hmem := List.mem_map_of_mem (f := InsertColumn.name) hd
  rw [insertData_names hnames, heq] at hmem
  obtain ⟨c, hc, hname⟩ := List.mem_map.mp hmem
  obtain ⟨hc, hother⟩ := mem_actualColumns.mp hc
  rw [h.eq_pk hc hname, h.primary] at hother
  cases hother

/-! ### Nodes -/

/-- A node whose places fit sixteen bits finds its row. -/
theorem rowNode_locates (hsize : 8 * (p * words + words) < 2 ^ 15) :
    (rowNode words p).Locates words p := by
  constructor
  · apply Int64.toInt_ofNat_of_lt
    omega
  · exact Int16.toInt_ofNat_of_lt hsize

/-- No node locates a record whose end is not an `int16_t`. -/
theorem IndexNode.Locates.size (h : node.Locates words p) :
    8 * (p * words + words) < 2 ^ 15 := by
  have hlt := Int16.toInt_lt node.stop
  rw [h.stop] at hlt
  exact_mod_cast hlt

/-- The start a node says is that of one record only. -/
theorem IndexNode.Locates.unique {p' : Nat} (h : node.Locates words p)
    (h' : node.Locates words p') (hwords : 0 < words) : p = p' := by
  have hstart := h.start.symm.trans h'.start
  have hmul : p * words = p' * words := by omega
  exact Nat.eq_of_mul_eq_mul_right hwords hmul

/-- The node INSERT writes. -/
theorem insertRow_trees {primaryName : Text} (h : insertRow primaryName data t = .ok t') :
    ∃ id, nextRowId t.files.index (1 + 2 * data.length) = .ok id ∧
      t'.trees = insertKeys t.trees primaryName data id
        { start := Int64.ofNat (8 * t.files.index.length)
          stop := Int16.ofNat (8 * t'.files.index.length) } := by
  rw [insertRow] at h
  split at h
  · cases h
  · cases hid : nextRowId t.files.index (1 + 2 * data.length) with
    | error e =>
        rw [hid] at h
        cases h
    | ok id =>
        rw [hid] at h
        cases h
        exact ⟨id, rfl, rfl⟩

theorem Keeps.index_length (h : Keeps k t rs) :
    t.files.index.length = rs.length * (1 + 2 * k) := h.stores.readable.index_length

/-- An accepted INSERT enters the node of the record behind the last one. -/
theorem Keeps.insert_node (h : Keeps k t rs) (hfirst : SortsFirst t.columns pk)
    (htree : t.trees pk.name = some (.int keys)) (hinsert : generateInsert stmt t = .ok t') :
    t'.trees pk.name = some (.int (Function.update keys (Int64.ofNat (nextId rs))
      (some (rowNode (1 + 2 * k) rs.length)))) := by
  obtain ⟨hnames, hrow⟩ := generateInsert_eq_ok.mp hinsert
  obtain ⟨-, -, -, hkeeps⟩ := h.insert hinsert
  obtain ⟨id, hid, htrees⟩ := insertRow_trees hrow
  have hlength := (insertData_length hnames).trans h.others
  rw [hlength, h.stores.nextRowId] at hid
  cases hid
  have hafter := hkeeps.index_length
  rw [List.length_append, List.length_singleton, Nat.succ_mul] at hafter
  rw [htrees, hafter, h.index_length, hfirst.lastPrimary,
    insertKeys_primary t.trees hfirst.named fun d hd => hfirst.insertData_ne hnames hd, htree]
  rfl

/-- The removal of keys changes no tree over `int64_t`. -/
theorem dropAll_int (names : List Text) (hits : List Record)
    (htree : t.trees name = some (.int keys)) :
    (dropAll names hits t).trees name = some (.int keys) := by
  induction hits generalizing t with
  | nil => exact htree
  | cons r hits ih =>
      apply ih
      rw [dropKeys_trees, htree]
      rfl

/-! ### The loader -/

/-- The loader enters the node of every record under its id. -/
theorem Readable.loadPrimaryLoop_int (h : Readable k f rs) {done rest : List Record}
    (hrs : rs = done ++ rest) (keys : Int64 → Option IndexNode)
    (hids : (rest.map fun r => Int64.ofNat r.id).Nodup) :
    ∃ keys', Table.loadPrimaryLoop f (1 + 2 * k) (List.range' done.length rest.length) (.int keys) =
        .ok (.int keys') ∧
      (∀ n, (∀ r ∈ rest, Int64.ofNat r.id ≠ n) → keys' n = keys n) ∧
      ∀ (i : Nat) (r : Record), rest[i]? = some r →
        keys' (Int64.ofNat r.id) = some (rowNode (1 + 2 * k) (done.length + i)) := by
  induction rest generalizing done keys with
  | nil => exact ⟨keys, rfl, fun n _ => rfl, fun i r hr => by cases hr⟩
  | cons r rest ih =>
      have hr : rs[done.length]? = some r := by rw [hrs]; simp
      obtain ⟨spans, more, hdrop, -⟩ := h.drop hr
      have hnext : rs = (done ++ [r]) ++ rest := by rw [hrs, List.append_cons]
      obtain ⟨hfresh, hids⟩ := List.nodup_cons.mp hids
      have hothers : ∀ r' ∈ rest, Int64.ofNat r'.id ≠ Int64.ofNat r.id :=
        fun r' hr' heq => hfresh (List.mem_map.mpr ⟨r', hr', heq⟩)
      obtain ⟨keys', hload, hkept, hentered⟩ := ih hnext
        (Function.update keys (Int64.ofNat r.id) (some (rowNode (1 + 2 * k) done.length))) hids
      rw [List.length_append, List.length_singleton] at hload hentered
      refine ⟨keys', ?_, ?_, ?_⟩
      · rw [List.length_cons, List.range'_succ, Table.loadPrimaryLoop, hdrop]
        exact hload
      · intro n hn
        rw [hkept n fun r' hr' => hn r' (List.mem_cons_of_mem _ hr')]
        exact Function.update_of_ne (hn r List.mem_cons_self).symm _ _
      · intro i r' hr'
        cases i with
        | zero =>
            cases hr'
            rw [hkept _ hothers, Function.update_self, Nat.add_zero]
        | succ i => rw [hentered i r' hr', Nat.add_assoc, Nat.add_comm 1 i]

/-- A restart that succeeds leaves in the primary tree what the loader has entered. -/
theorem SortsFirst.restart (h : SortsFirst columns pk)
    (hload : loadTree columns f pk (.int fun _ => none) = .ok tree)
    (hrestart : initializePrimaryIndexBtrees columns f trees = .ok trees') :
    trees' pk.name = some tree := by
  have hnew : pk.newTree = some (.int fun _ => none) := by
    rw [Column.newTree, h.primary, h.int]
  refine foldlM_sets Column.name ?_ ?_ ⟨pk, h.mem, rfl⟩ hrestart
  · intro g g' c hc hstep
    cases hctree : c.newTree with
    | none =>
        rw [hctree] at hstep
        cases hstep
        rfl
    | some ctree =>
        simp only [hctree] at hstep
        cases hcload : loadTree columns f c ctree with
        | error e =>
            rw [hcload] at hstep
            cases hstep
        | ok ctree' =>
            rw [hcload] at hstep
            cases hstep
            exact Function.update_of_ne hc.symm _ _
  · intro g g' c hc hname hstep
    obtain rfl := h.eq_pk hc hname
    simp only [hnew, hload] at hstep
    cases hstep
    exact Function.update_self ..

/-! ### Good states -/

/-- Ids are positions counted from one, the index file is short, and the primary tree has the
node of every record. -/
structure Aligned (columns : List Column) (pk : Column) (t : TableState) (rs : List Record) :
    Prop where
  keeps : Keeps (columns.length - 1) t rs
  columns_eq : t.columns = columns
  ids : rs.map Record.id = List.range' 1 rs.length
  short : 8 * t.files.index.length < 2 ^ 15
  nodes : ∃ keys, t.trees pk.name = some (.int keys) ∧ ∀ p < rs.length,
    keys (Int64.ofNat (p + 1)) = some (rowNode (1 + 2 * (columns.length - 1)) p)

/-- A record's id is its row. -/
theorem Aligned.id (h : Aligned columns pk t rs) (hr : rs[p]? = some r) : r.id = p + 1 := by
  have hid : (rs.map Record.id)[p]? = some r.id := by rw [List.getElem?_map, hr]; rfl
  obtain ⟨hp, -⟩ := List.getElem?_eq_some_iff.mp hr
  rw [h.ids, List.getElem?_range' hp] at hid
  have hsome := Option.some.inj hid
  omega

/-- The next id is the next row. -/
theorem Aligned.nextId (h : Aligned columns pk t rs) : nextId rs = rs.length + 1 := by
  rw [nextId_eq, h.ids]
  cases rs.length with
  | zero => rfl
  | succ n =>
      rw [List.range'_concat]
      simp
      omega

theorem Aligned.size (h : Aligned columns pk t rs) (hp : p < rs.length) :
    8 * (p * (1 + 2 * (columns.length - 1)) + (1 + 2 * (columns.length - 1))) < 2 ^ 15 := by
  have hshort := h.short
  rw [h.keeps.index_length] at hshort
  have hle := Nat.mul_le_mul_right (1 + 2 * (columns.length - 1)) (Nat.succ_le_of_lt hp)
  rw [Nat.succ_mul] at hle
  omega

/-- There are fewer rows than sixteen bits count. -/
theorem Aligned.few (h : Aligned columns pk t rs) : rs.length < 2 ^ 15 := by
  have hshort := h.short
  have hwords : 0 < 1 + 2 * (columns.length - 1) := by omega
  have hle := Nat.le_mul_of_pos_right rs.length hwords
  rw [h.keeps.index_length] at hshort
  omega

theorem Aligned.rowWords (h : Aligned columns pk t rs) :
    rowWords (allColumnNames t.columns) = 1 + 2 * (columns.length - 1) := h.keeps.rowWords

/-- In these states every node is right. -/
theorem Aligned.located (h : Aligned columns pk t rs) : Located pk t := by
  intro p r hr _
  rw [h.keeps.records] at hr
  obtain ⟨keys, htree, hkeys⟩ := h.nodes
  obtain ⟨hp, -⟩ := List.getElem?_eq_some_iff.mp hr
  refine ⟨keys, rowNode (1 + 2 * (columns.length - 1)) p, htree, ?_, ?_⟩
  · rw [h.id hr]
    exact hkeys p hp
  · rw [h.rowWords]
    exact rowNode_locates (h.size hp)

/-- A new table is aligned. -/
theorem SortsFirst.aligned_createTable (h : SortsFirst columns pk) :
    Aligned columns pk (createTable columns) [] := by
  refine ⟨keeps_createTable h.one, rfl, rfl, Nat.two_pow_pos 15, fun _ => none, ?_, ?_⟩
  · have hload : loadTree columns {} pk (.int fun _ => none) = .ok (.int fun _ => none) :=
      loadTree_empty h.mem _
    exact h.restart hload (initializePrimaryIndexBtrees_empty columns)
  · intro p hp
    cases hp

/-! ### INSERT -/

theorem ofNat_ne {a b : Nat} (ha : a < 2 ^ 63) (hb : b < 2 ^ 63) (hne : a ≠ b) :
    Int64.ofNat a ≠ Int64.ofNat b := by
  intro heq
  have hint := congrArg Int64.toInt heq
  rw [Int64.toInt_ofNat_of_lt ha, Int64.toInt_ofNat_of_lt hb] at hint
  exact hne (Int.ofNat_inj.mp hint)

/-- An INSERT whose places fit keeps ids and rows aligned. -/
theorem Aligned.insert_fits (h : Aligned columns pk t rs) (hfirst : SortsFirst columns pk)
    (hinsert : generateInsert stmt t = .ok t')
    (hfits : 8 * (t.files.index.length + Table.rowWords (allColumnNames t.columns)) < 2 ^ 15) :
    ∃ rs', Aligned columns pk t' rs' := by
  obtain ⟨-, hcolumns, -, hkeeps⟩ := h.keeps.insert hinsert
  obtain ⟨keys, htree, hkeys⟩ := h.nodes
  have hnode := h.keeps.insert_node (h.columns_eq ▸ hfirst) htree hinsert
  have hlength := hkeeps.index_length
  rw [List.length_append, List.length_singleton, Nat.succ_mul, ← h.keeps.index_length,
    ← h.rowWords] at hlength
  refine ⟨_, hkeeps, hcolumns.trans h.columns_eq, ?_, by rwa [hlength], _, hnode, ?_⟩
  · rw [List.map_append, h.ids, h.nextId, List.length_append, List.length_singleton,
      List.range'_concat]
    simp [Nat.add_comm]
  · intro p hp
    rw [List.length_append, List.length_singleton] at hp
    rw [h.nextId]
    rcases Nat.lt_succ_iff_lt_or_eq.mp hp with hp | rfl
    · have hfew := h.few
      rw [Function.update_of_ne (ofNat_ne (by omega) (by omega) (by omega))]
      exact hkeys p hp
    · rw [Function.update_self]

/-- The node of the new record is right only if its end is an `int16_t`. -/
theorem Aligned.insert_located (h : Aligned columns pk t rs)
    (hinsert : generateInsert stmt t = .ok t') (hlocated : Located pk t') :
    8 * (t.files.index.length + Table.rowWords (allColumnNames t.columns)) < 2 ^ 15 := by
  obtain ⟨-, hcolumns, -, hkeeps⟩ := h.keeps.insert hinsert
  have hnew : (records t')[rs.length]? = some ⟨Table.nextId rs, false,
      (insertData t.columns stmt).map InsertColumn.value⟩ := by
    rw [hkeeps.records]
    simp
  obtain ⟨keys, node, -, -, hnode⟩ := hlocated rs.length _ hnew rfl
  have hsize := hnode.size
  rwa [hcolumns, h.rowWords, ← h.keeps.index_length, ← h.rowWords] at hsize

/-- An INSERT that names the columns is refused only where there are none; then there is no
record either. -/
theorem Aligned.insert_refused (h : Aligned columns pk t rs) {e : Fault}
    (hinsert : generateInsert stmt t = .error e) (hnames : Names t.columns stmt) :
    8 * (t.files.index.length + Table.rowWords (allColumnNames t.columns)) < 2 ^ 15 := by
  have hlength := (insertData_length hnames).trans h.keeps.others
  have hnone : insertData t.columns stmt = [] := by
    by_contra hdata
    obtain ⟨t', node, hrow, -⟩ :=
      h.keeps.stores.insertRow hdata hlength (lastPrimary t.columns)
    rw [generateInsert_eq_ok.mpr ⟨hnames, hrow⟩] at hinsert
    cases hinsert
  rw [hnone, List.length_nil] at hlength
  have hempty : rs = [] := by
    apply List.eq_nil_iff_forall_not_mem.mpr
    intro r hr
    have hwidth := h.keeps.stores.width r hr
    exact h.keeps.stores.filled r hr (List.length_eq_zero_iff.mp (hwidth.trans hlength.symm))
  rw [h.keeps.index_length, h.rowWords, hempty, ← hlength]
  decide

/-! ### DELETE, vacuum and restart -/

/-- DELETE keeps them aligned, since tombstones move nothing. -/
theorem Aligned.delete (h : Aligned columns pk t rs) (whereClause : Option Expression) :
    ∃ rs', Aligned columns pk (handleDelete whereClause t).1 rs' := by
  obtain ⟨t', hdelete, hcolumns, htrees, hkeeps⟩ := h.keeps.delete whereClause
  obtain ⟨keys, htree, hkeys⟩ := h.nodes
  have hkill : ∀ r : Record, r.kill.id = r.id := fun _ => rfl
  have hids := sweep_map hkill (allColumnNames t.columns) whereClause rs
  have hlength := congrArg List.length hids
  rw [List.length_map, List.length_map] at hlength
  rw [hdelete]
  refine ⟨_, hkeeps, hcolumns.trans h.columns_eq, ?_, ?_, keys, ?_, ?_⟩
  · rw [hids, hlength]
    exact h.ids
  · rw [hkeeps.index_length, hlength, ← h.keeps.index_length]
    exact h.short
  · rw [htrees]
    exact dropAll_int _ _ htree
  · rwa [hlength]

/-- Without a gap, the live records are the first ones. -/
theorem live_eq_take (h : rs.Pairwise fun r r' => r.dead = true → r'.dead = true) :
    live rs = rs.take (live rs).length := by
  induction rs with
  | nil => rfl
  | cons r rs ih =>
      obtain ⟨hr, hrs⟩ := List.pairwise_cons.mp h
      cases hdead : r.dead with
      | true =>
          have hnone : live rs = [] := by
            apply List.filter_eq_nil_iff.mpr
            intro r' hr'
            simp [hr r' hr' hdead]
          rw [live_cons_dead hdead, hnone]
          rfl
      | false =>
          rw [live_cons_alive hdead, List.length_cons, List.take_succ_cons, ← ih hrs]

/-- A vacuum does if there is no gap to close. -/
theorem Aligned.vacuum (h : Aligned columns pk t rs) (hgap : GapFree t) :
    ∃ rs', Aligned columns pk (vacuumTable t).1 rs' := by
  obtain ⟨hvacuum, hkeeps⟩ := h.keeps.vacuum
  obtain ⟨keys, htree, hkeys⟩ := h.nodes
  rw [GapFree, h.keeps.records] at hgap
  have hle : (live rs).length ≤ rs.length := List.length_filter_le ..
  refine ⟨live rs, hkeeps, ?_, ?_, ?_, keys, ?_, ?_⟩
  · rw [hvacuum]
    exact h.columns_eq
  · conv_lhs => rw [live_eq_take hgap]
    rw [List.map_take, h.ids, List.take_range'_of_length_ge hle]
  · have hshort := h.short
    have hmul := Nat.mul_le_mul_right (1 + 2 * (columns.length - 1)) hle
    rw [hkeeps.index_length]
    rw [h.keeps.index_length] at hshort
    omega
  · rw [hvacuum]
    exact htree
  · exact fun p hp => hkeys p (Nat.lt_of_lt_of_le hp hle)

/-- Where a live record stands behind a deleted one, vacuum moves it and leaves its node. -/
theorem Aligned.vacuum_located (h : Aligned columns pk t rs)
    (hlocated : Located pk (vacuumTable t).1) : GapFree t := by
  obtain ⟨hvacuum, hkeeps⟩ := h.keeps.vacuum
  obtain ⟨keys, htree, hkeys⟩ := h.nodes
  rw [GapFree, h.keeps.records, List.pairwise_iff_getElem]
  intro i j hi hj hij hdead
  by_contra halive
  rw [Bool.not_eq_true] at halive
  -- the place of the record among the live ones is below its own
  have hsplit : live rs = live (rs.take j) ++ rs[j] :: live (rs.drop (j + 1)) := by
    conv_lhs => rw [← List.take_append_drop j rs, List.drop_eq_getElem_cons hj]
    rw [live_append, live_cons_alive halive]
  have hbelow : (live (rs.take j)).length < j := by
    have hmem : rs[i] ∈ rs.take j := List.mem_take_iff_getElem.mpr ⟨i, by omega, rfl⟩
    have hlt : (live (rs.take j)).length < (rs.take j).length := by
      apply List.length_filter_lt_length_iff_exists.mpr
      exact ⟨rs[i], hmem, by simp [hdead]⟩
    rw [List.length_take] at hlt
    omega
  have hplace : (records (vacuumTable t).1)[(live (rs.take j)).length]? = some rs[j] := by
    rw [hkeeps.records, hsplit]
    simp
  obtain ⟨keys', node, htree', hnode, hlocates⟩ := hlocated _ _ hplace halive
  have hid := h.id (List.getElem?_eq_getElem hj)
  rw [hvacuum] at htree' hlocates
  have hsame : keys' = keys := by
    have heq := htree'.symm.trans htree
    simpa using heq
  rw [hsame, hid, hkeys j hj, Option.some.injEq] at hnode
  subst hnode
  rw [show Table.rowWords (allColumnNames t.columns) = _ from h.rowWords] at hlocates
  have hunique := hlocates.unique (rowNode_locates (h.size hj)) (by omega)
  omega

/-- So does a restart. -/
theorem Aligned.restart (h : Aligned columns pk t rs) (hfirst : SortsFirst columns pk)
    (hrestart : initializePrimaryIndexBtrees t.columns t.files (initialDatabseLoad t.columns) =
      .ok trees) : Aligned columns pk { t with trees := trees } rs := by
  have hkeeps : Keeps (columns.length - 1) { t with trees := trees } rs :=
    ⟨h.keeps.columns, h.keeps.others, h.keeps.stores⟩
  have hids : (rs.map fun r => Int64.ofNat r.id).Nodup := by
    rw [List.nodup_iff_pairwise_ne, List.pairwise_map, List.pairwise_iff_getElem]
    intro i j hi hj hij
    have hfew := h.few
    have hi' := h.id (List.getElem?_eq_getElem hi)
    have hj' := h.id (List.getElem?_eq_getElem hj)
    exact ofNat_ne (by omega) (by omega) (by omega)
  obtain ⟨keys, hload, -, hentered⟩ := h.keeps.stores.readable.loadPrimaryLoop_int
    (List.nil_append rs).symm (fun _ => none) hids
  have hwords : 2 * columns.length - 1 = 1 + 2 * (columns.length - 1) := by
    have := h.keeps.columns
    rw [h.columns_eq] at this
    omega
  have htree : loadTree columns t.files pk (.int fun _ => none) = .ok (.int keys) := by
    have hcount : t.files.index.length / (1 + 2 * (columns.length - 1)) = rs.length := by
      rw [h.keeps.index_length]
      exact Nat.mul_div_cancel _ (by omega)
    rw [Table.loadTree, if_pos hfirst.primary]
    simp only [loadAllNodesOfBtreeForPrimaryKey, hwords, hcount, List.range_eq_range']
    exact hload
  rw [h.columns_eq] at hrestart
  refine ⟨hkeeps, h.columns_eq, h.ids, h.short, keys, hfirst.restart htree hrestart, ?_⟩
  intro p hp
  have hr := List.getElem?_eq_getElem hp
  have hnode := hentered p _ hr
  rwa [h.id hr, List.length_nil, Nat.zero_add] at hnode

/-! ### Runs -/

/-- The step from a good state: the nodes stay right if and only if the step fits, and the
state after a step that fits is a good one. -/
theorem Aligned.act (h : Aligned columns pk t rs) (hfirst : SortsFirst columns pk)
    (ha : a.isUpdate = false) (hact : t.act a = some t') :
    (NodesFit t a → ∃ rs', Aligned columns pk t' rs') ∧ (Located pk t' → NodesFit t a) := by
  cases a with
  | statement stmt =>
      rw [TableState.act, Option.some.injEq] at hact
      subst hact
      cases stmt with
      | insert stmt =>
          rw [execute]
          cases hinsert : generateInsert stmt t with
          | error e =>
              exact ⟨fun _ => ⟨rs, h⟩, fun _ hnames => h.insert_refused hinsert hnames⟩
          | ok t' =>
              have hnames := (generateInsert_eq_ok.mp hinsert).1
              exact ⟨fun hfits => h.insert_fits hfirst hinsert (hfits hnames),
                fun hlocated _ => h.insert_located hinsert hlocated⟩
      | update assignments whereClause => cases ha
      | delete whereClause =>
          rw [execute]
          exact ⟨fun _ => h.delete whereClause, fun _ => trivial⟩
      | vacuum =>
          rw [execute]
          exact ⟨h.vacuum, h.vacuum_located⟩
  | restart =>
      rw [TableState.act] at hact
      split at hact
      · next trees hrestart =>
          cases hact
          exact ⟨fun _ => ⟨rs, h.restart hfirst hrestart⟩, fun _ => trivial⟩
      · cases hact

/-- They are aligned in every state reached by such steps. -/
theorem aligned_reach (hfirst : SortsFirst columns pk) (h : (tables columns).Reach NodesFit t) :
    ∃ rs, Aligned columns pk t rs := by
  apply h.invariant
  · intro t ht
    cases ht
    exact ⟨[], hfirst.aligned_createTable⟩
  · intro t a t' haligned hfits hstep
    obtain ⟨rs, haligned⟩ := haligned
    exact (haligned.act hfirst hstep.1 hstep.2).1 hfits

/-- While every step fits, every live row's node in the primary tree says where its record
begins and ends; and the first step that does not fit leaves a node that does not. -/
theorem located_iff (hfirst : SortsFirst columns pk) (h : (tables columns).Reach NodesFit t) :
    Located pk t ∧ ∀ a t', (tables columns).step t a t' → (Located pk t' ↔ NodesFit t a) := by
  obtain ⟨rs, haligned⟩ := aligned_reach hfirst h
  refine ⟨haligned.located, ?_⟩
  intro a t' hstep
  obtain ⟨hfits, hlocated⟩ := haligned.act hfirst hstep.1 hstep.2
  constructor
  · exact hlocated
  · intro hok
    obtain ⟨rs', haligned'⟩ := hfits hok
    exact haligned'.located

def keyedPrimary : Column := { name := ['i', 'd'], type := .int, isPrimary := true }

theorem sortsFirst_keyed : SortsFirst keyed keyedPrimary where
  one := rfl
  mem := by decide
  primary := rfl
  int := rfl
  named := by decide
  first := by decide

theorem located_iff_oneRow : SortsFirst keyed keyedPrimary ∧ (tables keyed).Reach NodesFit oneRow ∧
    Located keyedPrimary oneRow ∧ ∀ a t', (tables keyed).step oneRow a t' →
      (Located keyedPrimary t' ↔ NodesFit oneRow a) := by
  have hinsert : (tables keyed).step (createTable keyed) (.statement (.insert ⟨[['v']], [['a']]⟩))
      oneRow := ⟨rfl, rfl⟩
  have hfits : NodesFit (createTable keyed) (.statement (.insert ⟨[['v']], [['a']]⟩)) := by
    intro _
    decide
  have hreach : (tables keyed).Reach NodesFit oneRow := .step (.init rfl) hfits hinsert
  exact ⟨sortsFirst_keyed, hreach, located_iff sortsFirst_keyed hreach⟩

/-- The first of two rows is deleted and vacuumed away. -/
def movedRow : TableState :=
  run (createTable keyed) [.insert ⟨[['v']], [['a']]⟩, .delete none,
    .insert ⟨[['v']], [['b']]⟩, .vacuum]

/-- The record of the second row begins at 0 now, and its node says 24. -/
theorem node_stale : SortsFirst keyed keyedPrimary ∧ (tables keyed).Reach Machine.Any movedRow ∧
    ¬ Located keyedPrimary movedRow := by
  refine ⟨sortsFirst_keyed, ?_, ?_⟩
  · have hstart : (tables keyed).Reach Machine.Any (createTable keyed) := .init rfl
    have hstep {t : TableState} {stmt : Statement} (h : (tables keyed).Reach Machine.Any t)
        (hstmt : Action.isUpdate (.statement stmt) = false) :
        (tables keyed).Reach Machine.Any (execute t stmt).1 := .step h trivial ⟨hstmt, rfl⟩
    exact hstep (hstep (hstep (hstep hstart rfl) rfl) rfl) rfl
  · intro hlocated
    have hrecord : (records movedRow)[0]? = some ⟨2, false, [['b']]⟩ := by decide +kernel
    obtain ⟨keys, node, htree, hnode, hlocates⟩ := hlocated 0 _ hrecord rfl
    have hstale : ∃ keys, movedRow.trees keyedPrimary.name = some (.int keys) ∧
        keys 2 = some { start := 24, stop := 48 } := ⟨_, rfl, by decide +kernel⟩
    obtain ⟨keys', htree', hnode'⟩ := hstale
    rw [htree, Option.some.injEq, Tree.int.injEq] at htree'
    subst htree'
    obtain rfl := Option.some.inj (hnode.symm.trans hnode')
    exact absurd hlocates.start (by decide)

end NanoVault.Table
