/-
Index trees against the live rows.

A tree should have the keys of the live rows and no others. As long as no UPDATE or DELETE
meets a row its condition holds of, and no text that is not a number is given for a UNIQUE
column over `int`, it does (`consistent_run`). The removal of a row leaves its keys over
`int64_t` behind, and `stoll` stands for 0 where it fails.
-/
import NanoVault.Table.Atomicity
import NanoVault.Table.Indexes

namespace NanoVault.Table

open Lib

/-- The keys a row should have in a column's tree: its id, or its value. A text that is no
number is no key over `int`. -/
def Column.rowKeys (columns : List Column) (c : Column) (r : Record) : List Key :=
  if c.isPrimary then [.int (Int64.ofNat r.id)]
  else
    match c.type with
    | .varchar => [.text (cell columns c.name r)]
    | .int =>
        match stoll (cell columns c.name r) with
        | .ok n => [.int n]
        | .error _ => []

def liveKeys (t : TableState) (c : Column) : List Key :=
  (live (records t)).flatMap (c.rowKeys t.columns)

/-- Every tree has the keys of the live rows and no others. -/
def Consistent (t : TableState) : Prop :=
  ∀ c ∈ t.columns, c.indexed = true →
    ∃ tree, t.trees c.name = some tree ∧ tree.Lists (liveKeys t c)

/-- What INSERT is given for a UNIQUE column over `int` is a number, if 0 is not a key yet. -/
def NumbersGiven (t : TableState) (stmt : InsertStatement) : Prop :=
  ∀ c ∈ t.columns, c.isUnique = true → c.type = .int → ∀ d ∈ insertData t.columns stmt,
    d.name = c.name → (stoll d.value).isOk = true ∨ Key.int 0 ∈ liveKeys t c

/-- Statements that leave the trees consistent. -/
def IndexSafe (t : TableState) : Statement → Prop
  | .insert stmt => Names t.columns stmt → NumbersGiven t stmt
  | .update assignments whereClause =>
      (assignments.any fun a => a.1 = firstPrimary t.columns) = true ∨
        ¬ MatchesFirst t whereClause
  | .delete whereClause => ¬ MatchesFirst t whereClause
  | .vacuum => True

variable {rs : List Record} {t t' : TableState} {pk : Column}
  {columns : List Column} {stmt : InsertStatement}

/-- A table no row of which has been deleted, with its trees. -/
structure Undeleted (columns : List Column) (t : TableState) (rs : List Record) : Prop where
  keeps : Keeps (columns.length - 1) t rs
  columns_eq : t.columns = columns
  alive : live rs = rs
  indexed : Indexed columns t rs

/-- The key of a row is the one it should have, or the 0 of a text that is no number. -/
theorem Column.rowKeys_cases (columns : List Column) (c : Column) (r : Record) :
    c.rowKeys columns r = [c.keyOf columns r] ∨
      c.isPrimary = false ∧ c.type = .int ∧ (stoll (cell columns c.name r)).isOk = false ∧
        c.rowKeys columns r = [] ∧ c.keyOf columns r = .int 0 := by
  rw [Column.rowKeys, Column.keyOf]
  cases c.isPrimary with
  | true => exact .inl rfl
  | false =>
      cases c.type with
      | varchar => exact .inl rfl
      | int =>
          rw [ColumnType.key]
          cases stoll (cell columns c.name r) with
          | ok n => exact .inl rfl
          | error e => exact .inr ⟨rfl, rfl, rfl, rfl, rfl⟩

theorem Undeleted.liveKeys (h : Undeleted columns t rs) (c : Column) :
    liveKeys t c = rs.flatMap (c.rowKeys columns) := by
  rw [Table.liveKeys, h.keeps.records, h.alive, h.columns_eq]

/-- The trees are consistent if every key in them is one a row should have. -/
theorem Undeleted.consistent_iff (h : Undeleted columns t rs) :
    Consistent t ↔ ∀ c ∈ columns, c.indexed = true → ∀ r ∈ rs,
      c.keyOf columns r ∈ rs.flatMap (c.rowKeys columns) := by
  have hkept : ∀ c : Column, c.kept rs = rs := by
    intro c
    rw [Column.kept]
    cases c.type with
    | int => rfl
    | varchar => exact h.alive
  rw [Consistent, h.columns_eq]
  refine forall₂_congr fun c hc => forall_congr' fun hindexed => ?_
  obtain ⟨tree, htree, -, hlists⟩ := h.indexed c hc hindexed
  rw [hkept] at hlists
  constructor
  · rintro ⟨tree', htree', hlists'⟩ r hr
    obtain rfl := Option.some.inj (htree.symm.trans htree')
    rw [← h.liveKeys, ← hlists', hlists]
    exact List.mem_map_of_mem hr
  · intro hkeys
    refine ⟨tree, htree, fun key => ?_⟩
    rw [hlists, h.liveKeys]
    constructor
    · intro hkey
      obtain ⟨r, hr, rfl⟩ := List.mem_map.mp hkey
      exact hkeys r hr
    · intro hkey
      obtain ⟨r, hr, hkey⟩ := List.mem_flatMap.mp hkey
      obtain hsame | ⟨-, -, -, hnone, -⟩ := c.rowKeys_cases columns r
      · rw [hsame, List.mem_singleton] at hkey
        exact hkey ▸ List.mem_map_of_mem hr
      · rw [hnone] at hkey
        cases hkey

theorem IntKey.undeleted_createTable (h : IntKey columns pk) :
    Undeleted columns (createTable columns) [] :=
  ⟨keeps_createTable h.one, rfl, rfl, h.indexed_createTable⟩

/-! ### Steps -/

theorem Undeleted.insert (h : KeyFirst columns pk) (hundeleted : Undeleted columns t rs)
    (hinsert : generateInsert stmt t = .ok t') :
    Undeleted columns t' (rs ++ [⟨nextId rs, false, (insertData columns stmt).map
      InsertColumn.value⟩]) := by
  obtain ⟨node, hcolumns, -, hkeeps⟩ := hundeleted.keeps.insert hinsert
  rw [hundeleted.columns_eq] at hcolumns hkeeps
  refine ⟨hkeeps, hcolumns, ?_,
    hundeleted.indexed.insert h hundeleted.keeps hundeleted.columns_eq hinsert⟩
  rw [live_append, hundeleted.alive]
  rfl

/-- An INSERT of numbers for the UNIQUE columns over `int` keeps the trees consistent. -/
theorem Undeleted.insert_consistent (h : KeyFirst columns pk)
    (hundeleted : Undeleted columns t rs) (hconsistent : Consistent t)
    (hnumbers : NumbersGiven t stmt) (hinsert : generateInsert stmt t = .ok t') :
    Consistent t' := by
  have hnames := (generateInsert_eq_ok.mp hinsert).1
  rw [hundeleted.columns_eq] at hnames
  rw [(hundeleted.insert h hinsert).consistent_iff]
  rw [hundeleted.consistent_iff] at hconsistent
  intro c hc hindexed r hr
  rw [List.flatMap_append, List.mem_append]
  rcases List.mem_append.mp hr with hr | hr
  · exact .inl (hconsistent c hc hindexed r hr)
  · obtain rfl := List.mem_singleton.mp hr
    obtain hkeys | ⟨hother, hint, hrefused, -, hzero⟩ := c.rowKeys_cases columns
      ⟨nextId rs, false, (insertData columns stmt).map InsertColumn.value⟩
    · right
      rw [List.flatMap_singleton, hkeys]
      exact List.mem_singleton_self _
    · left
      have hunique : c.isUnique = true := by
        rwa [Column.indexed, hother, Bool.false_or] at hindexed
      obtain ⟨d, hd, hdname, -, hcell⟩ := h.exists_value hnames
        (mem_actualColumns.mpr ⟨hc, hother⟩) (h.first c hc hother hunique)
      rw [hcell] at hrefused
      rw [NumbersGiven, hundeleted.columns_eq] at hnumbers
      rw [hzero, ← hundeleted.liveKeys]
      apply (hnumbers c hc hunique hint d hd hdname).resolve_left
      rw [hrefused]
      exact Bool.false_ne_true

theorem Undeleted.vacuum (h : Undeleted columns t rs) (hconsistent : Consistent t) :
    Undeleted columns (vacuumTable t).1 rs ∧ Consistent (vacuumTable t).1 := by
  obtain ⟨hvacuum, hkeeps⟩ := h.keeps.vacuum
  rw [h.alive] at hvacuum hkeeps
  have hundeleted : Undeleted columns (vacuumTable t).1 rs := by
    rw [hvacuum] at hkeeps ⊢
    exact ⟨hkeeps, h.columns_eq, h.alive, h.indexed⟩
  exact ⟨hundeleted, hundeleted.consistent_iff.mpr (h.consistent_iff.mp hconsistent)⟩

/-- A statement that meets the condition keeps the trees consistent and deletes no row. -/
theorem Undeleted.execute (h : KeyFirst columns pk) (hundeleted : Undeleted columns t rs)
    (hconsistent : Consistent t) {stmt : Statement} (hsafe : IndexSafe t stmt) :
    ∃ rs', Undeleted columns (execute t stmt).1 rs' ∧ Consistent (execute t stmt).1 := by
  cases stmt with
  | insert stmt =>
      rw [Table.execute]
      cases hinsert : generateInsert stmt t with
      | error e => exact ⟨rs, hundeleted, hconsistent⟩
      | ok t' =>
          have hnumbers := hsafe (generateInsert_eq_ok.mp hinsert).1
          exact ⟨_, hundeleted.insert h hinsert,
            hundeleted.insert_consistent h hconsistent hnumbers hinsert⟩
  | update assignments whereClause =>
      rw [Table.execute, (handleUpdate_unchanged_iff t assignments whereClause).mpr hsafe]
      exact ⟨rs, hundeleted, hconsistent⟩
  | delete whereClause =>
      rw [Table.execute, (handleDelete_unchanged_iff t whereClause).mpr hsafe]
      exact ⟨rs, hundeleted, hconsistent⟩
  | vacuum => exact ⟨rs, hundeleted.vacuum hconsistent⟩

/-- In a run of a table whose int primary key sorts before the UNIQUE columns, in which no
UPDATE or DELETE meets a matching row and the UNIQUE columns over `int` are given numbers,
the trees are consistent after every statement. -/
theorem consistent_run (h : KeyFirst columns pk) (stmts : List Statement)
    (hsafe : ∀ n stmt, stmts[n]? = some stmt →
      IndexSafe (run (createTable columns) (stmts.take n)) stmt) (n : Nat) :
    Consistent (run (createTable columns) (stmts.take n)) := by
  suffices ∃ rs, Undeleted columns (run (createTable columns) (stmts.take n)) rs ∧
      Consistent (run (createTable columns) (stmts.take n)) from this.elim fun _ hrun => hrun.2
  induction n with
  | zero =>
      have hcreated := h.undeleted_createTable
      refine ⟨[], hcreated, hcreated.consistent_iff.mpr fun c _ _ r hr => ?_⟩
      cases hr
  | succ n ih =>
      obtain ⟨rs, hundeleted, hconsistent⟩ := ih
      cases hstmt : stmts[n]? with
      | none =>
          rw [List.take_add_one, hstmt, Option.toList_none, List.append_nil]
          exact ⟨rs, hundeleted, hconsistent⟩
      | some stmt =>
          have hnext : run (createTable columns) (stmts.take (n + 1)) =
              (execute (run (createTable columns) (stmts.take n)) stmt).1 := by
            rw [List.take_add_one, hstmt, Option.toList_some, run, List.foldl_append]
            rfl
          rw [hnext]
          exact hundeleted.execute h hconsistent (hsafe n stmt hstmt)

/-- `CREATE TABLE t (id INT PRIMARY KEY, n INT UNIQUE)`. -/
def numberKeyed : List Column :=
  [{ name := ['i', 'd'], type := .int, isPrimary := true },
    { name := ['n'], type := .int, isUnique := true }]

theorem keyFirst_numberKeyed : KeyFirst numberKeyed
    { name := ['i', 'd'], type := .int, isPrimary := true } where
  mem := by decide
  primary := rfl
  one := rfl
  int := rfl
  named := by decide
  names := by decide
  first := by decide

theorem consistent_run_numberKeyed :
    Consistent (run (createTable numberKeyed) [.insert ⟨[['n']], [['7']]⟩]) := by
  refine consistent_run keyFirst_numberKeyed [.insert ⟨[['n']], [['7']]⟩] ?_ 1
  intro n stmt hstmt
  cases n with
  | zero =>
      obtain rfl := Option.some.inj hstmt
      intro _ c _ _ _ d hd _
      have hgiven : d ∈ [InsertColumn.mk ['n'] ['7'] true] := hd
      rw [List.mem_singleton.mp hgiven]
      exact .inl (by decide)
  | succ n => cases hstmt

/-- DELETE leaves the id of the row in the primary tree. -/
theorem deleted_id_left : KeyFirst keyed { name := ['i', 'd'], type := .int, isPrimary := true } ∧
    ¬ Consistent (run (createTable keyed) [.insert ⟨[['v']], [['a']]⟩, .delete none]) := by
  constructor
  · exact ⟨⟨⟨by decide, rfl, rfl, by decide⟩, rfl, by decide⟩, by decide⟩
  · intro hconsistent
    obtain ⟨tree, htree, hlists⟩ :=
      hconsistent { name := ['i', 'd'], type := .int, isPrimary := true } (by decide) rfl
    have hhas : ((run (createTable keyed) [.insert ⟨[['v']], [['a']]⟩, .delete none]).trees
        ['i', 'd']).map (Tree.has · (.int 1)) = some true := by decide
    rw [htree] at hhas
    have hkey := (hlists (.int 1)).mp (Option.some.inj hhas)
    revert hkey
    decide

end NanoVault.Table
