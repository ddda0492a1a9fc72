/-
Ids over the whole history of a table (`insertRow`, `vacuumTable`).

`insertRow` takes the next id from the last record of the index file, and vacuum writes no
record for a deleted row. While no vacuum meets a file whose last record is deleted, the ids
rows have been given are `1, 2, 3, …` in this order, restarts included; one that does makes
the next accepted INSERT give an id again (`ids_unused`).
-/
import NanoVault.Lib.Machine
import NanoVault.Table.Reload

namespace NanoVault.Table

open Lib

/-- What happens to a table: a statement, or the program starts again. -/
inductive Action where
  | statement (stmt : Statement)
  | restart
deriving DecidableEq, Repr

/-- The table after an action; the files survive a restart, the trees are made from them. A
restart that throws starts nothing. -/
def TableState.act (t : TableState) : Action → Option TableState
  | .statement stmt => some (execute t stmt).1
  | .restart =>
      match initializePrimaryIndexBtrees t.columns t.files (initialDatabseLoad t.columns) with
      | .ok trees => some { t with trees := trees }
      | .error _ => none

/-- The ids of the records behind those of the table before. -/
def newIds (before after : TableState) : List Nat :=
  ((records after).drop (recordCount before)).map Record.id

/-- A table, and the ids its rows have been given so far, deleted rows included. -/
structure Issue where
  table : TableState
  issued : List Nat

def Issue.act (s : Issue) (a : Action) : Option Issue :=
  (s.table.act a).map fun t => ⟨t, s.issued ++ newIds s.table t⟩

/-- The runs of a table from its CREATE TABLE on. -/
def issues (columns : List Column) : Machine Issue Action :=
  .ofFun ⟨createTable columns, []⟩ Issue.act

/-- The last record of the files, if there is one, belongs to a live row. -/
def LastAlive (t : TableState) : Prop := ∀ r ∈ (records t).getLast?, r.dead = false

/-- A vacuum finds the last record alive. -/
def KeepsLast (s : Issue) (a : Action) : Prop := a = .statement .vacuum → LastAlive s.table

instance (t : TableState) : Decidable (LastAlive t) :=
  inferInstanceAs (Decidable (∀ r ∈ (records t).getLast?, r.dead = false))

instance (s : Issue) (a : Action) : Decidable (KeepsLast s a) :=
  inferInstanceAs (Decidable (a = .statement .vacuum → LastAlive s.table))

variable {k : Nat} {rs old new : List Record} {t t' : TableState} {s s' : Issue} {a : Action}
  {columns : List Column}

/-! ### Statements -/

theorem renew_ids (columns : List Column) (names : List Text)
    (assignments : List (Text × Text)) (id : Nat) (hits : List Record) :
    (renew columns names assignments id hits).map Record.id = List.range' id hits.length := by
  induction hits generalizing id with
  | nil => rfl
  | cons r hits ih => simp only [renew, List.map_cons, ih, List.length_cons, List.range'_succ]

/-- The files keep the ids of the records `rs`, and have new records behind them with the ids
that follow. -/
structure Extends (k : Nat) (rs : List Record) (t' : TableState) (old new : List Record) :
    Prop where
  keeps : Keeps k t' (old ++ new)
  same : old.map Record.id = rs.map Record.id
  next : new.map Record.id = List.range' (nextId rs) new.length

theorem Keeps.extends (h : Keeps k t rs) : Extends k rs t rs [] :=
  ⟨by rwa [List.append_nil], rfl, rfl⟩

/-- Every statement but vacuum leaves the ids there are. -/
theorem Keeps.execute_extends (h : Keeps k t rs) {stmt : Statement} (hstmt : stmt ≠ .vacuum) :
    (Table.execute t stmt).1.columns = t.columns ∧
      ∃ old new, Extends k rs (Table.execute t stmt).1 old new := by
  have hkill : ∀ r : Record, r.kill.id = r.id := fun _ => rfl
  have hsame (whereClause : Option Expression) :=
    sweep_map hkill (allColumnNames t.columns) whereClause rs
  cases stmt with
  | insert stmt =>
      rw [Table.execute]
      cases hinsert : generateInsert stmt t with
      | error e => exact ⟨rfl, rs, [], h.extends⟩
      | ok t' =>
          obtain ⟨node, hcolumns, -, hkeeps⟩ := h.insert hinsert
          exact ⟨hcolumns, rs, _, hkeeps, rfl, rfl⟩
  | update assignments whereClause =>
      rw [Table.execute]
      cases hprimary : assignments.any fun a => a.1 = firstPrimary t.columns with
      | true =>
          simp only [handleUpdate, hprimary, if_true]
          exact ⟨trivial, rs, [], h.extends⟩
      | false =>
          obtain ⟨t', hupdate, hcolumns, hkeeps⟩ := h.update hprimary whereClause
          rw [hupdate]
          refine ⟨hcolumns, _, _, hkeeps, hsame whereClause, ?_⟩
          have hids := renew_ids t.columns (allColumnNames t.columns) assignments (nextId rs)
            (sweep (allColumnNames t.columns) whereClause rs).hits
          have hlength := congrArg List.length hids
          rw [List.length_map, List.length_range'] at hlength
          rw [hids, hlength]
  | delete whereClause =>
      obtain ⟨t', hdelete, hcolumns, -, hkeeps⟩ := h.delete whereClause
      rw [Table.execute, hdelete]
      refine ⟨hcolumns, _, [], ?_, hsame whereClause, rfl⟩
      rwa [List.append_nil]
  | vacuum => exact absurd rfl hstmt

theorem nextId_eq (rs : List Record) : nextId rs = ((rs.map Record.id).getLast?.getD 0) + 1 := by
  rw [nextId, List.getLast?_map]

theorem Extends.newIds (h : Extends k rs t' old new) (hkeeps : Keeps k t rs) :
    newIds t t' = List.range' (nextId rs) new.length := by
  have hlength := congrArg List.length h.same
  rw [List.length_map, List.length_map] at hlength
  rw [Table.newIds, h.keeps.records, hkeeps.recordCount, ← hlength, List.drop_left, h.next]

theorem Extends.nextId (h : Extends k rs t' old new) :
    nextId (old ++ new) = nextId rs + new.length := by
  rw [nextId_eq, List.map_append, h.same, h.next]
  rcases List.eq_nil_or_concat' new with rfl | ⟨new, r, rfl⟩
  · simp [nextId_eq]
  · rw [List.length_append, List.length_singleton, List.range'_concat]
    simp
    omega

/-! ### Vacuum -/

/-- Vacuum leaves the next id if the last record is alive. -/
theorem nextId_live (h : ∀ r ∈ rs.getLast?, r.dead = false) : nextId (live rs) = nextId rs := by
  rcases List.eq_nil_or_concat' rs with rfl | ⟨rs, r, rfl⟩
  · rfl
  · have halive : r.dead = false := h r (by simp)
    rw [live_append, live_cons_alive halive]
    show nextId (live rs ++ [r]) = _
    rw [nextId_concat, nextId_concat]

/-- If the last record is deleted, the ids behind the last live one come again. -/
theorem nextId_live_lt (hkeeps : Keeps k t rs) (h : ¬ ∀ r ∈ rs.getLast?, r.dead = false) :
    nextId (live rs) < nextId rs := by
  rcases List.eq_nil_or_concat' rs with rfl | ⟨rs, r, rfl⟩
  · exact absurd (fun r hr => by cases hr) h
  · have hdead : r.dead = true := by simpa using h
    have hpos := hkeeps.stores.positive r (by simp)
    have hasc := hkeeps.stores.ascending
    rw [live_append, live_cons_dead hdead, nextId_concat]
    show nextId (live rs ++ []) < _
    rw [List.append_nil]
    rcases List.eq_nil_or_concat' (live rs) with hnil | ⟨front, last, hlast⟩
    · rw [hnil]
      show 0 + 1 < r.id + 1
      omega
    · have hmem : last ∈ rs := (List.mem_filter.mp (by rw [← live, hlast]; simp)).1
      rw [List.map_append, List.pairwise_append] at hasc
      have hlt := hasc.2.2 last.id (List.mem_map_of_mem hmem) r.id (by simp)
      rw [hlast, nextId_concat]
      omega

/-! ### Runs -/

/-- The ids given so far are the numbers below the next one. -/
structure Numbered (columns : List Column) (s : Issue) (rs : List Record) : Prop where
  keeps : Keeps (columns.length - 1) s.table rs
  columns : s.table.columns = columns
  issued : s.issued = List.range' 1 (nextId rs - 1)

theorem numbered_createTable (hone : OnePrimary columns) :
    Numbered columns ⟨createTable columns, []⟩ [] :=
  ⟨keeps_createTable hone, rfl, rfl⟩

theorem Numbered.nodup (h : Numbered columns s rs) : s.issued.Nodup :=
  h.issued ▸ List.nodup_range'

/-- The records behind the old ones have the numbers behind the old ones. -/
theorem Numbered.extends (h : Numbered columns s rs)
    (hextends : Extends (columns.length - 1) rs t old new) (hcolumns : t.columns = columns) :
    Numbered columns ⟨t, s.issued ++ newIds s.table t⟩ (old ++ new) := by
  refine ⟨hextends.keeps, hcolumns, ?_⟩
  have hpos : 1 + (nextId rs - 1) = nextId rs := by
    rw [nextId_eq]
    omega
  have hcount : nextId rs + new.length - 1 = nextId rs - 1 + new.length := by omega
  rw [hextends.newIds h.keeps, hextends.nextId, h.issued, hcount, ← List.range'_append_1, hpos]

theorem Keeps.newIds_vacuum (h : Keeps k t rs) : newIds t (vacuumTable t).1 = [] := by
  have hle : (live rs).length ≤ rs.length := List.length_filter_le ..
  rw [newIds, h.vacuum.2.records, h.recordCount, List.drop_eq_nil_of_le hle]
  rfl

theorem Numbered.act (h : Numbered columns s rs) (hok : KeepsLast s a)
    (hact : s.act a = some s') : ∃ rs', Numbered columns s' rs' := by
  rw [Issue.act, Option.map_eq_some_iff] at hact
  obtain ⟨t, ht, rfl⟩ := hact
  cases a with
  | statement stmt =>
      rw [TableState.act, Option.some.injEq] at ht
      subst ht
      by_cases hstmt : stmt = .vacuum
      · subst hstmt
        have hlast : LastAlive s.table := hok rfl
        rw [LastAlive, h.keeps.records] at hlast
        obtain ⟨hvacuum, hkeeps⟩ := h.keeps.vacuum
        refine ⟨live rs, hkeeps, ?_, ?_⟩
        · rw [execute, hvacuum]
          exact h.columns
        · rw [execute, h.keeps.newIds_vacuum, List.append_nil, nextId_live hlast]
          exact h.issued
      · obtain ⟨hcolumns, old, new, hextends⟩ := h.keeps.execute_extends hstmt
        exact ⟨_, h.extends hextends (hcolumns.trans h.columns)⟩
  | restart =>
      rw [TableState.act] at ht
      split at ht
      · next trees hload =>
          cases ht
          have hkeeps : Keeps (columns.length - 1) { s.table with trees := trees } rs :=
            ⟨h.keeps.columns, h.keeps.others, h.keeps.stores⟩
          exact ⟨_, h.extends hkeeps.extends h.columns⟩
      · cases ht

theorem numbered_reach (hone : OnePrimary columns) (h : (issues columns).Reach KeepsLast s) :
    ∃ rs, Numbered columns s rs := by
  apply h.invariant
  · intro s hs
    cases hs
    exact ⟨[], numbered_createTable hone⟩
  · intro s a s' hnumbered hok hact
    obtain ⟨rs, hnumbered⟩ := hnumbered
    exact hnumbered.act hok hact

/-- On a table with one primary key, while every vacuum finds the last record alive, no id is
given twice; and after a vacuum that finds it deleted, the next accepted INSERT gives an id
again. -/
theorem ids_unused (hone : OnePrimary columns) (h : (issues columns).Reach KeepsLast s) :
    s.issued.Nodup ∧ ∀ s₁ s₂ stmt, ¬ KeepsLast s (.statement .vacuum) →
      s.act (.statement .vacuum) = some s₁ →
      (execute s₁.table (.insert stmt)).2 = none →
      s₁.act (.statement (.insert stmt)) = some s₂ → ¬ s₂.issued.Nodup := by
  obtain ⟨rs, hnumbered⟩ := numbered_reach hone h
  refine ⟨hnumbered.nodup, ?_⟩
  intro s₁ s₂ stmt hlast hvacuum haccepted hinsert hnodup
  have hdead : ¬ ∀ r ∈ rs.getLast?, r.dead = false := by
    intro halive
    apply hlast
    intro _
    rwa [LastAlive, hnumbered.keeps.records]
  have hlt := nextId_live_lt hnumbered.keeps hdead
  obtain ⟨hvacuumed, hkeeps⟩ := hnumbered.keeps.vacuum
  have hnone := hnumbered.keeps.newIds_vacuum
  rw [Issue.act, TableState.act, execute, Option.map_some, Option.some.injEq] at hvacuum
  rw [hnone, List.append_nil] at hvacuum
  subst hvacuum
  rw [Issue.act, TableState.act, Option.map_some, Option.some.injEq] at hinsert
  subst hinsert
  rw [execute] at haccepted hnodup
  cases hok : generateInsert stmt (vacuumTable s.table).1 with
  | error e =>
      rw [hok] at haccepted
      cases haccepted
  | ok t =>
      obtain ⟨node, -, -, hkeeps'⟩ := hkeeps.insert hok
      have hextends : Extends (columns.length - 1) (live rs) t (live rs) _ :=
        ⟨hkeeps', rfl, rfl⟩
      have hids := hextends.newIds hkeeps
      simp only [hok] at hnodup
      rw [hids] at hnodup
      -- the id of the new record is below the next one there would have been
      have hmem : nextId (live rs) ∈ s.issued := by
        rw [hnumbered.issued, List.mem_range'_1, nextId_eq (live rs)]
        rw [nextId_eq (live rs)] at hlt
        omega
      exact List.disjoint_of_nodup_append hnodup hmem (by simp)

/-- A run that has been computed. -/
theorem exists_reach {ok : Issue → Action → Prop} {test : Issue → Action → Bool}
    (sound : ∀ s a, test s a = true → ok s a) {actions : List Action} {ids : List Nat}
    (hrun : (Machine.replay Issue.act test ⟨createTable columns, []⟩ actions).map
      Issue.issued = some ids) :
    ∃ s, (issues columns).Reach ok s ∧ s.issued = ids := by
  obtain ⟨s, hreplay, hids⟩ := Option.map_eq_some_iff.mp hrun
  exact ⟨s, Machine.Reach.of_replay sound (.init rfl) hreplay, hids⟩

/-- A row is deleted, and vacuumed away when there is another one behind it. -/
def lastKept : List Action :=
  [.statement (.insert ⟨[['v']], [['a']]⟩), .statement (.delete none),
    .statement (.insert ⟨[['v']], [['b']]⟩), .statement .vacuum, .restart,
    .statement (.update [(['v'], ['c'])] (vIs ['b']))]

theorem ids_unused_keyed : OnePrimary keyed ∧
    ∃ s, (issues keyed).Reach KeepsLast s ∧ s.issued = [1, 2, 3] ∧ s.issued.Nodup := by
  have hone : OnePrimary keyed := rfl
  have hrun : (Machine.replay Issue.act (fun s a => decide (KeepsLast s a))
      ⟨createTable keyed, []⟩ lastKept).map Issue.issued = some [1, 2, 3] := by decide +kernel
  obtain ⟨s, hs, hids⟩ := exists_reach (fun s a => of_decide_eq_true) hrun
  exact ⟨hone, s, hs, hids, (ids_unused hone hs).1⟩

/-- The only row is deleted and vacuumed away, and the next one is given its id. -/
def reusing : List Action :=
  [.statement (.insert ⟨[['v']], [['a']]⟩), .statement (.delete none), .statement .vacuum,
    .statement (.insert ⟨[['v']], [['b']]⟩)]

theorem id_reused : OnePrimary keyed ∧
    ∃ s, (issues keyed).Reach Machine.Any s ∧ ¬ s.issued.Nodup := by
  have hrun : (Machine.replay Issue.act (fun _ _ => true) ⟨createTable keyed, []⟩
      reusing).map Issue.issued = some [1, 1] := by decide +kernel
  obtain ⟨s, hs, hids⟩ := exists_reach (fun _ _ _ => trivial) hrun
  refine ⟨rfl, s, hs, ?_⟩
  rw [hids]
  decide

end NanoVault.Table
