/-
The constraints of a schema (UNIQUE, `int`, `varchar(n)`).

No statement checks them: UNIQUE only says that a column has a tree, and INSERT and UPDATE store
any text in any column. They hold exactly as long as every statement keeps to them of itself
(`Respects`). The statements are those on one table whose columns are in order; the lengths are a
parameter, as nothing on the way of a row looks at them.
-/
import NanoVault.Table.IndexScan
import NanoVault.Table.Crash
import NanoVault.Table.Reload

namespace NanoVault.Table

open Lib

/-- The text the row shows in a column. -/
def shown (name : Text) (row : Row) : Text := valueToStorageString (Row.value row name)

/-- The declared type of the column allows the text. -/
def Column.Allows (maxLength : Column → Nat) (c : Column) (s : Text) : Prop :=
  match c.type with
  | .int => ∃ v : Int64, s = toText v
  | .varchar => s.length ≤ maxLength c

/-- The rows have no value twice in the column, if it is UNIQUE, and only values that its type
allows, if it is not the primary key. -/
structure Column.Holds (maxLength : Column → Nat) (rows : List Row) (c : Column) : Prop where
  unique : c.isUnique = true → (rows.map (shown c.name)).Nodup
  typed : c.isPrimary = false → ∀ row ∈ rows, c.Allows maxLength (shown c.name row)

/-- The constraints hold on the rows of the table. -/
def Constraints (maxLength : Column → Nat) (t : TableState) : Prop :=
  ∃ rows, select none t = .ok rows ∧ ∀ c ∈ t.columns, c.Holds maxLength rows

/-! ### Statements that keep to the constraints -/

/-- The rows UPDATE and DELETE find, and those they pass over; a condition that throws ends the
scan. -/
def splitRows (whereClause : Option Expression) : List Row → List Row × List Row
  | [] => ([], [])
  | row :: rows =>
      match evaluateWhere whereClause row with
      | .error _ => ([], row :: rows)
      | .ok true => (row :: (splitRows whereClause rows).1, (splitRows whereClause rows).2)
      | .ok false => ((splitRows whereClause rows).1, row :: (splitRows whereClause rows).2)

/-- The value of a column after the assignments. -/
def assigned (assignments : List (Text × Text)) (name old : Text) : Text :=
  assignments.foldl (fun value a => if a.1 = name then a.2 else value) old

/-- The values an INSERT that is accepted stores are allowed, and those of UNIQUE columns new;
an UPDATE that assigns to no primary key leaves allowed values in the rows it finds, and no value
of a UNIQUE column twice. -/
def Respects (maxLength : Column → Nat) (t : TableState) : Statement → Prop
  | .insert stmt => (generateInsert stmt t).toBool = true →
      ∀ rows, select none t = .ok rows → ∀ c ∈ t.columns, c.isPrimary = false →
        ∀ v, (c.name, v) ∈ stmt.columns.zip stmt.values →
          c.Allows maxLength v ∧ (c.isUnique = true → ∀ row ∈ rows, shown c.name row ≠ v)
  | .update assignments whereClause =>
      (assignments.any fun a => a.1 = firstPrimary t.columns) = false →
        ∀ rows, select none t = .ok rows → ∀ c ∈ t.columns, c.isPrimary = false →
          (∀ row ∈ (splitRows whereClause rows).1,
            c.Allows maxLength (assigned assignments c.name (shown c.name row))) ∧
          (c.isUnique = true →
            ((splitRows whereClause rows).2.map (shown c.name) ++ (splitRows whereClause rows).1.map
              fun row => assigned assignments c.name (shown c.name row)).Nodup)
  | .delete _ => True
  | .vacuum => True

variable {maxLength : Column → Nat} {columns : List Column} {pk c : Column} {k : Nat}
  {t t' : TableState} {rs : List Record} {r : Record} {row : Row} {rows rows' : List Row}
  {name value : Text} {stmt : InsertStatement} {assignments : List (Text × Text)}
  {whereClause : Option Expression}

/-! ### Rows and records -/

theorem liveRows_shown (names : List Text) (rs : List Record) (name : Text) :
    (liveRows names rs).map (shown name) =
      (live rs).map fun r => shown name (rowOf names r) := by
  rw [liveRows, List.map_map]
  rfl

/-- A column's text is what the row shows. -/
theorem cell_eq_shown (columns : List Column) (name : Text) (r : Record) :
    cell columns name r = shown name (rowOf (allColumnNames columns) r) := rfl

/-- Fewer rows keep a constraint. -/
theorem Column.Holds.sublist (h : c.Holds maxLength rows) (hrows : rows'.Sublist rows) :
    c.Holds maxLength rows' := by
  constructor
  · intro hunique
    exact (h.unique hunique).sublist (hrows.map _)
  · intro hother row hrow
    exact h.typed hother row (hrows.subset hrow)

/-- The scan of the records finds the rows of `splitRows`. -/
theorem sweep_splitRows (names : List Text) (whereClause : Option Expression) (rs : List Record) :
    splitRows whereClause (liveRows names rs) =
      ((sweep names whereClause rs).hits.map (rowOf names),
        liveRows names (sweep names whereClause rs).records) := by
  induction rs with
  | nil => rfl
  | cons r rs ih =>
      cases hdead : r.dead with
      | true =>
          rw [liveRows, live_cons_dead hdead, ← liveRows, ih, sweep_dead hdead]
          dsimp only
          rw [liveRows, liveRows, live_cons_dead hdead]
      | false =>
          rw [liveRows, live_cons_alive hdead, List.map_cons, ← liveRows, splitRows]
          cases hwhere : evaluateWhere whereClause (rowOf names r) with
          | error e =>
              rw [sweep_error hdead hwhere]
              dsimp only
              rw [liveRows, liveRows, live_cons_alive hdead]
              rfl
          | ok pass =>
              cases pass with
              | true =>
                  rw [sweep_true hdead hwhere]
                  dsimp only
                  rw [ih, liveRows, liveRows, live_cons_dead rfl]
                  rfl
              | false =>
                  rw [sweep_false hdead hwhere]
                  dsimp only
                  rw [ih, liveRows, liveRows, live_cons_alive hdead]
                  rfl

/-- What a DELETE leaves are fewer rows. -/
theorem splitRows_sublist (whereClause : Option Expression) (rows : List Row) :
    (splitRows whereClause rows).2.Sublist rows := by
  induction rows with
  | nil => exact List.Sublist.refl _
  | cons row rows ih =>
      rw [splitRows]
      cases evaluateWhere whereClause row with
      | error e => exact List.Sublist.refl _
      | ok pass =>
          cases pass with
          | true => exact ih.cons row
          | false => exact ih.cons_cons row

/-! ### The primary key -/

/-- The rows show their ids in the primary key, which are different. -/
theorem InOrder.holds_primary (h : InOrder columns pk) (hkeeps : Keeps k t rs) :
    pk.Holds maxLength (liveRows (allColumnNames columns) rs) := by
  constructor
  · intro _
    have hshown : (fun r => shown pk.name (rowOf (allColumnNames columns) r)) =
        fun r => digits r.id := by
      funext r
      exact h.cell_primary r
    have hids : ((live rs).map Record.id).Nodup := by
      have hascending := hkeeps.stores.ascending
      have hsub : ((live rs).map Record.id).Sublist (rs.map Record.id) :=
        List.filter_sublist.map _
      exact (hascending.sublist hsub).imp fun hlt => Nat.ne_of_lt hlt
    rw [liveRows_shown, hshown, ← Function.comp_def, ← List.map_map]
    exact hids.map digits_injective
  · intro hother
    rw [h.primary] at hother
    cases hother

theorem InOrder.holds_iff (h : InOrder columns pk) (hkeeps : Keeps k t rs) :
    (∀ c ∈ columns, c.Holds maxLength (liveRows (allColumnNames columns) rs)) ↔
      ∀ c ∈ columns, c.isPrimary = false →
        c.Holds maxLength (liveRows (allColumnNames columns) rs) := by
  constructor
  · intro hholds c hc _
    exact hholds c hc
  · intro hholds c hc
    cases hprimary : c.isPrimary with
    | false => exact hholds c hc hprimary
    | true =>
        rw [h.eq_pk hc hprimary]
        exact h.holds_primary hkeeps

/-! ### INSERT -/

/-- What INSERT writes is what it was given. -/
theorem mem_insertData {columns : List Column} {d : InsertColumn}
    (hd : d ∈ insertData columns stmt) : (d.name, d.value) ∈ given stmt := by
  obtain ⟨j, hj⟩ := List.getElem?_of_mem hd
  rw [insertData, List.getElem?_zipWith_eq_some] at hj
  obtain ⟨c, g, -, hg, rfl⟩ := hj
  exact List.mem_of_getElem? hg

theorem mem_given {p : Text × Text} : p ∈ given stmt ↔ p ∈ stmt.columns.zip stmt.values :=
  List.mem_insertionSort _

/-- A row that is inserted shows the values of the statement. -/
theorem InOrder.cell_insertData (h : InOrder columns pk) (hnames : Names columns stmt)
    (hc : c ∈ columns) (hother : c.isPrimary = false) (id : Nat) (dead : Bool) :
    (c.name, value) ∈ stmt.columns.zip stmt.values ↔
      value = cell columns c.name ⟨id, dead, (insertData columns stmt).map InsertColumn.value⟩ := by
  obtain ⟨d, hd, hname, -, hcell⟩ := (fits_insertData hnames).exists_value h
    (mem_actualColumns.mpr ⟨hc, hother⟩)
  have hmem := mem_insertData hd
  rw [hname] at hmem
  have hnodup : ((given stmt).map Prod.fst).Nodup := by
    rw [hnames]
    exact (List.nodup_cons.mp h.nodup).2
  rw [hcell, ← mem_given]
  constructor
  · intro hvalue
    exact (Prod.mk.inj (List.inj_on_of_nodup_map hnodup hvalue hmem rfl)).2
  · rintro rfl
    exact hmem

/-- One row more keeps a constraint if it is allowed and not there already. -/
theorem Column.holds_concat :
    c.Holds maxLength (rows ++ [row]) ↔ c.Holds maxLength rows ∧
      (c.isPrimary = false → c.Allows maxLength (shown c.name row)) ∧
      (c.isUnique = true → ∀ row' ∈ rows, shown c.name row' ≠ shown c.name row) := by
  constructor
  · intro h
    refine ⟨h.sublist (List.sublist_append_left _ _), ?_, ?_⟩
    · intro hother
      exact h.typed hother row (List.mem_append_right _ (List.mem_singleton.mpr rfl))
    · intro hunique row' hrow' heq
      have hnodup := h.unique hunique
      rw [List.map_append, List.map_singleton, List.nodup_append] at hnodup
      exact hnodup.2.2 _ (List.mem_map_of_mem hrow') _ (List.mem_singleton.mpr rfl) heq
  · rintro ⟨h, hallows, hnew⟩
    constructor
    · intro hunique
      rw [List.map_append, List.map_singleton, List.nodup_append]
      refine ⟨h.unique hunique, List.nodup_singleton _, ?_⟩
      intro a ha b hb
      obtain ⟨row', hrow', rfl⟩ := List.mem_map.mp ha
      rw [List.mem_singleton.mp hb]
      exact hnew hunique row' hrow'
    · intro hother row' hrow'
      cases List.mem_append.mp hrow' with
      | inl hrow' => exact h.typed hother row' hrow'
      | inr hrow' =>
          rw [List.mem_singleton.mp hrow']
          exact hallows hother

/-- Only the columns that are not primary have to be looked at. -/
theorem constraints_iff (h : InOrder columns pk) (hkeeps : Keeps k t rs)
    (hcolumns : t.columns = columns) : Constraints maxLength t ↔
      ∀ c ∈ columns, c.isPrimary = false →
        c.Holds maxLength (liveRows (allColumnNames columns) rs) := by
  rw [← h.holds_iff hkeeps, Constraints, hkeeps.select_none, hcolumns]
  constructor
  · rintro ⟨rows, hrows, hholds⟩
    rw [Except.ok.inj hrows]
    exact hholds
  · intro hholds
    exact ⟨_, rfl, hholds⟩

/-- INSERT keeps the constraints if its values respect them. -/
theorem InOrder.constraints_insert (h : InOrder columns pk) (hkeeps : Keeps k t rs)
    (hcolumns : t.columns = columns) (hholds : Constraints maxLength t) :
    Constraints maxLength (execute t (.insert stmt)).1 ↔ Respects maxLength t (.insert stmt) := by
  rw [execute, Respects]
  cases hinsert : generateInsert stmt t with
  | error e => exact iff_of_true hholds fun hok => by cases hok
  | ok t' =>
      have hnames := (generateInsert_eq_ok.mp hinsert).1
      obtain ⟨node, hcolumns', -, hkeeps'⟩ := hkeeps.insert hinsert
      rw [hcolumns] at hnames hkeeps'
      rw [constraints_iff h hkeeps hcolumns] at hholds
      have hrows : liveRows (allColumnNames columns)
          (rs ++ [⟨nextId rs, false, (insertData columns stmt).map InsertColumn.value⟩]) =
          liveRows (allColumnNames columns) rs ++ [rowOf (allColumnNames columns)
            ⟨nextId rs, false, (insertData columns stmt).map InsertColumn.value⟩] := by
        rw [liveRows, live_append, List.map_append]
        rfl
      have hcell : ∀ c ∈ columns, c.isPrimary = false → ∀ v, (c.name, v) ∈
          stmt.columns.zip stmt.values ↔ v = shown c.name (rowOf (allColumnNames columns)
            ⟨nextId rs, false, (insertData columns stmt).map InsertColumn.value⟩) := by
        intro c hc hother v
        exact h.cell_insertData hnames hc hother (nextId rs) false
      rw [constraints_iff h hkeeps' (hcolumns'.trans hcolumns), hkeeps.select_none, hcolumns, hrows]
      constructor
      · rintro hafter - rows hselect c hc hother v hv
        obtain rfl := Except.ok.inj hselect
        obtain ⟨-, hallows, hnew⟩ := Column.holds_concat.mp (hafter c hc hother)
        rw [(hcell c hc hother v).mp hv]
        exact ⟨hallows hother, hnew⟩
      · intro hrespects c hc hother
        obtain ⟨hallows, hnew⟩ := hrespects rfl _ rfl c hc hother _ ((hcell c hc hother _).mpr rfl)
        exact Column.holds_concat.mpr ⟨hholds c hc hother, fun _ => hallows, hnew⟩

/-! ### UPDATE -/

/-- An assignment shows in the row. -/
theorem shown_assign (row : Row) (assignments : List (Text × Text)) (name : Text) :
    shown name (assign row assignments) = assigned assignments name (shown name row) := by
  induction assignments generalizing row with
  | nil => rfl
  | cons a assignments ih =>
      show shown name (assign (row.insert a.1 (.text a.2)) assignments) =
        assigned assignments name (if a.1 = name then a.2 else shown name row)
      rw [ih]
      congr 1
      rw [shown, shown, Row.value, Row.value]
      split
      · next heq =>
          rw [heq, SortedMap.find?_insert_self]
          rfl
      · next hne => rw [SortedMap.find?_insert_ne _ _ hne]

/-- A row that is written again shows the values assigned to it. -/
theorem InOrder.cell_updateColumns (h : InOrder columns pk) (hc : c ∈ columns)
    (hother : c.isPrimary = false) (row : Row) (id : Nat) (dead : Bool) :
    cell columns c.name ⟨id, dead, (updateColumns columns row).map InsertColumn.value⟩ =
      shown c.name row := by
  obtain ⟨d, hd, hname, -, hcell⟩ := (h.fits_updateColumns row).exists_value h
    (mem_actualColumns.mpr ⟨hc, hother⟩)
  obtain ⟨c', -, rfl⟩ := List.mem_map.mp hd
  obtain hname : c'.name = c.name := hname
  rw [hcell, ← hname]
  rfl

theorem live_renew (columns : List Column) (names : List Text)
    (assignments : List (Text × Text)) (id : Nat) (hits : List Record) :
    live (renew columns names assignments id hits) = renew columns names assignments id hits := by
  induction hits generalizing id with
  | nil => rfl
  | cons r hits ih => rw [renew, live_cons_alive rfl, ih]

theorem InOrder.shown_renew (h : InOrder columns pk) (hc : c ∈ columns)
    (hother : c.isPrimary = false) (assignments : List (Text × Text)) (id : Nat)
    (hits : List Record) :
    (renew columns (allColumnNames columns) assignments id hits).map
        (fun r => shown c.name (rowOf (allColumnNames columns) r)) =
      (hits.map (rowOf (allColumnNames columns))).map
        fun row => assigned assignments c.name (shown c.name row) := by
  induction hits generalizing id with
  | nil => rfl
  | cons r hits ih =>
      have hcell := h.cell_updateColumns hc hother
        (assign (rowOf (allColumnNames columns) r) assignments) id false
      rw [cell_eq_shown, shown_assign] at hcell
      rw [renew, List.map_cons, List.map_cons, List.map_cons, ih, hcell]

/-- Whether the constraints of a column hold depends on the values shown in it. -/
theorem Column.holds_iff_values (hother : c.isPrimary = false) {values : List Text}
    (hvalues : rows.map (shown c.name) = values) : c.Holds maxLength rows ↔
      (∀ s ∈ values, c.Allows maxLength s) ∧ (c.isUnique = true → values.Nodup) := by
  subst hvalues
  constructor
  · intro h
    refine ⟨?_, h.unique⟩
    intro s hs
    obtain ⟨row, hrow, rfl⟩ := List.mem_map.mp hs
    exact h.typed hother row hrow
  · rintro ⟨hallows, hunique⟩
    refine ⟨hunique, ?_⟩
    intro _ row hrow
    exact hallows _ (List.mem_map_of_mem hrow)

/-- UPDATE keeps the constraints if its values respect them. -/
theorem InOrder.constraints_update (h : InOrder columns pk) (hkeeps : Keeps k t rs)
    (hcolumns : t.columns = columns) (hholds : Constraints maxLength t) :
    Constraints maxLength (execute t (.update assignments whereClause)).1 ↔
      Respects maxLength t (.update assignments whereClause) := by
  rw [execute, Respects]
  cases hprimary : assignments.any fun a => a.1 = firstPrimary t.columns with
  | true =>
      rw [handleUpdate, hprimary]
      exact iff_of_true hholds fun hfalse => by cases hfalse
  | false =>
      obtain ⟨t', hupdate, hcolumns', hkeeps'⟩ := hkeeps.update hprimary whereClause
      rw [hcolumns] at hkeeps'
      rw [constraints_iff h hkeeps hcolumns] at hholds
      have hscan := sweep_splitRows (allColumnNames columns) whereClause rs
      have hothers := (splitRows_sublist whereClause (liveRows (allColumnNames columns) rs)).subset
      rw [hupdate, constraints_iff h hkeeps' (hcolumns'.trans hcolumns), hkeeps.select_none, hcolumns]
      have hvalues : ∀ c ∈ columns, c.isPrimary = false →
          (liveRows (allColumnNames columns)
            ((sweep (allColumnNames columns) whereClause rs).records ++
              renew columns (allColumnNames columns) assignments (nextId rs)
                (sweep (allColumnNames columns) whereClause rs).hits)).map (shown c.name) =
          (splitRows whereClause (liveRows (allColumnNames columns) rs)).2.map (shown c.name) ++
            (splitRows whereClause (liveRows (allColumnNames columns) rs)).1.map
              fun row => assigned assignments c.name (shown c.name row) := by
        intro c hc hother
        rw [hscan, liveRows_shown, live_append, live_renew, List.map_append, liveRows_shown,
          h.shown_renew hc hother]
      constructor
      · rintro hafter - rows hselect c hc hother
        obtain rfl := Except.ok.inj hselect
        obtain ⟨hallows, hunique⟩ :=
          (Column.holds_iff_values hother (hvalues c hc hother)).mp (hafter c hc hother)
        refine ⟨?_, hunique⟩
        intro row hrow
        exact hallows _ (List.mem_append_right _ (List.mem_map_of_mem hrow))
      · intro hrespects c hc hother
        obtain ⟨hallows, hunique⟩ := hrespects rfl _ rfl c hc hother
        refine (Column.holds_iff_values hother (hvalues c hc hother)).mpr ⟨?_, hunique⟩
        intro s hs
        cases List.mem_append.mp hs with
        | inl hs =>
            obtain ⟨row, hrow, rfl⟩ := List.mem_map.mp hs
            exact (hholds c hc hother).typed hother row (hothers hrow)
        | inr hs =>
            obtain ⟨row, hrow, rfl⟩ := List.mem_map.mp hs
            exact hallows row hrow

/-! ### Runs -/

/-- A statement keeps the constraints exactly if it respects them. -/
theorem InOrder.constraints_execute (h : InOrder columns pk) (hkeeps : Keeps k t rs)
    (hcolumns : t.columns = columns) (hholds : Constraints maxLength t) (s : Statement) :
    Constraints maxLength (execute t s).1 ↔ Respects maxLength t s := by
  cases s with
  | insert stmt => exact h.constraints_insert hkeeps hcolumns hholds
  | update assignments whereClause => exact h.constraints_update hkeeps hcolumns hholds
  | delete whereClause =>
      refine iff_of_true ?_ trivial
      obtain ⟨t', hdelete, hcolumns', -, hkeeps'⟩ := hkeeps.delete whereClause
      rw [hcolumns] at hkeeps'
      rw [constraints_iff h hkeeps hcolumns] at hholds
      rw [execute, hdelete, constraints_iff h hkeeps' (hcolumns'.trans hcolumns)]
      intro c hc hother
      have hsub := splitRows_sublist whereClause (liveRows (allColumnNames columns) rs)
      rw [sweep_splitRows] at hsub
      exact (hholds c hc hother).sublist hsub
  | vacuum =>
      refine iff_of_true ?_ trivial
      obtain ⟨hvacuum, hkeeps'⟩ := hkeeps.vacuum
      have hcolumns' : (vacuumTable t).1.columns = columns := by
        rw [hvacuum]
        exact hcolumns
      rw [constraints_iff h hkeeps hcolumns] at hholds
      rw [execute, constraints_iff h hkeeps' hcolumns', liveRows, live_live, ← liveRows]
      exact hholds

/-- In every run whose statements respect the constraints they hold in every state, and a further
statement keeps them exactly if it respects them too. -/
theorem constraints_respected (h : InOrder columns pk) (maxLength : Column → Nat)
    (stmts : List Statement)
    (hrespects : ∀ n s, stmts[n]? = some s →
      Respects maxLength (run (createTable columns) (stmts.take n)) s) :
    Constraints maxLength (run (createTable columns) stmts) ∧ ∀ s : Statement,
      (Constraints maxLength (execute (run (createTable columns) stmts) s).1 ↔
        Respects maxLength (run (createTable columns) stmts) s) := by
  suffices hrun : Constraints maxLength (run (createTable columns) stmts) by
    obtain ⟨hcolumns, rs, hkeeps⟩ := keeps_run h.one stmts
    exact ⟨hrun, fun s => h.constraints_execute hkeeps hcolumns hrun s⟩
  induction stmts using List.reverseRecOn with
  | nil =>
      rw [run, List.foldl_nil, constraints_iff h (keeps_createTable h.one) rfl]
      intro c _ hother
      constructor
      · intro _
        exact List.nodup_nil
      · intro _ row hrow
        cases hrow
  | append_singleton stmts s ih =>
      obtain ⟨hcolumns, rs, hkeeps⟩ := keeps_run h.one stmts
      have hbefore : Constraints maxLength (run (createTable columns) stmts) := by
        apply ih
        intro n s' hs'
        have hn : n < stmts.length := (List.getElem?_eq_some_iff.mp hs').1
        have hlater := hrespects n s' (by rw [List.getElem?_append_left hn, hs'])
        rwa [List.take_append_of_le_length (Nat.le_of_lt hn)] at hlater
      have hs := hrespects stmts.length s (by simp)
      rw [List.take_left] at hs
      rw [run, List.foldl_append]
      exact (h.constraints_execute hkeeps hcolumns hbefore s).mpr hs

theorem inOrder_uniqueKeyed :
    InOrder uniqueKeyed { name := ['i', 'd'], type := .int, isPrimary := true } where
  mem := by decide
  primary := rfl
  one := rfl
  names := by decide
  leads := by decide
  declared := by decide

/-- Two rows are inserted into a table with a UNIQUE column, and one of them is updated. -/
def threeValues : List Statement :=
  [.insert ⟨[['v']], [['a']]⟩, .insert ⟨[['v']], [['b']]⟩,
    .update [(['v'], ['c'])] (vIs ['a'])]

theorem mem_uniqueKeyed (hc : c ∈ uniqueKeyed) (hother : c.isPrimary = false) :
    c = { name := ['v'], type := .varchar, isUnique := true } := by
  rcases List.mem_cons.mp hc with rfl | hc
  · cases hother
  · exact List.mem_singleton.mp hc

/-- A second value, and another one assigned, are new. The value of the second row is not. -/
theorem constraints_respected_threeValues :
    Constraints (fun _ => 1) (run (createTable uniqueKeyed) threeValues) ∧
      ¬ Constraints (fun _ => 1)
        (execute (run (createTable uniqueKeyed) threeValues) (.insert ⟨[['v']], [['b']]⟩)).1 := by
  have hrespects : ∀ n s, threeValues[n]? = some s →
      Respects (fun _ => 1) (run (createTable uniqueKeyed) (threeValues.take n)) s := by
    intro n s hs
    match n, hs with
    | 0, rfl =>
        rintro - rows hrows c hc hother v hv
        obtain rfl := Except.ok.inj hrows
        obtain rfl := mem_uniqueKeyed hc hother
        obtain ⟨-, rfl⟩ := Prod.mk.inj (List.mem_singleton.mp hv)
        exact ⟨Nat.le_refl 1, fun _ => by decide⟩
    | 1, rfl =>
        rintro - rows hrows c hc hother v hv
        obtain rfl := Except.ok.inj hrows
        obtain rfl := mem_uniqueKeyed hc hother
        obtain ⟨-, rfl⟩ := Prod.mk.inj (List.mem_singleton.mp hv)
        exact ⟨Nat.le_refl 1, fun _ => by decide⟩
    | 2, rfl =>
        rintro - rows hrows c hc hother
        obtain rfl := Except.ok.inj hrows
        obtain rfl := mem_uniqueKeyed hc hother
        exact ⟨fun _ _ => Nat.le_refl 1, fun _ => by decide⟩
  obtain ⟨hholds, hnext⟩ :=
    constraints_respected inOrder_uniqueKeyed (fun _ => 1) threeValues hrespects
  refine ⟨hholds, ?_⟩
  rw [hnext]
  intro hlast
  have hnew := hlast rfl _ rfl { name := ['v'], type := .varchar, isUnique := true }
    (by decide) rfl ['b'] (by decide)
  exact absurd (hnew.2 rfl) (by decide)

/-- Two rows with the same value in a UNIQUE column, after statements that have been accepted. -/
theorem unique_value_twice :
    OnePrimary uniqueKeyed ∧
      ∃ t₁ t₂ rows, execute (createTable uniqueKeyed) (.insert ⟨[['v']], [['a']]⟩) = (t₁, none) ∧
        execute t₁ (.insert ⟨[['v']], [['a']]⟩) = (t₂, none) ∧ select none t₂ = .ok rows ∧
        rows.map (shown ['v']) = [['a'], ['a']] :=
  ⟨rfl, _, _, _, rfl, rfl, rfl, rfl⟩

end NanoVault.Table
