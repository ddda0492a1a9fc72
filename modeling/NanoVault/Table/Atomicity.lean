/-
What a failing DELETE or UPDATE leaves behind.

Both statements change the table as they scan it, and evaluating the condition can throw on
any row. Whatever is in the table, a statement that throws leaves it unchanged exactly when
the scan has met no matching row before (`handleDelete_unchanged_iff`,
`handleUpdate_unchanged_iff`).
-/
import NanoVault.Table.RowFiles

namespace NanoVault.Table

open Lib

variable {f : Files} {names : List Text} {t t' : TableState} {whereClause : Option Expression}
  {rows : List Nat} {row p : Nat} {failed : Bool} {e : Fault}
  {assignments : List (Text × Text)} {primaryKey : Text} {data : List InsertColumn}

/-- What a scan finds at a row. -/
inductive Visit where
  | fault (e : Fault)
  | skip (failed : Bool)
  | hit (r : Row) (failed : Bool)

/-- The row of a scan: skipped if it is deleted or does not match. -/
def visit (f : Files) (names : List Text) (whereClause : Option Expression) (row : Nat)
    (failed : Bool) : Visit :=
  match f.delete[row]? with
  | none => .fault .undefined
  | some deleted =>
      if deleted = 1 then .skip failed
      else
        match readRow f names row failed with
        | .error e => .fault e
        | .ok (r, failed) =>
            match evaluateWhere whereClause r with
            | .error e => .fault e
            | .ok false => .skip failed
            | .ok true => .hit r failed

/-- The scan meets a row its condition holds of before it throws. -/
def meetsMatch (f : Files) (names : List Text) (whereClause : Option Expression) :
    List Nat → Bool → Bool
  | [], _ => false
  | row :: rows, failed =>
      match visit f names whereClause row failed with
      | .fault _ => false
      | .skip failed => meetsMatch f names whereClause rows failed
      | .hit _ _ => true

/-- Some live row of the table satisfies the condition, and none before it makes the scan
throw. -/
def MatchesFirst (t : TableState) (whereClause : Option Expression) : Prop :=
  let names := allColumnNames t.columns
  meetsMatch t.files names whereClause (List.range (rowCount t.files names)) false = true

theorem visit_hit {r : Row} {failed' : Bool}
    (h : visit f names whereClause row failed = .hit r failed') : f.delete[row]? ≠ some 1 := by
  intro hdead
  simp only [visit, hdead, if_true] at h
  cases h

/-! ### DELETE -/

theorem deleteLoop_cons (names : List Text) (whereClause : Option Expression) (row : Nat)
    (rows : List Nat) (failed : Bool) (t : TableState) :
    deleteLoop names whereClause (row :: rows) failed t =
      match visit t.files names whereClause row failed with
      | .fault e => (t, some e)
      | .skip failed => deleteLoop names whereClause rows failed t
      | .hit r failed =>
          deleteLoop names whereClause rows failed (dropKeys (tombstone t row) r) := by
  rw [deleteLoop, visit]
  cases t.files.delete[row]? with
  | none => rfl
  | some deleted =>
      dsimp only
      split
      · rfl
      · cases readRow t.files names row failed with
        | error e => rfl
        | ok r =>
            dsimp only
            cases evaluateWhere whereClause r.1 with
            | error e => rfl
            | ok pass => cases pass <;> rfl

/-- What the hits of DELETE keep, its loop keeps. -/
theorem deleteLoop_keeps {P : TableState → Prop}
    (hdrop : ∀ t, ∀ row ∈ rows, ∀ r, P t → P (dropKeys (tombstone t row) r)) (h : P t) :
    P (deleteLoop names whereClause rows failed t).1 := by
  induction rows generalizing failed t with
  | nil => exact h
  | cons row rows ih =>
      have hrest : ∀ t, ∀ row ∈ rows, ∀ r, P t → P (dropKeys (tombstone t row) r) :=
        fun t row hrow => hdrop t row (List.mem_cons_of_mem _ hrow)
      rw [deleteLoop_cons]
      cases visit t.files names whereClause row failed with
      | fault e => exact h
      | skip failed => exact ih hrest h
      | hit r failed => exact ih hrest (hdrop t row List.mem_cons_self r h)

theorem tombstone_getElem? (t : TableState) (row : Nat) :
    (tombstone t row).files.delete[row]? = some 1 := by
  show (writeByte t.files.delete row 1)[row]? = some 1
  rw [writeByte_getElem?, if_pos rfl]

theorem tombstone_kept (h : t.files.delete[p]? = some 1) (row : Nat) :
    (tombstone t row).files.delete[p]? = some 1 := by
  show (writeByte t.files.delete row 1)[p]? = some 1
  rw [writeByte_getElem?]
  split
  · rfl
  · rw [if_pos (List.getElem?_eq_some_iff.mp h).1, h]

/-- The scan of DELETE never clears a tombstone. -/
theorem deleteLoop_kept (h : t.files.delete[p]? = some 1) :
    (deleteLoop names whereClause rows failed t).1.files.delete[p]? = some 1 :=
  deleteLoop_keeps (P := fun t => t.files.delete[p]? = some 1)
    (fun _ row _ _ hkept => tombstone_kept hkept row) h

theorem deleteLoop_unchanged
    (h : meetsMatch t.files names whereClause rows failed = false) :
    (deleteLoop names whereClause rows failed t).1 = t := by
  induction rows generalizing failed with
  | nil => rfl
  | cons row rows ih =>
      rw [meetsMatch] at h
      rw [deleteLoop_cons]
      cases hvisit : visit t.files names whereClause row failed with
      | fault e => rfl
      | skip failed =>
          rw [hvisit] at h
          exact ih h
      | hit r failed =>
          rw [hvisit] at h
          cases h

theorem deleteLoop_changed (h : meetsMatch t.files names whereClause rows failed = true) :
    (deleteLoop names whereClause rows failed t).1.files ≠ t.files := by
  induction rows generalizing failed with
  | nil => cases h
  | cons row rows ih =>
      rw [meetsMatch] at h
      rw [deleteLoop_cons]
      cases hvisit : visit t.files names whereClause row failed with
      | fault e =>
          rw [hvisit] at h
          cases h
      | skip failed =>
          rw [hvisit] at h
          exact ih h
      | hit r failed =>
          intro heq
          have hkept : (deleteLoop names whereClause rows failed
              (dropKeys (tombstone t row) r)).1.files.delete[row]? = some 1 :=
            deleteLoop_kept (tombstone_getElem? t row)
          apply visit_hit hvisit
          rw [← hkept]
          exact congrArg (fun f : Files => f.delete[row]?) heq.symm

/-- DELETE leaves the table unchanged if and only if its scan meets no matching row. -/
theorem handleDelete_unchanged_iff (t : TableState) (whereClause : Option Expression) :
    (handleDelete whereClause t).1 = t ↔ ¬ MatchesFirst t whereClause := by
  constructor
  · intro heq hmatch
    exact deleteLoop_changed hmatch (congrArg TableState.files heq)
  · intro hmatch
    exact deleteLoop_unchanged (Bool.eq_false_iff.mpr hmatch)

/-! ### UPDATE -/

theorem updateLoop_cons (primaryKey : Text) (names : List Text)
    (assignments : List (Text × Text)) (whereClause : Option Expression) (row : Nat)
    (rows : List Nat) (failed : Bool) (t : TableState) :
    updateLoop primaryKey names assignments whereClause (row :: rows) failed t =
      match visit t.files names whereClause row failed with
      | .fault e => (t, some e)
      | .skip failed => updateLoop primaryKey names assignments whereClause rows failed t
      | .hit r failed =>
          match insertRow primaryKey (updateColumns t.columns (assign r assignments))
              (dropKeys (tombstone t row) r) with
          | .error e => (dropKeys (tombstone t row) r, some e)
          | .ok t => updateLoop primaryKey names assignments whereClause rows failed t := by
  rw [updateLoop, visit]
  cases t.files.delete[row]? with
  | none => rfl
  | some deleted =>
      dsimp only
      split
      · rfl
      · cases readRow t.files names row failed with
        | error e => rfl
        | ok r =>
            dsimp only
            cases evaluateWhere whereClause r.1 with
            | error e => rfl
            | ok pass => cases pass <;> rfl

/-- What the hits of UPDATE and the insertions behind them keep, its loop keeps. -/
theorem updateLoop_keeps {P : TableState → Prop}
    (hdrop : ∀ t, ∀ row ∈ rows, ∀ r, P t → P (dropKeys (tombstone t row) r))
    (hinsert : ∀ t t' r, P t →
      insertRow primaryKey (updateColumns t.columns (assign r assignments)) t = .ok t' → P t')
    (h : P t) : P (updateLoop primaryKey names assignments whereClause rows failed t).1 := by
  induction rows generalizing failed t with
  | nil => exact h
  | cons row rows ih =>
      have hrest : ∀ t, ∀ row ∈ rows, ∀ r, P t → P (dropKeys (tombstone t row) r) :=
        fun t row hrow => hdrop t row (List.mem_cons_of_mem _ hrow)
      rw [updateLoop_cons]
      cases visit t.files names whereClause row failed with
      | fault e => exact h
      | skip failed => exact ih hrest h
      | hit r failed =>
          have hdropped := hdrop t row List.mem_cons_self r h
          dsimp only
          split
          · exact hdropped
          · next t' hrow => exact ih hrest (hinsert _ t' r hdropped hrow)

theorem insertRow_index (h : insertRow primaryKey data t = .ok t') :
    t.files.index.length < t'.files.index.length := by
  rw [insertRow] at h
  split at h
  · cases h
  · cases hid : nextRowId t.files.index (1 + 2 * data.length) with
    | error e =>
        rw [hid] at h
        cases h
    | ok id =>
        rw [hid] at h
        cases h
        simp

/-- The scan of UPDATE never shortens the index file. -/
theorem updateLoop_index :
    t.files.index.length ≤
      (updateLoop primaryKey names assignments whereClause rows failed t).1.files.index.length :=
  updateLoop_keeps (P := fun t' => t.files.index.length ≤ t'.files.index.length)
    (fun _ _ _ _ hle => hle)
    (fun _ _ _ hle hrow => Nat.le_trans hle (Nat.le_of_lt (insertRow_index hrow))) (Nat.le_refl _)

theorem updateLoop_unchanged
    (h : meetsMatch t.files names whereClause rows failed = false) :
    (updateLoop primaryKey names assignments whereClause rows failed t).1 = t := by
  induction rows generalizing failed with
  | nil => rfl
  | cons row rows ih =>
      rw [meetsMatch] at h
      rw [updateLoop_cons]
      cases hvisit : visit t.files names whereClause row failed with
      | fault e => rfl
      | skip failed =>
          rw [hvisit] at h
          exact ih h
      | hit r failed =>
          rw [hvisit] at h
          cases h

theorem updateLoop_changed (h : meetsMatch t.files names whereClause rows failed = true) :
    (updateLoop primaryKey names assignments whereClause rows failed t).1.files ≠ t.files := by
  induction rows generalizing failed with
  | nil => cases h
  | cons row rows ih =>
      rw [meetsMatch] at h
      rw [updateLoop_cons]
      cases hvisit : visit t.files names whereClause row failed with
      | fault e =>
          rw [hvisit] at h
          cases h
      | skip failed =>
          rw [hvisit] at h
          exact ih h
      | hit r failed =>
          intro heq
          dsimp only at heq
          split at heq
          · -- the row is gone, and nothing has been inserted for it
            have hbyte : (dropKeys (tombstone t row) r).files.delete[row]? = some 1 :=
              tombstone_getElem? t row
            apply visit_hit hvisit
            rw [← hbyte]
            exact congrArg (fun f : Files => f.delete[row]?) heq.symm
          · next t' hinsert =>
              have hlt := insertRow_index hinsert
              change t.files.index.length < _ at hlt
              have hle : t'.files.index.length ≤ (updateLoop primaryKey names assignments
                  whereClause rows failed t').1.files.index.length := updateLoop_index
              rw [heq] at hle
              exact Nat.lt_irrefl _ (Nat.lt_of_lt_of_le hlt hle)

/-- UPDATE leaves the table unchanged if and only if it assigns the primary key or its scan
meets no matching row. -/
theorem handleUpdate_unchanged_iff (t : TableState) (assignments : List (Text × Text))
    (whereClause : Option Expression) :
    (handleUpdate assignments whereClause t).1 = t ↔
      (assignments.any fun a => a.1 = firstPrimary t.columns) = true ∨
        ¬ MatchesFirst t whereClause := by
  rw [handleUpdate]
  cases hprimary : assignments.any fun a => a.1 = firstPrimary t.columns with
  | true =>
      rw [if_pos rfl]
      exact ⟨fun _ => .inl rfl, fun _ => rfl⟩
  | false =>
      rw [if_neg Bool.false_ne_true]
      constructor
      · intro heq
        right
        intro hmatch
        exact updateLoop_changed hmatch (congrArg TableState.files heq)
      · rintro (hfalse | hmatch)
        · cases hfalse
        · exact updateLoop_unchanged (Bool.eq_false_iff.mpr hmatch)

/-- Whatever the table holds, a statement that throws has left it unchanged if and only if it
has met no matching row before, or is an UPDATE that assigns the primary key. -/
theorem thrown_unchanged_iff (t : TableState) (assignments : List (Text × Text))
    (whereClause : Option Expression) :
    (∀ e, (handleDelete whereClause t).2 = some e →
      ((handleDelete whereClause t).1 = t ↔ ¬ MatchesFirst t whereClause)) ∧
    ∀ e, (handleUpdate assignments whereClause t).2 = some e →
      ((handleUpdate assignments whereClause t).1 = t ↔
        (assignments.any fun a => a.1 = firstPrimary t.columns) = true ∨
          ¬ MatchesFirst t whereClause) :=
  ⟨fun _ _ => handleDelete_unchanged_iff t whereClause,
    fun _ _ => handleUpdate_unchanged_iff t assignments whereClause⟩

/-- A table with the rows `1` and `a`. -/
def mixedRows : TableState :=
  run (createTable keyed) [.insert ⟨[['v']], [['1']]⟩, .insert ⟨[['v']], [['a']]⟩]

/-- `v = 1`, which throws on the row `a`. -/
def equalsOne : Expression := .comparison (.identifier ['v']) .equal (.intLiteral 1)

/-- DELETE of a table whose second row makes it throw. -/
theorem thrown_unchanged_mixedRows :
    (handleDelete (some equalsOne) mixedRows).2 =
        some (.runtimeError "Invalid numeric comparison".toList) ∧
      ((handleDelete (some equalsOne) mixedRows).1 = mixedRows ↔
        ¬ MatchesFirst mixedRows (some equalsOne)) :=
  have hthrown : (handleDelete (some equalsOne) mixedRows).2 =
      some (.runtimeError "Invalid numeric comparison".toList) := by decide
  ⟨hthrown, (thrown_unchanged_iff mixedRows [] (some equalsOne)).1 _ hthrown⟩

/-- The first row is gone although the statement has failed. -/
theorem halfDeleted : (handleDelete (some equalsOne) mixedRows).2 ≠ none ∧
    (handleDelete (some equalsOne) mixedRows).1 ≠ mixedRows := by
  constructor
  · decide
  · intro heq
    have hdelete := congrArg (fun t : TableState => t.files.delete) heq
    revert hdelete
    decide

end NanoVault.Table
