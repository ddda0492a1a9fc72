/-
DELETE removes exactly the rows SELECT finds.

SELECT reads the index file and the `.delete` file from front to back, skipping the values of
deleted rows; DELETE seeks to each row by its number. `handle` follows SELECT word by word, and
on every table it finds what a reader that seeks finds (`handle_eq_select`). So the two agree
on the row at each position, and what SELECT returns after a DELETE are the rows it returned
before without those it returned for the condition (`delete_removes_found`).
-/
import NanoVault.Table.Crash
import NanoVault.Table.Recovery

namespace NanoVault.Table

open Lib

/-! ### SELECT as it reads -/

/-- The values of the columns after the first, and the rest of the index file behind them. -/
def handleColumns (data : Text) :
    List Text → List Nat → Bool → Row → Except Fault (Row × List Nat × Bool)
  | [], index, failed, row => return (row, index, failed)
  | name :: names, start :: stop :: index, failed, row =>
      if stop < start then throw .lengthError
      else
        let value := readText failed data start (stop - start)
        handleColumns data names index value.2 (row.insert name (.text value.1))
  | _ :: _, _, _, _ => throw .undefined

/-- The loop of `handle`, with what is left of the index file and of the `.delete` file. -/
def handleLoop (data : Text) (allColumnName : List Text) (whereClause : Option Expression) :
    Nat → List Nat → List UInt8 → Bool → Except Fault (List Row)
  | 0, _, _, _ => return []
  | _ + 1, _, [], _ => throw .undefined
  | _ + 1, [], _ :: _, _ => throw .undefined
  | rows + 1, id :: index, alive :: delete, failed =>
      if alive = 1 then
        handleLoop data allColumnName whereClause rows
          (index.drop (2 * (allColumnName.length - 1))) delete failed
      else
        match allColumnName with
        | [] => throw .undefined
        | first :: names => do
            let (row, index, failed) ← handleColumns data names index failed
              (SortedMap.empty.insert first (.text (digits id)))
            let pass ← evaluateWhere whereClause row
            let json ← handleLoop data allColumnName whereClause rows index delete failed
            return if pass then row :: json else json

/-- `SelectQueryHandler::handle`, the rows it prints. -/
def handle (whereClause : Option Expression) (t : TableState) : Except Fault (List Row) :=
  let allColumnName := allColumnNames t.columns
  handleLoop t.files.data allColumnName whereClause (rowCount t.files allColumnName)
    t.files.index t.files.delete false

variable {k n p : Nat} {f : Files} {t : TableState} {names : List Text} {index : List Nat}
  {data : Text} {failed : Bool} {row : Row} {rs : List Record} {columns : List Column}
  {whereClause : Option Expression}

theorem handleColumns_eq (h : 2 * names.length ≤ index.length) :
    handleColumns data names index failed row =
      (readColumns data names index failed row).map fun r =>
        (r.1, index.drop (2 * names.length), r.2) := by
  induction names generalizing index failed row with
  | nil => rfl
  | cons name names ih =>
      cases index with
      | nil => exact absurd h (by simp)
      | cons start index =>
          cases index with
          | nil =>
              rw [List.length_cons, List.length_singleton] at h
              omega
          | cons stop index =>
              rw [handleColumns, readColumns]
              by_cases hlt : stop < start
              · rw [if_pos hlt, if_pos hlt]
                rfl
              · rw [if_neg hlt, if_neg hlt]
                have hrest : 2 * names.length ≤ index.length := by
                  simp only [List.length_cons] at h
                  omega
                rw [List.length_cons, Nat.mul_succ]
                exact ih hrest

/-- A row that is counted lies in the index file as a whole. -/
theorem record_drop {first : Text} (h : p < rowCount f (first :: names)) :
    ∃ id words, f.index.drop (p * rowWords (first :: names)) = id :: words ∧
      2 * names.length ≤ words.length ∧
      words.drop (2 * names.length) = f.index.drop ((p + 1) * rowWords (first :: names)) := by
  have hwords : rowWords (first :: names) = 2 * names.length + 1 := by
    rw [rowWords, List.length_cons]
    omega
  rw [rowCount, hwords] at h
  have hend : (p + 1) * (2 * names.length + 1) ≤ f.index.length :=
    (Nat.le_div_iff_mul_le (Nat.succ_pos _)).mp h
  rw [hwords, Nat.succ_mul p]
  rw [Nat.succ_mul p] at hend
  have hin : p * (2 * names.length + 1) < f.index.length := by omega
  refine ⟨f.index[p * (2 * names.length + 1)], f.index.drop (p * (2 * names.length + 1) + 1),
    List.drop_eq_getElem_cons hin, ?_, ?_⟩
  · rw [List.length_drop]
    omega
  · rw [List.drop_drop]
    congr 1
    omega

/-- From the start of a row on, reading on finds what seeking finds. -/
theorem handleLoop_eq (h : p + n ≤ rowCount f names) :
    handleLoop f.data names whereClause n (f.index.drop (p * rowWords names)) (f.delete.drop p)
      failed = selectLoop f names whereClause (List.range' p n) failed := by
  induction n generalizing p failed with
  | zero => rw [handleLoop, List.range'_zero, selectLoop]
  | succ n ih =>
      have hnext : ∀ failed, handleLoop f.data names whereClause n
          (f.index.drop ((p + 1) * rowWords names)) (f.delete.drop (p + 1)) failed =
          selectLoop f names whereClause (List.range' (p + 1) n) failed := fun _ => ih (by omega)
      have hp : p < rowCount f names := by omega
      cases names with
      | nil =>
          rw [rowCount, rowWords, List.length_nil, Nat.mul_zero, Nat.zero_sub, Nat.div_zero] at hp
          exact absurd hp (Nat.not_lt_zero p)
      | cons first names =>
          obtain ⟨id, words, hdrop, hlength, hbehind⟩ := record_drop hp
          have hread : readRow f (first :: names) p failed =
              readColumns f.data names words failed
                (SortedMap.empty.insert first (.text (digits id))) := by
            unfold readRow
            rw [hdrop]
          rw [← hbehind] at hnext
          rw [hdrop, List.range'_succ, selectLoop]
          by_cases hbyte : p < f.delete.length
          · rw [List.getElem?_eq_getElem hbyte, List.drop_eq_getElem_cons hbyte, handleLoop]
            dsimp only
            by_cases hdeleted : f.delete[p] = 1
            · rw [if_pos hdeleted, if_pos hdeleted, List.length_cons, Nat.add_sub_cancel, hnext]
            · rw [if_neg hdeleted, if_neg hdeleted, hread, handleColumns_eq hlength]
              cases readColumns f.data names words failed
                  (SortedMap.empty.insert first (.text (digits id))) with
              | error e => rfl
              | ok r => simp only [Except.map, bind, Except.bind, hnext]
          · rw [List.getElem?_eq_none (Nat.not_lt.mp hbyte),
              List.drop_eq_nil_of_le (Nat.not_lt.mp hbyte), handleLoop]

/-- On every table SELECT finds the rows a reader finds that seeks to each of them. -/
theorem handle_eq_select (whereClause : Option Expression) (t : TableState) :
    handle whereClause t = select whereClause t := by
  have hloop : handleLoop t.files.data (allColumnNames t.columns) whereClause
      (rowCount t.files (allColumnNames t.columns))
      (t.files.index.drop (0 * rowWords (allColumnNames t.columns))) (t.files.delete.drop 0)
      false = _ := handleLoop_eq (Nat.zero_add _).le
  rw [Nat.zero_mul, List.drop_zero, List.drop_zero, ← List.range_eq_range'] at hloop
  exact hloop

/-! ### DELETE -/

def satisfying (whereClause : Option Expression) (rows : List Row) : List Row :=
  rows.filter fun row => meets whereClause [row]

theorem passing_ok {rows : List Row}
    (h : ∀ row ∈ rows, ∃ pass, evaluateWhere whereClause row = .ok pass) :
    passing whereClause rows = .ok (satisfying whereClause rows) := by
  induction rows with
  | nil => rfl
  | cons row rows ih =>
      obtain ⟨pass, hpass⟩ := h row List.mem_cons_self
      have hrest := ih fun row hrow => h row (List.mem_cons_of_mem _ hrow)
      have hmeets : meets whereClause [row] = pass := by
        rw [meets, hpass]
        exact Bool.or_false pass
      rw [passing, hpass, hrest, satisfying, satisfying, List.filter_cons, hmeets]
      rfl

/-- The rows left behind a scan that goes through are those its condition does not hold of. -/
theorem liveRows_sweep (h : (sweep names whereClause rs).fault = none) :
    liveRows names (sweep names whereClause rs).records =
      (liveRows names rs).filter fun row => !meets whereClause [row] := by
  induction rs with
  | nil => rfl
  | cons r rs ih =>
      cases hdead : r.dead with
      | true =>
          rw [sweep_dead hdead] at h ⊢
          rw [liveRows, liveRows, live_cons_dead hdead, live_cons_dead hdead]
          exact ih h
      | false =>
          rw [liveRows, liveRows, live_cons_alive hdead, List.map_cons, List.filter_cons, meets]
          cases hwhere : evaluateWhere whereClause (rowOf names r) with
          | error e =>
              rw [sweep_error hdead hwhere] at h
              cases h
          | ok pass =>
              cases pass with
              | false =>
                  rw [sweep_false hdead hwhere] at h ⊢
                  rw [live_cons_alive hdead]
                  exact congrArg (rowOf names r :: ·) (ih h)
              | true =>
                  rw [sweep_true hdead hwhere] at h ⊢
                  rw [live_cons_dead rfl]
                  exact ih h

instance : DecidableEq Row := fun a b =>
  decidable_of_iff (a.entries = b.entries) ⟨SortedMap.ext_entries, congrArg SortedMap.entries⟩

/-- DELETE removes the rows SELECT finds for the condition, if it can be evaluated on every row,
keeps the others in their order, and the same DELETE again changes no file. -/
def RemovesFound (whereClause : Option Expression) (t : TableState) : Prop :=
  ∃ rows, handle none t = .ok rows ∧
    ((∀ row ∈ rows, ∃ pass, evaluateWhere whereClause row = .ok pass) →
      ∃ found t', handle whereClause t = .ok found ∧ handleDelete whereClause t = (t', none) ∧
        handle none t' = .ok (rows.filter fun row => row ∉ found) ∧
        (handleDelete whereClause t').1.files = t'.files)

theorem Keeps.removesFound (h : Keeps k t rs) (whereClause : Option Expression) :
    RemovesFound whereClause t := by
  refine ⟨_, (handle_eq_select none t).trans h.select_none, fun hok => ?_⟩
  obtain ⟨t', hdelete, hcolumns, -, h'⟩ := h.delete whereClause
  have hfault : (sweep (allColumnNames t.columns) whereClause rs).fault = none := by
    by_contra hfault
    obtain ⟨row, hrow, e, he⟩ := sweep_fault_iff.mp hfault
    obtain ⟨pass, hpass⟩ := hok row hrow
    cases he.symm.trans hpass
  rw [hfault] at hdelete
  refine ⟨satisfying whereClause (liveRows (allColumnNames t.columns) rs), t', ?_, hdelete, ?_, ?_⟩
  · rw [handle_eq_select, h.stores.readable.select h.columns, passing_ok hok]
  · rw [handle_eq_select, h'.select_none, hcolumns, liveRows_sweep hfault]
    congr 1
    apply List.filter_congr
    intro row hrow
    simp [satisfying, hrow]
  · have hagain := h.delete_again whereClause
    rw [hdelete] at hagain
    exact congrArg TableState.files hagain

/-- In every state a table with one primary key gets into, DELETE removes exactly what SELECT
finds. -/
theorem delete_removes_found (hone : OnePrimary columns) (stmts : List Statement)
    (whereClause : Option Expression) :
    RemovesFound whereClause (run (createTable columns) stmts) := by
  obtain ⟨-, rs, h⟩ := keeps_run hone stmts
  exact h.removesFound whereClause

/-- `v = 'a'` finds the second of the rows `1` and `a`. -/
theorem delete_removes_found_mixedRows : OnePrimary keyed ∧
    RemovesFound (some (.comparison (.identifier ['v']) .equal (.stringLiteral ['a'])))
      mixedRows :=
  have hone : OnePrimary keyed := rfl
  ⟨hone, delete_removes_found hone
    [.insert ⟨[['v']], [['1']]⟩, .insert ⟨[['v']], [['a']]⟩] _⟩

end NanoVault.Table
