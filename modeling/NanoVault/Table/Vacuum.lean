/-
Vacuum keeps what SELECT returns, and leaves nothing else (`vacuum_compacts`).

`records` reads the records off the files of a table: on a table that `Keeps` a list of
records it returns that list, so that results about runs can be stated on the files.
-/
import NanoVault.Table.RowFiles

namespace NanoVault.Table

open Lib

variable {k p : Nat} {r : Record} {rs : List Record} {t : TableState} {data : Text}
  {values : List Text} {words : List Nat} {columns : List Column}

/-! ### The records in the files -/

/-- The values between pairs of offsets. -/
def valuesAt (data : Text) : List Nat → List Text
  | start :: stop :: words => (data.drop start).take (stop - start) :: valuesAt data words
  | _ => []

def recordAt (t : TableState) (p : Nat) : Record :=
  let size := rowWords (allColumnNames t.columns)
  let words := t.files.index.drop (p * size)
  { id := words.headD 0
    dead := t.files.delete[p]? = some 1
    values := valuesAt t.files.data (words.tail.take (size - 1)) }

/-- The records in the files of a table, deleted ones included. -/
def records (t : TableState) : List Record := (List.range (recordCount t)).map (recordAt t)

theorem valuesAt_spans (h : Spans data values words) : valuesAt data words = values := by
  induction h with
  | nil => rfl
  | cons hv _ ih => rw [valuesAt, Nat.add_sub_cancel_left, hv, ih]

theorem Spans.length (h : Spans data values words) : words.length = 2 * values.length := by
  induction h with
  | nil => rfl
  | cons _ _ ih =>
      simp only [List.length_cons, ih]
      omega

theorem Keeps.recordAt (h : Keeps k t rs) (hr : rs[p]? = some r) : recordAt t p = r := by
  obtain ⟨spans, rest, hdrop, hspans⟩ := h.stores.readable.drop hr
  have hlength : spans.length = 1 + 2 * k - 1 := by
    rw [hspans.length, h.stores.width r (List.mem_of_getElem? hr)]
    omega
  have hdead : decide (t.files.delete[p]? = some 1) = r.dead := by
    rw [h.delete_getElem? hr]
    simp [Record.flag_eq_one]
  simp only [Table.recordAt, h.rowWords, hdrop, List.headD_cons, List.tail_cons, ← hlength,
    List.take_left, valuesAt_spans hspans, hdead]

theorem Keeps.records (h : Keeps k t rs) : records t = rs := by
  rw [Table.records, h.recordCount]
  apply List.ext_getElem
  · rw [List.length_map, List.length_range]
  · intro p hp hp'
    rw [List.getElem_map, List.getElem_range]
    exact h.recordAt (List.getElem?_eq_getElem hp')

/-- A table with one primary key keeps the records read off its files. -/
theorem keeps_records (hone : OnePrimary columns) (stmts : List Statement) :
    Keeps (columns.length - 1) (run (createTable columns) stmts)
      (records (run (createTable columns) stmts)) := by
  obtain ⟨-, rs, h⟩ := keeps_run hone stmts
  rwa [h.records]

/-! ### Vacuum -/

/-- `t'` has the rows of `t` and nothing else. -/
structure Compacts (t t' : TableState) : Prop where
  rows : ∃ rows, select none t = .ok rows ∧ select none t' = .ok rows ∧
    rows.length = (live (records t)).length
  count : recordCount t' = (live (records t)).length ∧
    t'.files.index.length = recordCount t' * rowWords (allColumnNames t'.columns)
  zeros : t'.files.delete = List.replicate (live (records t)).length 0
  total : t'.files.data.length = (((live (records t)).flatMap Record.values).map List.length).sum
  again : vacuumTable t' = (t', none)

theorem live_live (rs : List Record) : live (live rs) = live rs := by
  rw [live, live, List.filter_filter]
  simp

theorem contents_length (rs : List Record) :
    (contents rs).length = ((rs.flatMap Record.values).map List.length).sum := by
  induction rs with
  | nil => rfl
  | cons r rs ih =>
      rw [contents_cons, List.length_append, ih, List.length_flatten, List.flatMap_cons,
        List.map_append, List.sum_append]

theorem packed_live_delete (rs : List Record) :
    (packed (live rs)).delete = List.replicate (live rs).length 0 := by
  apply List.eq_replicate_iff.mpr
  constructor
  · exact List.length_map _
  · intro b hb
    obtain ⟨p, hp⟩ := List.getElem?_of_mem hb
    exact packed_live_flag hp

theorem Keeps.compacts (h : Keeps k t rs) : Compacts t (vacuumTable t).1 := by
  obtain ⟨hvacuum, h'⟩ := h.vacuum
  have hrecords := h.records
  have hselect := h.stores.readable.select h.columns none
  have hselect' := h'.stores.readable.select h'.columns none
  rw [hvacuum] at h' hselect' ⊢
  rw [passing_none] at hselect hselect'
  rw [liveRows, live_live, ← liveRows] at hselect'
  constructor
  · rw [hrecords]
    exact ⟨_, hselect, hselect', List.length_map _⟩
  · rw [hrecords]
    exact ⟨h'.recordCount, h'.rowFiles.whole⟩
  · rw [hrecords]
    exact packed_live_delete rs
  · rw [hrecords]
    exact contents_length (live rs)
  · rw [h'.vacuum.1, live_live]

/-- On every state a table with one primary key gets into, a vacuum ends without an
exception, SELECT returns the same rows in the same order, the files shrink to those of the
live records, and another vacuum changes nothing. -/
theorem vacuum_compacts (hone : OnePrimary columns) (stmts : List Statement) :
    (vacuumTable (run (createTable columns) stmts)).2 = none ∧
      Compacts (run (createTable columns) stmts)
        (vacuumTable (run (createTable columns) stmts)).1 := by
  have h := keeps_records hone stmts
  exact ⟨by rw [h.vacuum.1], h.compacts⟩

/-- Two rows, the first of which has been deleted. -/
def oneDeleted : TableState :=
  run (createTable keyed)
    [.insert ⟨[['v']], [['a']]⟩, .insert ⟨[['v']], [['b']]⟩, .delete (vIs ['a'])]

theorem vacuum_compacts_oneDeleted : recordCount oneDeleted = 2 ∧
    recordCount (vacuumTable oneDeleted).1 = 1 ∧ Compacts oneDeleted (vacuumTable oneDeleted).1 :=
  have hone : OnePrimary keyed := rfl
  ⟨by decide, by decide, (vacuum_compacts hone _).2⟩

end NanoVault.Table
