/-
What the files of a table mean: a list of records.

`Stores k f rs` says that the index and data files of `f` are the records `rs` written one
after the other (`layout`, `contents`), each with `k` values and a byte in the `.delete`
file; ids are positive and ascend. The readers rely on less: `Readable k f rs` allows more
behind the values and the bytes. With `k + 1` column names they find exactly the rows of
these records (`Readable.readRow`, `Readable.select`).
-/
import NanoVault.Table.Table

namespace NanoVault.Table

open Lib

/-- A record of the index file. -/
structure Record where
  id : Nat
  dead : Bool
  values : List Text
deriving DecidableEq, Repr

/-- The byte of a record in the `.delete` file. -/
def Record.flag (r : Record) : UInt8 := if r.dead then 1 else 0

/-- The words of the records, whose values are found in the data file from `pos` on. -/
def layout (pos : Nat) : List Record → List Nat
  | [] => []
  | r :: rs => r.id :: (offsets pos r.values ++ layout (pos + r.values.flatten.length) rs)

/-- The values of the records, one after the other. -/
def contents (rs : List Record) : Text := rs.flatMap fun r => r.values.flatten

/-- The files that hold these records and nothing else. -/
def packed (rs : List Record) : Files where
  index := layout 0 rs
  data := contents rs
  delete := rs.map Record.flag

structure Stores (k : Nat) (f : Files) (rs : List Record) : Prop where
  index : f.index = layout 0 rs
  data : f.data = contents rs
  width : ∀ r ∈ rs, r.values.length = k
  filled : ∀ r ∈ rs, r.values ≠ []
  flags : ∀ (i : Nat) (r : Record), rs[i]? = some r → f.delete[i]? = some r.flag
  unused : ∀ (i : Nat) (b : UInt8), rs.length ≤ i → f.delete[i]? = some b → b = 0
  ascending : (rs.map Record.id).Pairwise (· < ·)
  positive : ∀ r ∈ rs, 0 < r.id

/-- What the readers rely on. -/
structure Readable (k : Nat) (f : Files) (rs : List Record) : Prop where
  index : f.index = layout 0 rs
  data : contents rs <+: f.data
  width : ∀ r ∈ rs, r.values.length = k
  flags : ∀ (i : Nat) (r : Record), rs[i]? = some r → f.delete[i]? = some r.flag

/-- Files that store records can be read. -/
theorem Stores.readable {k : Nat} {f : Files} {rs : List Record} (h : Stores k f rs) :
    Readable k f rs :=
  ⟨h.index, ⟨[], by rw [h.data, List.append_nil]⟩, h.width, h.flags⟩

/-- The words are the start and end offsets of the values in the data file. -/
inductive Spans (data : Text) : List Text → List Nat → Prop
  | nil : Spans data [] []
  | cons {v : Text} {vs : List Text} {start : Nat} {words : List Nat} :
      (data.drop start).take v.length = v → Spans data vs words →
      Spans data (v :: vs) (start :: (start + v.length) :: words)

variable {data rest : Text} {v : Text} {vs : List Text} {words : List Nat} {k i pos : Nat}
  {r : Record} {rs rs' : List Record} {f : Files} {t : TableState} {names : List Text}

/-! ### Layout -/

theorem contents_cons (r : Record) (rs : List Record) :
    contents (r :: rs) = r.values.flatten ++ contents rs := rfl

/-- The data of records are their texts one after another. -/
theorem contents_append (rs rs' : List Record) :
    contents (rs ++ rs') = contents rs ++ contents rs' := List.flatMap_append

/-- A record has two words for each value. -/
theorem offsets_length (pos : Nat) (vs : List Text) : (offsets pos vs).length = 2 * vs.length := by
  induction vs generalizing pos with
  | nil => rfl
  | cons v vs ih =>
      simp only [offsets, List.length_cons, ih]
      omega

/-- Values appended one after the other are found at their offsets. -/
theorem spans_offsets (before : Text) (vs : List Text) (after : Text) :
    Spans (before ++ (vs.flatten ++ after)) vs (offsets before.length vs) := by
  induction vs generalizing before with
  | nil => exact .nil
  | cons v vs ih =>
      have h := ih (before ++ v)
      rw [List.length_append] at h
      rw [List.flatten_cons, List.append_assoc]
      constructor
      · rw [List.drop_left, List.take_left]
      · rwa [List.append_assoc] at h

/-- The words of further records are written behind, with their places moved on. -/
theorem layout_append (pos : Nat) (rs rs' : List Record) :
    layout pos (rs ++ rs') = layout pos rs ++ layout (pos + (contents rs).length) rs' := by
  induction rs generalizing pos with
  | nil => rfl
  | cons r rs ih =>
      rw [List.cons_append, layout, layout, ih, contents_cons, List.length_append,
        List.cons_append, List.append_assoc, Nat.add_assoc]

/-- The index has the same number of words for each record. -/
theorem layout_length (pos : Nat) (hk : ∀ r ∈ rs, r.values.length = k) :
    (layout pos rs).length = rs.length * (1 + 2 * k) := by
  induction rs generalizing pos with
  | nil => simp [layout]
  | cons r rs ih =>
      have hr := hk r List.mem_cons_self
      rw [layout, List.length_cons, List.length_append, offsets_length, hr,
        ih _ fun r hr => hk r (List.mem_cons_of_mem _ hr), List.length_cons]
      ring

/-- The record at a position starts where the records before it end, and its values lie
behind theirs. -/
theorem layout_drop (hk : ∀ r ∈ rs, r.values.length = k) (hr : rs[i]? = some r) :
    ∃ pos rest, (layout 0 rs).drop (i * (1 + 2 * k)) =
        r.id :: (offsets pos r.values ++ rest) ∧
      ∀ after, Spans (contents rs ++ after) r.values (offsets pos r.values) := by
  obtain ⟨hi, rfl⟩ := List.getElem?_eq_some_iff.mp hr
  have hsplit : rs = rs.take i ++ rs[i] :: rs.drop (i + 1) := by
    rw [List.getElem_cons_drop, List.take_append_drop]
  have hlength : (layout 0 (rs.take i)).length = i * (1 + 2 * k) := by
    rw [layout_length 0 fun r hr => hk r (List.mem_of_mem_take hr), List.length_take,
      Nat.min_eq_left (Nat.le_of_lt hi)]
  have hdrop : (layout 0 rs).drop (i * (1 + 2 * k)) =
      layout (contents (rs.take i)).length (rs[i] :: rs.drop (i + 1)) := by
    conv_lhs => rw [hsplit]
    rw [layout_append, ← hlength, List.drop_left, Nat.zero_add]
  refine ⟨_, _, hdrop, fun after => ?_⟩
  have hspans := spans_offsets (contents (rs.take i)) rs[i].values
    (contents (rs.drop (i + 1)) ++ after)
  have hcontents : contents (rs.take i) ++ (rs[i].values.flatten ++
      (contents (rs.drop (i + 1)) ++ after)) = contents rs ++ after := by
    conv_rhs => rw [hsplit]
    rw [contents_append, contents_cons, List.append_assoc, List.append_assoc]
  rwa [hcontents] at hspans

/-- The record at a position, and its values in the data file. -/
theorem Readable.drop (h : Readable k f rs) (hr : rs[i]? = some r) :
    ∃ spans rest, f.index.drop (i * (1 + 2 * k)) = r.id :: (spans ++ rest) ∧
      Spans f.data r.values spans := by
  obtain ⟨pos, rest, hdrop, hspans⟩ := layout_drop h.width hr
  obtain ⟨after, hafter⟩ := h.data
  rw [← h.index] at hdrop
  exact ⟨_, rest, hdrop, hafter ▸ hspans after⟩

/-! ### Reading -/

/-- `row` with a value for each of the names. -/
def fill (row : Row) (names vs : List Text) : Row :=
  (names.zip vs).foldl (fun row e => row.insert e.1 (.text e.2)) row

/-- The row the readers make of a record. -/
def rowOf (names : List Text) (r : Record) : Row :=
  match names with
  | [] => SortedMap.empty
  | first :: rest => fill (SortedMap.empty.insert first (.text (digits r.id))) rest r.values

/-- A text that lies in the data is read. -/
theorem readText_ok (hv : (data.drop i).take v.length = v) :
    readText false data i v.length = (v, false) := by
  simp only [readText, hv, Nat.sub_self, List.replicate_zero, List.append_nil,
    Nat.lt_irrefl, decide_false, Bool.false_eq_true, if_false]

/-- The texts of a record are filled in under the columns' names. -/
theorem readColumns_ok (h : Spans data vs words) (hnames : names.length = vs.length)
    (more : List Nat) (row : Row) :
    readColumns data names (words ++ more) false row = .ok (fill row names vs, false) := by
  induction h generalizing names row with
  | nil =>
      obtain rfl := List.length_eq_zero_iff.mp hnames
      rfl
  | @cons v vs start words hv _ ih =>
      cases names with
      | nil => cases hnames
      | cons name names =>
          rw [List.cons_append, List.cons_append, readColumns,
            if_neg (Nat.not_lt.mpr (Nat.le_add_right _ _)), Nat.add_sub_cancel_left,
            readText_ok hv]
          exact ih (Nat.succ.inj hnames) _

/-- A row has one word for its id and two for each column. -/
theorem rowWords_eq (hnames : names.length = k + 1) : rowWords names = 1 + 2 * k := by
  rw [rowWords, hnames]
  omega

/-- The readers find the row of each record. -/
theorem Readable.readRow (h : Readable k f rs) (hnames : names.length = k + 1)
    (hr : rs[i]? = some r) : readRow f names i false = .ok (rowOf names r, false) := by
  obtain ⟨spans, rest, hdrop, hspans⟩ := h.drop hr
  cases names with
  | nil => cases hnames
  | cons first names =>
      have hwidth := h.width r (List.mem_of_getElem? hr)
      unfold Table.readRow
      rw [rowWords_eq hnames, hdrop]
      exact readColumns_ok hspans (by rw [hwidth]; exact Nat.succ.inj hnames) rest _

/-- The length of the index counts the records. -/
theorem Readable.index_length (h : Readable k f rs) :
    f.index.length = rs.length * (1 + 2 * k) := by
  rw [h.index, layout_length 0 h.width]

/-- Each record makes a row. -/
theorem Readable.rowCount (h : Readable k f rs) (hnames : names.length = k + 1) :
    rowCount f names = rs.length := by
  rw [Table.rowCount, rowWords_eq hnames, h.index_length]
  exact Nat.mul_div_cancel _ (by omega)

/-- A record is dead if its tombstone is set. -/
theorem Record.flag_eq_one {r : Record} : r.flag = 1 ↔ r.dead = true := by
  rw [Record.flag]
  cases r.dead <;> decide

def live (rs : List Record) : List Record := rs.filter fun r => !r.dead

def liveRows (names : List Text) (rs : List Record) : List Row := (live rs).map (rowOf names)

def passing (whereClause : Option Expression) : List Row → Except Fault (List Row)
  | [] => return []
  | row :: rows => do
      let pass ← evaluateWhere whereClause row
      let rest ← passing whereClause rows
      return if pass then row :: rest else rest

theorem live_cons_dead (hdead : r.dead = true) : live (r :: rs) = live rs := by
  simp [live, hdead]

theorem live_cons_alive (hdead : r.dead = false) : live (r :: rs) = r :: live rs := by
  simp [live, hdead]

theorem live_append (rs rs' : List Record) : live (rs ++ rs') = live rs ++ live rs' :=
  List.filter_append ..

/-- SELECT's loop returns the live rows that pass. -/
theorem Readable.selectLoop (h : Readable k f rs) (hnames : names.length = k + 1)
    (whereClause : Option Expression) {done rest : List Record} (hrs : rs = done ++ rest) :
    selectLoop f names whereClause (List.range' done.length rest.length) false =
      passing whereClause (liveRows names rest) := by
  induction rest generalizing done with
  | nil => rfl
  | cons r rest ih =>
      have hr : rs[done.length]? = some r := by rw [hrs]; simp
      have hnext : Table.selectLoop f names whereClause
          (List.range' (done ++ [r]).length rest.length) false =
          passing whereClause (liveRows names rest) := ih (by rw [hrs, List.append_cons])
      rw [List.length_append, List.length_singleton] at hnext
      rw [List.length_cons, List.range'_succ, Table.selectLoop, h.flags _ _ hr, liveRows]
      cases hdead : r.dead with
      | true =>
          simp only [Record.flag_eq_one.mpr hdead, if_true, hnext, live_cons_dead hdead]
          rfl
      | false =>
          have hflag : ¬ r.flag = 1 := by simp [Record.flag_eq_one, hdead]
          simp only [hflag, if_false, h.readRow hnames hr, live_cons_alive hdead, List.map_cons,
            passing]
          show (evaluateWhere whereClause (rowOf names r)).bind _ = _
          simp only [hnext]
          rfl

/-- There is a name for the key and for each column. -/
theorem allColumnNames_length (hcols : t.columns.length = k + 1) :
    (allColumnNames t.columns).length = k + 1 := by
  rw [allColumnNames, sortNames, List.length_insertionSort, List.length_map, hcols]

/-- SELECT returns the live rows that pass the condition. -/
theorem Readable.select (h : Readable k t.files rs)
    (hcols : t.columns.length = k + 1) (whereClause : Option Expression) :
    select whereClause t = passing whereClause (liveRows (allColumnNames t.columns) rs) := by
  have hnames := allColumnNames_length hcols
  rw [Table.select, h.rowCount hnames, List.range_eq_range']
  exact h.selectLoop hnames whereClause (List.nil_append rs).symm

theorem passing_none (rows : List Row) : passing none rows = .ok rows := by
  induction rows with
  | nil => rfl
  | cons row rows ih =>
      rw [passing, ih]
      rfl

end NanoVault.Table
