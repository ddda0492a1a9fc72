/-
What the writers do to the records of a table.

Each function that writes the files is described once, on the records they store: INSERT
appends a record under the next id (`Stores.insertRow`), a tombstone marks one
(`Stores.tombstone`), the scan of DELETE marks the records its condition holds of
(`Stores.deleteLoop`), the scan of UPDATE also appends their successors
(`Stores.updateLoop`), and vacuum keeps the records that are not marked
(`Stores.vacuumTable`).
-/
import NanoVault.Table.Records

namespace NanoVault.Table

open Lib

variable {k i : Nat} {r : Record} {rs rs' : List Record} {f : Files} {t : TableState}
  {names : List Text} {values : List Text}

/-! ### Appending a record -/

/-- The id after the last one. -/
def nextId (rs : List Record) : Nat := (rs.getLast?.map Record.id).getD 0 + 1

theorem nextId_concat (rs : List Record) (r : Record) : nextId (rs ++ [r]) = r.id + 1 := by
  simp [nextId]

/-- INSERT reads the next id off the last record. -/
theorem Stores.nextRowId (h : Stores k f rs) :
    nextRowId f.index (1 + 2 * k) = .ok (nextId rs) := by
  rcases List.eq_nil_or_concat' rs with rfl | ⟨rs, r, rfl⟩
  · rw [Table.nextRowId, h.index]
    rfl
  · have hlength := h.readable.index_length
    rw [List.length_append, List.length_singleton, Nat.succ_mul] at hlength
    have hbefore : (layout 0 rs).length = rs.length * (1 + 2 * k) :=
      layout_length 0 fun r hr => h.width r (List.mem_append_left _ hr)
    have hne : f.index ≠ [] := by
      intro hnil
      rw [hnil, List.length_nil] at hlength
      omega
    rw [Table.nextRowId, if_neg hne, if_neg (by omega), hlength, Nat.add_sub_cancel,
      h.index, layout_append, ← hbefore, nextId_concat]
    simp [layout, pure, Except.pure]

/-- Ids keep up with positions. -/
theorem Stores.succ_le_id (h : Stores k f rs) (hr : rs[i]? = some r) : i + 1 ≤ r.id := by
  induction i generalizing r with
  | zero => exact h.positive r (List.mem_of_getElem? hr)
  | succ i ih =>
      obtain ⟨hi, rfl⟩ := List.getElem?_eq_some_iff.mp hr
      have hbefore := ih (List.getElem?_eq_getElem (Nat.lt_of_succ_lt hi))
      have hlt := List.pairwise_iff_getElem.mp h.ascending i (i + 1)
        (by rw [List.length_map]; omega) (by rwa [List.length_map]) (Nat.lt_succ_self i)
      rw [List.getElem_map, List.getElem_map] at hlt
      omega

/-- The next id is above the number of records. -/
theorem Stores.length_lt_nextId (h : Stores k f rs) : rs.length < nextId rs := by
  rcases List.eq_nil_or_concat' rs with rfl | ⟨rs, r, rfl⟩
  · exact Nat.succ_pos 0
  · have hlast : (rs ++ [r])[rs.length]? = some r := by simp
    have hle := h.succ_le_id hlast
    rw [nextId_concat, List.length_append, List.length_singleton]
    omega

/-- The next id is above all ids. -/
theorem Stores.lt_nextId (h : Stores k f rs) (hr : r ∈ rs) : r.id < nextId rs := by
  rcases List.eq_nil_or_concat' rs with rfl | ⟨rs, last, rfl⟩
  · cases hr
  · have hasc := h.ascending
    rw [List.map_append, List.pairwise_append] at hasc
    rw [nextId_concat]
    rcases List.mem_append.mp hr with hr | hr
    · have := hasc.2.2 r.id (List.mem_map_of_mem hr) last.id (by simp)
      omega
    · rw [List.mem_singleton.mp hr]
      exact Nat.lt_succ_self _

/-- The bytes after one is written, perhaps beyond the end. -/
theorem writeByte_getElem? (bytes : List UInt8) (pos : Nat) (b : UInt8) (i : Nat) :
    (writeByte bytes pos b)[i]? =
      if i = pos then some b else if i < bytes.length then bytes[i]?
      else if i < pos then some 0 else none := by
  unfold writeByte
  split
  · next hpos =>
      rw [List.getElem?_set]
      split
      · next heq =>
          subst heq
          simp
      · next hne =>
          rw [if_neg (Ne.symm hne)]
          split
          · rfl
          · next hi => rw [if_neg (by omega), List.getElem?_eq_none (by omega)]
  · next hpos =>
      rcases Nat.lt_trichotomy i pos with hi | rfl | hi
      · rw [if_neg (by omega), List.getElem?_append_left (by simp; omega)]
        by_cases hlen : i < bytes.length
        · rw [List.getElem?_append_left hlen, if_pos hlen]
        · rw [List.getElem?_append_right (by omega), if_neg hlen, if_pos hi,
            List.getElem?_replicate, if_pos (by omega)]
      · rw [if_pos rfl, List.getElem?_append_right (by simp; omega)]
        have : i - (bytes ++ List.replicate (i - bytes.length) 0).length = 0 := by simp; omega
        rw [this]
        rfl
      · rw [if_neg (by omega), if_neg (by omega), if_neg (by omega)]
        exact List.getElem?_eq_none (by simp; omega)

/-- The files after a record is appended are those of one record more. -/
theorem Stores.append (h : Stores k f rs) (hwidth : values.length = k) (hvalues : values ≠ []) :
    Stores k
      { index := f.index ++ nextId rs :: offsets f.data.length values
        data := f.data ++ values.flatten
        delete := writeByte f.delete (nextId rs - 1) 0 }
      (rs ++ [⟨nextId rs, false, values⟩]) := by
  have hnext := h.length_lt_nextId
  constructor
  · rw [layout_append, h.index, h.data]
    simp [layout]
  · rw [contents_append, h.data]
    simp [contents]
  · intro r hr
    rcases List.mem_append.mp hr with hr | hr
    · exact h.width r hr
    · rw [List.mem_singleton.mp hr]
      exact hwidth
  · intro r hr
    rcases List.mem_append.mp hr with hr | hr
    · exact h.filled r hr
    · rw [List.mem_singleton.mp hr]
      exact hvalues
  · intro i r hr
    rw [writeByte_getElem?]
    rcases Nat.lt_trichotomy i rs.length with hi | rfl | hi
    · rw [List.getElem?_append_left hi] at hr
      have hflag := h.flags i r hr
      rw [if_neg (by omega), if_pos (List.getElem?_eq_some_iff.mp hflag).1, hflag]
    · obtain rfl : _ = r := by simpa using hr
      show _ = some (0 : UInt8)
      split
      · rfl
      · split
        · next hlen =>
            have hb := h.unused rs.length _ (Nat.le_refl _) (List.getElem?_eq_getElem hlen)
            rw [List.getElem?_eq_getElem hlen, hb]
        · rw [if_pos (by omega)]
    · rw [List.getElem?_eq_none (by simp; omega)] at hr
      cases hr
  · intro i b hi hb
    rw [List.length_append, List.length_singleton] at hi
    rw [writeByte_getElem?] at hb
    split at hb
    · exact (Option.some.inj hb).symm
    · split at hb
      · exact h.unused i b (by omega) hb
      · split at hb
        · exact (Option.some.inj hb).symm
        · cases hb
  · rw [List.map_append, List.pairwise_append]
    refine ⟨h.ascending, List.pairwise_singleton .., ?_⟩
    intro a ha b hb
    obtain ⟨r, hr, rfl⟩ := List.mem_map.mp ha
    obtain rfl : b = nextId rs := by simpa using hb
    exact h.lt_nextId hr
  · intro r hr
    rcases List.mem_append.mp hr with hr | hr
    · exact h.positive r hr
    · rw [List.mem_singleton.mp hr]
      exact Nat.succ_pos _

/-- `insertRow` appends a record with the next id, and adds its keys. -/
theorem Stores.insertRow (h : Stores k t.files rs) {data : List InsertColumn}
    (hdata : data ≠ []) (hk : data.length = k) (primaryName : Text) :
    ∃ t' node, insertRow primaryName data t = .ok t' ∧ t'.columns = t.columns ∧
      t'.trees = insertKeys t.trees primaryName data (nextId rs) node ∧
      Stores k t'.files (rs ++ [⟨nextId rs, false, data.map InsertColumn.value⟩]) := by
  have hnext : Table.nextRowId t.files.index (1 + 2 * data.length) = .ok (nextId rs) := by
    rw [hk]
    exact h.nextRowId
  have hwidth : (data.map InsertColumn.value).length = k := by rw [List.length_map, hk]
  have hvalues : data.map InsertColumn.value ≠ [] := by
    intro hnil
    exact hdata (List.map_eq_nil_iff.mp hnil)
  rw [Table.insertRow, if_neg hdata, hnext]
  exact ⟨_, _, rfl, rfl, rfl, h.append hwidth hvalues⟩

/-! ### Marking records -/

def Record.kill (r : Record) : Record := { r with dead := true }

@[simp] theorem tombstone_columns (t : TableState) (row : Nat) :
    (tombstone t row).columns = t.columns := rfl

@[simp] theorem dropKeys_columns (t : TableState) (row : Row) :
    (dropKeys t row).columns = t.columns := rfl

/-- Setting a tombstone kills its record and leaves the others. -/
theorem Stores.tombstone {done rest : List Record} (h : Stores k t.files (done ++ r :: rest)) :
    Stores k (tombstone t done.length).files (done ++ r.kill :: rest) := by
  have hr : (done ++ r :: rest)[done.length]? = some r := by simp
  have hdone := (List.getElem?_eq_some_iff.mp (h.flags _ _ hr)).1
  have hmem : ∀ {x}, x ∈ done ++ r.kill :: rest →
      ∃ y ∈ done ++ r :: rest, x.id = y.id ∧ x.values = y.values := by
    intro x hx
    rcases List.mem_append.mp hx with hx | hx
    · exact ⟨x, List.mem_append_left _ hx, rfl, rfl⟩
    · rcases List.mem_cons.mp hx with rfl | hx
      · exact ⟨r, by simp, rfl, rfl⟩
      · exact ⟨x, by simp [hx], rfl, rfl⟩
  constructor
  · rw [layout_append]
    exact h.index.trans (layout_append ..)
  · rw [contents_append]
    exact h.data.trans (contents_append ..)
  · intro x hx
    obtain ⟨y, hy, -, hvalues⟩ := hmem hx
    rw [hvalues]
    exact h.width y hy
  · intro x hx
    obtain ⟨y, hy, -, hvalues⟩ := hmem hx
    rw [hvalues]
    exact h.filled y hy
  · intro i x hx
    show (writeByte t.files.delete done.length 1)[i]? = some x.flag
    rw [writeByte_getElem?]
    split
    · next hi =>
        subst hi
        obtain rfl : r.kill = x := by simpa using hx
        rfl
    · next hi =>
        have hx' : (done ++ r :: rest)[i]? = some x := by
          rcases Nat.lt_or_gt_of_ne hi with hi | hi
          · rw [List.getElem?_append_left hi] at hx ⊢
            exact hx
          · obtain ⟨j, hj⟩ : ∃ j, i - done.length = j + 1 := ⟨i - done.length - 1, by omega⟩
            rw [List.getElem?_append_right (by omega), hj, List.getElem?_cons_succ] at hx ⊢
            exact hx
        have hflag := h.flags i x hx'
        rw [if_pos (List.getElem?_eq_some_iff.mp hflag).1, hflag]
  · intro i b hi hb
    have hi' : (done ++ r :: rest).length ≤ i := by simpa using hi
    have hlt : done.length < i := by
      rw [List.length_append, List.length_cons] at hi'
      omega
    change (writeByte t.files.delete done.length 1)[i]? = some b at hb
    rw [writeByte_getElem?, if_neg (by omega)] at hb
    split at hb
    · exact h.unused i b hi' hb
    · rw [if_neg (by omega)] at hb
      cases hb
  · have hasc := h.ascending
    rw [List.map_append, List.map_cons] at hasc ⊢
    exact hasc
  · intro x hx
    obtain ⟨y, hy, hid, -⟩ := hmem hx
    rw [hid]
    exact h.positive y hy

/-- What a scan that deletes the matching records leaves of them, the records it has deleted,
and the exception it ends with. -/
structure Swept where
  records : List Record
  hits : List Record
  fault : Option Fault

/-- The scan of DELETE and UPDATE over the records. -/
def sweep (names : List Text) (whereClause : Option Expression) : List Record → Swept
  | [] => ⟨[], [], none⟩
  | r :: rs =>
      let s := sweep names whereClause rs
      if r.dead then { s with records := r :: s.records }
      else
        match evaluateWhere whereClause (rowOf names r) with
        | .error e => ⟨r :: rs, [], some e⟩
        | .ok false => { s with records := r :: s.records }
        | .ok true => { s with records := r.kill :: s.records, hits := r :: s.hits }

section Scan

variable {done rest new : List Record} {whereClause : Option Expression} {e : Fault}

@[simp] theorem sweep_nil (names : List Text) (whereClause : Option Expression) :
    sweep names whereClause [] = ⟨[], [], none⟩ := rfl

/-- A scan passes over dead records. -/
theorem sweep_dead (hdead : r.dead = true) : sweep names whereClause (r :: rs) =
    { sweep names whereClause rs with records := r :: (sweep names whereClause rs).records } := by
  rw [sweep, if_pos hdead]

/-- A scan ends where the condition throws. -/
theorem sweep_error (hdead : r.dead = false)
    (hwhere : evaluateWhere whereClause (rowOf names r) = .error e) :
    sweep names whereClause (r :: rs) = ⟨r :: rs, [], some e⟩ := by
  simp only [sweep, hdead, hwhere, Bool.false_eq_true, if_false]

/-- A scan passes over records that do not meet the condition. -/
theorem sweep_false (hdead : r.dead = false)
    (hwhere : evaluateWhere whereClause (rowOf names r) = .ok false) :
    sweep names whereClause (r :: rs) =
      { sweep names whereClause rs with records := r :: (sweep names whereClause rs).records } := by
  simp only [sweep, hdead, hwhere, Bool.false_eq_true, if_false]

/-- A scan kills a record that meets it. -/
theorem sweep_true (hdead : r.dead = false)
    (hwhere : evaluateWhere whereClause (rowOf names r) = .ok true) :
    sweep names whereClause (r :: rs) =
      { sweep names whereClause rs with
        records := r.kill :: (sweep names whereClause rs).records
        hits := r :: (sweep names whereClause rs).hits } := by
  simp only [sweep, hdead, hwhere, Bool.false_eq_true, if_false]

/-- Remove the keys of these records. -/
def dropAll (names : List Text) (hits : List Record) (t : TableState) : TableState :=
  hits.foldl (fun t r => dropKeys t (rowOf names r)) t

/-- The keys that are dropped do not depend on the files. -/
theorem dropAll_files (names : List Text) (hits : List Record) (t : TableState) (f : Files) :
    dropAll names hits { t with files := f } = { dropAll names hits t with files := f } := by
  induction hits generalizing t with
  | nil => rfl
  | cons r hits ih => exact ih (dropKeys t (rowOf names r))

/-- The scan of DELETE marks the records that match, up to the first exception. -/
theorem Stores.deleteLoop (h : Stores k t.files (done ++ rest)) (hnames : names.length = k + 1)
    (whereClause : Option Expression) :
    ∃ f, deleteLoop names whereClause (List.range' done.length rest.length) false t =
        ({ dropAll names (sweep names whereClause rest).hits t with files := f },
          (sweep names whereClause rest).fault) ∧
      Stores k f (done ++ (sweep names whereClause rest).records) := by
  induction rest generalizing done t with
  | nil => exact ⟨t.files, rfl, h⟩
  | cons r rest ih =>
      have hr : (done ++ r :: rest)[done.length]? = some r := by simp
      have hrow := h.readable.readRow hnames hr
      have hnext : ∀ {t : TableState} {x : Record}, Stores k t.files (done ++ x :: rest) →
          ∃ f, Table.deleteLoop names whereClause (List.range' (done.length + 1) rest.length)
              false t =
            ({ dropAll names (sweep names whereClause rest).hits t with files := f },
              (sweep names whereClause rest).fault) ∧
            Stores k f (done ++ x :: (sweep names whereClause rest).records) := by
        intro t x hx
        rw [List.append_cons] at hx
        obtain ⟨f, hloop, hf⟩ := ih hx
        rw [List.length_append, List.length_singleton] at hloop
        rw [List.append_assoc] at hf
        exact ⟨f, hloop, hf⟩
      rw [List.length_cons, List.range'_succ, Table.deleteLoop, h.flags _ _ hr, sweep]
      cases hdead : r.dead with
      | true =>
          simp only [Record.flag_eq_one.mpr hdead, if_true]
          exact hnext h
      | false =>
          have hflag : ¬ r.flag = 1 := by simp [Record.flag_eq_one, hdead]
          simp only [hflag, if_false, hrow, Bool.false_eq_true]
          cases hwhere : evaluateWhere whereClause (rowOf names r) with
          | error e => exact ⟨t.files, rfl, h⟩
          | ok pass =>
              cases pass with
              | false => exact hnext h
              | true =>
                  have hdropped : Stores k
                      (dropKeys (Table.tombstone t done.length) (rowOf names r)).files
                      (done ++ r.kill :: rest) := h.tombstone
                  obtain ⟨f, hloop, hf⟩ := hnext hdropped
                  refine ⟨f, ?_, hf⟩
                  simp only [hloop]
                  congr 1
                  exact congrArg (fun t : TableState => { t with files := f })
                    (dropAll_files names _ (dropKeys t (rowOf names r)) _)

/-- The records re-inserted for the rows an UPDATE has matched, from an id on. -/
def renew (columns : List Column) (names : List Text) (assignments : List (Text × Text)) :
    Nat → List Record → List Record
  | _, [] => []
  | id, r :: rs =>
      ⟨id, false, (updateColumns columns (assign (rowOf names r) assignments)).map
        InsertColumn.value⟩ :: renew columns names assignments (id + 1) rs

/-- UPDATE writes a value for each column that is not primary. -/
theorem updateColumns_length (columns : List Column) (row : Row) :
    (updateColumns columns row).length = (columns.filter fun c => !c.isPrimary).length := by
  rw [updateColumns, List.length_map]

/-- A dead record still counts for the next id. -/
theorem nextId_kill (done rest : List Record) (r : Record) :
    nextId (done ++ r.kill :: rest) = nextId (done ++ r :: rest) := by
  have hids : (done ++ r.kill :: rest).map Record.id = (done ++ r :: rest).map Record.id := by
    simp [Record.kill]
  rw [nextId, nextId, ← List.getLast?_map, ← List.getLast?_map, hids]

/-- A record inserted for a matched one counts for the next id. -/
theorem nextId_renewed (done rest : List Record) (r x : Record) :
    nextId (done ++ r.kill :: (rest ++ [x])) = x.id + 1 := by
  have hsplit : done ++ r.kill :: (rest ++ [x]) = (done ++ r.kill :: rest) ++ [x] := by simp
  rw [hsplit, nextId_concat]

/-- A matched row of UPDATE: its record is marked, and one with the new values appended. -/
theorem Stores.updateRow (h : Stores k t.files (done ++ r :: rest))
    (hk : (t.columns.filter fun c => !c.isPrimary).length = k) (primaryKey : Text)
    (old new : Row) :
    ∃ t', Table.insertRow primaryKey (updateColumns t.columns new)
        (dropKeys (Table.tombstone t done.length) old) = .ok t' ∧ t'.columns = t.columns ∧
      Stores k t'.files (done ++ r.kill :: (rest ++ [⟨nextId (done ++ r :: rest), false,
        (updateColumns t.columns new).map InsertColumn.value⟩])) := by
  have hdropped : Stores k (dropKeys (Table.tombstone t done.length) old).files
      (done ++ r.kill :: rest) := h.tombstone
  have hlength : (updateColumns t.columns new).length = k := (updateColumns_length _ _).trans hk
  -- Every record holds `k` values and one at least, so there is something to insert.
  have hdata : updateColumns t.columns new ≠ [] := by
    intro hnil
    have hmem : r ∈ done ++ r :: rest := by simp
    rw [hnil, List.length_nil] at hlength
    exact h.filled r hmem (List.length_eq_zero_iff.mp ((h.width r hmem).trans hlength.symm))
  obtain ⟨t', node, hinsert, hcolumns, -, ht'⟩ := hdropped.insertRow hdata hlength primaryKey
  rw [nextId_kill, List.append_assoc, List.cons_append] at ht'
  exact ⟨t', hinsert, hcolumns, ht'⟩

/-- The scan of UPDATE also appends a record for each one it marks. -/
theorem Stores.updateLoop (h : Stores k t.files (done ++ rest ++ new))
    (hnames : names.length = k + 1) (hk : (t.columns.filter fun c => !c.isPrimary).length = k)
    (primaryKey : Text) (assignments : List (Text × Text)) (whereClause : Option Expression) :
    ∃ t', updateLoop primaryKey names assignments whereClause
        (List.range' done.length rest.length) false t =
        (t', (sweep names whereClause rest).fault) ∧ t'.columns = t.columns ∧
      Stores k t'.files (done ++ (sweep names whereClause rest).records ++
        (new ++ renew t.columns names assignments (nextId (done ++ rest ++ new))
          (sweep names whereClause rest).hits)) := by
  induction rest generalizing done new t with
  | nil => exact ⟨t, rfl, rfl, by simpa [sweep, renew] using h⟩
  | cons r rest ih =>
      have hr : (done ++ r :: rest ++ new)[done.length]? = some r := by simp
      have hrow := h.readable.readRow hnames hr
      have hnext : ∀ {t' : TableState} {x : Record} {new : List Record},
          t'.columns = t.columns → Stores k t'.files (done ++ x :: (rest ++ new)) →
          ∃ t'', Table.updateLoop primaryKey names assignments whereClause
              (List.range' (done.length + 1) rest.length) false t' =
              (t'', (sweep names whereClause rest).fault) ∧ t''.columns = t.columns ∧
            Stores k t''.files (done ++ x :: (sweep names whereClause rest).records ++
              (new ++ renew t.columns names assignments (nextId (done ++ x :: (rest ++ new)))
                (sweep names whereClause rest).hits)) := by
        intro t' x new hcolumns hx
        rw [List.append_cons, ← List.append_assoc] at hx
        obtain ⟨t'', hloop, hcolumns', ht''⟩ := ih hx (hcolumns ▸ hk)
        rw [List.length_append, List.length_singleton] at hloop
        rw [hcolumns] at hcolumns' ht''
        refine ⟨t'', hloop, hcolumns', ?_⟩
        simpa using ht''
      have happ : done ++ r :: rest ++ new = done ++ r :: (rest ++ new) := by simp
      rw [happ] at h ⊢
      rw [List.length_cons, List.range'_succ, Table.updateLoop, h.flags _ _ (happ ▸ hr), sweep]
      cases hdead : r.dead with
      | true =>
          simp only [Record.flag_eq_one.mpr hdead, if_true]
          exact hnext rfl h
      | false =>
          have hflag : ¬ r.flag = 1 := by simp [Record.flag_eq_one, hdead]
          simp only [hflag, if_false, hrow, Bool.false_eq_true]
          cases hwhere : evaluateWhere whereClause (rowOf names r) with
          | error e =>
              refine ⟨t, rfl, rfl, ?_⟩
              simpa [renew] using h
          | ok pass =>
              cases pass with
              | false => exact hnext rfl h
              | true =>
                  obtain ⟨t', hinsert, hcolumns, ht'⟩ := h.updateRow hk primaryKey
                    (rowOf names r) (assign (rowOf names r) assignments)
                  rw [List.append_assoc] at ht'
                  obtain ⟨t'', hloop, hcolumns', ht''⟩ := hnext hcolumns ht'
                  refine ⟨t'', ?_, hcolumns', ?_⟩
                  · simp only [dropKeys_columns, tombstone_columns, hinsert]
                    exact hloop
                  · rw [← List.append_assoc rest, nextId_renewed] at ht''
                    simpa [renew] using ht''

end Scan

/-! ### Vacuum -/

/-- The texts of a record are read by their places. -/
theorem readValues_ok {data : Text} {words : List Nat} (h : Spans data values words)
    (more : List Nat) :
    readValues data values.length (words ++ more) false = .ok (values, false) := by
  induction h with
  | nil => rfl
  | @cons v vs start words hv _ ih =>
      rw [List.cons_append, List.cons_append, List.length_cons, readValues,
        if_neg (Nat.not_lt.mpr (Nat.le_add_right _ _)), Nat.add_sub_cancel_left, readText_ok hv]
      simp only [ih]
      rfl

/-- A live record is packed behind the others. -/
theorem packed_concat (rs : List Record) (hdead : r.dead = false) :
    packed (rs ++ [r]) =
      { index := (packed rs).index ++ r.id :: offsets (packed rs).data.length r.values
        data := (packed rs).data ++ r.values.flatten
        delete := (packed rs).delete ++ [0] } := by
  simp [packed, layout_append, layout, contents, Record.flag, hdead]

/-- The loop of vacuum copies the live records. -/
theorem Stores.vacuumLoop (h : Stores k f rs) {done rest : List Record} (hrs : rs = done ++ rest) :
    vacuumLoop f (1 + 2 * k) (List.range' done.length rest.length) false (packed (live done)) =
      .ok (packed (live rs)) := by
  induction rest generalizing done with
  | nil =>
      rw [hrs, List.append_nil]
      rfl
  | cons r rest ih =>
      have hr : rs[done.length]? = some r := by rw [hrs]; simp
      have hnext : Table.vacuumLoop f (1 + 2 * k) (List.range' (done ++ [r]).length rest.length)
          false (packed (live (done ++ [r]))) = .ok (packed (live rs)) :=
        ih (by rw [hrs, List.append_cons])
      rw [List.length_append, List.length_singleton, live_append] at hnext
      rw [List.length_cons, List.range'_succ, Table.vacuumLoop, h.flags _ _ hr]
      cases hdead : r.dead with
      | true =>
          rw [live_cons_dead hdead] at hnext
          simp only [Record.flag_eq_one.mpr hdead, if_true]
          simpa [live] using hnext
      | false =>
          obtain ⟨spans, more, hdrop, hspans⟩ := h.readable.drop hr
          have hflag : ¬ r.flag = 1 := by simp [Record.flag_eq_one, hdead]
          have hwidth : (1 + 2 * k - 1) / 2 = r.values.length := by
            rw [h.width r (List.mem_of_getElem? hr)]
            omega
          have hread := readValues_ok hspans more
          rw [live_cons_alive hdead] at hnext
          simp only [hflag, if_false, hdrop, hwidth, hread]
          rw [← hnext, show live [] = [] from rfl, packed_concat _ hdead]
          rfl

/-- After a vacuum no tombstone is set. -/
theorem packed_live_flag {i : Nat} {b : UInt8} (hb : (packed (live rs)).delete[i]? = some b) :
    b = 0 := by
  obtain ⟨r, hr, rfl⟩ := List.mem_map.mp (List.mem_of_getElem? hb)
  have halive : r.dead = false := by simpa using (List.mem_filter.mp hr).2
  simp [Record.flag, halive]

/-- What vacuum writes are the files of the live records. -/
theorem Stores.packed_live (h : Stores k f rs) : Stores k (packed (live rs)) (live rs) := by
  have hsub : ∀ r ∈ live rs, r ∈ rs := fun r hr => (List.mem_filter.mp hr).1
  constructor
  · rfl
  · rfl
  · exact fun r hr => h.width r (hsub r hr)
  · exact fun r hr => h.filled r (hsub r hr)
  · intro i r hr
    rw [packed, List.getElem?_map, hr]
    rfl
  · intro i b _ hb
    exact packed_live_flag hb
  · exact h.ascending.sublist (List.filter_sublist.map Record.id)
  · exact fun r hr => h.positive r (hsub r hr)

/-- Vacuum leaves the files of the live records. -/
theorem Stores.vacuumTable (h : Stores k t.files rs) (hcols : t.columns.length = k + 1) :
    vacuumTable t = ({ t with files := packed (live rs) }, none) := by
  have hwords : 2 * t.columns.length - 1 = 1 + 2 * k := by omega
  have hcount : t.files.index.length / (1 + 2 * k) = rs.length := by
    rw [h.readable.index_length]
    exact Nat.mul_div_cancel _ (by omega)
  have hloop : Table.vacuumLoop t.files (1 + 2 * k) (List.range rs.length) false {} =
      .ok (packed (live rs)) := by
    rw [List.range_eq_range']
    exact h.vacuumLoop (List.nil_append rs).symm
  simp only [Table.vacuumTable, hwords, hcount, hloop]

end NanoVault.Table
