/-
A vacuum that stops halfway.

`vacuumOps` lists the file-system operations of a vacuum: it writes `.new` files and then, for
`.index`, `.data` and `.delete` in turn, removes the old file and renames the new one. The
process may stop after any number of them. On restart the engine opens every `.data` file,
which creates it where it is missing, and builds the index trees, which fails without an
`.index` file. `crash_exact` says for every such point whether SELECT still returns the rows
it returned before.
-/
import NanoVault.Table.Vacuum

namespace NanoVault.Table

open Lib

/-- The three files of a table, where they exist. -/
structure DiskFiles where
  index : Option (List Nat) := none
  data : Option Text := none
  delete : Option (List UInt8) := none
deriving DecidableEq, Repr

/-- The files of a table, and those with `.new` behind their names. -/
structure Disk where
  table : DiskFiles
  fresh : DiskFiles := {}
deriving DecidableEq, Repr

def DiskFiles.of (f : Files) : DiskFiles := ⟨some f.index, some f.data, some f.delete⟩

inductive FileName where
  | index
  | data
  | delete
deriving DecidableEq, Repr

/-- The file-system operations of a vacuum: create and append to a `.new` file, remove an
old file, and rename a `.new` file to the old one's name. -/
inductive FileOp where
  | create (file : FileName)
  | writeIndex (words : List Nat)
  | writeData (text : Text)
  | writeDelete (bytes : List UInt8)
  | remove (file : FileName)
  | rename (file : FileName)
deriving DecidableEq, Repr

def applyOp (d : Disk) : FileOp → Disk
  | .create .index => { d with fresh := { d.fresh with index := some [] } }
  | .create .data => { d with fresh := { d.fresh with data := some [] } }
  | .create .delete => { d with fresh := { d.fresh with delete := some [] } }
  | .writeIndex words =>
      { d with fresh := { d.fresh with index := d.fresh.index.map (· ++ words) } }
  | .writeData text => { d with fresh := { d.fresh with data := d.fresh.data.map (· ++ text) } }
  | .writeDelete bytes =>
      { d with fresh := { d.fresh with delete := d.fresh.delete.map (· ++ bytes) } }
  | .remove .index => { d with table := { d.table with index := none } }
  | .remove .data => { d with table := { d.table with data := none } }
  | .remove .delete => { d with table := { d.table with delete := none } }
  | .rename .index =>
      ⟨{ d.table with index := d.fresh.index }, { d.fresh with index := none }⟩
  | .rename .data => ⟨{ d.table with data := d.fresh.data }, { d.fresh with data := none }⟩
  | .rename .delete =>
      ⟨{ d.table with delete := d.fresh.delete }, { d.fresh with delete := none }⟩

def applyOps (ops : List FileOp) (d : Disk) : Disk := ops.foldl applyOp d

/-- The writes for the values of a row, from an offset in the new data file on. -/
def columnWrites (offset : Nat) : List Text → List FileOp
  | [] => []
  | v :: vs =>
      .writeData v :: .writeIndex [offset] :: .writeIndex [offset + v.length] ::
        columnWrites (offset + v.length) vs

/-- The writes for a row. -/
def rowWrites (id offset : Nat) (values : List Text) : List FileOp :=
  .writeIndex [id] :: columnWrites offset values ++ [.writeDelete [0]]

/-- The writes of the loop of `vacuumTable`. -/
def vacuumWrites (f : Files) (words : Nat) : List Nat → Bool → Nat → Except Fault (List FileOp)
  | [], _, _ => return []
  | row :: rows, failed, offset =>
      match f.delete[row]? with
      | none => throw .undefined
      | some deleted =>
          if deleted = 1 then vacuumWrites f words rows failed offset
          else
            match f.index.drop (row * words) with
            | [] => throw .undefined
            | id :: rest => do
                let r ← readValues f.data ((words - 1) / 2) rest failed
                let ops ← vacuumWrites f words rows r.2 (offset + r.1.flatten.length)
                return rowWrites id offset r.1 ++ ops

/-- The three calls of `replaceFile`. -/
def replaceOps : List FileOp :=
  [.remove .index, .rename .index, .remove .data, .rename .data, .remove .delete,
    .rename .delete]

/-- The file-system operations of `vacuumTable`, in order. -/
def vacuumOps (t : TableState) : Except Fault (List FileOp) := do
  let words := 2 * t.columns.length - 1
  let writes ← vacuumWrites t.files words (List.range (t.files.index.length / words)) false 0
  return [.create .index, .create .data, .create .delete] ++ writes ++ replaceOps

/-! ### Restart -/

/-- `initialDatabseLoad` and `initializePrimaryIndexBtrees`, as far as they touch the files:
the queue opened on the data file creates it, and a column with a tree needs the index file. -/
def restart (columns : List Column) (d : Disk) : Except Fault Disk :=
  if d.table.index = none ∧ columns.any (fun c => c.newTree.isSome) then
    throw (.runtimeError "the table does not exist".toList)
  else return { d with table := { d.table with data := some (d.table.data.getD []) } }

/-- `SelectQueryHandler::handle` on a table whose files need not all be there. -/
def selectDisk (columns : List Column) (whereClause : Option Expression) (d : Disk) :
    Except Fault (List Row) :=
  match d.table.index, d.table.data, d.table.delete with
  | none, _, _ => throw (.runtimeError "Failed to read primary key  from index file".toList)
  | _, none, _ => throw (.runtimeError "Failed to read data from dataFile file".toList)
  | _, _, none => throw (.runtimeError "Failed to open delete file".toList)
  | some index, some data, some delete =>
      select whereClause { columns := columns, files := ⟨index, data, delete⟩ }

/-- SELECT * after a restart. -/
def selectAfterRestart (columns : List Column) (d : Disk) : Except Fault (List Row) := do
  selectDisk columns none (← restart columns d)

variable {k m n p offset : Nat} {r : Record} {rs : List Record} {f g : Files} {t : TableState}
  {names : List Text} {columns : List Column} {d : Disk}

/-! ### The new files -/

theorem applyOps_append (ops ops' : List FileOp) (d : Disk) :
    applyOps (ops ++ ops') d = applyOps ops' (applyOps ops d) := List.foldl_append ..

/-- An operation on a `.new` file that leaves the table's files alone. -/
def FileOp.isWrite : FileOp → Bool
  | .remove _ | .rename _ => false
  | _ => true

theorem applyOp_table {op : FileOp} (hop : op.isWrite = true) (d : Disk) :
    (applyOp d op).table = d.table := by
  cases op with
  | create file => cases file <;> rfl
  | remove file => cases hop
  | rename file => cases hop
  | writeIndex words => rfl
  | writeData text => rfl
  | writeDelete bytes => rfl

theorem applyOps_table {ops : List FileOp} (hops : ∀ op ∈ ops, op.isWrite = true) (d : Disk) :
    (applyOps ops d).table = d.table := by
  induction ops generalizing d with
  | nil => rfl
  | cons op ops ih =>
      have hrest := ih (fun op hop => hops op (List.mem_cons_of_mem _ hop)) (applyOp d op)
      exact hrest.trans (applyOp_table (hops op List.mem_cons_self) d)

theorem columnWrites_isWrite (offset : Nat) (vs : List Text) :
    ∀ op ∈ columnWrites offset vs, op.isWrite = true := by
  induction vs generalizing offset with
  | nil => exact fun op hop => (List.not_mem_nil hop).elim
  | cons v vs ih =>
      intro op hop
      rw [columnWrites, List.mem_cons, List.mem_cons, List.mem_cons] at hop
      rcases hop with rfl | rfl | rfl | hop
      · rfl
      · rfl
      · rfl
      · exact ih _ op hop

theorem rowWrites_isWrite (id offset : Nat) (vs : List Text) :
    ∀ op ∈ rowWrites id offset vs, op.isWrite = true := by
  intro op hop
  rw [rowWrites, List.cons_append, List.mem_cons, List.mem_append, List.mem_singleton] at hop
  rcases hop with rfl | hop | rfl
  · rfl
  · exact columnWrites_isWrite offset vs op hop
  · rfl

theorem applyOps_columnWrites (vs : List Text) (d : DiskFiles) (index : List Nat)
    (data : Text) (delete : Option (List UInt8)) :
    applyOps (columnWrites data.length vs) ⟨d, ⟨some index, some data, delete⟩⟩ =
      ⟨d, ⟨some (index ++ offsets data.length vs), some (data ++ vs.flatten), delete⟩⟩ := by
  induction vs generalizing index data with
  | nil => simp [columnWrites, offsets, applyOps]
  | cons v vs ih =>
      have hnext := ih (index ++ [data.length] ++ [data.length + v.length]) (data ++ v)
      rw [List.length_append] at hnext
      simp only [columnWrites, applyOps, List.foldl_cons, applyOp, Option.map_some]
      simp only [applyOps] at hnext
      rw [hnext]
      simp [offsets]

theorem applyOps_rowWrites (id : Nat) (vs : List Text) (d : DiskFiles) (f : Files) :
    applyOps (rowWrites id f.data.length vs) ⟨d, .of f⟩ =
      ⟨d, .of { index := f.index ++ id :: offsets f.data.length vs
                data := f.data ++ vs.flatten
                delete := f.delete ++ [0] }⟩ := by
  have hcolumns := applyOps_columnWrites vs d (f.index ++ [id]) f.data (some f.delete)
  rw [rowWrites, List.cons_append, ← List.singleton_append, applyOps_append, applyOps_append]
  show applyOps _ (applyOps _ ⟨d, ⟨some (f.index ++ [id]), some f.data, some f.delete⟩⟩) = _
  rw [hcolumns, List.append_assoc]
  rfl

/-- The writes of a vacuum leave the live records in the new files. -/
theorem Stores.vacuumWrites (h : Stores k f rs) (d : DiskFiles) {done rest : List Record}
    (hrs : rs = done ++ rest) :
    ∃ ops, vacuumWrites f (1 + 2 * k) (List.range' done.length rest.length) false
        (packed (live done)).data.length = .ok ops ∧ (∀ op ∈ ops, op.isWrite = true) ∧
      applyOps ops ⟨d, .of (packed (live done))⟩ = ⟨d, .of (packed (live rs))⟩ := by
  induction rest generalizing done with
  | nil =>
      refine ⟨[], rfl, fun op hop => (List.not_mem_nil hop).elim, ?_⟩
      rw [hrs, List.append_nil]
      rfl
  | cons r rest ih =>
      have hr : rs[done.length]? = some r := by rw [hrs]; simp
      have hdone : rs = (done ++ [r]) ++ rest := by rw [hrs, List.append_cons]
      obtain ⟨ops, hok, hwrites, hops⟩ := ih hdone
      rw [List.length_append, List.length_singleton, live_append] at hok
      rw [live_append] at hops
      rw [List.length_cons, List.range'_succ, Table.vacuumWrites, h.flags _ _ hr]
      cases hdead : r.dead with
      | true =>
          have hlive : live [r] = [] := live_cons_dead hdead
          rw [hlive, List.append_nil] at hok hops
          simp only [Record.flag_eq_one.mpr hdead, if_true]
          exact ⟨ops, hok, hwrites, hops⟩
      | false =>
          obtain ⟨spans, more, hdrop, hspans⟩ := h.readable.drop hr
          have hlive : live [r] = [r] := live_cons_alive hdead
          have hflag : ¬ r.flag = 1 := by simp [Record.flag_eq_one, hdead]
          have hwidth : (1 + 2 * k - 1) / 2 = r.values.length := by
            rw [h.width r (List.mem_of_getElem? hr)]
            omega
          rw [hlive, packed_concat _ hdead] at hok hops
          rw [List.length_append] at hok
          simp only [hflag, if_false, hdrop, hwidth, readValues_ok hspans more]
          refine ⟨rowWrites r.id (packed (live done)).data.length r.values ++ ops, ?_, ?_, ?_⟩
          · simp only [bind, Except.bind, hok]
            rfl
          · intro op hop
            rcases List.mem_append.mp hop with hop | hop
            · exact rowWrites_isWrite _ _ _ op hop
            · exact hwrites op hop
          · rw [applyOps_append, applyOps_rowWrites, hops]

/-- The operations of a vacuum: writes that leave the live records in the new files, and the
replacing of the old files. -/
theorem Keeps.vacuumOps (h : Keeps k t rs) :
    ∃ writes, vacuumOps t = .ok (writes ++ replaceOps) ∧
      (∀ op ∈ writes, op.isWrite = true) ∧
      applyOps writes ⟨.of t.files, {}⟩ = ⟨.of t.files, .of (packed (live rs))⟩ := by
  have hwords : 2 * t.columns.length - 1 = 1 + 2 * k := by
    have := h.columns
    omega
  have hcount : t.files.index.length / (1 + 2 * k) = rs.length := by
    rw [h.stores.readable.index_length]
    exact Nat.mul_div_cancel _ (by omega)
  obtain ⟨ops, hok, hwrites, hops⟩ :=
    h.stores.vacuumWrites (.of t.files) (List.nil_append rs).symm
  have hok' : Table.vacuumWrites t.files (1 + 2 * k) (List.range rs.length) false 0 = .ok ops := by
    rw [List.range_eq_range']
    exact hok
  refine ⟨[.create .index, .create .data, .create .delete] ++ ops, ?_, ?_, ?_⟩
  · rw [Table.vacuumOps, hwords, hcount, hok']
    rfl
  · intro op hop
    rcases List.mem_append.mp hop with hop | hop
    · simp only [List.mem_cons, List.not_mem_nil, or_false] at hop
      rcases hop with rfl | rfl | rfl <;> rfl
    · exact hwrites op hop
  · rw [applyOps_append]
    exact hops

/-- All operations together are the vacuum. -/
theorem Keeps.vacuumOps_vacuumTable (h : Keeps k t rs) :
    ∃ ops, Table.vacuumOps t = .ok ops ∧
      applyOps ops ⟨.of t.files, {}⟩ = ⟨.of (vacuumTable t).1.files, {}⟩ := by
  obtain ⟨writes, hok, -, hwrites⟩ := h.vacuumOps
  refine ⟨_, hok, ?_⟩
  rw [applyOps_append, hwrites, h.vacuum.1]
  rfl

/-! ### Where a crash does no harm -/

/-- No live record comes after a deleted one. -/
def LiveFirst (rs : List Record) : Prop :=
  rs.Pairwise fun r r' => r.dead = true → r'.dead = true

/-- The record as it is read from a data file that has lost its contents. -/
def Record.blank (r : Record) : Record :=
  { r with values := r.values.map fun v => List.replicate v.length '\x00' }

/-- Every live row reads the same from an empty data file. -/
def Blank (names : List Text) (rs : List Record) : Prop :=
  ∀ r ∈ live rs, rowOf names r.blank = rowOf names r

/-- Stopping after this many of the replacing operations does no harm. -/
def CrashSafe (names : List Text) (rs : List Record) : Nat → Prop
  | 1 | 5 => False
  | 2 | 4 => LiveFirst rs
  | 3 => LiveFirst rs ∧ Blank names rs
  | _ => True

theorem LiveFirst.live_getElem? (h : LiveFirst rs) (hr : (live rs)[p]? = some r) :
    rs[p]? = some r := by
  induction rs generalizing p with
  | nil => cases hr
  | cons r' rs ih =>
      obtain ⟨hhead, htail⟩ := List.pairwise_cons.mp h
      cases hdead : r'.dead with
      | true =>
          have hnone : live rs = [] := by
            apply List.filter_eq_nil_iff.mpr
            intro x hx
            simp [hhead x hx hdead]
          rw [live_cons_dead hdead, hnone] at hr
          cases hr
      | false =>
          rw [live_cons_alive hdead] at hr
          cases p with
          | zero => exact hr
          | succ p => exact ih htail hr

theorem LiveFirst.contents_prefix (h : LiveFirst rs) : contents (live rs) <+: contents rs := by
  have hprefix : live rs <+: rs := List.prefix_iff_getElem?.mpr fun i hi =>
    h.live_getElem? (List.getElem?_eq_getElem hi)
  obtain ⟨dead, hdead⟩ := hprefix
  refine ⟨contents dead, ?_⟩
  rw [← contents_append, hdead]

/-- A deleted record among as many as there are live ones, unless these come first. -/
theorem dead_of_not_liveFirst (h : ¬ LiveFirst rs) :
    ∃ p r, p < (live rs).length ∧ rs[p]? = some r ∧ r.dead = true := by
  by_contra hnone
  have halive : ∀ p r, p < (live rs).length → rs[p]? = some r → r.dead = false := by
    intro p r hp hr
    cases hdead : r.dead with
    | true => exact absurd ⟨p, r, hp, hr, hdead⟩ hnone
    | false => rfl
  have hfront : ∀ r ∈ rs.take (live rs).length, r.dead = false := by
    intro r hr
    obtain ⟨p, hp⟩ := List.getElem?_of_mem hr
    rw [List.getElem?_take] at hp
    split at hp
    · next hlt => exact halive p r hlt hp
    · cases hp
  have hkept : live (rs.take (live rs).length) = rs.take (live rs).length := by
    apply List.filter_eq_self.mpr
    intro r hr
    rw [hfront r hr]
    rfl
  have hle : (live rs).length ≤ rs.length := List.length_filter_le ..
  have hsplit := congrArg List.length
    (congrArg live (List.take_append_drop (live rs).length rs))
  rw [live_append, hkept, List.length_append, List.length_take, Nat.min_eq_left hle] at hsplit
  have hback : ∀ r ∈ rs.drop (live rs).length, r.dead = true := by
    intro r hr
    have hnil : live (rs.drop (live rs).length) = [] := List.length_eq_zero_iff.mp (by omega)
    simpa using List.filter_eq_nil_iff.mp hnil r hr
  apply h
  rw [LiveFirst, ← List.take_append_drop (live rs).length rs, List.pairwise_append]
  refine ⟨?_, ?_, ?_⟩
  · exact List.Pairwise.imp_of_mem (fun hr _ _ hdead => by rw [hfront _ hr] at hdead; cases hdead)
      (List.pairwise_of_forall fun _ _ => trivial)
  · exact List.Pairwise.imp_of_mem (fun _ hr' _ _ => hback _ hr')
      (List.pairwise_of_forall fun _ _ => trivial)
  · exact fun r _ r' hr' _ => hback r' hr'

/-! ### Selecting from files that do not fit together -/

/-- SELECT * returns as many rows as it has not skipped. -/
theorem selectLoop_length {rows : List Nat} {failed : Bool} {out : List Row}
    (h : selectLoop f names none rows failed = .ok out) :
    out.length = (rows.filter fun p => f.delete[p]? ≠ some 1).length := by
  induction rows generalizing failed out with
  | nil =>
      cases h
      rfl
  | cons row rows ih =>
      rw [selectLoop] at h
      cases hbyte : f.delete[row]? with
      | none =>
          rw [hbyte] at h
          cases h
      | some deleted =>
          simp only [hbyte] at h
          by_cases hdead : deleted = 1
          · rw [if_pos hdead] at h
            rw [ih h, List.filter_cons_of_neg (by simp [hbyte, hdead])]
          · rw [if_neg hdead] at h
            rw [List.filter_cons_of_pos (by simp [hbyte, hdead]), List.length_cons]
            cases hrow : readRow f names row failed with
            | error e =>
                rw [hrow] at h
                cases h
            | ok r =>
                rw [hrow] at h
                cases hrest : selectLoop f names none rows r.2 with
                | error e =>
                    simp only [bind, Except.bind, evaluateWhere, pure, Except.pure, hrest] at h
                    cases h
                | ok rest =>
                    simp only [bind, Except.bind, evaluateWhere, pure, Except.pure, hrest,
                      if_true, Except.ok.injEq] at h
                    rw [← h, List.length_cons, ih hrest]

theorem readColumns_blank {vs : List Text} (hnames : names.length = vs.length) (pos : Nat)
    (more : List Nat) (failed : Bool) (row : Row) :
    ∃ failed', readColumns [] names (offsets pos vs ++ more) failed row =
      .ok (fill row names (vs.map fun v => List.replicate v.length '\x00'), failed') := by
  induction vs generalizing names pos failed row with
  | nil =>
      obtain rfl := List.length_eq_zero_iff.mp hnames
      exact ⟨failed, rfl⟩
  | cons v vs ih =>
      cases names with
      | nil => cases hnames
      | cons name names =>
          have hread : (readText failed [] pos v.length).1 =
              List.replicate v.length '\x00' := by
            cases failed <;> simp [readText]
          obtain ⟨failed', hrest⟩ := ih (Nat.succ.inj hnames) (pos + v.length)
            (readText failed [] pos v.length).2
            (row.insert name (.text (List.replicate v.length '\x00')))
          refine ⟨failed', ?_⟩
          rw [offsets, List.cons_append, List.cons_append, readColumns,
            if_neg (Nat.not_lt.mpr (Nat.le_add_right _ _)), Nat.add_sub_cancel_left]
          simp only [hread]
          exact hrest

/-- With an empty data file every value reads as NULs. -/
theorem selectLoop_blank (hindex : f.index = layout 0 rs) (hdata : f.data = [])
    (hwidth : ∀ r ∈ rs, r.values.length = k)
    (halive : ∀ p < rs.length, f.delete[p]? = some 0) (hnames : names.length = k + 1)
    {done rest : List Record} (hrs : rs = done ++ rest) (failed : Bool) :
    selectLoop f names none (List.range' done.length rest.length) failed =
      .ok (rest.map fun r => rowOf names r.blank) := by
  induction rest generalizing done failed with
  | nil => rfl
  | cons r rest ih =>
      have hr : rs[done.length]? = some r := by rw [hrs]; simp
      have hlt : done.length < rs.length := (List.getElem?_eq_some_iff.mp hr).1
      have hdone : rs = (done ++ [r]) ++ rest := by rw [hrs, List.append_cons]
      obtain ⟨pos, more, hdrop, -⟩ := layout_drop hwidth hr
      cases names with
      | nil => cases hnames
      | cons first names =>
          have hlength : names.length = r.values.length := by
            rw [hwidth r (List.mem_of_getElem? hr)]
            exact Nat.succ.inj hnames
          obtain ⟨failed', hcolumns⟩ := readColumns_blank hlength pos more failed
            (SortedMap.empty.insert first (.text (digits r.id)))
          have hrow : readRow f (first :: names) done.length failed =
              .ok (rowOf (first :: names) r.blank, failed') := by
            unfold readRow
            rw [rowWords_eq hnames, hindex, hdrop, hdata]
            exact hcolumns
          have hnext := ih hdone failed'
          rw [List.length_append, List.length_singleton] at hnext
          rw [List.length_cons, List.range'_succ, selectLoop, halive _ hlt]
          simp only [hrow, bind, Except.bind, evaluateWhere, pure, Except.pure, hnext]
          rfl

/-! ### Every point of a crash -/

/-- The table with the index file of the vacuum, the old `.delete` file and some data. -/
def halfReplaced (t : TableState) (rs : List Record) (data : Text) : TableState :=
  { columns := t.columns, files := ⟨layout 0 (live rs), data, t.files.delete⟩ }

theorem Keeps.select_none (h : Keeps k t rs) :
    select none t = .ok (liveRows (allColumnNames t.columns) rs) := by
  rw [h.stores.readable.select h.columns, passing_none]

theorem Keeps.halfReplaced_alive (h : Keeps k t rs) (hfirst : LiveFirst rs)
    (hr : (live rs)[p]? = some r) : t.files.delete[p]? = some r.flag :=
  h.stores.flags p r (hfirst.live_getElem? hr)

/-- With a live record after a deleted one, rows get lost. -/
theorem Keeps.select_halfReplaced_ne (h : Keeps k t rs) (hfirst : ¬ LiveFirst rs) (data : Text) :
    select none (halfReplaced t rs data) ≠ select none t := by
  intro heq
  rw [h.select_none] at heq
  have hwidth : ∀ r ∈ live rs, r.values.length = k :=
    fun r hr => h.stores.width r (List.mem_filter.mp hr).1
  have hcount : rowCount (halfReplaced t rs data).files (allColumnNames t.columns) =
      (live rs).length := by
    rw [rowCount, h.rowWords]
    show (layout 0 (live rs)).length / _ = _
    rw [layout_length 0 hwidth]
    exact Nat.mul_div_cancel _ (by omega)
  obtain ⟨p, r, hp, hr, hdead⟩ := dead_of_not_liveFirst hfirst
  have hlength := selectLoop_length heq
  rw [liveRows, List.length_map] at hlength
  change (live rs).length = (List.filter _ (List.range (rowCount (halfReplaced t rs data).files
    (allColumnNames t.columns)))).length at hlength
  rw [hcount] at hlength
  have hlt : (List.filter (fun p => (halfReplaced t rs data).files.delete[p]? ≠ some 1)
      (List.range (live rs).length)).length < (List.range (live rs).length).length := by
    apply List.length_filter_lt_length_iff_exists.mpr
    refine ⟨p, List.mem_range.mpr hp, ?_⟩
    show ¬ decide (t.files.delete[p]? ≠ some 1) = true
    rw [h.delete_getElem? hr, Record.flag_eq_one.mpr hdead]
    decide
  rw [List.length_range, ← hlength] at hlt
  exact Nat.lt_irrefl _ hlt

/-- With the live records in front, nothing is missed. -/
theorem Keeps.select_halfReplaced (h : Keeps k t rs) (hfirst : LiveFirst rs) {data : Text}
    (hdata : contents (live rs) <+: data) :
    select none (halfReplaced t rs data) = select none t := by
  have hreadable : Readable k (halfReplaced t rs data).files (live rs) := by
    refine ⟨rfl, hdata, ?_, ?_⟩
    · exact fun r hr => h.stores.width r (List.mem_filter.mp hr).1
    · exact fun p r hr => h.halfReplaced_alive hfirst hr
  rw [hreadable.select h.columns, passing_none, h.select_none, liveRows, live_live, ← liveRows]
  rfl

/-- Without its contents, the data file is missed unless the rows read the same. -/
theorem Keeps.select_halfReplaced_nil (h : Keeps k t rs) (hfirst : LiveFirst rs) :
    select none (halfReplaced t rs []) = select none t ↔
      Blank (allColumnNames t.columns) rs := by
  have hwidth : ∀ r ∈ live rs, r.values.length = k :=
    fun r hr => h.stores.width r (List.mem_filter.mp hr).1
  have halive : ∀ p < (live rs).length, t.files.delete[p]? = some 0 := by
    intro p hp
    have hr := List.getElem?_eq_getElem hp
    have hlive : (live rs)[p].dead = false := by
      simpa using (List.mem_filter.mp (List.getElem_mem hp)).2
    rw [h.halfReplaced_alive hfirst hr, Record.flag, hlive]
    rfl
  have hcount : rowCount (halfReplaced t rs []).files (allColumnNames t.columns) =
      (live rs).length := by
    rw [rowCount, h.rowWords]
    show (layout 0 (live rs)).length / _ = _
    rw [layout_length 0 hwidth]
    exact Nat.mul_div_cancel _ (by omega)
  have hselect : select none (halfReplaced t rs []) =
      .ok ((live rs).map fun r => rowOf (allColumnNames t.columns) r.blank) := by
    show selectLoop (halfReplaced t rs []).files (allColumnNames t.columns) none (List.range
      (rowCount (halfReplaced t rs []).files (allColumnNames t.columns))) false = _
    have hindex : (halfReplaced t rs []).files.index = layout 0 (live rs) := rfl
    have hdata : (halfReplaced t rs []).files.data = [] := rfl
    rw [hcount, List.range_eq_range']
    exact selectLoop_blank hindex hdata hwidth halive (allColumnNames_length h.columns)
      (List.nil_append _).symm false
  rw [hselect, h.select_none, Except.ok.injEq, liveRows, List.map_inj_left]
  rfl

/-- What a restart finds after some of the replacing operations. -/
theorem Keeps.crash (h : Keeps k t rs) (m : Nat) :
    selectAfterRestart t.columns (applyOps (replaceOps.take m)
        ⟨.of t.files, .of (packed (live rs))⟩) = select none t ↔
      CrashSafe (allColumnNames t.columns) rs m := by
  have hmissing : ∀ d : Disk, d.table.index = none ∨ d.table.delete = none →
      selectAfterRestart t.columns d ≠ select none t := by
    intro d hd heq
    rw [h.select_none, selectAfterRestart, restart] at heq
    split at heq
    · cases heq
    · rcases hd with hd | hd
      · simp only [selectDisk, pure, Except.pure, bind, Except.bind, hd] at heq
        cases heq
      · cases hi : d.table.index <;>
          simp only [selectDisk, pure, Except.pure, bind, Except.bind, hd, hi] at heq <;>
          cases heq
  match m with
  | 0 => exact ⟨fun _ => trivial, fun _ => rfl⟩
  | 1 => exact ⟨fun heq => hmissing _ (.inl rfl) heq, False.elim⟩
  | 2 =>
      show select none (halfReplaced t rs t.files.data) = _ ↔ LiveFirst rs
      constructor
      · intro heq
        by_contra hfirst
        exact h.select_halfReplaced_ne hfirst _ heq
      · intro hfirst
        apply h.select_halfReplaced hfirst
        rw [h.stores.data]
        exact hfirst.contents_prefix
  | 3 =>
      show select none (halfReplaced t rs []) = _ ↔ LiveFirst rs ∧ _
      constructor
      · intro heq
        by_cases hfirst : LiveFirst rs
        · exact ⟨hfirst, (h.select_halfReplaced_nil hfirst).mp heq⟩
        · exact absurd heq (h.select_halfReplaced_ne hfirst _)
      · rintro ⟨hfirst, hblank⟩
        exact (h.select_halfReplaced_nil hfirst).mpr hblank
  | 4 =>
      show select none (halfReplaced t rs (contents (live rs))) = _ ↔ LiveFirst rs
      constructor
      · intro heq
        by_contra hfirst
        exact h.select_halfReplaced_ne hfirst _ heq
      · intro hfirst
        exact h.select_halfReplaced hfirst (List.prefix_refl _)
  | 5 => exact ⟨fun heq => hmissing _ (.inr rfl) heq, False.elim⟩
  | m + 6 =>
      have hdone : applyOps (replaceOps.take (m + 6)) ⟨.of t.files, .of (packed (live rs))⟩ =
          ⟨.of (packed (live rs)), {}⟩ := by
        rw [List.take_of_length_le (Nat.le_add_left 6 m)]
        rfl
      rw [hdone]
      refine ⟨fun _ => trivial, fun _ => ?_⟩
      have hselect := h.vacuum.2.select_none
      rw [h.vacuum.1, liveRows, live_live, ← liveRows, ← h.select_none] at hselect
      exact hselect

/-- In every state a table with one primary key gets into, and for every number of the
vacuum's file-system operations after which the process stops, SELECT returns after a restart
what it returned before exactly where `CrashSafe` says so: not with the `.index` or `.delete`
file removed, and with old and new files mixed only if no live record comes after a deleted
one (and, where the data file is gone, if there is nothing in it to miss). -/
theorem crash_exact (hone : OnePrimary columns) (stmts : List Statement) :
    ∃ ops, vacuumOps (run (createTable columns) stmts) = .ok ops ∧
      replaceOps.length ≤ ops.length ∧
      ∀ n, selectAfterRestart columns (applyOps (ops.take n)
          ⟨.of (run (createTable columns) stmts).files, {}⟩) =
            select none (run (createTable columns) stmts) ↔
        CrashSafe (allColumnNames columns) (records (run (createTable columns) stmts))
          (n - (ops.length - replaceOps.length)) := by
  have h := keeps_records hone stmts
  have hcolumns := (keeps_run hone stmts).1
  generalize run (createTable columns) stmts = t at h hcolumns
  subst hcolumns
  obtain ⟨writes, hok, hwrites, hfresh⟩ := h.vacuumOps
  refine ⟨_, hok, by rw [List.length_append]; omega, fun n => ?_⟩
  rw [List.length_append, Nat.add_sub_cancel, List.take_append]
  by_cases hn : n ≤ writes.length
  · have hzero : n - writes.length = 0 := by omega
    have htable : (applyOps (writes.take n) ⟨.of t.files, {}⟩).table = .of t.files :=
      applyOps_table (fun op hop => hwrites op (List.mem_of_mem_take hop)) _
    rw [hzero, List.take_zero, List.append_nil]
    generalize applyOps (writes.take n) ⟨.of t.files, {}⟩ = d at htable
    obtain ⟨files, fresh⟩ := d
    obtain rfl := htable
    exact ⟨fun _ => trivial, fun _ => rfl⟩
  · rw [List.take_of_length_le (by omega), applyOps_append, hfresh]
    exact h.crash _

theorem crash_exact_keyed : OnePrimary keyed ∧
    ∃ ops, vacuumOps oneRow = .ok ops ∧ replaceOps.length ≤ ops.length ∧
      ∀ n, selectAfterRestart keyed (applyOps (ops.take n) ⟨.of oneRow.files, {}⟩) =
          select none oneRow ↔
        CrashSafe (allColumnNames keyed) (records oneRow)
          (n - (ops.length - replaceOps.length)) :=
  have hone : OnePrimary keyed := rfl
  ⟨hone, crash_exact hone [.insert ⟨[['v']], [['a']]⟩]⟩

/-- With the old index file removed and the new one not yet in its place, SELECT fails. -/
theorem removedIndex_lost : ∃ ops, vacuumOps oneRow = .ok ops ∧
    selectAfterRestart keyed (applyOps (ops.take 9) ⟨.of oneRow.files, {}⟩) ≠
      select none oneRow := by
  refine ⟨_, rfl, ?_⟩
  intro heq
  have hok := congrArg Except.isOk heq
  revert hok
  decide

end NanoVault.Table
