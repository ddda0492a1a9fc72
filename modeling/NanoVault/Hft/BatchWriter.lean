/-
The data file of an HFT table (`batchWriter.hpp`, `io_uring_queue.hpp`, `runVacuum` in
`initialLoad.hpp`).

CREATE HFT TABLE makes the same three files as CREATE TABLE, but only the data file is
used: a queue appends records of 8-byte numbers to it, at an offset of its own, and opens
the file again when it finds that it has been removed. The catalog vacuum takes the table for
one with rows. There are none in the index file, so that it replaces the data file by an empty
one: every record written before is lost (`record_lost`). And the queues are kept by symbol: a
table on the symbol of an earlier one takes over its queue, and its records go where that writes
to. `vacuum_spares` says when neither happens. A write is assumed to write all bytes.
-/
import NanoVault.Lib.Machine
import NanoVault.Table.Table

namespace NanoVault.Hft

open Lib NanoVault.Table

/-- The bytes of an `int64_t`, as they lie in memory. -/
def wordBytes (v : Int64) : Text :=
  (List.range 8).map fun i => Char.ofNat (v.toUInt64.toNat / 256 ^ i % 256)

def recordBytes (values : List Int64) : Text := values.flatMap wordBytes

/-! ### The queue -/

/-- An `IoUringQueue`: its offset, whether its descriptor was opened with `O_APPEND`, and
whether the file behind it has been removed. -/
structure Queue where
  offset : Nat
  appends : Bool := false
  unlinked : Bool := false
deriving DecidableEq, Repr

/-- The constructor. -/
def Queue.ofFile (file : Text) : Queue := { offset := file.length }

/-- Write at an offset; a gap is filled with zeros. -/
def pwrite (file : Text) (offset : Nat) (bytes : Text) : Text :=
  file.take offset ++ List.replicate (offset - file.length) '\x00' ++ bytes ++
    file.drop (offset + bytes.length)

/-- `batchWrite`: the queue and the file of this name afterwards. -/
def Queue.batchWrite (q : Queue) (file bytes : Text) : Queue × Text :=
  if bytes = [] then (q, file)
  else
    let q := if q.unlinked then { offset := file.length, appends := true } else q
    ({ q with offset := q.offset + bytes.length },
      if q.appends then file ++ bytes else pwrite file q.offset bytes)

/-- An entry of `batchWriterFileMap`, by the table whose data file is its `file_name`. -/
inductive TableQueue where
  | own (q : Queue)
  /-- The queue of an earlier table on the symbol, with the file that it writes to. -/
  | earlier
deriving DecidableEq, Repr

/-- The files of every table are replaced. -/
def TableQueue.unlink : TableQueue → TableQueue
  | .own q => .own { q with unlinked := true }
  | .earlier => .earlier

/-! ### The engine -/

/-- `generateHFTCreateStatement`: no column is primary or UNIQUE. -/
def createHftTable (columns : List (Text × ColumnType)) : TableState where
  columns := columns.map fun c => { name := c.1, type := c.2 }

/-- The catalog, split at the HFT table, and the state of its writer: `batchWriterFileMap`
and the symbol's entry of `symbolAccessArray`. The counter wraps where an `int32_t` overflows.
`written` are the records handed to `batchWrite` since the table was made. -/
structure Engine where
  before : List TableState
  table : TableState
  after : List TableState
  queue : Option TableQueue := none
  storageTicks : Int32 := -1
  count : Int32 := 0
  written : List (List Int64) := []

inductive Act where
  /-- `parseEnableBatchStatement`, which stores the ticks in an `int`. -/
  | enable (ticks : Int64)
  /-- `writeHFTDataToIndexFile`, where `getWritingData` returns these values. -/
  | tick (values : List Int64)
  /-- A complete run of `runVacuum`. -/
  | vacuum
deriving DecidableEq, Repr

/-- Vacuum every table; none if one of them ends the run with an exception. -/
def vacuumAll : List TableState → Option (List TableState)
  | [] => some []
  | t :: ts =>
      match vacuumTable t with
      | (_, some _) => none
      | (t, none) => (vacuumAll ts).map (t :: ·)

def Engine.enable (s : Engine) (ticks : Int64) : Engine :=
  { s with
    storageTicks := ticks.toInt32
    queue := some (s.queue.getD (.own (.ofFile s.table.files.data))) }

/-- The next packet makes a record. -/
def Engine.Due (s : Engine) : Prop := s.storageTicks ≤ s.count + 1 ∧ 0 < s.storageTicks

instance (s : Engine) : Decidable s.Due := inferInstanceAs (Decidable (_ ∧ _))

/-- A record is handed to the queue. What is in the file of an earlier table is left out. -/
def Engine.hand (s : Engine) (queue : TableQueue) (values : List Int64) : Engine :=
  match queue with
  | .own q =>
      let w := q.batchWrite s.table.files.data (recordBytes values)
      { s with
        queue := some (.own w.1)
        table := { s.table with files := { s.table.files with data := w.2 } }
        written := s.written ++ [values] }
  | .earlier => { s with written := s.written ++ [values] }

def Engine.tick (s : Engine) (values : List Int64) : Engine :=
  if s.Due then
    match s.queue with
    | none => { s with count := 0 }
    | some queue => { s with count := 0 }.hand queue values
  else { s with count := s.count + 1 }

/-- The files of every table are replaced, also the one the queue has open. -/
def Engine.vacuum (s : Engine) : Option Engine :=
  match vacuumAll s.before, vacuumTable s.table, vacuumAll s.after with
  | some before, (table, none), some after =>
      some { s with
        before := before
        table := table
        after := after
        queue := s.queue.map TableQueue.unlink }
  | _, _, _ => none

def Engine.next (s : Engine) : Act → Option Engine
  | .enable ticks => some (s.enable ticks)
  | .tick values => some (s.tick values)
  | .vacuum => s.vacuum

/-- What an earlier table on the symbol can leave in `batchWriterFileMap`. If it had the name of
the new one, its data file has been removed with it, or opened again behind that and emptied by
`createFile`. -/
def LeftOver (queue : Option TableQueue) : Prop :=
  ∀ q, queue = some (.own q) → q.unlinked = true ∨ q.appends = true

/-- The runs of the engine from a new HFT table in any catalog. Nothing sets back what the slot of
its symbol and `batchWriterFileMap` hold. -/
def engine : Machine Engine Act where
  init s := ∃ before columns after queue ticks count, LeftOver queue ∧ s =
    { before := before
      table := createHftTable columns
      after := after
      queue := queue
      storageTicks := ticks
      count := count }
  step s a s' := s.next a = some s'

/-- The bytes of all records written so far. -/
def Engine.bytes (s : Engine) : Text := s.written.flatMap recordBytes

/-- The data file is the concatenation of all records written so far. -/
def Intact (s : Engine) : Prop := s.table.files.data = s.bytes

/-- Vacuum runs only while nothing has been written, and no record that has bytes goes to the queue
of an earlier table. -/
def Spares (s : Engine) : Act → Prop
  | .enable _ => True
  | .tick values => s.Due → s.queue = some .earlier → recordBytes values = []
  | .vacuum => s.bytes = []

instance (s : Engine) : (a : Act) → Decidable (Spares s a)
  | .enable _ => inferInstanceAs (Decidable True)
  | .tick _ => inferInstanceAs (Decidable (_ → _ → _))
  | .vacuum => inferInstanceAs (Decidable (_ = _))

variable {s s' : Engine} {q : Queue} {a : Act} {file bytes : Text}

/-! ### What the data file holds -/

/-- The queue writes at the end of the file, or opens it again. -/
def Queue.AtEnd (q : Queue) (file : Text) : Prop :=
  q.unlinked = true ∨ q.appends = true ∨ q.offset = file.length

/-- The invariant of runs that spare the data file. -/
structure Kept (s : Engine) : Prop where
  index : s.table.files.index = []
  intact : Intact s
  atEnd : ∀ q, s.queue = some (.own q) → q.AtEnd s.table.files.data

theorem pwrite_length (file bytes : Text) : pwrite file file.length bytes = file ++ bytes := by
  simp [pwrite]

/-- A batch write at the end of the file appends its bytes, and leaves the queue there. -/
theorem Queue.batchWrite_atEnd (h : q.AtEnd file) (bytes : Text) :
    (q.batchWrite file bytes).2 = file ++ bytes ∧
      (q.batchWrite file bytes).1.AtEnd (file ++ bytes) := by
  rw [Queue.batchWrite]
  by_cases hbytes : bytes = []
  · rw [if_pos hbytes, hbytes, List.append_nil]
    exact ⟨rfl, h⟩
  · rw [if_neg hbytes]
    cases hunlinked : q.unlinked with
    | true => exact ⟨rfl, .inr (.inl rfl)⟩
    | false =>
        simp only [Bool.false_eq_true, if_false]
        cases happends : q.appends with
        | true => exact ⟨rfl, .inr (.inl rfl)⟩
        | false =>
            have hoffset : q.offset = file.length := by
              rcases h with h | h | h
              · rw [hunlinked] at h
                cases h
              · rw [happends] at h
                cases h
              · exact h
            simp only [Bool.false_eq_true, if_false, hoffset]
            refine ⟨pwrite_length file bytes, .inr (.inr ?_)⟩
            rw [List.length_append]

/-- Vacuum leaves a table without rows with empty files. -/
theorem vacuumTable_rowless {t : TableState} (h : t.files.index = []) :
    vacuumTable t = ({ t with files := {} }, none) := by
  simp [vacuumTable, vacuumLoop, h, pure, Except.pure]

theorem Kept.start (h : engine.init s) : Kept s := by
  obtain ⟨before, columns, after, queue, ticks, count, hqueue, rfl⟩ := h
  refine ⟨rfl, rfl, fun q hq => ?_⟩
  rcases hqueue q hq with hunlinked | happends
  · exact .inl hunlinked
  · exact .inr (.inl happends)

theorem Kept.enable (h : Kept s) (ticks : Int64) : Kept (s.enable ticks) := by
  refine ⟨h.index, h.intact, fun q hq => ?_⟩
  cases hqueue : s.queue with
  | none =>
      simp only [Engine.enable, hqueue, Option.getD_none, Option.some.injEq,
        TableQueue.own.injEq] at hq
      subst hq
      exact .inr (.inr rfl)
  | some queue =>
      simp only [Engine.enable, hqueue, Option.getD_some, Option.some.injEq] at hq
      subst hq
      exact h.atEnd q hqueue

theorem Engine.bytes_concat {values : List Int64} (h : s'.written = s.written ++ [values]) :
    s'.bytes = s.bytes ++ recordBytes values := by
  rw [bytes, h, List.flatMap_append, List.flatMap_singleton, bytes]

/-- A record that goes to the table's own queue is appended. -/
theorem Kept.hand_own (h : Kept s) (hqueue : s.queue = some (.own q)) (values : List Int64) :
    Kept (s.hand (.own q) values) := by
  obtain ⟨hfile, hend⟩ := Queue.batchWrite_atEnd (h.atEnd q hqueue) (recordBytes values)
  have hdata : (s.hand (.own q) values).table.files.data =
      s.table.files.data ++ recordBytes values := hfile
  refine ⟨h.index, ?_, fun q' hq' => ?_⟩
  · rw [Intact, hdata, h.intact]
    exact (Engine.bytes_concat rfl).symm
  · obtain rfl := TableQueue.own.inj (Option.some.inj hq')
    rw [hdata]
    exact hend

/-- A record that goes to the queue of an earlier table is missing, unless it has no bytes. -/
theorem Kept.hand_earlier (h : Kept s) (hqueue : s.queue = some .earlier) (values : List Int64) :
    (Intact (s.hand .earlier values) ↔ recordBytes values = []) ∧
      (recordBytes values = [] → Kept (s.hand .earlier values)) := by
  have hbytes : (s.hand .earlier values).bytes = s.bytes ++ recordBytes values :=
    Engine.bytes_concat rfl
  have hiff : Intact (s.hand .earlier values) ↔ recordBytes values = [] := by
    rw [Intact, hbytes, ← h.intact]
    exact List.self_eq_append_right
  refine ⟨hiff, fun hnone => ⟨h.index, hiff.mpr hnone, fun q hq => ?_⟩⟩
  cases hqueue.symm.trans hq

theorem Kept.counted (h : Kept s) (count : Int32) : Kept { s with count := count } :=
  ⟨h.index, h.intact, h.atEnd⟩

/-- A packet whose record is handed to a queue. -/
theorem Engine.tick_due {queue : TableQueue} (hdue : s.Due) (hqueue : s.queue = some queue)
    (values : List Int64) : s.tick values = { s with count := 0 }.hand queue values := by
  rw [tick, if_pos hdue, hqueue]

/-- A packet without a record, or without a queue for it. -/
theorem Engine.tick_idle (h : s.Due → s.queue = none) (values : List Int64) :
    ∃ count, s.tick values = { s with count := count } := by
  rw [tick]
  split
  · next hdue => exact ⟨0, by rw [h hdue]⟩
  · exact ⟨_, rfl⟩

/-- A packet keeps the data file intact exactly if its record does not go elsewhere. -/
theorem Kept.tick (h : Kept s) (values : List Int64) :
    (Intact (s.tick values) ↔ Spares s (.tick values)) ∧
      (Spares s (.tick values) → Kept (s.tick values)) := by
  by_cases hidle : s.Due → s.queue = none
  · obtain ⟨count, htick⟩ := Engine.tick_idle hidle values
    have hkept : Kept (s.tick values) := htick ▸ h.counted count
    refine ⟨iff_of_true hkept.intact fun hdue hearlier => ?_, fun _ => hkept⟩
    cases (hidle hdue).symm.trans hearlier
  · obtain ⟨hdue, hsome⟩ := Classical.not_imp.mp hidle
    obtain ⟨queue, hqueue⟩ := Option.ne_none_iff_exists'.mp hsome
    have hspares : Spares s (.tick values) ↔
        (s.queue = some .earlier → recordBytes values = []) := forall_prop_of_true hdue
    rw [hspares, Engine.tick_due hdue hqueue]
    cases queue with
    | own q =>
        have hkept := (h.counted 0).hand_own hqueue values
        refine ⟨iff_of_true hkept.intact fun hearlier => ?_, fun _ => hkept⟩
        cases hqueue.symm.trans hearlier
    | earlier =>
        obtain ⟨hiff, hkept⟩ := (h.counted 0).hand_earlier hqueue values
        have htrue : (s.queue = some .earlier → recordBytes values = []) ↔
            recordBytes values = [] := forall_prop_of_true hqueue
        exact ⟨hiff.trans htrue.symm, fun hnone => hkept (hnone hqueue)⟩

/-- A vacuum leaves an empty data file, whatever has been written to it. -/
theorem Kept.vacuum (h : Kept s) (hstep : s.vacuum = some s') :
    s'.table.files = {} ∧ s'.written = s.written ∧
      ∀ q, s'.queue = some (.own q) → q.unlinked = true := by
  rw [Engine.vacuum, vacuumTable_rowless h.index] at hstep
  split at hstep
  · next htable _ =>
      cases htable
      obtain rfl := Option.some.inj hstep
      refine ⟨rfl, rfl, fun q hq => ?_⟩
      obtain ⟨queue, -, hunlink⟩ := Option.map_eq_some_iff.mp hq
      cases queue with
      | own q' =>
          obtain rfl := TableQueue.own.inj hunlink
          rfl
      | earlier => cases hunlink
  · cases hstep

/-- A step keeps the data file intact exactly if it meets the condition. -/
theorem Kept.next (h : Kept s) (hstep : s.next a = some s') :
    (Intact s' ↔ Spares s a) ∧ (Spares s a → Kept s') := by
  cases a with
  | enable ticks =>
      obtain rfl := Option.some.inj hstep
      have hkept := h.enable ticks
      exact ⟨iff_of_true hkept.intact trivial, fun _ => hkept⟩
  | tick values =>
      obtain rfl := Option.some.inj hstep
      exact h.tick values
  | vacuum =>
      obtain ⟨hfiles, hwritten, hqueue⟩ := h.vacuum hstep
      have hiff : Intact s' ↔ s.bytes = [] := by
        rw [Intact, Engine.bytes, hfiles, hwritten]
        exact eq_comm
      refine ⟨hiff, fun hnone => ⟨by rw [hfiles], hiff.mpr hnone, fun q hq => ?_⟩⟩
      exact .inl (hqueue q hq)

/-- In a run that vacuums only while nothing has been written, and hands no record to the queue of
an earlier table, the data file always is the concatenation of the records written so far; the first
step that does not meet this breaks it. -/
theorem vacuum_spares (h : engine.Reach Spares s) :
    Intact s ∧ ∀ a s', s.next a = some s' → (Intact s' ↔ Spares s a) := by
  have hkept : Kept s := h.invariant (fun _ => Kept.start) fun _ _ _ hs hok hstep =>
    (hs.next hstep).2 hok
  exact ⟨hkept.intact, fun a s' hstep => (hkept.next hstep).1⟩

/-- An HFT table with one column, alone in its catalog. -/
def quotes : Engine := { before := [], table := createHftTable [(['q'], .int)], after := [] }

theorem quotes_reached (ok : Engine → Act → Prop) : engine.Reach ok quotes := by
  refine .init ⟨[], _, [], none, -1, 0, fun q hq => ?_, rfl⟩
  cases hq

/-- A vacuum finds no record yet, and two are written behind it; the next vacuum removes them. -/
theorem vacuum_spares_twoQuotes : ∃ s,
    Machine.replay Engine.next (fun s a => decide (Spares s a)) quotes
      [.enable 1, .vacuum, .tick [7], .tick [8]] = some s ∧
    s.written = [[7], [8]] ∧ Intact s ∧ ∀ s', s.next .vacuum = some s' → ¬ Intact s' := by
  obtain ⟨s, hs⟩ : ∃ s, Machine.replay Engine.next (fun s a => decide (Spares s a)) quotes
      [.enable 1, .vacuum, .tick [7], .tick [8]] = some s := ⟨_, rfl⟩
  have hreached : engine.Reach Spares s :=
    (quotes_reached _).replay (fun _ _ _ h => h) (fun _ _ => of_decide_eq_true) hs
  obtain ⟨hintact, hexact⟩ := vacuum_spares hreached
  have hwritten : s.written = [[7], [8]] := by
    obtain rfl := Option.some.inj hs
    rfl
  refine ⟨s, hs, hwritten, hintact, fun s' hstep hkept => ?_⟩
  have hnone : s.bytes = [] := (hexact .vacuum s' hstep).mp hkept
  rw [Engine.bytes, hwritten] at hnone
  revert hnone
  decide

/-- A record is written, the catalog is vacuumed, and the record is gone. -/
theorem record_lost : ∃ s, engine.Reach Machine.Any s ∧ s.written = [[7]] ∧ ¬ Intact s := by
  obtain ⟨s, hs⟩ : ∃ s, Machine.replay Engine.next (fun _ _ => true) quotes
      [.enable 1, .tick [7], .vacuum] = some s := ⟨_, rfl⟩
  refine ⟨s, (quotes_reached _).replay (fun _ _ _ h => h) (fun _ _ _ => trivial) hs, ?_⟩
  obtain rfl := Option.some.inj hs
  refine ⟨rfl, ?_⟩
  rw [Intact]
  decide

end NanoVault.Hft
