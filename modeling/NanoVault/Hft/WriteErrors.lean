/-
What is left of the records when a write fails (`batchWrite` and `wait_all` in
`io_uring_queue.hpp` and `batchWriter.hpp`).

A call prepares a write at the queue's offset, moves the offset behind it, submits what has been
prepared and waits for one completion. It does not look at how many bytes have been written,
returns if nothing could be submitted, and throws without consuming the completion that says that
a write has failed. So the file is the concatenation of the records of the calls that have returned
exactly as long as every call is submitted, waits without being interrupted, and its write stores
all bytes (`writes_survive`). The file is there all the time.
-/
import NanoVault.Hft.BatchWriter

namespace NanoVault.Hft

open Lib NanoVault.Table

/-- The entries of the submission queue. -/
def ringEntries : Nat := 256

/-- A write that has been prepared, and the number of the call it belongs to. -/
structure Request where
  call : Nat
  length : Nat
  offset : Nat
deriving DecidableEq, Repr

/-- An `io_uring_cqe`. -/
structure Completion where
  call : Nat
  res : Int
deriving DecidableEq, Repr

/-- An `IoUringQueue` and its file: the prepared requests, and the completions nobody has seen. -/
structure IoUringQueue where
  file : Text
  offset : Nat
  submission : List Request := []
  completions : List Completion := []
deriving DecidableEq, Repr

/-- The constructor. -/
def IoUringQueue.ofFile (file : Text) : IoUringQueue := { file := file, offset := file.length }

/-- What the system does during a call: whether `io_uring_submit` and `io_uring_wait_cqe` succeed,
how many bytes the write of each call stores if it does not fail, and `pwrite`; what the buffer of
an earlier call holds by now; and the order in which the completions arrive. -/
structure Kernel where
  submits : Bool
  waits : Bool
  stored : Nat → Option Nat
  fallback : Option Nat
  buffer : Nat → Text
  order : List Completion → List Completion
  order_perm : ∀ l, (order l).Perm l

/-- A write of these bytes that stores as many of them, or none of them. -/
def storeBytes (file : Text) (offset : Nat) (bytes : Text) : Option Nat → Text
  | none => file
  | some r => if bytes.take r = [] then file else pwrite file offset (bytes.take r)

/-- What a write of this length reports. -/
def reported (length : Nat) : Option Nat → Int
  | none => -1
  | some r => (min r length : Nat)

/-- The file after the submitted requests; the buffer of the call is still there. -/
def Kernel.serve (kernel : Kernel) (call : Nat) (bytes : Text) (requests : List Request)
    (file : Text) : Text :=
  requests.foldl (fun file (r : Request) => storeBytes file r.offset
    (if r.call = call then bytes else (kernel.buffer r.call).take r.length)
    (kernel.stored r.call)) file

/-- `wait_all(1)`: the call whose completion has been seen; none if it throws. -/
def IoUringQueue.waitAll (q : IoUringQueue) (kernel : Kernel) : IoUringQueue × Option Nat :=
  if kernel.waits = false then (q, none)
  else
    match q.completions with
    | [] => (q, none)
    | c :: rest => if c.res < 0 then (q, none) else ({ q with completions := rest }, some c.call)

/-- How a call of `batchWrite` ends. -/
inductive WriteEnd where
  | returned
  /-- It returned when it had seen the completion of this call. -/
  | completed (call : Nat)
  | threw
deriving DecidableEq, Repr

/-- The end of a call behind `wait_all`. -/
def WriteEnd.ofSeen : Option Nat → WriteEnd
  | none => .threw
  | some call => .completed call

/-- `batchWrite`, as the call of this number. -/
def IoUringQueue.batchWrite (q : IoUringQueue) (call : Nat) (bytes : Text) (kernel : Kernel) :
    IoUringQueue × WriteEnd :=
  if bytes = [] then (q, .returned)
  else if ringEntries ≤ q.submission.length then
    ({ q with
      file := storeBytes q.file q.offset bytes kernel.fallback
      offset := q.offset + bytes.length }, .returned)
  else
    let requests := q.submission ++ [⟨call, bytes.length, q.offset⟩]
    let q := { q with submission := requests, offset := q.offset + bytes.length }
    if kernel.submits = false then (q, .returned)
    else
      let q := { q with
        file := kernel.serve call bytes requests q.file
        submission := []
        completions := q.completions ++ kernel.order
          (requests.map fun r : Request => ⟨r.call, reported r.length (kernel.stored r.call)⟩) }
      let w := q.waitAll kernel
      (w.1, .ofSeen w.2)

/-! ### Runs -/

/-- The queue, what the file held when it was opened, the calls so far, the bytes of those that
returned, and which completion each of them has seen. -/
structure Writing where
  queue : IoUringQueue
  start : Text
  calls : Nat := 0
  returned : List Text := []
  matched : List (Nat × Nat) := []

def Writing.call (s : Writing) (bytes : Text) (kernel : Kernel) : Writing :=
  let r := s.queue.batchWrite s.calls bytes kernel
  { s with
    queue := r.1
    calls := s.calls + 1
    returned := if r.2 = .threw then s.returned else s.returned ++ [bytes]
    matched :=
      match r.2 with
      | .completed seen => s.matched ++ [(s.calls, seen)]
      | _ => s.matched }

/-- The runs of a queue that has been opened on any file. -/
def writing : Machine Writing (Text × Kernel) where
  init s := ∃ file, s = { queue := .ofFile file, start := file }
  step s e s' := s' = s.call e.1 e.2

/-- Behind what it held, the file is the concatenation of the bytes of the calls that returned, and
every completion has been seen by its own call. -/
structure Survives (s : Writing) : Prop where
  file : s.queue.file = s.start ++ s.returned.flatten
  seen : s.queue.completions = []
  own : ∀ m ∈ s.matched, m.1 = m.2

/-- There is nothing to write, or the call is submitted, waits, and its write stores all bytes. -/
def Completes (s : Writing) (e : Text × Kernel) : Prop :=
  e.1 = [] ∨ e.2.submits = true ∧ e.2.waits = true ∧
    ∃ r, e.2.stored s.calls = some r ∧ e.1.length ≤ r

variable {s s' : Writing} {q : IoUringQueue} {bytes file : Text} {kernel : Kernel} {n : Nat}

/-! ### One call -/

/-- A queue that is ready for the next call: it stands at the end of its file. -/
structure Ready (q : IoUringQueue) : Prop where
  submission : q.submission = []
  completions : q.completions = []
  offset : q.offset = q.file.length

theorem order_singleton (kernel : Kernel) (c : Completion) : kernel.order [c] = [c] :=
  List.perm_singleton.mp (kernel.order_perm [c])

/-- The file after a write at its end. -/
theorem storeBytes_length (file bytes : Text) (r : Nat) :
    storeBytes file file.length bytes (some r) = file ++ bytes.take r := by
  rw [storeBytes]
  split
  · next hnone => rw [hnone, List.append_nil]
  · exact pwrite_length file _

/-- The queue behind the submission of a call that found it ready. -/
def IoUringQueue.served (q : IoUringQueue) (call : Nat) (bytes : Text) (kernel : Kernel) :
    IoUringQueue where
  file := storeBytes q.file q.offset bytes (kernel.stored call)
  offset := q.offset + bytes.length
  completions := [⟨call, reported bytes.length (kernel.stored call)⟩]

theorem Ready.unsubmitted (h : Ready q) (hbytes : bytes ≠ []) (hsubmits : kernel.submits = false)
    (call : Nat) : q.batchWrite call bytes kernel =
      ({ q with
        submission := [⟨call, bytes.length, q.offset⟩]
        offset := q.offset + bytes.length }, .returned) := by
  have hroom : ¬ ringEntries ≤ q.submission.length := by
    rw [h.submission]
    decide
  rw [IoUringQueue.batchWrite, if_neg hbytes, if_neg hroom, if_pos hsubmits, h.submission,
    List.nil_append]

theorem Ready.submitted (h : Ready q) (hbytes : bytes ≠ []) (hsubmits : kernel.submits = true)
    (call : Nat) : q.batchWrite call bytes kernel =
      (((q.served call bytes kernel).waitAll kernel).1,
        .ofSeen ((q.served call bytes kernel).waitAll kernel).2) := by
  have hroom : ¬ ringEntries ≤ q.submission.length := by
    rw [h.submission]
    decide
  rw [IoUringQueue.batchWrite, if_neg hbytes, if_neg hroom]
  dsimp only
  rw [if_neg (by rw [hsubmits]; exact Bool.noConfusion), h.submission, h.completions]
  simp only [List.nil_append, List.map_cons, List.map_nil, order_singleton, Kernel.serve,
    List.foldl_cons, List.foldl_nil, if_true]
  rfl

theorem reported_nonneg {r : Option Nat} : reported n r < 0 ↔ r = none := by
  cases r with
  | none => simp [reported]
  | some r =>
      simp only [reported, reduceCtorEq, iff_false]
      omega

/-- The end of a call that has been submitted. -/
theorem IoUringQueue.waitAll_served (q : IoUringQueue) (call : Nat) (bytes : Text)
    (kernel : Kernel) :
    (q.served call bytes kernel).waitAll kernel =
      if kernel.waits = true ∧ kernel.stored call ≠ none then
        ({ q.served call bytes kernel with completions := [] }, some call)
      else (q.served call bytes kernel, none) := by
  rw [waitAll]
  cases hwaits : kernel.waits with
  | false =>
      rw [if_pos rfl, if_neg]
      rintro ⟨h, -⟩
      cases h
  | true =>
      rw [if_neg Bool.noConfusion]
      dsimp only [served]
      by_cases hfails : kernel.stored call = none
      · rw [if_pos (reported_nonneg.mpr hfails), if_neg (fun h => h.2 hfails)]
      · rw [if_neg (reported_nonneg.not.mpr hfails), if_pos ⟨rfl, hfails⟩]

/-! ### All calls -/

/-- The states between the calls of a run without failures. -/
structure Intended (s : Writing) : Prop where
  ready : Ready s.queue
  survives : Survives s

theorem Writing.call_returned (hend : (s.queue.batchWrite s.calls bytes kernel).2 = .returned) :
    s.call bytes kernel = { s with
      queue := (s.queue.batchWrite s.calls bytes kernel).1
      calls := s.calls + 1
      returned := s.returned ++ [bytes] } := by
  rw [call, hend]
  rfl

theorem Writing.call_completed {seen : Nat}
    (hend : (s.queue.batchWrite s.calls bytes kernel).2 = .completed seen) :
    s.call bytes kernel = { s with
      queue := (s.queue.batchWrite s.calls bytes kernel).1
      calls := s.calls + 1
      returned := s.returned ++ [bytes]
      matched := s.matched ++ [(s.calls, seen)] } := by
  rw [call, hend]
  rfl

theorem Writing.call_queue (s : Writing) (bytes : Text) (kernel : Kernel) :
    (s.call bytes kernel).queue = (s.queue.batchWrite s.calls bytes kernel).1 := rfl

/-- Nothing to write. -/
theorem Intended.call_nil (h : Intended s) (kernel : Kernel) : Intended (s.call [] kernel) := by
  have hcall : s.queue.batchWrite s.calls [] kernel = (s.queue, .returned) := if_pos rfl
  rw [Writing.call_returned (by rw [hcall]), hcall]
  refine ⟨h.ready, ?_, h.survives.seen, h.survives.own⟩
  rw [h.survives.file, List.flatten_concat, List.append_nil]

/-- A call that returns has stored what it has been given, or the file lacks some of it. -/
theorem Intended.appended (h : Intended s) {got : Text} (hfile : file = s.queue.file ++ got)
    (bytes : Text) : file = s.start ++ (s.returned ++ [bytes]).flatten ↔ got = bytes := by
  rw [hfile, h.survives.file, List.flatten_concat, List.append_assoc,
    List.append_cancel_left_eq, List.append_cancel_left_eq]

/-- A call keeps the file intact exactly if it completes. -/
theorem Intended.call_iff (h : Intended s) (bytes : Text) (kernel : Kernel) :
    (Survives (s.call bytes kernel) ↔ Completes s (bytes, kernel)) ∧
      (Completes s (bytes, kernel) → Intended (s.call bytes kernel)) := by
  by_cases hbytes : bytes = []
  · subst hbytes
    have hnext := h.call_nil kernel
    exact ⟨⟨fun _ => .inl rfl, fun _ => hnext.survives⟩, fun _ => hnext⟩
  cases hsubmits : kernel.submits with
  | false =>
      have hcall := h.ready.unsubmitted hbytes hsubmits s.calls
      have hincomplete : ¬ Completes s (bytes, kernel) := by
        rintro (hnil | ⟨hon, -⟩)
        · exact hbytes hnil
        · cases hsubmits.symm.trans hon
      refine ⟨iff_of_false (fun hsurvives => ?_) hincomplete, fun hdone => absurd hdone hincomplete⟩
      have hfile := hsurvives.file
      rw [Writing.call_returned (by rw [hcall]), hcall] at hfile
      exact hbytes ((h.appended (List.append_nil _).symm bytes).mp hfile).symm
  | true =>
      have hcall := h.ready.submitted hbytes hsubmits s.calls
      have hcompletes : Completes s (bytes, kernel) ↔ kernel.waits = true ∧
          ∃ r, kernel.stored s.calls = some r ∧ bytes.length ≤ r := by
        rw [Completes]
        simp only [hbytes, hsubmits, true_and, false_or]
      rw [IoUringQueue.waitAll_served] at hcall
      by_cases hwaits : kernel.waits = true ∧ kernel.stored s.calls ≠ none
      · rw [if_pos hwaits] at hcall
        obtain ⟨r, hr⟩ := Option.ne_none_iff_exists'.mp hwaits.2
        have hfile : (s.queue.served s.calls bytes kernel).file =
            s.queue.file ++ bytes.take r := by
          rw [IoUringQueue.served, hr, h.ready.offset]
          exact storeBytes_length _ _ r
        have hall : bytes.take r = bytes ↔ Completes s (bytes, kernel) := by
          rw [hcompletes, List.take_eq_self_iff]
          constructor
          · intro hle
            exact ⟨hwaits.1, r, hr, hle⟩
          · rintro ⟨-, r', hr', hle⟩
            obtain rfl := Option.some.inj (hr.symm.trans hr')
            exact hle
        rw [Writing.call_completed (by rw [hcall]; rfl), hcall]
        have hown : ∀ m ∈ s.matched ++ [(s.calls, s.calls)], m.1 = m.2 := by
          intro m hm
          rcases List.mem_append.mp hm with hm | hm
          · exact h.survives.own m hm
          · rw [List.mem_singleton.mp hm]
        have hiff := h.appended hfile bytes
        refine ⟨⟨fun hsurvives => hall.mp (hiff.mp hsurvives.file),
          fun hdone => ⟨hiff.mpr (hall.mpr hdone), rfl, hown⟩⟩, fun hdone => ?_⟩
        refine ⟨⟨rfl, rfl, ?_⟩, hiff.mpr (hall.mpr hdone), rfl, hown⟩
        show s.queue.offset + bytes.length = (s.queue.served s.calls bytes kernel).file.length
        rw [hfile, hall.mpr hdone, List.length_append, h.ready.offset]
      · rw [if_neg hwaits] at hcall
        have hincomplete : ¬ Completes s (bytes, kernel) := by
          rw [hcompletes]
          rintro ⟨hon, r, hr, -⟩
          exact hwaits ⟨hon, by rw [hr]; exact Option.some_ne_none r⟩
        refine ⟨iff_of_false (fun hsurvives => ?_) hincomplete,
          fun hdone => absurd hdone hincomplete⟩
        have hseen := hsurvives.seen
        rw [Writing.call_queue, hcall] at hseen
        cases hseen

/-- In every run all of whose calls complete, the file is the concatenation of the bytes of the
calls that returned, and every completion has been seen by its own call; the first call that does
not complete ends this. -/
theorem writes_survive (h : writing.Reach Completes s) :
    Survives s ∧ ∀ e s', writing.step s e s' → (Survives s' ↔ Completes s e) := by
  have hintended : Intended s := by
    apply h.invariant
    · rintro s ⟨file, rfl⟩
      refine ⟨⟨rfl, rfl, rfl⟩, (List.append_nil file).symm, rfl, ?_⟩
      intro m hm
      cases hm
    · rintro s ⟨bytes, kernel⟩ s' hs hdone rfl
      exact (hs.call_iff bytes kernel).2 hdone
  refine ⟨hintended.survives, ?_⟩
  rintro ⟨bytes, kernel⟩ s' rfl
  exact (hintended.call_iff bytes kernel).1

/-- A system where every write stores at most so many bytes, and nothing fails. -/
def shortWrites (r : Nat) : Kernel where
  submits := true
  waits := true
  stored _ := some r
  fallback := some r
  buffer _ := []
  order l := l
  order_perm l := List.Perm.refl l

/-- A queue on an empty file. -/
def emptyFile : Writing := { queue := .ofFile [], start := [] }

theorem emptyFile_reached (ok : Writing → Text × Kernel → Prop) : writing.Reach ok emptyFile :=
  .init ⟨[], rfl⟩

/-- Two records are written behind what the file held. -/
def twoRecords : Writing :=
  (Writing.call { queue := .ofFile ['x'], start := ['x'] } ['a', 'b'] (shortWrites 2)).call
    ['c'] (shortWrites 2)

/-- Both have survived, and do no longer when a third is cut short. -/
theorem writes_survive_twoRecords : writing.Reach Completes twoRecords ∧
    twoRecords.queue.file = ['x', 'a', 'b', 'c'] ∧ Survives twoRecords ∧
    ¬ Survives (twoRecords.call ['d', 'e', 'f'] (shortWrites 2)) := by
  have hfirst : writing.Reach Completes
      (Writing.call { queue := .ofFile ['x'], start := ['x'] } ['a', 'b'] (shortWrites 2)) :=
    .step (i := (['a', 'b'], shortWrites 2)) (.init ⟨['x'], rfl⟩)
      (.inr ⟨rfl, rfl, 2, rfl, Nat.le_refl 2⟩) rfl
  have hsecond : writing.Reach Completes twoRecords :=
    .step (i := (['c'], shortWrites 2)) hfirst (.inr ⟨rfl, rfl, 2, rfl, by decide⟩) rfl
  obtain ⟨hsurvives, hnext⟩ := writes_survive hsecond
  refine ⟨hsecond, by decide, hsurvives, ?_⟩
  rw [hnext (['d', 'e', 'f'], shortWrites 2) _ rfl]
  rintro (hnil | ⟨-, -, r, hr, hle⟩)
  · cases hnil
  · obtain rfl := Option.some.inj hr
    exact absurd hle (by decide)

/-- One of two bytes is stored, and the call returns. -/
theorem record_torn : ∃ s, writing.Reach Machine.Any s ∧ s.returned = [['a', 'b']] ∧
    s.queue.file = ['a'] ∧ ¬ Survives s := by
  refine ⟨emptyFile.call ['a', 'b'] (shortWrites 1), ?_, rfl, rfl, ?_⟩
  · exact .step (emptyFile_reached _) (i := (['a', 'b'], shortWrites 1)) trivial rfl
  · intro h
    have hfile := h.file
    revert hfile
    decide

end NanoVault.Hft
