/-
The locks of the table statements (`generator.hpp`, `selectAstEvaluator.hpp`, `SQL_PARSER.hpp`,
`initialLoad.hpp`, `utility.hpp`).

INSERT, SELECT, UPDATE and DELETE hold a guard on the mutex of their table, and so does each turn
of the vacuum, which also holds the mutex of the database. CREATE TABLE holds the mutex of the
database only, and unlocks the mutex of its table by hand in its last line. A statement is the list
of what it does with the mutexes; an exception destroys the guards its thread has. As long as no
CREATE TABLE reaches its last line, every mutex is unlocked by the thread that holds it and no two
threads are in the section of one table; that line always unlocks a mutex its thread does not hold
(`own_unlocks_iff`).
-/
import NanoVault.Lib.Machine
import Mathlib.Data.List.Nodup
import Mathlib.Logic.Function.Basic

namespace NanoVault.Table.Locks

/-- `dbMutex` and `tableLocks[name]`. -/
inductive Mutex where
  | db
  | table (name : String)
deriving DecidableEq, Repr

inductive Op where
  /-- A `lock_guard` is constructed. -/
  | lock (m : Mutex)
  /-- A `lock_guard` is destroyed. -/
  | release (m : Mutex)
  /-- The check that the table is new, and its entry in `globalTableCache`. -/
  | register (name : String)
  /-- `unlock()`, called by hand. -/
  | unlock (m : Mutex)
deriving DecidableEq, Repr

inductive Statement where
  | createTable (name : String)
  | insert (name : String)
  | select (name : String)
  | update (name : String)
  | delete (name : String)
  | vacuum (names : List String)
deriving Repr

/-- A statement under the lock of its table. -/
def tableSection (name : String) : List Op := [.lock (.table name), .release (.table name)]

/-- What a statement does with the mutexes. `parseUpdateStatement` has a guard of its own, and
`runVacuum` keeps its guard over all tables. -/
def Statement.ops : Statement → List Op
  | .createTable name =>
      [.lock .db, .register name, .unlock (.table name), .release .db]
  | .insert name => tableSection name
  | .select name => tableSection name
  | .update name => [.lock .db, .release .db] ++ tableSection name
  | .delete name => tableSection name
  | .vacuum names => [.lock .db] ++ names.flatMap tableSection ++ [.release .db]

/-- What a thread has still to do, and the guards it has, the last one first. -/
structure Thread where
  rest : List Op := []
  guards : List Mutex := []
deriving DecidableEq

abbrev ThreadId := Nat

structure State where
  owner : Mutex → Option ThreadId
  threads : ThreadId → Thread
  tables : List String

inductive Act where
  | start (stmt : Statement)
  | exec
  | throw

/-- An exception leaves the destructors of the guards. -/
def Thread.unwind (th : Thread) : Thread := { th with rest := th.guards.map .release }

def State.setThread (s : State) (t : ThreadId) (th : Thread) : State :=
  { s with threads := Function.update s.threads t th }

def State.setOwner (s : State) (m : Mutex) (o : Option ThreadId) : State :=
  { s with owner := Function.update s.owner m o }

/-- The next operation of a thread. A mutex is locked when nobody holds it, and unlocked whoever
holds it. -/
def exec (s : State) (t : ThreadId) : Option State :=
  let th := s.threads t
  match th.rest with
  | [] => none
  | .lock m :: rest =>
      if s.owner m = none then
        some ((s.setOwner m (some t)).setThread t { rest := rest, guards := m :: th.guards })
      else none
  | .release m :: rest =>
      some ((s.setOwner m none).setThread t { rest := rest, guards := th.guards.erase m })
  | .register name :: rest =>
      if name ∈ s.tables then some (s.setThread t th.unwind)
      else some ({ s with tables := name :: s.tables }.setThread t { th with rest := rest })
  | .unlock m :: rest =>
      some ((s.setOwner m none).setThread t { th with rest := rest })

def step (s : State) (l : ThreadId × Act) : Option State :=
  match l.2 with
  | .start stmt =>
      if s.threads l.1 = {} then some (s.setThread l.1 { rest := stmt.ops }) else none
  | .exec => exec s l.1
  | .throw =>
      if (s.threads l.1).rest ≠ [] then some (s.setThread l.1 (s.threads l.1).unwind) else none

/-- Idle threads, free mutexes and these tables. -/
def initial (tables : List String) : State where
  owner _ := none
  threads _ := {}
  tables := tables

/-- Any number of threads, in any interleaving. -/
def machine (tables : List String) : Lib.Machine State (ThreadId × Act) :=
  .ofFun (initial tables) step

/-- The thread has locked the table and its guard is still there. -/
def State.Inside (s : State) (t : ThreadId) (name : String) : Prop :=
  .table name ∈ (s.threads t).guards

instance (s : State) (t : ThreadId) (name : String) : Decidable (s.Inside t name) :=
  inferInstanceAs (Decidable (_ ∈ _))

/-- No two threads are inside the section of one table. -/
def Exclusive (s : State) : Prop := ∀ t u name, s.Inside t name → s.Inside u name → t = u

/-- The mutex the thread is about to unlock. -/
def State.unlocking (s : State) (l : ThreadId × Act) : Option Mutex :=
  match l.2, (s.threads l.1).rest with
  | .exec, .release m :: _ => some m
  | .exec, .unlock m :: _ => some m
  | _, _ => none

/-- A thread only unlocks what it holds. -/
def Disciplined (s : State) (l : ThreadId × Act) : Prop :=
  ∀ m, s.unlocking l = some m → s.owner m = some l.1

/-- The thread is about to execute the last line of CREATE TABLE. -/
def LastLine (s : State) (l : ThreadId × Act) : Prop :=
  l.2 = .exec ∧ ∃ name rest, (s.threads l.1).rest = .unlock (.table name) :: rest

/-- The steps other than that line. -/
def BeforeLastLine (s : State) (l : ThreadId × Act) : Prop := ¬ LastLine s l

/-- The test of `BeforeLastLine`. -/
def beforeLastLine (s : State) (l : ThreadId × Act) : Bool :=
  match l.2, (s.threads l.1).rest with
  | .exec, .unlock (.table _) :: _ => false
  | _, _ => true

/-- The check decides the condition. -/
theorem beforeLastLine_sound (s : State) (l : ThreadId × Act) (h : beforeLastLine s l = true) :
    BeforeLastLine s l := by
  obtain ⟨t, act⟩ := l
  rintro ⟨rfl, name, rest, hrest⟩
  simp only [beforeLastLine, hrest, Bool.false_eq_true] at h

/-! ### The guards of a thread -/

/-- With these guards, the operations release each guard and no other mutex, and unlock by hand
only a table the thread has not locked. -/
def Fits : List Op → List Mutex → Prop
  | [], guards => guards = []
  | .lock m :: rest, guards => Fits rest (m :: guards)
  | .release m :: rest, guards => ∃ others, guards = m :: others ∧ Fits rest others
  | .register _ :: rest, guards => Fits rest guards
  | .unlock m :: rest, guards => m ≠ .db ∧ m ∉ guards ∧ Fits rest guards

/-- Unwinding releases what is held. -/
theorem Fits.unwind (guards : List Mutex) : Fits (guards.map .release) guards := by
  induction guards with
  | nil => rfl
  | cons m guards ih => exact ⟨guards, rfl, ih⟩

/-- A table's section takes and releases its mutex. -/
theorem Fits.tableSection {rest : List Op} {guards : List Mutex} (name : String)
    (h : Fits rest guards) : Fits (tableSection name ++ rest) guards :=
  ⟨guards, rfl, h⟩

theorem Fits.tableSections {rest : List Op} {guards : List Mutex} (names : List String)
    (h : Fits rest guards) : Fits (names.flatMap Locks.tableSection ++ rest) guards := by
  induction names with
  | nil => exact h
  | cons name names ih =>
      rw [List.flatMap_cons, List.append_assoc]
      exact ih.tableSection name

/-- Every statement takes and releases in turn. -/
theorem Statement.fits (stmt : Statement) : Fits stmt.ops [] := by
  have hend : Fits [] [] := rfl
  cases stmt with
  | createTable name => exact ⟨by simp, by simp, [], rfl, hend⟩
  | insert name => exact hend.tableSection name
  | select name => exact hend.tableSection name
  | update name => exact ⟨[], rfl, hend.tableSection name⟩
  | delete name => exact hend.tableSection name
  | vacuum names =>
      have hrelease : Fits [.release .db] [.db] := ⟨[], rfl, hend⟩
      exact hrelease.tableSections names

/-! ### The invariants -/

/-- What every run keeps: a thread's operations fit its guards, and the owner of a mutex has a
guard on it. -/
structure Guarded (s : State) : Prop where
  fits : ∀ t, Fits (s.threads t).rest (s.threads t).guards
  owned : ∀ m t, s.owner m = some t → m ∈ (s.threads t).guards

/-- What the runs without that line keep besides: who has a guard on a mutex owns it. -/
structure Owned (s : State) : Prop where
  nodup : ∀ t, (s.threads t).guards.Nodup
  owner : ∀ m t, m ∈ (s.threads t).guards → s.owner m = some t

variable {s s' : State} {l : ThreadId × Act} {t : ThreadId} {th : Thread} {m : Mutex}

/-- Only the thread that takes the step changes, and only its own claims to mutexes. -/
theorem Guarded.update {owner' : Mutex → Option ThreadId} {tables' : List String}
    (h : Guarded s) (hfits : Fits th.rest th.guards)
    (hown : ∀ m, owner' m = some t → m ∈ th.guards)
    (hothers : ∀ m u, u ≠ t → owner' m = some u → s.owner m = some u) :
    Guarded { owner := owner', threads := Function.update s.threads t th, tables := tables' } := by
  constructor
  · intro u
    by_cases hu : u = t
    · subst hu
      simpa using hfits
    · simpa [Function.update_of_ne hu] using h.fits u
  · intro m u hm
    by_cases hu : u = t
    · subst hu
      simpa using hown m hm
    · simpa [Function.update_of_ne hu] using h.owned m u (hothers m u hu hm)

theorem Owned.update {owner' : Mutex → Option ThreadId} {tables' : List String}
    (h : Owned s) (hnodup : th.guards.Nodup)
    (hown : ∀ m ∈ th.guards, owner' m = some t)
    (hothers : ∀ m u, u ≠ t → s.owner m = some u → owner' m = some u) :
    Owned { owner := owner', threads := Function.update s.threads t th, tables := tables' } := by
  constructor
  · intro u
    by_cases hu : u = t
    · subst hu
      simpa using hnodup
    · simpa [Function.update_of_ne hu] using h.nodup u
  · intro m u hm
    by_cases hu : u = t
    · subst hu
      exact hown m (by simpa using hm)
    · exact hothers m u hu (h.owner m u (by simpa [Function.update_of_ne hu] using hm))

/-- A mutex is given to nobody but the thread that takes the step. -/
theorem eq_of_update_owner {o : Option ThreadId} {u : ThreadId} (hu : o ≠ some u) {m' : Mutex}
    (h : Function.update s.owner m o m' = some u) : m' ≠ m ∧ s.owner m' = some u := by
  by_cases hm : m' = m
  · subst hm
    exact absurd (by simpa using h) hu
  · exact ⟨hm, by simpa [Function.update_of_ne hm] using h⟩

/-- Every step keeps the sections matched with what is held. -/
theorem Guarded.step (h : Guarded s) (hstep : step s l = some s') : Guarded s' := by
  obtain ⟨t, act⟩ := l
  have hfits := h.fits t
  cases act with
  | start stmt =>
      simp only [Locks.step, Option.ite_none_right_eq_some, Option.some.injEq] at hstep
      obtain ⟨hidle, rfl⟩ := hstep
      apply h.update stmt.fits
      · intro m hm
        have := h.owned m t hm
        simp [hidle] at this
      · exact fun m u _ hm => hm
  | throw =>
      simp only [Locks.step, Option.ite_none_right_eq_some, Option.some.injEq] at hstep
      obtain ⟨-, rfl⟩ := hstep
      exact h.update (Fits.unwind _) (fun m hm => h.owned m t hm) (fun m u _ hm => hm)
  | exec =>
      simp only [Locks.step, exec] at hstep
      split at hstep
      · cases hstep
      · next m rest hrest =>
          rw [hrest] at hfits
          simp only [Option.ite_none_right_eq_some, Option.some.injEq] at hstep
          obtain ⟨-, rfl⟩ := hstep
          apply h.update hfits
          · intro m' hm'
            by_cases hm : m' = m
            · exact hm ▸ List.mem_cons_self
            · exact List.mem_cons_of_mem _ (h.owned m' t (by simpa [State.setOwner, hm] using hm'))
          · intro m' u hu hm'
            exact (eq_of_update_owner (by simpa using Ne.symm hu) hm').2
      · next m rest hrest =>
          rw [hrest] at hfits
          obtain ⟨others, hguards, hfits⟩ := hfits
          simp only [Option.some.injEq] at hstep
          subst hstep
          rw [hguards, List.erase_cons_head]
          apply h.update hfits
          · intro m' hm'
            obtain ⟨hne, hold⟩ := eq_of_update_owner (by simp) hm'
            have := h.owned m' t hold
            rw [hguards] at this
            exact (List.mem_cons.mp this).resolve_left hne
          · exact fun m' u _ hm' => (eq_of_update_owner (by simp) hm').2
      · next name rest hrest =>
          rw [hrest] at hfits
          split at hstep
          · cases hstep
            exact h.update (Fits.unwind _) (fun m hm => h.owned m t hm) (fun m u _ hm => hm)
          · cases hstep
            exact h.update hfits (fun m hm => h.owned m t hm) (fun m u _ hm => hm)
      · next m rest hrest =>
          rw [hrest] at hfits
          obtain ⟨-, -, hfits⟩ := hfits
          cases hstep
          exact h.update hfits (fun m' hm' => h.owned m' t (eq_of_update_owner (by simp) hm').2)
            (fun m' u _ hm' => (eq_of_update_owner (by simp) hm').2)

/-- A step before the last line keeps each mutex with its one holder. -/
theorem Owned.step (h : Owned s) (hg : Guarded s) (hok : BeforeLastLine s l)
    (hstep : step s l = some s') : Owned s' := by
  obtain ⟨t, act⟩ := l
  have hfits := hg.fits t
  cases act with
  | start stmt =>
      simp only [Locks.step, Option.ite_none_right_eq_some, Option.some.injEq] at hstep
      obtain ⟨-, rfl⟩ := hstep
      exact h.update List.nodup_nil (fun m hm => absurd hm List.not_mem_nil) (fun m u _ hm => hm)
  | throw =>
      simp only [Locks.step, Option.ite_none_right_eq_some, Option.some.injEq] at hstep
      obtain ⟨-, rfl⟩ := hstep
      exact h.update (h.nodup t) (fun m hm => h.owner m t hm) (fun m u _ hm => hm)
  | exec =>
      simp only [Locks.step, exec] at hstep
      split at hstep
      · cases hstep
      · next m rest hrest =>
          simp only [Option.ite_none_right_eq_some, Option.some.injEq] at hstep
          obtain ⟨hfree, rfl⟩ := hstep
          -- The mutex was free, so the thread did not have it.
          have hnew : m ∉ (s.threads t).guards := fun hm => by
            have := h.owner m t hm
            rw [hfree] at this
            cases this
          apply h.update (List.nodup_cons.mpr ⟨hnew, h.nodup t⟩)
          · intro m' hm'
            rcases List.mem_cons.mp hm' with rfl | hm'
            · simp [State.setOwner]
            · have hne : m' ≠ m := fun heq => hnew (heq ▸ hm')
              simpa [State.setOwner, hne] using h.owner m' t hm'
          · intro m' u _ hm'
            have hne : m' ≠ m := fun heq => by
              rw [heq, hfree] at hm'
              cases hm'
            simpa [State.setOwner, hne] using hm'
      · next m rest hrest =>
          -- The guard that is released is the one the thread has taken last.
          rw [hrest] at hfits
          obtain ⟨others, hguards, -⟩ := hfits
          simp only [Option.some.injEq] at hstep
          subst hstep
          have hnodup := h.nodup t
          rw [hguards, List.nodup_cons] at hnodup
          have hm : s.owner m = some t := h.owner m t (hguards ▸ List.mem_cons_self)
          rw [hguards, List.erase_cons_head]
          apply h.update hnodup.2
          · intro m' hm'
            have hne : m' ≠ m := fun heq => hnodup.1 (heq ▸ hm')
            have := h.owner m' t (hguards ▸ List.mem_cons_of_mem _ hm')
            simpa [State.setOwner, hne] using this
          · intro m' u hu hm'
            have hne : m' ≠ m := fun heq => by
              rw [heq, hm] at hm'
              exact hu (Option.some.inj hm').symm
            simpa [State.setOwner, hne] using hm'
      · next name rest hrest =>
          split at hstep
          · cases hstep
            exact h.update (h.nodup t) (fun m hm => h.owner m t hm) (fun m u _ hm => hm)
          · cases hstep
            exact h.update (h.nodup t) (fun m hm => h.owner m t hm) (fun m u _ hm => hm)
      · next m rest hrest =>
          rw [hrest] at hfits
          cases m with
          | db => exact absurd rfl hfits.1
          | table name => exact absurd ⟨rfl, name, rest, hrest⟩ hok

theorem guarded_initial (tables : List String) : Guarded (initial tables) where
  fits _ := rfl
  owned _ _ h := by cases h

theorem owned_initial (tables : List String) : Owned (initial tables) where
  nodup _ := List.nodup_nil
  owner _ _ h := by cases h

/-- Every run keeps the first invariant. -/
theorem guarded_of_reach {tables : List String} {ok : State → ThreadId × Act → Prop}
    (hs : (machine tables).Reach ok s) : Guarded s := by
  apply hs.invariant
  · rintro s rfl
    exact guarded_initial tables
  · intro s l s' h _ hstep
    exact h.step hstep

/-- The runs in which no CREATE TABLE reaches its last line keep the second one. -/
theorem owned_of_reach {tables : List String} (hs : (machine tables).Reach BeforeLastLine s) :
    Owned s := by
  have h : Guarded s ∧ Owned s := by
    apply hs.invariant (I := fun s => Guarded s ∧ Owned s)
    · rintro s rfl
      exact ⟨guarded_initial tables, owned_initial tables⟩
    · intro s l s' h hok hstep
      exact ⟨h.1.step hstep, h.2.step h.1 hok hstep⟩
  exact h.2

/-! ### Who unlocks, and who is inside -/

/-- A mutex with one holder lets one thread inside. -/
theorem Owned.exclusive (h : Owned s) : Exclusive s := by
  intro t u name ht hu
  have howner := h.owner _ t ht
  rw [h.owner _ u hu] at howner
  exact (Option.some.inj howner).symm

/-- A guard unlocks a mutex of its thread. -/
theorem Owned.disciplined (h : Owned s) (hg : Guarded s) (hl : BeforeLastLine s l) :
    Disciplined s l := by
  obtain ⟨t, act⟩ := l
  intro m hm
  have hfits := hg.fits t
  simp only [State.unlocking] at hm
  split at hm
  · next rest hrest =>
      cases hm
      rw [hrest] at hfits
      obtain ⟨others, hguards, -⟩ := hfits
      exact h.owner m t (hguards ▸ List.mem_cons_self)
  · next rest hrest =>
      cases hm
      rw [hrest] at hfits
      cases m with
      | db => exact absurd rfl hfits.1
      | table name => exact absurd ⟨rfl, name, rest, hrest⟩ hl
  · cases hm

/-- The last line of CREATE TABLE unlocks a mutex its thread does not hold. -/
theorem Guarded.not_disciplined (hg : Guarded s) (hl : LastLine s l) : ¬ Disciplined s l := by
  obtain ⟨t, act⟩ := l
  obtain ⟨rfl, name, rest, hrest⟩ := hl
  intro hdisciplined
  have hfits := hg.fits t
  rw [hrest] at hfits
  have howner := hdisciplined (.table name) (by simp only [State.unlocking, hrest])
  exact hfits.2.1 (hg.owned _ t howner)

/-- While no CREATE TABLE has reached its last line, no two threads are inside the section of one
table, and a step unlocks only what its thread holds exactly if it is not that line. -/
theorem own_unlocks_iff (tables : List String) (s : State)
    (hs : (machine tables).Reach BeforeLastLine s) :
    Exclusive s ∧ ∀ l s', step s l = some s' → (Disciplined s l ↔ BeforeLastLine s l) := by
  have hg := guarded_of_reach hs
  have ho := owned_of_reach hs
  refine ⟨ho.exclusive, ?_⟩
  intro l s' _
  constructor
  · intro hdisciplined hl
    exact hg.not_disciplined hl hdisciplined
  · exact ho.disciplined hg

/-- An INSERT is inside its table. -/
def oneInside : List (ThreadId × Act) := [(0, .start (.insert "t")), (0, .exec)]

/-- Meanwhile CREATE TABLE comes to its last line. -/
def atLastLine : List (ThreadId × Act) :=
  oneInside ++ [(2, .start (.createTable "t")), (2, .exec), (2, .exec)]

/-- It unlocks the table, and another INSERT locks it. -/
def twoInside : List (ThreadId × Act) :=
  atLastLine ++ [(2, .exec), (1, .start (.insert "t")), (1, .exec)]

/-- While an INSERT is inside its table, an UPDATE waits for the table, a DELETE is inside another
one, and CREATE TABLE has come to its last line. -/
def fourThreads : List (ThreadId × Act) :=
  oneInside ++ [(1, .start (.update "t")), (1, .exec), (1, .exec), (2, .start (.delete "u")),
    (2, .exec), (3, .start (.createTable "v")), (3, .exec), (3, .exec)]

theorem own_unlocks_iff_fourThreads : ∃ s, (machine []).Reach BeforeLastLine s ∧
    s.Inside 0 "t" ∧ (step s (1, .exec)).isNone ∧ s.Inside 2 "u" ∧ Exclusive s ∧
    ∀ l s', step s l = some s' → (Disciplined s l ↔ BeforeLastLine s l) := by
  have hrun : (Lib.Machine.replay step beforeLastLine (initial []) fourThreads).any
      (fun s => s.Inside 0 "t" ∧ (step s (1, .exec)).isNone ∧ s.Inside 2 "u") = true := by
    decide
  rw [Option.any_eq_true] at hrun
  obtain ⟨s, hs, hend⟩ := hrun
  obtain ⟨hfirst, hwaits, hother⟩ := of_decide_eq_true hend
  have hreach : (machine []).Reach BeforeLastLine s :=
    .of_replay beforeLastLine_sound (.init rfl) hs
  exact ⟨s, hreach, hfirst, hwaits, hother, own_unlocks_iff [] s hreach⟩

theorem not_disciplined_createTable :
    (∃ s, (machine []).Reach Lib.Machine.Any s ∧ s.unlocking (2, .exec) = some (.table "t") ∧
      s.owner (.table "t") = some 0) ∧
    ∃ s, (machine []).Reach Lib.Machine.Any s ∧ s.Inside 0 "t" ∧ s.Inside 1 "t" := by
  constructor
  · have hrun : (Lib.Machine.replay step (fun _ _ => true) (initial []) atLastLine).map
        (fun s => (s.unlocking (2, .exec), s.owner (.table "t"))) =
          some (some (.table "t"), some 0) := by decide
    obtain ⟨s, hs, hend⟩ := Option.map_eq_some_iff.mp hrun
    obtain ⟨hunlocking, howner⟩ := Prod.mk.inj hend
    exact ⟨s, .of_replay (fun _ _ _ => trivial) (.init rfl) hs, hunlocking, howner⟩
  · have hrun : (Lib.Machine.replay step (fun _ _ => true) (initial []) twoInside).map
        (fun s => (decide (s.Inside 0 "t"), decide (s.Inside 1 "t"))) = some (true, true) := by
      decide
    obtain ⟨s, hs, hend⟩ := Option.map_eq_some_iff.mp hrun
    obtain ⟨hfirst, hsecond⟩ := Prod.mk.inj hend
    exact ⟨s, .of_replay (fun _ _ _ => trivial) (.init rfl) hs, of_decide_eq_true hfirst,
      of_decide_eq_true hsecond⟩

end NanoVault.Table.Locks
