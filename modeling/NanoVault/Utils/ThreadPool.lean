/-
`ThreadPool` (`threadPool.hpp`).

Clients and running tasks call `enqueue`, `numThreads` workers take the tasks, and one thread may
destroy the pool. Taking the mutex, each access to `tasks_` and `stop_` and each call of the
condition variable is a step of its own, and the steps of the threads may come in any order. A
worker that waits may also wake up without a notification. What a thread does next is in its
program counter; a worker starts at the head of its loop. `enqueued`, `started` and `finished`
record which tasks have been queued, taken and executed; no step depends on them.

As for any object, no client may be in a call when the destructor is called, but a task that runs
may still queue others. A task may take any number of steps and throws nothing: an exception that
leaves one ends the process.
-/
import NanoVault.Lib.Threads
import Mathlib.Data.Fintype.Sum
import Mathlib.Data.Fintype.Option
import Mathlib.Tactic.DeriveFintype

namespace NanoVault.Utils.ThreadPool

open Lib

/-- Who runs: a client, a worker, or the thread that destroys the pool. -/
inductive Thread (C : Type) (numThreads : Nat) where
  | client (c : C)
  | worker (w : Fin numThreads)
  | destructor
deriving DecidableEq, Fintype

inductive Role where
  | client
  | worker
  | destructor

@[reducible] def Thread.role {C : Type} {n : Nat} : Thread C n → Role
  | .client _ => .client
  | .worker _ => .worker
  | .destructor => .destructor

/-- Where a call of `enqueue` is. -/
inductive Enqueue (T : Type) where
  | lock (f : T)
  | emplace (f : T)
  | unlock
  | notify
deriving DecidableEq

/-- Where a thread is, with its locals. -/
inductive Pc (T : Type) : Role → Type where
  /-- A client in a call of `enqueue`, or in none. -/
  | client (call : Option (Enqueue T)) : Pc T .client
  | lock : Pc T .worker
  /-- `wait` evaluates its predicate. -/
  | test : Pc T .worker
  | waiting : Pc T .worker
  /-- `wait` has returned. -/
  | awake : Pc T .worker
  | pop (task : T) : Pc T .worker
  | unlock (task : T) : Pc T .worker
  /-- The task runs, perhaps in a call of `enqueue`. -/
  | run (task : T) (call : Option (Enqueue T)) : Pc T .worker
  | returned : Pc T .worker
  | notCalled : Pc T .destructor
  | lockStop : Pc T .destructor
  | setStop : Pc T .destructor
  | unlockStop : Pc T .destructor
  | notifyAll : Pc T .destructor
  /-- The workers below `i` have been joined. -/
  | join (i : Nat) : Pc T .destructor
  | destroyed : Pc T .destructor
deriving DecidableEq

/-- The members of the pool, and the records. -/
structure Pool (C T : Type) (numThreads : Nat) where
  tasks : List T := []
  stop : Bool := false
  queueMtx : Option (Thread C numThreads) := none
  enqueued : List T := []
  started : List T := []
  finished : List T := []

structure State (C T : Type) (numThreads : Nat) where
  pool : Pool C T numThreads
  pc : (t : Thread C numThreads) → Pc T t.role

inductive Label (C T : Type) (numThreads : Nat) where
  /-- A client, or a task that runs on a worker, calls `enqueue`. -/
  | enqueue (t : Thread C numThreads) (f : T)
  /-- The destructor is called. -/
  | destroy
  /-- A waiting worker wakes up without a notification. -/
  | spurious (w : Fin numThreads)
  /-- A thread goes on alone. -/
  | go (t : Thread C numThreads)
  /-- A thread calls `notify_one`, which wakes the worker `woken`, or none if none waits. -/
  | notifyOne (t : Thread C numThreads) (woken : Option (Fin numThreads))
  | notifyAll
  /-- The destructor joins a worker. -/
  | join

variable {C T : Type} {n : Nat}

/-! ### What a thread does alone -/

namespace Pool

variable (pool : Pool C T n)

/-- The next step of a call of `enqueue` by `t`. -/
def enqueueNext (t : Thread C n) : Enqueue T → Option (Enqueue T × Pool C T n)
  | .lock f =>
      if pool.queueMtx.isNone then some (.emplace f, { pool with queueMtx := some t }) else none
  | .emplace f =>
      some (.unlock, { pool with tasks := pool.tasks ++ [f], enqueued := pool.enqueued ++ [f] })
  | .unlock => some (.notify, { pool with queueMtx := none })
  | .notify => none

def clientNext (c : C) : Pc T .client → Option (Pc T .client × Pool C T n)
  | .client none => none
  | .client (some call) =>
      (pool.enqueueNext (.client c) call).map fun (next, pool) => (.client (some next), pool)

/-- The next step in the loop of a worker. -/
def workerNext (w : Fin n) : Pc T .worker → Option (Pc T .worker × Pool C T n)
  | .lock =>
      if pool.queueMtx.isNone then some (.test, { pool with queueMtx := some (.worker w) })
      else none
  | .test =>
      if pool.stop || !pool.tasks.isEmpty then some (.awake, pool)
      else some (.waiting, { pool with queueMtx := none })
  | .waiting => none
  | .awake =>
      if pool.stop && pool.tasks.isEmpty then some (.returned, { pool with queueMtx := none })
      else pool.tasks.head?.map fun task => (.pop task, pool)
  | .pop task =>
      some (.unlock task,
        { pool with tasks := pool.tasks.tail, started := pool.started ++ [task] })
  | .unlock task => some (.run task none, { pool with queueMtx := none })
  | .run task none => some (.lock, { pool with finished := pool.finished ++ [task] })
  | .run task (some call) =>
      (pool.enqueueNext (.worker w) call).map fun (next, pool) => (.run task (some next), pool)
  | .returned => none

/-- The next step of `~ThreadPool`, up to `notify_all`. -/
def destructorNext : Pc T .destructor → Option (Pc T .destructor × Pool C T n)
  | .lockStop =>
      if pool.queueMtx.isNone then some (.setStop, { pool with queueMtx := some .destructor })
      else none
  | .setStop => some (.unlockStop, { pool with stop := true })
  | .unlockStop => some (.notifyAll, { pool with queueMtx := none })
  | _ => none

def next : (t : Thread C n) → Pc T t.role → Option (Pc T t.role × Pool C T n)
  | .client c => pool.clientNext c
  | .worker w => pool.workerNext w
  | .destructor => pool.destructorNext

end Pool

namespace Pc

/-- A call of `enqueue` begins, from outside the pool or from a task. -/
def call (f : T) : {r : Role} → Pc T r → Option (Pc T r)
  | _, .client none => some (.client (some (.lock f)))
  | _, .run task none => some (.run task (some (.lock f)))
  | _, _ => none

/-- A call of `enqueue` that is at `notify_one` returns. -/
def notified : {r : Role} → Pc T r → Option (Pc T r)
  | _, .client (some .notify) => some (.client none)
  | _, .run task (some .notify) => some (.run task none)
  | _, _ => none

def isWaiting : {r : Role} → Pc T r → Bool
  | _, .waiting => true
  | _, _ => false

def isReturned : {r : Role} → Pc T r → Bool
  | _, .returned => true
  | _, _ => false

/-- Outside `enqueue` and `~ThreadPool`. -/
def isOutside : {r : Role} → Pc T r → Bool
  | _, .client none => true
  | _, .notCalled => true
  | _, _ => false

end Pc

/-! ### The threads together -/

section Steps

variable [DecidableEq C]

def State.goto (s : State C T n) (t : Thread C n) (pc : Pc T t.role) : State C T n :=
  { s with pc := Function.update s.pc t pc }

/-- `condition_.notify_one()` wakes `woken`. -/
def State.notifyOne (s : State C T n) : Option (Fin n) → Option (State C T n)
  | some w => if (s.pc (.worker w)).isWaiting then some (s.goto (.worker w) .lock) else none
  | none => if ∀ w, (s.pc (.worker w)).isWaiting = false then some s else none

/-- `condition_.notify_all()`. -/
def State.notifyAll (s : State C T n) : State C T n :=
  { s with
    pc := fun
      | .client c => s.pc (.client c)
      | .worker w => if (s.pc (.worker w)).isWaiting then .lock else s.pc (.worker w)
      | .destructor => s.pc .destructor }

/-- `worker.join()` of worker `i`, or the end of the loop. -/
def State.join (s : State C T n) (i : Nat) : Option (State C T n) :=
  if h : i < n then
    if (s.pc (.worker ⟨i, h⟩)).isReturned then some (s.goto .destructor (.join (i + 1)))
    else none
  else some (s.goto .destructor .destroyed)

/-- `t` may call `enqueue`: a client may not while the pool is destroyed. -/
def State.mayCall (s : State C T n) : Thread C n → Bool
  | .client _ => (s.pc .destructor).isOutside
  | _ => true

variable [Fintype C]

def next (s : State C T n) : Label C T n → Option (State C T n)
  | .enqueue t f =>
      if s.mayCall t then ((s.pc t).call f).map (s.goto t) else none
  | .destroy =>
      if (s.pc .destructor).isOutside ∧ ∀ c, (s.pc (.client c)).isOutside then
        some (s.goto .destructor .lockStop)
      else none
  | .spurious w => if (s.pc (.worker w)).isWaiting then some (s.goto (.worker w) .lock) else none
  | .go t => (s.pool.next t (s.pc t)).map fun (pc, pool) => { s with pool }.goto t pc
  | .notifyOne t woken =>
      (s.pc t).notified.bind fun pc => (s.notifyOne woken).map (·.goto t pc)
  | .notifyAll =>
      match s.pc .destructor with
      | .notifyAll => some (s.notifyAll.goto .destructor (.join 0))
      | _ => none
  | .join =>
      match s.pc .destructor with
      | .join i => s.join i
      | _ => none

/-- A new pool, none of whose members has been called. -/
def create : State C T n where
  pool := {}
  pc
    | .client _ => .client none
    | .worker _ => .lock
    | .destructor => .notCalled

/-- All interleavings. -/
def threads (C T : Type) (n : Nat) [DecidableEq C] [Fintype C] :
    Machine (State C T n) (Label C T n) := Machine.ofFun create next

end Steps

/-! ### What the program counters say -/

def Enqueue.holds : Enqueue T → Bool
  | .emplace _ | .unlock => true
  | _ => false

namespace Pc

def holds : {r : Role} → Pc T r → Bool
  | _, .client call => call.any Enqueue.holds
  | _, .run _ call => call.any Enqueue.holds
  | _, .test | _, .awake | _, .pop _ | _, .unlock _ => true
  | _, .setStop | _, .unlockStop => true
  | _, _ => false

/-- What a worker that holds the mutex has seen. -/
def Sees (tasks : List T) (stop : Bool) : {r : Role} → Pc T r → Prop
  | _, .awake => stop = true ∨ tasks ≠ []
  | _, .pop task => tasks.head? = some task
  | _, _ => True

/-- The task a worker has taken and not yet executed. -/
def task : {r : Role} → Pc T r → Multiset T
  | _, .unlock task => {task}
  | _, .run task _ => {task}
  | _, _ => 0

end Pc

/-- The call has queued its task and not yet called `notify_one`. -/
def Enqueue.owes : Enqueue T → Nat
  | .unlock | .notify => 1
  | _ => 0

/-- How many more steps a call takes, where queueing a task counts for what a worker does with
it. -/
def Enqueue.work : Enqueue T → Nat
  | .lock _ => 14
  | .emplace _ => 13
  | .unlock => 6
  | .notify => 5

namespace Pc

/-- A worker on its way to the queue, or a notification on its way to a worker. -/
def supply : {r : Role} → Pc T r → Nat
  | _, .client call => (call.map Enqueue.owes).getD 0
  | _, .run _ call => (call.map Enqueue.owes).getD 0
  | _, .lock | _, .test | _, .awake | _, .pop _ => 1
  | _, _ => 0

/-- How many more steps the thread of a pool of `n` workers takes before it comes to rest. -/
def work (n : Nat) : {r : Role} → Pc T r → Nat
  | _, .client call => (call.map Enqueue.work).getD 0
  | _, .run _ call => 5 + (call.map Enqueue.work).getD 0
  | _, .lock => 4
  | _, .test => 3
  | _, .awake => 2
  | _, .pop _ => 1
  | _, .unlock _ => 6
  | _, .lockStop => 5 * n + 6
  | _, .setStop => 5 * n + 5
  | _, .unlockStop => 5 * n + 4
  | _, .notifyAll => 5 * n + 3
  | _, .join i => n - i + 1
  | _, _ => 0

def hasStopped : {r : Role} → Pc T r → Bool
  | _, .unlockStop | _, .notifyAll | _, .join _ | _, .destroyed => true
  | _, _ => false

/-- The destructor has called `notify_all`. -/
def hasNotified : {r : Role} → Pc T r → Bool
  | _, .join _ | _, .destroyed => true
  | _, _ => false

end Pc

/-! ### What a step of one thread does -/

/-- The steps of a call of `enqueue` by `t`. -/
inductive Enqueue.Step (pool : Pool C T n) (t : Thread C n) :
    Enqueue T → Enqueue T → Pool C T n → Prop
  | lock (f : T) : pool.queueMtx = none →
      Step pool t (.lock f) (.emplace f) { pool with queueMtx := some t }
  | emplace (f : T) :
      Step pool t (.emplace f) .unlock
        { pool with tasks := pool.tasks ++ [f], enqueued := pool.enqueued ++ [f] }
  | unlock : Step pool t .unlock .notify { pool with queueMtx := none }

/-- The steps a thread takes alone. -/
inductive Step (pool : Pool C T n) :
    (t : Thread C n) → Pc T t.role → Pc T t.role → Pool C T n → Prop
  | client {c : C} {call next : Enqueue T} {pool' : Pool C T n} :
      Enqueue.Step pool (.client c) call next pool' →
      Step pool (.client c) (.client (some call)) (.client (some next)) pool'
  | task {w : Fin n} {call next : Enqueue T} {pool' : Pool C T n} (task : T) :
      Enqueue.Step pool (.worker w) call next pool' →
      Step pool (.worker w) (.run task (some call)) (.run task (some next)) pool'
  | lock (w : Fin n) : pool.queueMtx = none →
      Step pool (.worker w) .lock .test { pool with queueMtx := some (.worker w) }
  | ready (w : Fin n) : pool.stop = true ∨ pool.tasks ≠ [] →
      Step pool (.worker w) .test .awake pool
  | wait (w : Fin n) : pool.stop = false → pool.tasks = [] →
      Step pool (.worker w) .test .waiting { pool with queueMtx := none }
  | leave (w : Fin n) : pool.stop = true → pool.tasks = [] →
      Step pool (.worker w) .awake .returned { pool with queueMtx := none }
  | front (w : Fin n) (task : T) : pool.tasks.head? = some task →
      Step pool (.worker w) .awake (.pop task) pool
  | pop (w : Fin n) (task : T) :
      Step pool (.worker w) (.pop task) (.unlock task)
        { pool with tasks := pool.tasks.tail, started := pool.started ++ [task] }
  | unlock (w : Fin n) (task : T) :
      Step pool (.worker w) (.unlock task) (.run task none) { pool with queueMtx := none }
  | finish (w : Fin n) (task : T) :
      Step pool (.worker w) (.run task none) .lock
        { pool with finished := pool.finished ++ [task] }
  | lockStop : pool.queueMtx = none →
      Step pool .destructor .lockStop .setStop { pool with queueMtx := some .destructor }
  | setStop : Step pool .destructor .setStop .unlockStop { pool with stop := true }
  | unlockStop :
      Step pool .destructor .unlockStop .notifyAll { pool with queueMtx := none }

section Local

variable {pool pool' : Pool C T n} {t : Thread C n} {p q : Pc T t.role}

theorem Enqueue.step_of_next {call next : Enqueue T}
    (h : pool.enqueueNext t call = some (next, pool')) : Enqueue.Step pool t call next pool' := by
  cases call with
  | lock f =>
      simp only [Pool.enqueueNext, Option.isNone_iff_eq_none] at h
      split at h
      · rename_i hfree
        cases h
        exact .lock f hfree
      · cases h
  | emplace f =>
      cases h
      exact .emplace f
  | unlock =>
      cases h
      exact .unlock
  | notify => cases h

theorem step_of_next (h : pool.next t p = some (q, pool')) : Step pool t p q pool' := by
  cases t with
  | client c =>
      match p, h with
      | .client (some call), h =>
          obtain ⟨⟨next, after⟩, hnext, heq⟩ := Option.map_eq_some_iff.mp h
          cases heq
          exact .client (Enqueue.step_of_next hnext)
  | worker w =>
      match p, h with
      | .lock, h =>
          simp only [Pool.next, Pool.workerNext, Option.isNone_iff_eq_none] at h
          split at h
          · rename_i hfree
            cases h
            exact .lock w hfree
          · cases h
      | .test, h =>
          simp only [Pool.next, Pool.workerNext] at h
          split at h
          · rename_i hready
            cases h
            exact .ready w (by simpa using hready)
          · rename_i hready
            cases h
            simp only [Bool.or_eq_true, not_or, Bool.not_eq_true, Bool.not_eq_true',
              Bool.not_eq_false, List.isEmpty_iff] at hready
            exact .wait w hready.1 hready.2
      | .awake, h =>
          simp only [Pool.next, Pool.workerNext] at h
          split at h
          · rename_i hleave
            cases h
            simp only [Bool.and_eq_true, List.isEmpty_iff] at hleave
            exact .leave w hleave.1 hleave.2
          · obtain ⟨task, htask, heq⟩ := Option.map_eq_some_iff.mp h
            cases heq
            exact .front w task htask
      | .pop task, h =>
          cases h
          exact .pop w task
      | .unlock task, h =>
          cases h
          exact .unlock w task
      | .run task none, h =>
          cases h
          exact .finish w task
      | .run task (some call), h =>
          obtain ⟨⟨next, after⟩, hnext, heq⟩ := Option.map_eq_some_iff.mp h
          cases heq
          exact .task task (Enqueue.step_of_next hnext)
  | destructor =>
      match p, h with
      | .lockStop, h =>
          simp only [Pool.next, Pool.destructorNext, Option.isNone_iff_eq_none] at h
          split at h
          · rename_i hfree
            cases h
            exact .lockStop hfree
          · cases h
      | .setStop, h =>
          cases h
          exact .setStop
      | .unlockStop, h =>
          cases h
          exact .unlockStop

/-- A thread that holds the mutex can go on. -/
theorem next_isSome (hholds : p.holds = true) (hsees : p.Sees pool.tasks pool.stop) :
    (pool.next t p).isSome = true := by
  cases t with
  | client c =>
      match p, hholds with
      | .client (some (.emplace f)), _ => rfl
      | .client (some .unlock), _ => rfl
  | worker w =>
      match p, hholds, hsees with
      | .test, _, _ =>
          simp only [Pool.next, Pool.workerNext]
          split <;> rfl
      | .awake, _, hsees =>
          simp only [Pool.next, Pool.workerNext]
          split
          · rfl
          · rename_i hleave
            cases htasks : pool.tasks with
            | nil => simp_all [Pc.Sees]
            | cons task rest => rfl
      | .pop task, _, _ => rfl
      | .unlock task, _, _ => rfl
      | .run task (some (.emplace f)), _, _ => rfl
      | .run task (some .unlock), _, _ => rfl
  | destructor =>
      match p, hholds with
      | .setStop, _ => rfl
      | .unlockStop, _ => rfl

theorem Enqueue.Step.handover {call next : Enqueue T}
    (h : Enqueue.Step pool t call next pool') :
    Handover t call.holds pool.queueMtx next.holds pool'.queueMtx := by
  cases h with
  | lock f hfree =>
      rw [hfree]
      exact .acquire
  | emplace f => exact .keep _ _
  | unlock => exact .release _

/-- A step takes the mutex when it is free, or keeps it, or gives it up. -/
theorem Step.handover (h : Step pool t p q pool') :
    Handover t p.holds pool.queueMtx q.holds pool'.queueMtx := by
  cases h with
  | client h => exact h.handover
  | task task h => exact h.handover
  | lock w hfree | lockStop hfree =>
      rw [hfree]
      exact .acquire
  | ready | front | pop | setStop => exact .keep _ _
  | finish => exact .keep _ _
  | wait | leave | unlock | unlockStop => exact .release _

/-- Who does not hold the mutex neither changes the queue nor sets `stop_`. -/
theorem Step.unchanged (h : Step pool t p q pool') (hholds : p.holds = false) :
    pool'.tasks = pool.tasks ∧ pool'.stop = pool.stop := by
  cases h with
  | client h | task _ h =>
      cases h with
      | lock => exact ⟨rfl, rfl⟩
      | emplace | unlock => cases hholds
  | lock | finish | lockStop => exact ⟨rfl, rfl⟩
  | ready | wait | leave | front | pop | unlock | setStop | unlockStop => cases hholds

theorem Enqueue.Step.stop_eq {call next : Enqueue T} (h : Enqueue.Step pool t call next pool') :
    pool'.stop = pool.stop := by
  cases h <;> rfl

/-- The queue loses a task at its front, which is then started, and gains one at its end. -/
theorem Step.queue (h : Step pool t p q pool') (hsees : p.Sees pool.tasks pool.stop)
    (hqueue : pool.enqueued = pool.started ++ pool.tasks) :
    pool'.enqueued = pool'.started ++ pool'.tasks := by
  cases h with
  | client h | task _ h =>
      cases h with
      | lock | unlock => exact hqueue
      | emplace f => simp [hqueue]
  | pop w task =>
      simp only [Pc.Sees] at hsees
      cases htasks : pool.tasks with
      | nil => simp [htasks] at hsees
      | cons first rest => simp_all
  | lock | ready | wait | leave | front | unlock | finish | lockStop | setStop | unlockStop =>
      exact hqueue

/-- After its step a thread has seen what the members say. -/
theorem Step.sees (h : Step pool t p q pool') : q.Sees pool'.tasks pool'.stop := by
  cases h with
  | ready w hready => exact hready
  | front w task hfront => exact hfront
  | _ => trivial

/-- A task is on one of the records or with the worker. -/
theorem Step.task_eq (h : Step pool t p q pool') :
    (pool'.started : Multiset T) + pool.finished + p.task =
      pool.started + pool'.finished + q.task := by
  cases h with
  | client h | task _ h => cases h <;> rfl
  | pop w task =>
      simp only [Pc.task, ← Multiset.coe_add, Multiset.coe_singleton, add_zero]
      exact add_right_comm _ _ _
  | finish w task =>
      simp only [Pc.task, ← Multiset.coe_add, Multiset.coe_singleton, add_zero]
      exact add_assoc _ _ _
  | _ => rfl

/-- A queued task is matched by a notification to come or a worker on its way. -/
theorem Step.supply_le (h : Step pool t p q pool') :
    pool'.tasks = [] ∨ q.isWaiting = false ∧
      pool'.tasks.length + p.supply ≤ pool.tasks.length + q.supply := by
  cases h with
  | client h | task _ h =>
      refine .inr ⟨rfl, ?_⟩
      cases h <;> simp [Pc.supply, Enqueue.owes]
  | wait w _ htasks | leave w _ htasks => exact .inl htasks
  | pop w task =>
      cases htasks : pool.tasks with
      | nil => exact .inl (by simp)
      | cons first rest => exact .inr ⟨rfl, by simp [Pc.supply]⟩
  | _ => exact .inr ⟨rfl, by simp [Pc.supply]⟩

/-- Each step is work done. -/
theorem Step.work_lt (h : Step pool t p q pool') (hsees : p.Sees pool.tasks pool.stop) :
    q.work n + 6 * pool'.tasks.length < p.work n + 6 * pool.tasks.length := by
  cases h with
  | client h | task _ h =>
      cases h with
      | lock | unlock => simp [Pc.work, Enqueue.work]
      | emplace f =>
          simp [Pc.work, Enqueue.work]
          omega
  | pop w task =>
      simp only [Pc.Sees] at hsees
      cases htasks : pool.tasks with
      | nil => simp [htasks] at hsees
      | cons first rest =>
          simp [Pc.work]
          omega
  | _ => simp [Pc.work]

end Local

end NanoVault.Utils.ThreadPool
