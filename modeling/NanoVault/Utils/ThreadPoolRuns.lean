/-
The runs of `ThreadPool`.

In every interleaving the tasks are taken in the order in which they were queued, each by one
worker (`tasks_in_order`). While a worker waits, no more tasks are queued than there are workers
on their way to the queue and notifications on their way to a worker (`no_wakeup_lost`). Once the
destructor has returned, every task that was ever queued has been executed
(`destroyed_finished`). Without new calls and spurious wakeups the threads come to rest after as
many steps as `State.work` says at most, and only when every task has been executed and every call
has returned, that of the destructor included (`comes_to_rest`).
-/
import NanoVault.Utils.ThreadPool
import Mathlib.Algebra.Order.BigOperators.Group.Finset

namespace NanoVault.Utils.ThreadPool

open Lib

variable {C T : Type} {n : Nat} [DecidableEq C]

/-! ### The steps of the threads together -/

section Goto

variable {s : State C T n} {t u : Thread C n} {q : Pc T t.role}

@[simp] theorem goto_pool : (s.goto t q).pool = s.pool := rfl

@[simp] theorem goto_pc_self : (s.goto t q).pc t = q := by
  unfold State.goto
  exact Function.update_self t q s.pc

@[simp] theorem goto_pc_of_ne (hne : u ≠ t) : (s.goto t q).pc u = s.pc u := by
  unfold State.goto
  exact Function.update_of_ne hne q s.pc

end Goto

inductive Moves (s : State C T n) : Label C T n → State C T n → Prop
  | enqueue {t : Thread C n} {f : T} {q : Pc T t.role} :
      s.mayCall t = true → (s.pc t).call f = some q → Moves s (.enqueue t f) (s.goto t q)
  | destroy : (s.pc .destructor).isOutside = true →
      (∀ c, (s.pc (.client c)).isOutside = true) →
      Moves s .destroy (s.goto .destructor .lockStop)
  | wake {w : Fin n} : (s.pc (.worker w)).isWaiting = true →
      Moves s (.spurious w) (s.goto (.worker w) .lock)
  | go {t : Thread C n} {q : Pc T t.role} {pool : Pool C T n} :
      Step s.pool t (s.pc t) q pool → Moves s (.go t) ({ s with pool }.goto t q)
  | notifyOne {t : Thread C n} {q : Pc T t.role} {w : Fin n} :
      (s.pc t).notified = some q → (s.pc (.worker w)).isWaiting = true →
      Moves s (.notifyOne t (some w)) ((s.goto (.worker w) .lock).goto t q)
  | notifyNone {t : Thread C n} {q : Pc T t.role} :
      (s.pc t).notified = some q → (∀ w, (s.pc (.worker w)).isWaiting = false) →
      Moves s (.notifyOne t none) (s.goto t q)
  | notifyAll : s.pc .destructor = .notifyAll →
      Moves s .notifyAll (s.notifyAll.goto .destructor (.join 0))
  | join {i : Nat} (h : i < n) : s.pc .destructor = .join i →
      (s.pc (.worker ⟨i, h⟩)).isReturned = true →
      Moves s .join (s.goto .destructor (.join (i + 1)))
  | joined {i : Nat} : n ≤ i → s.pc .destructor = .join i →
      Moves s .join (s.goto .destructor .destroyed)

variable [Fintype C] {s s' : State C T n} {l : Label C T n}

/-- A step of the machine is one of the moves. -/
theorem moves_of_next (h : next s l = some s') : Moves s l s' := by
  cases l with
  | enqueue t f =>
      simp only [next] at h
      split at h
      · rename_i hmay
        obtain ⟨q, hq, rfl⟩ := Option.map_eq_some_iff.mp h
        exact .enqueue hmay hq
      · cases h
  | destroy =>
      simp only [next] at h
      split at h
      · rename_i hout
        cases h
        exact .destroy hout.1 hout.2
      · cases h
  | spurious w =>
      simp only [next] at h
      split at h
      · rename_i hwaiting
        cases h
        exact .wake hwaiting
      · cases h
  | go t =>
      obtain ⟨⟨q, pool⟩, hnext, rfl⟩ := Option.map_eq_some_iff.mp h
      exact .go (step_of_next hnext)
  | notifyOne t woken =>
      obtain ⟨q, hq, h⟩ := Option.bind_eq_some_iff.mp h
      obtain ⟨after, hafter, rfl⟩ := Option.map_eq_some_iff.mp h
      cases woken with
      | none =>
          simp only [State.notifyOne] at hafter
          split at hafter
          · rename_i hnone
            cases hafter
            exact .notifyNone hq hnone
          · cases hafter
      | some w =>
          simp only [State.notifyOne] at hafter
          split at hafter
          · rename_i hwaiting
            cases hafter
            exact .notifyOne hq hwaiting
          · cases hafter
  | notifyAll =>
      simp only [next] at h
      split at h
      · rename_i hpc
        cases h
        exact .notifyAll hpc
      · cases h
  | join =>
      simp only [next] at h
      split at h
      · rename_i i hpc
        unfold State.join at h
        split at h
        · rename_i hlt
          split at h
          · rename_i hreturned
            cases h
            exact .join hlt hpc hreturned
          · cases h
        · rename_i hle
          cases h
          exact .joined (Nat.le_of_not_lt hle) hpc
      · cases h

/-! ### Counters that change without the members -/

/-- A thread goes on without the mutex, and with the same task. -/
structure Quiet {r : Role} (p q : Pc T r) : Prop where
  before : p.holds = false
  after : q.holds = false
  task : q.task = p.task
  sees : ∀ tasks stop, q.Sees tasks stop
  awake : q.isWaiting = false

section Counters

variable {r : Role} {f : T} {p q : Pc T r}

omit [DecidableEq C] [Fintype C]

/-- A call is made outside, and leads into the method. -/
theorem call_cases (h : p.call f = some q) :
    Quiet p q ∧ q.supply = p.supply ∧ p.isReturned = false ∧ q.isReturned = false := by
  cases p with
  | client call | run _ call =>
      cases call with
      | none =>
          cases h
          exact ⟨⟨rfl, rfl, rfl, fun _ _ => trivial, rfl⟩, rfl, rfl, rfl⟩
      | some call => cases h
  | _ => cases h

/-- A notification wakes a thread that waits. -/
theorem notified_cases (h : p.notified = some q) :
    Quiet p q ∧ q.supply + 1 = p.supply ∧ p.isReturned = false ∧ q.isReturned = false := by
  cases p with
  | client call | run _ call =>
      match call, h with
      | some .notify, h =>
          cases h
          exact ⟨⟨rfl, rfl, rfl, fun _ _ => trivial, rfl⟩, rfl, rfl, rfl⟩
  | _ => cases h

theorem eq_waiting {p : Pc T .worker} (h : p.isWaiting = true) : p = .waiting := by
  cases p <;> first | rfl | cases h

theorem eq_returned {p : Pc T .worker} (h : p.isReturned = true) : p = .returned := by
  cases p <;> first | rfl | cases h

theorem eq_notCalled {p : Pc T .destructor} (h : p.isOutside = true) : p = .notCalled := by
  cases p <;> first | rfl | cases h

/-- A worker that wakes holds nothing yet. -/
theorem quiet_wake {p : Pc T .worker} (h : p.isWaiting = true) : Quiet p .lock := by
  cases eq_waiting h
  exact ⟨rfl, rfl, rfl, fun _ _ => trivial, rfl⟩

end Counters

/-! ### The mutex and the queue -/

/-- What a sum over all threads loses and gains when one goes on. -/
theorem sum_goto {M : Type} [AddCommMonoid M] (f : {r : Role} → Pc T r → M) (s : State C T n)
    (t : Thread C n) (q : Pc T t.role) :
    ∑ u, f ((s.goto t q).pc u) + f (s.pc t) = ∑ u, f (s.pc u) + f q :=
  sum_update (fun _ pc => f pc) s.pc t q

/-- The mutex is with its owner, and each task that was queued is in the queue or was started,
and then is with one worker until it has been executed. -/
structure State.Orderly (s : State C T n) : Prop where
  locked : Owns (fun _ pc => pc.holds) s.pool.queueMtx s.pc
  queue : s.pool.enqueued = s.pool.started ++ s.pool.tasks
  sees : ∀ t, (s.pc t).Sees s.pool.tasks s.pool.stop
  tasks : (s.pool.started : Multiset T) = s.pool.finished + ∑ t, (s.pc t).task

omit [DecidableEq C] [Fintype C] in
/-- After notify_all no worker waits. -/
theorem notifyAll_isWaiting (s : State C T n) (w : Fin n) :
    (s.notifyAll.pc (.worker w)).isWaiting = false := by
  cases hw : (s.pc (.worker w)).isWaiting with
  | false =>
      have heq : s.notifyAll.pc (.worker w) = s.pc (.worker w) :=
        if_neg (Bool.eq_false_iff.mp hw)
      rw [heq, hw]
  | true =>
      have heq : s.notifyAll.pc (.worker w) = .lock := if_pos hw
      rw [heq]
      rfl

namespace State.Orderly

variable {t : Thread C n} {q : Pc T t.role} {pool : Pool C T n}

omit [DecidableEq C] in
/-- At the start the mutex is free. -/
theorem create : (create : State C T n).Orderly where
  locked := by
    intro t
    cases t <;> simp [ThreadPool.create, Pc.holds]
  queue := rfl
  sees := by
    intro t
    cases t <;> trivial
  tasks := by
    have hnone : ∀ t, ((ThreadPool.create : State C T n).pc t).task = 0 := by
      intro t
      cases t <;> rfl
    simp only [hnone, Finset.sum_const_zero]
    rfl

omit [Fintype C] in
/-- What a thread that does not hold the mutex has seen is nothing. -/
theorem sees_of_holds {r : Role} {p : Pc T r} {tasks : List T} {stop : Bool}
    (h : p.holds = false) : p.Sees tasks stop := by
  cases p <;> trivial

/-- A thread's own step keeps one holder of the mutex. -/
theorem go (h : s.Orderly) (hstep : Step s.pool t (s.pc t) q pool) :
    ({ s with pool }.goto t q).Orderly where
  locked := h.locked.update hstep.handover
  queue := hstep.queue (h.sees t) h.queue
  sees := by
    intro u
    by_cases hu : u = t
    · subst hu
      rw [goto_pc_self]
      exact hstep.sees
    · rw [goto_pc_of_ne hu]
      cases hholds : (s.pc t).holds with
      | true => exact sees_of_holds (h.locked.other hholds hu)
      | false =>
          obtain ⟨htasks, hstop⟩ := hstep.unchanged hholds
          rw [goto_pool, htasks, hstop]
          exact h.sees u
  tasks := by
    have hsum : ∑ u, (({ s with pool }.goto t q).pc u).task + (s.pc t).task =
        ∑ u, (s.pc u).task + q.task := sum_goto Pc.task { s with pool } t q
    have heq := hstep.task_eq
    rw [h.tasks] at heq
    have hcancel : (pool.started : Multiset T) + (s.pool.finished + (s.pc t).task) =
        pool.finished + ∑ u, (({ s with pool }.goto t q).pc u).task +
          (s.pool.finished + (s.pc t).task) :=
      calc (pool.started : Multiset T) + (s.pool.finished + (s.pc t).task)
        _ = s.pool.finished + ∑ u, (s.pc u).task + pool.finished + q.task := by
            rw [← add_assoc, heq]
        _ = pool.finished + s.pool.finished + (∑ u, (s.pc u).task + q.task) := by ac_rfl
        _ = _ := by
            rw [← hsum]
            ac_rfl
    exact add_right_cancel hcancel

/-- A thread goes on without touching the members. -/
theorem quiet (h : s.Orderly) (hquiet : Quiet (s.pc t) q) : (s.goto t q).Orderly where
  locked := by
    apply h.locked.update
    rw [hquiet.before, hquiet.after]
    exact .keep _ _
  queue := h.queue
  sees := by
    intro u
    by_cases hu : u = t
    · subst hu
      rw [goto_pc_self]
      exact hquiet.sees _ _
    · rw [goto_pc_of_ne hu]
      exact h.sees u
  tasks := by
    have hsum := sum_goto Pc.task s t q
    rw [hquiet.task] at hsum
    rw [goto_pool, h.tasks, add_right_cancel hsum]

omit [DecidableEq C] [Fintype C] in
/-- What `notify_all` changes of a counter. -/
theorem notifyAll_pc (s : State C T n) (u : Thread C n) :
    s.notifyAll.pc u = s.pc u ∨ Quiet (s.pc u) (s.notifyAll.pc u) := by
  cases u with
  | client c => exact .inl rfl
  | worker w =>
      cases hw : (s.pc (.worker w)).isWaiting with
      | false => exact .inl (if_neg (Bool.eq_false_iff.mp hw))
      | true =>
          have heq : s.notifyAll.pc (.worker w) = .lock := if_pos hw
          rw [heq]
          exact .inr (quiet_wake hw)
  | destructor => exact .inl rfl

omit [DecidableEq C] in
/-- Waking all workers does. -/
theorem notifyAll (h : s.Orderly) : s.notifyAll.Orderly where
  locked := by
    intro u
    have hholds : (s.notifyAll.pc u).holds = (s.pc u).holds := by
      obtain heq | hquiet := notifyAll_pc s u
      · rw [heq]
      · rw [hquiet.before, hquiet.after]
    simp only [hholds]
    exact h.locked u
  queue := h.queue
  sees := by
    intro u
    obtain heq | hquiet := notifyAll_pc s u
    · rw [heq]
      exact h.sees u
    · exact hquiet.sees _ _
  tasks := by
    have htask : ∀ u, (s.notifyAll.pc u).task = (s.pc u).task := by
      intro u
      obtain heq | hquiet := notifyAll_pc s u
      · rw [heq]
      · exact hquiet.task
    simp only [htask]
    exact h.tasks

/-- Every move does. -/
theorem step (h : s.Orderly) (hmove : Moves s l s') : s'.Orderly := by
  cases hmove with
  | enqueue _ hcall => exact h.quiet (call_cases hcall).1
  | destroy hout =>
      apply h.quiet
      rw [eq_notCalled hout]
      exact ⟨rfl, rfl, rfl, fun _ _ => trivial, rfl⟩
  | wake hwaiting => exact h.quiet (quiet_wake hwaiting)
  | go hstep => exact h.go hstep
  | @notifyOne t q w hnotified hwaiting =>
      apply (h.quiet (quiet_wake hwaiting)).quiet
      rw [goto_pc_of_ne]
      · exact (notified_cases hnotified).1
      · rintro rfl
        rw [eq_waiting hwaiting] at hnotified
        cases hnotified
  | notifyNone hnotified _ => exact h.quiet (notified_cases hnotified).1
  | notifyAll hpc =>
      apply h.notifyAll.quiet
      rw [show s.notifyAll.pc .destructor = s.pc .destructor from rfl, hpc]
      exact ⟨rfl, rfl, rfl, fun _ _ => trivial, rfl⟩
  | join _ hpc _ | joined _ hpc =>
      apply h.quiet
      rw [hpc]
      exact ⟨rfl, rfl, rfl, fun _ _ => trivial, rfl⟩

omit [DecidableEq C] in
/-- Only workers have tasks. -/
theorem started_eq (h : s.Orderly) :
    (s.pool.started : Multiset T) = s.pool.finished + ∑ w, (s.pc (.worker w)).task := by
  rw [h.tasks]
  congr 1
  symm
  apply Fintype.sum_of_injective Thread.worker
  · intro v w heq
    cases heq
    rfl
  · intro t hout
    cases t with
    | worker w => exact absurd ⟨w, rfl⟩ hout
    | client c =>
        cases s.pc (.client c)
        rfl
    | destructor => cases s.pc .destructor <;> rfl
  · intro w
    rfl

omit [DecidableEq C] in
/-- Where no task is queued and none is with a worker, all have been executed. -/
theorem executed (h : s.Orderly) (hnil : s.pool.tasks = [])
    (htask : ∀ w, (s.pc (.worker w)).task = 0) : s.pool.finished.Perm s.pool.enqueued := by
  have hstarted := h.started_eq
  rw [Finset.sum_eq_zero fun w _ => htask w, add_zero] at hstarted
  rw [h.queue, hnil, List.append_nil]
  exact (Multiset.coe_eq_coe.mp hstarted).symm

end State.Orderly

/-! ### Wakeups -/

/-- While a worker waits, no more tasks are queued than there are workers on their way to the
queue and notifications on their way to a worker. -/
def State.Supplied (s : State C T n) : Prop :=
  (∃ w, (s.pc (.worker w)).isWaiting = true) → s.pool.tasks.length ≤ ∑ t, (s.pc t).supply

namespace State.Supplied

variable {t : Thread C n} {q : Pc T t.role} {pool : Pool C T n}

omit [Fintype C] in
/-- A worker that waits after the step of a thread that then does not wait, did so before. -/
theorem waiting_of_goto (hq : q.isWaiting = false)
    (h : ∃ w, (({ s with pool }.goto t q).pc (.worker w)).isWaiting = true) :
    ∃ w, (s.pc (.worker w)).isWaiting = true := by
  obtain ⟨w, hw⟩ := h
  by_cases hne : .worker w = t
  · subst hne
    rw [goto_pc_self, hq] at hw
    cases hw
  · rw [goto_pc_of_ne hne] at hw
    exact ⟨w, hw⟩

theorem go (h : s.Supplied) (hstep : Step s.pool t (s.pc t) q pool) :
    ({ s with pool }.goto t q).Supplied := by
  intro hwaiting
  obtain hnil | ⟨hq, hle⟩ := hstep.supply_le
  · rw [goto_pool, hnil]
    exact Nat.zero_le _
  · have hold := h (waiting_of_goto hq hwaiting)
    have hsum : ∑ u, (({ s with pool }.goto t q).pc u).supply + (s.pc t).supply =
        ∑ u, (s.pc u).supply + q.supply := sum_goto Pc.supply { s with pool } t q
    rw [goto_pool]
    show pool.tasks.length ≤ _
    omega

/-- A thread goes on without the members, and a worker or a notification is on its way where one
was. -/
theorem quiet (h : s.Supplied) (hquiet : Quiet (s.pc t) q)
    (hsupply : (s.pc t).supply ≤ q.supply) : (s.goto t q).Supplied := by
  intro hwaiting
  have hold := h (waiting_of_goto (by exact hquiet.awake) hwaiting)
  have hsum := sum_goto Pc.supply s t q
  rw [goto_pool]
  omega

/-- The worker that is woken stands for the notification. -/
theorem notifyOne {w : Fin n} (h : s.Supplied) (hnotified : (s.pc t).notified = some q)
    (hwaiting : (s.pc (.worker w)).isWaiting = true) :
    ((s.goto (.worker w) .lock).goto t q).Supplied := by
  intro _
  have hne : t ≠ .worker w := by
    rintro rfl
    rw [eq_waiting hwaiting] at hnotified
    cases hnotified
  have hold := h ⟨w, hwaiting⟩
  have hfirst := sum_goto Pc.supply s (.worker w) .lock
  have hsecond := sum_goto Pc.supply (s.goto (.worker w) .lock) t q
  rw [goto_pc_of_ne hne] at hsecond
  have hsupply := (notified_cases hnotified).2.1
  have hwaits : (Pc.waiting : Pc T .worker).supply = 0 := rfl
  have hlocks : (Pc.lock : Pc T .worker).supply = 1 := rfl
  rw [eq_waiting hwaiting, hwaits, hlocks] at hfirst
  rw [goto_pool, goto_pool]
  omega

theorem step (h : s.Supplied) (hmove : Moves s l s') : s'.Supplied := by
  cases hmove with
  | enqueue _ hcall =>
      obtain ⟨hquiet, hsupply, -, -⟩ := call_cases hcall
      exact h.quiet hquiet (Nat.le_of_eq hsupply.symm)
  | destroy hout =>
      apply h.quiet
      · rw [eq_notCalled hout]
        exact ⟨rfl, rfl, rfl, fun _ _ => trivial, rfl⟩
      · rw [eq_notCalled hout]
        exact Nat.le_refl _
  | wake hwaiting =>
      apply h.quiet (quiet_wake hwaiting)
      rw [eq_waiting hwaiting]
      exact Nat.zero_le _
  | go hstep => exact h.go hstep
  | @notifyOne t q w hnotified hwaiting => exact h.notifyOne hnotified hwaiting
  | @notifyNone t q hnotified hnone =>
      intro hsome
      obtain ⟨w, hw⟩ := waiting_of_goto (by exact (notified_cases hnotified).1.awake) hsome
      rw [hnone w] at hw
      cases hw
  | notifyAll hpc =>
      rintro ⟨w, hw⟩
      have hne : (.worker w : Thread C n) ≠ .destructor := nofun
      rw [goto_pc_of_ne hne, notifyAll_isWaiting] at hw
      cases hw
  | join _ hpc _ | joined _ hpc =>
      apply h.quiet
      · rw [hpc]
        exact ⟨rfl, rfl, rfl, fun _ _ => trivial, rfl⟩
      · rw [hpc]
        exact Nat.zero_le _

end State.Supplied

/-! ### Destruction -/

/-- How many workers the destructor has joined, of `n`. -/
def Pc.joined (n : Nat) : {r : Role} → Pc T r → Nat
  | _, .join i => i
  | _, .destroyed => n
  | _, _ => 0

/-- What the threads know of the destructor, and it of them. -/
structure State.Guarded (s : State C T n) : Prop where
  stopped : s.pool.stop = (s.pc .destructor).hasStopped
  /-- No worker leaves before the destructor has set `stop_`. -/
  left : ∀ w, (s.pc (.worker w)).isReturned = true → s.pool.stop = true
  outside : (s.pc .destructor).isOutside = false → ∀ c, (s.pc (.client c)).isOutside = true
  /-- As long as a task is queued, some worker has not left. -/
  drained : 0 < n → s.pool.tasks ≠ [] → ∃ w, (s.pc (.worker w)).isReturned = false
  joined : ∀ w : Fin n, w.val < (s.pc .destructor).joined n →
    (s.pc (.worker w)).isReturned = true
  /-- After `notify_all` no worker waits any more. -/
  notified : (s.pc .destructor).hasNotified = true →
    ∀ w, (s.pc (.worker w)).isWaiting = false

namespace State.Guarded

variable {t : Thread C n} {q : Pc T t.role} {pool : Pool C T n}

omit [DecidableEq C] [Fintype C]

theorem create : (create : State C T n).Guarded where
  stopped := rfl
  left := fun w h => by cases h
  outside := fun h => by cases h
  drained := fun _ h => absurd rfl h
  joined := fun w h => absurd h (Nat.not_lt_zero _)
  notified := fun h => by cases h

/-- The destructor notifies after it has set stop. -/
theorem hasStopped_of_hasNotified {r : Role} {p : Pc T r} (h : p.hasNotified = true) :
    p.hasStopped = true := by
  cases p <;> trivial

variable [DecidableEq C]

/-- A worker goes on: it leaves only when `stop_` is set and no task is queued, and waits only
when `stop_` is not set. -/
theorem worker {w : Fin n} {q : Pc T .worker} (h : s.Guarded)
    (hstop : pool.stop = s.pool.stop) (hbefore : (s.pc (.worker w)).isReturned = false)
    (hleave : q.isReturned = true → pool.stop = true ∧ pool.tasks = [])
    (hwait : q.isWaiting = true → pool.stop = false) :
    ({ s with pool }.goto (.worker w) q).Guarded := by
  have hdestructor : (.destructor : Thread C n) ≠ .worker w := nofun
  exact {
    stopped := by
      rw [goto_pc_of_ne hdestructor]
      exact hstop.trans h.stopped
    left := by
      intro v hv
      by_cases hvw : v = w
      · subst hvw
        rw [goto_pc_self] at hv
        exact (hleave hv).1
      · rw [goto_pc_of_ne (by simpa using hvw)] at hv
        exact hstop.trans (h.left v hv)
    outside := by
      intro hout c
      have hclient : (.client c : Thread C n) ≠ .worker w := nofun
      rw [goto_pc_of_ne hdestructor] at hout
      rw [goto_pc_of_ne hclient]
      exact h.outside hout c
    drained := by
      intro _ hne
      refine ⟨w, ?_⟩
      rw [goto_pc_self]
      apply Bool.eq_false_iff.mpr
      intro hq
      exact hne (hleave hq).2
    joined := by
      intro v hv
      rw [goto_pc_of_ne hdestructor] at hv
      have hreturned := h.joined v hv
      rw [goto_pc_of_ne]
      · exact hreturned
      · rintro heq
        cases heq
        exact Bool.false_ne_true (hbefore.symm.trans hreturned)
    notified := by
      intro hdone v
      rw [goto_pc_of_ne hdestructor] at hdone
      by_cases hvw : v = w
      · subst hvw
        rw [goto_pc_self]
        apply Bool.eq_false_iff.mpr
        intro hq
        have hset := h.stopped.trans (hasStopped_of_hasNotified hdone)
        exact Bool.false_ne_true ((hwait hq).symm.trans (hstop.trans hset))
      · rw [goto_pc_of_ne (by simpa using hvw)]
        exact h.notified hdone v }

/-- A client goes on, which the destructor rules out. -/
theorem client {c : C} {q : Pc T .client} (h : s.Guarded)
    (hstop : pool.stop = s.pool.stop) (hout : (s.pc .destructor).isOutside = true) :
    ({ s with pool }.goto (.client c) q).Guarded := by
  have hdestructor : (.destructor : Thread C n) ≠ .client c := nofun
  have hworker : ∀ w, (.worker w : Thread C n) ≠ .client c := nofun
  have hunset : s.pool.stop = false := by
    rw [h.stopped, eq_notCalled hout]
    rfl
  exact {
    stopped := by
      rw [goto_pc_of_ne hdestructor]
      exact hstop.trans h.stopped
    left := by
      intro w hw
      rw [goto_pc_of_ne (hworker w)] at hw
      exact hstop.trans (h.left w hw)
    outside := by
      intro hin
      rw [goto_pc_of_ne hdestructor] at hin
      exact absurd (hin.symm.trans hout) Bool.false_ne_true
    drained := by
      intro hpos _
      refine ⟨⟨0, hpos⟩, ?_⟩
      rw [goto_pc_of_ne (hworker _)]
      apply Bool.eq_false_iff.mpr
      intro hleft
      exact Bool.false_ne_true (hunset.symm.trans (h.left _ hleft))
    joined := by
      intro w hw
      rw [goto_pc_of_ne hdestructor, eq_notCalled hout] at hw
      cases hw
    notified := by
      intro hdone
      rw [goto_pc_of_ne hdestructor, eq_notCalled hout] at hdone
      cases hdone }

/-- The destructor goes on, when the clients are gone. -/
theorem destructor {q : Pc T .destructor} (h : s.Guarded) (htasks : pool.tasks = s.pool.tasks)
    (hstop : pool.stop = q.hasStopped) (hkeep : s.pool.stop = true → q.hasStopped = true)
    (hclients : ∀ c, (s.pc (.client c)).isOutside = true)
    (hjoined : ∀ w : Fin n, w.val < q.joined n → (s.pc (.worker w)).isReturned = true)
    (hnotified : q.hasNotified = true → ∀ w, (s.pc (.worker w)).isWaiting = false) :
    ({ s with pool }.goto .destructor q).Guarded := by
  have hworker : ∀ w, (.worker w : Thread C n) ≠ .destructor := nofun
  have hclient : ∀ c, (.client c : Thread C n) ≠ .destructor := nofun
  exact {
    stopped := by
      rw [goto_pc_self]
      exact hstop
    left := by
      intro w hw
      rw [goto_pc_of_ne (hworker w)] at hw
      exact hstop.trans (hkeep (h.left w hw))
    outside := by
      intro _ c
      rw [goto_pc_of_ne (hclient c)]
      exact hclients c
    drained := by
      intro hpos hne
      obtain ⟨w, hw⟩ := h.drained hpos (fun hnil => hne (htasks.trans hnil))
      refine ⟨w, ?_⟩
      rw [goto_pc_of_ne (hworker w)]
      exact hw
    joined := by
      intro w hw
      rw [goto_pc_self] at hw
      rw [goto_pc_of_ne (hworker w)]
      exact hjoined w hw
    notified := by
      intro hdone w
      rw [goto_pc_self] at hdone
      rw [goto_pc_of_ne (hworker w)]
      exact hnotified hdone w }

omit [DecidableEq C] in
/-- A client in a call rules out the destructor. -/
theorem destructor_outside {c : C} (h : s.Guarded)
    (hin : (s.pc (.client c)).isOutside = false) : (s.pc .destructor).isOutside = true := by
  apply Bool.of_not_eq_false
  intro hout
  exact Bool.false_ne_true (hin.symm.trans (h.outside hout c))

omit [DecidableEq C] in
theorem notifyAll (h : s.Guarded) : s.notifyAll.Guarded := by
  have hreturned : ∀ w, (s.notifyAll.pc (.worker w)).isReturned =
      (s.pc (.worker w)).isReturned := by
    intro w
    cases hw : (s.pc (.worker w)).isWaiting with
    | false => rw [show s.notifyAll.pc (.worker w) = s.pc (.worker w) from
        if_neg (Bool.eq_false_iff.mp hw)]
    | true =>
        rw [show s.notifyAll.pc (.worker w) = .lock from if_pos hw, eq_waiting hw]
        rfl
  exact {
    stopped := h.stopped
    left := by
      intro w hw
      rw [hreturned] at hw
      exact h.left w hw
    outside := h.outside
    drained := by
      intro hpos hne
      obtain ⟨w, hw⟩ := h.drained hpos hne
      exact ⟨w, (hreturned w).trans hw⟩
    joined := fun w hw => (hreturned w).trans (h.joined w hw)
    notified := fun _ => notifyAll_isWaiting s }

/-- The steps of the destructor up to `notify_all`, or those of another thread. -/
theorem go (h : s.Guarded) (hstep : Step s.pool t (s.pc t) q pool) :
    ({ s with pool }.goto t q).Guarded := by
  generalize hp : s.pc t = p at hstep
  cases hstep with
  | client hcall =>
      apply h.client hcall.stop_eq
      apply h.destructor_outside
      rw [hp]
      rfl
  | task task hcall => exact h.worker hcall.stop_eq (by rw [hp]; rfl) nofun nofun
  | lock | ready | front | pop | unlock | finish =>
      exact h.worker rfl (by rw [hp]; rfl) nofun nofun
  | wait w hstop _ => exact h.worker rfl (by rw [hp]; rfl) nofun fun _ => hstop
  | leave w hstop htasks => exact h.worker rfl (by rw [hp]; rfl) (fun _ => ⟨hstop, htasks⟩) nofun
  | lockStop =>
      have hstop := h.stopped
      have hout := h.outside
      rw [hp] at hstop hout
      exact h.destructor rfl hstop (fun hset => hstop.symm.trans hset) (hout rfl)
        (fun _ hw => absurd hw (Nat.not_lt_zero _)) nofun
  | setStop =>
      have hout := h.outside
      rw [hp] at hout
      exact h.destructor rfl rfl (fun _ => rfl) (hout rfl)
        (fun _ hw => absurd hw (Nat.not_lt_zero _)) nofun
  | unlockStop =>
      have hstop := h.stopped
      have hout := h.outside
      rw [hp] at hstop hout
      exact h.destructor rfl hstop (fun _ => rfl) (hout rfl)
        (fun _ hw => absurd hw (Nat.not_lt_zero _)) nofun

/-- A call of `enqueue` returns. -/
theorem returns (h : s.Guarded) (hnotified : (s.pc t).notified = some q) :
    (s.goto t q).Guarded := by
  obtain ⟨hquiet, -, hbefore, hafter⟩ := notified_cases hnotified
  cases t with
  | client c =>
      apply h.client rfl
      apply h.destructor_outside
      apply Bool.eq_false_iff.mpr
      intro hout
      match hp : s.pc (.client c), hout with
      | .client none, _ =>
          rw [hp] at hnotified
          cases hnotified
  | worker w =>
      apply h.worker rfl hbefore
      · intro hq
        exact absurd (hafter.symm.trans hq) Bool.false_ne_true
      · intro hq
        exact absurd (hquiet.awake.symm.trans hq) Bool.false_ne_true
  | destructor =>
      cases hp : s.pc .destructor <;> rw [hp] at hnotified <;> cases hnotified

variable [Fintype C]

omit [Fintype C] in
theorem step (h : s.Guarded) (hmove : Moves s l s') : s'.Guarded := by
  cases hmove with
  | @enqueue t f q hmay hcall =>
      cases t with
      | client c => exact h.client rfl hmay
      | worker w =>
          obtain ⟨hquiet, -, hbefore, hafter⟩ := call_cases hcall
          apply h.worker rfl hbefore
          · intro hq
            exact absurd (hafter.symm.trans hq) Bool.false_ne_true
          · intro hq
            exact absurd (hquiet.awake.symm.trans hq) Bool.false_ne_true
      | destructor =>
          cases hp : s.pc .destructor <;> rw [hp] at hcall <;> cases hcall
  | destroy hout hclients =>
      have hstop := h.stopped
      rw [eq_notCalled hout] at hstop
      exact h.destructor rfl hstop (fun hset => hstop.symm.trans hset) hclients
        (fun _ hw => absurd hw (Nat.not_lt_zero _)) nofun
  | wake hwaiting =>
      apply h.worker rfl
      · rw [eq_waiting hwaiting]
        rfl
      · nofun
      · nofun
  | go hstep => exact h.go hstep
  | @notifyOne t q w hnotified hwaiting =>
      have hwoken : (s.goto (.worker w) .lock).Guarded := by
        apply h.worker rfl
        · rw [eq_waiting hwaiting]
          rfl
        · nofun
        · nofun
      -- The one that notifies does not wait itself.
      have hne : t ≠ .worker w := by
        rintro rfl
        rw [eq_waiting hwaiting] at hnotified
        cases hnotified
      apply hwoken.returns
      rw [goto_pc_of_ne hne]
      exact hnotified
  | notifyNone hnotified _ => exact h.returns hnotified
  | notifyAll hpc =>
      have hstop := h.stopped
      have hout := h.outside
      rw [hpc] at hstop hout
      exact h.notifyAll.destructor rfl hstop (fun _ => rfl) (hout rfl)
        (fun _ hw => absurd hw (Nat.not_lt_zero _)) fun _ => notifyAll_isWaiting s
  | @join i hlt hpc hreturned =>
      have hstop := h.stopped
      have hout := h.outside
      have hjoined := h.joined
      have hnotified := h.notified
      rw [hpc] at hstop hout hjoined hnotified
      refine h.destructor rfl hstop (fun _ => rfl) (hout rfl) ?_ fun _ => hnotified rfl
      intro w hw
      obtain hbelow | heq := Nat.lt_succ_iff_lt_or_eq.mp hw
      · exact hjoined w hbelow
      · rw [show w = ⟨i, hlt⟩ from Fin.ext heq]
        exact hreturned
  | joined hle hpc =>
      have hstop := h.stopped
      have hout := h.outside
      have hjoined := h.joined
      have hnotified := h.notified
      rw [hpc] at hstop hout hjoined hnotified
      exact h.destructor rfl hstop (fun _ => rfl) (hout rfl)
        (fun w _ => hjoined w (Nat.lt_of_lt_of_le w.isLt hle)) fun _ => hnotified rfl

end State.Guarded

/-- What holds in every interleaving. -/
structure State.Inv (s : State C T n) : Prop where
  orderly : s.Orderly
  supplied : s.Supplied
  guarded : s.Guarded

/-- The invariant is kept by every move. -/
theorem State.Inv.step (h : s.Inv) (hmove : Moves s l s') : s'.Inv :=
  ⟨h.orderly.step hmove, h.supplied.step hmove, h.guarded.step hmove⟩

/-- It holds in every state reached. -/
theorem inv_of_reach (h : (threads C T n).Reach Machine.Any s) : s.Inv := by
  refine h.invariant (I := State.Inv) ?_ ?_
  · rintro s rfl
    exact ⟨.create, fun ⟨w, hw⟩ => (Bool.false_ne_true hw).elim, .create⟩
  · intro s l s' hinv _ hstep
    exact hinv.step (moves_of_next hstep)

/-! ### Coming to rest -/

/-- A step of a thread that goes on: no new call, and no wakeup without a notification. -/
def Label.own : Label C T n → Prop
  | .go _ | .notifyOne _ _ | .notifyAll | .join => True
  | _ => False

/-- No more steps than this are taken before the threads come to rest. -/
def State.work (s : State C T n) : Nat := ∑ t, (s.pc t).work n + 6 * s.pool.tasks.length

/-- Every call has returned or was never made, and every task has been executed. -/
structure State.AtRest (s : State C T n) : Prop where
  clients : ∀ c, (s.pc (.client c)).isOutside = true
  destructor : s.pc .destructor = .notCalled ∨ s.pc .destructor = .destroyed
  executed : s.pool.finished.Perm s.pool.enqueued

omit [DecidableEq C] in
/-- `notify_all` sends each worker on its way at most. -/
theorem sum_notifyAll (s : State C T n) :
    ∑ t, (s.notifyAll.pc t).work n ≤ ∑ t, (s.pc t).work n + 4 * n := by
  let extra : Thread C n → Nat := fun
    | .worker _ => 4
    | _ => 0
  have hextra : ∑ t, extra t = 4 * n := by
    have hworkers : ∑ w : Fin n, 4 = ∑ t, extra t := by
      apply Fintype.sum_of_injective Thread.worker
      · intro v w heq
        cases heq
        rfl
      · intro t hout
        cases t with
        | worker w => exact absurd ⟨w, rfl⟩ hout
        | client | destructor => rfl
      · intro w
        rfl
    rw [← hworkers]
    simp [Nat.mul_comm]
  rw [← hextra, ← Finset.sum_add_distrib]
  apply Finset.sum_le_sum
  intro t _
  cases t with
  | client | destructor => exact Nat.le_refl _
  | worker w =>
      cases hw : (s.pc (.worker w)).isWaiting with
      | false =>
          rw [show s.notifyAll.pc (.worker w) = s.pc (.worker w) from
            if_neg (Bool.eq_false_iff.mp hw)]
          exact Nat.le_add_right _ _
      | true =>
          rw [show s.notifyAll.pc (.worker w) = .lock from if_pos hw]
          exact Nat.le_add_left _ _

omit [DecidableEq C] [Fintype C] in
/-- A notification leaves five steps more to do. -/
theorem notified_work {r : Role} {p q : Pc T r} (h : p.notified = some q) :
    p.work n = q.work n + 5 := by
  cases p with
  | client call | run _ call =>
      match call, h with
      | some .notify, h =>
          cases h
          rfl
  | _ => cases h

/-- Every step of a thread that goes on is work done. -/
theorem work_lt (h : s.Orderly) (hown : l.own) (hmove : Moves s l s') : s'.work < s.work := by
  unfold State.work
  cases hmove with
  | enqueue | destroy | wake => exact hown.elim
  | @go t q pool hstep =>
      have hsum : ∑ u, (({ s with pool }.goto t q).pc u).work n + (s.pc t).work n =
          ∑ u, (s.pc u).work n + q.work n := sum_goto (Pc.work n) { s with pool } t q
      have hlt := hstep.work_lt (h.sees t)
      rw [goto_pool]
      show _ + 6 * pool.tasks.length < _
      omega
  | @notifyOne t q w hnotified hwaiting =>
      have hne : t ≠ .worker w := by
        rintro rfl
        rw [eq_waiting hwaiting] at hnotified
        cases hnotified
      have hfirst := sum_goto (Pc.work n) s (.worker w) .lock
      have hsecond := sum_goto (Pc.work n) (s.goto (.worker w) .lock) t q
      have hlocks : (Pc.lock : Pc T .worker).work n = 4 := rfl
      rw [goto_pc_of_ne hne, notified_work hnotified] at hsecond
      rw [hlocks] at hfirst
      rw [goto_pool, goto_pool]
      omega
  | @notifyNone t q hnotified _ =>
      have hsum := sum_goto (Pc.work n) s t q
      rw [notified_work hnotified] at hsum
      rw [goto_pool]
      omega
  | notifyAll hpc =>
      have hsum := sum_goto (Pc.work n) s.notifyAll .destructor (.join 0)
      have hall := sum_notifyAll s
      have hbefore : (s.notifyAll.pc .destructor).work n = 5 * n + 3 := by
        rw [show s.notifyAll.pc .destructor = s.pc .destructor from rfl, hpc]
        rfl
      have hafter : (Pc.join 0 : Pc T .destructor).work n = n + 1 := rfl
      rw [hbefore, hafter] at hsum
      rw [goto_pool, show s.notifyAll.pool = s.pool from rfl]
      omega
  | @join i hlt hpc _ =>
      have hsum := sum_goto (Pc.work n) s .destructor (.join (i + 1))
      have hbefore : (Pc.join i : Pc T .destructor).work n = n - i + 1 := rfl
      have hafter : (Pc.join (i + 1) : Pc T .destructor).work n = n - (i + 1) + 1 := rfl
      rw [hpc, hbefore, hafter] at hsum
      rw [goto_pool]
      omega
  | @joined i hle hpc =>
      have hsum := sum_goto (Pc.work n) s .destructor .destroyed
      have hbefore : (Pc.join i : Pc T .destructor).work n = n - i + 1 := rfl
      have hafter : (Pc.destroyed : Pc T .destructor).work n = 0 := rfl
      rw [hpc, hbefore, hafter] at hsum
      rw [goto_pool]
      omega

section AtRest

variable {pool : Pool C T n}

omit [DecidableEq C] [Fintype C]

/-- A client that cannot go on is in no call. -/
theorem client_stuck {c : C} {p : Pc T .client} (hfree : pool.queueMtx = none)
    (hnext : pool.next (.client c) p = none) (hnotified : p.notified = none) :
    p = .client none := by
  match p, hnext, hnotified with
  | .client none, _, _ => rfl
  | .client (some (.lock f)), hnext, _ => simp [Pool.next, Pool.clientNext, Pool.enqueueNext,
      hfree] at hnext
  | .client (some (.emplace f)), hnext, _ => cases hnext
  | .client (some .unlock), hnext, _ => cases hnext
  | .client (some .notify), _, hnotified => cases hnotified

/-- A worker that cannot go on waits or has left. -/
theorem worker_stuck {w : Fin n} {p : Pc T .worker} (hfree : pool.queueMtx = none)
    (hnext : pool.next (.worker w) p = none) (hnotified : p.notified = none)
    (hholds : p.holds = false) : p = .waiting ∨ p = .returned := by
  match p, hnext, hnotified, hholds with
  | .waiting, _, _, _ => exact .inl rfl
  | .returned, _, _, _ => exact .inr rfl
  | .lock, hnext, _, _ => simp [Pool.next, Pool.workerNext, hfree] at hnext
  | .run task none, hnext, _, _ => cases hnext
  | .run task (some (.lock f)), hnext, _, _ => simp [Pool.next, Pool.workerNext,
      Pool.enqueueNext, hfree] at hnext
  | .run task (some .notify), _, hnotified, _ => cases hnotified

/-- A destructor that cannot go on alone is at `notify_all` or `join`, or outside. -/
theorem destructor_stuck {p : Pc T .destructor} (hfree : pool.queueMtx = none)
    (hnext : pool.next .destructor p = none) :
    p = .notCalled ∨ p = .notifyAll ∨ (∃ i, p = .join i) ∨ p = .destroyed := by
  match p, hnext with
  | .notCalled, _ => exact .inl rfl
  | .notifyAll, _ => exact .inr (.inl rfl)
  | .join i, _ => exact .inr (.inr (.inl ⟨i, rfl⟩))
  | .destroyed, _ => exact .inr (.inr (.inr rfl))
  | .lockStop, hnext => simp [Pool.next, Pool.destructorNext, hfree] at hnext
  | .setStop, hnext => cases hnext
  | .unlockStop, hnext => cases hnext

end AtRest

/-- Where no thread can go on, the pool is at rest. -/
theorem atRest_of_still (h : s.Inv) (hpos : 0 < n)
    (hstill : (threads C T n).Still Label.own s) : s.AtRest := by
  have hnext : ∀ t, s.pool.next t (s.pc t) = none := by
    intro t
    by_contra hsome
    obtain ⟨⟨q, pool⟩, hq⟩ := Option.ne_none_iff_exists'.mp hsome
    exact hstill (.go t) _ trivial (Option.map_eq_some_iff.mpr ⟨_, hq, rfl⟩)
  have hnotified : ∀ t, (s.pc t).notified = none := by
    intro t
    by_contra hsome
    obtain ⟨q, hq⟩ := Option.ne_none_iff_exists'.mp hsome
    by_cases hwaits : ∃ w, (s.pc (.worker w)).isWaiting = true
    · obtain ⟨w, hw⟩ := hwaits
      apply hstill (.notifyOne t (some w)) ((s.goto (.worker w) .lock).goto t q) trivial
      show (s.pc t).notified.bind _ = _
      rw [hq]
      simp [State.notifyOne, hw]
    · apply hstill (.notifyOne t none) (s.goto t q) trivial
      show (s.pc t).notified.bind _ = _
      rw [hq]
      simp only [not_exists, Bool.not_eq_true] at hwaits
      simp [State.notifyOne, hwaits]
  -- A thread that holds the mutex can always go on, so none does.
  have hholds : ∀ t, (s.pc t).holds = false := by
    intro t
    apply Bool.eq_false_iff.mpr
    intro hheld
    have hsome := next_isSome hheld (h.orderly.sees t)
    rw [hnext t] at hsome
    cases hsome
  have hfree : s.pool.queueMtx = none := by
    cases howner : s.pool.queueMtx with
    | none => rfl
    | some t =>
        have hheld := (h.orderly.locked t).mpr howner
        exact absurd ((hholds t).symm.trans hheld) Bool.false_ne_true
  have hclient : ∀ c, s.pc (.client c) = .client none := fun c =>
    client_stuck hfree (hnext _) (hnotified _)
  have hworker : ∀ w, s.pc (.worker w) = .waiting ∨ s.pc (.worker w) = .returned := fun w =>
    worker_stuck hfree (hnext _) (hnotified _) (hholds _)
  have hdestructor : s.pc .destructor = .notCalled ∨ s.pc .destructor = .destroyed := by
    obtain hout | hall | ⟨i, hjoin⟩ | hdone := destructor_stuck hfree (hnext .destructor)
    · exact .inl hout
    · refine absurd ?_ (hstill .notifyAll (s.notifyAll.goto .destructor (.join 0)) trivial)
      simp [threads, Machine.ofFun, next, hall]
    · by_cases hlt : i < n
      · have hleft : s.pc (.worker ⟨i, hlt⟩) = .returned := by
          obtain hwaits | hleft := hworker ⟨i, hlt⟩
          · have hno := h.guarded.notified (by rw [hjoin]; rfl) ⟨i, hlt⟩
            rw [hwaits] at hno
            cases hno
          · exact hleft
        refine absurd ?_ (hstill .join (s.goto .destructor (.join (i + 1))) trivial)
        simp [threads, Machine.ofFun, next, hjoin, State.join, hlt, hleft, Pc.isReturned]
      · refine absurd ?_ (hstill .join (s.goto .destructor .destroyed) trivial)
        simp [threads, Machine.ofFun, next, hjoin, State.join, hlt]
    · exact .inr hdone
  -- All that could still notify is at rest, so a task left over would have a worker awake for it.
  have hsupply : ∑ t, (s.pc t).supply = 0 := by
    apply Finset.sum_eq_zero
    intro t _
    cases t with
    | client c =>
        rw [hclient c]
        rfl
    | worker w => obtain hw | hw := hworker w <;> rw [hw] <;> rfl
    | destructor => obtain hd | hd := hdestructor <;> rw [hd] <;> rfl
  have hnil : s.pool.tasks = [] := by
    by_contra hne
    obtain ⟨w, hw⟩ := h.guarded.drained hpos hne
    obtain hwaits | hleft := hworker w
    · have hle := h.supplied ⟨w, by rw [hwaits]; rfl⟩
      rw [hsupply] at hle
      exact hne (List.eq_nil_of_length_eq_zero (Nat.le_zero.mp hle))
    · rw [hleft] at hw
      cases hw
  exact {
    clients := by
      intro c
      rw [hclient c]
      rfl
    destructor := hdestructor
    executed := by
      apply h.orderly.executed hnil
      intro w
      obtain hw | hw := hworker w <;> rw [hw] <;> rfl }

/-! ### The pool -/

/-- Each queued task is taken once, in the order of the queueing, and is then with one worker until
it has been executed; no two threads hold the mutex. -/
theorem tasks_in_order (h : (threads C T n).Reach Machine.Any s) :
    s.pool.enqueued = s.pool.started ++ s.pool.tasks ∧
      (s.pool.started : Multiset T) = s.pool.finished + ∑ w, (s.pc (.worker w)).task ∧
      ∀ t u, (s.pc t).holds = true → (s.pc u).holds = true → t = u :=
  have hinv := (inv_of_reach h).orderly
  ⟨hinv.queue, hinv.started_eq, fun _ _ => hinv.locked.unique⟩

section Example

/-- The worker waits, and a task is queued. -/
def queued : List (Label Unit Nat 1) :=
  [.go (.worker 0), .go (.worker 0), .enqueue (.client ()) 7, .go (.client ()), .go (.client ())]

/-- The worker is notified and executes the task. -/
def executed : List (Label Unit Nat 1) :=
  queued ++ [.go (.client ()), .notifyOne (.client ()) (some 0), .go (.worker 0), .go (.worker 0),
    .go (.worker 0), .go (.worker 0), .go (.worker 0), .go (.worker 0)]

/-- The worker waits again, and the pool is destroyed. -/
def destroyed : List (Label Unit Nat 1) :=
  executed ++ [.go (.worker 0), .go (.worker 0), .destroy, .go .destructor, .go .destructor,
    .go .destructor, .notifyAll, .go (.worker 0), .go (.worker 0), .go (.worker 0), .join, .join]

theorem reach_of_replay {labels : List (Label Unit Nat 1)} {s : State Unit Nat 1}
    (h : Machine.replay next (fun _ _ => true) create labels = some s) :
    (threads Unit Nat 1).Reach Machine.Any s :=
  .of_replay (fun _ _ _ => trivial) (.init rfl) h

end Example

theorem tasks_in_order_executed : ∃ s : State Unit Nat 1, s.pool.finished = [7] ∧
    s.pool.enqueued = s.pool.started ++ s.pool.tasks ∧
      (s.pool.started : Multiset Nat) = s.pool.finished + ∑ w, (s.pc (.worker w)).task ∧
      ∀ t u, (s.pc t).holds = true → (s.pc u).holds = true → t = u := by
  have hrun : (Machine.replay next (fun _ _ => true) create executed).map
      (fun s => s.pool.finished) = some [7] := by decide
  obtain ⟨s, hs, hend⟩ := Option.map_eq_some_iff.mp hrun
  exact ⟨s, hend, tasks_in_order (reach_of_replay hs)⟩

/-- No wakeup is lost: while a worker waits, the tasks that are queued are no more than the workers
on their way to the queue and the notifications on their way to a worker. -/
theorem no_wakeup_lost (h : (threads C T n).Reach Machine.Any s) {w : Fin n}
    (hwaiting : (s.pc (.worker w)).isWaiting = true) :
    s.pool.tasks.length ≤ ∑ t, (s.pc t).supply :=
  (inv_of_reach h).supplied ⟨w, hwaiting⟩

theorem no_wakeup_lost_queued : ∃ s : State Unit Nat 1, s.pool.tasks = [7] ∧
    s.pool.tasks.length ≤ ∑ t, (s.pc t).supply := by
  have hrun : (Machine.replay next (fun _ _ => true) create queued).map
      (fun s => (s.pool.tasks, (s.pc (.worker 0)).isWaiting)) = some ([7], true) := by decide
  obtain ⟨s, hs, hend⟩ := Option.map_eq_some_iff.mp hrun
  obtain ⟨htasks, hwaiting⟩ := Prod.mk.inj hend
  exact ⟨s, htasks, no_wakeup_lost (reach_of_replay hs) hwaiting⟩

/-- When the destructor has returned, every task that was ever queued has been executed once, and
no worker runs any more. -/
theorem destroyed_finished (h : (threads C T n).Reach Machine.Any s) (hpos : 0 < n)
    (hdone : s.pc .destructor = .destroyed) :
    s.pool.finished.Perm s.pool.enqueued ∧ ∀ w, s.pc (.worker w) = .returned := by
  have hinv := inv_of_reach h
  have hworker : ∀ w, s.pc (.worker w) = .returned := by
    intro w
    apply eq_returned
    apply hinv.guarded.joined w
    rw [hdone]
    exact w.isLt
  refine ⟨hinv.orderly.executed ?_ ?_, hworker⟩
  · by_contra hne
    obtain ⟨w, hw⟩ := hinv.guarded.drained hpos hne
    rw [hworker w] at hw
    cases hw
  · intro w
    rw [hworker w]
    rfl

theorem destroyed_finished_destroyed : ∃ s : State Unit Nat 1, s.pool.enqueued = [7] ∧
    s.pool.finished.Perm s.pool.enqueued ∧ ∀ w, s.pc (.worker w) = .returned := by
  have hrun : (Machine.replay next (fun _ _ => true) create destroyed).map
      (fun s => (s.pool.enqueued, decide (s.pc .destructor = .destroyed))) = some ([7], true) := by
    decide
  obtain ⟨s, hs, hend⟩ := Option.map_eq_some_iff.mp hrun
  obtain ⟨henqueued, hdone⟩ := Prod.mk.inj hend
  exact ⟨s, henqueued, destroyed_finished (reach_of_replay hs) Nat.one_pos
    (of_decide_eq_true hdone)⟩

omit [DecidableEq C] [Fintype C] in
theorem call_destructor {f : T} {p : Pc T .destructor} : p.call f = none := by
  cases p <;> rfl

omit [DecidableEq C] [Fintype C] in
theorem notified_destructor {p : Pc T .destructor} : p.notified = none := by
  cases p <;> rfl

omit [Fintype C] in
/-- A destructor that has been called stays called. -/
theorem Moves.called (hmove : Moves s l s') (hcalled : s.pc .destructor ≠ .notCalled) :
    s'.pc .destructor ≠ .notCalled := by
  have hworker : ∀ w, (.destructor : Thread C n) ≠ .worker w := nofun
  have hother : ∀ (s : State C T n) (t : Thread C n) (q : Pc T t.role),
      s.pc .destructor ≠ .notCalled → t ≠ .destructor →
        (s.goto t q).pc .destructor ≠ .notCalled := by
    intro s t q hs ht
    rw [goto_pc_of_ne (Ne.symm ht)]
    exact hs
  cases hmove with
  | @enqueue t f q _ hcall =>
      apply hother _ _ _ hcalled
      rintro rfl
      rw [call_destructor] at hcall
      cases hcall
  | destroy | joined =>
      rw [goto_pc_self]
      nofun
  | wake => exact hother _ _ _ hcalled nofun
  | @go t q pool hstep =>
      by_cases ht : t = .destructor
      · subst ht
        rw [goto_pc_self]
        generalize s.pc .destructor = p at hstep
        cases hstep <;> nofun
      · exact hother _ _ _ hcalled ht
  | notifyOne hnotified _ =>
      apply hother _ _ _ (hother _ _ _ hcalled (Ne.symm (hworker _)))
      rintro rfl
      rw [notified_destructor] at hnotified
      cases hnotified
  | notifyNone hnotified _ =>
      apply hother _ _ _ hcalled
      rintro rfl
      rw [notified_destructor] at hnotified
      cases hnotified
  | notifyAll | join =>
      rw [goto_pc_self]
      nofun

/-- If the threads go on as long as any can, and no call is made and no worker wakes up without a
notification, then after at most as many steps as the work there was, every task has been
executed and every call has returned, that of the destructor included. -/
theorem comes_to_rest {run : Nat → State C T n} (hpos : 0 < n)
    (h : (threads C T n).Reach Machine.Any (run 0))
    (hrun : (threads C T n).Scheduled Label.own run) :
    ∃ k ≤ (run 0).work, (run k).AtRest ∧
      ((run 0).pc .destructor ≠ .notCalled → (run k).pc .destructor = .destroyed) := by
  let I (s : State C T n) : Prop :=
    s.Inv ∧ ((run 0).pc .destructor ≠ .notCalled → s.pc .destructor ≠ .notCalled)
  have hkeep : ∀ s l s', I s → l.own → next s l = some s' → I s' := by
    intro s l s' hI _ hstep
    have hmove := moves_of_next hstep
    exact ⟨hI.1.step hmove, fun hcalled => hmove.called (hI.2 hcalled)⟩
  have hlower : ∀ s l s', I s → l.own → next s l = some s' → s'.work < s.work := by
    intro s l s' hI hown hstep
    exact work_lt hI.1.orderly hown (moves_of_next hstep)
  obtain ⟨k, hk, hI, hstill⟩ := Machine.settles State.work hkeep hlower hrun ⟨inv_of_reach h, id⟩
  have hrest := atRest_of_still hI.1 hpos hstill
  exact ⟨k, hk, hrest, fun hcalled => hrest.destructor.resolve_left (hI.2 hcalled)⟩

theorem comes_to_rest_queued : ∃ run : Nat → State Unit Nat 1,
    (run 0).pool.tasks = [7] ∧ ∃ k ≤ (run 0).work, (run k).AtRest := by
  have hrun : (Machine.replay next (fun _ _ => true) create queued).map
      (fun s => s.pool.tasks) = some [7] := by decide
  obtain ⟨s, hs, hend⟩ := Option.map_eq_some_iff.mp hrun
  obtain ⟨run, rfl, hsched⟩ := Machine.exists_scheduled (threads Unit Nat 1) Label.own s
  obtain ⟨k, hk, hrest, -⟩ := comes_to_rest Nat.one_pos (reach_of_replay hs) hsched
  exact ⟨run, hend, k, hk, hrest⟩

end NanoVault.Utils.ThreadPool
