/-
The MEMORY store (`memorySet`, `memoryGet` and `memoryScheduler` in `generator.hpp`).

Any number of threads share the store and the heap of expiries. Each section a thread runs
under a lock is one step, and so is each reading of the clock; what a thread knows between two
sections is in its `Pc`. Time is counted in nanoseconds and moves in steps of its own; `⊤` is
`time_point::max()`. The scheduler may wake up at any time.

`memoryGet` looks at an entry under one lock and erases it under another. A value stored in
between is lost (`stored_value_erased`). In runs in which every entry that is erased so has
expired, every call answers with the value stored last, or none if that has expired
(`memoryGet_answers`). The scheduler compares the expiry it has popped with the entry's, so
its sections need no such condition.
-/
import NanoVault.Lib.Machine
import NanoVault.Table.Value

namespace NanoVault.Memory

open Lib Table

/-- `std::chrono::steady_clock::time_point`. -/
abbrev TimePoint := WithTop Nat

structure MemoryEntry where
  value : Text
  expiry : TimePoint
deriving DecidableEq

structure ExpiryNode where
  expiry : TimePoint
  key : Text
deriving DecidableEq

inductive Pc where
  | idle
  /-- `memorySet` has computed the expiry; it stores the value next. -/
  | storing (key value : Text) (ttlSeconds : Int) (expiry : TimePoint)
  /-- `memorySet` pushes the expiry next. -/
  | pushing (node : ExpiryNode)
  /-- `memoryGet` has found an expired entry, when `due` should have been answered; it erases
  the key next. -/
  | erasing (key : Text) (due : Option Text)
  /-- `memoryScheduler` has read the clock; it pops what has expired by then. -/
  | scheduling (now : Nat)
deriving DecidableEq

/-- A call of `memoryGet` that has returned: what it should have answered when its read section
ran, and what it has answered, `none` for false. -/
structure Answer where
  key : Text
  due : Option Text
  answer : Option Text
deriving DecidableEq

/-- The store and the threads. `lastSet` and `answers` record the store sections and the calls
of `memoryGet`; no step depends on them. -/
structure Store (ι : Type) where
  now : Nat := 0
  memoryStore : Text → Option MemoryEntry := fun _ => none
  expiryHeap : List ExpiryNode := []
  pc : ι → Pc := fun _ => .idle
  lastSet : Text → Option MemoryEntry := fun _ => none
  answers : List Answer := []

/-- The steps of the threads `ι`, and those of the clock. -/
inductive Action (ι : Type) where
  | tick (nanoseconds : Nat)
  | set (t : ι) (key value : Text) (ttlSeconds : Int)
  | store (t : ι)
  | push (t : ι)
  | get (t : ι) (key : Text)
  | erase (t : ι)
  | wake (t : ι)
  /-- Of several nodes that expire first, `top()` may be any. -/
  | pop (t : ι) (node : ExpiryNode)
  | sleep (t : ι)

variable {ι : Type}

/-- The value of an entry that has not expired. -/
def MemoryEntry.live (now : Nat) (e : MemoryEntry) : Option Text :=
  if now < e.expiry then some e.value else none

/-- What `memoryGet` should answer: the value set last, if it has not expired. -/
def Store.due (s : Store ι) (key : Text) : Option Text :=
  (s.lastSet key).bind (MemoryEntry.live s.now)

def expiryOf (now : Nat) (ttlSeconds : Int) : TimePoint :=
  if ttlSeconds < 0 then ⊤ else ((now + ttlSeconds.toNat * 10 ^ 9 : Nat) : TimePoint)

/-- A call of `memoryGet` returns. -/
def Store.reply (s : Store ι) (a : Answer) : Store ι := { s with answers := s.answers ++ [a] }

/-- The store section of `memorySet`. -/
def Store.put (s : Store ι) (key : Text) (e : MemoryEntry) : Store ι :=
  { s with
    memoryStore := Function.update s.memoryStore key (some e)
    lastSet := Function.update s.lastSet key (some e) }

/-- `memoryStore.erase`. -/
def Store.remove (s : Store ι) (key : Text) : Store ι :=
  { s with memoryStore := Function.update s.memoryStore key none }

/-- `memorySet` has stored its value; without a TTL it is done. -/
def afterStore (key : Text) (ttlSeconds : Int) (expiry : TimePoint) : Pc :=
  if 0 ≤ ttlSeconds then .pushing ⟨expiry, key⟩ else .idle

/-- `top()` of the heap may be this node. -/
def Store.top (s : Store ι) (node : ExpiryNode) : Prop :=
  node ∈ s.expiryHeap ∧ ∀ n ∈ s.expiryHeap, node.expiry ≤ n.expiry

instance (s : Store ι) (node : ExpiryNode) : Decidable (s.top node) :=
  inferInstanceAs (Decidable (_ ∧ _))

/-- `expiryHeap.pop()`, and the erasure of the entry if it still has the expiry of the node. -/
def Store.expire (s : Store ι) (node : ExpiryNode) : Store ι :=
  let s := { s with expiryHeap := s.expiryHeap.erase node }
  match s.memoryStore node.key with
  | none => s
  | some e => if e.expiry = node.expiry then s.remove node.key else s

section Threads

variable [DecidableEq ι]

def Store.goto (s : Store ι) (t : ι) (pc : Pc) : Store ι :=
  { s with pc := Function.update s.pc t pc }

/-- The read section of `memoryGet`. -/
def Store.read (s : Store ι) (t : ι) (key : Text) : Store ι :=
  match s.memoryStore key with
  | none => s.reply ⟨key, s.due key, none⟩
  | some e =>
      if s.now < e.expiry then s.reply ⟨key, s.due key, some e.value⟩
      else s.goto t (.erasing key (s.due key))

def next (s : Store ι) : Action ι → Option (Store ι)
  | .tick nanoseconds => some { s with now := s.now + nanoseconds }
  | .set t key value ttlSeconds =>
      match s.pc t with
      | .idle => some (s.goto t (.storing key value ttlSeconds (expiryOf s.now ttlSeconds)))
      | _ => none
  | .store t =>
      match s.pc t with
      | .storing key value ttlSeconds expiry =>
          some ((s.put key ⟨value, expiry⟩).goto t (afterStore key ttlSeconds expiry))
      | _ => none
  | .push t =>
      match s.pc t with
      | .pushing node => some ({ s with expiryHeap := node :: s.expiryHeap }.goto t .idle)
      | _ => none
  | .get t key =>
      match s.pc t with
      | .idle => some (s.read t key)
      | _ => none
  | .erase t =>
      match s.pc t with
      | .erasing key due => some (((s.remove key).reply ⟨key, due, none⟩).goto t .idle)
      | _ => none
  | .wake t =>
      match s.pc t with
      | .idle => some (s.goto t (.scheduling s.now))
      | _ => none
  | .pop t node =>
      match s.pc t with
      | .scheduling now =>
          if s.top node ∧ node.expiry ≤ now then some (s.expire node) else none
      | _ => none
  | .sleep t =>
      match s.pc t with
      | .scheduling _ => some (s.goto t .idle)
      | _ => none

def memoryMachine (ι : Type) [DecidableEq ι] : Machine (Store ι) (Action ι) :=
  Machine.ofFun {} next

end Threads

/-- An entry that `memoryGet` erases is missing by then, or has expired. -/
def EraseSafe (s : Store ι) : Action ι → Prop
  | .erase t => ∀ key due, s.pc t = .erasing key due →
      ∀ e, s.memoryStore key = some e → e.expiry ≤ s.now
  | _ => True

/-- The test of `EraseSafe`. -/
def erasesExpired (s : Store ι) : Action ι → Bool
  | .erase t =>
      match s.pc t with
      | .erasing key _ => (s.memoryStore key).all fun e => decide (e.expiry ≤ (s.now : TimePoint))
      | _ => true
  | _ => true

theorem eraseSafe_of_erasesExpired (s : Store ι) (a : Action ι)
    (h : erasesExpired s a = true) : EraseSafe s a := by
  cases a with
  | erase t =>
      intro key due hpc e hentry
      simpa only [erasesExpired, hpc, hentry, Option.all_some, decide_eq_true_eq] using h
  | _ => trivial

/-! ### The invariant -/

/-- The store has the entries set last, but perhaps not all that have expired; every call of
`memoryGet` has answered what was due, and the clocks the threads have read were not ahead. -/
structure Kept (s : Store ι) : Prop where
  entries : ∀ key, s.memoryStore key = s.lastSet key ∨
    s.memoryStore key = none ∧ s.due key = none
  erasing : ∀ t key due, s.pc t = .erasing key due → due = none
  scheduling : ∀ t now, s.pc t = .scheduling now → now ≤ s.now
  answers : ∀ a ∈ s.answers, a.answer = a.due

variable {s s' : Store ι} {t : ι} {key : Text} {e : MemoryEntry} {pc : Pc} {node : ExpiryNode}

theorem MemoryEntry.live_eq_none {now : Nat} : e.live now = none ↔ e.expiry ≤ now := by
  rw [live, ite_eq_right_iff, ← not_lt]
  simp

theorem Store.due_eq_none : s.due key = none ↔ ∀ e, s.lastSet key = some e → e.expiry ≤ s.now := by
  rw [due, Option.bind_eq_none_iff]
  exact forall₂_congr fun e _ => MemoryEntry.live_eq_none

/-- What is due is what the store has of it. -/
theorem Kept.due_eq (h : Kept s) (key : Text) :
    s.due key = (s.memoryStore key).bind (MemoryEntry.live s.now) := by
  obtain hentry | ⟨hnone, hdue⟩ := h.entries key
  · rw [hentry]
    rfl
  · rw [hnone, hdue]
    rfl

theorem Kept.init : Kept ({} : Store ι) where
  entries _ := .inl rfl
  erasing _ _ _ hpc := by cases hpc
  scheduling _ _ hpc := by cases hpc
  answers _ ha := by cases ha

/-! ### Steps -/

theorem Kept.reply {a : Answer} (h : Kept s) (ha : a.answer = a.due) : Kept (s.reply a) := by
  refine ⟨h.entries, h.erasing, h.scheduling, ?_⟩
  intro b hb
  obtain hb | hb := List.mem_append.mp hb
  · exact h.answers b hb
  · rw [List.mem_singleton.mp hb]
    exact ha

/-- Time passes: what was not due is not due later. -/
theorem Kept.tick (h : Kept s) (nanoseconds : Nat) :
    Kept { s with now := s.now + nanoseconds } := by
  have hlater : s.now ≤ s.now + nanoseconds := Nat.le_add_right _ _
  refine ⟨?_, h.erasing, fun u now hpc => (h.scheduling u now hpc).trans hlater, h.answers⟩
  intro key
  refine (h.entries key).imp_right fun ⟨hnone, hdue⟩ => ⟨hnone, ?_⟩
  rw [Store.due_eq_none] at hdue ⊢
  intro e he
  exact (hdue e he).trans (WithTop.coe_le_coe.mpr hlater)

theorem Kept.put (h : Kept s) (key : Text) (e : MemoryEntry) : Kept (s.put key e) := by
  refine ⟨fun other => ?_, h.erasing, h.scheduling, h.answers⟩
  by_cases hother : other = key
  · subst hother
    exact .inl (by simp [Store.put])
  · have hentries := h.entries other
    simpa [Store.put, Store.due, Function.update_of_ne hother] using hentries

/-- An entry that has expired may go. -/
theorem Kept.remove (h : Kept s)
    (hexpired : ∀ e, s.memoryStore key = some e → e.expiry ≤ s.now) : Kept (s.remove key) := by
  refine ⟨fun other => ?_, h.erasing, h.scheduling, h.answers⟩
  by_cases hother : other = key
  · subst hother
    refine .inr ⟨Function.update_self .., ?_⟩
    have hdue := h.due_eq other
    cases hentry : s.memoryStore other with
    | none => rwa [hentry] at hdue
    | some e =>
        rw [hentry] at hdue
        exact hdue.trans (MemoryEntry.live_eq_none.mpr (hexpired e hentry))
  · have hentries := h.entries other
    simpa [Store.remove, Store.due, Function.update_of_ne hother] using hentries

/-- The scheduler erases an entry only if it expires with the node, which has expired. -/
theorem Kept.expire (h : Kept s) (hexpired : node.expiry ≤ s.now) : Kept (s.expire node) := by
  have hpopped : Kept { s with expiryHeap := s.expiryHeap.erase node } :=
    ⟨h.entries, h.erasing, h.scheduling, h.answers⟩
  rw [Store.expire]
  cases hentry : s.memoryStore node.key with
  | none => simpa only [hentry] using hpopped
  | some e =>
      dsimp only
      split
      · next heq =>
          apply hpopped.remove
          intro e' he'
          obtain rfl := Option.some.inj (hentry.symm.trans he')
          exact heq.trans_le hexpired
      · exact hpopped

/-! ### The threads -/

variable [DecidableEq ι]

/-- A thread that moves on keeps the invariant if what it takes along is right. -/
theorem Kept.goto (h : Kept s) (herasing : ∀ key due, pc = .erasing key due → due = none)
    (hscheduling : ∀ now, pc = .scheduling now → now ≤ s.now) : Kept (s.goto t pc) := by
  refine ⟨h.entries, ?_, ?_, h.answers⟩
  · intro u key due hpc
    replace hpc : Function.update s.pc t pc u = _ := hpc
    rw [Function.update_apply] at hpc
    split at hpc
    · exact herasing key due hpc
    · exact h.erasing u key due hpc
  · intro u now hpc
    replace hpc : Function.update s.pc t pc u = _ := hpc
    rw [Function.update_apply] at hpc
    split at hpc
    · exact hscheduling now hpc
    · exact h.scheduling u now hpc

theorem Kept.goto_idle (h : Kept s) : Kept (s.goto t .idle) :=
  h.goto (fun _ _ hpc => by cases hpc) (fun _ hpc => by cases hpc)

/-- The read section answers what is due, or finds that nothing is. -/
theorem Kept.read (h : Kept s) (t : ι) (key : Text) : Kept (s.read t key) := by
  have hdue := h.due_eq key
  rw [Store.read]
  cases hentry : s.memoryStore key with
  | none =>
      rw [hentry] at hdue
      exact h.reply hdue.symm
  | some e =>
      rw [hentry, Option.bind_some] at hdue
      dsimp only
      split
      · next hlive =>
          rw [MemoryEntry.live, if_pos hlive] at hdue
          exact h.reply hdue.symm
      · next hexpired =>
          rw [MemoryEntry.live, if_neg hexpired] at hdue
          apply h.goto
          · intro _ _ hpc
            cases hpc
            exact hdue
          · intro _ hpc
            cases hpc

/-- A step keeps the invariant, if an entry that `memoryGet` erases is missing or has expired. -/
theorem Kept.next {a : Action ι} (h : Kept s) (hsafe : EraseSafe s a)
    (hstep : Memory.next s a = some s') : Kept s' := by
  cases a with
  | tick nanoseconds =>
      obtain rfl := Option.some.inj hstep
      exact h.tick nanoseconds
  | set t key value ttlSeconds =>
      simp only [Memory.next] at hstep
      split at hstep
      · obtain rfl := Option.some.inj hstep
        exact h.goto (fun _ _ hpc => by cases hpc) (fun _ hpc => by cases hpc)
      · cases hstep
  | store t =>
      simp only [Memory.next] at hstep
      split at hstep
      · next key value ttlSeconds expiry _ =>
          obtain rfl := Option.some.inj hstep
          apply (h.put key ⟨value, expiry⟩).goto
          · intro _ _ hpc
            rw [afterStore] at hpc
            split at hpc <;> cases hpc
          · intro _ hpc
            rw [afterStore] at hpc
            split at hpc <;> cases hpc
      · cases hstep
  | push t =>
      simp only [Memory.next] at hstep
      split at hstep
      · next node _ =>
          obtain rfl := Option.some.inj hstep
          have hpushed : Kept { s with expiryHeap := node :: s.expiryHeap } :=
            ⟨h.entries, h.erasing, h.scheduling, h.answers⟩
          exact hpushed.goto_idle
      · cases hstep
  | get t key =>
      simp only [Memory.next] at hstep
      split at hstep
      · obtain rfl := Option.some.inj hstep
        exact h.read t key
      · cases hstep
  | erase t =>
      simp only [Memory.next] at hstep
      split at hstep
      · next key due hpc =>
          obtain rfl := Option.some.inj hstep
          -- Only here the condition is used: the entry found expired is still the one erased.
          have hdue : none = due := (h.erasing t key due hpc).symm
          exact ((h.remove (hsafe key due hpc)).reply hdue).goto_idle
      · cases hstep
  | wake t =>
      simp only [Memory.next] at hstep
      split at hstep
      · obtain rfl := Option.some.inj hstep
        apply h.goto
        · intro _ _ hpc
          cases hpc
        · intro now hpc
          cases hpc
          exact Nat.le_refl _
      · cases hstep
  | pop t node =>
      simp only [Memory.next] at hstep
      split at hstep
      · next now hpc =>
          split at hstep
          · next hpop =>
              obtain rfl := Option.some.inj hstep
              exact h.expire (hpop.2.trans (WithTop.coe_le_coe.mpr (h.scheduling t now hpc)))
          · cases hstep
      · cases hstep
  | sleep t =>
      simp only [Memory.next] at hstep
      split at hstep
      · obtain rfl := Option.some.inj hstep
        exact h.goto_idle
      · cases hstep

theorem kept_reach (h : (memoryMachine ι).Reach EraseSafe s) : Kept s := by
  refine h.invariant ?_ ?_
  · rintro s rfl
    exact .init
  · intro s a s' hkept hsafe hstep
    exact hkept.next hsafe hstep

/-- In every run in which the entries that `memoryGet` erases have expired, each of its calls
has answered the value set last when its read section ran, or false if that had expired. -/
theorem memoryGet_answers (h : (memoryMachine ι).Reach EraseSafe s) :
    ∀ a ∈ s.answers, a.answer = a.due := (kept_reach h).answers

/-- An entry that has not expired is lost when it is erased: the next call does not find it. -/
theorem live_entry_lost {due : Option Text} (h : Kept s) (hpc : s.pc t = .erasing key due)
    (hentry : s.memoryStore key = some e) (hlive : s.now < e.expiry) :
    ∃ s₁ s₂, next s (.erase t) = some s₁ ∧ next s₁ (.get t key) = some s₂ ∧
      ∃ a ∈ s₂.answers, a.answer ≠ a.due := by
  have hdue := h.due_eq key
  rw [hentry, Option.bind_some, MemoryEntry.live, if_pos hlive] at hdue
  generalize herased : ((s.remove key).reply ⟨key, due, none⟩).goto t .idle = s₁
  have hidle : s₁.pc t = .idle := by
    subst herased
    exact Function.update_self ..
  have hgone : s₁.memoryStore key = none := by
    subst herased
    exact Function.update_self ..
  have hdue₁ : s₁.due key = some e.value := by
    subst herased
    exact hdue
  refine ⟨s₁, s₁.read t key, ?_, ?_, ⟨key, some e.value, none⟩, ?_, ?_⟩
  · rw [next, hpc]
    exact congrArg some herased
  · rw [next, hidle]
  · rw [Store.read, hgone, hdue₁]
    exact List.mem_append_right _ (List.mem_singleton_self _)
  · intro h
    cases h

/-! ### Two runs -/

/-- Thread 0 sets `k` to a value that expires at once, and `m` to one that expires in a second.
Thread 1 finds the first expired and erases it, thread 2 pops the second when its time has come,
and thread 0 sets `k` again, without a TTL. -/
def expiredTwice : List (Action Nat) :=
  [.set 0 ['k'] ['a'] 0, .store 0, .push 0, .set 0 ['m'] ['c'] 1, .store 0, .push 0,
    .get 1 ['m'], .get 1 ['k'], .erase 1, .tick (10 ^ 9), .wake 2, .pop 2 ⟨(0 : Nat), ['k']⟩,
    .pop 2 ⟨(10 ^ 9 : Nat), ['m']⟩, .sleep 2, .get 1 ['m'], .set 0 ['k'] ['b'] (-1), .store 0,
    .get 1 ['k']]

theorem memoryGet_answers_expiredTwice : ∃ s, (memoryMachine Nat).Reach EraseSafe s ∧
    s.answers = [⟨['m'], some ['c'], some ['c']⟩, ⟨['k'], none, none⟩, ⟨['m'], none, none⟩,
      ⟨['k'], some ['b'], some ['b']⟩] ∧ ∀ a ∈ s.answers, a.answer = a.due := by
  have hrun : ∃ s, Machine.replay next erasesExpired {} expiredTwice = some s ∧
      s.answers = [⟨['m'], some ['c'], some ['c']⟩, ⟨['k'], none, none⟩, ⟨['m'], none, none⟩,
        ⟨['k'], some ['b'], some ['b']⟩] := ⟨_, rfl, by decide⟩
  obtain ⟨s, hreplay, hanswers⟩ := hrun
  have h : (memoryMachine Nat).Reach EraseSafe s :=
    Machine.Reach.of_replay eraseSafe_of_erasesExpired (.init rfl) hreplay
  exact ⟨s, h, hanswers, memoryGet_answers h⟩

/-- Thread 0 sets `k` to a value that expires at once. Thread 1 finds it expired, and erases the
key after thread 0 has set it again, without a TTL: thread 2 gets nothing. -/
def erasedWhileSet : List (Action Nat) :=
  [.set 0 ['k'] ['a'] 0, .store 0, .push 0, .get 1 ['k'], .set 0 ['k'] ['b'] (-1), .store 0,
    .erase 1, .get 2 ['k']]

theorem stored_value_erased : ∃ s, (memoryMachine Nat).Reach Machine.Any s ∧
    ⟨['k'], some ['b'], none⟩ ∈ s.answers := by
  have hrun : ∃ s, Machine.replay next (fun _ _ => true) {} erasedWhileSet = some s ∧
      ⟨['k'], some ['b'], none⟩ ∈ s.answers := ⟨_, rfl, by decide⟩
  obtain ⟨s, hreplay, hanswer⟩ := hrun
  exact ⟨s, Machine.Reach.of_replay (fun _ _ _ => trivial) (.init rfl) hreplay, hanswer⟩

end NanoVault.Memory
