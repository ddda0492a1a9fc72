/-
`PacketParseQueue` (`SPSCQueue` in `utils/spsc.hpp`) between the threads that feed it and
`run_packet_parser`.

The queue is made for one producer. Every load and store of the counters `head_` and `tail_`,
which wrap, and every access to a slot is a step of its own; what a thread holds between two of
them is in its program counter. `pushed` and `popped` record the calls that have returned true.

`run_receiver` and `run_trade_handler` both push. When a push finds room in the queue, but
another one is about to write the same slot or `head_` has moved on since it was loaded, a
packet is overwritten (`packet_overwritten`). In runs without such pushes what has been popped,
and what the consumer will pop, are the packets pushed, in their order (`packets_delivered`).
-/
import NanoVault.Lib.Machine
import NanoVault.Lib.Ring
import NanoVault.Hft.Packets

namespace NanoVault.Hft

open Lib Lib.Ring

/-- `PacketParserQueueSize`. -/
def capacity : Nat := 1024

structure SPSCQueue (α : Type) where
  head : UInt64 := 0
  tail : UInt64 := 0
  buffer : Nat → α

inductive PushPc (α : Type) where
  | idle
  /-- `head_` was `h`; `tail_` is loaded next. -/
  | loaded (item : α) (h : UInt64)
  /-- There was room; the slot is written next. -/
  | writing (item : α) (h : UInt64)
  /-- The slot is written; `head_` is stored next. -/
  | publishing (item : α) (h : UInt64)

inductive PopPc (α : Type) where
  | idle
  /-- `tail_` was `t`; `head_` is loaded next. -/
  | loaded (t : UInt64)
  /-- There was a packet; the slot is read next. -/
  | reading (t : UInt64)
  /-- The slot is read; `tail_` is stored next. -/
  | storing (t : UInt64) (item : α)

/-- The queue, its producers `ι` and its consumer. -/
structure Traffic (ι α : Type) where
  queue : SPSCQueue α
  push : ι → PushPc α := fun _ => .idle
  pop : PopPc α := .idle
  pushed : List (ι × α) := []
  popped : List α := []

inductive QueueStep (ι α : Type) where
  /-- A producer calls `push`, which loads `head_`. -/
  | push (p : ι) (item : α)
  | loadTail (p : ι)
  | write (p : ι)
  | publish (p : ι)
  /-- The consumer calls `pop`, which loads `tail_`. -/
  | pop
  | loadHead
  | read
  | advance

/-- The slot a counter points at: `h & MASK`. -/
def slotOf (h : UInt64) : Nat := (h &&& 1023).toNat

/-- `(h - t) == Capacity - 1`. -/
def full (h t : UInt64) : Bool := h - t == 1023

section Threads

variable {ι α : Type} [DecidableEq ι]

/-- One step of `push`, of `pop`, and what they return: a push that finds no room returns false,
and so does a pop that finds no packet. -/
def queueNext (s : Traffic ι α) : QueueStep ι α → Option (Traffic ι α)
  | .push p item =>
      match s.push p with
      | .idle => some { s with push := Function.update s.push p (.loaded item s.queue.head) }
      | _ => none
  | .loadTail p =>
      match s.push p with
      | .loaded item h =>
          let pc := if full h s.queue.tail then .idle else .writing item h
          some { s with push := Function.update s.push p pc }
      | _ => none
  | .write p =>
      match s.push p with
      | .writing item h => some { s with
          queue := { s.queue with buffer := Function.update s.queue.buffer (slotOf h) item }
          push := Function.update s.push p (.publishing item h) }
      | _ => none
  | .publish p =>
      match s.push p with
      | .publishing item h => some { s with
          queue := { s.queue with head := h + 1 }
          push := Function.update s.push p .idle
          pushed := s.pushed ++ [(p, item)] }
      | _ => none
  | .pop =>
      match s.pop with
      | .idle => some { s with pop := .loaded s.queue.tail }
      | _ => none
  | .loadHead =>
      match s.pop with
      | .loaded t => some { s with pop := if t == s.queue.head then .idle else .reading t }
      | _ => none
  | .read =>
      match s.pop with
      | .reading t => some { s with pop := .storing t (s.queue.buffer (slotOf t)) }
      | _ => none
  | .advance =>
      match s.pop with
      | .storing t item => some { s with
          queue := { s.queue with tail := t + 1 }
          pop := .idle
          popped := s.popped ++ [item] }
      | _ => none

/-- The queue with whatever its slots hold at first. -/
def queueMachine (ι : Type) [DecidableEq ι] (buffer : Nat → α) :
    Machine (Traffic ι α) (QueueStep ι α) :=
  Machine.ofFun { queue := { buffer := buffer } } queueNext

end Threads

variable {ι α : Type}

/-- A push that has found room and has not returned. -/
def PushPc.committed : PushPc α → Bool
  | .writing .. | .publishing .. => true
  | _ => false

/-- When a push finds room, `head_` is still what it has loaded, and no other push has found
room and not returned. -/
def PushSafe (s : Traffic ι α) : QueueStep ι α → Prop
  | .loadTail p => ∀ item h, s.push p = .loaded item h → full h s.queue.tail = false →
      s.queue.head = h ∧ ∀ other, (s.push other).committed = false
  | _ => True

/-! ### What the consumer gets -/

/-- A call of `pop` during which no producer does anything. -/
def SPSCQueue.pop (q : SPSCQueue α) : Option (α × SPSCQueue α) :=
  if q.tail == q.head then none
  else some (q.buffer (slotOf q.tail), { q with tail := q.tail + 1 })

/-- What `n` such calls return. -/
def SPSCQueue.drain : Nat → SPSCQueue α → List α
  | 0, _ => []
  | n + 1, q =>
      match q.pop with
      | none => []
      | some (item, q) => item :: drain n q

/-- The packets of the pushes that have returned true are those popped so far and those the
consumer gets if it goes on, each once and in the order of the pushes. -/
def Delivered (s : Traffic ι α) : Prop :=
  ∀ n, s.pushed.length ≤ n → s.popped ++ s.queue.drain n = s.pushed.map Prod.snd

/-! ### Counters -/

theorem slotOf_ofNat (n : Nat) : slotOf (.ofNat n) = n % capacity := by
  rw [slotOf, UInt64.toNat_and, UInt64.toNat_ofNat']
  change (n % 2 ^ 64) &&& (2 ^ 10 - 1) = n % 1024
  rw [Nat.and_two_pow_sub_one_eq_mod]
  omega

theorem full_ofNat {m n : Nat} (hle : m ≤ n) (hroom : n ≤ m + 1023) :
    full (.ofNat n) (.ofNat m) = true ↔ n = m + 1023 := by
  rw [full, beq_iff_eq, ← UInt64.toNat_inj, UInt64.toNat_sub, UInt64.toNat_ofNat',
    UInt64.toNat_ofNat']
  change _ = 1023 ↔ _
  omega

theorem ofNat_beq_ofNat {m n : Nat} (hle : m ≤ n) (hroom : n ≤ m + 1023) :
    (UInt64.ofNat m == UInt64.ofNat n) = true ↔ m = n := by
  rw [beq_iff_eq, ← UInt64.toNat_inj, UInt64.toNat_ofNat', UInt64.toNat_ofNat']
  omega

/-! ### The invariant -/

/-- A push that has found room is at the head of the queue, where there still is room. -/
def PushPc.Right (q : SPSCQueue α) (pushed popped : Nat) : PushPc α → Prop
  | .writing _ h => h = q.head ∧ pushed < popped + 1023
  | .publishing item h =>
      h = q.head ∧ pushed < popped + 1023 ∧ q.buffer (pushed % capacity) = item
  | _ => True

/-- The consumer is at the tail of the queue. -/
def PopPc.Right (q : SPSCQueue α) (pushed popped : Nat) : PopPc α → Prop
  | .idle => True
  | .loaded t => t = q.tail
  | .reading t => t = q.tail ∧ popped < pushed
  | .storing t item => t = q.tail ∧ popped < pushed ∧ q.buffer (popped % capacity) = item

/-- At most one push has found room and not returned. -/
def Alone (push : ι → PushPc α) : Prop :=
  ∀ p p', (push p).committed = true → (push p').committed = true → p = p'

/-- The counters are the numbers of packets pushed and popped, and the slots between them hold
the packets that are still to be popped. -/
structure Aligned (s : Traffic ι α) : Prop where
  le : s.popped.length ≤ s.pushed.length
  room : s.pushed.length ≤ s.popped.length + 1023
  head : s.queue.head = .ofNat s.pushed.length
  tail : s.queue.tail = .ofNat s.popped.length
  contents : s.popped ++ window s.queue.buffer capacity s.popped.length
    (s.pushed.length - s.popped.length) = s.pushed.map Prod.snd
  alone : Alone s.push
  push : ∀ p, (s.push p).Right s.queue s.pushed.length s.popped.length
  pop : s.pop.Right s.queue s.pushed.length s.popped.length

theorem Aligned.init (buffer : Nat → α) :
    Aligned ({ queue := { buffer := buffer } } : Traffic ι α) where
  le := Nat.le_refl _
  room := Nat.zero_le _
  head := rfl
  tail := rfl
  contents := rfl
  alone _ _ h := by cases h
  push _ := trivial
  pop := trivial

theorem drain_window {buffer : Nat → α} (n : Nat) {m k : Nat} (hk : k ≤ 1023) (hn : k ≤ n) :
    SPSCQueue.drain n ⟨.ofNat (m + k), .ofNat m, buffer⟩ = window buffer capacity m k := by
  induction n generalizing m k with
  | zero =>
      rw [Nat.le_zero.mp hn]
      rfl
  | succ n ih =>
      have hempty := ofNat_beq_ofNat (Nat.le_add_right m k) (Nat.add_le_add_left hk m)
      cases k with
      | zero => rw [SPSCQueue.drain, SPSCQueue.pop, if_pos (hempty.mpr rfl), window_zero]
      | succ k =>
          have hne : ¬ (UInt64.ofNat m == UInt64.ofNat (m + (k + 1))) = true := by
            rw [hempty]
            omega
          have hnext : UInt64.ofNat m + 1 = UInt64.ofNat (m + 1) := (UInt64.ofNat_add m 1).symm
          rw [SPSCQueue.drain, SPSCQueue.pop, if_neg hne]
          dsimp only
          rw [hnext, slotOf_ofNat, window_succ, ← ih (by omega) (by omega)]
          congr 4
          omega

theorem Aligned.delivered {s : Traffic ι α} (h : Aligned s) : Delivered s := by
  intro n hn
  have hqueue : s.queue = ⟨.ofNat (s.popped.length + (s.pushed.length - s.popped.length)),
      .ofNat s.popped.length, s.queue.buffer⟩ := by
    rw [Nat.add_sub_cancel' h.le, ← h.head, ← h.tail]
  have hroom := h.room
  rw [hqueue, drain_window n (by omega) (by omega)]
  exact h.contents

/-! ### Steps -/

theorem PushPc.right_of_not_committed {pc : PushPc α} (h : pc.committed = false)
    (q : SPSCQueue α) (pushed popped : Nat) : pc.Right q pushed popped := by
  cases pc with
  | idle | loaded => trivial
  | writing | publishing => cases h

variable {s s' : Traffic ι α} {push : ι → PushPc α} {p : ι} {pc : PushPc α}

theorem Aligned.push_eq (h : Aligned s) {item : α} {head : UInt64}
    (hpc : s.push p = .writing item head) :
    head = .ofNat s.pushed.length ∧ s.pushed.length < s.popped.length + 1023 := by
  have hright := h.push p
  rw [hpc] at hright
  exact ⟨hright.1.trans h.head, hright.2⟩

/-- While a push has found room, every other one is right whatever the queue is. -/
theorem Aligned.others (h : Aligned s) (hp : (s.push p).committed = true) (q : SPSCQueue α)
    (pushed popped : Nat) : ∀ p', p' ≠ p → (s.push p').Right q pushed popped := by
  intro p' hne
  apply PushPc.right_of_not_committed
  exact Bool.eq_false_iff.mpr fun hp' => hne (h.alone p' p hp' hp)

/-- The consumer goes on and leaves the queue as it is. -/
theorem Aligned.consumer {pc : PopPc α} (h : Aligned s)
    (hright : pc.Right s.queue s.pushed.length s.popped.length) :
    Aligned { s with pop := pc } :=
  ⟨h.le, h.room, h.head, h.tail, h.contents, h.alone, h.push, hright⟩

theorem Aligned.advance (h : Aligned s) {item : α} {t : UInt64} (hpc : s.pop = .storing t item) :
    Aligned { s with
      queue := { s.queue with tail := t + 1 }
      pop := .idle
      popped := s.popped ++ [item] } := by
  have hright := h.pop
  rw [hpc] at hright
  obtain ⟨htail, hlt, hitem⟩ := hright
  have hroom := h.room
  have hlength : (s.popped ++ [item]).length = s.popped.length + 1 := by
    rw [List.length_append, List.length_singleton]
  refine ⟨?_, ?_, h.head, ?_, ?_, h.alone, ?_, trivial⟩
  · rw [hlength]
    exact hlt
  · dsimp only
    rw [hlength]
    omega
  · rw [hlength, UInt64.ofNat_add, ← h.tail, htail]
    rfl
  · have hcontents := h.contents
    have hcount : s.pushed.length - s.popped.length =
        s.pushed.length - (s.popped.length + 1) + 1 := by omega
    rw [hcount, window_succ, hitem] at hcontents
    rw [hlength, List.append_assoc]
    exact hcontents
  · intro p
    have hpush := h.push p
    dsimp only
    rw [hlength]
    cases hpc' : s.push p with
    | idle => trivial
    | loaded packet head => trivial
    | writing packet head =>
        rw [hpc'] at hpush
        exact ⟨hpush.1, by omega⟩
    | publishing packet head =>
        rw [hpc'] at hpush
        exact ⟨hpush.1, by omega, hpush.2.2⟩

/-- A pop has loaded `head_`: it finds nothing, or a packet at the tail. -/
theorem Aligned.loadHead (h : Aligned s) {t : UInt64} (hpc : s.pop = .loaded t) :
    Aligned { s with pop := if t == s.queue.head then .idle else .reading t } := by
  apply h.consumer
  have htail := h.pop
  rw [hpc] at htail
  obtain rfl := htail
  split
  · trivial
  · next hne =>
      refine ⟨rfl, lt_of_le_of_ne h.le fun heq => hne ?_⟩
      rw [h.head, h.tail]
      exact (ofNat_beq_ofNat h.le h.room).mpr heq

theorem Aligned.read (h : Aligned s) {t : UInt64} (hpc : s.pop = .reading t) :
    Aligned { s with pop := .storing t (s.queue.buffer (slotOf t)) } := by
  apply h.consumer
  have hright := h.pop
  rw [hpc] at hright
  obtain ⟨rfl, hlt⟩ := hright
  refine ⟨rfl, hlt, ?_⟩
  rw [h.tail, slotOf_ofNat]

variable [DecidableEq ι]

/-- A push that has not found room before may not take it from another one. -/
theorem Alone.update (h : Alone push)
    (hpc : pc.committed = true → (push p).committed = true) :
    Alone (Function.update push p pc) := by
  have hkept : ∀ q, (Function.update push p pc q).committed = true →
      (push q).committed = true := by
    intro q hq
    rw [Function.update_apply] at hq
    split at hq
    · next heq => exact heq ▸ hpc hq
    · exact hq
  intro q q' hq hq'
  exact h q q' (hkept q hq) (hkept q' hq')

theorem Alone.claim (h : ∀ q, (push q).committed = false) :
    Alone (Function.update push p pc) := by
  have hself : ∀ q, (Function.update push p pc q).committed = true → q = p := by
    intro q hq
    rw [Function.update_apply] at hq
    split at hq
    · assumption
    · rw [h q] at hq
      cases hq
  intro q q' hq hq'
  rw [hself q hq, hself q' hq']

/-- A producer goes on and leaves the queue as it is. -/
theorem Aligned.goto (h : Aligned s) (halone : Alone (Function.update s.push p pc))
    (hright : pc.Right s.queue s.pushed.length s.popped.length) :
    Aligned { s with push := Function.update s.push p pc } := by
  refine ⟨h.le, h.room, h.head, h.tail, h.contents, halone, ?_, h.pop⟩
  exact (Function.forall_update_iff s.push fun _ pc => pc.Right s.queue _ _).mpr
    ⟨hright, fun q _ => h.push q⟩

/-- The slot at the head is none of those between tail and head, and not the one the consumer
has read. -/
theorem Aligned.write (h : Aligned s) {item : α} {head : UInt64}
    (hpc : s.push p = .writing item head) :
    Aligned { s with
      queue := { s.queue with buffer := Function.update s.queue.buffer (slotOf head) item }
      push := Function.update s.push p (.publishing item head) } := by
  obtain ⟨hhead, hroom⟩ := h.push_eq hpc
  have hslot : slotOf head = s.pushed.length % capacity := by rw [hhead, slotOf_ofNat]
  have hle := h.le
  have hcommitted : (s.push p).committed = true := by
    rw [hpc]
    rfl
  refine ⟨hle, h.room, h.head, h.tail, ?_, h.alone.update fun _ => hcommitted, ?_, ?_⟩
  · have hcontents := h.contents
    rwa [← window_update (j := s.pushed.length) (x := item) (by omega)
      (by rw [capacity]; omega), ← hslot] at hcontents
  · apply (Function.forall_update_iff s.push fun _ pc => PushPc.Right _ _ _ pc).mpr
    refine ⟨⟨hhead.trans h.head.symm, hroom, ?_⟩, h.others hcommitted _ _ _⟩
    rw [← hslot]
    exact Function.update_self ..
  · have hpop := h.pop
    cases hpc' : s.pop with
    | idle => trivial
    | loaded t =>
        rw [hpc'] at hpop
        exact hpop
    | reading t =>
        rw [hpc'] at hpop
        exact hpop
    | storing t packet =>
        rw [hpc'] at hpop
        obtain ⟨htail, hlt, hpacket⟩ := hpop
        refine ⟨htail, hlt, ?_⟩
        have hne : s.popped.length % capacity ≠ slotOf head := by
          rw [hslot]
          exact mod_ne hlt (by rw [capacity]; omega)
        change Function.update s.queue.buffer (slotOf head) item _ = packet
        rw [Function.update_of_ne hne, hpacket]

theorem Aligned.publish (h : Aligned s) {item : α} {head : UInt64}
    (hpc : s.push p = .publishing item head) :
    Aligned { s with
      queue := { s.queue with head := head + 1 }
      push := Function.update s.push p .idle
      pushed := s.pushed ++ [(p, item)] } := by
  have hright := h.push p
  rw [hpc] at hright
  obtain ⟨hhead, hroom, hitem⟩ := hright
  have hle := h.le
  have hcommitted : (s.push p).committed = true := by
    rw [hpc]
    rfl
  have hlength : (s.pushed ++ [(p, item)]).length = s.pushed.length + 1 := by
    rw [List.length_append, List.length_singleton]
  refine ⟨?_, ?_, ?_, h.tail, ?_, h.alone.update (fun h => by cases h), ?_, ?_⟩
  · dsimp only
    rw [hlength]
    omega
  · dsimp only
    rw [hlength]
    omega
  · rw [hlength, UInt64.ofNat_add, ← h.head, hhead]
    rfl
  · have hcount : s.pushed.length + 1 - s.popped.length =
        s.pushed.length - s.popped.length + 1 := by omega
    rw [hlength, hcount, window_succ_last, Nat.add_sub_cancel' hle, hitem, ← List.append_assoc,
      h.contents, List.map_append]
    rfl
  · apply (Function.forall_update_iff s.push fun _ pc => PushPc.Right _ _ _ pc).mpr
    exact ⟨trivial, h.others hcommitted _ _ _⟩
  · have hpop := h.pop
    dsimp only
    rw [hlength]
    cases hpc' : s.pop with
    | idle => trivial
    | loaded t =>
        rw [hpc'] at hpop
        exact hpop
    | reading t =>
        rw [hpc'] at hpop
        exact ⟨hpop.1, Nat.lt_succ_of_lt hpop.2⟩
    | storing t packet =>
        rw [hpc'] at hpop
        exact ⟨hpop.1, Nat.lt_succ_of_lt hpop.2.1, hpop.2.2⟩

/-- A push has loaded `tail_`: it finds no room, or it is alone at the head of the queue. -/
theorem Aligned.loadTail (h : Aligned s) {item : α} {head : UInt64}
    (hsafe : full head s.queue.tail = false →
      s.queue.head = head ∧ ∀ other, (s.push other).committed = false) :
    Aligned { s with push :=
      Function.update s.push p (if full head s.queue.tail then .idle else .writing item head) } := by
  cases hfull : full head s.queue.tail with
  | true => exact h.goto (h.alone.update fun h => by cases h) trivial
  | false =>
      obtain ⟨rfl, halone⟩ := hsafe hfull
      refine h.goto (.claim halone) ⟨rfl, ?_⟩
      have hroom := h.room
      rw [h.head, h.tail] at hfull
      have hne := (full_ofNat h.le hroom).not.mp (Bool.eq_false_iff.mp hfull)
      omega

/-- A step keeps the invariant, if a push that finds room does so alone and at the head. -/
theorem Aligned.next {i : QueueStep ι α} (h : Aligned s) (hsafe : PushSafe s i)
    (hstep : queueNext s i = some s') : Aligned s' := by
  cases i with
  | push p item =>
      simp only [queueNext] at hstep
      split at hstep
      · obtain rfl := Option.some.inj hstep
        exact h.goto (h.alone.update fun h => by cases h) trivial
      · cases hstep
  | loadTail p =>
      simp only [queueNext] at hstep
      split at hstep
      · next item head hpc =>
          obtain rfl := Option.some.inj hstep
          exact h.loadTail (hsafe item head hpc)
      · cases hstep
  | write p =>
      simp only [queueNext] at hstep
      split at hstep
      · next hpc =>
          obtain rfl := Option.some.inj hstep
          exact h.write hpc
      · cases hstep
  | publish p =>
      simp only [queueNext] at hstep
      split at hstep
      · next hpc =>
          obtain rfl := Option.some.inj hstep
          exact h.publish hpc
      · cases hstep
  | pop =>
      simp only [queueNext] at hstep
      split at hstep
      · obtain rfl := Option.some.inj hstep
        exact h.consumer rfl
      · cases hstep
  | loadHead =>
      simp only [queueNext] at hstep
      split at hstep
      · next hpc =>
          obtain rfl := Option.some.inj hstep
          exact h.loadHead hpc
      · cases hstep
  | read =>
      simp only [queueNext] at hstep
      split at hstep
      · next hpc =>
          obtain rfl := Option.some.inj hstep
          exact h.read hpc
      · cases hstep
  | advance =>
      simp only [queueNext] at hstep
      split at hstep
      · next hpc =>
          obtain rfl := Option.some.inj hstep
          exact h.advance hpc
      · cases hstep

/-- A call of `pop` that no producer interferes with does what `SPSCQueue.pop` says. -/
theorem pop_undisturbed (hidle : s.pop = .idle) :
    (s.queue.pop = none → Machine.replay queueNext (fun _ _ => true) s [.pop, .loadHead] = some s) ∧
      ∀ item q, s.queue.pop = some (item, q) →
        Machine.replay queueNext (fun _ _ => true) s [.pop, .loadHead, .read, .advance] =
          some { s with queue := q, popped := s.popped ++ [item] } := by
  obtain ⟨q, push, pop, pushed, popped⟩ := s
  obtain rfl : pop = .idle := hidle
  by_cases hempty : q.tail = q.head
  · constructor
    · intro _
      simp [Machine.replay, queueNext, hempty]
    · intro item q' hpop
      simp [SPSCQueue.pop, hempty] at hpop
  · constructor
    · intro hpop
      simp [SPSCQueue.pop, hempty] at hpop
    · intro item q' hpop
      simp only [SPSCQueue.pop, beq_iff_eq, hempty, if_false, Option.some.injEq,
        Prod.mk.injEq] at hpop
      obtain ⟨rfl, rfl⟩ := hpop
      simp [Machine.replay, queueNext, hempty]

/-- In every run in which a push finds room only while no other one has found some and not
returned, and `head_` is what it has loaded, the packets pushed are popped once each, unchanged
and in their order. -/
theorem packets_delivered {buffer : Nat → α} (h : (queueMachine ι buffer).Reach PushSafe s) :
    Delivered s := by
  refine Aligned.delivered (h.invariant ?_ ?_)
  · rintro s rfl
    exact .init buffer
  · intro s i s' haligned hsafe hstep
    exact haligned.next hsafe hstep

/-! ### The producers of `PacketParseQueue` -/

/-- The threads that push to `PacketParseQueue`. -/
inductive Producer where
  | receiver
  | tradeHandler
deriving DecidableEq

/-- A packet of this size without contents. -/
def blank (size : Int) : RawPacket := ⟨[], size⟩

/-- `PacketParseQueue` as it starts. -/
def packetParseQueue : Machine (Traffic Producer RawPacket) (QueueStep Producer RawPacket) :=
  queueMachine Producer fun _ => blank 0

/-- A push that loads `tail_` now is alone at the head of the queue. -/
def aloneAtHead (s : Traffic Producer RawPacket) : QueueStep Producer RawPacket → Bool
  | .loadTail p =>
      match s.push p with
      | .loaded _ h => s.queue.head == h && !(s.push .receiver).committed &&
          !(s.push .tradeHandler).committed
      | _ => true
  | _ => true

theorem pushSafe_of_aloneAtHead (s : Traffic Producer RawPacket)
    (i : QueueStep Producer RawPacket) (h : aloneAtHead s i = true) : PushSafe s i := by
  cases i with
  | loadTail p =>
      intro item head hpc _
      rw [aloneAtHead, hpc] at h
      simp only [Bool.and_eq_true, beq_iff_eq, Bool.not_eq_true'] at h
      refine ⟨h.1.1, fun other => ?_⟩
      cases other with
      | receiver => exact h.1.2
      | tradeHandler => exact h.2
  | _ => trivial

/-- Both producers push in turn, and the consumer pops the first packet while the second is
pushed. -/
def pushesInTurn : List (QueueStep Producer RawPacket) :=
  [.push .receiver (blank 8), .loadTail .receiver, .write .receiver, .publish .receiver,
    .pop, .push .tradeHandler (blank 16), .loadHead, .loadTail .tradeHandler, .read,
    .write .tradeHandler, .advance, .publish .tradeHandler, .pop, .loadHead, .read, .advance]

theorem packets_delivered_inTurn : ∃ s, packetParseQueue.Reach PushSafe s ∧
    s.pushed = [(.receiver, blank 8), (.tradeHandler, blank 16)] ∧
    s.popped = [blank 8, blank 16] ∧ Delivered s := by
  have hrun : ∃ s, Machine.replay queueNext aloneAtHead { queue := { buffer := fun _ => blank 0 } }
      pushesInTurn = some s ∧ s.pushed = [(.receiver, blank 8), (.tradeHandler, blank 16)] ∧
      s.popped = [blank 8, blank 16] := ⟨_, rfl, rfl, rfl⟩
  obtain ⟨s, hreplay, hpushed, hpopped⟩ := hrun
  have h : packetParseQueue.Reach PushSafe s :=
    Machine.Reach.of_replay pushSafe_of_aloneAtHead (.init rfl) hreplay
  exact ⟨s, h, hpushed, hpopped, packets_delivered h⟩

/-- The trade handler pushes its packet while the receiver has found room for its own. -/
def overlappingPushes : List (QueueStep Producer RawPacket) :=
  [.push .receiver (blank 8), .loadTail .receiver, .push .tradeHandler (blank 16),
    .loadTail .tradeHandler, .write .tradeHandler, .publish .tradeHandler, .write .receiver,
    .publish .receiver]

/-- Both pushes return true, and the consumer only gets one of the packets. -/
theorem packet_overwritten : ∃ s, packetParseQueue.Reach Machine.Any s ∧
    s.pushed = [(.tradeHandler, blank 16), (.receiver, blank 8)] ∧ s.popped = [] ∧
    s.queue.drain 2 = [blank 8] ∧ ¬ Delivered s := by
  have hrun : ∃ s, Machine.replay queueNext (fun _ _ => true)
      { queue := { buffer := fun _ => blank 0 } } overlappingPushes = some s ∧
      s.pushed = [(.tradeHandler, blank 16), (.receiver, blank 8)] ∧ s.popped = [] ∧
      s.queue.drain 2 = [blank 8] := ⟨_, rfl, rfl, rfl, rfl⟩
  obtain ⟨s, hreplay, hpushed, hpopped, hdrain⟩ := hrun
  refine ⟨s, Machine.Reach.of_replay (fun _ _ _ => trivial) (.init rfl) hreplay, hpushed, hpopped,
    hdrain, fun hdelivered => ?_⟩
  have hall := congrArg List.length (hdelivered 2 (by rw [hpushed]; exact Nat.le_refl 2))
  rw [hpushed, hpopped, hdrain] at hall
  cases hall

end NanoVault.Hft
