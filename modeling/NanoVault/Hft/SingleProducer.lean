/-
`SPSCQueue` (`utils/spsc.hpp`) as it is meant to be used: one thread pushes, one pops.

Every load and store of a counter and every access to a slot is a step of its own, and the steps
of the two threads may come in any order. The counters wrap, and start anywhere. What a thread
holds between two steps is in its program counter; `pushed` and `popped` record the calls that
have returned true. `spsc_fifo` says that the queue is a bounded FIFO, for every capacity.
-/
import NanoVault.Hft.PacketQueue

namespace NanoVault.Hft

open Lib Lib.Ring

/-- `Capacity`, with what the `static_assert` checks; a queue of one slot holds nothing. -/
structure Capacity where
  value : UInt64
  power : value &&& (value - 1) = 0
  one_lt : 1 < value

namespace Capacity

def mask (c : Capacity) : UInt64 := c.value - 1

def slot (c : Capacity) (h : UInt64) : Nat := (h &&& c.mask).toNat

/-- `(h - t) == Capacity - 1`. -/
def full (c : Capacity) (h t : UInt64) : Bool := h - t == c.value - 1

def size (c : Capacity) : Nat := c.value.toNat

end Capacity

/-- The queue between its producer and its consumer. -/
structure Pipe (α : Type) where
  queue : SPSCQueue α
  push : PushPc α := .idle
  pop : PopPc α := .idle
  pushed : List α := []
  popped : List α := []

inductive PipeStep (α : Type) where
  /-- The producer calls `push`, which loads `head_`. -/
  | push (item : α)
  | loadTail
  | write
  | publish
  /-- The consumer calls `pop`, which loads `tail_`. -/
  | pop
  | loadHead
  | read
  | advance

variable {α : Type}

/-- One step of `push` or of `pop`. A push that finds no room returns false, and so does a pop
that finds no item. -/
def pipeNext (c : Capacity) (s : Pipe α) : PipeStep α → Option (Pipe α)
  | .push item =>
      match s.push with
      | .idle => some { s with push := .loaded item s.queue.head }
      | _ => none
  | .loadTail =>
      match s.push with
      | .loaded item h =>
          some { s with push := if c.full h s.queue.tail then .idle else .writing item h }
      | _ => none
  | .write =>
      match s.push with
      | .writing item h => some { s with
          queue := { s.queue with buffer := Function.update s.queue.buffer (c.slot h) item }
          push := .publishing item h }
      | _ => none
  | .publish =>
      match s.push with
      | .publishing item h => some { s with
          queue := { s.queue with head := h + 1 }
          push := .idle
          pushed := s.pushed ++ [item] }
      | _ => none
  | .pop =>
      match s.pop with
      | .idle => some { s with pop := .loaded s.queue.tail }
      | _ => none
  | .loadHead =>
      match s.pop with
      | .loaded t => some { s with pop := if t == s.queue.head then .idle else .reading t }
      | _ => none
  | .read =>
      match s.pop with
      | .reading t => some { s with pop := .storing t (s.queue.buffer (c.slot t)) }
      | _ => none
  | .advance =>
      match s.pop with
      | .storing t item => some { s with
          queue := { s.queue with tail := t + 1 }
          pop := .idle
          popped := s.popped ++ [item] }
      | _ => none

/-- The queue with both counters at `start`, whatever its slots hold. -/
def pipe (c : Capacity) (start : UInt64) (buffer : Nat → α) : Machine (Pipe α) (PipeStep α) :=
  Machine.ofFun { queue := { head := start, tail := start, buffer := buffer } } (pipeNext c)

/-- The items that have been pushed and not been popped. -/
def Pipe.unread (s : Pipe α) : List α := s.pushed.drop s.popped.length

def Pipe.place (c : Capacity) (s : Pipe α) (i : Nat) : Nat := c.slot (s.queue.tail + .ofNat i)

/-- What a bounded FIFO queue is. -/
structure BoundedFifo (c : Capacity) (s : Pipe α) : Prop where
  /-- What has been popped has been pushed, in this order. -/
  order : s.popped <+: s.pushed
  bound : s.unread.length ≤ c.size - 1
  held : ∀ i x, s.unread[i]? = some x → s.queue.buffer (s.place c i) = x
  /-- No unread item is overwritten. -/
  write : ∀ item h, s.push = .writing item h → ∀ i < s.unread.length, s.place c i ≠ c.slot h
  /-- A push returns false when it loads `tail_` exactly if the queue is full then. -/
  refused : ∀ s', pipeNext c s .loadTail = some s' →
    (s'.push = .idle ↔ s.unread.length = c.size - 1)
  /-- A pop returns false when it loads `head_` exactly if nothing is unread then. -/
  empty : ∀ s', pipeNext c s .loadHead = some s' → (s'.pop = .idle ↔ s.unread = [])

/-! ### Counters -/

namespace Capacity

variable (c : Capacity)

theorem one_lt_size : 1 < c.size := UInt64.lt_iff_toNat_lt.mp c.one_lt

/-- The capacity fits a word. -/
theorem size_lt : c.size < 2 ^ 64 := c.value.toNat_lt

/-- The mask is one less than the capacity. -/
theorem toNat_mask : c.mask.toNat = c.size - 1 := by
  have hle : (1 : UInt64) ≤ c.value := UInt64.le_of_lt c.one_lt
  rw [mask, UInt64.toNat_sub_of_le _ _ hle]
  rfl

/-- The capacity is a power of two. -/
theorem exists_power : ∃ k, k < 64 ∧ c.size = 2 ^ k := by
  have hpower := congrArg UInt64.toNat c.power
  rw [UInt64.toNat_and, ← mask, toNat_mask] at hpower
  obtain ⟨k, hk⟩ := (Nat.and_sub_one_eq_zero_iff_isPowerOfTwo
    (Nat.ne_of_gt (Nat.zero_lt_of_lt c.one_lt_size))).mp hpower
  have hsize := c.size_lt
  have hk : c.size = 2 ^ k := hk
  refine ⟨k, ?_, hk⟩
  rw [hk] at hsize
  exact (Nat.pow_lt_pow_iff_right Nat.one_lt_two).mp hsize

/-- The slots go round as the counters do, also when they wrap. -/
theorem slot_add (start : UInt64) (n : Nat) :
    c.slot (start + .ofNat n) = (start.toNat + n) % c.size := by
  obtain ⟨k, hk, hsize⟩ := c.exists_power
  rw [slot, UInt64.toNat_and, toNat_mask, hsize, Nat.and_two_pow_sub_one_eq_mod,
    UInt64.toNat_add, UInt64.toNat_ofNat', Nat.mod_mod_of_dvd _ (Nat.pow_dvd_pow 2 hk.le),
    Nat.add_mod, Nat.mod_mod_of_dvd _ (Nat.pow_dvd_pow 2 hk.le), ← Nat.add_mod]

/-- The ring is full when all slots but one are taken. -/
theorem full_add (start : UInt64) {m n : Nat} (hle : m ≤ n) (hroom : n ≤ m + (c.size - 1)) :
    c.full (start + .ofNat n) (start + .ofNat m) = true ↔ n = m + (c.size - 1) := by
  have hmask := c.toNat_mask
  have hsize := c.size_lt
  have hone := c.one_lt_size
  rw [mask] at hmask
  rw [full, beq_iff_eq, ← UInt64.toNat_inj, hmask, UInt64.toNat_sub, UInt64.toNat_add,
    UInt64.toNat_add, UInt64.toNat_ofNat', UInt64.toNat_ofNat']
  omega

/-- Counters within the capacity are equal as words only if they are. -/
theorem add_beq_add (start : UInt64) {m n : Nat} (hle : m ≤ n) (hroom : n ≤ m + (c.size - 1)) :
    (start + .ofNat m == start + .ofNat n) = true ↔ m = n := by
  have hsize := c.size_lt
  rw [beq_iff_eq, ← UInt64.toNat_inj, UInt64.toNat_add, UInt64.toNat_add, UInt64.toNat_ofNat',
    UInt64.toNat_ofNat']
  omega

end Capacity

theorem add_ofNat_succ (start : UInt64) (n : Nat) :
    start + .ofNat n + 1 = start + .ofNat (n + 1) := by
  rw [UInt64.add_assoc, UInt64.ofNat_add]
  rfl

/-! ### The invariant -/

/-- The producer is at the head of the queue, where there is room once it has looked. -/
def PushPc.AtHead (c : Capacity) (q : SPSCQueue α) (pushed popped : Nat) : PushPc α → Prop
  | .idle => True
  | .loaded _ h => h = q.head
  | .writing _ h => h = q.head ∧ pushed < popped + (c.size - 1)
  | .publishing item h =>
      h = q.head ∧ pushed < popped + (c.size - 1) ∧ q.buffer (c.slot h) = item

/-- The consumer is at the tail of the queue. -/
def PopPc.AtTail (c : Capacity) (q : SPSCQueue α) (pushed popped : Nat) : PopPc α → Prop
  | .idle => True
  | .loaded t => t = q.tail
  | .reading t => t = q.tail ∧ popped < pushed
  | .storing t item => t = q.tail ∧ popped < pushed ∧ q.buffer (c.slot t) = item

/-- The counters have moved on from their start by the numbers of items pushed and popped, and
the slots between them hold the items that are still to be popped. -/
structure InStep (c : Capacity) (start : UInt64) (s : Pipe α) : Prop where
  le : s.popped.length ≤ s.pushed.length
  room : s.pushed.length ≤ s.popped.length + (c.size - 1)
  head : s.queue.head = start + .ofNat s.pushed.length
  tail : s.queue.tail = start + .ofNat s.popped.length
  contents : s.popped ++ window s.queue.buffer c.size (start.toNat + s.popped.length)
    (s.pushed.length - s.popped.length) = s.pushed
  push : s.push.AtHead c s.queue s.pushed.length s.popped.length
  pop : s.pop.AtTail c s.queue s.pushed.length s.popped.length

variable {c : Capacity} {start : UInt64} {buffer : Nat → α} {s s' : Pipe α} {item : α}
  {h t : UInt64}

/-- An empty queue is in step, wherever its counters start. -/
theorem InStep.init (c : Capacity) (start : UInt64) (buffer : Nat → α) :
    InStep c start ({ queue := { head := start, tail := start, buffer := buffer } } : Pipe α) where
  le := Nat.le_refl _
  room := Nat.zero_le _
  head := (UInt64.add_zero start).symm
  tail := (UInt64.add_zero start).symm
  contents := rfl
  push := trivial
  pop := trivial

/-- What is unread stands in the slots from the tail on. -/
theorem InStep.unread_eq (hs : InStep c start s) :
    s.unread = window s.queue.buffer c.size (start.toNat + s.popped.length)
      (s.pushed.length - s.popped.length) := by
  have hcontents := congrArg (List.drop s.popped.length) hs.contents
  rw [List.drop_left] at hcontents
  exact hcontents.symm

/-- The unread items are those pushed and not popped. -/
theorem length_unread (s : Pipe α) : s.unread.length = s.pushed.length - s.popped.length :=
  List.length_drop

/-- The slot of an unread item. -/
theorem InStep.place_eq (hs : InStep c start s) (i : Nat) :
    s.place c i = (start.toNat + (s.popped.length + i)) % c.size := by
  rw [Pipe.place, hs.tail, UInt64.add_assoc, ← UInt64.ofNat_add, c.slot_add]

/-- The slot the next push writes. -/
theorem InStep.slot_head (hs : InStep c start s) :
    c.slot s.queue.head = (start.toNat + s.pushed.length) % c.size := by
  rw [hs.head, c.slot_add]

/-- The slot the next pop reads. -/
theorem InStep.slot_tail (hs : InStep c start s) :
    c.slot s.queue.tail = (start.toNat + s.popped.length) % c.size := by
  rw [hs.tail, c.slot_add]

/-- The slot behind the unread items holds none of them, as long as there is room. -/
theorem InStep.place_ne (hs : InStep c start s)
    (hroom : s.pushed.length < s.popped.length + (c.size - 1)) {i : Nat}
    (hi : i < s.unread.length) : s.place c i ≠ c.slot s.queue.head := by
  rw [length_unread] at hi
  rw [hs.place_eq, hs.slot_head]
  exact mod_ne (by omega) (by omega)

/-- The producer's check, when it has loaded `head_`. -/
theorem InStep.full_iff (hs : InStep c start s) (hpc : s.push = .loaded item h) :
    c.full h s.queue.tail = true ↔ s.unread.length = c.size - 1 := by
  have hpush := hs.push
  rw [hpc] at hpush
  obtain rfl : h = s.queue.head := hpush
  have hle := hs.le
  have hcount := c.full_add start hle hs.room
  rw [hs.head, hs.tail, hcount, length_unread]
  omega

/-- The consumer's check, when it has loaded `tail_`. -/
theorem InStep.empty_iff (hs : InStep c start s) (hpc : s.pop = .loaded t) :
    (t == s.queue.head) = true ↔ s.unread = [] := by
  have hpop := hs.pop
  rw [hpc] at hpop
  obtain rfl : t = s.queue.tail := hpop
  have hle := hs.le
  have hequal := c.add_beq_add start hle hs.room
  rw [hs.head, hs.tail, hequal, ← List.length_eq_zero_iff, length_unread]
  omega

/-- A queue whose counters are in step is a bounded FIFO queue. -/
theorem InStep.boundedFifo (hs : InStep c start s) : BoundedFifo c s := by
  have hpush := hs.push
  constructor
  · exact ⟨_, hs.contents⟩
  · have hroom := hs.room
    rw [length_unread]
    omega
  · intro i x hx
    have hi := (List.getElem?_eq_some_iff.mp hx).1
    rw [length_unread] at hi
    rw [hs.unread_eq, window, List.getElem?_map, List.getElem?_range' hi] at hx
    rw [hs.place_eq, ← Nat.add_assoc]
    simpa using hx
  · intro item h hpc i hi
    rw [hpc] at hpush
    obtain ⟨rfl, hroom⟩ := hpush
    exact hs.place_ne hroom hi
  · intro s' hstep
    simp only [pipeNext] at hstep
    split at hstep
    · next item h hpc =>
        obtain rfl := Option.some.inj hstep
        rw [← hs.full_iff hpc]
        cases c.full h s.queue.tail <;> simp
    · cases hstep
  · intro s' hstep
    simp only [pipeNext] at hstep
    split at hstep
    · next t hpc =>
        obtain rfl := Option.some.inj hstep
        rw [← hs.empty_iff hpc]
        cases t == s.queue.head <;> simp
    · cases hstep

/-! ### Steps -/

/-- The check of the producer keeps the queue in step, whether it refuses or not. -/
theorem InStep.loadTail (hs : InStep c start s) (hpc : s.push = .loaded item h) :
    InStep c start { s with
      push := if c.full h s.queue.tail then .idle else .writing item h } := by
  refine { hs with push := ?_ }
  have hpush := hs.push
  have hroom := hs.room
  have hfull := hs.full_iff hpc
  rw [hpc] at hpush
  split
  · trivial
  · next hnot =>
      rw [hfull, length_unread] at hnot
      have hlt : s.pushed.length < s.popped.length + (c.size - 1) := by omega
      exact ⟨hpush, hlt⟩

/-- What the consumer sees of a write to the slot at the head. -/
theorem InStep.write (hs : InStep c start s) (hpc : s.push = .writing item h) :
    InStep c start { s with
      queue := { s.queue with buffer := Function.update s.queue.buffer (c.slot h) item }
      push := .publishing item h } := by
  have hpush := hs.push
  rw [hpc] at hpush
  obtain ⟨rfl, hroom⟩ : h = s.queue.head ∧ s.pushed.length < s.popped.length + (c.size - 1) := hpush
  have hle := hs.le
  refine ⟨hle, hs.room, hs.head, hs.tail, ?_, ⟨rfl, hroom, Function.update_self ..⟩, ?_⟩
  · have hcontents := hs.contents
    rwa [← window_update (j := start.toNat + s.pushed.length) (x := item) (by omega) (by omega),
      ← hs.slot_head] at hcontents
  · have hpop := hs.pop
    cases hpc' : s.pop with
    | idle => trivial
    | loaded t => rwa [hpc'] at hpop
    | reading t => rwa [hpc'] at hpop
    | storing t x =>
        rw [hpc'] at hpop
        obtain ⟨rfl, hlt, hx⟩ := hpop
        refine ⟨rfl, hlt, ?_⟩
        have hne : c.slot s.queue.tail ≠ c.slot s.queue.head := by
          rw [hs.slot_tail, hs.slot_head]
          exact mod_ne (by omega) (by omega)
        exact (Function.update_of_ne hne ..).trans hx

/-- The producer's store of the head makes the item readable. -/
theorem InStep.publish (hs : InStep c start s) (hpc : s.push = .publishing item h) :
    InStep c start { s with
      queue := { s.queue with head := h + 1 }
      push := .idle
      pushed := s.pushed ++ [item] } := by
  have hpush := hs.push
  rw [hpc] at hpush
  obtain ⟨rfl, hroom, hitem⟩ := hpush
  rw [hs.slot_head] at hitem
  have hle := hs.le
  have hlength : (s.pushed ++ [item]).length = s.pushed.length + 1 := by
    rw [List.length_append, List.length_singleton]
  refine ⟨?_, ?_, ?_, hs.tail, ?_, trivial, ?_⟩
  · rw [hlength]
    exact Nat.le_succ_of_le hle
  · rw [hlength]
    exact hroom
  · rw [hlength, hs.head, add_ofNat_succ]
  · have hcount : s.pushed.length + 1 - s.popped.length =
        s.pushed.length - s.popped.length + 1 := by omega
    have hplace : start.toNat + s.popped.length + (s.pushed.length - s.popped.length) =
        start.toNat + s.pushed.length := by omega
    rw [hlength, hcount, window_succ_last, hplace, hitem, ← List.append_assoc, hs.contents]
  · have hpop := hs.pop
    rw [hlength]
    cases hpc' : s.pop with
    | idle => trivial
    | loaded t => rwa [hpc'] at hpop
    | reading t =>
        rw [hpc'] at hpop
        exact ⟨hpop.1, Nat.lt_succ_of_lt hpop.2⟩
    | storing t x =>
        rw [hpc'] at hpop
        exact ⟨hpop.1, Nat.lt_succ_of_lt hpop.2.1, hpop.2.2⟩

/-- The check of the consumer keeps the queue in step. -/
theorem InStep.loadHead (hs : InStep c start s) (hpc : s.pop = .loaded t) :
    InStep c start { s with pop := if t == s.queue.head then .idle else .reading t } := by
  refine { hs with pop := ?_ }
  have hpop := hs.pop
  have hempty := hs.empty_iff hpc
  rw [hpc] at hpop
  split
  · trivial
  · next hne =>
      rw [hempty, ← List.length_eq_zero_iff, length_unread] at hne
      have hlt : s.popped.length < s.pushed.length := by omega
      exact ⟨hpop, hlt⟩

/-- What the consumer reads is the oldest unread item. -/
theorem InStep.read (hs : InStep c start s) (hpc : s.pop = .reading t) :
    InStep c start { s with pop := .storing t (s.queue.buffer (c.slot t)) } := by
  have hpop := hs.pop
  rw [hpc] at hpop
  exact { hs with pop := ⟨hpop.1, hpop.2, rfl⟩ }

/-- The consumer's store of the tail frees the slot. -/
theorem InStep.advance (hs : InStep c start s) (hpc : s.pop = .storing t item) :
    InStep c start { s with
      queue := { s.queue with tail := t + 1 }
      pop := .idle
      popped := s.popped ++ [item] } := by
  have hpop := hs.pop
  rw [hpc] at hpop
  obtain ⟨rfl, hlt, hitem⟩ := hpop
  rw [hs.slot_tail] at hitem
  have hroom := hs.room
  have hlength : (s.popped ++ [item]).length = s.popped.length + 1 := by
    rw [List.length_append, List.length_singleton]
  refine ⟨?_, ?_, hs.head, ?_, ?_, ?_, trivial⟩
  · rw [hlength]
    exact hlt
  · rw [hlength]
    exact Nat.le_trans hroom (by omega)
  · rw [hlength, hs.tail, add_ofNat_succ]
  · have hcount : s.pushed.length - s.popped.length =
        s.pushed.length - (s.popped.length + 1) + 1 := by omega
    have hcontents := hs.contents
    rw [hcount, window_succ, hitem] at hcontents
    rw [hlength, List.append_assoc]
    exact hcontents
  · have hpush := hs.push
    rw [hlength]
    cases hpc' : s.push with
    | idle => trivial
    | loaded x h => rwa [hpc'] at hpush
    | writing x h =>
        rw [hpc'] at hpush
        exact ⟨hpush.1, hpush.2.trans_le (Nat.add_le_add_right (Nat.le_succ _) _)⟩
    | publishing x h =>
        rw [hpc'] at hpush
        exact ⟨hpush.1, hpush.2.1.trans_le (Nat.add_le_add_right (Nat.le_succ _) _), hpush.2.2⟩

/-- Every step keeps the queue in step. -/
theorem InStep.next {i : PipeStep α} (hs : InStep c start s) (hstep : pipeNext c s i = some s') :
    InStep c start s' := by
  cases i with
  | push item =>
      simp only [pipeNext] at hstep
      split at hstep
      · obtain rfl := Option.some.inj hstep
        exact { hs with push := rfl }
      · cases hstep
  | loadTail =>
      simp only [pipeNext] at hstep
      split at hstep
      · next hpc =>
          obtain rfl := Option.some.inj hstep
          exact hs.loadTail hpc
      · cases hstep
  | write =>
      simp only [pipeNext] at hstep
      split at hstep
      · next hpc =>
          obtain rfl := Option.some.inj hstep
          exact hs.write hpc
      · cases hstep
  | publish =>
      simp only [pipeNext] at hstep
      split at hstep
      · next hpc =>
          obtain rfl := Option.some.inj hstep
          exact hs.publish hpc
      · cases hstep
  | pop =>
      simp only [pipeNext] at hstep
      split at hstep
      · obtain rfl := Option.some.inj hstep
        exact { hs with pop := rfl }
      · cases hstep
  | loadHead =>
      simp only [pipeNext] at hstep
      split at hstep
      · next hpc =>
          obtain rfl := Option.some.inj hstep
          exact hs.loadHead hpc
      · cases hstep
  | read =>
      simp only [pipeNext] at hstep
      split at hstep
      · next hpc =>
          obtain rfl := Option.some.inj hstep
          exact hs.read hpc
      · cases hstep
  | advance =>
      simp only [pipeNext] at hstep
      split at hstep
      · next hpc =>
          obtain rfl := Option.some.inj hstep
          exact hs.advance hpc
      · cases hstep

/-- In every run of one producer and one consumer, for every capacity and every common value the
counters start from. -/
theorem spsc_fifo (hs : (pipe c start buffer).Reach Machine.Any s) : BoundedFifo c s := by
  have hinvariant : InStep c start s := by
    refine hs.invariant ?_ ?_
    · rintro s rfl
      exact .init c start buffer
    · intro s i s' hs _ hstep
      exact hs.next hstep
  exact hinvariant.boundedFifo

/-- A queue of two slots holds one item. -/
def twoSlots : Capacity := ⟨2, by decide, by decide⟩

/-- The counters wrap at the first item; a second one is refused behind it, and goes in when the
first has been popped. -/
theorem spsc_fifo_wraps :
    ∃ s s' s'', (pipe twoSlots 0xffffffffffffffff fun _ => 'x').Reach Machine.Any s ∧
      s.pushed = ['a'] ∧ s.queue.head = 0 ∧ s.push = .loaded 'b' 0 ∧
      pipeNext twoSlots s .loadTail = some s' ∧ s'.push = .idle ∧
      Machine.replay (pipeNext twoSlots) (fun _ _ => true) s'
        [.pop, .loadHead, .push 'c', .read, .advance, .loadTail, .write, .publish] = some s'' ∧
      s''.popped = ['a'] ∧ s''.pushed = ['a', 'c'] ∧ BoundedFifo twoSlots s'' := by
  obtain ⟨s, hreplay, hpushed, hpopped, hhead, hpush⟩ : ∃ s,
      Machine.replay (pipeNext twoSlots) (fun _ _ => true)
        { queue := { head := 0xffffffffffffffff, tail := 0xffffffffffffffff, buffer := fun _ => 'x' } }
        [.push 'a', .loadTail, .write, .publish, .push 'b'] = some s ∧ s.pushed = ['a'] ∧
      s.popped = [] ∧ s.queue.head = 0 ∧ s.push = .loaded 'b' 0 :=
    ⟨_, rfl, rfl, rfl, rfl, rfl⟩
  have hs : (pipe twoSlots 0xffffffffffffffff fun _ => 'x').Reach Machine.Any s :=
    Machine.Reach.of_replay (fun _ _ _ => trivial) (.init rfl) hreplay
  obtain ⟨s', hstep, s'', hrest, hpopped'', hpushed''⟩ : ∃ s', pipeNext twoSlots s .loadTail = some s' ∧
      ∃ s'', Machine.replay (pipeNext twoSlots) (fun _ _ => true) s'
        [.pop, .loadHead, .push 'c', .read, .advance, .loadTail, .write, .publish] = some s'' ∧
        s''.popped = ['a'] ∧ s''.pushed = ['a', 'c'] := by
    obtain rfl := Option.some.inj hreplay
    exact ⟨_, rfl, _, rfl, rfl, rfl⟩
  have hfull : s.unread.length = twoSlots.size - 1 := by
    rw [length_unread, hpushed, hpopped]
    rfl
  have hs'' : (pipe twoSlots 0xffffffffffffffff fun _ => 'x').Reach Machine.Any s'' :=
    Machine.Reach.of_replay (fun _ _ _ => trivial) (.step hs trivial hstep) hrest
  exact ⟨s, s', s'', hs, hpushed, hhead, hpush, hstep, ((spsc_fifo hs).refused s' hstep).mpr hfull,
    hrest, hpopped'', hpushed'', spsc_fifo hs''⟩

end NanoVault.Hft
