/-
`WorkStealingDeque` (`utils/work_stealing_deque.hpp`).

One owner pushes and pops at the bottom while any number of thieves steal at the top. Every
load, store and compare-and-swap and every read or write of an array slot is a step of its
own, and the steps of the threads may come in any order. What a thread holds between two
steps is in its program counter. `pushed` lists what the calls of `push` have been given, and
`returned` what the calls of `pop` and `steal` have returned. `State.Inv` says what holds of the
indices, the arrays and all locals in every interleaving.

The arrays are numbered in the order of their allocation, and a fresh one may hold anything.
The indices are `int64_t` in the source, which leaves counting beyond 2^63 undefined; here they
are numbers, so that the runs below include all that have a meaning.
-/
import NanoVault.Lib.Machine
import NanoVault.Lib.Ring

namespace NanoVault.Utils.WorkStealing

open Lib Lib.Ring

structure CircularArray (T : Type) where
  capacity : Nat
  buffer : Nat → T

namespace CircularArray

variable {T : Type}

/-- `i & (capacity - 1)`. -/
def slot (a : CircularArray T) (i : Nat) : Nat := i &&& (a.capacity - 1)

def get (a : CircularArray T) (i : Nat) : T := a.buffer (a.slot i)

def put (a : CircularArray T) (i : Nat) (x : T) : CircularArray T :=
  { a with buffer := Function.update a.buffer (a.slot i) x }

end CircularArray

/-- Where the owner is in `push` or `pop`, with its locals. -/
inductive Owner (T : Type) where
  | idle
  /-- `push` has loaded `bottom_`. -/
  | pushTop (x : T) (b : Nat)
  | pushArray (x : T) (b t : Nat)
  /-- `grow` of array `a` has copied the indices below `i` to `na`. -/
  | grow (x : T) (b a na i : Nat)
  | growPut (x : T) (b a na i : Nat) (v : T)
  | put (x : T) (b a : Nat)
  | pushBottom (x : T) (b : Nat)
  /-- `pop` has loaded `bottom_`. -/
  | popArray (b : Nat)
  | popBottom (b a : Nat)
  | popTop (b a : Nat)
  | popRead (b a t : Nat)
  | popCas (b t : Nat) (x : T)
  /-- `pop` is about to store `b + 1` to `bottom_` and to return. -/
  | restore (b : Nat) (result : Option T)

/-- Where a thief is in `steal`, with its locals. -/
inductive Thief (T : Type) where
  | idle
  /-- `steal` has loaded `top_`. -/
  | loadBottom (t : Nat)
  | loadArray (t : Nat)
  | read (t a : Nat)
  | cas (t : Nat) (x : T)

structure State (T : Type) where
  top : Nat := 1
  bottom : Nat := 1
  /-- The number of the array `array_` points to. -/
  array : Nat := 0
  arrays : Nat → CircularArray T
  allocated : Nat := 1
  owner : Owner T := .idle
  thieves : Nat → Thief T := fun _ => .idle
  pushed : List T := []
  returned : List T := []

inductive Label (T : Type) where
  /-- The owner calls `push`, which loads `bottom_`. -/
  | push (x : T)
  /-- The owner calls `pop`, which loads `bottom_`. -/
  | pop
  /-- The owner goes on; an array it allocates holds `junk`. -/
  | owner (junk : Nat → T)
  /-- Thief `k` calls `steal`, which loads `top_`. -/
  | steal (k : Nat)
  | thief (k : Nat)

variable {T : Type}

def ownerNext (junk : Nat → T) (s : State T) : Option (State T) :=
  match s.owner with
  | .idle => none
  | .pushTop x b => some { s with owner := .pushArray x b s.top }
  | .pushArray x b t =>
      let a := s.array
      if (s.arrays a).capacity - 1 < b - t then
        let na := s.allocated
        some { s with
          arrays := Function.update s.arrays na ⟨(s.arrays a).capacity * 2, junk⟩
          allocated := s.allocated + 1
          owner := .grow x b a na t }
      else some { s with owner := .put x b a }
  | .grow x b a na i =>
      if i < b then some { s with owner := .growPut x b a na i ((s.arrays a).get i) }
      else some { s with array := na, owner := .put x b na }
  | .growPut x b a na i v => some { s with
      arrays := Function.update s.arrays na ((s.arrays na).put i v)
      owner := .grow x b a na (i + 1) }
  | .put x b a => some { s with
      arrays := Function.update s.arrays a ((s.arrays a).put b x)
      owner := .pushBottom x b }
  | .pushBottom _ b => some { s with bottom := b + 1, owner := .idle }
  | .popArray b => some { s with owner := .popBottom b s.array }
  | .popBottom b a => some { s with bottom := b, owner := .popTop b a }
  | .popTop b a =>
      if s.top ≤ b then some { s with owner := .popRead b a s.top }
      else some { s with owner := .restore b none }
  | .popRead b a t =>
      let x := (s.arrays a).get b
      if t = b then some { s with owner := .popCas b t x }
      else some { s with owner := .idle, returned := s.returned ++ [x] }
  | .popCas b t x =>
      if s.top = t then some { s with top := t + 1, owner := .restore b (some x) }
      else some { s with owner := .restore b none }
  | .restore b result => some { s with
      bottom := b + 1
      owner := .idle
      returned := s.returned ++ result.toList }

def State.setThief (s : State T) (k : Nat) (pc : Thief T) : State T :=
  { s with thieves := Function.update s.thieves k pc }

/-- The next step of `steal` by thief `k`. -/
def thiefNext (k : Nat) (s : State T) : Option (State T) :=
  match s.thieves k with
  | .idle => none
  | .loadBottom t => some (s.setThief k (if s.bottom ≤ t then .idle else .loadArray t))
  | .loadArray t => some (s.setThief k (.read t s.array))
  | .read t a => some (s.setThief k (.cas t ((s.arrays a).get t)))
  | .cas t x =>
      if s.top = t then
        some ({ s with top := t + 1, returned := s.returned ++ [x] }.setThief k .idle)
      else some (s.setThief k .idle)

def next (s : State T) : Label T → Option (State T)
  | .push x =>
      match s.owner with
      | .idle => some { s with owner := .pushTop x s.bottom, pushed := s.pushed ++ [x] }
      | _ => none
  | .pop =>
      match s.owner with
      | .idle => some { s with owner := .popArray (s.bottom - 1) }
      | _ => none
  | .owner junk => ownerNext junk s
  | .steal k =>
      match s.thieves k with
      | .idle => some (s.setThief k (.loadBottom s.top))
      | _ => none
  | .thief k => thiefNext k s

/-- A new deque of the default capacity, whose array may hold anything. -/
def create (junk : Nat → T) : State T := { arrays := fun _ => ⟨1024, junk⟩ }

/-- All interleavings, from a deque whose array holds `junk`. -/
def deque (junk : Nat → T) : Machine (State T) (Label T) := Machine.ofFun (create junk) next

/-- The items at the indices from `top_` to `bottom_ - 1`. -/
def State.items (s : State T) : List T :=
  (List.range' s.top (s.bottom - s.top)).map (s.arrays s.array).get

/-- All calls have returned. -/
def State.Quiet (s : State T) : Prop := s.owner = .idle ∧ ∀ k, s.thieves k = .idle

/-! ### Arrays -/

namespace CircularArray

variable {a : CircularArray T} {i j : Nat} {x : T}

/-- The capacity is a power of two, so that a slot is an index up to full laps. -/
def Whole (a : CircularArray T) : Prop := ∃ k, a.capacity = 2 ^ k

theorem Whole.slot_eq (h : a.Whole) (i : Nat) : a.slot i = i % a.capacity := by
  obtain ⟨k, hk⟩ := h
  rw [slot, hk]
  exact Nat.and_two_pow_sub_one_eq_mod i k

theorem Whole.pos (h : a.Whole) : 0 < a.capacity := by
  obtain ⟨k, hk⟩ := h
  rw [hk]
  exact Nat.two_pow_pos k

@[simp] theorem put_capacity (a : CircularArray T) (i : Nat) (x : T) :
    (a.put i x).capacity = a.capacity := rfl

@[simp] theorem put_get_self (a : CircularArray T) (i : Nat) (x : T) : (a.put i x).get i = x :=
  Function.update_self _ _ _

/-- Indices less than a lap apart have different slots. -/
theorem Whole.put_get (h : a.Whole) (hij : i < j) (hlap : j < i + a.capacity) :
    (a.put j x).get i = a.get i := by
  have hne : a.slot i ≠ a.slot j := by
    rw [h.slot_eq, h.slot_eq]
    exact mod_ne hij hlap
  exact Function.update_of_ne hne _ _

end CircularArray

/-! ### The invariant -/

namespace State

variable (s : State T)

/-- The index behind the last item a thief may still get. While `pop` has lowered `bottom_`,
the item at the old place is still there, unless the owner has seen that more than one is
left and takes it without asking. -/
def limit : Nat :=
  match s.owner with
  | .popTop _ _ | .popCas _ _ _ | .restore _ _ => s.bottom + 1
  | .popRead b _ t => if t < b then s.bottom else s.bottom + 1
  | _ => s.bottom

def current : CircularArray T := s.arrays s.array

/-- The items between `top` and `limit`. -/
def live : List T := (List.range' s.top (s.limit - s.top)).map s.current.get

/-- The item the owner is pushing. -/
def entering : List T :=
  match s.owner with
  | .pushTop x _ | .pushArray x _ _ | .grow x _ _ _ _ | .growPut x _ _ _ _ _ | .put x _ _
  | .pushBottom x _ => [x]
  | _ => []

/-- The item the owner has secured and not returned yet. -/
def leaving : List T :=
  match s.owner with
  | .popRead b a t => if t < b then [(s.arrays a).get b] else []
  | .restore _ result => result.toList
  | _ => []

/-- Array `a` has been stored to `array_`. -/
def Published (a : Nat) : Prop :=
  a < s.allocated ∧
    match s.owner with
    | .grow _ _ _ na _ | .growPut _ _ _ na _ _ => a ≠ na
    | _ => True

/-- The array `na` holds what `a` holds at the indices from `t` to `i - 1`, and `t` is no later
than `top_`. -/
structure Copied (b a na i : Nat) : Prop where
  bottom : s.bottom = b
  array : s.array = a
  draft : na < s.allocated
  whole : (s.arrays na).Whole
  twice : (s.arrays na).capacity = (s.arrays a).capacity * 2
  copied : ∃ t, t ≤ s.top ∧ t ≤ i ∧ i ≤ b ∧ b ≤ t + (s.arrays a).capacity ∧
    ∀ j, t ≤ j → j < i → (s.arrays na).get j = (s.arrays a).get j

/-- What the owner's locals say. -/
def OwnerOk : Prop :=
  match s.owner with
  | .idle => True
  | .pushTop _ b => s.bottom = b
  | .pushArray _ b t => s.bottom = b ∧ t ≤ s.top ∧ b ≤ t + s.current.capacity
  | .grow _ b a na i => s.Copied b a na i
  | .growPut _ b a na i v => s.Copied b a na i ∧ i < b ∧ v = (s.arrays a).get i
  | .put _ b a => s.bottom = b ∧ s.array = a ∧ b < s.top + s.current.capacity
  | .pushBottom x b => s.bottom = b ∧ b < s.top + s.current.capacity ∧ s.current.get b = x
  | .popArray b => s.bottom = b + 1
  | .popBottom b a => s.bottom = b + 1 ∧ s.array = a
  | .popTop b a => s.bottom = b ∧ s.array = a
  | .popRead b a t => s.bottom = b ∧ s.array = a ∧ t ≤ b ∧ t ≤ s.top
  | .popCas b t x => s.bottom = b ∧ t = b ∧ t ≤ s.top ∧ x = s.current.get b
  | .restore b _ => s.bottom = b ∧ s.top = b + 1

/-- What a thief's locals say. Where its compare-and-swap can still succeed, there is an item
at `top_`, and it is the one the thief has read or will read. -/
def ThiefOk : Thief T → Prop
  | .idle => True
  | .loadBottom t => t ≤ s.top
  | .loadArray t => t ≤ s.top ∧ (t = s.top → t < s.limit)
  | .read t a => t ≤ s.top ∧ s.Published a ∧
      (t = s.top → t < s.limit ∧ (s.arrays a).get t = s.current.get t)
  | .cas t x => t ≤ s.top ∧ (t = s.top → t < s.limit ∧ x = s.current.get t)

/-- All items pushed, in the order in which they are or will be returned. -/
def ledger : List T := s.returned ++ (s.leaving ++ (s.live ++ s.entering))

structure Inv : Prop where
  one_le : 1 ≤ s.top
  top_le : s.top ≤ s.limit
  room : s.limit ≤ s.top + s.current.capacity
  whole : s.current.Whole
  published : s.Published s.array
  owner : s.OwnerOk
  thief : ∀ k, s.ThiefOk (s.thieves k)
  perm : s.ledger.Perm s.pushed
  order : (s.live ++ s.entering).Sublist s.pushed

end State

/-! ### Thieves -/

variable {s s' : State T} {k : Nat}

/-- A thief is not disturbed where its item stays. -/
theorem State.ThiefOk.same {pc : Thief T} (h : s.ThiefOk pc) (htop : s'.top = s.top)
    (hlimit : s.top < s.limit → s.top < s'.limit)
    (hpublished : ∀ a, s.Published a → s'.Published a)
    (hcurrent : s.top < s.limit → s'.current.get s.top = s.current.get s.top)
    (hget : ∀ a, s.Published a → s.top < s.limit →
      (s'.arrays a).get s.top = (s.arrays a).get s.top) : s'.ThiefOk pc := by
  cases pc with
  | idle => trivial
  | loadBottom t =>
      rw [State.ThiefOk, htop]
      exact h
  | loadArray t =>
      rw [State.ThiefOk, htop]
      refine ⟨h.1, fun heq => ?_⟩
      subst heq
      exact hlimit (h.2 rfl)
  | read t a =>
      rw [State.ThiefOk, htop]
      obtain ⟨hle, ha, hitem⟩ := h
      refine ⟨hle, hpublished a ha, fun heq => ?_⟩
      subst heq
      obtain ⟨hlt, hread⟩ := hitem rfl
      exact ⟨hlimit hlt, by rw [hget a ha hlt, hcurrent hlt, hread]⟩
  | cas t x =>
      rw [State.ThiefOk, htop]
      refine ⟨h.1, fun heq => ?_⟩
      subst heq
      obtain ⟨hlt, hread⟩ := h.2 rfl
      exact ⟨hlimit hlt, by rw [hcurrent hlt, hread]⟩

/-- The compare-and-swap of a thief fails once `top_` has gone on. -/
theorem State.ThiefOk.past {pc : Thief T} (h : s.ThiefOk pc) (htop : s.top < s'.top)
    (hpublished : ∀ a, s.Published a → s'.Published a) : s'.ThiefOk pc := by
  have hpast : ∀ {t}, t ≤ s.top → t ≤ s'.top ∧ t ≠ s'.top := fun hle => by omega
  cases pc with
  | idle => trivial
  | loadBottom t => exact (hpast h).1
  | loadArray t => exact ⟨(hpast h.1).1, fun heq => absurd heq (hpast h.1).2⟩
  | read t a => exact ⟨(hpast h.1).1, hpublished a h.2.1, fun heq => absurd heq (hpast h.1).2⟩
  | cas t x => exact ⟨(hpast h.1).1, fun heq => absurd heq (hpast h.1).2⟩

end NanoVault.Utils.WorkStealing
