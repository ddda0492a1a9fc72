/-
`MPMCQueue` (`utils/mpmc.hpp`).

Any number of threads call `enqueue` and `dequeue`. Every load, store and compare-and-swap and
every access to a slot's data is a step of its own, and the steps of the threads may come in
any order; a compare-and-swap may also fail without reason. What a thread holds between two
steps is in its program counter.

Positions and sequence numbers are `size_t`. They are kept as the numbers they would be without
wrapping, and the code sees of them what a `size_t` holds: `slotOf`, `diff` and the
compare-and-swaps look at residues only.

With one slot, which the `static_assert` admits, an item that has just been published looks
like a free slot to the next `enqueue`, which overwrites it (`claimed_twice`).
-/
import NanoVault.Lib.Machine
import NanoVault.Hft.SingleProducer

namespace NanoVault.Utils.Mpmc

open Lib

structure Slot (T : Type) where
  sequence : Nat
  data : T

/-- Where a thread is in `enqueue` or `dequeue`, with its locals. -/
inductive Pc (T : Type) where
  | idle
  /-- `enqueue` is about to load the sequence number of its slot. -/
  | enqSeq (item : T) (pos : Nat)
  | enqCas (item : T) (pos : Nat)
  /-- `enqueue` is about to load `enqueue_pos_` again. -/
  | enqReload (item : T)
  | enqWrite (item : T) (pos : Nat)
  | enqPublish (item : T) (pos : Nat)
  /-- `dequeue` is about to load the sequence number of its slot. -/
  | deqSeq (pos : Nat)
  | deqCas (pos : Nat)
  | deqReload
  | deqRead (pos : Nat)
  | deqPublish (item : T) (pos : Nat)

/-- The queue and its threads. `claimed` lists the items in the order in which `enqueue` has
claimed positions for them; `enqueued` and `dequeued` list the positions and items of the calls
that have returned true. -/
structure State (T : Type) where
  enqueuePos : Nat := 0
  dequeuePos : Nat := 0
  slots : Nat → Slot T
  threads : Nat → Pc T := fun _ => .idle
  claimed : List T := []
  enqueued : List (Nat × T) := []
  dequeued : List (Nat × T) := []

inductive Label (T : Type) where
  /-- Thread `k` calls `enqueue`, which loads `enqueue_pos_`. -/
  | enqueue (k : Nat) (item : T)
  /-- Thread `k` calls `dequeue`, which loads `dequeue_pos_`. -/
  | dequeue (k : Nat)
  /-- Thread `k` goes on; where it moves an item out of a slot, `rest` stays behind. -/
  | go (k : Nat) (rest : T)
  /-- The compare-and-swap of thread `k` fails without reason. -/
  | fail (k : Nat)

variable {T : Type}

/-- `pos & MASK`. -/
def slotOf (capacity : UInt64) (pos : Nat) : Nat := (UInt64.ofNat pos &&& (capacity - 1)).toNat

/-- `(intptr_t)seq - (intptr_t)pos`, which wraps here where the subtraction of signed numbers would
overflow. -/
def diff (seq pos : Nat) : Int64 := (UInt64.ofNat seq).toInt64 - (UInt64.ofNat pos).toInt64

def State.goto (s : State T) (k : Nat) (pc : Pc T) : State T :=
  { s with threads := Function.update s.threads k pc }

def State.writeSlot (s : State T) (j : Nat) (slot : Slot T) : State T :=
  { s with slots := Function.update s.slots j slot }

def threadNext (capacity : UInt64) (k : Nat) (rest : T) (s : State T) : Option (State T) :=
  match s.threads k with
  | .idle => none
  | .enqSeq item pos =>
      let d := diff (s.slots (slotOf capacity pos)).sequence pos
      some (s.goto k
        (if d = 0 then .enqCas item pos else if d < 0 then .idle else .enqReload item))
  | .enqCas item pos =>
      if UInt64.ofNat s.enqueuePos = UInt64.ofNat pos then
        some ({ s with enqueuePos := pos + 1, claimed := s.claimed ++ [item] }.goto k
          (.enqWrite item pos))
      else some (s.goto k (.enqSeq item s.enqueuePos))
  | .enqReload item => some (s.goto k (.enqSeq item s.enqueuePos))
  | .enqWrite item pos =>
      let j := slotOf capacity pos
      some ((s.writeSlot j { s.slots j with data := item }).goto k (.enqPublish item pos))
  | .enqPublish item pos =>
      let j := slotOf capacity pos
      some (({ s with enqueued := s.enqueued ++ [(pos, item)] }.writeSlot j
        { s.slots j with sequence := pos + 1 }).goto k .idle)
  | .deqSeq pos =>
      let d := diff (s.slots (slotOf capacity pos)).sequence (pos + 1)
      some (s.goto k (if d = 0 then .deqCas pos else if d < 0 then .idle else .deqReload))
  | .deqCas pos =>
      if UInt64.ofNat s.dequeuePos = UInt64.ofNat pos then
        some ({ s with dequeuePos := pos + 1 }.goto k (.deqRead pos))
      else some (s.goto k (.deqSeq s.dequeuePos))
  | .deqReload => some (s.goto k (.deqSeq s.dequeuePos))
  | .deqRead pos =>
      let j := slotOf capacity pos
      some ((s.writeSlot j { s.slots j with data := rest }).goto k
        (.deqPublish (s.slots j).data pos))
  | .deqPublish item pos =>
      let j := slotOf capacity pos
      some (({ s with dequeued := s.dequeued ++ [(pos, item)] }.writeSlot j
        { s.slots j with sequence := pos + capacity.toNat }).goto k .idle)

def next (capacity : UInt64) (s : State T) : Label T → Option (State T)
  | .enqueue k item =>
      match s.threads k with
      | .idle => some (s.goto k (.enqSeq item s.enqueuePos))
      | _ => none
  | .dequeue k =>
      match s.threads k with
      | .idle => some (s.goto k (.deqSeq s.dequeuePos))
      | _ => none
  | .go k rest => threadNext capacity k rest s
  | .fail k =>
      match s.threads k with
      | .enqCas item _ => some (s.goto k (.enqSeq item s.enqueuePos))
      | .deqCas _ => some (s.goto k (.deqSeq s.dequeuePos))
      | _ => none

/-- `MPMCQueue()`, whose slots may hold anything. -/
def create (junk : Nat → T) : State T := { slots := fun i => ⟨i, junk i⟩ }

/-- All interleavings. -/
def queue (capacity : UInt64) (junk : Nat → T) : Machine (State T) (Label T) :=
  Machine.ofFun (create junk) (next capacity)

/-- No compare-and-swap acts on a position that has been loaded 2^64 or more claims ago. -/
def Fresh (s : State T) : Label T → Prop
  | .go k _ =>
      match s.threads k with
      | .enqCas _ pos => s.enqueuePos < pos + 2 ^ 64
      | .deqCas pos => s.dequeuePos < pos + 2 ^ 64
      | _ => True
  | _ => True

/-- The position a thread has claimed and is to fill. -/
def Pc.writes : Pc T → Option Nat
  | .enqWrite _ pos | .enqPublish _ pos => some pos
  | _ => none

/-- The position a thread has claimed and is to empty. -/
def Pc.reads : Pc T → Option Nat
  | .deqRead pos | .deqPublish _ pos => some pos
  | _ => none

def State.Enqueued (s : State T) (p : Nat) : Prop := ∃ x, (p, x) ∈ s.enqueued

def State.Dequeued (s : State T) (p : Nat) : Prop := ∃ x, (p, x) ∈ s.dequeued

/-- No item is lost, returned twice or overwritten. -/
structure Delivered (capacity : UInt64) (s : State T) : Prop where
  /-- The items are enqueued at the positions claimed for them, one at each. -/
  claimed : ∀ p x, (p, x) ∈ s.enqueued → s.claimed[p]? = some x
  enqueued : (s.enqueued.map Prod.fst).Nodup
  /-- What a `dequeue` returns is what has been enqueued at the position it has claimed, and no
  position is returned twice. -/
  dequeued : (s.dequeued.map Prod.fst).Nodup
  same : ∀ e ∈ s.dequeued, e ∈ s.enqueued
  /-- An item that has not been returned is still to be claimed or is being returned. -/
  kept : ∀ p, s.Enqueued p → s.Dequeued p ∨ s.dequeuePos ≤ p ∨
    ∃ k, (s.threads k).reads = some p
  /-- It is in its slot until it has been read. -/
  held : ∀ p x, (p, x) ∈ s.enqueued → ¬ s.Dequeued p →
    (∀ k y, s.threads k ≠ .deqPublish y p) → (s.slots (slotOf capacity p)).data = x
  /-- No thread is about to write to its slot. -/
  safe : ∀ p, s.Enqueued p → ¬ s.Dequeued p →
    ∀ k item pos, s.threads k = .enqWrite item pos → slotOf capacity pos ≠ slotOf capacity p

/-! ### What the code sees of the numbers -/

/-- Two counters agree as words if they agree modulo two to the 64. -/
theorem ofNat_eq_ofNat {m n : Nat} :
    UInt64.ofNat m = UInt64.ofNat n ↔ m % 2 ^ 64 = n % 2 ^ 64 := by
  rw [← UInt64.toNat_inj, UInt64.toNat_ofNat', UInt64.toNat_ofNat']

/-- The difference is zero for counters that agree as words. -/
theorem diff_eq_zero {seq pos : Nat} : diff seq pos = 0 ↔ seq % 2 ^ 64 = pos % 2 ^ 64 := by
  rw [diff, Int64.sub_eq_iff_eq_add, Int64.zero_add, ← ofNat_eq_ofNat]
  constructor
  · intro h
    have hbits := congrArg Int64.toBitVec h
    rw [UInt64.toBitVec_toInt64, UInt64.toBitVec_toInt64] at hbits
    exact UInt64.toBitVec_inj.mp hbits
  · intro h
    rw [h]

/-- The slot of a position, by the mask or by the capacity. -/
theorem slotOf_eq (c : Hft.Capacity) (pos : Nat) : slotOf c.value pos = pos % c.size := by
  have h := c.slot_add 0 pos
  rw [UInt64.zero_add, UInt64.toNat_zero, Nat.zero_add] at h
  exact h

/-! ### The invariant -/

/-- The position one lap before `p` has been emptied, and so its slot is free for `p`. -/
def State.Free (c : Hft.Capacity) (s : State T) (p : Nat) : Prop :=
  c.size ≤ p → s.Dequeued (p - c.size)

/-- What a thread knows of the position it is at. -/
def Pc.Ok (c : Hft.Capacity) (s : State T) : Pc T → Prop
  | .idle | .enqReload _ | .deqReload => True
  | .enqSeq _ pos => pos ≤ s.enqueuePos
  | .enqCas _ pos => pos ≤ s.enqueuePos ∧ (pos = s.enqueuePos → s.Free c pos)
  | .enqWrite item pos => ¬ s.Enqueued pos ∧ s.claimed[pos]? = some item
  | .enqPublish item pos => ¬ s.Enqueued pos ∧ s.claimed[pos]? = some item ∧
      (s.slots (pos % c.size)).data = item
  | .deqSeq pos => pos ≤ s.dequeuePos
  | .deqCas pos => pos ≤ s.dequeuePos ∧ (pos = s.dequeuePos → s.Enqueued pos)
  | .deqRead pos => pos < s.dequeuePos ∧ ¬ s.Dequeued pos
  | .deqPublish item pos => pos < s.dequeuePos ∧ ¬ s.Dequeued pos ∧ (pos, item) ∈ s.enqueued

/-- Each position goes through its slot alone, and the sequence numbers say how far it is. -/
structure State.Inv (c : Hft.Capacity) (s : State T) : Prop where
  claims : s.claimed.length = s.enqueuePos
  item : ∀ p x, (p, x) ∈ s.enqueued → s.claimed[p]? = some x
  same : ∀ e ∈ s.dequeued, e ∈ s.enqueued
  onceIn : (s.enqueued.map Prod.fst).Nodup
  onceOut : (s.dequeued.map Prod.fst).Nodup
  free : ∀ p < s.enqueuePos, s.Free c p
  filled : ∀ p < s.dequeuePos, s.Enqueued p
  passed : ∀ p, s.Dequeued p → p < s.dequeuePos
  pending : ∀ p < s.dequeuePos, s.Dequeued p ∨ ∃ k, (s.threads k).reads = some p
  full : ∀ p, s.Enqueued p → ¬ s.Dequeued p → (s.slots (p % c.size)).sequence = p + 1
  empty : ∀ p, ¬ s.Enqueued p → s.Free c p → (s.slots (p % c.size)).sequence = p
  held : ∀ p x, (p, x) ∈ s.enqueued → ¬ s.Dequeued p →
    (∀ k y, s.threads k ≠ .deqPublish y p) → (s.slots (p % c.size)).data = x
  thread : ∀ k, (s.threads k).Ok c s
  writer : ∀ k l p, (s.threads k).writes = some p → (s.threads l).writes = some p → k = l
  reader : ∀ k l p, (s.threads k).reads = some p → (s.threads l).reads = some p → k = l

variable {c : Hft.Capacity} {s s' : State T} {k : Nat} {pc : Pc T}

namespace State.Inv

/-- What has been enqueued was claimed before. -/
theorem lt_of_enqueued (h : s.Inv c) {p : Nat} (hp : s.Enqueued p) : p < s.enqueuePos := by
  obtain ⟨x, hx⟩ := hp
  have hsome := h.item p x hx
  rw [← h.claims]
  exact (List.getElem?_eq_some_iff.mp hsome).1

/-- What has been dequeued was enqueued before. -/
theorem enqueued_of_dequeued (h : s.Inv c) {p : Nat} (hp : s.Dequeued p) : s.Enqueued p := by
  obtain ⟨x, hx⟩ := hp
  exact ⟨x, h.same _ hx⟩

/-- Before a slot is free for a position, it has been emptied of all earlier ones. -/
theorem dequeued_of_free (h : s.Inv c) {p q : Nat} (hlt : p < q)
    (hslot : p % c.size = q % c.size) (hfree : s.Free c q) : s.Dequeued p := by
  induction q using Nat.strong_induction_on with
  | _ q ih =>
    have hpos := c.one_lt_size
    have hle : p + c.size ≤ q := Nat.not_lt.mp fun hlap => Ring.mod_ne hlt hlap hslot
    have hlast := hfree (by omega)
    obtain heq | hless := Nat.eq_or_lt_of_le hle
    · have hp : p = q - c.size := by omega
      rwa [hp]
    · have hbefore := h.free _ (h.lt_of_enqueued (h.enqueued_of_dequeued hlast))
      refine ih (q - c.size) (by omega) (by omega) ?_ hbefore
      rw [hslot, ← Nat.mod_eq_sub_mod (by omega)]

/-- A slot is that of one position at a time. -/
theorem position_unique (h : s.Inv c) {p q : Nat} (hp : s.Free c p) (hq : s.Free c q)
    (hpOut : ¬ s.Dequeued p) (hqOut : ¬ s.Dequeued q) (hslot : p % c.size = q % c.size) :
    p = q := by
  obtain hlt | heq | hlt := Nat.lt_trichotomy p q
  · exact absurd (h.dequeued_of_free hlt hslot hq) hpOut
  · exact heq
  · exact absurd (h.dequeued_of_free hlt hslot.symm hp) hqOut

/-- The sequence number is that of the next position only if its slot is free. -/
theorem free_of_sequence (h : s.Inv c)
    (hseq : (s.slots (s.enqueuePos % c.size)).sequence % 2 ^ 64 = s.enqueuePos % 2 ^ 64) :
    s.Free c s.enqueuePos := by
  intro hle
  by_contra hout
  have hone := c.one_lt_size
  have hsize := c.size_lt
  have hslot : (s.enqueuePos - c.size) % c.size = s.enqueuePos % c.size :=
    (Nat.mod_eq_sub_mod hle).symm
  by_cases hin : s.Enqueued (s.enqueuePos - c.size)
  · have hfull := h.full _ hin hout
    rw [hslot] at hfull
    omega
  · have hempty := h.empty _ hin (h.free _ (by omega))
    rw [hslot] at hempty
    omega

/-- The sequence number is one more than the next position only if that has been filled. -/
theorem enqueued_of_sequence (h : s.Inv c)
    (hseq : (s.slots (s.dequeuePos % c.size)).sequence % 2 ^ 64 =
      (s.dequeuePos + 1) % 2 ^ 64) : s.Enqueued s.dequeuePos := by
  by_contra hin
  have hone := c.one_lt_size
  have hsize := c.size_lt
  by_cases hfree : s.Free c s.dequeuePos
  · have hempty := h.empty _ hin hfree
    omega
  · obtain ⟨hle, hout⟩ := Classical.not_imp.mp hfree
    have hfull := h.full _ (h.filled _ (by omega)) hout
    rw [← Nat.mod_eq_sub_mod hle] at hfull
    omega

end State.Inv

/-! ### What others see of a step -/

/-- What no step takes back. -/
structure Grows (s s' : State T) : Prop where
  enqueuePos : s.enqueuePos ≤ s'.enqueuePos
  dequeuePos : s.dequeuePos ≤ s'.dequeuePos
  claimed : s.claimed <+: s'.claimed
  enqueued : s.enqueued ⊆ s'.enqueued
  dequeued : s.dequeued ⊆ s'.dequeued

namespace Grows

/-- What is enqueued stays so. -/
theorem enqueued_mono (h : Grows s s') {p : Nat} (hp : s.Enqueued p) : s'.Enqueued p := by
  obtain ⟨x, hx⟩ := hp
  exact ⟨x, h.enqueued hx⟩

/-- What is dequeued stays so. -/
theorem dequeued_mono (h : Grows s s') {p : Nat} (hp : s.Dequeued p) : s'.Dequeued p := by
  obtain ⟨x, hx⟩ := hp
  exact ⟨x, h.dequeued hx⟩

/-- A slot that is free for a position stays so. -/
theorem free_mono (h : Grows s s') {p : Nat} (hp : s.Free c p) : s'.Free c p :=
  fun hle => h.dequeued_mono (hp hle)

/-- A claim stands once it has been made. -/
theorem getElem?_claimed (h : Grows s s') {p : Nat} {x : T} (hx : s.claimed[p]? = some x) :
    s'.claimed[p]? = some x := by
  obtain ⟨l, hl⟩ := h.claimed
  obtain ⟨hlt, -⟩ := List.getElem?_eq_some_iff.mp hx
  rw [← hl, List.getElem?_append_left hlt]
  exact hx

end Grows

/-- What a thread knows stays true while others leave its position and the item it has written
alone. -/
theorem Pc.Ok.grows (h : pc.Ok c s) (hgrows : Grows s s')
    (hin : ∀ p, pc.writes = some p → s'.Enqueued p → s.Enqueued p)
    (hout : ∀ p, pc.reads = some p → s'.Dequeued p → s.Dequeued p)
    (hdata : ∀ item p, pc = .enqPublish item p →
      (s'.slots (p % c.size)).data = (s.slots (p % c.size)).data) : pc.Ok c s' := by
  have henq := hgrows.enqueuePos
  have hdeq := hgrows.dequeuePos
  cases pc with
  | idle => trivial
  | enqSeq item pos => exact Nat.le_trans h henq
  | enqCas item pos =>
    obtain ⟨hle, hfree⟩ := h
    refine ⟨Nat.le_trans hle henq, fun hpos => hgrows.free_mono (hfree ?_)⟩
    omega
  | enqReload item => trivial
  | enqWrite item pos => exact ⟨fun hp => h.1 (hin pos rfl hp), hgrows.getElem?_claimed h.2⟩
  | enqPublish item pos =>
    obtain ⟨hnew, hclaimed, hitem⟩ := h
    refine ⟨fun hp => hnew (hin pos rfl hp), hgrows.getElem?_claimed hclaimed, ?_⟩
    rw [hdata item pos rfl]
    exact hitem
  | deqSeq pos => exact Nat.le_trans h hdeq
  | deqCas pos =>
    obtain ⟨hle, hfull⟩ := h
    refine ⟨Nat.le_trans hle hdeq, fun hpos => hgrows.enqueued_mono (hfull ?_)⟩
    omega
  | deqReload => trivial
  | deqRead pos => exact ⟨Nat.lt_of_lt_of_le h.1 hdeq, fun hp => h.2 (hout pos rfl hp)⟩
  | deqPublish item pos =>
    obtain ⟨hlt, hnew, hitem⟩ := h
    exact ⟨Nat.lt_of_lt_of_le hlt hdeq, fun hp => hnew (hout pos rfl hp), hgrows.enqueued hitem⟩

theorem threads_self (k : Nat) (pc : Pc T) : (s.goto k pc).threads k = pc := by
  simp [State.goto]

theorem threads_of_ne {l : Nat} (hl : l ≠ k) (pc : Pc T) :
    (s.goto k pc).threads l = s.threads l := by
  simp [State.goto, hl]

/-- A position that no other thread has is still that of one thread after `k` has taken it. -/
theorem unique_goto {f : Pc T → Option Nat}
    (h : ∀ i j p, f (s.threads i) = some p → f (s.threads j) = some p → i = j)
    (hnew : ∀ l p, l ≠ k → f pc = some p → f (s.threads l) ≠ some p) :
    ∀ i j p, f ((s.goto k pc).threads i) = some p → f ((s.goto k pc).threads j) = some p →
      i = j := by
  intro i j p hi hj
  by_cases hik : i = k
  · subst hik
    by_contra hji
    rw [threads_self] at hi
    rw [threads_of_ne (Ne.symm hji)] at hj
    exact hnew j p (Ne.symm hji) hi hj
  · rw [threads_of_ne hik] at hi
    by_cases hjk : j = k
    · subst hjk
      rw [threads_self] at hj
      exact absurd hi (hnew i p hik hj)
    · rw [threads_of_ne hjk] at hj
      exact h i j p hi hj

/-- Threads other than `k` know what they knew. -/
theorem ok_goto (hk : pc.Ok c s') (hothers : ∀ l, l ≠ k → (s'.threads l).Ok c s') :
    ∀ l, ((s'.goto k pc).threads l).Ok c (s'.goto k pc) := by
  intro l
  by_cases hl : l = k
  · subst hl
    rw [threads_self]
    exact hk
  · rw [threads_of_ne hl]
    exact hothers l hl

@[simp] theorem slots_goto (k : Nat) (pc : Pc T) : (s.goto k pc).slots = s.slots := rfl

@[simp] theorem slots_self (j : Nat) (slot : Slot T) : (s.writeSlot j slot).slots j = slot := by
  simp [State.writeSlot]

theorem slots_of_ne {i j : Nat} (hi : i ≠ j) (slot : Slot T) :
    (s.writeSlot j slot).slots i = s.slots i := by
  simp [State.writeSlot, hi]

theorem data_writeSlot (i j n : Nat) :
    ((s.writeSlot j { s.slots j with sequence := n }).slots i).data = (s.slots i).data := by
  by_cases hi : i = j
  · subst hi
    rw [slots_self]
  · rw [slots_of_ne hi]

theorem sequence_writeSlot (i j : Nat) (x : T) :
    ((s.writeSlot j { s.slots j with data := x }).slots i).sequence = (s.slots i).sequence := by
  by_cases hi : i = j
  · subst hi
    rw [slots_self]
  · rw [slots_of_ne hi]

theorem exists_mem_concat {l : List (Nat × T)} {p q : Nat} {x : T} :
    (∃ y, (p, y) ∈ l ++ [(q, x)]) ↔ (∃ y, (p, y) ∈ l) ∨ p = q := by
  constructor
  · rintro ⟨y, hy⟩
    obtain hold | hnew := List.mem_append.mp hy
    · exact .inl ⟨y, hold⟩
    · cases List.mem_singleton.mp hnew
      exact .inr rfl
  · rintro (⟨y, hy⟩ | rfl)
    · exact ⟨y, List.mem_append_left _ hy⟩
    · exact ⟨x, List.mem_concat_self⟩

theorem nodup_concat {l : List (Nat × T)} {p : Nat} {x : T} (h : (l.map Prod.fst).Nodup)
    (hnew : ¬ ∃ y, (p, y) ∈ l) : ((l ++ [(p, x)]).map Prod.fst).Nodup := by
  rw [List.map_append]
  refine h.append (List.nodup_singleton p) ?_
  intro q hq hp
  obtain ⟨⟨q, y⟩, hmem, rfl⟩ := List.mem_map.mp hq
  have heq : q = p := List.mem_singleton.mp hp
  subst heq
  exact hnew ⟨y, hmem⟩

namespace State.Inv

/-- What is not enqueued is not dequeued. -/
theorem not_dequeued (h : s.Inv c) {p : Nat} (hp : ¬ s.Enqueued p) : ¬ s.Dequeued p :=
  fun hout => hp (h.enqueued_of_dequeued hout)

/-- What is enqueued has a slot of its own. -/
theorem free_of_enqueued (h : s.Inv c) {p : Nat} (hp : s.Enqueued p) : s.Free c p :=
  h.free p (h.lt_of_enqueued hp)

/-- A producer in its section writes a position that is claimed and not enqueued. -/
theorem of_writes (h : s.Inv c) (hpc : s.threads k = pc) {p : Nat} (hp : pc.writes = some p) :
    p < s.enqueuePos ∧ ¬ s.Enqueued p := by
  have hok := h.thread k
  rw [hpc] at hok
  rw [← h.claims]
  cases pc with
  | enqWrite item pos =>
    cases hp
    exact ⟨(List.getElem?_eq_some_iff.mp hok.2).1, hok.1⟩
  | enqPublish item pos =>
    cases hp
    exact ⟨(List.getElem?_eq_some_iff.mp hok.2.1).1, hok.1⟩
  | idle | enqSeq | enqCas | enqReload | deqSeq | deqCas | deqReload | deqRead | deqPublish =>
    cases hp

/-- A consumer in its section reads a position that is claimed and not dequeued. -/
theorem of_reads (h : s.Inv c) (hpc : s.threads k = pc) {p : Nat} (hp : pc.reads = some p) :
    p < s.dequeuePos ∧ ¬ s.Dequeued p := by
  have hok := h.thread k
  rw [hpc] at hok
  cases pc with
  | deqRead pos =>
    cases hp
    exact hok
  | deqPublish item pos =>
    cases hp
    exact ⟨hok.1, hok.2.1⟩
  | idle | enqSeq | enqCas | enqReload | enqWrite | enqPublish | deqSeq | deqCas | deqReload =>
    cases hp

/-- The slot of a position that is being filled is that of no other. -/
theorem apart_of_writes (h : s.Inv c) (hpc : s.threads k = pc) {p pos : Nat}
    (hpos : pc.writes = some pos) (hp : s.Free c p) (hout : ¬ s.Dequeued p) (hne : p ≠ pos) :
    p % c.size ≠ pos % c.size := by
  obtain ⟨hlt, hnew⟩ := h.of_writes hpc hpos
  intro hslot
  exact hne (h.position_unique hp (h.free pos hlt) hout (h.not_dequeued hnew) hslot)

/-- The slot of a position that is being emptied is that of no other. -/
theorem apart_of_reads (h : s.Inv c) (hpc : s.threads k = pc) {p pos : Nat}
    (hpos : pc.reads = some pos) (hp : s.Free c p) (hout : ¬ s.Dequeued p) (hne : p ≠ pos) :
    p % c.size ≠ pos % c.size := by
  obtain ⟨hlt, hnew⟩ := h.of_reads hpc hpos
  intro hslot
  exact hne (h.position_unique hp (h.free_of_enqueued (h.filled pos hlt)) hout hnew hslot)

/-- A position has one writer. -/
theorem writer_eq (h : s.Inv c) (hpc : s.threads k = pc) {l p : Nat} (hp : pc.writes = some p)
    (hl : (s.threads l).writes = some p) : l = k := by
  subst hpc
  exact h.writer l k p hl hp

/-- A position has one reader. -/
theorem reader_eq (h : s.Inv c) (hpc : s.threads k = pc) {l p : Nat} (hp : pc.reads = some p)
    (hl : (s.threads l).reads = some p) : l = k := by
  subst hpc
  exact h.reader l k p hl hp

/-- A position claimed for reading is dequeued or has its reader still. -/
theorem pending_goto {old : Pc T} (h : s.Inv c) (hpc : s.threads k = old)
    (hkeep : ∀ p, old.reads = some p → pc.reads = some p) {p : Nat} (hp : p < s.dequeuePos) :
    s.Dequeued p ∨ ∃ l, ((s.goto k pc).threads l).reads = some p := by
  obtain hout | ⟨l, hl⟩ := h.pending p hp
  · exact .inl hout
  · refine .inr ⟨l, ?_⟩
    by_cases hlk : l = k
    · subst hlk
      rw [hpc] at hl
      rw [threads_self]
      exact hkeep p hl
    · rw [threads_of_ne hlk]
      exact hl

/-- Who is about to return the item of `p` still is, unless it is `k`. -/
theorem held_goto {old : Pc T} (h : s.Inv c) (hpc : s.threads k = old) {p : Nat} {x : T}
    (hx : (p, x) ∈ s.enqueued) (hout : ¬ s.Dequeued p) (hold : ∀ y, old ≠ .deqPublish y p)
    (hnot : ∀ l y, (s.goto k pc).threads l ≠ .deqPublish y p) :
    (s.slots (p % c.size)).data = x := by
  refine h.held p x hx hout fun l y hl => ?_
  by_cases hlk : l = k
  · subst hlk
    exact hold y (hpc.symm.trans hl)
  · apply hnot l y
    rw [threads_of_ne hlk]
    exact hl

end State.Inv

end NanoVault.Utils.Mpmc
