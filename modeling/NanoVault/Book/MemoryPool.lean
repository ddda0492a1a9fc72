/-
The slab allocator `MemoryPool<T, CAPACITY>` (`hft_clean/include/memory_pool.hpp`).

A slot is an index into `storage`; the first `freeTop` entries of `freeList` are the slots
that may be handed out. Storage outlives its allocation, so a slot can be read at any time.
-/
import Mathlib.Logic.Function.Basic

namespace NanoVault.Book

abbrev Slot := Nat

structure MemoryPool (T : Type) (capacity : Nat) where
  storage : Slot → T
  freeList : Nat → Slot
  freeTop : Nat

namespace MemoryPool

variable {T : Type} {capacity : Nat}

/-- A new pool hands out its last slot first. -/
def init [Inhabited T] : MemoryPool T capacity := ⟨fun _ => default, id, capacity⟩

/-- The slot on top of the free list, reset, or none when no slot is free. -/
def allocate [Inhabited T] (m : MemoryPool T capacity) : Option (Slot × MemoryPool T capacity) :=
  if m.freeTop = 0 then none
  else
    let idx := m.freeList (m.freeTop - 1)
    some (idx,
      { m with freeTop := m.freeTop - 1, storage := Function.update m.storage idx default })

def deallocate (m : MemoryPool T capacity) (idx : Slot) : MemoryPool T capacity :=
  { m with freeList := Function.update m.freeList m.freeTop idx, freeTop := m.freeTop + 1 }

/-- `reset()` refills the free list and leaves the storage as it is. -/
def reset (m : MemoryPool T capacity) : MemoryPool T capacity :=
  { m with freeList := id, freeTop := capacity }

def used (m : MemoryPool T capacity) : Nat := capacity - m.freeTop

/-- Write through a pointer into the storage. -/
def write (m : MemoryPool T capacity) (idx : Slot) (f : T → T) : MemoryPool T capacity :=
  { m with storage := Function.update m.storage idx (f (m.storage idx)) }

/-- The free slots: the first `freeTop` entries of the free list. -/
def IsFree (m : MemoryPool T capacity) (s : Slot) : Prop := ∃ i < m.freeTop, m.freeList i = s

/-- The free list names no slot twice. -/
def FreeDistinct (m : MemoryPool T capacity) : Prop :=
  ∀ i < m.freeTop, ∀ j < m.freeTop, m.freeList i = m.freeList j → i = j

@[simp] theorem write_storage_self (m : MemoryPool T capacity) (s : Slot) (f : T → T) :
    (m.write s f).storage s = f (m.storage s) :=
  Function.update_self _ _ _

theorem write_storage_ne (m : MemoryPool T capacity) {s s' : Slot} (f : T → T) (h : s' ≠ s) :
    (m.write s f).storage s' = m.storage s' :=
  Function.update_of_ne h _ _

@[simp] theorem isFree_write (m : MemoryPool T capacity) (s s' : Slot) (f : T → T) :
    (m.write s f).IsFree s' ↔ m.IsFree s' :=
  Iff.rfl

theorem freeDistinct_init [Inhabited T] : (init : MemoryPool T capacity).FreeDistinct :=
  fun _ _ _ _ h => h

theorem freeDistinct_reset (m : MemoryPool T capacity) : m.reset.FreeDistinct :=
  fun _ _ _ _ h => h

theorem allocate_eq_none [Inhabited T] {m : MemoryPool T capacity} :
    m.allocate = none ↔ m.freeTop = 0 := by
  unfold allocate
  split <;> simp_all

theorem allocate_freeTop [Inhabited T] {m m' : MemoryPool T capacity} {s : Slot}
    (h : m.allocate = some (s, m')) : m'.freeTop = m.freeTop - 1 := by
  unfold allocate at h
  split at h
  · cases h
  · cases h
    rfl

/-- What `allocate` hands out was free and is not free any more; the other slots keep
their contents. -/
theorem allocate_spec [Inhabited T] {m m' : MemoryPool T capacity} {s : Slot}
    (h : m.allocate = some (s, m')) (hm : m.FreeDistinct) :
    m.IsFree s ∧ m'.FreeDistinct ∧ (∀ s', m'.IsFree s' ↔ m.IsFree s' ∧ s' ≠ s) ∧
      (∀ s', s' ≠ s → m'.storage s' = m.storage s') := by
  unfold allocate at h
  split at h
  · cases h
  · next htop =>
      cases h
      refine ⟨⟨m.freeTop - 1, by omega, rfl⟩, fun i hi j hj => hm i (by simp at hi; omega) j
        (by simp at hj; omega), fun s' => ⟨?_, ?_⟩, fun s' hs' => Function.update_of_ne hs' _ _⟩
      · rintro ⟨i, hi, rfl⟩
        refine ⟨⟨i, by simp at hi; omega, rfl⟩, fun heq => ?_⟩
        have := hm i (by simp at hi; omega) (m.freeTop - 1) (by omega) heq
        simp at hi
        omega
      · rintro ⟨⟨i, hi, rfl⟩, hne⟩
        refine ⟨i, ?_, rfl⟩
        have : i ≠ m.freeTop - 1 := fun heq => hne (heq ▸ rfl)
        show i < m.freeTop - 1
        omega

/-- Giving back a slot that is not free makes it free. -/
theorem deallocate_spec {m : MemoryPool T capacity} {s : Slot} (hs : ¬ m.IsFree s)
    (hm : m.FreeDistinct) :
    (m.deallocate s).FreeDistinct ∧ (∀ s', (m.deallocate s).IsFree s' ↔ m.IsFree s' ∨ s' = s) := by
  have hold : ∀ i < m.freeTop, (m.deallocate s).freeList i = m.freeList i := fun i hi =>
    Function.update_of_ne (Nat.ne_of_lt hi) _ _
  have hnew : (m.deallocate s).freeList m.freeTop = s := Function.update_self _ _ _
  refine ⟨fun i hi j hj heq => ?_, fun s' => ⟨?_, ?_⟩⟩
  · have hi : i < m.freeTop + 1 := hi
    have hj : j < m.freeTop + 1 := hj
    rcases Nat.lt_succ_iff_lt_or_eq.mp hi with hi | rfl
    · rcases Nat.lt_succ_iff_lt_or_eq.mp hj with hj | rfl
      · exact hm i hi j hj (by rwa [hold i hi, hold j hj] at heq)
      · exact absurd ⟨i, hi, by rwa [hold i hi, hnew] at heq⟩ hs
    · rcases Nat.lt_succ_iff_lt_or_eq.mp hj with hj | rfl
      · exact absurd ⟨j, hj, by rw [hold j hj, hnew] at heq; exact heq.symm⟩ hs
      · rfl
  · rintro ⟨i, hi, rfl⟩
    have hi : i < m.freeTop + 1 := hi
    rcases Nat.lt_succ_iff_lt_or_eq.mp hi with hi | rfl
    · exact .inl ⟨i, hi, (hold i hi).symm⟩
    · exact .inr hnew
  · rintro (⟨i, hi, rfl⟩ | rfl)
    · exact ⟨i, Nat.lt_succ_of_lt hi, hold i hi⟩
    · exact ⟨m.freeTop, Nat.lt_succ_self _, hnew⟩

end MemoryPool

end NanoVault.Book
