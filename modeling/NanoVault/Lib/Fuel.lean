/-
Loops with fuel.

A loop that may not end is a function of the fuel it may use, answering `none` when the
fuel runs out. It `Returns` a value when some amount of fuel yields it, and it is
`FuelMono` when more fuel never changes an answer; then the value is unique.
-/
import Mathlib.Data.Option.Basic

namespace Lib

variable {α β : Type*} {f g : Nat → Option α}

def Returns (f : Nat → Option α) (a : α) : Prop := ∃ n, f n = some a

def FuelMono (f : Nat → Option α) : Prop := ∀ n m a, n ≤ m → f n = some a → f m = some a

theorem FuelMono.of_succ (h : ∀ n a, f n = some a → f (n + 1) = some a) : FuelMono f := by
  intro n m a hnm hn
  induction hnm with
  | refl => exact hn
  | step _ ih => exact h _ _ ih

theorem FuelMono.const (o : Option α) : FuelMono fun _ => o := fun _ _ _ _ h => h

theorem FuelMono.map (hf : FuelMono f) (k : α → β) : FuelMono fun n => (f n).map k := by
  intro n m b hnm hn
  obtain ⟨a, ha, rfl⟩ := Option.map_eq_some_iff.mp hn
  exact Option.map_eq_some_iff.mpr ⟨a, hf n m a hnm ha, rfl⟩

theorem FuelMono.bind (hf : FuelMono f) {k : α → Nat → Option β} (hk : ∀ a, FuelMono (k a)) :
    FuelMono fun n => (f n).bind fun a => k a n := by
  intro n m b hnm hn
  obtain ⟨a, ha, hb⟩ := Option.bind_eq_some_iff.mp hn
  exact Option.bind_eq_some_iff.mpr ⟨a, hf n m a hnm ha, hk a n m b hnm hb⟩

/-- Two loops after each other return when both do. -/
theorem Returns.bind (hf : FuelMono f) {k : α → Nat → Option β} (hk : ∀ a, FuelMono (k a))
    {a : α} {b : β} (ha : Returns f a) (hb : Returns (k a) b) :
    Returns (fun n => (f n).bind fun a => k a n) b := by
  obtain ⟨n, hn⟩ := ha
  obtain ⟨m, hm⟩ := hb
  exact ⟨max n m, Option.bind_eq_some_iff.mpr ⟨a, hf n _ a (Nat.le_max_left n m) hn,
    hk a m _ b (Nat.le_max_right n m) hm⟩⟩

/-- A loop returns at most one value. -/
theorem Returns.unique (hf : FuelMono f) {a b : α} (ha : Returns f a) (hb : Returns f b) :
    a = b := by
  obtain ⟨n, hn⟩ := ha
  obtain ⟨m, hm⟩ := hb
  have h := hf n (max n m) a (Nat.le_max_left n m) hn
  rw [hf m (max n m) b (Nat.le_max_right n m) hm] at h
  exact (Option.some.inj h).symm

end Lib
