/-
Windows of a ring of slots.

`window slot size t n` are the `n` elements from position `t` on, position `i` being kept in
slot `i % size`. Writing behind a window appends to it (`window_succ_last`), reading at its front
takes its first element (`window_succ`), and a write at a position within one lap behind the
front leaves the window as it is (`window_update`). A ring that is written in order keeps the
latest elements, as many as it has slots (`Latest.concat`).
-/
import Mathlib

namespace Lib.Ring

variable {α : Type*}

/-- The elements at the positions `t`, …, `t + n - 1`. -/
def window (slot : Nat → α) (size t n : Nat) : List α :=
  (List.range' t n).map fun i => slot (i % size)

variable (slot : Nat → α) (size t n : Nat)

@[simp] theorem window_zero : window slot size t 0 = [] := rfl

@[simp] theorem length_window : (window slot size t n).length = n := by
  rw [window, List.length_map, List.length_range']

theorem window_succ : window slot size t (n + 1) =
    slot (t % size) :: window slot size (t + 1) n := by
  rw [window, List.range'_succ, List.map_cons]
  rfl

theorem window_succ_last : window slot size t (n + 1) =
    window slot size t n ++ [slot ((t + n) % size)] := by
  rw [window, List.range'_concat, List.map_append, Nat.one_mul]
  rfl

/-- Positions less than a lap apart have different slots. -/
theorem mod_ne {size i j : Nat} (hij : i < j) (hlap : j < i + size) : i % size ≠ j % size := by
  intro heq
  have hdvd : size ∣ j - i := (Nat.modEq_iff_dvd' hij.le).mp heq
  exact absurd (Nat.le_of_dvd (by omega) hdvd) (by omega)

variable {slot size t n}

theorem window_update {j : Nat} {x : α} (hbehind : t + n ≤ j) (hlap : j < t + size) :
    window (Function.update slot (j % size) x) size t n = window slot size t n := by
  apply List.map_congr_left
  intro i hi
  obtain ⟨hfrom, hto⟩ := List.mem_range'_1.mp hi
  exact Function.update_of_ne (mod_ne (by omega) (by omega)) ..

/-! ### The latest elements -/

/-- Each of the last `size` elements of a list is kept in the slot of its position. -/
def Latest (slot : Nat → α) (size : Nat) (l : List α) : Prop :=
  ∀ i v, l[i]? = some v → l.length ≤ i + size → slot (i % size) = v

theorem Latest.nil (slot : Nat → α) (size : Nat) : Latest slot size [] := by
  intro i v hv
  cases hv

theorem Latest.concat {l : List α} (h : Latest slot size l) (x : α) :
    Latest (Function.update slot (l.length % size) x) size (l ++ [x]) := by
  intro i v hv hlate
  rw [List.length_append, List.length_singleton] at hlate
  obtain ⟨hi, -⟩ := List.getElem?_eq_some_iff.mp hv
  rw [List.length_append, List.length_singleton] at hi
  rcases Nat.lt_or_ge i l.length with hold | hnew
  · rw [List.getElem?_append_left hold] at hv
    rw [Function.update_of_ne (mod_ne hold (by omega))]
    exact h i v hv (by omega)
  · obtain rfl : i = l.length := by omega
    rw [Function.update_self]
    simpa using hv

/-! ### Counters that go round -/

/-- A counter reaches its limit when the number of steps is a multiple of it. -/
theorem reaches_iff (hsize : 0 < size) : n % size + 1 = size ↔ size ∣ n + 1 := by
  have hlt := Nat.mod_lt n hsize
  have hsplit : n + 1 = size * (n / size) + (n % size + 1) := by
    rw [← Nat.add_assoc, Nat.div_add_mod]
  rw [hsplit, Nat.dvd_add_right (Nat.dvd_mul_right ..)]
  constructor
  · intro h
    rw [h]
  · intro h
    exact Nat.le_antisymm hlt (Nat.le_of_dvd (Nat.succ_pos _) h)

theorem succ_mod_of_lt (hbelow : n % size + 1 < size) : (n + 1) % size = n % size + 1 := by
  rw [← Nat.mod_add_mod, Nat.mod_eq_of_lt hbelow]

end Lib.Ring
