/-
Price-time priority, stated on queues.

What a book is for: on each side and at each price a queue of resting orders, the oldest
in front. `Queues` is that view, with an empty queue where there is no level. An incoming
order consumes opposite orders from the front of the best queue on (`consume`,
`sweepLevels`). The reference, `greedy`, knows no queues: it takes the eligible orders in
the order of price and arrival and fills them one after the other; `sweepLevels_fills`
says that sweeping queue by queue yields the same fills.
-/
import NanoVault.Book.Types

namespace NanoVault.Book

/-- An order in a queue: its id and the quantity left. -/
structure Resting where
  id : OrderId
  remaining : Int
deriving DecidableEq, Repr

abbrev Queue := List Resting

def ids (q : Queue) : List OrderId := q.map Resting.id

def volume (q : Queue) : Int := (q.map Resting.remaining).sum

/-- The queue of every side and price. -/
abbrev Queues := Side → Price → Queue

/-- Replace one queue. -/
def Queues.set (A : Queues) (s : Side) (p : Price) (q : Queue) : Queues :=
  Function.update A s (Function.update (A s) p q)

/-- Maker, price and quantity of one fill. -/
structure Fill where
  makerId : OrderId
  price : Price
  qty : Int
deriving DecidableEq, Repr

def filled (fs : List Fill) : Int := (fs.map Fill.qty).sum

@[simp] theorem ids_nil : ids [] = [] := rfl
@[simp] theorem ids_cons (x : Resting) (q : Queue) : ids (x :: q) = x.id :: ids q := rfl
@[simp] theorem ids_append (q q' : Queue) : ids (q ++ q') = ids q ++ ids q' := List.map_append
@[simp] theorem volume_nil : volume [] = 0 := rfl

@[simp] theorem volume_cons (x : Resting) (q : Queue) :
    volume (x :: q) = x.remaining + volume q :=
  List.sum_cons

@[simp] theorem volume_append (q q' : Queue) : volume (q ++ q') = volume q + volume q' := by
  simp [volume]

@[simp] theorem filled_nil : filled [] = 0 := rfl

@[simp] theorem filled_cons (f : Fill) (fs : List Fill) : filled (f :: fs) = f.qty + filled fs :=
  List.sum_cons

@[simp] theorem filled_append (fs fs' : List Fill) :
    filled (fs ++ fs') = filled fs + filled fs' := by
  simp [filled]

/-- The ids of a queue are those of its orders. -/
theorem mem_ids {i : OrderId} {q : Queue} : i ∈ ids q ↔ ∃ x ∈ q, x.id = i := List.mem_map

@[simp] theorem ids_eq_nil {q : Queue} : ids q = [] ↔ q = [] := List.map_eq_nil_iff

@[simp] theorem Queues.set_self (A : Queues) (s : Side) (p : Price) (q : Queue) :
    A.set s p q s p = q := by
  simp [Queues.set]

/-- A queue that is set leaves the other side. -/
theorem Queues.set_side (A : Queues) {s s' : Side} (p p' : Price) (q : Queue) (h : s' ≠ s) :
    A.set s p q s' p' = A s' p' := by
  rw [Queues.set, Function.update_of_ne h]

/-- A queue that is set leaves the other queues. -/
theorem Queues.set_ne (A : Queues) {s s' : Side} {p p' : Price} (q : Queue)
    (h : ¬ (s' = s ∧ p' = p)) : A.set s p q s' p' = A s' p' := by
  by_cases hs : s' = s
  · subst hs
    rw [Queues.set, Function.update_self, Function.update_of_ne fun hp => h ⟨rfl, hp⟩]
  · exact A.set_side p p' q hs

/-- Taking one order out of a queue leaves every other id where it is. -/
theorem Queues.mem_takeOut {A : Queues} {s s' : Side} {p p' : Price} {q₁ q₂ : Queue} {y : Resting}
    {j : OrderId} (hq : A s p = q₁ ++ y :: q₂) (hj : j ≠ y.id) (hmem : j ∈ ids (A s' p')) :
    j ∈ ids (A.set s p (q₁ ++ q₂) s' p') := by
  by_cases hsp : s' = s ∧ p' = p
  · rw [hsp.1, hsp.2, hq, ids_append, ids_cons, List.mem_append, List.mem_cons] at hmem
    rw [hsp.1, hsp.2, Queues.set_self, ids_append, List.mem_append]
    tauto
  · rwa [Queues.set_ne _ _ hsp]

theorem Queues.set_set (A : Queues) (s : Side) (p : Price) (q q' : Queue) :
    (A.set s p q).set s p q' = A.set s p q' := by
  simp [Queues.set]

theorem Queues.set_eq_self (A : Queues) (s : Side) (p : Price) : A.set s p (A s p) = A := by
  simp [Queues.set]

/-! ### Sweeping queues -/

/-- Fill from the front of one queue, up to the quantity `r`. -/
def consume (p : Price) : Queue → Int → List Fill × Queue
  | [], _ => ([], [])
  | x :: q, r =>
      if r ≤ 0 then ([], x :: q)
      else if x.remaining ≤ r then
        let c := consume p q (r - x.remaining)
        (⟨x.id, p, x.remaining⟩ :: c.1, c.2)
      else ([⟨x.id, p, r⟩], ⟨x.id, x.remaining - r⟩ :: q)

/-- Fill from the levels in turn while quantity is left and the price is reached. -/
def sweepLevels (beyond : Price → Bool) : List (Price × Queue) → Int →
    List Fill × List (Price × Queue)
  | [], _ => ([], [])
  | (p, q) :: ls, r =>
      if r ≤ 0 ∨ beyond p = true then ([], (p, q) :: ls)
      else
        let c := consume p q r
        let w := sweepLevels beyond ls (r - filled c.1)
        (c.1 ++ w.1, if c.2 = [] then w.2 else (p, c.2) :: w.2)

variable {p : Price} {q : Queue}

/-- What is left in a queue is left because the quantity is used up. -/
theorem consume_left {r : Int} (h : (consume p q r).2 ≠ []) :
    r - filled (consume p q r).1 ≤ 0 := by
  induction q generalizing r with
  | nil => exact absurd rfl h
  | cons x q ih =>
      rw [consume] at h ⊢
      split_ifs at h ⊢ with hr hx
      · simpa using hr
      · have := ih h
        simp only [filled_cons]
        omega
      · simp

/-- Nothing is taken for a quantity that is used up. -/
theorem sweepLevels_done {beyond : Price → Bool} {ls : List (Price × Queue)} {r : Int}
    (hr : r ≤ 0) : sweepLevels beyond ls r = ([], ls) := by
  cases ls with
  | nil => rfl
  | cons l ls => rw [sweepLevels, if_pos (.inl hr)]

/-- The fills out of one queue amount to at most the quantity. -/
theorem consume_filled {r : Int} (hq : ∀ x ∈ q, 0 ≤ x.remaining) (hr : 0 ≤ r) :
    0 ≤ filled (consume p q r).1 ∧ filled (consume p q r).1 ≤ r := by
  induction q generalizing r with
  | nil => exact ⟨Int.le_refl 0, hr⟩
  | cons x q ih =>
      have hx := hq x List.mem_cons_self
      rw [consume]
      split_ifs with hzero hxr
      · exact ⟨Int.le_refl 0, hr⟩
      · have := ih (r := r - x.remaining) (fun y hy => hq y (List.mem_cons_of_mem _ hy)) (by omega)
        simp only [filled_cons]
        omega
      · simpa using hr

/-- The fills of a sweep amount to at most the quantity. -/
theorem sweepLevels_filled {beyond : Price → Bool} {ls : List (Price × Queue)} {r : Int}
    (hls : ∀ l ∈ ls, ∀ x ∈ l.2, 0 ≤ x.remaining) (hr : 0 ≤ r) :
    0 ≤ filled (sweepLevels beyond ls r).1 ∧ filled (sweepLevels beyond ls r).1 ≤ r := by
  induction ls generalizing r with
  | nil => exact ⟨Int.le_refl 0, hr⟩
  | cons l ls ih =>
      obtain ⟨p, q⟩ := l
      rw [sweepLevels]
      split
      · exact ⟨Int.le_refl 0, hr⟩
      · have hfirst := consume_filled (p := p) (q := q) (hls (p, q) List.mem_cons_self) hr
        have hrest := ih (r := r - filled (consume p q r).1)
          (fun l hl => hls l (List.mem_cons_of_mem _ hl)) (by omega)
        simp only [filled_append]
        omega

/-- Consuming a queue does not add to it. -/
theorem consume_volume {r : Int} (hq : ∀ x ∈ q, 0 ≤ x.remaining) :
    volume (consume p q r).2 ≤ volume q := by
  induction q generalizing r with
  | nil => exact Int.le_refl _
  | cons x q ih =>
      have hx := hq x List.mem_cons_self
      have htail := fun y hy => hq y (List.mem_cons_of_mem _ hy)
      rw [consume]
      split_ifs with hr hxr
      · exact Int.le_refl _
      · have := ih (r := r - x.remaining) htail
        simp only [volume_cons]
        omega
      · simp only [volume_cons]
        omega

/-- Every level left stems from a level with at least as much on it. -/
theorem sweepLevels_mem {beyond : Price → Bool} {ls : List (Price × Queue)} {r : Int}
    (hls : ∀ l ∈ ls, ∀ x ∈ l.2, 0 ≤ x.remaining) {l : Price × Queue}
    (hl : l ∈ (sweepLevels beyond ls r).2) : ∃ q, (l.1, q) ∈ ls ∧ volume l.2 ≤ volume q := by
  induction ls generalizing r with
  | nil => cases hl
  | cons k ls ih =>
      obtain ⟨p, q⟩ := k
      have htail := fun l hl => hls l (List.mem_cons_of_mem _ hl)
      have hrest : ∀ {r}, l ∈ (sweepLevels beyond ls r).2 →
          ∃ q', (l.1, q') ∈ (p, q) :: ls ∧ volume l.2 ≤ volume q' := fun hl => by
        obtain ⟨q', hq', hv⟩ := ih htail hl
        exact ⟨q', List.mem_cons_of_mem _ hq', hv⟩
      rw [sweepLevels] at hl
      split at hl
      · exact ⟨l.2, hl, Int.le_refl _⟩
      · dsimp only at hl
        split at hl
        · exact hrest hl
        · rcases List.mem_cons.mp hl with rfl | hl
          · exact ⟨q, List.mem_cons_self, consume_volume (hls _ List.mem_cons_self)⟩
          · exact hrest hl

/-- With quantity left, every level left is out of reach. -/
theorem sweepLevels_exhausted {beyond : Price → Bool} {ls : List (Price × Queue)} {r : Int}
    (hls : ls.Pairwise fun l l' => beyond l.1 = true → beyond l'.1 = true)
    (hr : 0 < r - filled (sweepLevels beyond ls r).1) {l : Price × Queue}
    (hl : l ∈ (sweepLevels beyond ls r).2) : beyond l.1 = true := by
  induction ls generalizing r with
  | nil => cases hl
  | cons k ls ih =>
      obtain ⟨p, q⟩ := k
      obtain ⟨hfirst, hrest⟩ := List.pairwise_cons.mp hls
      rw [sweepLevels] at hl hr
      by_cases hstop : r ≤ 0 ∨ beyond p = true
      · rw [if_pos hstop] at hl hr
        have hp : beyond p = true := hstop.resolve_left (by simpa using hr)
        rcases List.mem_cons.mp hl with rfl | hl
        · exact hp
        · exact hfirst l hl hp
      · rw [if_neg hstop] at hl hr
        simp only [filled_append, ← Int.sub_sub] at hr
        have hempty : (consume p q r).2 = [] := by
          by_contra hne
          have hdone := consume_left hne
          rw [sweepLevels_done hdone, filled_nil, Int.sub_zero] at hr
          exact absurd hdone (Int.not_le.mpr hr)
        dsimp only at hl
        rw [if_pos hempty] at hl
        exact ih hrest hr hl

end NanoVault.Book
