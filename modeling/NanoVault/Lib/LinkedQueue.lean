/-
Doubly linked queues given by two link functions.

The nodes are names; `prev i` and `next i` are what node `i` stores. `Linked prev next p q n`
says that the nodes of `q`, in this order, are linked both ways, the first one back to `p`
and the last one on to `n`. The two operations of an intrusive queue are covered by one
rule each: `Linked.append` for a node put behind the last one, `Linked.remove` for a node
taken out at any position. Both ask only for what the links are afterwards.
-/
import Mathlib.Data.List.Basic
import Mathlib.Data.List.Induction
import Mathlib.Data.List.Nodup

namespace Lib

variable {ι : Type*}

/-- The first node of a queue, or `n` when there is none. -/
def headOr (q : List ι) (n : ι) : ι := q.head?.getD n

/-- The last node of a queue, or `p` when there is none. -/
def lastOr (q : List ι) (p : ι) : ι := q.getLast?.getD p

@[simp] theorem headOr_nil (n : ι) : headOr [] n = n := rfl
@[simp] theorem headOr_cons (i : ι) (q : List ι) (n : ι) : headOr (i :: q) n = i := rfl
@[simp] theorem lastOr_nil (p : ι) : lastOr [] p = p := rfl

@[simp] theorem lastOr_append_singleton (i : ι) (q : List ι) (p : ι) :
    lastOr (q ++ [i]) p = i := by
  rw [lastOr, List.getLast?_append]
  rfl

theorem headOr_append (q q' : List ι) (n : ι) : headOr (q ++ q') n = headOr q (headOr q' n) := by
  cases q <;> rfl

theorem lastOr_cons (i : ι) (q : List ι) (p : ι) : lastOr (i :: q) p = lastOr q i := by
  cases q with
  | nil => rfl
  | cons j q => rw [lastOr, List.getLast?_cons_cons, lastOr, List.getLast?_cons]; rfl

theorem lastOr_append (q q' : List ι) (p : ι) : lastOr (q ++ q') p = lastOr q' (lastOr q p) := by
  induction q generalizing p with
  | nil => rfl
  | cons i q ih => rw [List.cons_append, lastOr_cons, lastOr_cons, ih]

theorem headOr_mem {q : List ι} (hq : q ≠ []) (n : ι) : headOr q n ∈ q := by
  cases q with
  | nil => exact absurd rfl hq
  | cons i q => exact List.mem_cons_self

theorem lastOr_mem {q : List ι} (hq : q ≠ []) (p : ι) : lastOr q p ∈ q := by
  rw [lastOr, List.getLast?_eq_some_getLast hq]
  exact List.getLast_mem hq

/-- The queue `q` is linked both ways between `p` and `n`. -/
def Linked (prev next : ι → ι) : ι → List ι → ι → Prop
  | _, [], _ => True
  | p, i :: q, n => prev i = p ∧ next i = headOr q n ∧ Linked prev next i q n

namespace Linked

variable {prev next prev' next' : ι → ι} {p n x : ι} {q q₁ q₂ : List ι}

theorem append_iff :
    Linked prev next p (q₁ ++ q₂) n ↔
      Linked prev next p q₁ (headOr q₂ n) ∧ Linked prev next (lastOr q₁ p) q₂ n := by
  induction q₁ generalizing p with
  | nil => simp [Linked]
  | cons i q₁ ih => simp only [List.cons_append, Linked, ih, headOr_append, lastOr_cons, and_assoc]

/-- Links outside the queue do not matter. -/
theorem congr (h : Linked prev next p q n) (hprev : ∀ i ∈ q, prev' i = prev i)
    (hnext : ∀ i ∈ q, next' i = next i) : Linked prev' next' p q n := by
  induction q generalizing p with
  | nil => trivial
  | cons i q ih =>
      obtain ⟨hp, hn, htail⟩ := h
      exact ⟨(hprev i List.mem_cons_self).trans hp, (hnext i List.mem_cons_self).trans hn,
        ih htail (fun j hj => hprev j (List.mem_cons_of_mem _ hj))
          (fun j hj => hnext j (List.mem_cons_of_mem _ hj))⟩

/-- The last node of a queue is given another successor. -/
theorem setNext {n' : ι} (h : Linked prev next p q n) (hnodup : q.Nodup)
    (hprev : ∀ i ∈ q, prev' i = prev i) (hlast : q ≠ [] → next' (lastOr q p) = n')
    (hnext : ∀ i ∈ q, i ≠ lastOr q p → next' i = next i) : Linked prev' next' p q n' := by
  induction q using List.reverseRecOn with
  | nil => trivial
  | append_singleton q i _ =>
      obtain ⟨hinit, hi, hn, -⟩ := append_iff.mp h
      obtain ⟨-, -, hdisjoint⟩ := List.nodup_append.mp hnodup
      simp only [lastOr_append_singleton] at hlast hnext
      refine append_iff.mpr ⟨hinit.congr ?_ ?_, ?_, ?_, trivial⟩
      · exact fun j hj => hprev j (List.mem_append_left _ hj)
      · exact fun j hj => hnext j (List.mem_append_left _ hj) (hdisjoint j hj i (by simp))
      · exact (hprev i (by simp)).trans hi
      · exact hlast (by simp)

/-- The first node of a queue is given another predecessor. -/
theorem setPrev {p' : ι} (h : Linked prev next p q n) (hnodup : q.Nodup)
    (hnext : ∀ i ∈ q, next' i = next i) (hfirst : q ≠ [] → prev' (headOr q n) = p')
    (hprev : ∀ i ∈ q, i ≠ headOr q n → prev' i = prev i) : Linked prev' next' p' q n := by
  cases q with
  | nil => trivial
  | cons i q =>
      obtain ⟨-, hn, htail⟩ := h
      have hi := (List.nodup_cons.mp hnodup).1
      refine ⟨hfirst (List.cons_ne_nil _ _), (hnext i List.mem_cons_self).trans hn,
        htail.congr ?_ ?_⟩
      · exact fun j hj => hprev j (List.mem_cons_of_mem _ hj) fun heq => hi (by rwa [heq] at hj)
      · exact fun j hj => hnext j (List.mem_cons_of_mem _ hj)

/-- A node is put behind the last one. -/
theorem append {n' : ι} (h : Linked prev next p q n) (hnodup : q.Nodup)
    (hprev : ∀ i ∈ q, prev' i = prev i) (hlast : q ≠ [] → next' (lastOr q p) = x)
    (hnext : ∀ i ∈ q, i ≠ lastOr q p → next' i = next i) (hx : prev' x = lastOr q p)
    (hx' : next' x = n') : Linked prev' next' p (q ++ [x]) n' :=
  append_iff.mpr ⟨h.setNext hnodup hprev hlast hnext, hx, hx', trivial⟩

/-- The links a node stores are its neighbours. -/
theorem links (h : Linked prev next p (q₁ ++ x :: q₂) n) :
    prev x = lastOr q₁ p ∧ next x = headOr q₂ n := by
  obtain ⟨-, hp, hn, -⟩ := append_iff.mp h
  exact ⟨hp, hn⟩

/-- A node is taken out: its neighbours are linked to each other. -/
theorem remove (h : Linked prev next p (q₁ ++ x :: q₂) n) (hnodup : (q₁ ++ q₂).Nodup)
    (hlast : q₁ ≠ [] → next' (lastOr q₁ p) = headOr q₂ n)
    (hnext : ∀ i ∈ q₁ ++ q₂, (q₁ ≠ [] → i ≠ lastOr q₁ p) → next' i = next i)
    (hfirst : q₂ ≠ [] → prev' (headOr q₂ n) = lastOr q₁ p)
    (hprev : ∀ i ∈ q₁ ++ q₂, (q₂ ≠ [] → i ≠ headOr q₂ n) → prev' i = prev i) :
    Linked prev' next' p (q₁ ++ q₂) n := by
  obtain ⟨h₁, -, -, h₂⟩ := append_iff.mp h
  obtain ⟨hn₁, hn₂, hdisjoint⟩ := List.nodup_append.mp hnodup
  refine append_iff.mpr ⟨h₁.setNext hn₁ ?_ hlast ?_, h₂.setPrev hn₂ ?_ hfirst ?_⟩
  · exact fun i hi => hprev i (List.mem_append_left _ hi) fun hq₂ =>
      hdisjoint i hi _ (headOr_mem hq₂ n)
  · exact fun i hi hne => hnext i (List.mem_append_left _ hi) fun _ => hne
  · exact fun i hi => hnext i (List.mem_append_right _ hi) fun hq₁ =>
      (hdisjoint _ (lastOr_mem hq₁ p) i hi).symm
  · exact fun i hi hne => hprev i (List.mem_append_right _ hi) fun _ => hne

end Linked

end Lib
