/-
The resting orders, read off a book.

`queue` walks a level from its head the way `match_order` does, and `resting` collects the
queues of both ladders. A book that represents queues represents these
(`Represents.queue_eq`), so that what is said of resting orders is said of the ladders the
source keeps.
-/
import NanoVault.Book.Calls

namespace NanoVault.Book

open Lib

namespace OrderBook

/-- The ids of a queue from `i` on, up to one that no order is registered under. -/
def walk (b : OrderBook) : Nat → OrderId → List OrderId
  | 0, _ => []
  | fuel + 1, i =>
      match b.lookup i with
      | none => []
      | some o => i :: b.walk fuel o.next

/-- What an id in a queue stands for. -/
def restingAt (b : OrderBook) (i : OrderId) : Resting := ⟨i, b.remainingOf i⟩

/-- The orders found at a price, from the head of its level on. A queue holds an id once,
so that there are at most `orderIdSeq` of them. -/
def queue (b : OrderBook) (s : Side) (p : Price) : Queue :=
  match (b.ladder s).find? p with
  | none => []
  | some lvl => (b.walk b.orderIdSeq lvl.head).map b.restingAt

/-- The orders resting on one side, best price first. -/
def restingOn (b : OrderBook) (s : Side) : List Resting := (b.ladder s).keys.flatMap (b.queue s)

/-- The orders resting in the two ladders. -/
def resting (b : OrderBook) : List Resting := b.restingOn .buy ++ b.restingOn .sell

theorem walk_none {b : OrderBook} {i : OrderId} (h : b.lookup i = none) (fuel : Nat) :
    b.walk fuel i = [] := by
  cases fuel with
  | zero => rfl
  | succ fuel => rw [walk, h]

theorem walk_some {b : OrderBook} {i : OrderId} {o : Order} (h : b.lookup i = some o)
    (fuel : Nat) : b.walk (fuel + 1) i = i :: b.walk fuel o.next := by
  simp only [walk, h]

theorem queue_none {b : OrderBook} {s : Side} {p : Price} (h : (b.ladder s).find? p = none) :
    b.queue s p = [] := by
  simp only [queue, h]

theorem queue_some {b : OrderBook} {s : Side} {p : Price} {lvl : PriceLevel}
    (h : (b.ladder s).find? p = some lvl) :
    b.queue s p = (b.walk b.orderIdSeq lvl.head).map b.restingAt := by
  simp only [queue, h]

theorem mem_restingOn {b : OrderBook} {s : Side} {x : Resting} :
    x ∈ b.restingOn s ↔ ∃ p, x ∈ b.queue s p := by
  rw [restingOn, List.mem_flatMap]
  constructor
  · rintro ⟨p, -, hx⟩
    exact ⟨p, hx⟩
  · rintro ⟨p, hx⟩
    refine ⟨p, SortedMap.mem_keys.mpr fun hnone => ?_, hx⟩
    rw [queue_none hnone] at hx
    exact List.not_mem_nil hx

theorem mem_resting {b : OrderBook} {x : Resting} : x ∈ b.resting ↔ ∃ s p, x ∈ b.queue s p := by
  rw [resting, List.mem_append, mem_restingOn, mem_restingOn]
  constructor
  · rintro (⟨p, hx⟩ | ⟨p, hx⟩)
    · exact ⟨.buy, p, hx⟩
    · exact ⟨.sell, p, hx⟩
  · rintro ⟨s, p, hx⟩
    cases s
    · exact .inl ⟨p, hx⟩
    · exact .inr ⟨p, hx⟩

theorem lookup_of_mem_walk {b : OrderBook} {fuel : Nat} {i j : OrderId} (hj : j ∈ b.walk fuel i) :
    ∃ x, b.lookup j = some x := by
  induction fuel generalizing i with
  | zero => cases hj
  | succ fuel ih =>
      cases hx : b.lookup i with
      | none =>
          rw [walk_none hx] at hj
          cases hj
      | some x =>
          rw [walk_some hx] at hj
          rcases List.mem_cons.mp hj with rfl | hj
          · exact ⟨x, hx⟩
          · exact ih hj

/-- What rests is registered. -/
theorem lookup_of_mem_resting {b : OrderBook} {i : OrderId} (hi : i ∈ ids b.resting) :
    ∃ x, b.lookup i = some x := by
  obtain ⟨y, hy, rfl⟩ := mem_ids.mp hi
  obtain ⟨s, p, hy⟩ := mem_resting.mp hy
  cases hfind : (b.ladder s).find? p with
  | none =>
      rw [queue_none hfind] at hy
      cases hy
  | some lvl =>
      rw [queue_some hfind] at hy
      obtain ⟨j, hj, rfl⟩ := List.mem_map.mp hy
      exact lookup_of_mem_walk hj

/-- A linked queue of registered orders is what the walk from its first order finds. -/
theorem walk_linked {b : OrderBook} (hb : Registry b) {is : List OrderId} {prev : OrderId}
    (hlinked : Linked b.prevOf b.nextOf prev is 0) (hreg : ∀ i ∈ is, (b.lookup i).isSome)
    {fuel : Nat} (hfuel : is.length ≤ fuel) : b.walk fuel (headOr is 0) = is := by
  have hzero : b.lookup 0 = none := by
    rw [lookup, hb.orderMap_zero]
    rfl
  induction is generalizing prev fuel with
  | nil => exact walk_none hzero fuel
  | cons i is ih =>
      obtain ⟨fuel, rfl⟩ := Nat.exists_eq_succ_of_ne_zero (Nat.ne_of_gt (Nat.zero_lt_of_lt hfuel))
      obtain ⟨o, ho⟩ := Option.isSome_iff_exists.mp (hreg i List.mem_cons_self)
      obtain ⟨-, hnext, htail⟩ := hlinked
      rw [nextOf_eq ho] at hnext
      rw [headOr_cons, walk_some ho, hnext]
      exact congrArg (i :: ·) (ih htail (fun j hj => hreg j (List.mem_cons_of_mem _ hj))
        (Nat.le_of_succ_le_succ hfuel))

end OrderBook

open OrderBook

variable {b : OrderBook} {A : Queues} {s : Side} {p : Price} {i : OrderId} {x : Resting}

/-- A queue of registered orders holds at most as many as there are ids. -/
theorem LevelOk.length_le {lvl : PriceLevel} {q : Queue} (h : LevelOk b s p lvl q)
    (hb : Registry b) : (ids q).length ≤ b.orderIdSeq := by
  have hnodup : (ids q).Nodup := h.ascending.imp Nat.ne_of_lt
  have hsub : ids q ⊆ List.range' 1 b.orderIdSeq := fun i hi => by
    obtain ⟨o, ho⟩ := Option.isSome_iff_exists.mp (h.resting.isSome hi)
    obtain ⟨-, hpos, hle⟩ := hb.named ho
    have hle : i ≤ b.orderIdSeq := hle
    exact List.mem_range'_1.mpr ⟨hpos, Nat.add_comm 1 _ ▸ Nat.lt_succ_of_le hle⟩
  have hlen := (hnodup.subperm hsub).length_le
  rwa [List.length_range'] at hlen

namespace Represents

/-- The queues a book represents are those read off its ladders. -/
theorem queue_eq (h : Represents b A) (s : Side) (p : Price) : b.queue s p = A s p := by
  have hlevel := h.level s p
  unfold LevelRep at hlevel
  split at hlevel
  · next hfind => rw [hlevel, queue_none hfind]
  · next lvl hfind =>
      have hreg : ∀ i ∈ ids (A s p), (b.lookup i).isSome := fun i hi => hlevel.resting.isSome hi
      rw [queue_some hfind, hlevel.head, walk_linked h.registry hlevel.linked hreg
        (hlevel.length_le h.registry),
        ids, List.map_map]
      refine (List.map_congr_left fun x hx => ?_).trans (List.map_id _)
      obtain ⟨o, ho, hrests⟩ := hlevel.resting x hx
      rw [Function.comp_apply, restingAt, remainingOf, ho, Option.map_some, Option.getD_some,
        hrests.remaining]
      rfl

theorem mem_resting (h : Represents b A) : x ∈ b.resting ↔ ∃ s p, x ∈ A s p := by
  simp only [OrderBook.mem_resting, h.queue_eq]

theorem mem_restingIds (h : Represents b A) : i ∈ ids b.resting ↔ ∃ s p, i ∈ ids (A s p) := by
  simp only [mem_ids, h.mem_resting]
  constructor
  · rintro ⟨x, ⟨s, p, hx⟩, rfl⟩
    exact ⟨s, p, x, hx, rfl⟩
  · rintro ⟨s, p, x, hx, rfl⟩
    exact ⟨x, ⟨s, p, hx⟩, rfl⟩

theorem nodup_queue (h : Represents b A) (s : Side) (p : Price) : (ids (A s p)).Nodup := by
  by_cases hq : A s p = []
  · rw [hq]
    exact List.nodup_nil
  · obtain ⟨lvl, -, hok⟩ := h.levelOk hq
    exact hok.ascending.imp Nat.ne_of_lt

theorem nodup_restingOn (h : Represents b A) (s : Side) : (ids (b.restingOn s)).Nodup := by
  rw [ids, restingOn, List.map_flatMap, List.nodup_flatMap]
  refine ⟨fun p _ => ?_, ?_⟩
  · rw [h.queue_eq]
    exact h.nodup_queue s p
  · refine (b.ladder s).keys_sorted.imp fun {p p'} hbefore => List.disjoint_left.mpr ?_
    intro i hi hi'
    have hi : i ∈ ids (b.queue s p) := hi
    have hi' : i ∈ ids (b.queue s p') := hi'
    rw [h.queue_eq] at hi hi'
    obtain ⟨-, rfl⟩ := h.unique hi hi'
    exact Std.Irrefl.irrefl _ hbefore

/-- No order rests twice. -/
theorem nodup_resting (h : Represents b A) : (ids b.resting).Nodup := by
  rw [resting, ids_append]
  refine List.nodup_append.mpr ⟨h.nodup_restingOn .buy, h.nodup_restingOn .sell, ?_⟩
  intro i hi j hj heq
  obtain ⟨x, hx, rfl⟩ := mem_ids.mp hi
  obtain ⟨y, hy, rfl⟩ := mem_ids.mp hj
  obtain ⟨p, hp⟩ := mem_restingOn.mp hx
  obtain ⟨p', hp'⟩ := mem_restingOn.mp hy
  rw [h.queue_eq] at hp hp'
  have hsame := h.unique (mem_ids.mpr ⟨x, hp, rfl⟩) (mem_ids.mpr ⟨y, hp', heq.symm⟩)
  exact absurd hsame.1 (by decide)

end Represents

end NanoVault.Book
