/-
When a book represents given queues.

`lookup` reads an order through `orderMap`, the way the source goes from an id to an
order. `Registry` is what makes these reads and writes independent of each other: no two
ids share a slot, and a registered slot is not free. `Represents b A` says that the ladders
of `b` hold exactly the queues of `A`: every level's head, tail, links, count and total
describe its queue, and every order in it is registered, LIMIT and active with the
quantity `A` gives it. The total is the sum of these quantities as an `int64_t` holds it.
-/
import NanoVault.Lib.LinkedQueue
import NanoVault.Book.OrderBook
import NanoVault.Book.Queues

namespace NanoVault.Book

open Lib

namespace OrderBook

def lookup (b : OrderBook) (id : OrderId) : Option Order := (b.orderMap id).map b.order

def prevOf (b : OrderBook) (id : OrderId) : OrderId := ((b.lookup id).map Order.prev).getD 0
def nextOf (b : OrderBook) (id : OrderId) : OrderId := ((b.lookup id).map Order.next).getD 0

end OrderBook

/-- An order without its links. -/
def Order.unlinked (o : Order) : Order := { o with prev := 0, next := 0 }

/-- Distinct ids have distinct slots, none of them free, and each order knows its id. -/
structure Registry (b : OrderBook) : Prop where
  inj : ∀ {i j slot}, b.orderMap i = some slot → b.orderMap j = some slot → i = j
  held : ∀ {i slot}, b.orderMap i = some slot → ¬ b.orderPool.IsFree slot
  distinct : b.orderPool.FreeDistinct
  named : ∀ {i o}, b.lookup i = some o → o.id = i ∧ 0 < i ∧ i ≤ b.orderIdSeq

/-- The order `o` is what queue entry `x` of side `s` and price `p` stands for. -/
structure Rests (o : Order) (s : Side) (p : Price) (x : Resting) : Prop where
  remaining : o.remaining = x.remaining
  positive : 0 < o.remaining
  price : o.price = p
  side : o.side = s
  type : o.type = .limit
  active : o.isActive = true

/-- The level's ends, its count and the orders' links describe the queue of these ids. -/
structure LevelLinks (b : OrderBook) (lvl : PriceLevel) (is : List OrderId) : Prop where
  count : lvl.orderCount = is.length
  head : lvl.head = headOr is 0
  tail : lvl.tail = lastOr is 0
  linked : Linked b.prevOf b.nextOf 0 is 0
  ascending : is.Pairwise (· < ·)

/-- Every entry of the queue stands for a registered order. -/
def AllRest (b : OrderBook) (s : Side) (p : Price) (q : Queue) : Prop :=
  ∀ x ∈ q, ∃ o, b.lookup x.id = some o ∧ Rests o s p x

/-- The level `lvl` under price `p` of side `s` holds the queue `q`. -/
structure LevelOk (b : OrderBook) (s : Side) (p : Price) (lvl : PriceLevel) (q : Queue) : Prop
    extends LevelLinks b lvl (ids q) where
  nonempty : q ≠ []
  price : lvl.price = p
  total : lvl.totalQty = wrap64 (volume q)
  resting : AllRest b s p q

/-- The level found under a price holds the queue; where none is found it is empty. -/
def LevelRep (b : OrderBook) (s : Side) (p : Price) (q : Queue) : Prop :=
  match (b.ladder s).find? p with
  | none => q = []
  | some lvl => LevelOk b s p lvl q

/-- The book `b` holds exactly the queues of `A`. -/
structure Represents (b : OrderBook) (A : Queues) : Prop where
  registry : Registry b
  level : ∀ s p, LevelRep b s p (A s p)

/-! ### Reads after writes -/

namespace OrderBook

variable {b : OrderBook} {i j : OrderId} {slot : Slot} {f : Order → Order} {o : Order}

@[simp] theorem ladder_setLadder_self (b : OrderBook) (s : Side) (l : Ladder s) :
    (b.setLadder s l).ladder s = l := by
  cases s <;> rfl

theorem ladder_setLadder_ne (b : OrderBook) {s s' : Side} (l : Ladder s) (h : s' ≠ s) :
    (b.setLadder s l).ladder s' = b.ladder s' := by
  cases s <;> cases s' <;> first | rfl | exact absurd rfl h

@[simp] theorem orderMap_setLadder (b : OrderBook) (s : Side) (l : Ladder s) :
    (b.setLadder s l).orderMap = b.orderMap := by
  cases s <;> rfl

@[simp] theorem orderPool_setLadder (b : OrderBook) (s : Side) (l : Ladder s) :
    (b.setLadder s l).orderPool = b.orderPool := by
  cases s <;> rfl

@[simp] theorem orderIdSeq_setLadder (b : OrderBook) (s : Side) (l : Ladder s) :
    (b.setLadder s l).orderIdSeq = b.orderIdSeq := by
  cases s <;> rfl

@[simp] theorem lookup_setLadder (b : OrderBook) (s : Side) (l : Ladder s) :
    (b.setLadder s l).lookup = b.lookup := by
  cases s <;> rfl

/-- An id is found if its slot is registered, with the order in that slot. -/
theorem lookup_eq_some : b.lookup i = some o ↔ ∃ slot, b.orderMap i = some slot ∧ b.order slot = o :=
  Option.map_eq_some_iff

theorem lookup_of_orderMap (h : b.orderMap i = some slot) : b.lookup i = some (b.order slot) := by
  rw [lookup, h, Option.map_some]

@[simp] theorem ladder_write (b : OrderBook) (slot : Slot) (f : Order → Order) :
    (b.write slot f).ladder = b.ladder := rfl

@[simp] theorem orderMap_write (b : OrderBook) (slot : Slot) (f : Order → Order) :
    (b.write slot f).orderMap = b.orderMap := rfl

@[simp] theorem order_write_self (b : OrderBook) (slot : Slot) (f : Order → Order) :
    (b.write slot f).order slot = f (b.order slot) :=
  MemoryPool.write_storage_self _ _ _

/-- A write through one slot leaves the others. -/
theorem order_write_ne (b : OrderBook) {slot slot' : Slot} (f : Order → Order) (h : slot' ≠ slot) :
    (b.write slot f).order slot' = b.order slot' :=
  MemoryPool.write_storage_ne _ _ h

/-- A write through the slot of an id changes what is found under that id, and nothing
else. -/
theorem lookup_write (hb : Registry b) (h : b.orderMap i = some slot) (j : OrderId) :
    (b.write slot f).lookup j = if j = i then (b.lookup i).map f else b.lookup j := by
  split
  · next hj =>
      subst hj
      rw [lookup, orderMap_write, h, Option.map_some, order_write_self, lookup_of_orderMap h,
        Option.map_some]
  · next hj =>
      rw [lookup, lookup, orderMap_write]
      cases hm : b.orderMap j with
      | none => rfl
      | some slot' =>
          have hne : slot' ≠ slot := fun heq => hj (hb.inj hm (heq ▸ h))
          rw [Option.map_some, Option.map_some, order_write_ne b f hne]

@[simp] theorem ladder_writeId (b : OrderBook) (i : OrderId) (f : Order → Order) :
    (b.writeId i f).ladder = b.ladder := by
  unfold writeId
  split <;> rfl

@[simp] theorem orderMap_writeId (b : OrderBook) (i : OrderId) (f : Order → Order) :
    (b.writeId i f).orderMap = b.orderMap := by
  unfold writeId
  split <;> rfl

@[simp] theorem orderIdSeq_writeId (b : OrderBook) (i : OrderId) (f : Order → Order) :
    (b.writeId i f).orderIdSeq = b.orderIdSeq := by
  unfold writeId
  split <;> rfl

/-- A write under an id changes the order of that id only. -/
theorem lookup_writeId (hb : Registry b) (j : OrderId) :
    (b.writeId i f).lookup j = if j = i then (b.lookup i).map f else b.lookup j := by
  unfold writeId
  split
  · next hi =>
      split
      · next hj => rw [hj, lookup, hi]; rfl
      · rfl
  · next slot hi => exact lookup_write hb hi j

@[simp] theorem ladder_emit (b : OrderBook) (e : Event) : (b.emit e).ladder = b.ladder := rfl
@[simp] theorem lookup_emit (b : OrderBook) (e : Event) : (b.emit e).lookup = b.lookup := rfl

theorem prevOf_eq (h : b.lookup i = some o) : b.prevOf i = o.prev := by
  rw [prevOf, h]
  rfl

theorem nextOf_eq (h : b.lookup i = some o) : b.nextOf i = o.next := by
  rw [nextOf, h]
  rfl

/-- The backward links after one of them is set. -/
theorem prevOf_writeId (hb : Registry b) (v : OrderId) (h : (b.lookup i).isSome) (j : OrderId) :
    (b.writeId i (Order.setPrev v)).prevOf j = if j = i then v else b.prevOf j := by
  obtain ⟨o, ho⟩ := Option.isSome_iff_exists.mp h
  rw [prevOf, lookup_writeId hb]
  split
  · rw [ho]
    rfl
  · rfl

/-- The forward links after one of them is set. -/
theorem nextOf_writeId (hb : Registry b) (v : OrderId) (h : (b.lookup i).isSome) (j : OrderId) :
    (b.writeId i (Order.setNext v)).nextOf j = if j = i then v else b.nextOf j := by
  obtain ⟨o, ho⟩ := Option.isSome_iff_exists.mp h
  rw [nextOf, lookup_writeId hb]
  split
  · rw [ho]
    rfl
  · rfl

@[simp] theorem prevOf_setNext (hb : Registry b) (v : OrderId) :
    (b.writeId i (Order.setNext v)).prevOf = b.prevOf := by
  funext j
  rw [prevOf, prevOf, lookup_writeId hb]
  split
  · next hj =>
      subst hj
      cases b.lookup j <;> rfl
  · rfl

@[simp] theorem nextOf_setPrev (hb : Registry b) (v : OrderId) :
    (b.writeId i (Order.setPrev v)).nextOf = b.nextOf := by
  funext j
  rw [nextOf, nextOf, lookup_writeId hb]
  split
  · next hj =>
      subst hj
      cases b.lookup j <;> rfl
  · rfl

end OrderBook

open OrderBook

/-! ### Steps that keep the registry -/

/-- `b'` registers the same orders in the same slots as `b`. -/
structure SameRegistry (b b' : OrderBook) : Prop where
  orderMap : b'.orderMap = b.orderMap
  freeList : b'.orderPool.freeList = b.orderPool.freeList
  freeTop : b'.orderPool.freeTop = b.orderPool.freeTop
  orderIdSeq : b'.orderIdSeq = b.orderIdSeq
  named : ∀ slot, (b'.order slot).id = (b.order slot).id

namespace SameRegistry

variable {b b' b'' : OrderBook}

theorem refl (b : OrderBook) : SameRegistry b b := ⟨rfl, rfl, rfl, rfl, fun _ => rfl⟩

theorem trans (h : SameRegistry b b') (h' : SameRegistry b' b'') : SameRegistry b b'' :=
  ⟨h'.orderMap.trans h.orderMap, h'.freeList.trans h.freeList, h'.freeTop.trans h.freeTop,
    h'.orderIdSeq.trans h.orderIdSeq, fun s => (h'.named s).trans (h.named s)⟩

/-- A write through a slot that keeps the id leaves the registry. -/
theorem write (b : OrderBook) (slot : Slot) {f : Order → Order} (hf : ∀ o, (f o).id = o.id) :
    SameRegistry b (b.write slot f) := by
  refine ⟨rfl, rfl, rfl, rfl, fun s => ?_⟩
  by_cases hs : s = slot
  · rw [hs, order_write_self, hf]
  · rw [order_write_ne b f hs]

/-- A write under an id that keeps it leaves the registry. -/
theorem writeId (b : OrderBook) (i : OrderId) {f : Order → Order} (hf : ∀ o, (f o).id = o.id) :
    SameRegistry b (b.writeId i f) := by
  unfold OrderBook.writeId
  split
  · exact refl b
  · exact write b _ hf

/-- The ladders are not part of the registry. -/
theorem setLadder (b : OrderBook) (s : Side) (l : Ladder s) : SameRegistry b (b.setLadder s l) := by
  cases s <;> exact ⟨rfl, rfl, rfl, rfl, fun _ => rfl⟩

/-- The registry is kept where the slots and the ids in them are. -/
theorem registry (h : SameRegistry b b') (hb : Registry b) : Registry b' := by
  have hfree : ∀ s, b'.orderPool.IsFree s ↔ b.orderPool.IsFree s := fun s => by
    rw [MemoryPool.IsFree, MemoryPool.IsFree, h.freeList, h.freeTop]
  refine ⟨fun hi hj => ?_, fun hi => ?_, ?_, fun {i o'} hi => ?_⟩
  · rw [h.orderMap] at hi hj
    exact hb.inj hi hj
  · rw [hfree]
    exact hb.held (h.orderMap ▸ hi)
  · rw [MemoryPool.FreeDistinct, h.freeList, h.freeTop]
    exact hb.distinct
  · obtain ⟨slot, hslot, rfl⟩ := lookup_eq_some.mp hi
    rw [h.orderMap] at hslot
    rw [h.named, h.orderIdSeq]
    exact hb.named (lookup_of_orderMap hslot)

end SameRegistry

/-- No order is registered under 0, the id that stands for none. -/
theorem Registry.orderMap_zero {b : OrderBook} (hb : Registry b) : b.orderMap 0 = none := by
  cases h : b.orderMap 0 with
  | none => rfl
  | some slot => exact absurd (hb.named (lookup_of_orderMap h)).2.1 (Nat.lt_irrefl 0)

/-- No order is registered under the id that stands for "none". -/
theorem Registry.writeId_zero {b : OrderBook} (hb : Registry b) (f : Order → Order) :
    b.writeId 0 f = b := by
  rw [OrderBook.writeId, hb.orderMap_zero]

end NanoVault.Book
