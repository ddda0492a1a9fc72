/-
The registered orders of a book, without its ladders and links.

A `Roster` is what callers, the statistics and a listener get to see of a book: the
orders under their ids, the number of free slots, the counters, and the calls about orders
and trades. Its operations are those of the book with the ladders left out; which makers a
taker meets is then open, and `Fills` allows any. `fillOrder_roster`,
`addOrder_roster` and `cancelOrder_roster` say that the book's calls are such
operations, whatever its levels look like.
-/
import NanoVault.Book.Linkage

namespace NanoVault.Book

open Lib OrderBook

@[simp] theorem Order.unlinked_id (o : Order) : o.unlinked.id = o.id := rfl
@[simp] theorem Order.unlinked_price (o : Order) : o.unlinked.price = o.price := rfl
@[simp] theorem Order.unlinked_qty (o : Order) : o.unlinked.qty = o.qty := rfl
@[simp] theorem Order.unlinked_side (o : Order) : o.unlinked.side = o.side := rfl
@[simp] theorem Order.unlinked_type (o : Order) : o.unlinked.type = o.type := rfl
@[simp] theorem Order.unlinked_isActive (o : Order) : o.unlinked.isActive = o.isActive := rfl

@[simp] theorem Order.unlinked_remaining (o : Order) : o.unlinked.remaining = o.remaining := rfl

/-- A call about an order or a trade, without the order's links. -/
def Event.unlinked : Event → Option Event
  | .onTrade t => some (.onTrade t)
  | .onBboUpdate _ => none
  | .onOrderAdded o => some (.onOrderAdded o.unlinked)
  | .onOrderCancelled o => some (.onOrderCancelled o.unlinked)
  | .onOrderFilled o => some (.onOrderFilled o.unlinked)

@[ext]
structure Roster where
  entry : OrderId → Option Order
  free : Nat
  orderIdSeq : OrderId
  tradeIdSeq : TradeId
  totalVolume : UInt64
  tradesExecuted : Nat
  log : List Event

def OrderBook.roster (b : OrderBook) : Roster where
  entry i := (b.lookup i).map Order.unlinked
  free := b.orderPool.freeTop
  orderIdSeq := b.orderIdSeq
  tradeIdSeq := b.tradeIdSeq
  totalVolume := b.stats.totalVolume
  tradesExecuted := b.stats.tradesExecuted
  log := b.log.filterMap Event.unlinked

namespace Roster

def put (r : Roster) (i : OrderId) (x : Order) : Roster :=
  { r with entry := Function.update r.entry i (some x) }

def enter (r : Roster) (x : Order) : Roster :=
  { r with
    entry := Function.update r.entry x.id (some x)
    free := r.free - 1
    orderIdSeq := r.orderIdSeq + 1 }

/-- The order under `i` is unregistered and its slot given back. -/
def retire (r : Roster) (i : OrderId) : Roster :=
  { r with entry := Function.update r.entry i none, free := r.free + 1 }

def tell (r : Roster) (e : Event) : Roster := { r with log := r.log ++ [e] }

def trade (r : Roster) (maker taker : Order) (fill : Int) : Trade where
  id := r.tradeIdSeq + 1
  makerId := maker.id
  takerId := taker.id
  price := maker.price
  qty := fill
  aggressor := taker.side

/-- One fill: both orders are charged, and a maker filled completely is retired. -/
def fill (r : Roster) (maker taker : Order) (fill : Int) : Roster where
  entry := Function.update
    (Function.update r.entry maker.id
      (if maker.remaining = fill then none else some (maker.afterFill fill)))
    taker.id (some (taker.afterFill fill))
  free := if maker.remaining = fill then r.free + 1 else r.free
  orderIdSeq := r.orderIdSeq
  tradeIdSeq := r.tradeIdSeq + 1
  totalVolume := r.totalVolume + UInt64.ofInt fill
  tradesExecuted := r.tradesExecuted + 1
  log := r.log ++
    (if maker.remaining = fill then [.onOrderFilled (maker.afterFill fill)] else []) ++
      [.onTrade (r.trade maker taker fill)]

/-- A fill changes the entries of maker and taker only. -/
theorem fill_entry_ne (r : Roster) {maker taker : Order} (q : Int) {j : OrderId}
    (hm : j ≠ maker.id) (ht : j ≠ taker.id) : (r.fill maker taker q).entry j = r.entry j := by
  show Function.update (Function.update r.entry _ _) _ _ j = _
  rw [Function.update_of_ne ht, Function.update_of_ne hm]

/-- The taker's entry after a fill. -/
theorem fill_entry_taker (r : Roster) (maker taker : Order) (q : Int) :
    (r.fill maker taker q).entry taker.id = some (taker.afterFill q) :=
  Function.update_self _ _ _

/-- The maker's entry after a fill; a maker that is used up has none. -/
theorem fill_entry_maker (r : Roster) {maker taker : Order} (q : Int) (h : maker.id ≠ taker.id) :
    (r.fill maker taker q).entry maker.id =
      if maker.remaining = q then none else some (maker.afterFill q) := by
  show Function.update (Function.update r.entry _ _) _ _ maker.id = _
  rw [Function.update_of_ne h, Function.update_self]

/-- Fills of the order under `t`, one after the other. -/
inductive Fills (t : OrderId) : Roster → List Trade → Roster → Prop
  | nil (r : Roster) : Fills t r [] r
  | cons {r r' : Roster} {maker taker : Order} {ts : List Trade} :
      r.entry maker.id = some maker → r.entry t = some taker → taker.id = t → maker.id ≠ t →
      0 < taker.remaining →
      Fills t (r.fill maker taker (min taker.remaining maker.remaining)) ts r' →
      Fills t r (r.trade maker taker (min taker.remaining maker.remaining) :: ts) r'

/-- Fills of one taker follow one another. -/
theorem Fills.append {t : OrderId} {r r' r'' : Roster} {ts ts' : List Trade}
    (h : Fills t r ts r') (h' : Fills t r' ts' r'') : Fills t r (ts ++ ts') r'' := by
  induction h with
  | nil => exact h'
  | cons hm ht hid hne hrem _ ih => exact .cons hm ht hid hne hrem (ih h')

/-- The end of `add_order`, for the order `x` as matching has left it. -/
def conclude (r : Roster) (x : Order) (type : OrderType) (result : AddResult) :
    Roster × AddResult :=
  if type = .postOnly ∧ result.fills ≠ [] then
    (if x.isActive then r.retire x.id else r, { result with accepted := false, fills := [] })
  else if x.remaining = 0 then
    ((r.retire x.id).tell (.onOrderFilled (x.setStatus .filled)), result)
  else if type = .ioc ∨ type = .fok then (r.retire x.id, result)
  else if type = .limit then (r.tell (.onOrderAdded x), result)
  else (r, result)

/-- Fills hand out no ids. -/
theorem Fills.orderIdSeq {t : OrderId} {r r' : Roster} {ts : List Trade} (h : Fills t r ts r') :
    r'.orderIdSeq = r.orderIdSeq := by
  induction h with
  | nil => rfl
  | cons _ _ _ _ _ _ ih => exact ih

@[simp] theorem conclude_orderIdSeq (r : Roster) (x : Order) (type : OrderType)
    (result : AddResult) : (r.conclude x type result).1.orderIdSeq = r.orderIdSeq := by
  unfold conclude
  split_ifs <;> rfl

def newOrder (r : Roster) (side : Side) (type : OrderType) (price : Price) (qty : Int)
    (exch : Exchange) : Order where
  id := r.orderIdSeq + 1
  price := entryPrice side type price
  qty := qty
  remaining := qty
  side := side
  type := type
  exchange := exch

/-- What a call of `add_order` may answer and leave behind. -/
inductive Adds (side : Side) (type : OrderType) (price : Price) (qty : Int) (exch : Exchange) :
    Roster → AddResult → Roster → Prop
  | refused (r : Roster) : Adds side type price qty exch r {} r
  | unfillable (r : Roster) : type = .fok →
      Adds side type price qty exch r {} { r with orderIdSeq := r.orderIdSeq + 1 }
  | entered {r r₂ : Roster} {x : Order} {ts : List Trade} : 0 < qty → r.free ≠ 0 →
      Fills (r.orderIdSeq + 1) (r.enter (r.newOrder side type price qty exch)) ts r₂ →
      r₂.entry (r.orderIdSeq + 1) = some x →
      Adds side type price qty exch r
        (r₂.conclude x type { id := r.orderIdSeq + 1, accepted := true, fills := ts }).2
        (r₂.conclude x type { id := r.orderIdSeq + 1, accepted := true, fills := ts }).1

/-- `cancel_order`. -/
def cancel (r : Roster) (i : OrderId) : Roster :=
  match r.entry i with
  | none => r
  | some x =>
      if x.isActive then (r.retire i).tell (.onOrderCancelled (x.setStatus .cancelled)) else r

@[simp] theorem cancel_orderIdSeq (r : Roster) (i : OrderId) :
    (r.cancel i).orderIdSeq = r.orderIdSeq := by
  unfold cancel
  split
  · rfl
  · split <;> rfl

def clear (r : Roster) : Roster where
  entry := fun _ => none
  free := maxOrders
  orderIdSeq := 0
  tradeIdSeq := 0
  totalVolume := 0
  tradesExecuted := 0
  log := r.log

/-- What a public call may answer and leave behind. A modification answers as the order it
adds does. -/
inductive Step (r : Roster) : Call → AddResult → Roster → Prop
  | add {side type price qty exch result r'} : Adds side type price qty.toInt exch r result r' →
      Step r (.add side type price qty exch) result r'
  | cancel (i) : Step r (.cancel i) {} (r.cancel i)
  | unknown (i p q) : r.entry i = none → Step r (.modify i p q) {} r
  | modify {i x p q result r'} : r.entry i = some x →
      Adds x.side x.type p q.toInt x.exchange (r.cancel i) result r' →
      Step r (.modify i p q) result r'
  | clear : Step r .clear {} r.clear

end Roster

end NanoVault.Book
