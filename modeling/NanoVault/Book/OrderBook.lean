/-
`OrderBook` (`hft_clean/src/order_book.cpp`, `include/order_book.hpp`).

The book is a record of the source's members, with callbacks attached: `log` lists the
calls a listener receives. Orders live in the pool and are reached through slots, as the
source reaches them through pointers, and through `orderMap` where it goes by id. The two
loops of `match_order` take fuel and answer `none` when it runs out, since a damaged book
can keep them going for ever.

In `match_order`, `it->first` is read behind the inner loop even when that loop has erased
the node `it` stands at. What is read then is not defined by the source: it is the
parameter `freed`, indexed by the number of trades executed so far.
-/
import NanoVault.Lib.SortedMap
import NanoVault.Book.MemoryPool
import NanoVault.Book.Types

namespace NanoVault.Book

open Lib

def maxOrders : Nat := 2 ^ 20

/-- The ladder of one side, best price first. -/
abbrev Ladder (s : Side) := SortedMap s.before PriceLevel

structure Stats where
  ordersAdded : Nat := 0
  ordersCancelled : Nat := 0
  ordersFilled : Nat := 0
  tradesExecuted : Nat := 0
  totalVolume : UInt64 := 0
deriving DecidableEq, Repr

/-- The calls of `OrderBookCallbacks`. -/
inductive Event where
  | onTrade (t : Trade)
  | onBboUpdate (b : BBO)
  | onOrderAdded (o : Order)
  | onOrderCancelled (o : Order)
  | onOrderFilled (o : Order)
deriving DecidableEq, Repr

structure OrderBook where
  bidLadder : Ladder .buy := SortedMap.empty
  askLadder : Ladder .sell := SortedMap.empty
  orderMap : OrderId → Option Slot := fun _ => none
  orderPool : MemoryPool Order maxOrders := MemoryPool.init
  orderIdSeq : OrderId := 0
  tradeIdSeq : TradeId := 0
  stats : Stats := {}
  log : List Event := []

structure AddResult where
  id : OrderId := 0
  accepted : Bool := false
  fills : List Trade := []
deriving DecidableEq, Repr

structure CancelResult where
  found : Bool := false
  cancelled : Bool := false
deriving DecidableEq, Repr

structure ModifyResult where
  success : Bool := false
  newId : OrderId := 0
  fills : List Trade := []
deriving DecidableEq, Repr

namespace OrderBook

/-! ### Reaching into the book -/

def ladder (b : OrderBook) : (s : Side) → Ladder s
  | .buy => b.bidLadder
  | .sell => b.askLadder

def setLadder (b : OrderBook) : (s : Side) → Ladder s → OrderBook
  | .buy, l => { b with bidLadder := l }
  | .sell, l => { b with askLadder := l }

def order (b : OrderBook) (slot : Slot) : Order := b.orderPool.storage slot

/-- Write through a pointer to an order. -/
def write (b : OrderBook) (slot : Slot) (f : Order → Order) : OrderBook :=
  { b with orderPool := b.orderPool.write slot f }

/-- `order_map_.find(id)`, and a write through the pointer found. -/
def writeId (b : OrderBook) (id : OrderId) (f : Order → Order) : OrderBook :=
  match b.orderMap id with
  | none => b
  | some slot => b.write slot f

/-- `order_map_.emplace(id, slot)`; ids are never emplaced twice. -/
def register (b : OrderBook) (id : OrderId) (slot : Slot) : OrderBook :=
  { b with orderMap := Function.update b.orderMap id (some slot) }

/-- `order_map_.erase(id)`. -/
def unregister (b : OrderBook) (id : OrderId) : OrderBook :=
  { b with orderMap := Function.update b.orderMap id none }

def deallocate (b : OrderBook) (slot : Slot) : OrderBook :=
  { b with orderPool := b.orderPool.deallocate slot }

def emit (b : OrderBook) (e : Event) : OrderBook := { b with log := b.log ++ [e] }

/-! ### Quotes -/

def bestBbo (b : OrderBook) : BBO :=
  let bid := b.bidLadder.first?.map Prod.snd
  let ask := b.askLadder.first?.map Prod.snd
  { bidPrice := (bid.map PriceLevel.price).getD 0
    askPrice := (ask.map PriceLevel.price).getD 0
    bidQty := (bid.map PriceLevel.totalQty).getD 0
    askQty := (ask.map PriceLevel.totalQty).getD 0 }

def notifyBbo (b : OrderBook) : OrderBook := b.emit (.onBboUpdate b.bestBbo)

/-- An entry of `bid_depth` and `ask_depth`. -/
structure DepthLevel where
  price : Price
  qty : Int
  count : Nat
deriving DecidableEq, Repr

/-- `bid_depth(levels)` and `ask_depth(levels)`. -/
def depth (b : OrderBook) (s : Side) (levels : Nat) : List DepthLevel :=
  ((b.ladder s).entries.take levels).map fun e => ⟨e.2.price, e.2.totalQty, e.2.orderCount⟩

def bidDepth (b : OrderBook) (levels : Nat) : List DepthLevel := b.depth .buy levels
def askDepth (b : OrderBook) (levels : Nat) : List DepthLevel := b.depth .sell levels

/-! ### Queues inside a level -/

/-- `level_add_order(lvl, o)`: put the order behind the last one. -/
def levelAddOrder (b : OrderBook) (lvl : PriceLevel) (o : Slot) : OrderBook × PriceLevel :=
  let b := (b.write o (Order.setPrev lvl.tail)).write o (Order.setNext 0)
  let id := (b.order o).id
  let linked :=
    if lvl.tail ≠ 0 then (b.writeId lvl.tail (Order.setNext id), lvl)
    else (b, { lvl with head := id })
  (linked.1,
    { linked.2 with
      tail := id
      totalQty := wrap64 (lvl.totalQty + (linked.1.order o).remaining)
      orderCount := lvl.orderCount + 1 })

/-- `level_remove_order_links(lvl, o)`: link the neighbours to each other. -/
def levelRemoveOrderLinks (b : OrderBook) (lvl : PriceLevel) (o : Slot) :
    OrderBook × PriceLevel :=
  let back :=
    if (b.order o).prev ≠ 0 then
      (b.writeId (b.order o).prev (Order.setNext (b.order o).next), lvl)
    else (b, { lvl with head := (b.order o).next })
  let b := back.1
  let forth :=
    if (b.order o).next ≠ 0 then
      (b.writeId (b.order o).next (Order.setPrev (b.order o).prev), back.2)
    else (b, { back.2 with tail := (b.order o).prev })
  (forth.1, { forth.2 with orderCount := lvl.orderCount - 1 })

/-- `update_ladder` of `fill_order` and `remove_from` of `cancel_order`: take `amount` off
the total of the order's level and, when the order `leaves`, take it out of the queue and
drop the level it leaves empty. An order whose price has no level changes nothing. -/
def reduceLevel (b : OrderBook) (s : Side) (o : Slot) (amount : Int) (leaves : Bool) :
    OrderBook :=
  let price := (b.order o).price
  match (b.ladder s).find? price with
  | none => b
  | some lvl =>
      let lvl := { lvl with totalQty := wrap64 (lvl.totalQty - amount) }
      if leaves then
        let r := b.levelRemoveOrderLinks lvl o
        if r.2.isEmpty then r.1.setLadder s ((r.1.ladder s).erase price)
        else r.1.setLadder s ((r.1.ladder s).insert price r.2)
      else b.setLadder s ((b.ladder s).insert price lvl)

/-! ### Matching -/

def maxPrice : Price := Int64.maxValue
def minPrice : Price := Int64.minValue

/-- The loop of `can_fill_fok` over the opposite ladder. -/
def canFillFokLoop (side : Side) (price : Price) (qty : Int) :
    List (Price × PriceLevel) → Int → Bool
  | [], avail => decide (qty ≤ avail)
  | (p, lvl) :: rest, avail =>
      if side.beyond price p then decide (qty ≤ avail)
      else if qty ≤ wrap64 (avail + lvl.totalQty) then true
      else canFillFokLoop side price qty rest (wrap64 (avail + lvl.totalQty))

def canFillFok (b : OrderBook) (side : Side) (price : Price) (qty : Int) : Bool :=
  canFillFokLoop side price qty (b.ladder side.opposite).entries 0

/-- The first half of `fill_order`: count the trade and charge both orders. The fill is at
most both remaining quantities, so that the two subtractions need no wrapping. -/
def chargeFill (b : OrderBook) (maker taker : Slot) (fill : Int) : OrderBook :=
  let b := { b with tradeIdSeq := b.tradeIdSeq + 1 }
  let b := (b.write maker (Order.reduce fill)).write taker (Order.reduce fill)
  { b with stats := { b.stats with
      totalVolume := b.stats.totalVolume + UInt64.ofInt fill
      tradesExecuted := b.stats.tradesExecuted + 1 } }

/-- The maker's end of `fill_order`: retire it, or mark it as partially filled. -/
def settleMaker (b : OrderBook) (maker : Slot) : OrderBook :=
  if (b.order maker).remaining = 0 then
    let b := b.write maker (Order.setStatus .filled)
    let b := b.unregister (b.order maker).id
    let b := { b with stats := { b.stats with ordersFilled := b.stats.ordersFilled + 1 } }
    let b := b.emit (.onOrderFilled (b.order maker))
    b.deallocate maker
  else b.write maker (Order.setStatus .partiallyFilled)

def fillOrder (b : OrderBook) (maker taker : Slot) (fill : Int) : OrderBook × Trade :=
  let t : Trade :=
    { id := b.tradeIdSeq + 1
      makerId := (b.order maker).id
      takerId := (b.order taker).id
      price := (b.order maker).price
      qty := fill
      aggressor := (b.order taker).side }
  let b := b.chargeFill maker taker fill
  let b := b.reduceLevel (b.order taker).side.opposite maker fill
    (decide ((b.order maker).remaining = 0))
  let b := b.settleMaker maker
  let b := b.write taker (Order.setStatus (fillStatus (b.order taker).remaining))
  (b.emit (.onTrade t), t)

/-- The inner loop of `match_order`: walk the queue from `cur`. -/
def walkLevel : Nat → OrderBook → (taker : Slot) → (cur : OrderId) →
    Option (OrderBook × List Trade)
  | 0, _, _, _ => none
  | fuel + 1, b, taker, cur =>
      if cur ≠ 0 ∧ 0 < (b.order taker).remaining then
        match b.orderMap cur with
        | none => some (b, [])
        | some maker =>
            let next := (b.order maker).next
            let fill := min (b.order taker).remaining (b.order maker).remaining
            let r := b.fillOrder maker taker fill
            (walkLevel fuel r.1 taker next).map fun w => (w.1, r.2 :: w.2)
      else some (b, [])

/-- The cleanup behind the inner loop: drop the level under `it->first` when it is empty. -/
def dropEmpty (b : OrderBook) (s : Side) (key : Price) : OrderBook :=
  match (b.ladder s).find? key with
  | some lvl => if lvl.isEmpty then b.setLadder s ((b.ladder s).erase key) else b
  | none => b

/-- `it->first` after the inner loop, for an `it` that stood at price `p`. -/
def readKey (freed : TradeId → Price) (b : OrderBook) (s : Side) (p : Price) : Price :=
  if ((b.ladder s).find? p).isSome then p else freed b.tradeIdSeq

/-- The outer loop of `match_order` over the ladder opposite to the taker. -/
def sweep (freed : TradeId → Price) : Nat → OrderBook → (taker : Slot) →
    Option (OrderBook × List Trade)
  | 0, _, _ => none
  | fuel + 1, b, taker =>
      let s := (b.order taker).side.opposite
      if 0 < (b.order taker).remaining then
        match (b.ladder s).first? with
        | none => some (b, [])
        | some (p, lvl) =>
            if (b.order taker).side.beyond (b.order taker).price p then some (b, [])
            else
              (walkLevel fuel b taker lvl.head).bind fun w =>
                let b := w.1.dropEmpty s (readKey freed w.1 s p)
                (sweep freed fuel b taker).map fun r => (r.1, w.2 ++ r.2)
      else some (b, [])

def matchOrder (freed : TradeId → Price) (fuel : Nat) (b : OrderBook) (taker : Slot) :
    Option (OrderBook × List Trade) :=
  sweep freed fuel b taker

/-! ### The public calls -/

/-- The resting of a LIMIT order on its own side. -/
def restOrder (b : OrderBook) (o : Slot) : OrderBook :=
  let s := (b.order o).side
  let price := (b.order o).price
  let lvl := { ((b.ladder s).find? price).getD {} with price := price }
  let r := b.levelAddOrder lvl o
  r.1.setLadder s ((r.1.ladder s).insert price r.2)

/-- The end of `add_order`, from the POST_ONLY check on. -/
def concludeAdd (b : OrderBook) (o : Slot) (type : OrderType) (result : AddResult) :
    OrderBook × AddResult :=
  if type = .postOnly ∧ result.fills ≠ [] then
    let b :=
      if (b.order o).isActive then (b.unregister (b.order o).id).deallocate o else b
    (b, { result with accepted := false, fills := [] })
  else if (b.order o).remaining = 0 then
    let b := b.write o (Order.setStatus .filled)
    let b := b.unregister (b.order o).id
    let b := { b with stats := { b.stats with ordersFilled := b.stats.ordersFilled + 1 } }
    let b := b.emit (.onOrderFilled (b.order o))
    ((b.deallocate o).notifyBbo, result)
  else if type = .ioc ∨ type = .fok then
    (((b.unregister (b.order o).id).deallocate o).notifyBbo, result)
  else if type = .limit then
    let b := b.restOrder o
    let b := b.emit (.onOrderAdded (b.order o))
    (b.notifyBbo, result)
  else (b, result)

/-- The price an order is entered with: a MARKET order gets the price that reaches the
whole opposite ladder. -/
def entryPrice (side : Side) (type : OrderType) (price : Price) : Price :=
  if type = .market then (if side = .buy then maxPrice else minPrice) else price

/-- The order a call of `add_order` enters, under the next id. -/
def newOrder (b : OrderBook) (side : Side) (type : OrderType) (price : Price) (qty : Int)
    (exch : Exchange) : Order :=
  { id := b.orderIdSeq + 1
    price := entryPrice side type price
    qty := qty
    remaining := qty
    side := side
    type := type
    exchange := exch }

/-- Fill in the order just allocated; its id is used up. -/
def placeOrder (b : OrderBook) (pool : MemoryPool Order maxOrders) (o : Slot) (x : Order) :
    OrderBook :=
  { b with orderPool := pool, orderIdSeq := b.orderIdSeq + 1 }.write o fun _ => x

def enroll (b : OrderBook) (id : OrderId) (o : Slot) : OrderBook :=
  { b.register id o with stats := { b.stats with ordersAdded := b.stats.ordersAdded + 1 } }

def addOrder (freed : TradeId → Price) (fuel : Nat) (b : OrderBook) (side : Side)
    (type : OrderType) (price : Price) (qty : Int) (exch : Exchange) :
    Option (OrderBook × AddResult) :=
  if qty ≤ 0 then some (b, {})
  else if type = .limit ∧ price ≤ 0 then some (b, {})
  else
    match b.orderPool.allocate with
    | none => some (b, {})
    | some (o, pool) =>
        let x := b.newOrder side type price qty exch
        let b := b.placeOrder pool o x
        if type = .fok ∧ b.canFillFok side x.price qty = false then some (b.deallocate o, {})
        else
          let b := b.enroll x.id o
          (b.matchOrder freed fuel o).map fun m =>
            m.1.concludeAdd o type { id := x.id, accepted := true, fills := m.2 }

/-- The end of `cancel_order`, once the order is off its level. -/
def retireCancelled (b : OrderBook) (id : OrderId) (o : Slot) : OrderBook :=
  let b := b.write o (Order.setStatus .cancelled)
  let b := b.unregister id
  let b := { b with stats := { b.stats with ordersCancelled := b.stats.ordersCancelled + 1 } }
  let b := b.emit (.onOrderCancelled (b.order o))
  (b.deallocate o).notifyBbo

def cancelOrder (b : OrderBook) (id : OrderId) : OrderBook × CancelResult :=
  match b.orderMap id with
  | none => (b, {})
  | some o =>
      if (b.order o).isActive then
        let b := b.reduceLevel (b.order o).side o (b.order o).remaining true
        (b.retireCancelled id o, { found := true, cancelled := true })
      else (b, { found := true })

/-- `modify_order`: cancel, then add with the new price and quantity. -/
def modifyOrder (freed : TradeId → Price) (fuel : Nat) (b : OrderBook) (id : OrderId)
    (newPrice : Price) (newQty : Int) : Option (OrderBook × ModifyResult) :=
  match b.orderMap id with
  | none => some (b, {})
  | some o =>
      let x := b.order o
      let b := (b.cancelOrder id).1
      (b.addOrder freed fuel x.side x.type newPrice newQty x.exchange).map fun r =>
        (r.1, { success := r.2.accepted, newId := r.2.id, fills := r.2.fills })

def clear (b : OrderBook) : OrderBook :=
  notifyBbo
    { b with
      bidLadder := SortedMap.empty
      askLadder := SortedMap.empty
      orderMap := fun _ => none
      orderPool := b.orderPool.reset
      orderIdSeq := 0
      tradeIdSeq := 0
      stats := {} }

end OrderBook

end NanoVault.Book
