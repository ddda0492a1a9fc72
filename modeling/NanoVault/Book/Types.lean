/-
The core types of the order book (`hft_clean/include/types.hpp`, `price_level.hpp`).

A price is an `int64_t` that is only ever compared. A quantity is an integer whose
additions are wrapped where the source can leave the range of `int64_t`. Order and trade
ids are counted by 64-bit counters that start at zero and are incremented once per order
or trade; they are natural numbers here. The cold fields no operation of the book reads
(timestamps, the symbol, padding) are left out.
-/
import Mathlib

namespace NanoVault.Book

abbrev Price := Int64
abbrev OrderId := Nat
abbrev TradeId := Nat

/-- The `int64_t` a sum of two of them is stored as. -/
def wrap64 (x : Int) : Int := x.bmod (2 ^ 64)

theorem wrap64_of_range {x : Int} (h₁ : -2 ^ 63 ≤ x) (h₂ : x < 2 ^ 63) : wrap64 x = x :=
  Int.bmod_eq_of_le (by omega) (by omega)

@[simp] theorem wrap64_wrap64_add (x y : Int) : wrap64 (wrap64 x + y) = wrap64 (x + y) :=
  Int.bmod_add_bmod

@[simp] theorem wrap64_wrap64_sub (x y : Int) : wrap64 (wrap64 x - y) = wrap64 (x - y) :=
  Int.bmod_sub_bmod

/-- Only zero can be added without being noticed. -/
theorem eq_zero_of_wrap64_add {x y : Int} (h₁ : -2 ^ 63 ≤ x) (h₂ : x < 2 ^ 63)
    (h : wrap64 (x + y) = y) : x = 0 := by
  have hsub : wrap64 (wrap64 (x + y) - y) = wrap64 x := by
    rw [wrap64_wrap64_sub, Int.add_sub_cancel]
  rw [h, Int.sub_self, wrap64_of_range h₁ h₂] at hsub
  exact hsub.symm

inductive Side where
  | buy
  | sell
deriving DecidableEq, Repr

def Side.opposite : Side → Side
  | .buy => .sell
  | .sell => .buy

@[simp] theorem Side.opposite_opposite (s : Side) : s.opposite.opposite = s := by
  cases s <;> rfl

theorem Side.opposite_ne (s : Side) : s.opposite ≠ s := by
  cases s <;> decide

/-- The comparator of a side's ladder: `std::greater` for bids, `std::less` for asks. -/
def Side.before : Side → Price → Price → Prop
  | .buy, p, q => q < p
  | .sell, p, q => p < q

instance (s : Side) : DecidableRel s.before := fun p q =>
  match s with
  | .buy => inferInstanceAs (Decidable (q < p))
  | .sell => inferInstanceAs (Decidable (p < q))

instance (s : Side) : IsStrictTotalOrder Price s.before where
  irrefl p := by cases s <;> exact Int64.lt_irrefl
  trans p q r h₁ h₂ := by
    cases s
    · exact Int64.lt_trans h₂ h₁
    · exact Int64.lt_trans h₁ h₂
  trichotomous p q h₁ h₂ := by
    cases s
    · exact Int64.le_antisymm (Int64.not_lt.mp h₁) (Int64.not_lt.mp h₂)
    · exact Int64.le_antisymm (Int64.not_lt.mp h₂) (Int64.not_lt.mp h₁)

/-- The price check of a taker on this side: `p` lies behind its limit. -/
def Side.beyond : Side → (limit p : Price) → Bool
  | .buy, limit, p => decide (limit < p)
  | .sell, limit, p => decide (p < limit)

inductive OrderType where
  | limit
  | market
  | ioc
  | fok
  | postOnly
deriving DecidableEq, Repr

inductive OrderStatus where
  | new
  | partiallyFilled
  | filled
  | cancelled
  | rejected
deriving DecidableEq, Repr

inductive Exchange where
  | generic
  | binance
  | zerodha
  | coinbase
  | bybit
deriving DecidableEq, Repr

/-- `Order`; `prev` and `next` are the ids of the neighbours in the queue, 0 for none. -/
structure Order where
  id : OrderId := 0
  price : Price := 0
  qty : Int := 0
  remaining : Int := 0
  prev : OrderId := 0
  next : OrderId := 0
  side : Side := .buy
  type : OrderType := .limit
  status : OrderStatus := .new
  exchange : Exchange := .generic
deriving DecidableEq, Repr, Inhabited

def Order.isActive (o : Order) : Bool :=
  o.status = .new || o.status = .partiallyFilled

/-- `o->prev = v`. -/
def Order.setPrev (v : OrderId) (o : Order) : Order := { o with prev := v }

/-- `o->next = v`. -/
def Order.setNext (v : OrderId) (o : Order) : Order := { o with next := v }

/-- `o->remaining -= fill`. -/
def Order.reduce (fill : Int) (o : Order) : Order :=
  { o with remaining := o.remaining - fill }

/-- `o->status = status`. -/
def Order.setStatus (status : OrderStatus) (o : Order) : Order := { o with status }

/-- The status of an order a fill leaves with this remaining quantity. -/
def fillStatus (remaining : Int) : OrderStatus :=
  if remaining = 0 then .filled else .partiallyFilled

/-- `Trade`, the record of one fill. -/
structure Trade where
  id : TradeId
  makerId : OrderId
  takerId : OrderId
  price : Price
  qty : Int
  aggressor : Side
deriving DecidableEq, Repr

/-- `BBO`, the best prices and the quantities at them. -/
structure BBO where
  bidPrice : Price := 0
  askPrice : Price := 0
  bidQty : Int := 0
  askQty : Int := 0
deriving DecidableEq, Repr

/-- `PriceLevel`, one rung of a ladder: a queue given by its ends. -/
structure PriceLevel where
  price : Price := 0
  totalQty : Int := 0
  orderCount : Nat := 0
  head : OrderId := 0
  tail : OrderId := 0
deriving DecidableEq, Repr

/-- `empty()`. -/
def PriceLevel.isEmpty (lvl : PriceLevel) : Bool := lvl.orderCount = 0

end NanoVault.Book
