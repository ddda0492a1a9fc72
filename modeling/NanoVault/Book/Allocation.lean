/-
The slots of an order book's pool (`MemoryPool`, `order_book.cpp`).

`Audited` is a book beside an account of its pool: the slots `allocate` has handed out and
`deallocate` has not taken back. The functions on it are those of `OrderBook` with the
account kept, and a slot is given back only if it is on the account; otherwise the call
stops there. `Sound` ties the account to the free list and to `orderMap`. In the runs of
public calls it always holds, so no call gives back a slot that is not allocated.
-/
import Mathlib.Data.Finset.Card
import NanoVault.Book.Simulation

namespace NanoVault.Book

open Lib OrderBook

/-- What ends a call early: its loops have no fuel left, or it gives back a slot that is
not allocated. -/
inductive Stop where
  | outOfFuel
  | notAllocated (slot : Slot)
deriving DecidableEq, Repr

structure Audited where
  book : OrderBook := {}
  allocated : Finset Slot := ∅

/-! ### The calls with the account kept -/

namespace Audited

def deallocate (x : Audited) (slot : Slot) : Except Stop Audited :=
  if slot ∈ x.allocated then .ok ⟨x.book.deallocate slot, x.allocated.erase slot⟩
  else .error (.notAllocated slot)

def settleMaker (x : Audited) (maker : Slot) : Except Stop Audited :=
  let b := x.book
  if (b.order maker).remaining = 0 then
    let b := b.write maker (Order.setStatus .filled)
    let b := b.unregister (b.order maker).id
    let b := { b with stats := { b.stats with ordersFilled := b.stats.ordersFilled + 1 } }
    let b := b.emit (.onOrderFilled (b.order maker))
    deallocate { x with book := b } maker
  else .ok { x with book := b.write maker (Order.setStatus .partiallyFilled) }

def fillOrder (x : Audited) (maker taker : Slot) (fill : Int) : Except Stop (Audited × Trade) := do
  let b := x.book
  let t : Trade :=
    { id := b.tradeIdSeq + 1
      makerId := (b.order maker).id
      takerId := (b.order taker).id
      price := (b.order maker).price
      qty := fill
      aggressor := (b.order taker).side }
  let b := b.chargeFill maker taker fill
  let b := b.reduceLevel (b.order taker).side.opposite maker fill
    (decide ((b.order maker).remaining = 0))
  let y ← settleMaker { x with book := b } maker
  let b := y.book.write taker (Order.setStatus (fillStatus (y.book.order taker).remaining))
  return ({ y with book := b.emit (.onTrade t) }, t)

def walkLevel : Nat → Audited → (taker : Slot) → (cur : OrderId) →
    Except Stop (Audited × List Trade)
  | 0, _, _, _ => .error .outOfFuel
  | fuel + 1, x, taker, cur =>
      if cur ≠ 0 ∧ 0 < (x.book.order taker).remaining then
        match x.book.orderMap cur with
        | none => .ok (x, [])
        | some maker => do
            let next := (x.book.order maker).next
            let fill := min (x.book.order taker).remaining (x.book.order maker).remaining
            let r ← x.fillOrder maker taker fill
            let w ← walkLevel fuel r.1 taker next
            return (w.1, r.2 :: w.2)
      else .ok (x, [])

def sweep (freed : TradeId → Price) : Nat → Audited → (taker : Slot) →
    Except Stop (Audited × List Trade)
  | 0, _, _ => .error .outOfFuel
  | fuel + 1, x, taker =>
      let s := (x.book.order taker).side.opposite
      if 0 < (x.book.order taker).remaining then
        match (x.book.ladder s).first? with
        | none => .ok (x, [])
        | some (p, lvl) =>
            if (x.book.order taker).side.beyond (x.book.order taker).price p then .ok (x, [])
            else do
              let w ← walkLevel fuel x taker lvl.head
              let b := w.1.book.dropEmpty s (readKey freed w.1.book s p)
              let r ← sweep freed fuel { w.1 with book := b } taker
              return (r.1, w.2 ++ r.2)
      else .ok (x, [])

def concludeAdd (x : Audited) (o : Slot) (type : OrderType) (result : AddResult) :
    Except Stop (Audited × AddResult) :=
  let b := x.book
  if type = .postOnly ∧ result.fills ≠ [] then do
    let y ←
      if (b.order o).isActive then deallocate { x with book := b.unregister (b.order o).id } o
      else pure x
    return (y, { result with accepted := false, fills := [] })
  else if (b.order o).remaining = 0 then do
    let b := b.write o (Order.setStatus .filled)
    let b := b.unregister (b.order o).id
    let b := { b with stats := { b.stats with ordersFilled := b.stats.ordersFilled + 1 } }
    let b := b.emit (.onOrderFilled (b.order o))
    let y ← deallocate { x with book := b } o
    return ({ y with book := y.book.notifyBbo }, result)
  else if type = .ioc ∨ type = .fok then do
    let y ← deallocate { x with book := b.unregister (b.order o).id } o
    return ({ y with book := y.book.notifyBbo }, result)
  else if type = .limit then
    let b := b.restOrder o
    let b := b.emit (.onOrderAdded (b.order o))
    .ok ({ x with book := b.notifyBbo }, result)
  else .ok (x, result)

def addOrder (freed : TradeId → Price) (fuel : Nat) (x : Audited) (side : Side)
    (type : OrderType) (price : Price) (qty : Int) (exch : Exchange) :
    Except Stop (Audited × AddResult) :=
  let b := x.book
  if qty ≤ 0 then .ok (x, {})
  else if type = .limit ∧ price ≤ 0 then .ok (x, {})
  else
    match b.orderPool.allocate with
    | none => .ok (x, {})
    | some (o, pool) =>
        let order := b.newOrder side type price qty exch
        let x : Audited := ⟨b.placeOrder pool o order, insert o x.allocated⟩
        if type = .fok ∧ x.book.canFillFok side order.price qty = false then do
          let y ← x.deallocate o
          return (y, {})
        else do
          let m ← sweep freed fuel { x with book := x.book.enroll order.id o } o
          m.1.concludeAdd o type { id := order.id, accepted := true, fills := m.2 }

def retireCancelled (x : Audited) (id : OrderId) (o : Slot) : Except Stop Audited := do
  let b := x.book.write o (Order.setStatus .cancelled)
  let b := b.unregister id
  let b := { b with stats := { b.stats with ordersCancelled := b.stats.ordersCancelled + 1 } }
  let b := b.emit (.onOrderCancelled (b.order o))
  let y ← deallocate { x with book := b } o
  return { y with book := y.book.notifyBbo }

def cancelOrder (x : Audited) (id : OrderId) : Except Stop (Audited × CancelResult) :=
  let b := x.book
  match b.orderMap id with
  | none => .ok (x, {})
  | some o =>
      if (b.order o).isActive then do
        let b := b.reduceLevel (b.order o).side o (b.order o).remaining true
        let y ← retireCancelled { x with book := b } id o
        return (y, { found := true, cancelled := true })
      else .ok (x, { found := true })

def modifyOrder (freed : TradeId → Price) (fuel : Nat) (x : Audited) (id : OrderId)
    (newPrice : Price) (newQty : Int) : Except Stop (Audited × ModifyResult) :=
  match x.book.orderMap id with
  | none => .ok (x, {})
  | some o => do
      let order := x.book.order o
      let c ← x.cancelOrder id
      let r ← c.1.addOrder freed fuel order.side order.type newPrice newQty order.exchange
      return (r.1, { success := r.2.accepted, newId := r.2.id, fills := r.2.fills })

/-- `clear`; the pool's reset takes every slot back. -/
def clear (x : Audited) : Audited := ⟨x.book.clear, ∅⟩

/-- A public call; what it returns to its caller is left out. -/
def call (freed : TradeId → Price) (fuel : Nat) (x : Audited) : Call → Except Stop Audited
  | .add side type price qty exch =>
      (x.addOrder freed fuel side type price qty.toInt exch).map Prod.fst
  | .cancel id => (x.cancelOrder id).map Prod.fst
  | .modify id newPrice newQty => (x.modifyOrder freed fuel id newPrice newQty.toInt).map Prod.fst
  | .clear => .ok x.clear

/-- The account names the registered slots, and with the free ones these are all there are. -/
structure Sound (x : Audited) : Prop where
  registered : ∀ slot, slot ∈ x.allocated ↔ ∃ i, x.book.orderMap i = some slot
  covered : ∀ slot, x.book.orderPool.IsFree slot ∨ slot ∈ x.allocated ↔ slot < maxOrders

end Audited

/-! ### Keeping the account -/

theorem SameRegistry.emit (b : OrderBook) (e : Event) : SameRegistry b (b.emit e) :=
  ⟨rfl, rfl, rfl, rfl, fun _ => rfl⟩

theorem SameRegistry.dropEmpty (b : OrderBook) (s : Side) (key : Price) :
    SameRegistry b (b.dropEmpty s key) := by
  unfold OrderBook.dropEmpty
  split
  · split
    · exact .setLadder b s _
    · exact .refl b
  · exact .refl b

namespace Audited

variable {α β : Type} {x : Audited} {b b' : OrderBook} {n i t cur : OrderId}
  {slot o maker taker : Slot}

theorem Sound.init : ({} : Audited).Sound := by
  constructor
  · intro slot
    simp
  · intro slot
    simp only [MemoryPool.init, MemoryPool.IsFree]
    simp

/-- A slot on the account is given back. -/
theorem deallocate_ok {a : Finset Slot} (h : slot ∈ a) (b : OrderBook) :
    Audited.deallocate ⟨b, a⟩ slot = .ok ⟨b.deallocate slot, a.erase slot⟩ :=
  if_pos h

/-- Steps that leave map and free list alone leave the account right. -/
theorem Sound.same (h : x.Sound) (hsame : SameRegistry x.book b) :
    Sound { x with book := b } := by
  constructor
  · intro slot
    rw [hsame.orderMap]
    exact h.registered slot
  · intro slot
    rw [MemoryPool.IsFree, hsame.freeList, hsame.freeTop]
    exact h.covered slot

/-- A retired order takes its slot off the account. -/
theorem Sound.retire (h : x.Sound) (hb : Registry x.book) (hi : x.book.orderMap i = some slot)
    (hretired : Retired x.book b i slot) : Sound ⟨b, x.allocated.erase slot⟩ := by
  have hmem : slot ∈ x.allocated := (h.registered slot).mpr ⟨i, hi⟩
  obtain ⟨-, hfree⟩ := MemoryPool.deallocate_spec (hb.held hi) hb.distinct
  constructor
  · intro slot'
    simp only [Finset.mem_erase, h.registered, hretired.orderMap]
    constructor
    · rintro ⟨hne, j, hj⟩
      have hji : j ≠ i := by
        rintro rfl
        exact hne (Option.some.inj (hj.symm.trans hi))
      exact ⟨j, by rwa [Function.update_of_ne hji]⟩
    · rintro ⟨j, hj⟩
      have hji : j ≠ i := by
        rintro rfl
        simp at hj
      rw [Function.update_of_ne hji] at hj
      refine ⟨?_, j, hj⟩
      rintro rfl
      exact hji (hb.inj hj hi)
  · intro slot'
    rw [MemoryPool.IsFree, hretired.freeList, hretired.freeTop, ← h.covered slot']
    refine (or_congr (hfree slot') Finset.mem_erase).trans ?_
    constructor
    · rintro ((hf | rfl) | ⟨-, ha⟩)
      · exact .inl hf
      · exact .inr hmem
      · exact .inr ha
    · rintro (hf | ha)
      · exact .inl (.inl hf)
      · by_cases heq : slot' = slot
        · exact .inl (.inr heq)
        · exact .inr ⟨heq, ha⟩

/-- Giving back the slot of an order just unregistered. -/
theorem Sound.deallocate (h : x.Sound) (hb : Registry x.book)
    (hi : x.book.orderMap i = some slot) (hretired : Retired x.book (b.deallocate slot) i slot) :
    ∃ y, Audited.deallocate { x with book := b } slot = .ok y ∧ y.book = b.deallocate slot ∧
      y.Sound :=
  ⟨_, deallocate_ok ((h.registered slot).mpr ⟨i, hi⟩) b, rfl, h.retire hb hi hretired⟩

/-! ### The account is right -/

/-- The audited function ends as the function of the book does, and soundly. -/
def Ends (r : Except Stop (Audited × α)) : Option (OrderBook × α) → Prop
  | none => r = .error .outOfFuel
  | some w => ∃ y : Audited, r = .ok (y, w.2) ∧ y.book = w.1 ∧ y.Sound

theorem Ends.ok (h : x.Sound) (a : α) : Ends (.ok (x, a)) (some (x.book, a)) :=
  ⟨x, rfl, rfl, h⟩

/-- Two calls after each other end soundly when both do. -/
theorem Ends.bind {r : Except Stop (Audited × α)} {w : Option (OrderBook × α)}
    {f : Audited × α → Except Stop (Audited × β)} {g : OrderBook × α → Option (OrderBook × β)}
    (h : Ends r w) (hf : ∀ (y : Audited) a, y.Sound → w = some (y.book, a) →
      Ends (f (y, a)) (g (y.book, a))) : Ends (r >>= f) (w.bind g) := by
  cases w with
  | none =>
      rw [Ends] at h
      rw [h]
      rfl
  | some w =>
      obtain ⟨y, rfl, hbook, hsound⟩ := h
      obtain ⟨b, a⟩ := w
      obtain rfl := hbook
      exact hf y a hsound rfl

/-- What a call returns may be computed further. -/
theorem Ends.map {r : Except Stop (Audited × α)} {w : Option (OrderBook × α)} (h : Ends r w)
    (k : α → β) : Ends (r >>= fun v => pure (v.1, k v.2)) (w.map fun v => (v.1, k v.2)) := by
  have hw : w.map (fun v => (v.1, k v.2)) = w.bind fun v => some (v.1, k v.2) := by
    cases w <;> rfl
  rw [hw]
  exact h.bind fun y a hy _ => .ok hy (k a)

theorem settleMaker_ends (h : x.Sound) (hb : Registry x.book)
    (hi : x.book.orderMap i = some maker) :
    ∃ y, x.settleMaker maker = .ok y ∧ y.book = x.book.settleMaker maker ∧ y.Sound := by
  rw [Audited.settleMaker, OrderBook.settleMaker]
  split
  · next hzero =>
      have hretired := settleMaker_filled (x := ⟨i, 0⟩) hb hi hzero
      rw [OrderBook.settleMaker, if_pos hzero] at hretired
      exact h.deallocate hb hi hretired
  · exact ⟨_, rfl, rfl, h.same (.write _ _ fun _ => rfl)⟩

theorem fillOrder_ends (h : x.Sound) (hlinks : Linkage n x.book)
    (hi : x.book.orderMap i = some maker) (ht : x.book.orderMap t = some taker) (fill : Int) :
    ∃ y, x.fillOrder maker taker fill = .ok (y, (x.book.fillOrder maker taker fill).2) ∧
      y.book = (x.book.fillOrder maker taker fill).1 ∧ y.Sound := by
  have hcharge : SameRegistry x.book (x.book.chargeFill maker taker fill) := by
    have hwrites := (SameRegistry.write x.book maker (f := Order.reduce fill) fun _ => rfl).trans
      (.write _ taker (f := Order.reduce fill) fun _ => rfl)
    exact ⟨rfl, rfl, rfl, rfl, hwrites.named⟩
  have hlinks₁ := hlinks.chargeFill hi ht fill
  simp only [Audited.fillOrder, OrderBook.fillOrder]
  generalize x.book.chargeFill maker taker fill = b₁ at hcharge hlinks₁ ⊢
  have hi₁ : b₁.orderMap i = some maker := by rw [hcharge.orderMap]; exact hi
  obtain ⟨q, hsame⟩ := hlinks₁.reduceLevel_same hi₁ (b₁.order taker).side.opposite fill
    (decide ((b₁.order maker).remaining = 0))
  generalize b₁.reduceLevel _ maker fill _ = b₂ at hsame ⊢
  have hi₂ : b₂.orderMap i = some maker := by rw [hsame.orderMap]; exact hi₁
  have hsound : Sound { x with book := b₂ } := h.same (hcharge.trans hsame.toSameRegistry)
  obtain ⟨y, hok, hbook, hy⟩ := settleMaker_ends (x := { x with book := b₂ }) hsound
    (hsame.registry hlinks₁.registry) hi₂
  rw [hok, ← hbook]
  refine ⟨_, rfl, rfl, hy.same ?_⟩
  have hwrite := SameRegistry.write y.book taker
    (f := Order.setStatus (fillStatus (y.book.order taker).remaining)) fun _ => rfl
  exact ⟨rfl, rfl, rfl, rfl, hwrite.named⟩

/-- The inner loop gives back makers only, each registered until then. -/
theorem walkLevel_ends {fuel : Nat} (h : x.Sound) (hlinks : Linkage n x.book)
    (ht : x.book.orderMap t = some taker) (hn : n < t) (hcur : cur ≤ n)
    (hplace : ∀ y, x.book.lookup cur = some y →
      y.side = (x.book.order taker).side.opposite) :
    Ends (x.walkLevel fuel taker cur) (x.book.walkLevel fuel taker cur) := by
  induction fuel generalizing x cur with
  | zero => rfl
  | succ fuel ih =>
      rw [Audited.walkLevel, OrderBook.walkLevel]
      split
      · cases hi : x.book.orderMap cur with
        | none => exact .ok h []
        | some maker =>
            obtain ⟨h₁, ht₁, -, hplace', -, -⟩ := fillOrder_turn hlinks ht hn hcur hplace hi
              (min (x.book.order taker).remaining (x.book.order maker).remaining)
            obtain ⟨y, hok, hbook, hy⟩ := fillOrder_ends h hlinks hi ht
              (min (x.book.order taker).remaining (x.book.order maker).remaining)
            dsimp only
            rw [hok]
            generalize x.book.fillOrder maker taker _ = r at h₁ ht₁ hplace' hbook ⊢
            rw [← hbook] at h₁ ht₁ hplace' ⊢
            exact (ih hy h₁ ht₁ (hlinks.next_le (lookup_of_orderMap hi)) hplace').map (r.2 :: ·)
      · exact .ok h []

theorem sweep_ends (freed : TradeId → Price) (fuel : Nat) (h : x.Sound)
    (hlinks : Linkage n x.book) (ht : x.book.orderMap t = some taker) (hn : n < t) :
    Ends (x.sweep freed fuel taker) (x.book.sweep freed fuel taker) := by
  induction fuel generalizing x with
  | zero => rfl
  | succ fuel ih =>
      rw [Audited.sweep, sweep_succ freed fuel rfl]
      dsimp only
      split
      · cases hfirst : (x.book.ladder (x.book.order taker).side.opposite).first? with
        | none => exact .ok h []
        | some entry =>
            obtain ⟨p, lvl⟩ := entry
            dsimp only
            split
            · exact .ok h []
            · have hfind := SortedMap.first?_find hfirst
              have hplace := fun y hy => (hlinks.head (x := y) hfind hy).2.1
              refine (walkLevel_ends h hlinks ht hn (hlinks.ends hfind).1 hplace).bind ?_
              intro y ts hy hwalk
              obtain ⟨h₁, ht₁, -, -⟩ := walkLevel_roster hlinks ht hn (hlinks.ends hfind).1
                hplace hwalk
              obtain ⟨h₂, hmap, hpool, -⟩ := h₁.dropEmpty (x.book.order taker).side.opposite
                (readKey freed y.book (x.book.order taker).side.opposite p)
              have hsound : Sound { y with book := y.book.dropEmpty _ _ } := hy.same
                (b := y.book.dropEmpty (x.book.order taker).side.opposite
                  (readKey freed y.book (x.book.order taker).side.opposite p)) (.dropEmpty _ _ _)
              exact (ih hsound h₂ (by rw [hmap]; exact ht₁)).map (ts ++ ·)
      · exact .ok h []

/-- Each exit of `add_order` gives back the slot of the order just entered. -/
theorem concludeAdd_ends (h : x.Sound) (hlinks : Linkage n x.book)
    (ht : x.book.orderMap t = some o) (type : OrderType) (result : AddResult) :
    Ends (x.concludeAdd o type result) (some (x.book.concludeAdd o type result)) := by
  have hb := hlinks.registry
  have hid : (x.book.order o).id = t := (hb.named (lookup_of_orderMap ht)).1
  obtain ⟨y, hok, hbook, hy⟩ := h.deallocate hb ht (retired_unregister x.book t o)
  rw [Audited.concludeAdd, OrderBook.concludeAdd, hid]
  split_ifs with hcrossed hactive hzero hdropped hlimit
  · rw [hok, ← hbook]
    exact .ok hy _
  · exact .ok h _
  · obtain ⟨y, hok, hbook, hy⟩ := h.deallocate hb ht (retired_filled x.book o hid)
    dsimp only at hok hbook ⊢
    rw [hok, ← hbook]
    exact .ok (hy.same (.emit _ _)) _
  · rw [hok, ← hbook]
    exact .ok (hy.same (.emit _ _)) _
  · obtain ⟨q, hsame⟩ := hlinks.restOrder_same ht
    have hrested : Sound { x with book := x.book.restOrder o } := h.same hsame.toSameRegistry
    exact .ok ((hrested.same (.emit _ _)).same (.emit _ _)) _
  · exact .ok h _

section Entering

variable {pool : MemoryPool Order maxOrders} {order : Order}

/-- The slot handed out was on the free list, hence not on the account. -/
theorem Sound.allocate (h : x.Sound) (hb : Registry x.book)
    (halloc : x.book.orderPool.allocate = some (o, pool)) :
    o ∉ x.allocated ∧ ∀ slot, pool.IsFree slot ∨ slot ∈ insert o x.allocated ↔ slot < maxOrders := by
  obtain ⟨hfree, -, hfrees, -⟩ := MemoryPool.allocate_spec halloc hb.distinct
  constructor
  · intro hmem
    obtain ⟨i, hi⟩ := (h.registered o).mp hmem
    exact hb.held hi hfree
  · intro slot
    rw [hfrees, Finset.mem_insert, ← h.covered slot]
    by_cases heq : slot = o
    · subst heq
      simp [hfree]
    · simp [heq]

theorem Sound.enrolled (h : x.Sound) (hb : Registry x.book)
    (halloc : x.book.orderPool.allocate = some (o, pool))
    (hid : order.id = x.book.orderIdSeq + 1) :
    Sound ⟨(x.book.placeOrder pool o order).enroll order.id o, insert o x.allocated⟩ := by
  obtain ⟨hnew, hcovered⟩ := h.allocate hb halloc
  refine ⟨fun slot => ?_, hcovered⟩
  show slot ∈ insert o x.allocated ↔
    ∃ i, Function.update x.book.orderMap order.id (some o) i = some slot
  rw [Finset.mem_insert, h.registered]
  constructor
  · rintro (rfl | ⟨i, hi⟩)
    · exact ⟨order.id, Function.update_self _ _ _⟩
    · have hle := (hb.named (lookup_of_orderMap hi)).2.2
      have hne : i ≠ order.id := by
        rw [hid]
        exact Nat.ne_of_lt (Nat.lt_succ_of_le hle)
      exact ⟨i, by rwa [Function.update_of_ne hne]⟩
  · rintro ⟨i, hi⟩
    rw [Function.update_apply] at hi
    split at hi
    · exact .inl (Option.some.inj hi).symm
    · exact .inr ⟨i, hi⟩

/-- A rejected FOK order gives its slot back before it is registered. -/
theorem Sound.rejected (h : x.Sound) (hb : Registry x.book)
    (halloc : x.book.orderPool.allocate = some (o, pool)) (order : Order) :
    ∃ y, Audited.deallocate ⟨x.book.placeOrder pool o order, insert o x.allocated⟩ o = .ok y ∧
      y.book = (x.book.placeOrder pool o order).deallocate o ∧ y.Sound := by
  obtain ⟨hnew, hcovered⟩ := h.allocate hb halloc
  obtain ⟨-, hdistinct, hfrees, -⟩ := MemoryPool.allocate_spec halloc hb.distinct
  obtain ⟨-, hback⟩ := MemoryPool.deallocate_spec (fun hf => ((hfrees o).mp hf).2 rfl) hdistinct
  refine ⟨_, deallocate_ok (Finset.mem_insert_self o _) _, rfl, ?_⟩
  rw [Finset.erase_insert hnew]
  refine ⟨h.registered, fun slot => ?_⟩
  rw [← hcovered slot, Finset.mem_insert, ← or_assoc]
  exact or_congr_left (hback slot)

end Entering

theorem addOrder_ends (freed : TradeId → Price) (fuel : Nat) (side : Side) (type : OrderType)
    (price : Price) (qty : Int) (exch : Exchange) (h : x.Sound)
    (hlinks : Linkage x.book.orderIdSeq x.book) :
    Ends (x.addOrder freed fuel side type price qty exch)
      (x.book.addOrder freed fuel side type price qty exch) := by
  rw [Audited.addOrder, OrderBook.addOrder]
  dsimp only
  split
  · exact .ok h _
  · split
    · exact .ok h _
    · cases halloc : x.book.orderPool.allocate with
      | none => exact .ok h _
      | some slot =>
          obtain ⟨o, pool⟩ := slot
          dsimp only
          generalize hx : x.book.newOrder side type price qty exch = order
          have hid : order.id = x.book.orderIdSeq + 1 := by rw [← hx]; rfl
          split
          · obtain ⟨y, hok, hbook, hy⟩ := h.rejected hlinks.registry halloc order
            rw [hok, ← hbook]
            exact .ok hy _
          · have hentered := hlinks.enrolled (Nat.le_refl _) halloc hid
              (by rw [← hx]; rfl) (by rw [← hx]; rfl)
            obtain ⟨-, hmap, -, -⟩ := hlinks.registry.enrolled halloc hid
            have hlt : x.book.orderIdSeq < order.id := by
              rw [hid]
              exact Nat.lt_succ_self _
            have hsweep := sweep_ends freed fuel
              (h.enrolled hlinks.registry halloc hid) hentered hmap hlt
            rw [OrderBook.matchOrder, Option.map_eq_bind]
            refine hsweep.bind fun y ts hy hs => ?_
            obtain ⟨h₁, ht₁, -⟩ := sweep_roster hentered hmap hlt hs
            exact concludeAdd_ends hy h₁ ht₁ type _

theorem retireCancelled_ends (h : x.Sound) (hb : Registry x.book)
    (hi : x.book.orderMap i = some o) :
    ∃ y, x.retireCancelled i o = .ok y ∧ y.book = x.book.retireCancelled i o ∧ y.Sound := by
  have hmem : o ∈ x.allocated := (h.registered o).mpr ⟨i, hi⟩
  have hretired := h.retire hb hi (cancel_retired x.book i o)
  rw [Audited.retireCancelled, deallocate_ok hmem]
  exact ⟨_, rfl, rfl, hretired⟩

theorem cancelOrder_ends (h : x.Sound) (hlinks : Linkage n x.book) (i : OrderId) :
    Ends (x.cancelOrder i) (some (x.book.cancelOrder i)) := by
  rw [Audited.cancelOrder, OrderBook.cancelOrder]
  cases hi : x.book.orderMap i with
  | none => exact .ok h _
  | some o =>
      dsimp only
      split
      · obtain ⟨q, hsame⟩ := hlinks.reduceLevel_same hi (x.book.order o).side
          (x.book.order o).remaining true
        generalize x.book.reduceLevel _ o _ true = b₁ at hsame ⊢
        have hi₁ : b₁.orderMap i = some o := by rw [hsame.orderMap]; exact hi
        obtain ⟨y, hok, hbook, hy⟩ := retireCancelled_ends (x := { x with book := b₁ })
          (h.same hsame.toSameRegistry) (hsame.registry hlinks.registry) hi₁
        rw [hok, ← hbook]
        exact .ok hy _
      · exact .ok h _

theorem modifyOrder_ends (freed : TradeId → Price) (fuel : Nat) (i : OrderId) (newPrice : Price)
    (newQty : Int) (h : x.Sound) (hlinks : Linkage x.book.orderIdSeq x.book) :
    Ends (x.modifyOrder freed fuel i newPrice newQty)
      (x.book.modifyOrder freed fuel i newPrice newQty) := by
  rw [Audited.modifyOrder, OrderBook.modifyOrder]
  cases hi : x.book.orderMap i with
  | none => exact .ok h _
  | some o =>
      obtain ⟨h₁, hcancel⟩ := cancelOrder_roster hlinks i
      have hseq : (x.book.cancelOrder i).1.orderIdSeq = x.book.orderIdSeq :=
        (congrArg Roster.orderIdSeq hcancel).trans (Roster.cancel_orderIdSeq _ _)
      rw [← hseq] at h₁
      obtain ⟨y, hok, hbook, hy⟩ := cancelOrder_ends h hlinks i
      dsimp only
      rw [hok]
      rw [← hbook] at h₁ ⊢
      exact (addOrder_ends _ _ _ _ _ _ _ hy h₁).map fun r : AddResult =>
        { success := r.accepted, newId := r.id, fills := r.fills : ModifyResult }

theorem clear_sound (x : Audited) : x.clear.Sound := by
  constructor
  · intro slot
    constructor
    · intro hmem
      cases hmem
    · rintro ⟨i, hi⟩
      cases hi
  · intro slot
    show (∃ i < maxOrders, i = slot) ∨ slot ∈ (∅ : Finset Slot) ↔ _
    simp

/-! ### Runs -/

/-- A call of the audited book and of the book itself, which returns `w`. -/
theorem Ends.call {r : Except Stop (Audited × α)} {w : Option (OrderBook × α)} (h : Ends r w) :
    (∀ slot, r.map Prod.fst ≠ .error (.notAllocated slot)) ∧
      (∀ y, r.map Prod.fst = .ok y → y.Sound ∧ w.map Prod.fst = some y.book) ∧
      ∀ b, w.map Prod.fst = some b → ∃ y, r.map Prod.fst = .ok y ∧ y.book = b := by
  cases w with
  | none =>
      rw [Ends] at h
      rw [h]
      refine ⟨fun slot hr => ?_, fun y hr => ?_, fun b hb => ?_⟩
      · cases hr
      · cases hr
      · cases hb
  | some w =>
      obtain ⟨y, rfl, hbook, hsound⟩ := h
      refine ⟨fun slot hr => ?_, fun z hr => ?_, fun b hb => ⟨y, rfl, ?_⟩⟩
      · cases hr
      · obtain rfl := Except.ok.inj hr
        exact ⟨hsound, congrArg some hbook.symm⟩
      · exact hbook.trans (Option.some.inj hb)

/-- All runs of public calls with the account kept. -/
def auditedMachine : Machine Audited Call where
  init x := x = {}
  step x c y := ∃ freed fuel, x.call freed fuel c = .ok y

/-- What one call keeps: it stops at no deallocation, and the book goes as it goes without
the account. -/
theorem call_ends (h : x.Sound) (hlinks : Linkage x.book.orderIdSeq x.book) (c : Call) :
    (∀ freed fuel slot, x.call freed fuel c ≠ .error (.notAllocated slot)) ∧
      (∀ y, auditedMachine.step x c y → y.Sound ∧ CallStep x.book c y.book) ∧
      ∀ b, CallStep x.book c b → ∃ y, auditedMachine.step x c y ∧ y.book = b := by
  cases c with
  | add side type price qty exch =>
      have hends := fun freed fuel =>
        (addOrder_ends freed fuel side type price qty.toInt exch h hlinks).call
      refine ⟨fun freed fuel => (hends freed fuel).1, ?_, ?_⟩
      · rintro y ⟨freed, fuel, hy⟩
        obtain ⟨hsound, hadd⟩ := (hends freed fuel).2.1 y hy
        obtain ⟨⟨b, r⟩, hadd, hb⟩ := Option.map_eq_some_iff.mp hadd
        obtain rfl := hb
        exact ⟨hsound, freed, r, fuel, hadd⟩
      · rintro b ⟨freed, r, fuel, hadd⟩
        obtain ⟨y, hy, hbook⟩ := (hends freed fuel).2.2 b (congrArg (Option.map Prod.fst) hadd)
        exact ⟨y, ⟨freed, fuel, hy⟩, hbook⟩
  | cancel i =>
      have hends := (cancelOrder_ends h hlinks i).call
      refine ⟨fun _ _ => hends.1, ?_, ?_⟩
      · rintro y ⟨_, _, hy⟩
        obtain ⟨hsound, hcancel⟩ := hends.2.1 y hy
        exact ⟨hsound, (Option.some.inj hcancel).symm⟩
      · rintro b rfl
        obtain ⟨y, hy, hbook⟩ := hends.2.2 _ rfl
        exact ⟨y, ⟨fun _ => 0, 0, hy⟩, hbook⟩
  | modify i newPrice newQty =>
      have hends := fun freed fuel =>
        (modifyOrder_ends freed fuel i newPrice newQty.toInt h hlinks).call
      refine ⟨fun freed fuel => (hends freed fuel).1, ?_, ?_⟩
      · rintro y ⟨freed, fuel, hy⟩
        obtain ⟨hsound, hmodify⟩ := (hends freed fuel).2.1 y hy
        obtain ⟨⟨b, r⟩, hmodify, hb⟩ := Option.map_eq_some_iff.mp hmodify
        obtain rfl := hb
        exact ⟨hsound, freed, r, fuel, hmodify⟩
      · rintro b ⟨freed, r, fuel, hmodify⟩
        obtain ⟨y, hy, hbook⟩ := (hends freed fuel).2.2 b (congrArg (Option.map Prod.fst) hmodify)
        exact ⟨y, ⟨freed, fuel, hy⟩, hbook⟩
  | clear =>
      refine ⟨fun _ _ slot hy => ?_, ?_, ?_⟩
      · cases hy
      · rintro y ⟨_, _, hy⟩
        obtain rfl := Except.ok.inj hy
        exact ⟨x.clear_sound, rfl⟩
      · rintro b rfl
        exact ⟨x.clear, ⟨fun _ => 0, 0, rfl⟩, rfl⟩

/-- The account is right in every audited run, which is a run of the book. -/
theorem reach_sound (h : auditedMachine.Reach Machine.Any x) :
    x.Sound ∧ bookMachine.Reach Machine.Any x.book := by
  induction h with
  | init h =>
      obtain rfl := h
      exact ⟨.init, .init rfl⟩
  | step _ _ hstep ih =>
      obtain ⟨hsound, hreach⟩ := ih
      obtain ⟨hsound', hcall⟩ := (call_ends hsound (reach_linkage hreach) _).2.1 _ hstep
      exact ⟨hsound', .step hreach trivial hcall⟩

/-- Every run of the book can be audited. -/
theorem reach_audited (h : bookMachine.Reach Machine.Any b) :
    ∃ x, auditedMachine.Reach Machine.Any x ∧ x.book = b := by
  induction h with
  | init h => exact ⟨{}, .init rfl, h.symm⟩
  | step hreach _ hcall ih =>
      obtain ⟨x, hx, rfl⟩ := ih
      obtain ⟨-, -, hsteps⟩ := call_ends (reach_sound hx).1 (reach_linkage hreach) _
      obtain ⟨y, hstep, hbook⟩ := hsteps _ hcall
      exact ⟨y, .step hx trivial hstep, hbook⟩

/-- The slots of the pool are free or allocated, never both, and the allocated ones belong
to one registered order each. -/
structure Disciplined (x : Audited) : Prop where
  freeTop : x.book.orderPool.freeTop ≤ maxOrders
  distinct : x.book.orderPool.FreeDistinct
  disjoint : ∀ slot, x.book.orderPool.IsFree slot → slot ∉ x.allocated
  covered : ∀ slot, x.book.orderPool.IsFree slot ∨ slot ∈ x.allocated ↔ slot < maxOrders
  injective : ∀ i j slot, x.book.orderMap i = some slot → x.book.orderMap j = some slot → i = j
  registered : ∀ slot, slot ∈ x.allocated ↔ ∃ i, x.book.orderMap i = some slot

theorem Sound.disciplined (h : x.Sound) (hb : Registry x.book) : x.Disciplined := by
  refine ⟨?_, hb.distinct, ?_, h.covered, fun i j slot hi hj => hb.inj hi hj, h.registered⟩
  · -- The entries below the top are distinct slots.
    have hcard := Finset.card_le_card_of_injOn x.book.orderPool.freeList
      (s := Finset.range x.book.orderPool.freeTop) (t := Finset.range maxOrders)
      (fun i hi => by
        rw [Finset.coe_range, Set.mem_Iio] at hi
        rw [Finset.coe_range, Set.mem_Iio, ← h.covered]
        exact .inl ⟨i, hi, rfl⟩)
      (fun i hi j hj heq => by
        rw [Finset.coe_range, Set.mem_Iio] at hi hj
        exact hb.distinct i hi j hj heq)
    rwa [Finset.card_range, Finset.card_range] at hcard
  · intro slot hfree hmem
    obtain ⟨i, hi⟩ := (h.registered slot).mp hmem
    exact hb.held hi hfree

/-- The audited runs are the runs of the book. In each, the pool keeps its discipline, no
call gives back a slot that is not allocated, and `add_order` refuses an order when the pool
is exhausted and leaves the book as it is. -/
theorem pool_discipline :
    (∀ b, bookMachine.Reach Machine.Any b ↔
      ∃ x, auditedMachine.Reach Machine.Any x ∧ x.book = b) ∧
    ∀ x, auditedMachine.Reach Machine.Any x → x.Disciplined ∧
      (∀ freed fuel c slot, x.call freed fuel c ≠ .error (.notAllocated slot)) ∧
      (x.book.orderPool.freeTop = 0 → ∀ freed fuel side type price qty exch,
        x.book.addOrder freed fuel side type price qty exch = some (x.book, {})) := by
  constructor
  · intro b
    constructor
    · exact reach_audited
    · rintro ⟨x, hx, rfl⟩
      exact (reach_sound hx).2
  · intro x hx
    obtain ⟨hsound, hreach⟩ := reach_sound hx
    have hlinks := reach_linkage hreach
    refine ⟨hsound.disciplined hlinks.registry,
      fun freed fuel c => (call_ends hsound hlinks c).1 freed fuel, ?_⟩
    intro htop freed fuel side type price qty exch
    rw [OrderBook.addOrder, MemoryPool.allocate_eq_none.mpr htop]
    split
    · rfl
    · split <;> rfl

/-- A call that ends with so much fuel. -/
def callWith (fuel : Nat) (x : Audited) (c : Call) : Option Audited :=
  (x.call (fun _ => 0) fuel c).toOption

theorem step_of_callWith {fuel : Nat} (x : Audited) (c : Call) (y : Audited)
    (h : callWith fuel x c = some y) : auditedMachine.step x c y := by
  refine ⟨fun _ => 0, fuel, ?_⟩
  rw [callWith] at h
  cases hcall : x.call (fun _ => 0) fuel c with
  | error stop =>
      rw [hcall] at h
      cases h
  | ok z =>
      rw [hcall] at h
      exact congrArg Except.ok (Option.some.inj h)

/-- Two orders rest, the first is cancelled, and an order of one fills in part of the second. -/
def addAndCancel : List Call :=
  [.add .buy .limit 100 5 .generic, .add .buy .limit 99 2 .generic, .cancel 1,
    .add .sell .limit 99 1 .generic]

/-- Only the second order has a slot, which is not the last one; that one is free again. -/
theorem pool_discipline_addAndCancel : ∃ x : Audited, x.allocated = {1048574} ∧
    x.book.orderPool.IsFree 1048575 ∧ x.Disciplined ∧
    ∀ freed fuel c slot, x.call freed fuel c ≠ .error (.notAllocated slot) := by
  have hrun : (Machine.replay (callWith 3) (fun _ _ => true) {} addAndCancel).any
      (fun x => x.allocated = {1048574}) = true := by decide
  rw [Option.any_eq_true] at hrun
  obtain ⟨x, hx, hallocated⟩ := hrun
  have hreach : auditedMachine.Reach Machine.Any x :=
    Machine.Reach.replay step_of_callWith (fun _ _ _ => trivial) (.init rfl) hx
  obtain ⟨hdisciplined, hgiven, -⟩ := pool_discipline.2 x hreach
  have hallocated := of_decide_eq_true hallocated
  refine ⟨x, hallocated, ?_, hdisciplined, hgiven⟩
  have hcovered := (hdisciplined.covered 1048575).mpr (by decide)
  rw [hallocated] at hcovered
  exact hcovered.resolve_right (by decide)

end Audited

end NanoVault.Book
