/-
`add_order` on a book that represents given queues.

`addOrder_matched` takes a call from the allocation of the order to the end of matching:
the fills and the queues are those of `sweepLevels`, and the order is registered but
rests nowhere. The `concludeAdd_…` lemmas are the ways the call ends. A POST_ONLY order
that has been filled completely is the one that ends registered although it is gone from
every queue (`concludeAdd_postOnly_filled`).
-/
import NanoVault.Lib.Fuel
import NanoVault.Book.Matching

namespace NanoVault.Book

open Lib OrderBook

variable {b b' : OrderBook} {A : Queues} {side : Side} {type : OrderType} {price : Price}
  {qty : Int} {exch : Exchange} {o : Slot} {tk : Order}

/-! ### Entering the order -/

theorem Represents.lt_of_mem (h : Represents b A) {s : Side} {p : Price} {i : OrderId}
    (hi : i ∈ ids (A s p)) : i < b.orderIdSeq + 1 := by
  obtain ⟨o, ho⟩ := Option.isSome_iff_exists.mp ((h.allRest s p).isSome hi)
  exact Nat.lt_succ_of_le (h.registry.named ho).2.2

section Place

variable {pool : MemoryPool Order maxOrders}

theorem placeOrder_order (halloc : b.orderPool.allocate = some (o, pool))
    (hb : Registry b) (x : Order) {i : OrderId} {slot : Slot} (hi : b.orderMap i = some slot) :
    slot ≠ o ∧ (b.placeOrder pool o x).order slot = b.order slot := by
  obtain ⟨hfree, -, -, hstorage⟩ := MemoryPool.allocate_spec halloc hb.distinct
  have hne : slot ≠ o := fun heq => hb.held hi (heq ▸ hfree)
  exact ⟨hne, (order_write_ne _ _ hne).trans (hstorage slot hne)⟩

theorem placeOrder_lookup (halloc : b.orderPool.allocate = some (o, pool)) (hb : Registry b)
    (x : Order) : (b.placeOrder pool o x).lookup = b.lookup := by
  funext i
  show (b.orderMap i).map _ = (b.orderMap i).map _
  cases hi : b.orderMap i with
  | none => rfl
  | some slot => exact congrArg some (placeOrder_order halloc hb x hi).2

/-- A rejected FOK order has used up an id and nothing else. -/
theorem Registry.rejected (hb : Registry b) (halloc : b.orderPool.allocate = some (o, pool))
    (x : Order) : Registry ((b.placeOrder pool o x).deallocate o) := by
  obtain ⟨hfree, hdistinct, hfrees, -⟩ := MemoryPool.allocate_spec halloc hb.distinct
  have hlookup : ((b.placeOrder pool o x).deallocate o).lookup = b.lookup :=
    placeOrder_lookup halloc hb x
  obtain ⟨hdistinct', hfrees'⟩ := MemoryPool.deallocate_spec
    (fun hf => ((hfrees o).mp hf).2 rfl) hdistinct
  refine ⟨hb.inj, fun {i slot} hi hf => ?_, hdistinct', fun {i y} hi => ?_⟩
  · rcases (hfrees' slot).mp hf with hf | rfl
    · exact hb.held hi ((hfrees slot).mp hf).1
    · exact hb.held hi hfree
  · rw [hlookup] at hi
    obtain ⟨hid, hpos, hle⟩ := hb.named hi
    exact ⟨hid, hpos, Nat.le_succ_of_le hle⟩

theorem Represents.rejected (h : Represents b A) (halloc : b.orderPool.allocate = some (o, pool))
    (x : Order) : Represents ((b.placeOrder pool o x).deallocate o) A := by
  have hlookup : ((b.placeOrder pool o x).deallocate o).lookup = b.lookup :=
    placeOrder_lookup halloc h.registry x
  exact ⟨h.registry.rejected halloc x, fun s p => (h.level s p).congr rfl fun _ _ => by
    rw [hlookup]⟩

/-- The new order is registered beside the others. -/
theorem Registry.enrolled (hb : Registry b) (halloc : b.orderPool.allocate = some (o, pool))
    {x : Order} (hx : x.id = b.orderIdSeq + 1) :
    let b₁ := (b.placeOrder pool o x).enroll x.id o
    Registry b₁ ∧ b₁.orderMap x.id = some o ∧ b₁.order o = x ∧
      ∀ j, j ≠ x.id → b₁.lookup j = b.lookup j := by
  obtain ⟨hfree, hdistinct, hfrees, -⟩ := MemoryPool.allocate_spec halloc hb.distinct
  have hmap : ∀ j, ((b.placeOrder pool o x).enroll x.id o).orderMap j =
      if j = x.id then some o else b.orderMap j := fun j => by
    show Function.update b.orderMap x.id (some o) j = _
    rw [Function.update_apply]
  have horder : ((b.placeOrder pool o x).enroll x.id o).order o = x :=
    order_write_self { b with orderPool := pool, orderIdSeq := b.orderIdSeq + 1 } o fun _ => x
  have hlookup : ∀ j, j ≠ x.id →
      ((b.placeOrder pool o x).enroll x.id o).lookup j = b.lookup j := fun j hj => by
    rw [OrderBook.lookup, hmap, if_neg hj]
    exact congrFun (placeOrder_lookup halloc hb x) j
  have hself : ((b.placeOrder pool o x).enroll x.id o).lookup x.id = some x := by
    rw [OrderBook.lookup, hmap, if_pos rfl, Option.map_some, horder]
  have hslot : ∀ {j slot}, b.orderMap j = some slot → slot ≠ o := fun hj =>
    (placeOrder_order halloc hb x hj).1
  refine ⟨⟨fun {i j slot} hi hj => ?_, fun {i slot} hi hf => ?_, hdistinct, fun {i y} hi => ?_⟩,
    by rw [hmap, if_pos rfl], horder, hlookup⟩
  · rw [hmap] at hi hj
    split at hi <;> split at hj
    · next h₁ h₂ => rw [h₁, h₂]
    · cases hi
      exact absurd rfl (hslot hj)
    · cases hj
      exact absurd rfl (hslot hi)
    · exact hb.inj hi hj
  · rw [hmap] at hi
    split at hi
    · cases hi
      exact ((hfrees o).mp hf).2 rfl
    · exact hb.held hi ((hfrees slot).mp hf).1
  · show y.id = i ∧ 0 < i ∧ i ≤ b.orderIdSeq + 1
    by_cases hi' : i = x.id
    · rw [hi', hself, Option.some.injEq] at hi
      subst hi
      exact ⟨hi'.symm, by rw [hi', hx]; exact Nat.succ_pos _, Nat.le_of_eq (hi'.trans hx)⟩
    · rw [hlookup i hi'] at hi
      obtain ⟨hid, hpos, hle⟩ := hb.named hi
      exact ⟨hid, hpos, Nat.le_succ_of_le hle⟩

/-- Once registered, the order is a taker on unchanged queues. -/
theorem Represents.enrolled (h : Represents b A) (halloc : b.orderPool.allocate = some (o, pool))
    {x : Order} (hx : x.id = b.orderIdSeq + 1) :
    let b₁ := (b.placeOrder pool o x).enroll x.id o
    Represents b₁ A ∧ Taker b₁ A o x ∧ ∀ j, j ≠ x.id → b₁.lookup j = b.lookup j := by
  obtain ⟨hregistry, hmap, horder, hlookup⟩ := h.registry.enrolled halloc hx
  have hnew : ∀ s p, x.id ∉ ids (A s p) := fun s p hmem =>
    Nat.lt_irrefl _ (hx ▸ h.lt_of_mem hmem)
  exact ⟨⟨hregistry, fun s p => (h.level s p).congr rfl fun j hj =>
    hlookup j fun heq => hnew s p (heq ▸ hj)⟩, ⟨hmap, horder, hnew⟩, hlookup⟩

end Place

/-! ### Matching it -/

/-- A call that fails a check, or finds no free slot, changes nothing. -/
theorem addOrder_refused (freed : TradeId → Price) (fuel : Nat) (b : OrderBook) (side : Side)
    (exch : Exchange)
    (h : qty ≤ 0 ∨ type = .limit ∧ price ≤ 0 ∨ b.orderPool.freeTop = 0) :
    b.addOrder freed fuel side type price qty exch = some (b, {}) := by
  rw [addOrder]
  split
  · rfl
  · next hqty =>
      split
      · rfl
      · next hprice =>
          have hnone := MemoryPool.allocate_eq_none.mpr ((h.resolve_left hqty).resolve_left hprice)
          rw [hnone]

/-- A FOK order that cannot be filled gives its slot back. -/
theorem addOrder_unfillable (freed : TradeId → Price) (fuel : Nat)
    {pool : MemoryPool Order maxOrders} (hqty : 0 < qty)
    (halloc : b.orderPool.allocate = some (o, pool))
    (hfill : b.canFillFok side price qty = false) :
    b.addOrder freed fuel side .fok price qty exch =
      some ((b.placeOrder pool o (b.newOrder side .fok price qty exch)).deallocate o, {}) := by
  have hfill : (b.placeOrder pool o (b.newOrder side .fok price qty exch)).canFillFok side price
      qty = false := hfill
  rw [addOrder, if_neg (Int.not_le.mpr hqty), if_neg (by simp), halloc]
  exact if_pos ⟨rfl, hfill⟩

/-- What the order meets: the fills, and the opposite levels they leave. -/
def outcome (b : OrderBook) (A : Queues) (side : Side) (type : OrderType) (price : Price)
    (qty : Int) : List Fill × List (Price × Queue) :=
  sweepLevels (side.beyond (entryPrice side type price)) (levels b A side.opposite) qty

/-- The fills amount to at most the quantity of the order. -/
theorem outcome_filled (h : Represents b A) (side : Side) (type : OrderType) (price : Price)
    (hqty : 0 < qty) :
    0 ≤ filled (outcome b A side type price qty).1 ∧
      filled (outcome b A side type price qty).1 ≤ qty := by
  refine sweepLevels_filled (fun l hl x hx => ?_) (Int.le_of_lt hqty)
  rw [mem_levels hl] at hx
  exact Int.le_of_lt (h.positive hx)

/-- A book in which the new order has been matched and is still registered in `o`. -/
structure Matched (b b₂ : OrderBook) (A A₂ : Queues) (tk : Order) (o : Slot) (ts : List Trade)
    (w : List Fill × List (Price × Queue)) : Prop where
  represents : Represents b₂ A₂
  taker : Taker b₂ A₂ o (tk.afterFills w.1)
  fills : ts.map Trade.toFill = w.1
  levels : levels b₂ A₂ tk.side.opposite = w.2
  own : A₂ tk.side = A tk.side
  orderIdSeq : b₂.orderIdSeq = b.orderIdSeq + 1
  others : ∀ j, j ≠ tk.id → (∀ p, j ∉ ids (A tk.side.opposite p)) → b₂.lookup j = b.lookup j
  kept : Kept b b₂ A A₂ tk.id

/-- An order just entered is matched as `sweepLevels` says. -/
theorem entered_matched (freed : TradeId → Price) {fuel : Nat} {pool : MemoryPool Order maxOrders}
    (h : Represents b A) (halloc : b.orderPool.allocate = some (o, pool)) (side : Side)
    (type : OrderType) (price : Price) (qty : Int) (exch : Exchange)
    (hfuel : sweepCost (levels b A side.opposite) < fuel) :
    ∃ b₂ A₂ ts,
      sweep freed fuel ((b.placeOrder pool o (b.newOrder side type price qty exch)).enroll
        (b.orderIdSeq + 1) o) o = some (b₂, ts) ∧
      Matched b b₂ A A₂ (b.newOrder side type price qty exch) o ts
        (outcome b A side type price qty) := by
  obtain ⟨hrep, htaker, hothers⟩ := h.enrolled (x := b.newOrder side type price qty exch) halloc rfl
  obtain ⟨b₂, ts, A₂, hsweep, hfills, hlevels, hown, hmatched⟩ :=
    sweep_spec freed hrep htaker (show levels _ A side.opposite = levels b A side.opposite from rfl)
      hfuel
  refine ⟨b₂, A₂, ts, hsweep, hmatched.represents, hmatched.taker, hfills, hlevels, hown,
    hmatched.orderIdSeq, fun j hj hnot => ?_, (Kept.of_lookup A hothers).trans hmatched.kept⟩
  rw [hmatched.others j hj (fun ⟨p, hmem⟩ => hnot p hmem), hothers j hj]

/-- An order that passes the checks is matched, and what remains of the call is its
conclusion. -/
theorem addOrder_matched (freed : TradeId → Price) {fuel : Nat} (side : Side) (exch : Exchange)
    (h : Represents b A)
    (hqty : 0 < qty) (hprice : type = .limit → 0 < price) (hslot : b.orderPool.freeTop ≠ 0)
    (hfok : type = .fok → b.canFillFok side (entryPrice side type price) qty = true)
    (hfuel : sweepCost (levels b A side.opposite) < fuel) :
    ∃ o b₂ A₂ ts,
      b.addOrder freed fuel side type price qty exch =
        some (b₂.concludeAdd o type { id := b.orderIdSeq + 1, accepted := true, fills := ts }) ∧
      Matched b b₂ A A₂ (b.newOrder side type price qty exch) o ts
        (outcome b A side type price qty) := by
  obtain ⟨⟨o, pool⟩, halloc⟩ := Option.ne_none_iff_exists'.mp
    fun hnone => hslot (MemoryPool.allocate_eq_none.mp hnone)
  obtain ⟨b₂, A₂, ts, hsweep, hmatched⟩ := entered_matched freed h halloc side type price qty exch
    hfuel
  refine ⟨o, b₂, A₂, ts, ?_, hmatched⟩
  have hcan : ¬ (type = .fok ∧
      (b.placeOrder pool o (b.newOrder side type price qty exch)).canFillFok side
        (entryPrice side type price) qty = false) := fun hc => by
    have hfill := hfok hc.1
    rw [show b.canFillFok = (b.placeOrder pool o
      (b.newOrder side type price qty exch)).canFillFok from rfl, hc.2] at hfill
    cases hfill
  rw [addOrder, if_neg (Int.not_le.mpr hqty),
    if_neg fun hc => Int64.not_lt.mpr hc.2 (hprice hc.1), halloc]
  exact (if_neg hcan).trans (congrArg (Option.map _) hsweep)

/-! ### More fuel -/

theorem walkLevel_succ {taker : Slot} {fuel : Nat} {cur : OrderId} {w : OrderBook × List Trade}
    (h : walkLevel fuel b taker cur = some w) : walkLevel (fuel + 1) b taker cur = some w := by
  induction fuel generalizing b cur w with
  | zero => cases h
  | succ fuel ih =>
      rw [walkLevel] at h ⊢
      split at h
      · next hcond =>
          rw [if_pos hcond]
          split at h
          · exact h
          · next maker _ =>
              obtain ⟨w', hw', rfl⟩ := Option.map_eq_some_iff.mp h
              simp only [ih hw', Option.map_some]
      · next hcond => rw [if_neg hcond]; exact h

theorem sweep_mono (freed : TradeId → Price) (b : OrderBook) (taker : Slot) :
    FuelMono fun fuel => sweep freed fuel b taker := by
  refine .of_succ fun fuel w h => ?_
  induction fuel generalizing b w with
  | zero => cases h
  | succ fuel ih =>
      rw [sweep_succ freed _ rfl] at h ⊢
      split at h
      · next hrem =>
          rw [if_pos hrem]
          split at h
          · exact h
          · next p lvl _ =>
              split at h
              · next hbeyond => simp only [hbeyond, if_true]; exact h
              · next hbeyond =>
                  obtain ⟨w₁, hw₁, h⟩ := Option.bind_eq_some_iff.mp h
                  obtain ⟨w₂, hw₂, rfl⟩ := Option.map_eq_some_iff.mp h
                  simp only [hbeyond, walkLevel_succ hw₁, Option.bind_some, ih _ _ hw₂,
                    Option.map_some,
                    Bool.false_eq_true, if_false]
      · next hrem => rw [if_neg hrem]; exact h

theorem addOrder_mono (freed : TradeId → Price) (b : OrderBook) (side : Side) (type : OrderType)
    (price : Price) (qty : Int) (exch : Exchange) :
    FuelMono fun fuel => b.addOrder freed fuel side type price qty exch := by
  unfold addOrder
  split
  · exact .const _
  · split
    · exact .const _
    · split
      · exact .const _
      · dsimp only
        split
        · exact .const _
        · exact (sweep_mono _ _ _).map _

/-- A matched order with something left is still active. -/
theorem afterFills_active {tk : Order} (fs : List Fill) (htk : tk.status = .new)
    (hrem : (tk.afterFills fs).remaining ≠ 0) : (tk.afterFills fs).isActive = true := by
  rw [Order.afterFills_remaining] at hrem
  rw [Order.afterFills, Order.isActive]
  split
  · rw [htk]
    rfl
  · simp [Order.afterFill, Order.setStatus, fillStatus, hrem]

/-! ### The ways a call ends -/

theorem Represents.emit (h : Represents b A) (e : Event) : Represents (b.emit e) A :=
  h.congr ⟨rfl, rfl, rfl, rfl, fun _ => rfl⟩ rfl rfl

section Conclude

variable {result : AddResult}

/-- The queues and the remaining orders after the taker has been unregistered. -/
structure Gone (b b' : OrderBook) (A : Queues) (i : OrderId) : Prop where
  represents : Represents b' A
  lookup : ∀ j, b'.lookup j = if j = i then none else b.lookup j
  orderIdSeq : b'.orderIdSeq = b.orderIdSeq

theorem Taker.gone (h : Represents b A) (ht : Taker b A o tk) (hb' : Retired b b' tk.id o) :
    Gone b b' A tk.id :=
  ⟨h.retire hb' ht.registered ht.apart, hb'.lookup h.registry ht.registered, hb'.orderIdSeq⟩

/-- An order filled completely is retired. -/
theorem concludeAdd_filled (result : AddResult) (h : Represents b A) (ht : Taker b A o tk)
    (hrem : tk.remaining = 0) (hpost : ¬ (type = .postOnly ∧ result.fills ≠ [])) :
    ∃ b', b.concludeAdd o type result = (b', result) ∧ Gone b b' A tk.id := by
  rw [concludeAdd, if_neg hpost, if_pos (by rw [ht.order]; exact hrem)]
  refine ⟨_, rfl, ht.gone h ⟨rfl, ?_, rfl, rfl, fun slot hslot => order_write_ne b _ hslot, rfl⟩⟩
  show Function.update b.orderMap ((b.write o _).order o).id none = _
  rw [order_write_self, ht.order]
  rfl

/-- What is left of an IOC or FOK order is dropped. -/
theorem concludeAdd_dropped (result : AddResult) (h : Represents b A) (ht : Taker b A o tk)
    (hrem : tk.remaining ≠ 0)
    (htype : type = .ioc ∨ type = .fok) :
    ∃ b', b.concludeAdd o type result = (b', result) ∧ Gone b b' A tk.id := by
  have hpost : ¬ (type = .postOnly ∧ result.fills ≠ []) := by
    rcases htype with rfl | rfl <;> simp
  rw [concludeAdd, if_neg hpost, if_neg (by rw [ht.order]; exact hrem), if_pos htype]
  refine ⟨_, rfl, ht.gone h ⟨rfl, ?_, rfl, rfl, fun _ _ => rfl, rfl⟩⟩
  show Function.update b.orderMap (b.order o).id none = _
  rw [ht.order]

/-- A POST_ONLY order that has crossed is rejected after its fills; with something left of
it, it is unregistered. -/
theorem concludeAdd_crossed (h : Represents b A) (ht : Taker b A o tk)
    (hfills : result.fills ≠ []) (hactive : tk.isActive = true) :
    ∃ b', b.concludeAdd o .postOnly result = (b', { result with accepted := false, fills := [] }) ∧
      Gone b b' A tk.id := by
  rw [concludeAdd, if_pos ⟨rfl, hfills⟩, if_pos (by rw [ht.order]; exact hactive)]
  refine ⟨_, rfl, ht.gone h ⟨rfl, ?_, rfl, rfl, fun _ _ => rfl, rfl⟩⟩
  show Function.update b.orderMap (b.order o).id none = _
  rw [ht.order]

/-- A POST_ONLY order that has been filled completely stays registered. -/
theorem concludeAdd_leaked (ht : Taker b A o tk) (hfills : result.fills ≠ [])
    (hactive : tk.isActive = false) :
    b.concludeAdd o .postOnly result = (b, { result with accepted := false, fills := [] }) := by
  rw [concludeAdd, if_pos ⟨rfl, hfills⟩, if_neg (by rw [ht.order, hactive]; decide)]

/-- A MARKET order with something left, and a POST_ONLY order that has not crossed, stay
registered and rest nowhere. -/
theorem concludeAdd_registered (result : AddResult) (ht : Taker b A o tk) (hrem : tk.remaining ≠ 0)
    (htype : type = .market ∨ type = .postOnly ∧ result.fills = []) :
    b.concludeAdd o type result = (b, result) := by
  have hpost : ¬ (type = .postOnly ∧ result.fills ≠ []) := by
    rcases htype with rfl | ⟨-, hfills⟩
    · simp
    · exact fun hc => hc.2 hfills
  rw [concludeAdd, if_neg hpost, if_neg (by rw [ht.order]; exact hrem)]
  rcases htype with rfl | ⟨rfl, -⟩ <;> simp

/-- What is left of a LIMIT order rests behind the last order at its price. -/
theorem concludeAdd_rested (result : AddResult) (h : Represents b A) (ht : Taker b A o tk)
    (hrem : 0 < tk.remaining)
    (htype : tk.type = .limit) (hactive : tk.isActive = true)
    (hlast : ∀ j ∈ ids (A tk.side tk.price), j < tk.id) :
    ∃ b', b.concludeAdd o .limit result = (b', result) ∧
      Represents b' (A.set tk.side tk.price (A tk.side tk.price ++ [⟨tk.id, tk.remaining⟩])) ∧
      (∀ j, (b'.lookup j).map Order.unlinked = (b.lookup j).map Order.unlinked) ∧
      b'.orderPool.freeTop = b.orderPool.freeTop := by
  obtain ⟨hrep, hsame⟩ := h.putLast ht.registered (r := tk.remaining) (s := tk.side)
    (p := tk.price) (by rw [ht.order]; exact ⟨rfl, hrem, rfl, rfl, htype, hactive⟩) hlast
  rw [concludeAdd, if_neg (by simp), if_neg (by rw [ht.order]; exact Int.ne_of_gt hrem),
    if_neg (by simp), if_pos rfl]
  exact ⟨_, rfl, (hrep.emit _).emit _, hsame.payload, hsame.freeTop⟩

/-- An order of this type, with these fills and this much left, stays registered without
resting. -/
def Lingers (type : OrderType) (fs : List Fill) (remaining : Int) : Prop :=
  type = .market ∧ remaining ≠ 0 ∨ type = .postOnly ∧ (fs = [] ∨ remaining = 0)

/-- What the end of a call makes of the order `x`: it is gone, or lingers, or rests. -/
inductive Concluded (b : OrderBook) (A : Queues) (x : Order) (type : OrderType)
    (fs : List Fill) : OrderBook → Queues → Prop
  | gone {b' : OrderBook} : ¬ Lingers type fs x.remaining → Gone b b' A x.id →
      Concluded b A x type fs b' A
  | lingers : Lingers type fs x.remaining → Concluded b A x type fs b A
  | rested {b' : OrderBook} : type = .limit → 0 < x.remaining →
      Represents b' (A.set x.side x.price (A x.side x.price ++ [⟨x.id, x.remaining⟩])) →
      (∀ j, (b'.lookup j).map Order.unlinked = (b.lookup j).map Order.unlinked) →
      (∀ j, j ∉ x.id :: ids (A x.side x.price) → b'.lookup j = b.lookup j) →
      Concluded b A x type fs b' (A.set x.side x.price (A x.side x.price ++ [⟨x.id, x.remaining⟩]))

/-- A filled order is not active any more. -/
theorem afterFills_inactive {fs : List Fill} (hfs : fs ≠ []) (hrem : (tk.afterFills fs).remaining = 0) :
    (tk.afterFills fs).isActive = false := by
  rw [Order.afterFills_remaining] at hrem
  rw [Order.afterFills, if_neg hfs]
  simp [Order.afterFill, Order.setStatus, Order.isActive, fillStatus, hrem]

theorem concludeAdd_concluded {fs : List Fill} {x : Order} (h : Represents b A)
    (hx : tk.afterFills fs = x) (ht : Taker b A o x) (hstatus : tk.status = .new)
    (htype : tk.type = type) (hqty : tk.remaining ≠ 0) (hrem : 0 ≤ x.remaining)
    (hfills : result.fills = [] ↔ fs = [])
    (hlast : ∀ j ∈ ids (A x.side x.price), j < x.id) :
    ∃ b' A' r, b.concludeAdd o type result = (b', r) ∧ Concluded b A x type fs b' A' := by
  have hxtype : x.type = type := by rw [← hx, Order.afterFills_type, htype]
  have hactive : x.remaining ≠ 0 → x.isActive = true := by
    rw [← hx]
    exact afterFills_active fs hstatus
  by_cases hcrossed : type = .postOnly ∧ fs ≠ []
  · obtain ⟨rfl, hfs⟩ := hcrossed
    have hresult := fun heq => hfs (hfills.mp heq)
    by_cases hzero : x.remaining = 0
    · have hinactive : x.isActive = false := by
        rw [← hx] at hzero ⊢
        exact afterFills_inactive hfs hzero
      exact ⟨b, A, _, concludeAdd_leaked ht hresult hinactive, .lingers (.inr ⟨rfl, .inr hzero⟩)⟩
    · obtain ⟨b', hconclude, hgone⟩ := concludeAdd_crossed h ht hresult (hactive hzero)
      refine ⟨b', A, _, hconclude, .gone ?_ hgone⟩
      rintro (⟨hc, -⟩ | ⟨-, hc | hc⟩)
      · cases hc
      · exact hfs hc
      · exact hzero hc
  · have hpost : ¬ (type = .postOnly ∧ result.fills ≠ []) := fun hc =>
      hcrossed ⟨hc.1, fun heq => hc.2 (hfills.mpr heq)⟩
    by_cases hzero : x.remaining = 0
    · obtain ⟨b', hconclude, hgone⟩ := concludeAdd_filled result h ht hzero hpost
      refine ⟨b', A, _, hconclude, .gone ?_ hgone⟩
      rintro (⟨-, hc⟩ | ⟨hc, -⟩)
      · exact hc hzero
      · have hfs : fs = [] := by
          by_contra hne
          exact hcrossed ⟨hc, hne⟩
        rw [hfs, Order.afterFills_nil] at hx
        exact hqty (hx ▸ hzero)
    · have hdropped : type = .ioc ∨ type = .fok →
          ∃ b' A' r, b.concludeAdd o type result = (b', r) ∧ Concluded b A x type fs b' A' := by
        intro hc
        obtain ⟨b', hconclude, hgone⟩ := concludeAdd_dropped result h ht hzero hc
        refine ⟨b', A, _, hconclude, .gone ?_ hgone⟩
        rcases hc with rfl | rfl <;> simp [Lingers]
      cases type with
      | limit =>
          have hleft : 0 < x.remaining := lt_of_le_of_ne hrem (Ne.symm hzero)
          obtain ⟨hrep, hsame⟩ := h.putLast ht.registered (r := x.remaining) (s := x.side)
            (p := x.price) (by
              rw [ht.order]
              exact ⟨rfl, hleft, rfl, rfl, hxtype, hactive hzero⟩) hlast
          have hconclude : b.concludeAdd o .limit result = (((b.restOrder o).emit
              (.onOrderAdded ((b.restOrder o).order o))).notifyBbo, result) := by
            rw [concludeAdd, if_neg (by simp), if_neg (by rw [ht.order]; exact hzero),
              if_neg (by simp), if_pos rfl]
          exact ⟨_, _, result, hconclude,
            .rested rfl hleft ((hrep.emit _).emit _) hsame.payload hsame.others⟩
      | market =>
          exact ⟨b, A, _, concludeAdd_registered result ht hzero (.inl rfl),
            .lingers (.inl ⟨rfl, hzero⟩)⟩
      | ioc => exact hdropped (.inl rfl)
      | fok => exact hdropped (.inr rfl)
      | postOnly =>
          have hfs : fs = [] := by
            by_contra hne
            exact hcrossed ⟨rfl, hne⟩
          exact ⟨b, A, _, concludeAdd_registered result ht hzero (.inr ⟨rfl, hfills.mpr hfs⟩),
            .lingers (.inr ⟨rfl, .inl hfs⟩)⟩

end Conclude

/-! ### Out of reach -/

theorem sweep_out_of_reach (freed : TradeId → Price) (fuel : Nat) (h : Represents b A)
    (ht : Taker b A o tk)
    (hout : ∀ p, A tk.side.opposite p ≠ [] → tk.side.beyond tk.price p = true) :
    sweep freed (fuel + 1) b o = some (b, []) := by
  rw [sweep_succ freed fuel ht.order]
  split
  · split
    · rfl
    · next p lvl hfirst =>
        have hok := h.levelOk_of_find (SortedMap.first?_find hfirst)
        rw [if_pos (hout p hok.nonempty)]
  · rfl

/-- A LIMIT order that reaches no opposite level joins its own level, and takes one slot. -/
theorem addOrder_joins (freed : TradeId → Price) (fuel : Nat) (exch : Exchange)
    (h : Represents b A) (hqty : 0 < qty) (hprice : 0 < price) (hslot : b.orderPool.freeTop ≠ 0)
    (hout : ∀ p, A side.opposite p ≠ [] → side.beyond price p = true) :
    ∃ b' r, b.addOrder freed (fuel + 1) side .limit price qty exch = some (b', r) ∧
      Represents b' (A.set side price (A side price ++ [⟨b.orderIdSeq + 1, qty⟩])) ∧
      b'.orderPool.freeTop = b.orderPool.freeTop - 1 := by
  obtain ⟨⟨o, pool⟩, halloc⟩ := Option.ne_none_iff_exists'.mp
    fun hnone => hslot (MemoryPool.allocate_eq_none.mp hnone)
  obtain ⟨hrep, htaker, -⟩ := h.enrolled (x := b.newOrder side .limit price qty exch) halloc rfl
  have hsweep := sweep_out_of_reach freed fuel hrep htaker hout
  obtain ⟨b', hconclude, hrep', -, hfree⟩ := concludeAdd_rested
    { id := b.orderIdSeq + 1, accepted := true, fills := [] } hrep htaker hqty rfl rfl
    fun j hj => h.lt_of_mem hj
  have hpool := MemoryPool.allocate_freeTop halloc
  have hfree' : b'.orderPool.freeTop = b.orderPool.freeTop - 1 := hfree.trans hpool
  refine ⟨b', { id := b.orderIdSeq + 1, accepted := true, fills := [] }, ?_, hrep', hfree'⟩
  rw [addOrder, if_neg (Int.not_le.mpr hqty), if_neg fun hc => Int64.not_lt.mpr hc.2 hprice,
    halloc]
  exact (if_neg (by simp)).trans ((congrArg (Option.map _) hsweep).trans
    (congrArg some hconclude))

end NanoVault.Book
