/-
FOK orders.

`can_fill_fok` adds up the totals of the levels within the limit, best price first, and stops
at the first sum that suffices. As long as the sums it forms fit into an `int64_t`, it answers
whether the orders within the limit amount to the quantity (`canFillFok_eq`). The sweep then
takes from the orders themselves what the check found in the totals, so that an FOK order is
filled completely or leaves nothing behind (`fok_all_or_nothing`).
-/
import NanoVault.Book.PriceTime
import NanoVault.Book.Residents

namespace NanoVault.Book

open Lib OrderBook

variable {b : OrderBook} {A : Queues} {s side : Side} {price p : Price} {qty r : Int} {q : Queue}

/-- The sums `can_fill_fok` forms from `avail` on fit into an `int64_t`. -/
def SumsFit (beyond : Price → Bool) (qty : Int) : List (Price × Queue) → Int → Prop
  | [], _ => True
  | (p, q) :: ls, avail =>
      beyond p = true ∨ avail + volume q < 2 ^ 63 ∧
        (qty ≤ avail + volume q ∨ SumsFit beyond qty ls (avail + volume q))

/-- The quantity an FOK order of this side finds at the prices it may trade at. -/
def eligible (b : OrderBook) (A : Queues) (side : Side) (price : Price) : Int :=
  reached (side.beyond price) (levels b A side.opposite)

/-- The order has been accepted and filled, at no price worse than its limit. -/
structure FilledWhole (side : Side) (price : Price) (qty : Int) (result : AddResult) : Prop where
  accepted : result.accepted = true
  fills : (result.fills.map Trade.qty).sum = qty
  within : ∀ t ∈ result.fills, side.beyond price t.price = false

/-- The order has been rejected, and nothing has changed but the last order id. -/
structure Killed (b b' : OrderBook) (result : AddResult) : Prop where
  rejected : result.accepted = false
  fills : result.fills = []
  ladder : b'.ladder = b.ladder
  orderMap : b'.orderMap = b.orderMap
  freeList : b'.orderPool.freeList = b.orderPool.freeList
  freeTop : b'.orderPool.freeTop = b.orderPool.freeTop
  stats : b'.stats = b.stats

/-! ### The check -/

theorem canFillFokLoop_eq {es : List (Price × PriceLevel)} {avail : Int}
    (htotal : ∀ e ∈ es, e.2.totalQty = wrap64 (volume (A s e.1)))
    (hpos : ∀ l ∈ es.map fun e => (e.1, A s e.1), ∀ x ∈ l.2, 0 < x.remaining)
    (hsorted : (es.map fun e => (e.1, A s e.1)).Pairwise fun l l' =>
      side.beyond price l.1 = true → side.beyond price l'.1 = true)
    (havail : 0 ≤ avail)
    (hfit : SumsFit (side.beyond price) qty (es.map fun e => (e.1, A s e.1)) avail) :
    canFillFokLoop side price qty es avail =
      decide (qty ≤ avail + reached (side.beyond price) (es.map fun e => (e.1, A s e.1))) := by
  induction es generalizing avail with
  | nil => simp [canFillFokLoop, reached]
  | cons e es ih =>
      obtain ⟨p, lvl⟩ := e
      rw [List.map_cons] at hpos hsorted hfit ⊢
      dsimp only at hpos hsorted hfit ⊢
      obtain ⟨hfirst, hrest⟩ := List.pairwise_cons.mp hsorted
      have htail := fun l hl => hpos l (List.mem_cons_of_mem _ hl)
      have hv : 0 ≤ volume (A s p) := volume_nonneg (hpos (p, A s p) List.mem_cons_self)
      have hbehind : 0 ≤ reached (side.beyond price) (es.map fun e => (e.1, A s e.1)) :=
        reached_nonneg htail
      rw [canFillFokLoop]
      by_cases hbeyond : side.beyond price p = true
      · rw [if_pos hbeyond, reached_beyond hfirst hbeyond, Int.add_zero]
      · obtain ⟨hsum, hnext⟩ := hfit.resolve_left hbeyond
        have hlvl : lvl.totalQty = wrap64 (volume (A s p)) := htotal (p, lvl) List.mem_cons_self
        rw [wrap64_of_range (by omega) (by omega)] at hlvl
        have hexact : wrap64 (avail + lvl.totalQty) = avail + volume (A s p) := by
          rw [hlvl, wrap64_of_range (by omega) hsum]
        rw [if_neg hbeyond, hexact, reached_cons hbeyond]
        by_cases henough : qty ≤ avail + volume (A s p)
        · rw [if_pos henough]
          exact (decide_eq_true (by omega)).symm
        · rw [if_neg henough, ih (fun e he => htotal e (List.mem_cons_of_mem _ he)) htail hrest
            (by omega) (hnext.resolve_left henough), Int.add_assoc]

/-- The check finds out whether the orders within the limit amount to the quantity. -/
theorem canFillFok_eq (h : Represents b A)
    (hfit : SumsFit (side.beyond price) qty (levels b A side.opposite) 0) :
    b.canFillFok side price qty = decide (qty ≤ eligible b A side price) := by
  have hlevels : levels b A side.opposite =
      (b.ladder side.opposite).entries.map fun e => (e.1, A side.opposite e.1) :=
    List.map_map
  have htotal : ∀ e ∈ (b.ladder side.opposite).entries,
      e.2.totalQty = wrap64 (volume (A side.opposite e.1)) := fun e he =>
    (h.levelOk_of_find (SortedMap.find?_eq_some.mpr he)).total
  have hsorted := (levels_sorted b A side.opposite).imp fun hbefore (hbeyond :
    side.beyond price _ = true) => Side.beyond_of_before hbeyond hbefore
  have hpos := levels_positive h side.opposite
  rw [eligible]
  rw [hlevels] at hfit hpos hsorted ⊢
  rw [canFillFok, canFillFokLoop_eq htotal hpos hsorted (Int.le_refl 0) hfit, Int.zero_add]

/-! ### The sweep -/

theorem consume_price {f : Fill} (hf : f ∈ (consume p q r).1) : f.price = p := by
  induction q generalizing r with
  | nil => cases hf
  | cons x q ih =>
      rw [consume] at hf
      split_ifs at hf with hzero hxr
      · cases hf
      · rcases List.mem_cons.mp hf with rfl | hf
        · rfl
        · exact ih hf
      · rw [List.mem_singleton.mp hf]

/-- A sweep fills at prices it reaches. -/
theorem sweepLevels_within {beyond : Price → Bool} {ls : List (Price × Queue)} {f : Fill}
    (hf : f ∈ (sweepLevels beyond ls r).1) : beyond f.price = false := by
  induction ls generalizing r with
  | nil => cases hf
  | cons l ls ih =>
      obtain ⟨p, q⟩ := l
      rw [sweepLevels] at hf
      split_ifs at hf with hstop
      · cases hf
      · rcases List.mem_append.mp hf with hf | hf
        · rw [consume_price hf]
          exact Bool.eq_false_iff.mpr fun hbeyond => hstop (.inr hbeyond)
        · exact ih hf

/-- Any order with a limit trades its quantity, or what there is within its limit. -/
theorem outcome_eligible {type : OrderType} (h : Represents b A) (side : Side)
    (htype : type ≠ .market) (price : Price) (hqty : 0 < qty) :
    filled (outcome b A side type price qty).1 = min qty (eligible b A side price) := by
  rw [outcome, entryPrice, if_neg htype, eligible]
  exact filled_sweepLevels (levels_positive h _)
    ((levels_sorted b A side.opposite).imp fun hbefore hbeyond =>
      Side.beyond_of_before hbeyond hbefore) (Int.le_of_lt hqty)

/-- A slot that is given back at once leaves the free list as it was. -/
theorem deallocate_allocated {T : Type} [Inhabited T] {capacity : Nat}
    {m pool : MemoryPool T capacity} {o : Slot} (h : m.allocate = some (o, pool)) :
    (pool.deallocate o).freeList = m.freeList ∧ (pool.deallocate o).freeTop = m.freeTop := by
  unfold MemoryPool.allocate at h
  split at h
  · cases h
  · next htop =>
      cases h
      exact ⟨Function.update_eq_self _ _, Nat.succ_pred_eq_of_ne_zero htop⟩

/-- A rejected order. -/
theorem fok_killed {exch : Exchange} (freed : TradeId → Price) (fuel : Nat)
    (hslot : b.orderPool.freeTop ≠ 0) (hqty : 0 < qty)
    (hcan : b.canFillFok side price qty = false) :
    ∃ b', b.addOrder freed fuel side .fok price qty exch = some (b', {}) ∧ Killed b b' {} := by
  obtain ⟨⟨o, pool⟩, halloc⟩ := Option.ne_none_iff_exists'.mp
    fun hnone => hslot (MemoryPool.allocate_eq_none.mp hnone)
  obtain ⟨hlist, htop⟩ := deallocate_allocated halloc
  exact ⟨_, addOrder_unfillable freed fuel hqty halloc hcan,
    ⟨rfl, rfl, rfl, rfl, hlist, htop, rfl⟩⟩

/-- An order that is filled. -/
theorem fok_filled {exch : Exchange} (freed : TradeId → Price) (h : Represents b A)
    (hslot : b.orderPool.freeTop ≠ 0) (hqty : 0 < qty)
    (hcan : b.canFillFok side price qty = true) (henough : qty ≤ eligible b A side price) :
    ∃ b' r, Returns (fun fuel => b.addOrder freed fuel side .fok price qty exch) (b', r) ∧
      FilledWhole side price qty r := by
  have hlimit : OrderType.fok = .limit → 0 < price := fun htype => by cases htype
  obtain ⟨o, b₂, A₂, ts, hadd, hm⟩ := addOrder_matched freed side exch h hqty hlimit hslot
    (fun _ => hcan) (Nat.lt_succ_self _)
  have hfilled : filled (outcome b A side .fok price qty).1 = qty :=
    (outcome_eligible h side (by decide) price hqty).trans (Int.min_eq_left henough)
  have hrem : ((b.newOrder side .fok price qty exch).afterFills
      (outcome b A side .fok price qty).1).remaining = 0 := by
    rw [Order.afterFills_remaining, hfilled]
    exact Int.sub_self qty
  have hpost : ¬ (OrderType.fok = .postOnly ∧ ts ≠ []) := fun hc => by cases hc.1
  obtain ⟨b', hconclude, -⟩ := concludeAdd_filled
    { id := b.orderIdSeq + 1, accepted := true, fills := ts } hm.represents hm.taker hrem hpost
  refine ⟨b', { id := b.orderIdSeq + 1, accepted := true, fills := ts },
    ⟨_, hadd.trans (congrArg some hconclude)⟩, ⟨rfl, ?_, fun t ht => ?_⟩⟩
  · rw [← hfilled, ← hm.fills, filled, List.map_map]
    rfl
  · have hmem : t.toFill ∈ (outcome b A side .fok price qty).1 :=
      hm.fills ▸ List.mem_map_of_mem ht
    exact sweepLevels_within hmem

/-- An FOK order is filled completely within its limit, or is rejected and leaves everything as
it was; and it is filled exactly if there is enough for it. -/
theorem fok_all_or_nothing (freed : TradeId → Price) (side : Side) (price : Price) (qty : Int)
    (exch : Exchange) (h : Represents b A) (hslot : b.orderPool.freeTop ≠ 0) (hqty : 0 < qty)
    (hfit : SumsFit (side.beyond price) qty (levels b A side.opposite) 0) :
    ∃ b' r, Returns (fun fuel => b.addOrder freed fuel side .fok price qty exch) (b', r) ∧
      (FilledWhole side price qty r ∨ Killed b b' r) ∧
      (FilledWhole side price qty r ↔ qty ≤ eligible b A side price) := by
  have hcan := canFillFok_eq h hfit
  by_cases henough : qty ≤ eligible b A side price
  · rw [decide_eq_true henough] at hcan
    obtain ⟨b', r, hreturns, hfilled⟩ := fok_filled freed h hslot hqty hcan henough
    exact ⟨b', r, hreturns, .inl hfilled, iff_of_true hfilled henough⟩
  · rw [decide_eq_false henough] at hcan
    obtain ⟨b', hadd, hkilled⟩ := fok_killed freed 0 hslot hqty hcan
    refine ⟨b', {}, ⟨0, hadd⟩, .inr hkilled, iff_of_false (fun hfilled => ?_) henough⟩
    cases hfilled.accepted

/-- The queues of the book with one offer. -/
def oneOfferQueues : Queues := Queues.empty.set .sell 100 [⟨1, 5⟩]

theorem oneOffer_represents : Represents oneOffer oneOfferQueues :=
  Represents.init.offering 100 5 (by decide) (by decide) (by decide) fun _ => rfl

theorem oneOffer_levels : levels oneOffer oneOfferQueues Side.buy.opposite =
    [(100, [⟨1, 5⟩])] := by
  have hkeys : (oneOffer.ladder Side.buy.opposite).keys = [100] := rfl
  rw [levels, hkeys, List.map_singleton]
  exact congrArg (fun q => [((100 : Price), q)]) (Queues.set_self _ _ _ _)

/-- One offer of five at 100: an FOK order for three is filled. -/
theorem fok_all_or_nothing_oneOffer :
    ∃ b' r, Returns (fun fuel => oneOffer.addOrder (fun _ => 0) fuel .buy .fok 100 3 .generic)
        (b', r) ∧ FilledWhole .buy 100 3 r := by
  have hfit : SumsFit (Side.buy.beyond 100) 3
      (levels oneOffer oneOfferQueues Side.buy.opposite) 0 := by
    rw [oneOffer_levels]
    exact .inr ⟨by decide, .inl (by decide)⟩
  obtain ⟨b', r, hreturns, -, hfilled⟩ := fok_all_or_nothing (fun _ => 0) .buy 100 3 .generic
    oneOffer_represents (by decide) (by decide) hfit
  refine ⟨b', r, hreturns, hfilled.mpr ?_⟩
  rw [eligible, oneOffer_levels]
  decide

end NanoVault.Book
