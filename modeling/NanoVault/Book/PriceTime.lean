/-
Price-time priority.

The reference algorithm knows no ladders: it sorts the offers it may take by price and
arrival and consumes them one after the other (`greedy`). `addOrder_price_time` says that
a LIMIT, MARKET or IOC order gets exactly these fills, that the opposite side keeps
exactly the offers the reference leaves, in the same order, and that its own side gains at
most the unfilled rest of a LIMIT order, behind the last order at its price.
-/
import NanoVault.Book.Adding

namespace NanoVault.Book

open Lib OrderBook

/-- A resting order as the other side sees it. -/
structure Offer where
  id : OrderId
  price : Price
  remaining : Int
deriving DecidableEq, Repr

def Resting.offer (p : Price) (x : Resting) : Offer := ⟨x.id, p, x.remaining⟩

/-- The offers of some levels, queue by queue. -/
def levelOffers (ls : List (Price × Queue)) : List Offer :=
  ls.flatMap fun l => l.2.map (Resting.offer l.1)

def offers (b : OrderBook) (A : Queues) (s : Side) : List Offer := levelOffers (levels b A s)

/-- A taker of this side, type and limit may take an offer at `p`. -/
def mayTake (side : Side) (type : OrderType) (limit p : Price) : Bool :=
  type = .market || !side.beyond limit p

/-- Offers of side `s` by price, best first, and by arrival within a price. -/
def precedes (s : Side) (x y : Offer) : Bool :=
  decide (s.before x.price y.price) || (decide (x.price = y.price) && decide (x.id ≤ y.id))

/-- Consume offers one after the other at their own prices: the fills, and the offers
left. -/
def greedy : List Offer → Int → List Fill × List Offer
  | [], _ => ([], [])
  | x :: xs, r =>
      if r ≤ 0 then ([], x :: xs)
      else if x.remaining ≤ r then
        let g := greedy xs (r - x.remaining)
        (⟨x.id, x.price, x.remaining⟩ :: g.1, g.2)
      else ([⟨x.id, x.price, r⟩], { x with remaining := x.remaining - r } :: xs)

/-- The reference: sort what may be taken, and consume it. -/
def reference (xs : List Offer) (side : Side) (type : OrderType) (limit : Price) (qty : Int) :
    List Fill × List Offer :=
  greedy ((xs.filter fun x => mayTake side type limit x.price).mergeSort
    (precedes side.opposite)) qty

/-! ### Consuming in sequence -/

theorem greedy_done {r : Int} (xs : List Offer) (hr : r ≤ 0) : greedy xs r = ([], xs) := by
  cases xs with
  | nil => rfl
  | cons x xs => rw [greedy, if_pos hr]

/-- Offers in two parts are consumed part by part. -/
theorem greedy_append (xs ys : List Offer) (r : Int) :
    greedy (xs ++ ys) r =
      ((greedy xs r).1 ++ (greedy ys (r - filled (greedy xs r).1)).1,
        (greedy xs r).2 ++ (greedy ys (r - filled (greedy xs r).1)).2) := by
  induction xs generalizing r with
  | nil => simp [greedy]
  | cons x xs ih =>
      rw [List.cons_append, greedy, greedy]
      split_ifs with hr hx
      · rw [filled_nil, Int.sub_zero, greedy_done ys hr]
        rfl
      · simp only [ih, filled_cons, Int.sub_sub, List.cons_append]
      · rw [filled_cons, filled_nil, Int.add_zero, Int.sub_self, greedy_done ys (Int.le_refl 0)]
        rfl

/-- Consuming one queue is consuming its offers. -/
theorem greedy_consume (p : Price) (q : Queue) (r : Int) :
    greedy (q.map (Resting.offer p)) r =
      ((consume p q r).1, (consume p q r).2.map (Resting.offer p)) := by
  induction q generalizing r with
  | nil => rfl
  | cons x q ih =>
      rw [List.map_cons, greedy, consume]
      by_cases hr : r ≤ 0
      · rw [if_pos hr, if_pos hr, List.map_cons]
      · by_cases hx : x.remaining ≤ r
        · rw [if_neg hr, if_neg hr, if_pos hx, if_pos (show (x.offer p).remaining ≤ r from hx)]
          simp only [Resting.offer, ih]
        · rw [if_neg hr, if_neg hr, if_neg hx, if_neg (show ¬ (x.offer p).remaining ≤ r from hx)]
          rfl

theorem levelOffers_cons (p : Price) (q : Queue) (ls : List (Price × Queue)) :
    levelOffers ((p, q) :: ls) = q.map (Resting.offer p) ++ levelOffers ls :=
  List.flatMap_cons

/-- Sweeping levels is consuming the offers of those that are reached. -/
theorem sweepLevels_greedy (beyond : Price → Bool) (ls : List (Price × Queue)) (r : Int) :
    ((sweepLevels beyond ls r).1, levelOffers (sweepLevels beyond ls r).2) =
      let g := greedy (levelOffers (ls.takeWhile fun l => !beyond l.1)) r
      (g.1, g.2 ++ levelOffers (ls.dropWhile fun l => !beyond l.1)) := by
  induction ls generalizing r with
  | nil => rfl
  | cons l ls ih =>
      obtain ⟨p, q⟩ := l
      by_cases hbeyond : beyond p = true
      · rw [List.takeWhile_cons_of_neg (by simp [hbeyond]),
          List.dropWhile_cons_of_neg (by simp [hbeyond]), sweepLevels, if_pos (.inr hbeyond)]
        rfl
      · rw [List.takeWhile_cons_of_pos (by simp [hbeyond]),
          List.dropWhile_cons_of_pos (by simp [hbeyond]), levelOffers_cons, greedy_append,
          greedy_consume]
        by_cases hr : r ≤ 0
        · have hc : consume p q r = ([], q) := by
            cases q with
            | nil => rfl
            | cons x q => rw [consume, if_pos hr]
          have hsplit : levelOffers (ls.takeWhile fun l => !beyond l.1) ++
              levelOffers (ls.dropWhile fun l => !beyond l.1) = levelOffers ls := by
            rw [levelOffers, levelOffers, ← List.flatMap_append, List.takeWhile_append_dropWhile]
            rfl
          rw [sweepLevels_done hr, hc, filled_nil, Int.sub_zero, greedy_done _ hr,
            levelOffers_cons, ← hsplit]
          simp
        · rw [sweepLevels, if_neg (not_or.mpr ⟨hr, hbeyond⟩)]
          have hrest := ih (r - filled (consume p q r).1)
          generalize consume p q r = c at hrest ⊢
          obtain ⟨hfills, hleft⟩ := Prod.mk.inj hrest
          have hlevel : levelOffers (if c.2 = [] then
              (sweepLevels beyond ls (r - filled c.1)).2
              else (p, c.2) :: (sweepLevels beyond ls (r - filled c.1)).2) =
              c.2.map (Resting.offer p) ++
                levelOffers (sweepLevels beyond ls (r - filled c.1)).2 := by
            split
            · next h => rw [h, List.map_nil, List.nil_append]
            · exact levelOffers_cons _ _ _
          simp only [hlevel, hfills, hleft, List.append_assoc]

/-! ### The order of the offers -/

/-- Where nothing good comes behind something bad, the good ones are in front. -/
theorem takeWhile_eq_filter {α : Type} (good : α → Bool) {l : List α}
    (h : l.Pairwise fun a b => good b = true → good a = true) :
    l.takeWhile good = l.filter good ∧ l.dropWhile good = l.filter (fun a => !good a) := by
  induction l with
  | nil => exact ⟨rfl, rfl⟩
  | cons a l ih =>
      obtain ⟨hfirst, hl⟩ := List.pairwise_cons.mp h
      cases ha : good a with
      | true =>
          obtain ⟨htake, hdrop⟩ := ih hl
          simp [ha, htake, hdrop]
      | false =>
          have hall : ∀ b ∈ l, good b = false := fun b hb => by
            by_contra hne
            have := hfirst b hb (by simpa using hne)
            rw [ha] at this
            cases this
          have hnone : l.filter good = [] := List.filter_eq_nil_iff.mpr fun b hb => by
            rw [hall b hb]
            decide
          have heq : l.filter (fun b => !good b) = l := List.filter_eq_self.mpr fun b hb => by
            rw [hall b hb]
            rfl
          simp [ha, hnone, heq]

theorem levelOffers_filter (good : Price → Bool) (ls : List (Price × Queue)) :
    levelOffers (ls.filter fun l => good l.1) =
      (levelOffers ls).filter fun x => good x.price := by
  induction ls with
  | nil => rfl
  | cons l ls ih =>
      obtain ⟨p, q⟩ := l
      rw [levelOffers_cons, List.filter_append, ← ih, List.filter_map]
      cases hp : good p with
      | true =>
          have hall : q.filter ((fun x => good x.price) ∘ Resting.offer p) = q :=
            List.filter_eq_self.mpr fun _ _ => hp
          rw [List.filter_cons_of_pos (by exact hp), levelOffers_cons, hall]
      | false =>
          have hnone : q.filter ((fun x => good x.price) ∘ Resting.offer p) = [] :=
            List.filter_eq_nil_iff.mpr fun x _ => by
              show ¬ good p = true
              rw [hp]
              decide
          rw [List.filter_cons_of_neg (by rw [hp]; decide), hnone]
          rfl

variable {b b' : OrderBook} {A A' : Queues} {s side : Side} {type : OrderType}
  {price p p' : Price} {qty : Int} {exch : Exchange}

/-- The offers of a side stand in the order of price and arrival. -/
theorem offers_sorted (h : Represents b A) (s : Side) :
    (offers b A s).Pairwise fun x y => precedes s x y = true := by
  refine List.pairwise_flatMap.mpr ⟨fun l hl => ?_, (levels_sorted b A s).imp ?_⟩
  · rw [mem_levels hl, List.pairwise_map]
    by_cases hq : A s l.1 = []
    · rw [hq]
      exact List.Pairwise.nil
    · obtain ⟨lvl, -, hok⟩ := h.levelOk hq
      refine (List.pairwise_map.mp hok.ascending).imp fun hlt => ?_
      simp [precedes, Resting.offer, Nat.le_of_lt hlt]
  · intro l l' hbefore x hx y hy
    obtain ⟨x, -, rfl⟩ := List.mem_map.mp hx
    obtain ⟨y, -, rfl⟩ := List.mem_map.mp hy
    simp [precedes, Resting.offer, hbefore]

/-- The entry price of an order reaches exactly what the order may take. -/
theorem beyond_entryPrice (side : Side) (type : OrderType) (price p : Price) :
    (!side.beyond (entryPrice side type price) p) = mayTake side type price p := by
  rw [mayTake, entryPrice]
  by_cases htype : type = .market
  · cases side <;> simp [htype, Side.beyond, maxPrice, minPrice]
  · simp [htype]

/-! ### Priority -/

/-- What a taker meets is what the reference computes from the resting orders. -/
theorem outcome_reference (h : Represents b A) (side : Side) (type : OrderType) (price : Price)
    (qty : Int) :
    let w := outcome b A side type price qty
    let xs := offers b A side.opposite
    w.1 = (reference xs side type price qty).1 ∧
      levelOffers w.2 = (reference xs side type price qty).2 ++
        xs.filter fun x => !mayTake side type price x.price := by
  have hgood : (fun l : Price × Queue => !side.beyond (entryPrice side type price) l.1) =
      fun l => mayTake side type price l.1 := funext fun l => beyond_entryPrice side type price l.1
  have hmono : ∀ l l' : Price × Queue, side.opposite.before l.1 l'.1 →
      mayTake side type price l'.1 = true → mayTake side type price l.1 = true := by
    intro l l' hbefore hgood'
    rw [← beyond_entryPrice] at hgood' ⊢
    cases hp : side.beyond (entryPrice side type price) l.1 with
    | false => rfl
    | true => rw [Side.beyond_of_before hp hbefore] at hgood'; cases hgood'
  obtain ⟨htake, hdrop⟩ := takeWhile_eq_filter
    (fun l : Price × Queue => mayTake side type price l.1)
    ((levels_sorted b A side.opposite).imp fun h => hmono _ _ h)
  obtain ⟨hfills, hleft⟩ := Prod.mk.inj (sweepLevels_greedy
    (side.beyond (entryPrice side type price)) (levels b A side.opposite) qty)
  rw [hgood, htake, levelOffers_filter] at hfills hleft
  rw [hdrop, levelOffers_filter (fun p => !mayTake side type price p)] at hleft
  have hsorted := List.mergeSort_of_pairwise
    ((offers_sorted h side.opposite).filter fun x => mayTake side type price x.price)
  simp only [outcome, reference, hsorted]
  exact ⟨hfills, hleft⟩

theorem levels_congr (h : Represents b A) (h' : Represents b' A') (hA : A' s = A s) :
    levels b' A' s = levels b A s := by
  have hkeys : (b'.ladder s).keys = (b.ladder s).keys :=
    SortedMap.eq_of_sorted (b'.ladder s).keys_sorted (b.ladder s).keys_sorted fun p => by
      rw [mem_keys_ladder h', mem_keys_ladder h, hA]
  rw [levels, levels, hkeys, hA]

/-- What is left of a matched LIMIT order joins the end of its queue, and the other side stays. -/
theorem Matched.rests {o : Slot} {b₂ : OrderBook} {A₂ : Queues} {ts : List Trade} {left : Int}
    {w : List Fill × List (Price × Queue)} (h : Represents b A)
    (hm : Matched b b₂ A A₂ (b.newOrder side .limit price qty exch) o ts w)
    (hrem : ((b.newOrder side .limit price qty exch).afterFills w.1).remaining = left)
    (hpos : 0 < left) (result : AddResult) :
    ∃ b' A', b₂.concludeAdd o .limit result = (b', result) ∧ Represents b' A' ∧
      A' side.opposite = A₂ side.opposite ∧
      ∀ p, A' side p = A side p ++ if p = price then [⟨b.orderIdSeq + 1, left⟩] else [] := by
  have hown : ∀ p, A₂ side p = A side p := fun p => congrFun hm.own p
  have hne : ((b.newOrder side .limit price qty exch).afterFills w.1).remaining ≠ 0 := by
    rw [hrem]
    exact Int.ne_of_gt hpos
  -- The ids that rest were given out before this order's.
  have hlast : ∀ j ∈ ids (A₂ ((b.newOrder side .limit price qty exch).afterFills w.1).side
      ((b.newOrder side .limit price qty exch).afterFills w.1).price),
      j < ((b.newOrder side .limit price qty exch).afterFills w.1).id := by
    intro j hj
    rw [Order.afterFills_side, hm.own] at hj
    rw [Order.afterFills_id]
    exact h.lt_of_mem hj
  obtain ⟨b', hconclude, hrep, -, -⟩ := concludeAdd_rested result hm.represents hm.taker
    (by rw [hrem]; exact hpos) (by rw [Order.afterFills_type]; rfl)
    (afterFills_active _ rfl hne) hlast
  rw [Order.afterFills_side, Order.afterFills_price, Order.afterFills_id, hrem] at hrep
  refine ⟨b', _, hconclude, hrep, ?_, fun p => ?_⟩
  · exact funext fun p => Queues.set_side _ _ _ _ (Side.opposite_ne side)
  · by_cases hp : p = price
    · subst hp
      rw [if_pos rfl, ← hown]
      exact Queues.set_self _ _ _ _
    · rw [if_neg hp, List.append_nil, ← hown]
      exact Queues.set_ne _ _ fun hsp => hp hsp.2

/-- Strict price-time priority, for a LIMIT, MARKET or IOC order on any book whose ladders
hold well-formed queues. -/
theorem addOrder_price_time (freed : TradeId → Price) (side : Side) (type : OrderType)
    (price : Price) (qty : Int) (exch : Exchange) (h : Represents b A)
    (hslot : b.orderPool.freeTop ≠ 0) (htype : type = .limit ∨ type = .market ∨ type = .ioc)
    (hqty : 0 < qty) (hprice : type = .limit → 0 < price) :
    let xs := offers b A side.opposite
    let g := reference xs side type price qty
    let left := qty - filled g.1
    ∃ b' A' ts,
      Returns (fun fuel => b.addOrder freed fuel side type price qty exch)
        (b', { id := b.orderIdSeq + 1, accepted := true, fills := ts }) ∧
      ts.map Trade.toFill = g.1 ∧
      Represents b' A' ∧
      offers b' A' side.opposite =
        g.2 ++ xs.filter (fun x => !mayTake side type price x.price) ∧
      ∀ p, A' side p = A side p ++
        if type = .limit ∧ p = price ∧ 0 < left then [⟨b.orderIdSeq + 1, left⟩] else [] := by
  intro xs g left
  obtain ⟨hfills, hoffers⟩ := outcome_reference h side type price qty
  have hfok : type ≠ .fok := by rcases htype with rfl | rfl | rfl <;> simp
  obtain ⟨o, b₂, A₂, ts, hadd, hm⟩ := addOrder_matched freed side exch h hqty hprice hslot
    (fun hc => absurd hc hfok) (Nat.lt_succ_self _)
  have hleft : 0 ≤ left :=
    Int.sub_nonneg_of_le (hfills ▸ (outcome_filled h side type price hqty).2)
  have hrem : ((b.newOrder side type price qty exch).afterFills
      (outcome b A side type price qty).1).remaining = left := by
    rw [Order.afterFills_remaining, hfills]
    rfl
  have hopp : levelOffers (levels b₂ A₂ side.opposite) =
      g.2 ++ xs.filter (fun x => !mayTake side type price x.price) := by
    have hlevels : levels b₂ A₂ side.opposite = _ := hm.levels
    rw [hlevels]
    exact hoffers
  have hown : ∀ p, A₂ side p = A side p := fun p => congrFun hm.own p
  -- Unless it rests, the order leaves no trace on its own side.
  have hdone : ∀ b', Represents b' A₂ → ¬ (type = .limit ∧ 0 < left) →
      offers b' A₂ side.opposite =
        g.2 ++ xs.filter (fun x => !mayTake side type price x.price) ∧
      ∀ p, A₂ side p = A side p ++
        if type = .limit ∧ p = price ∧ 0 < left then
          [⟨b.orderIdSeq + 1, left⟩] else [] := by
    refine fun b' hrep hnot => ⟨?_, fun p => ?_⟩
    · rw [offers, levels_congr hm.represents hrep rfl, hopp]
    · rw [if_neg fun hc => hnot ⟨hc.1, hc.2.2⟩, List.append_nil, hown]
  have hpost : ¬ (type = .postOnly ∧ ts ≠ []) := by
    rcases htype with rfl | rfl | rfl <;> simp
  by_cases hzero : left = 0
  · obtain ⟨b', hconclude, hgone⟩ := concludeAdd_filled
      { id := b.orderIdSeq + 1, accepted := true, fills := ts } hm.represents hm.taker
      (hrem.trans hzero) hpost
    obtain ⟨hside, hqueues⟩ := hdone b' hgone.represents fun hc => absurd hzero (Int.ne_of_gt hc.2)
    exact ⟨b', A₂, ts, ⟨_, hadd.trans (congrArg some hconclude)⟩,
        hm.fills.trans hfills, hgone.represents,
      hside, hqueues⟩
  · have hrem' := fun heq => hzero (hrem.symm.trans heq)
    rcases htype with rfl | rfl | rfl
    · have hpos : 0 < left := by omega
      obtain ⟨b', A', hconclude, hrep, hother, hqueue⟩ := hm.rests h hrem hpos
        { id := b.orderIdSeq + 1, accepted := true, fills := ts }
      refine ⟨b', A', ts, ⟨_, hadd.trans (congrArg some hconclude)⟩, hm.fills.trans hfills, hrep,
        ?_, fun p => ?_⟩
      · rw [← hopp, offers, levels_congr hm.represents hrep hother]
      · simpa only [true_and, hpos, and_true] using hqueue p
    · have hconclude := concludeAdd_registered
        { id := b.orderIdSeq + 1, accepted := true, fills := ts } hm.taker hrem' (.inl rfl)
      obtain ⟨hside, hqueues⟩ := hdone b₂ hm.represents (by simp)
      exact ⟨b₂, A₂, ts, ⟨_, hadd.trans (congrArg some hconclude)⟩,
        hm.fills.trans hfills, hm.represents,
        hside, hqueues⟩
    · obtain ⟨b', hconclude, hgone⟩ := concludeAdd_dropped
        { id := b.orderIdSeq + 1, accepted := true, fills := ts } hm.represents
        hm.taker hrem' (.inl rfl)
      obtain ⟨hside, hqueues⟩ := hdone b' hgone.represents (by simp)
      exact ⟨b', A₂, ts, ⟨_, hadd.trans (congrArg some hconclude)⟩,
        hm.fills.trans hfills, hgone.represents,
        hside, hqueues⟩

/-- A book after a LIMIT order to sell. -/
def OrderBook.offering (b : OrderBook) (price : Price) (qty : Int) : OrderBook :=
  ((b.addOrder (fun _ => 0) 3 .sell .limit price qty .generic).map Prod.fst).getD b

/-- Where there are no bids, a LIMIT order to sell joins the end of its queue. -/
theorem Represents.offering (h : Represents b A) (price : Price) (qty : Int)
    (hslot : b.orderPool.freeTop ≠ 0) (hqty : 0 < qty) (hprice : 0 < price)
    (hbids : ∀ p, A .buy p = []) :
    Represents (b.offering price qty)
      (A.set .sell price (A .sell price ++ [⟨b.orderIdSeq + 1, qty⟩])) := by
  have hout : ∀ p, A Side.sell.opposite p ≠ [] → Side.sell.beyond price p = true :=
    fun p hp => absurd (hbids p) hp
  obtain ⟨b', r, hadd, hrep, -⟩ :=
    addOrder_joins (fun _ => 0) 2 .generic h hqty hprice hslot hout
  rwa [OrderBook.offering, hadd]

/-- The book after one sell order of five at 100. -/
def oneOffer : OrderBook := OrderBook.offering {} 100 5

/-- Five at 101, then two and three at 100. -/
def threeOffers : OrderBook :=
  ((OrderBook.offering {} 101 5).offering 100 2).offering 100 3

/-- The queues of the book with three offers. -/
def threeOffersQueues : Queues :=
  ((Queues.empty.set .sell 101 [⟨1, 5⟩]).set .sell 100 [⟨2, 2⟩]).set .sell 100 [⟨2, 2⟩, ⟨3, 3⟩]

theorem threeOffers_represents : Represents threeOffers threeOffersQueues := by
  have hone := Represents.init.offering 101 5 (by decide) (by decide) (by decide) fun _ => rfl
  have htwo := hone.offering 100 2 (by decide) (by decide) (by decide) fun _ => rfl
  exact htwo.offering 100 3 (by decide) (by decide) (by decide) fun _ => rfl

theorem threeOffers_offers :
    offers threeOffers threeOffersQueues .sell = [⟨2, 100, 2⟩, ⟨3, 100, 3⟩, ⟨1, 101, 5⟩] := by
  have hkeys : (threeOffers.ladder .sell).keys = [100, 101] := rfl
  rw [offers, levels, hkeys, List.map_cons, List.map_singleton]
  rfl

/-- A market order for four takes the earlier offer at the better price first, then some of the
later one, and none at 101. -/
theorem threeOffers_price_time :
    ∃ b' A' ts,
      Returns (fun fuel => threeOffers.addOrder (fun _ => 0) fuel .buy .market 0 4 .generic)
        (b', { id := 4, accepted := true, fills := ts }) ∧
      ts.map Trade.toFill = [⟨2, 100, 2⟩, ⟨3, 100, 2⟩] ∧
      offers b' A' .sell = [⟨3, 100, 1⟩, ⟨1, 101, 5⟩] := by
  have htaken : reference [⟨2, 100, 2⟩, ⟨3, 100, 3⟩, ⟨1, 101, 5⟩] .buy .market 0 4 =
      ([⟨2, 100, 2⟩, ⟨3, 100, 2⟩], [⟨3, 100, 1⟩, ⟨1, 101, 5⟩]) := by
    rw [reference, List.mergeSort_of_pairwise (by decide)]
    rfl
  obtain ⟨b', A', ts, hret, hfills, -, hsell, -⟩ := addOrder_price_time (fun _ => 0) .buy .market
    0 4 .generic threeOffers_represents (by decide) (.inr (.inl rfl)) (by decide)
    (fun h => by cases h)
  rw [show Side.buy.opposite = Side.sell from rfl, threeOffers_offers, htaken] at hfills hsell
  exact ⟨b', A', ts, hret, hfills, hsell⟩

end NanoVault.Book
