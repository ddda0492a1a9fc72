/-
The exchange behind the book.

A `Market` has no ladders, links, totals or slots: it is the last order id, and the offers of
each side in the order of price and arrival. An order takes what `reference` gives it, and what
is left of a LIMIT order joins its side behind every offer that comes before it.

`OrderBook.market` reads such a market off the queues of a book. In a run without POST_ONLY
orders whose MARKET orders are filled, every call answers what the market answers, and leaves
the market behind that the market's own call leaves (`market_run`). What `bid_depth`,
`ask_depth` and `best_bbo` show is the market, put together by prices (`views_run`).
-/
import NanoVault.Book.FillOrKill
import NanoVault.Book.Leaks

namespace NanoVault.Book

open Lib OrderBook

/-- What is told of a new order: its id, whether it has been accepted, and its fills. -/
structure Receipt where
  id : OrderId := 0
  accepted : Bool := false
  fills : List Fill := []
deriving DecidableEq, Repr

inductive Answer where
  | added (r : Receipt)
  | cancelled (r : CancelResult)
  | modified (r : Receipt)
  | cleared
deriving DecidableEq, Repr

def AddResult.receipt (r : AddResult) : Receipt := ⟨r.id, r.accepted, r.fills.map Trade.toFill⟩

def ModifyResult.receipt (r : ModifyResult) : Receipt :=
  ⟨r.newId, r.success, r.fills.map Trade.toFill⟩

/-- The last order id, and the offers of each side, best first. -/
@[ext]
structure Market where
  lastId : OrderId := 0
  offers : Side → List Offer := fun _ => []

namespace Market

/-- Every order slot is taken. -/
def Full (m : Market) : Prop :=
  (m.offers .buy).length + (m.offers .sell).length = maxOrders

instance (m : Market) : Decidable m.Full := inferInstanceAs (Decidable (_ = _))

/-- The offer joins its side, behind all that come before it. -/
def rest (m : Market) (s : Side) (x : Offer) : Market where
  lastId := m.lastId
  offers := Function.update m.offers s ((m.offers s).filter (fun y => precedes s y x) ++
    x :: (m.offers s).filter fun y => !precedes s y x)

/-- What a taker is given, and what is left of the offers it could take. -/
def meet (m : Market) (side : Side) (type : OrderType) (price : Price) (qty : Int) :
    List Fill × List Offer :=
  reference (m.offers side.opposite) side type price qty

/-- The market after a taker, which has used up an id. -/
def taken (m : Market) (side : Side) (type : OrderType) (price : Price) (qty : Int) : Market where
  lastId := m.lastId + 1
  offers := Function.update m.offers side.opposite ((m.meet side type price qty).2 ++
    (m.offers side.opposite).filter fun x => !mayTake side type price x.price)

/-- A new order. What is left of it rests if it is a LIMIT order; an FOK order is filled, or
takes nothing. -/
def add (m : Market) (side : Side) (type : OrderType) (price : Price) (qty : Int) :
    Market × Receipt :=
  if qty ≤ 0 ∨ type = .limit ∧ price ≤ 0 ∨ m.Full then (m, {})
  else
    let fills := (m.meet side type price qty).1
    let left := qty - filled fills
    if type = .fok ∧ 0 < left then ({ m with lastId := m.lastId + 1 }, {})
    else
      let after := m.taken side type price qty
      (if type = .limit ∧ 0 < left then after.rest side ⟨m.lastId + 1, price, left⟩ else after,
        ⟨m.lastId + 1, true, fills⟩)

def cancel (m : Market) (i : OrderId) : Market :=
  { m with offers := fun s => (m.offers s).filter fun x => x.id ≠ i }

def sideOf (m : Market) (i : OrderId) : Option Side :=
  if (m.offers .buy).any (fun x => x.id = i) then some .buy
  else if (m.offers .sell).any (fun x => x.id = i) then some .sell
  else none

/-- A cancellation, and a new LIMIT order on the same side. -/
def modify (m : Market) (i : OrderId) (newPrice : Price) (newQty : Int) : Market × Receipt :=
  match m.sideOf i with
  | none => (m, {})
  | some s => (m.cancel i).add s .limit newPrice newQty

def call (m : Market) : Call → Market × Answer
  | .add side type price qty _ => (m.add side type price qty.toInt).map id .added
  | .cancel i => (m.cancel i, .cancelled ⟨(m.sideOf i).isSome, (m.sideOf i).isSome⟩)
  | .modify i newPrice newQty => (m.modify i newPrice newQty.toInt).map id .modified
  | .clear => ({}, .cleared)

/-- The market after some calls, and their answers. -/
def run (m : Market) : List Call → Market × List Answer
  | [] => (m, [])
  | c :: cs =>
      let r := (m.call c).1.run cs
      (r.1, (m.call c).2 :: r.2)

/-- Offers of one price, as `bid_depth` and `ask_depth` show them. -/
def level (xs : List Offer) : DepthLevel where
  price := (xs.head?.map Offer.price).getD 0
  qty := wrap64 (xs.map Offer.remaining).sum
  count := xs.length

def depth (m : Market) (s : Side) (levels : Nat) : List DepthLevel :=
  (((m.offers s).splitBy fun x y => x.price = y.price).take levels).map level

/-- The best prices, and what is offered at them. -/
def bestBbo (m : Market) : BBO :=
  let bid := (m.depth .buy 1).head?
  let ask := (m.depth .sell 1).head?
  { bidPrice := (bid.map DepthLevel.price).getD 0
    askPrice := (ask.map DepthLevel.price).getD 0
    bidQty := (bid.map DepthLevel.qty).getD 0
    askQty := (ask.map DepthLevel.qty).getD 0 }

theorem run_append (m : Market) (cs : List Call) (c : Call) :
    m.run (cs ++ [c]) =
      (((m.run cs).1.call c).1, (m.run cs).2 ++ [((m.run cs).1.call c).2]) := by
  induction cs generalizing m with
  | nil => rfl
  | cons d cs ih =>
      simp only [List.cons_append, run]
      rw [ih]

end Market

/-- The market of a book: its queues, price by price. -/
def OrderBook.market (b : OrderBook) : Market := ⟨b.orderIdSeq, offers b b.queue⟩

variable {b b' b₂ : OrderBook} {A A' A₂ : Queues} {s side : Side} {type : OrderType}
  {price p : Price} {qty : Int} {exch : Exchange} {i : OrderId} {x y z : Offer}

/-! ### Offers in order -/

/-- Better prices come first, then earlier ids. -/
theorem precedes_iff :
    precedes s x y = true ↔ s.before x.price y.price ∨ x.price = y.price ∧ x.id ≤ y.id := by
  simp [precedes]

/-- Precedence is transitive. -/
theorem precedes_trans (hxy : precedes s x y = true) (hyz : precedes s y z = true) :
    precedes s x z = true := by
  rw [precedes_iff] at hxy hyz ⊢
  rcases hxy with hxy | ⟨hprice, hid⟩
  · rcases hyz with hyz | ⟨hprice', -⟩
    · exact .inl (IsTrans.trans _ _ _ hxy hyz)
    · exact .inl (hprice' ▸ hxy)
  · rcases hyz with hyz | ⟨hprice', hid'⟩
    · exact .inl (hprice ▸ hyz)
    · exact .inr ⟨hprice.trans hprice', Nat.le_trans hid hid'⟩

/-- Of two offers one precedes. -/
theorem precedes_total (h : precedes s x y = false) : precedes s y x = true := by
  have hnot : ¬ (s.before x.price y.price ∨ x.price = y.price ∧ x.id ≤ y.id) := fun hc => by
    rw [precedes_iff.mpr hc] at h
    cases h
  rw [precedes_iff]
  rcases trichotomous_of s.before x.price y.price with hbefore | heq | hbefore
  · exact absurd (.inl hbefore) hnot
  · have hid : ¬ x.id ≤ y.id := fun hle => hnot (.inr ⟨heq, hle⟩)
    exact .inr ⟨heq.symm, Nat.le_of_not_le hid⟩
  · exact .inl hbefore

/-- Two offers that precede each other are one by price and id. -/
theorem precedes_antisymm (hxy : precedes s x y = true) (hyx : precedes s y x = true) :
    x.price = y.price ∧ x.id = y.id := by
  rw [precedes_iff] at hxy hyx
  have hirrefl : ∀ p, ¬ s.before p p := fun p => Std.Irrefl.irrefl p
  rcases hxy with hxy | ⟨hprice, hid⟩
  · rcases hyx with hyx | ⟨hprice', -⟩
    · exact absurd (IsTrans.trans _ _ _ hxy hyx) (hirrefl _)
    · rw [hprice'] at hxy
      exact absurd hxy (hirrefl _)
  · rcases hyx with hyx | ⟨-, hid'⟩
    · rw [hprice] at hyx
      exact absurd hyx (hirrefl _)
    · exact ⟨hprice, Nat.le_antisymm hid hid'⟩

/-! ### The market of a book -/

section Offers

theorem Represents.queues (h : Represents b A) : b.queue = A :=
  funext fun s => funext fun p => h.queue_eq s p

/-- The market's offers are those of the book. -/
theorem Represents.market_offers (h : Represents b A) (s : Side) :
    b.market.offers s = offers b A s := by
  rw [OrderBook.market, h.queues]

/-- An offer is an order in the queue at its price. -/
theorem mem_offers (h : Represents b A) :
    x ∈ offers b A s ↔ ⟨x.id, x.remaining⟩ ∈ A s x.price := by
  rw [offers, levelOffers, List.mem_flatMap]
  constructor
  · rintro ⟨l, hl, hx⟩
    obtain ⟨y, hy, rfl⟩ := List.mem_map.mp hx
    rw [mem_levels hl] at hy
    exact hy
  · intro hx
    exact ⟨(x.price, A s x.price), levels_mem h (List.ne_nil_of_mem hx),
      List.mem_map.mpr ⟨_, hx, rfl⟩⟩

theorem offers_ids (h : Represents b A) (s : Side) :
    (offers b A s).map Offer.id = ids (b.restingOn s) := by
  simp only [offers, levelOffers, levels, ids, restingOn, List.map_flatMap, List.flatMap_map,
    List.map_map, h.queues]
  rfl

/-- No two offers of a side have the same id. -/
theorem nodup_offers (h : Represents b A) (s : Side) : ((offers b A s).map Offer.id).Nodup := by
  rw [offers_ids h]
  exact h.nodup_restingOn s

/-- The offers of a side are the only list in order of price and arrival with these members. -/
theorem offers_eq (h : Represents b A) {xs : List Offer}
    (hsorted : xs.Pairwise fun x y => precedes s x y = true) (hnodup : (xs.map Offer.id).Nodup)
    (hmem : ∀ x, x ∈ xs ↔ ⟨x.id, x.remaining⟩ ∈ A s x.price) : offers b A s = xs := by
  have hperm : (offers b A s).Perm xs := by
    apply (List.perm_ext_iff_of_nodup (nodup_offers h s).of_map hnodup.of_map).mpr
    intro x
    rw [mem_offers h, hmem]
  apply hperm.eq_of_pairwise _ (offers_sorted h s) hsorted
  intro x y hx hy hxy hyx
  obtain ⟨-, hid⟩ := precedes_antisymm hxy hyx
  exact List.inj_on_of_nodup_map (nodup_offers h s) hx (hperm.mem_iff.mpr hy) hid

end Offers

/-! ### Taking and resting -/

/-- The end of a call uses up no id. -/
theorem concludeAdd_orderIdSeq (b : OrderBook) (o : Slot) (type : OrderType)
    (result : AddResult) : (b.concludeAdd o type result).1.orderIdSeq = b.orderIdSeq := by
  have hrest : (b.restOrder o).orderIdSeq = b.orderIdSeq := by
    rw [restOrder, orderIdSeq_setLadder]
    unfold levelAddOrder
    dsimp only
    split
    · exact orderIdSeq_writeId _ _ _
    · rfl
  unfold concludeAdd
  split_ifs
  · rfl
  · rfl
  · rfl
  · rfl
  · exact hrest
  · rfl

section Take

variable {o : Slot} {ts : List Trade}

/-- What matching leaves is the market after the taker. -/
theorem Matched.market (h : Represents b A)
    (hm : Matched b b₂ A A₂ (b.newOrder side type price qty exch) o ts
      (outcome b A side type price qty))
    (hrep : Represents b' A₂) (hseq : b'.orderIdSeq = b.orderIdSeq + 1) :
    b'.market = b.market.taken side type price qty := by
  obtain ⟨-, hleft⟩ := outcome_reference h side type price qty
  have hlevels : Book.levels b₂ A₂ side.opposite = (outcome b A side type price qty).2 :=
    hm.levels
  apply Market.ext hseq
  funext s
  rw [hrep.market_offers]
  by_cases hs : s = side.opposite
  · subst hs
    simp only [Market.taken, Market.meet, Function.update_self, h.market_offers]
    rw [offers, levels_congr hm.represents hrep rfl, hlevels]
    exact hleft
  · have hside : s = side := by
      cases s <;> cases side <;> first | rfl | exact absurd rfl hs
    have hown : A₂ s = A s := by
      rw [hside]
      exact hm.own
    simp only [Market.taken, Function.update_of_ne hs, h.market_offers]
    rw [offers, levels_congr h hrep hown, offers]

/-- An order that joins a queue is an offer that joins its side. -/
theorem Represents.market_rest {r : Int} (h : Represents b A)
    (hrep : Represents b' (A.set s p (A s p ++ [⟨i, r⟩]))) (hseq : b'.orderIdSeq = b.orderIdSeq)
    (hnew : i ∉ ids (b.restingOn s)) : b'.market = b.market.rest s ⟨i, p, r⟩ := by
  apply Market.ext hseq
  funext s'
  rw [hrep.market_offers]
  by_cases hs : s' = s
  · subst hs
    simp only [Market.rest, Function.update_self, h.market_offers]
    have hperm : ((offers b A s').filter (fun y => precedes s' y ⟨i, p, r⟩) ++
        ⟨i, p, r⟩ :: (offers b A s').filter fun y => !precedes s' y ⟨i, p, r⟩).Perm
        (⟨i, p, r⟩ :: offers b A s') :=
      List.perm_middle.trans ((List.filter_append_perm _ _).cons _)
    have hsorted := offers_sorted h s'
    apply offers_eq hrep
    · have hfirst : ∀ y ∈ (offers b A s').filter fun y => precedes s' y ⟨i, p, r⟩,
          precedes s' y ⟨i, p, r⟩ = true := fun y hy => (List.mem_filter.mp hy).2
      have hlast : ∀ y ∈ (offers b A s').filter fun y => !precedes s' y ⟨i, p, r⟩,
          precedes s' ⟨i, p, r⟩ y = true := fun y hy =>
        precedes_total (by simpa using (List.mem_filter.mp hy).2)
      refine List.pairwise_append.mpr ⟨hsorted.filter _,
        List.pairwise_cons.mpr ⟨hlast, hsorted.filter _⟩, ?_⟩
      intro y hy z hz
      rcases List.mem_cons.mp hz with rfl | hz
      · exact hfirst y hy
      · exact precedes_trans (hfirst y hy) (hlast z hz)
    · rw [(hperm.map Offer.id).nodup_iff, List.map_cons, List.nodup_cons, offers_ids h]
      exact ⟨hnew, h.nodup_restingOn s'⟩
    · intro y
      rw [hperm.mem_iff, List.mem_cons, mem_offers h]
      by_cases hp : y.price = p
      · subst hp
        rw [Queues.set_self, List.mem_append, List.mem_singleton, or_comm]
        cases y
        simp
      · rw [Queues.set_ne _ _ fun hsp => hp hsp.2]
        constructor
        · rintro (rfl | hy)
          · exact absurd rfl hp
          · exact hy
        · exact .inr
  · have hsame : (A.set s p (A s p ++ [⟨i, r⟩])) s' = A s' :=
      funext fun p' => Queues.set_side _ _ _ _ hs
    simp only [Market.rest, Function.update_of_ne hs, h.market_offers]
    rw [offers, levels_congr h hrep hsame, offers]

/-- The end of the call, for an order that leaves nothing behind. -/
theorem Matched.conclude_market (h : Represents b A) (hqty : 0 < qty)
    (hm : Matched b b₂ A A₂ (b.newOrder side type price qty exch) o ts
      (outcome b A side type price qty)) (hpost : type ≠ .postOnly)
    (hmarket : type = .market → qty ≤ filled (outcome b A side type price qty).1)
    (result : AddResult) :
    let left := qty - filled (outcome b A side type price qty).1
    ∃ b', b₂.concludeAdd o type result = (b', result) ∧
      b'.market = if type = .limit ∧ 0 < left then
        (b.market.taken side type price qty).rest side ⟨b.orderIdSeq + 1, price, left⟩
        else b.market.taken side type price qty := by
  intro left
  obtain ⟨-, hle⟩ := outcome_filled h side type price hqty
  obtain ⟨hid, hside, hprice, htype, hrem⟩ := newOrder_afterFills b side type price qty exch
    (outcome b A side type price qty).1
  generalize hx : (b.newOrder side type price qty exch).afterFills
    (outcome b A side type price qty).1 = x at hid hside hprice htype hrem
  have htaker : Taker b₂ A₂ o x := hx ▸ hm.taker
  have hseq : ∀ {b'}, b₂.concludeAdd o type result = (b', result) →
      b'.orderIdSeq = b.orderIdSeq + 1 := by
    intro b' hconclude
    have hkeeps := concludeAdd_orderIdSeq b₂ o type result
    rw [hconclude] at hkeeps
    exact hkeeps.trans hm.orderIdSeq
  -- What does not rest leaves the book, and the market has never seen it.
  have hgone : ¬ (type = .limit ∧ 0 < left) →
      (∃ b', b₂.concludeAdd o type result = (b', result) ∧ Gone b₂ b' A₂ x.id) →
      ∃ b', b₂.concludeAdd o type result = (b', result) ∧
        b'.market = if type = .limit ∧ 0 < left then
          (b.market.taken side type price qty).rest side ⟨b.orderIdSeq + 1, price, left⟩
          else b.market.taken side type price qty := by
    rintro hnot ⟨b', hconclude, hgone⟩
    refine ⟨b', hconclude, ?_⟩
    rw [if_neg hnot]
    exact hm.market h hgone.represents (hseq hconclude)
  by_cases hzero : x.remaining = 0
  · apply hgone
    · rintro ⟨-, hpos⟩
      omega
    · exact concludeAdd_filled result hm.represents htaker hzero fun hc => hpost hc.1
  · cases type with
    | limit =>
        have hpos : 0 < x.remaining := by omega
        have hactive : x.isActive = true := hx ▸ afterFills_active _ rfl (hx ▸ hzero)
        have hlast : ∀ j ∈ ids (A₂ x.side x.price), j < x.id := by
          intro j hj
          have hown : A₂ side = A side := hm.own
          rw [hside, hown] at hj
          rw [hid]
          exact h.lt_of_mem hj
        obtain ⟨b', hconclude, hrep, -, -⟩ := concludeAdd_rested result hm.represents htaker hpos
          htype hactive hlast
        have hnew : x.id ∉ ids (b₂.restingOn x.side) := by
          intro hmem
          obtain ⟨y, hy, heq⟩ := mem_ids.mp hmem
          obtain ⟨p, hy⟩ := mem_restingOn.mp hy
          rw [hm.represents.queue_eq] at hy
          exact htaker.apart x.side p (mem_ids.mpr ⟨y, hy, heq⟩)
        have hrests := hm.represents.market_rest hrep
          ((hseq hconclude).trans hm.orderIdSeq.symm) hnew
        have hleft : 0 < left := by omega
        refine ⟨b', hconclude, ?_⟩
        rw [if_pos ⟨rfl, hleft⟩, hrests, hm.market h hm.represents hm.orderIdSeq, hside, hid,
          hprice, hrem]
        rfl
    | market =>
        have hfilled := hmarket rfl
        omega
    | ioc =>
        apply hgone
        · rintro ⟨hc, -⟩
          cases hc
        · exact concludeAdd_dropped result hm.represents htaker hzero (.inl rfl)
    | fok =>
        apply hgone
        · rintro ⟨hc, -⟩
          cases hc
        · exact concludeAdd_dropped result hm.represents htaker hzero (.inr rfl)
    | postOnly => exact absurd rfl hpost

end Take

/-! ### The calls -/

/-- The orders a book treats as its market does: no POST_ONLY order, no MARKET order for more
than there is, and no FOK order whose check adds up more than an `int64_t` holds. -/
structure Proper (b : OrderBook) (side : Side) (type : OrderType) (price : Price)
    (qty : Int) : Prop where
  postOnly : type ≠ .postOnly
  settles : ¬ Stays b side type price qty
  fits : type = .fok → SumsFit (side.beyond price) qty (levels b b.queue side.opposite) 0

theorem Proper.limit (b : OrderBook) (side : Side) (price : Price) (qty : Int) :
    Proper b side .limit price qty := by
  refine ⟨nofun, ?_, nofun⟩
  rintro ⟨-, -, ⟨hc, -⟩ | ⟨hc, -⟩⟩ <;> cases hc

namespace Tidy

/-- The slots are taken when there are as many offers. -/
theorem full_iff (h : Tidy b A) (hcounted : b.roster.Counted) :
    b.market.Full ↔ b.orderPool.freeTop = 0 := by
  have hlen : ∀ s, (b.market.offers s).length = (b.restingOn s).length := by
    intro s
    have hids := congrArg List.length (offers_ids h.represents s)
    rw [List.length_map, ids, List.length_map] at hids
    rw [h.represents.market_offers, hids]
  have hslots : maxOrders - b.orderPool.freeTop = b.resting.length := (h.noLeak hcounted).slots
  obtain ⟨is, -, hcard⟩ := hcounted.slots
  have hcard : b.orderPool.freeTop + is.card = maxOrders := hcard
  have hpos : 0 < maxOrders := Nat.two_pow_pos 20
  rw [Market.Full, hlen, hlen, ← List.length_append]
  change b.resting.length = maxOrders ↔ _
  omega

/-- A new order does to the book what it does to the market. -/
theorem add_market (h : Tidy b A) (hcounted : b.roster.Counted) (freed : TradeId → Price)
    (exch : Exchange) (hproper : Proper b side type price qty) :
    ∃ b' r, Returns (fun fuel => b.addOrder freed fuel side type price qty exch) (b', r) ∧
      (b'.market, r.receipt) = b.market.add side type price qty := by
  have hrep := h.represents
  have hfull := h.full_iff hcounted
  by_cases hrefused : qty ≤ 0 ∨ type = .limit ∧ price ≤ 0 ∨ b.orderPool.freeTop = 0
  · refine ⟨b, {}, ⟨0, addOrder_refused freed 0 b side exch hrefused⟩, ?_⟩
    rw [← hfull] at hrefused
    rw [Market.add, if_pos hrefused]
    rfl
  · obtain ⟨hqty, hprice, hslot⟩ := not_or.mp hrefused |>.imp_right not_or.mp
    have hqty : 0 < qty := Int.not_le.mp hqty
    obtain ⟨hmeets, -⟩ := outcome_reference hrep side type price qty
    have hmeet : (b.market.meet side type price qty).1 = (outcome b A side type price qty).1 := by
      rw [hmeets, Market.meet, hrep.market_offers]
    rw [← hfull] at hrefused
    rw [Market.add, if_neg hrefused, hmeet]
    -- The check finds out whether the sweep would fill the order.
    have hcan : type = .fok → b.canFillFok side price qty =
        decide (qty ≤ filled (outcome b A side type price qty).1) := by
      rintro rfl
      have hfits := hproper.fits rfl
      rw [hrep.queues] at hfits
      rw [canFillFok_eq hrep hfits, outcome_eligible hrep side (by decide) price hqty]
      apply decide_eq_decide.mpr
      omega
    by_cases hkilled : type = .fok ∧ 0 < qty - filled (outcome b A side type price qty).1
    · obtain ⟨rfl, hleft⟩ := hkilled
      obtain ⟨⟨o, pool⟩, halloc⟩ := Option.ne_none_iff_exists'.mp
        fun hnone => hslot (MemoryPool.allocate_eq_none.mp hnone)
      have hno : b.canFillFok side price qty = false := by
        rw [hcan rfl, decide_eq_false_iff_not]
        omega
      refine ⟨_, {}, ⟨0, addOrder_unfillable freed 0 hqty halloc hno⟩, ?_⟩
      have hrep' := hrep.rejected halloc (b.newOrder side .fok price qty exch)
      rw [if_pos ⟨rfl, hleft⟩]
      apply Prod.ext
      · apply Market.ext
        · rfl
        · funext s
          rw [hrep'.market_offers, offers, levels_congr hrep hrep' rfl]
          exact (hrep.market_offers s).symm
      · rfl
    · have hfillable : type = .fok →
          b.canFillFok side (entryPrice side type price) qty = true := by
        intro hfok
        have hprice' : entryPrice side type price = price := by
          rw [entryPrice, hfok]
          rfl
        rw [hprice', hcan hfok, decide_eq_true_eq]
        by_contra hnot
        exact hkilled ⟨hfok, by omega⟩
      have hmarket : type = .market →
          qty ≤ filled (outcome b A side type price qty).1 := by
        intro htype
        have hfilled := outcome_filled_eq hrep side type price hqty
        have hnot : ¬ b.inReach side (entryPrice side type price) < qty := fun hlt =>
          hproper.settles ⟨hqty, hslot, .inl ⟨htype, hlt⟩⟩
        omega
      obtain ⟨o, b₂, A₂, ts, hadd, hm⟩ := addOrder_matched freed side exch hrep hqty
        (fun htype => Int64.not_le.mp fun hle => hprice ⟨htype, hle⟩) hslot hfillable
        (Nat.lt_succ_self _)
      obtain ⟨b', hconclude, hafter⟩ := hm.conclude_market hrep hqty hproper.postOnly hmarket
        { id := b.orderIdSeq + 1, accepted := true, fills := ts }
      refine ⟨b', _, ⟨_, hadd.trans (congrArg some hconclude)⟩, ?_⟩
      rw [if_neg hkilled, hafter]
      apply Prod.ext
      · rfl
      · rw [AddResult.receipt, hm.fills]
        rfl

/-- An offer's id is in a queue. -/
theorem any_offers (h : Represents b A) (s : Side) (i : OrderId) :
    (b.market.offers s).any (fun x => x.id = i) = true ↔ ∃ p, i ∈ ids (A s p) := by
  rw [h.market_offers, List.any_eq_true]
  constructor
  · rintro ⟨x, hx, hid⟩
    exact ⟨x.price, mem_ids.mpr ⟨_, (mem_offers h).mp hx, of_decide_eq_true hid⟩⟩
  · rintro ⟨p, hmem⟩
    obtain ⟨y, hy, rfl⟩ := mem_ids.mp hmem
    exact ⟨y.offer p, (mem_offers h).mpr hy, decide_eq_true rfl⟩

/-- The side an order is registered with is the side it rests on. -/
theorem sideOf_eq (h : Tidy b A) (i : OrderId) :
    b.market.sideOf i = (b.lookup i).map Order.side := by
  have hrep := h.represents
  have hrests : ∀ {s p}, i ∈ ids (A s p) → (b.lookup i).map Order.side = some s := by
    intro s p hmem
    obtain ⟨y, hy, rfl⟩ := mem_ids.mp hmem
    obtain ⟨x, hx, hx'⟩ := hrep.allRest s p y hy
    rw [hx, Option.map_some, hx'.side]
  unfold Market.sideOf
  split_ifs with hbuy hsell
  · obtain ⟨p, hmem⟩ := (any_offers hrep .buy i).mp hbuy
    exact (hrests hmem).symm
  · obtain ⟨p, hmem⟩ := (any_offers hrep .sell i).mp hsell
    exact (hrests hmem).symm
  · cases hx : b.lookup i with
    | none => rfl
    | some x =>
        obtain ⟨s, p, hmem⟩ := h.rests hx
        cases s with
        | buy => exact absurd ((any_offers hrep .buy i).mpr ⟨p, hmem⟩) hbuy
        | sell => exact absurd ((any_offers hrep .sell i).mpr ⟨p, hmem⟩) hsell

/-- A cancellation takes the order's offer away, and says whether there was one. -/
theorem cancel_market (h : Tidy b A) (hlinkage : Linkage b.orderIdSeq b) (i : OrderId) :
    ((b.cancelOrder i).1.market, Answer.cancelled (b.cancelOrder i).2) =
      b.market.call (.cancel i) := by
  have hrep := h.represents
  have hside := h.sideOf_eq i
  have hseq : (b.cancelOrder i).1.orderIdSeq = b.orderIdSeq :=
    (congrArg Roster.orderIdSeq (cancelOrder_roster hlinkage i).2).trans
      (Roster.cancel_orderIdSeq _ _)
  simp only [Market.call, hside]
  cases hx : b.lookup i with
  | none =>
      have hresult : (b.cancelOrder i).2 = {} := by
        have hi : b.orderMap i = none := Option.map_eq_none_iff.mp hx
        rw [cancelOrder, hi]
      rw [cancelOrder_unknown hx, hresult]
      apply Prod.ext
      · apply Market.ext
        · rfl
        · funext s
          symm
          apply List.filter_eq_self.mpr
          intro x hxmem
          rw [decide_eq_true_eq]
          intro hid
          rw [hrep.market_offers] at hxmem
          have hsome := (hrep.allRest s x.price).isSome
            (mem_ids.mpr ⟨_, (mem_offers hrep).mp hxmem, rfl⟩)
          rw [hid, hx] at hsome
          cases hsome
      · rfl
  | some x =>
      obtain ⟨s, p, hmem⟩ := h.rests hx
      obtain ⟨y, hy, rfl⟩ := mem_ids.mp hmem
      obtain ⟨x', hx', hrests⟩ := hrep.allRest s p y hy
      obtain rfl := Option.some.inj (hx.symm.trans hx')
      obtain ⟨q₁, q₂, hq, hrep', -⟩ := hrep.cancel_resting hy
      apply Prod.ext
      · apply Market.ext hseq
        funext s'
        rw [hrep'.market_offers]
        simp only [Market.cancel, hrep.market_offers]
        apply offers_eq hrep' ((offers_sorted hrep s').filter _)
        · exact (nodup_offers hrep s').sublist (List.filter_sublist.map _)
        · intro z
          rw [List.mem_filter, mem_offers hrep, decide_eq_true_eq]
          by_cases hsp : s' = s ∧ z.price = p
          · have hnodup := hrep.nodup_queue s p
            rw [hsp.1, hsp.2, Queues.set_self, hq]
            rw [hq, ids_append, ids_cons, List.nodup_middle, List.nodup_cons] at hnodup
            obtain ⟨hnot, -⟩ := hnodup
            -- Ids are unique, so what is left of the queue is what has another id.
            rw [← ids_append] at hnot
            constructor
            · rintro ⟨hz, hne⟩
              simp only [List.mem_append, List.mem_cons] at hz ⊢
              rcases hz with hz | rfl | hz
              · exact .inl hz
              · exact absurd rfl hne
              · exact .inr hz
            · intro hz
              refine ⟨?_, fun heq => hnot (mem_ids.mpr ⟨_, hz, heq⟩)⟩
              simp only [List.mem_append, List.mem_cons] at hz ⊢
              tauto
          · rw [Queues.set_ne _ _ hsp]
            refine ⟨And.left, fun hz => ⟨hz, fun heq => hsp ?_⟩⟩
            have hzmem : y.id ∈ ids (A s' z.price) :=
              mem_ids.mpr ⟨⟨z.id, z.remaining⟩, hz, heq⟩
            exact hrep.unique hmem hzmem
      · obtain ⟨o, ho, horder⟩ := lookup_eq_some.mp hx
        have hactive : (b.order o).isActive = true := by
          rw [horder]
          exact hrests.active
        rw [cancelOrder, ho]
        simp only [hactive, if_true]
        rfl

/-- A change of an order is what the market says. -/
theorem modify_market (h : Tidy b A) (hcounted : b.roster.Counted)
    (hlinkage : Linkage b.orderIdSeq b) (freed : TradeId → Price) (i : OrderId)
    (newPrice : Price) (newQty : Int) :
    ∃ b' m, Returns (fun fuel => b.modifyOrder freed fuel i newPrice newQty) (b', m) ∧
      (b'.market, m.receipt) = b.market.modify i newPrice newQty := by
  have hside := h.sideOf_eq i
  cases ho : b.orderMap i with
  | none =>
      refine ⟨b, {}, ⟨0, by simp only [modifyOrder, ho]⟩, ?_⟩
      rw [OrderBook.lookup, ho] at hside
      rw [Market.modify, hside]
      rfl
  | some o =>
      have hx := lookup_of_orderMap ho
      have htype := h.limit hx
      obtain ⟨A', h'⟩ := h.cancel i
      have hcancels : Answers b (.cancel i) (b.cancelOrder i).1 {} := ⟨rfl, rfl⟩
      have hcounted' := hcounted.step (hcancels.roster hlinkage).2
      have hcancelled : (b.cancelOrder i).1.market = b.market.cancel i :=
        congrArg Prod.fst (h.cancel_market hlinkage i)
      obtain ⟨b', r, ⟨fuel, hadd⟩, hmarket⟩ := h'.add_market hcounted' freed
        (b.order o).exchange (.limit _ (b.order o).side newPrice newQty)
      refine ⟨b', { success := r.accepted, newId := r.id, fills := r.fills },
        ⟨fuel, ?_⟩, ?_⟩
      · simp only [modifyOrder, ho, htype, hadd, Option.map_some]
      · rw [hx, Option.map_some] at hside
        rw [hcancelled] at hmarket
        rw [Market.modify, hside]
        exact hmarket

end Tidy

/-! ### Sessions -/

/-- The calls a book answers as its market does. -/
def Regular (b : OrderBook) : Call → Prop
  | .add side type price qty _ => Proper b side type price qty.toInt
  | _ => True

/-- `b'` is the book after the call, and `a` what the call returns. -/
def Told (b : OrderBook) : Call → OrderBook → Answer → Prop
  | .add side type price qty exch, b', a => ∃ freed r,
      Returns (fun fuel => b.addOrder freed fuel side type price qty.toInt exch) (b', r) ∧
        a = .added r.receipt
  | .cancel i, b', a => b' = (b.cancelOrder i).1 ∧ a = .cancelled (b.cancelOrder i).2
  | .modify i newPrice newQty, b', a => ∃ freed m,
      Returns (fun fuel => b.modifyOrder freed fuel i newPrice newQty.toInt) (b', m) ∧
        a = .modified m.receipt
  | .clear, b', a => b' = b.clear ∧ a = .cleared

/-- A call that is told is a step of the book. -/
theorem Told.callStep {c : Call} {a : Answer} (h : Told b c b' a) : CallStep b c b' := by
  cases c with
  | add =>
      obtain ⟨freed, r, hreturns, -⟩ := h
      exact ⟨freed, r, hreturns⟩
  | cancel => exact h.1
  | modify =>
      obtain ⟨freed, m, hreturns, -⟩ := h
      exact ⟨freed, m, hreturns⟩
  | clear => exact h.1

/-- What the invariant says of a book whose orders all rest. -/
structure Trim (b : OrderBook) : Prop where
  tidy : ∃ A, Tidy b A
  linkage : Linkage b.orderIdSeq b
  counted : b.roster.Counted

namespace Trim

theorem init : Trim {} := by
  obtain ⟨hlinkage, hcounted⟩ :=
    reach_counted (b := {}) (.init rfl : bookMachine.Reach Machine.Any {})
  exact ⟨⟨_, .init, fun hx => (by cases hx)⟩, hlinkage, hcounted⟩

theorem step {c : Call} {a : Answer} (h : Trim b) (hregular : Regular b c)
    (htold : Told b c b' a) : Trim b' := by
  obtain ⟨A, htidy⟩ := h.tidy
  have hsettles : Settles b c := by
    cases c with
    | add => exact hregular.settles
    | _ => trivial
  obtain ⟨r, hanswers⟩ := callStep_iff.mp htold.callStep
  obtain ⟨hlinkage, hroster⟩ := hanswers.roster h.linkage
  exact ⟨(htidy.step htold.callStep).1 hsettles, hlinkage, h.counted.step hroster⟩

/-- A call returns, and does to the book and answers what it does to the market. -/
theorem told {c : Call} (h : Trim b) (hregular : Regular b c) :
    (∃ b' a, Told b c b' a) ∧ ∀ b' a, Told b c b' a → (b'.market, a) = b.market.call c := by
  obtain ⟨A, htidy⟩ := h.tidy
  cases c with
  | add side type price qty exch =>
      have hadd := fun freed => htidy.add_market h.counted freed exch hregular
      constructor
      · obtain ⟨b', r, hreturns, -⟩ := hadd fun _ => 0
        exact ⟨b', _, _, r, hreturns, rfl⟩
      · rintro b' a ⟨freed, r, hreturns, rfl⟩
        obtain ⟨b₁, r₁, hreturns₁, hmarket⟩ := hadd freed
        obtain ⟨rfl, rfl⟩ := Prod.mk.inj
          (hreturns.unique (addOrder_mono _ _ _ _ _ _ _) hreturns₁)
        rw [Market.call, ← hmarket]
        rfl
  | cancel i =>
      constructor
      · exact ⟨_, _, rfl, rfl⟩
      · rintro b' a ⟨rfl, rfl⟩
        exact htidy.cancel_market h.linkage i
  | modify i newPrice newQty =>
      have hmodify := fun freed => htidy.modify_market h.counted h.linkage freed i newPrice
        newQty.toInt
      constructor
      · obtain ⟨b', m, hreturns, -⟩ := hmodify fun _ => 0
        exact ⟨b', _, _, m, hreturns, rfl⟩
      · rintro b' a ⟨freed, m, hreturns, rfl⟩
        obtain ⟨b₁, m₁, hreturns₁, hmarket⟩ := hmodify freed
        obtain ⟨rfl, rfl⟩ := Prod.mk.inj
          (hreturns.unique (modifyOrder_mono _ _ _ _ _) hreturns₁)
        rw [Market.call, ← hmarket]
        rfl
  | clear =>
      constructor
      · exact ⟨_, _, rfl, rfl⟩
      · rintro b' a ⟨rfl, rfl⟩
        apply Prod.ext
        · apply Market.ext
          · rfl
          · funext s
            rw [(Sound.clear b).represents.market_offers]
            cases s <;> rfl
        · rfl

end Trim

/-- A book with the calls made on it and what they returned. -/
structure Trading where
  book : OrderBook := {}
  calls : List Call := []
  answers : List Answer := []

def tradingMachine : Machine Trading Call where
  init t := t = {}
  step t c t' := ∃ a, Told t.book c t'.book a ∧ t'.calls = t.calls ++ [c] ∧
    t'.answers = t.answers ++ [a]

/-- In every session the book is the market its calls make. -/
theorem reach_trading {t : Trading}
    (h : tradingMachine.Reach (fun t c => Regular t.book c) t) :
    Trim t.book ∧ Market.run {} t.calls = (t.book.market, t.answers) := by
  refine h.invariant (I := fun t => Trim t.book ∧
    Market.run {} t.calls = (t.book.market, t.answers)) ?_ ?_
  · intro t ht
    obtain rfl := ht
    refine ⟨.init, Prod.ext (Market.ext rfl (funext fun s => ?_)) rfl⟩
    rw [Represents.init.market_offers]
    cases s <;> rfl
  · rintro t c t' ⟨htrim, hrun⟩ hregular ⟨a, htold, hcalls, hanswers⟩
    have hcall := (htrim.told hregular).2 _ _ htold
    refine ⟨htrim.step hregular htold, ?_⟩
    rw [hcalls, hanswers, Market.run_append, hrun, ← hcall]

/-- A session is a run of the market: every call has answered what the market answers, and has
left what the market is left with. The next call returns. -/
theorem market_run {t : Trading}
    (h : tradingMachine.Reach (fun t c => Regular t.book c) t) :
    Market.run {} t.calls = (t.book.market, t.answers) ∧
      ∀ c, Regular t.book c → ∃ b' a, Told t.book c b' a := by
  obtain ⟨htrim, hrun⟩ := reach_trading h
  exact ⟨hrun, fun c hregular => (htrim.told hregular).1⟩

/-- The book after a LIMIT sale of five at 100 and a LIMIT bid for three that meets it. -/
def twoCalls : Trading where
  book := addedTo (addedTo {} .sell .limit 100 5) .buy .limit 100 3
  calls := [.add .sell .limit 100 5 .generic, .add .buy .limit 100 3 .generic]
  answers := [.added ⟨1, true, []⟩, .added ⟨2, true, [⟨1, 100, 3⟩]⟩]

theorem twoCalls_reached : tradingMachine.Reach (fun t c => Regular t.book c) twoCalls := by
  have hone : tradingMachine.Reach (fun t c => Regular t.book c)
      { book := addedTo {} .sell .limit 100 5
        calls := [.add .sell .limit 100 5 .generic]
        answers := [.added ⟨1, true, []⟩] } :=
    .step (.init rfl) (i := .add .sell .limit 100 5 .generic) (Proper.limit _ _ _ _)
      ⟨_, ⟨fun _ => 0, { id := 1, accepted := true }, ⟨3, rfl⟩, rfl⟩, rfl, rfl⟩
  exact .step hone (i := .add .buy .limit 100 3 .generic) (Proper.limit _ _ _ _)
    ⟨_, ⟨fun _ => 0, { id := 2, accepted := true, fills := [⟨1, 1, 2, 100, 3, .buy⟩] },
      ⟨3, rfl⟩, rfl⟩, rfl, rfl⟩

/-- The market has answered the two calls as the book has, and the book can be cleared. -/
theorem market_run_twoCalls :
    (Market.run {} twoCalls.calls).2 =
        [.added ⟨1, true, []⟩, .added ⟨2, true, [⟨1, 100, 3⟩]⟩] ∧
      ∃ b' a, Told twoCalls.book .clear b' a := by
  obtain ⟨hrun, hnext⟩ := market_run twoCalls_reached
  rw [hrun]
  exact ⟨rfl, hnext .clear trivial⟩

/-! ### Views -/

/-- The queues of a side, as `splitBy` finds them among the offers. -/
theorem offers_splitBy (h : Represents b A) (s : Side) :
    (offers b A s).splitBy (fun x y => x.price = y.price) =
      (levels b A s).map fun l => l.2.map (Resting.offer l.1) := by
  rw [offers, levelOffers, List.flatMap_def]
  apply List.splitBy_flatten
  · intro hnil
    obtain ⟨l, hl, heq⟩ := List.mem_map.mp hnil
    have hne := levels_ne_nil h hl
    rw [← mem_levels hl] at hne
    exact hne (List.map_eq_nil_iff.mp heq)
  · intro xs hxs
    obtain ⟨l, -, rfl⟩ := List.mem_map.mp hxs
    apply List.Pairwise.isChain
    rw [List.pairwise_map]
    exact List.pairwise_of_forall fun _ _ => decide_eq_true rfl
  · apply List.Pairwise.isChain
    rw [List.pairwise_map]
    have hne : ∀ l ∈ levels b A s, l.2.map (Resting.offer l.1) ≠ [] := by
      intro l hl heq
      have hne := levels_ne_nil h hl
      rw [← mem_levels hl] at hne
      exact hne (List.map_eq_nil_iff.mp heq)
    refine (levels_sorted b A s).imp_of_mem ?_
    intro l l' hl hl' hbefore
    refine ⟨hne l hl, hne l' hl', ?_⟩
    rw [List.getLast_map, List.head_map, decide_eq_false_iff_not]
    intro heq
    have heq : l.1 = l'.1 := heq
    rw [heq] at hbefore
    exact Std.Irrefl.irrefl _ hbefore

/-- The depth of a book is that of its market. -/
theorem depth_market (h : Represents b A) (s : Side) (n : Nat) :
    b.depth s n = b.market.depth s n := by
  rw [Market.depth, h.market_offers, offers_splitBy h, OrderBook.depth, levels, SortedMap.keys,
    List.map_map, List.map_map, ← List.map_take, List.map_map]
  apply List.map_congr_left
  intro e he
  have hok := h.levelOk_of_find (SortedMap.find?_eq_some.mpr (List.mem_of_mem_take he))
  have hprice : ((A s e.1).map (Resting.offer e.1)).head?.map Offer.price = some e.1 := by
    obtain ⟨x, q, hq⟩ := List.exists_cons_of_ne_nil hok.nonempty
    rw [hq]
    rfl
  have hsum : (((A s e.1).map (Resting.offer e.1)).map Offer.remaining).sum =
      volume (A s e.1) := by
    rw [List.map_map]
    rfl
  simp only [Function.comp_apply, Market.level, hprice, hsum, List.length_map, Option.getD_some]
  rw [hok.price, hok.total, hok.count, ids, List.length_map]

/-- The best prices are the first of the depth. -/
theorem bestBbo_depth (b : OrderBook) :
    b.bestBbo =
      { bidPrice := ((b.depth .buy 1).head?.map DepthLevel.price).getD 0
        askPrice := ((b.depth .sell 1).head?.map DepthLevel.price).getD 0
        bidQty := ((b.depth .buy 1).head?.map DepthLevel.qty).getD 0
        askQty := ((b.depth .sell 1).head?.map DepthLevel.qty).getD 0 } := by
  have hbid : (b.depth .buy 1).head? = b.bidLadder.first?.map fun e =>
      ⟨e.2.price, e.2.totalQty, e.2.orderCount⟩ := by
    show (((b.bidLadder.entries.take 1).map _).head?) = _
    rw [List.head?_map, List.head?_take, if_neg Nat.one_ne_zero, SortedMap.first?]
  have hask : (b.depth .sell 1).head? = b.askLadder.first?.map fun e =>
      ⟨e.2.price, e.2.totalQty, e.2.orderCount⟩ := by
    show (((b.askLadder.entries.take 1).map _).head?) = _
    rw [List.head?_map, List.head?_take, if_neg Nat.one_ne_zero, SortedMap.first?]
  rw [hbid, hask, OrderBook.bestBbo]
  simp only [Option.map_map]
  rfl

/-- In a session, what the book shows of itself is what the market that has taken the same
calls shows. -/
theorem views_run {t : Trading}
    (h : tradingMachine.Reach (fun t c => Regular t.book c) t) :
    (∀ s n, t.book.depth s n = (Market.run {} t.calls).1.depth s n) ∧
      t.book.bestBbo = (Market.run {} t.calls).1.bestBbo := by
  obtain ⟨htrim, hrun⟩ := reach_trading h
  obtain ⟨A, htidy⟩ := htrim.tidy
  have hdepth := depth_market htidy.represents
  rw [hrun]
  refine ⟨hdepth, ?_⟩
  rw [bestBbo_depth]
  simp only [hdepth]
  rfl

/-- Behind the two calls both show the two that are left of the sale. -/
theorem views_run_twoCalls :
    (Market.run {} twoCalls.calls).1.depth .sell 5 = [⟨100, 2, 1⟩] ∧
      (Market.run {} twoCalls.calls).1.bestBbo = ⟨0, 100, 0, 2⟩ := by
  obtain ⟨hdepth, hbbo⟩ := views_run twoCalls_reached
  rw [← hdepth, ← hbbo]
  exact ⟨rfl, rfl⟩

end NanoVault.Book
