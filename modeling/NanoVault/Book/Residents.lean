/-
Who is registered after a call, and what an order meets.

`inReach` is the quantity an incoming order finds within its limit; what a call trades is
the smaller of it and the order's own quantity (`outcome_filled_eq`). `Stays` tells which
new orders are registered without resting, and `Represents.add` that no other call of
`add_order` leaves one behind.
-/
import NanoVault.Book.Resting
import NanoVault.Book.Invariant

namespace NanoVault.Book

open Lib OrderBook

variable {b b' : OrderBook} {A A' : Queues} {side s : Side} {type : OrderType}
  {price p limit : Price} {qty r : Int} {exch : Exchange} {i : OrderId} {q : Queue}

/-- The quantity resting on the other side within the limit of an order of this side. -/
def OrderBook.inReach (b : OrderBook) (side : Side) (limit : Price) : Int :=
  (((b.ladder side.opposite).keys.filter fun p => !side.beyond limit p).map
    fun p => volume (b.queue side.opposite p)).sum

/-! ### How much is filled -/

theorem volume_nonneg (hq : ∀ x ∈ q, 0 < x.remaining) : 0 ≤ volume q := by
  refine List.sum_nonneg fun v hv => ?_
  obtain ⟨x, hx, rfl⟩ := List.mem_map.mp hv
  exact Int.le_of_lt (hq x hx)

/-- A queue gives what is asked of it, or all it has. -/
theorem filled_consume (hq : ∀ x ∈ q, 0 < x.remaining) (hr : 0 ≤ r) :
    filled (consume p q r).1 = min r (volume q) := by
  induction q generalizing r with
  | nil =>
      rw [consume, filled_nil, volume_nil]
      omega
  | cons x q ih =>
      have hx := hq x List.mem_cons_self
      have htail := fun y hy => hq y (List.mem_cons_of_mem _ hy)
      have hv := volume_nonneg htail
      rw [consume, volume_cons]
      split_ifs with hzero hxr
      · rw [filled_nil]
        omega
      · have hrest := ih htail (r := r - x.remaining) (by omega)
        simp only [filled_cons, hrest]
        omega
      · simp only [filled_cons, filled_nil]
        omega

/-- The volume of the levels that are not out of reach. -/
def reached (beyond : Price → Bool) (ls : List (Price × Queue)) : Int :=
  ((ls.filter fun l => !beyond l.1).map fun l => volume l.2).sum

theorem reached_nonneg {beyond : Price → Bool} {ls : List (Price × Queue)}
    (hls : ∀ l ∈ ls, ∀ x ∈ l.2, 0 < x.remaining) : 0 ≤ reached beyond ls := by
  refine List.sum_nonneg fun v hv => ?_
  obtain ⟨l, hl, rfl⟩ := List.mem_map.mp hv
  exact volume_nonneg (hls l (List.mem_filter.mp hl).1)

theorem reached_cons {beyond : Price → Bool} {ls : List (Price × Queue)}
    (hp : ¬ beyond p = true) : reached beyond ((p, q) :: ls) = volume q + reached beyond ls := by
  simp [reached, hp]

/-- Nothing is in reach behind a price that is not. -/
theorem reached_beyond {beyond : Price → Bool} {ls : List (Price × Queue)}
    (hls : ∀ l ∈ ls, beyond p = true → beyond l.1 = true) (hp : beyond p = true) :
    reached beyond ((p, q) :: ls) = 0 := by
  rw [reached, List.filter_eq_nil_iff.mpr]
  · rfl
  · intro l hl
    rcases List.mem_cons.mp hl with rfl | hl
    · simp [hp]
    · simp [hls l hl hp]

/-- A sweep fills what is asked, or all there is within reach. -/
theorem filled_sweepLevels {beyond : Price → Bool} {ls : List (Price × Queue)}
    (hls : ∀ l ∈ ls, ∀ x ∈ l.2, 0 < x.remaining)
    (hsorted : ls.Pairwise fun l l' => beyond l.1 = true → beyond l'.1 = true) (hr : 0 ≤ r) :
    filled (sweepLevels beyond ls r).1 = min r (reached beyond ls) := by
  induction ls generalizing r with
  | nil =>
      rw [sweepLevels, filled_nil]
      exact (Int.min_eq_right hr).symm
  | cons l ls ih =>
      obtain ⟨p, q⟩ := l
      have htail := fun l hl => hls l (List.mem_cons_of_mem _ hl)
      obtain ⟨hfirst, hrest⟩ := List.pairwise_cons.mp hsorted
      have hq : ∀ x ∈ q, 0 < x.remaining := hls (p, q) List.mem_cons_self
      have hv := volume_nonneg hq
      have hs : 0 ≤ reached beyond ls := reached_nonneg htail
      rw [sweepLevels]
      by_cases hbeyond : beyond p = true
      · rw [if_pos (.inr hbeyond), reached_beyond hfirst hbeyond, filled_nil]
        omega
      · rw [reached_cons hbeyond]
        by_cases hzero : r ≤ 0
        · rw [if_pos (.inl hzero), filled_nil]
          omega
        · have hfilled := filled_consume (p := p) hq hr
          have hnext := ih htail hrest (r := r - filled (consume p q r).1) (by omega)
          rw [if_neg (not_or.mpr ⟨hzero, hbeyond⟩)]
          simp only [filled_append]
          rw [hnext, hfilled]
          omega

/-- Every fill is of something. -/
theorem consume_pos (hq : ∀ x ∈ q, 0 < x.remaining) {f : Fill} (hf : f ∈ (consume p q r).1) :
    0 < f.qty := by
  induction q generalizing r with
  | nil => cases hf
  | cons x q ih =>
      rw [consume] at hf
      split_ifs at hf with hzero hxr
      · cases hf
      · rcases List.mem_cons.mp hf with rfl | hf
        · exact hq x List.mem_cons_self
        · exact ih (fun y hy => hq y (List.mem_cons_of_mem _ hy)) hf
      · rw [List.mem_singleton.mp hf]
        exact Int.not_le.mp hzero

theorem sweepLevels_pos {beyond : Price → Bool} {ls : List (Price × Queue)}
    (hls : ∀ l ∈ ls, ∀ x ∈ l.2, 0 < x.remaining) {f : Fill}
    (hf : f ∈ (sweepLevels beyond ls r).1) : 0 < f.qty := by
  induction ls generalizing r with
  | nil => cases hf
  | cons l ls ih =>
      obtain ⟨p, q⟩ := l
      rw [sweepLevels] at hf
      split_ifs at hf with hstop
      · cases hf
      · rcases List.mem_append.mp hf with hf | hf
        · exact consume_pos (hls (p, q) List.mem_cons_self) hf
        · exact ih (fun l hl => hls l (List.mem_cons_of_mem _ hl)) hf

theorem filled_eq_zero {fs : List Fill} (hfs : ∀ f ∈ fs, 0 < f.qty) : filled fs = 0 ↔ fs = [] := by
  cases fs with
  | nil => simp
  | cons f fs =>
      have hf := hfs f List.mem_cons_self
      have hrest : 0 ≤ filled fs := List.sum_nonneg fun v hv => by
        obtain ⟨g, hg, rfl⟩ := List.mem_map.mp hv
        exact Int.le_of_lt (hfs g (List.mem_cons_of_mem _ hg))
      rw [filled_cons]
      constructor
      · intro heq
        omega
      · intro heq
        cases heq

theorem levels_positive (h : Represents b A) (s : Side) :
    ∀ l ∈ levels b A s, ∀ x ∈ l.2, 0 < x.remaining := by
  intro l hl x hx
  rw [mem_levels hl] at hx
  exact h.positive hx

/-- What an order trades: all of it, or all there is within its limit. -/
theorem outcome_filled_eq (h : Represents b A) (side : Side) (type : OrderType) (price : Price)
    (hqty : 0 < qty) :
    filled (outcome b A side type price qty).1 =
      min qty (b.inReach side (entryPrice side type price)) := by
  rw [outcome, filled_sweepLevels (levels_positive h _)
    ((levels_sorted b A side.opposite).imp fun hbefore hbeyond =>
      Side.beyond_of_before hbeyond hbefore) (Int.le_of_lt hqty)]
  congr 1
  rw [reached, levels, List.filter_map, List.map_map, OrderBook.inReach]
  refine congrArg List.sum (List.map_congr_left fun p _ => ?_)
  rw [h.queue_eq]
  rfl

theorem outcome_fills_nil (h : Represents b A) (side : Side) (type : OrderType) (price : Price)
    (hqty : 0 < qty) :
    (outcome b A side type price qty).1 = [] ↔
      b.inReach side (entryPrice side type price) = 0 := by
  have hnonneg := (outcome_filled h side type price hqty).1
  have heq := outcome_filled_eq h side type price hqty
  have hnil : filled (outcome b A side type price qty).1 = 0 ↔
      (outcome b A side type price qty).1 = [] :=
    filled_eq_zero fun f hf => sweepLevels_pos (levels_positive h _) hf
  rw [← hnil]
  omega

/-! ### Who stays registered -/

/-- A call of `add_order` that leaves its order registered without resting: an accepted
MARKET order for more than there is, and an accepted POST_ONLY order that finds nothing, or
enough for all of it. -/
def Stays (b : OrderBook) (side : Side) (type : OrderType) (price : Price) (qty : Int) : Prop :=
  0 < qty ∧ b.orderPool.freeTop ≠ 0 ∧
    (type = .market ∧ b.inReach side (entryPrice side type price) < qty ∨
      type = .postOnly ∧ (b.inReach side price = 0 ∨ qty ≤ b.inReach side price))

/-- What is left of an order that rests nowhere: it is no LIMIT order and has no links. -/
structure Stray (b : OrderBook) (A : Queues) (i : OrderId) (x : Order) : Prop where
  lookup : b.lookup i = some x
  prev : x.prev = 0
  next : x.next = 0
  type : x.type ≠ .limit
  apart : ∀ s p, i ∉ ids (A s p)

/-- What a call of `add_order` does to the queues `A` of `b`: every order but the new one
`t` is gone, rests, or is the stray it was; the new one is a stray if `stays`, and else is
gone or rests. -/
structure Added (b b' : OrderBook) (A A' : Queues) (t : OrderId) (stays : Prop) : Prop where
  represents : Represents b' A'
  kept : Kept b b' A A' t
  stray : stays → ∃ x, Stray b' A' t x
  settled : ¬ stays → b'.lookup t = none ∨ ∃ s p, t ∈ ids (A' s p)

@[simp] theorem Order.afterFills_prev (fs : List Fill) (x : Order) :
    (x.afterFills fs).prev = x.prev := by
  rw [Order.afterFills]
  split <;> rfl

@[simp] theorem Order.afterFills_next (fs : List Fill) (x : Order) :
    (x.afterFills fs).next = x.next := by
  rw [Order.afterFills]
  split <;> rfl

theorem Gone.kept {A : Queues} {t : OrderId} (h : Gone b b' A t) : Kept b b' A A t :=
  .of_lookup A fun j hj => by rw [h.lookup, if_neg hj]

theorem lookup_next (hb : Registry b) : b.lookup (b.orderIdSeq + 1) = none := by
  cases h : b.lookup (b.orderIdSeq + 1) with
  | none => rfl
  | some o => exact absurd (hb.named h).2.2 (Nat.not_succ_le_self _)

section Add

variable {b₂ : OrderBook} {A₂ : Queues} {o : Slot} {ts : List Trade}

/-- The end of the call, for a matched order. -/
theorem Matched.added (h : Represents b A) (hqty : 0 < qty) (hslot : b.orderPool.freeTop ≠ 0)
    (hm : Matched b b₂ A A₂ (b.newOrder side type price qty exch) o ts
      (outcome b A side type price qty)) :
    ∃ b' A' r, b₂.concludeAdd o type { id := b.orderIdSeq + 1, accepted := true, fills := ts } =
        (b', r) ∧
      Added b b' A A' (b.orderIdSeq + 1) (Stays b side type price qty) := by
  obtain ⟨hnonneg, hle⟩ := outcome_filled h side type price hqty
  have hfilled := outcome_filled_eq h side type price hqty
  have hnil := outcome_fills_nil h side type price hqty
  obtain ⟨hid, hside, hprice, htype, hrem⟩ := newOrder_afterFills b side type price qty exch
    (outcome b A side type price qty).1
  have hlinks : ((b.newOrder side type price qty exch).afterFills
      (outcome b A side type price qty).1).prev = 0 ∧
      ((b.newOrder side type price qty exch).afterFills
        (outcome b A side type price qty).1).next = 0 := by simp [newOrder]
  generalize hx : (b.newOrder side type price qty exch).afterFills
    (outcome b A side type price qty).1 = x at hid hside hprice htype hrem hlinks
  have htaker : Taker b₂ A₂ o x := hx ▸ hm.taker
  have hresult : AddResult.fills { id := b.orderIdSeq + 1, accepted := true, fills := ts } = [] ↔
      (outcome b A side type price qty).1 = [] := by
    rw [← hm.fills, List.map_eq_nil_iff]
  have hstays : Stays b side type price qty ↔
      Lingers type (outcome b A side type price qty).1 x.remaining := by
    rw [Stays, Lingers, hnil, hrem, hfilled]
    cases type <;> simp [hqty, hslot, entryPrice]
    · omega
    · omega
  obtain ⟨b', A', r, hconclude, hconcluded⟩ := concludeAdd_concluded (o := o) hm.represents hx
    htaker rfl rfl (Int.ne_of_gt hqty) (by omega) hresult fun j hj => by
      have hown : A₂ side = A side := hm.own
      rw [hside, hown] at hj
      rw [hid]
      exact h.lt_of_mem hj
  refine ⟨b', A', r, hconclude, ?_⟩
  rw [hstays]
  -- An add ends in one of three ways, and only the middle one leaves a stray order.
  cases hconcluded with
  | gone hnot hgone =>
      rw [hid] at hgone
      refine ⟨hgone.represents, hm.kept.trans hgone.kept, fun hc => absurd hc hnot, fun _ => .inl ?_⟩
      rw [hgone.lookup, if_pos rfl]
  | lingers hlingers =>
      refine ⟨hm.represents, hm.kept, fun _ => ⟨x, ?_, hlinks.1, hlinks.2, ?_, ?_⟩,
        fun hc => absurd hlingers hc⟩
      · exact hid ▸ htaker.lookup
      · rw [htype]
        rcases hlingers with ⟨rfl, -⟩ | ⟨rfl, -⟩ <;> decide
      · exact hid ▸ htaker.apart
  | rested hlimit hleft hrep hpayload hothers =>
      have hjoined : ∀ {s p j}, j ∈ ids (A₂ s p) →
          j ∈ ids (A₂.set x.side x.price (A₂ x.side x.price ++ [⟨x.id, x.remaining⟩]) s p) := by
        intro s p j hj
        by_cases hsp : s = x.side ∧ p = x.price
        · rw [hsp.1, hsp.2] at hj ⊢
          rw [Queues.set_self, ids_append]
          exact List.mem_append_left _ hj
        · rwa [Queues.set_ne _ _ hsp]
      refine ⟨hrep, hm.kept.trans fun j hj => ?_, fun hc => ?_, fun _ => .inr ⟨x.side, x.price, ?_⟩⟩
      · by_cases hrests : ∃ s p, j ∈ ids (A₂ s p)
        · obtain ⟨s, p, hmem⟩ := hrests
          exact .inr (.inl ⟨s, p, hjoined hmem⟩)
        · refine .inr (.inr ⟨hothers j fun hmem => ?_, fun s p hmem => hrests ⟨s, p, hmem⟩⟩)
          rcases List.mem_cons.mp hmem with heq | hmem
          · exact hj (heq.trans hid)
          · exact hrests ⟨_, _, hmem⟩
      · have hlimit : type = .limit := hlimit
        rcases hc with ⟨hc, -⟩ | ⟨hc, -⟩ <;> rw [hlimit] at hc <;> cases hc
      · rw [Queues.set_self, ids_append, ← hid]
        simp

/-- A call of `add_order` returns, and leaves behind what `Added` says. -/
theorem Represents.add (h : Represents b A) (freed : TradeId → Price) (side : Side)
    (type : OrderType) (price : Price) (qty : Int) (exch : Exchange) :
    ∃ b' A' r, Returns (fun fuel => b.addOrder freed fuel side type price qty exch) (b', r) ∧
      Added b b' A A' (b.orderIdSeq + 1) (Stays b side type price qty) := by
  have hnext := lookup_next h.registry
  by_cases hrefused : qty ≤ 0 ∨ type = .limit ∧ price ≤ 0 ∨ b.orderPool.freeTop = 0
  · refine ⟨b, A, {}, ⟨0, addOrder_refused freed 0 b side exch hrefused⟩, h,
      .of_lookup A fun _ _ => rfl, fun hstays => ?_, fun _ => .inl hnext⟩
    obtain ⟨hqty, hslot, htype⟩ := hstays
    rcases hrefused with hle | ⟨rfl, -⟩ | hzero
    · exact absurd hqty (Int.not_lt.mpr hle)
    · rcases htype with ⟨hc, -⟩ | ⟨hc, -⟩ <;> cases hc
    · exact absurd hzero hslot
  · obtain ⟨hqty, hprice, hslot⟩ := not_or.mp hrefused |>.imp_right not_or.mp
    have hqty : 0 < qty := Int.not_le.mp hqty
    by_cases hfok : type = .fok ∧ b.canFillFok side price qty = false
    · obtain ⟨rfl, hfill⟩ := hfok
      obtain ⟨⟨o, pool⟩, halloc⟩ := Option.ne_none_iff_exists'.mp
        fun hnone => hslot (MemoryPool.allocate_eq_none.mp hnone)
      have hlookup := placeOrder_lookup halloc h.registry (b.newOrder side .fok price qty exch)
      refine ⟨_, A, {}, ⟨0, addOrder_unfillable freed 0 hqty halloc hfill⟩,
        h.rejected halloc _, .of_lookup A fun j _ => congrFun hlookup j, fun hstays => ?_,
        fun _ => .inl ((congrFun hlookup _).trans hnext)⟩
      rcases hstays.2.2 with ⟨hc, -⟩ | ⟨hc, -⟩ <;> cases hc
    · have hcan : type = .fok → b.canFillFok side (entryPrice side type price) qty = true := by
        rintro rfl
        simpa [entryPrice] using hfok
      obtain ⟨o, b₂, A₂, ts, hadd, hm⟩ := addOrder_matched freed side exch h hqty
        (fun htype => Int64.not_le.mp fun hle => hprice ⟨htype, hle⟩) hslot hcan
        (Nat.lt_succ_self _)
      obtain ⟨b', A', r, hconclude, hadded⟩ := hm.added h hqty hslot
      exact ⟨b', A', r, ⟨_, hadd.trans (congrArg some hconclude)⟩, hadded⟩

theorem Represents.add_step {qty : Int64} (h : Represents b A)
    (hstep : CallStep b (.add side type price qty exch) b') :
    ∃ A', Added b b' A A' (b.orderIdSeq + 1) (Stays b side type price qty.toInt) := by
  obtain ⟨freed, r, hreturns⟩ := hstep
  obtain ⟨b₁, A', r₁, hreturns', hadded⟩ := h.add freed side type price qty.toInt exch
  obtain ⟨rfl, -⟩ := Prod.mk.inj (hreturns.unique (addOrder_mono _ _ _ _ _ _ _) hreturns')
  exact ⟨A', hadded⟩

end Add

end NanoVault.Book
