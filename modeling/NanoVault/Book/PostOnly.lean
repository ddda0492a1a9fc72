/-
POST_ONLY orders.

`add_order` looks at the type only when the order has been matched. An order that would have
crossed is refused after its trades: the makers are filled, the trades counted and told, and
only the caller hears of none (`rejected_traded`). An order that does not cross is accepted and
put nowhere, since the branch that rests an order asks for LIMIT. So neither half of what the
type promises is kept on any book (`post_only_fails`).
-/
import NanoVault.Book.FillOrKill
import NanoVault.Book.Simulation

namespace NanoVault.Book

open Lib OrderBook

variable {b b' : OrderBook} {A : Queues} {side s : Side} {type : OrderType} {price p : Price}
  {qty r : Int} {exch : Exchange} {freed : TradeId → Price} {fuel : Nat} {taker : Slot}

/-- An order of the other side is at the price or through it. -/
def Crosses (A : Queues) (side : Side) (price : Price) : Prop :=
  ∃ p, A side.opposite p ≠ [] ∧ side.beyond price p = false

/-- The order is the last one at its price, with all of its quantity. -/
def RestsLast (b : OrderBook) (side : Side) (price : Price) (qty : Int) (id : OrderId) : Prop :=
  ∃ lvl, (b.ladder side).find? price = some lvl ∧ lvl.tail = id ∧
    ∃ o, b.lookup id = some o ∧ o.remaining = qty

/-- Nothing has been taken from the book. -/
structure NothingTaken (b b' : OrderBook) : Prop where
  ladder : b'.ladder = b.ladder
  remaining : ∀ i ∈ ids b.resting, b'.remainingOf i = b.remainingOf i
  trades : b'.stats.tradesExecuted = b.stats.tradesExecuted
  volume : b'.stats.totalVolume = b.stats.totalVolume
  pool : b'.orderPool.used = b.orderPool.used
  events : ∃ es, b'.log = b.log ++ es ∧ ∀ t, Event.onTrade t ∉ es

/-- What the type promises: an order that does not cross rests, one that does is refused. -/
structure PostedOnly (b b' : OrderBook) (A : Queues) (side : Side) (price : Price) (qty : Int)
    (result : AddResult) : Prop where
  rests : ¬ Crosses A side price →
    result.accepted = true ∧ RestsLast b' side price qty result.id
  refused : Crosses A side price →
    result.accepted = false ∧ result.fills = [] ∧ NothingTaken b b'

/-! ### Trades are counted -/

@[simp] theorem stats_writeId (b : OrderBook) (i : OrderId) (f : Order → Order) :
    (b.writeId i f).stats = b.stats := by
  unfold writeId
  split <;> rfl

@[simp] theorem stats_levelRemoveOrderLinks (b : OrderBook) (lvl : PriceLevel) (o : Slot) :
    (b.levelRemoveOrderLinks lvl o).1.stats = b.stats := by
  unfold levelRemoveOrderLinks
  dsimp only
  split_ifs <;> simp

theorem stats_setLadder (b : OrderBook) (s : Side) (l : Ladder s) :
    (b.setLadder s l).stats = b.stats := by
  cases s <;> rfl

theorem stats_reduceLevel (b : OrderBook) (s : Side) (o : Slot) (amount : Int) (leaves : Bool) :
    (b.reduceLevel s o amount leaves).stats = b.stats := by
  unfold reduceLevel
  dsimp only
  split
  · rfl
  · split_ifs <;> simp [stats_setLadder]

theorem fillOrder_trades (b : OrderBook) (maker taker : Slot) (fill : Int) :
    (b.fillOrder maker taker fill).1.stats.tradesExecuted = b.stats.tradesExecuted + 1 := by
  have hsettle : ∀ b : OrderBook,
      (b.settleMaker maker).stats.tradesExecuted = b.stats.tradesExecuted := by
    intro b
    unfold settleMaker
    split <;> rfl
  show (settleMaker _ maker).stats.tradesExecuted = _
  rw [hsettle, stats_reduceLevel]
  rfl

theorem walkLevel_trades {cur : OrderId} {ts : List Trade}
    (h : walkLevel fuel b taker cur = some (b', ts)) :
    b'.stats.tradesExecuted = b.stats.tradesExecuted + ts.length := by
  induction fuel generalizing b cur ts with
  | zero => cases h
  | succ fuel ih =>
      rw [walkLevel] at h
      split at h
      · split at h
        · obtain ⟨rfl, rfl⟩ := Prod.mk.inj (Option.some.inj h)
          rfl
        · obtain ⟨w, hrest, heq⟩ := Option.map_eq_some_iff.mp h
          obtain ⟨rfl, rfl⟩ := Prod.mk.inj heq
          have hfill := fillOrder_trades b
          rw [ih hrest, hfill, List.length_cons]
          omega
      · obtain ⟨rfl, rfl⟩ := Prod.mk.inj (Option.some.inj h)
        rfl

theorem stats_dropEmpty (b : OrderBook) (s : Side) (key : Price) :
    (b.dropEmpty s key).stats = b.stats := by
  unfold dropEmpty
  split
  · split
    · exact stats_setLadder _ _ _
    · rfl
  · rfl

/-- Every trade of a sweep is counted, on any book. -/
theorem sweep_trades {ts : List Trade} (h : sweep freed fuel b taker = some (b', ts)) :
    b'.stats.tradesExecuted = b.stats.tradesExecuted + ts.length := by
  induction fuel generalizing b ts with
  | zero => cases h
  | succ fuel ih =>
      rw [sweep_succ freed fuel rfl] at h
      split at h
      · split at h
        · obtain ⟨rfl, rfl⟩ := Prod.mk.inj (Option.some.inj h)
          rfl
        · split at h
          · obtain ⟨rfl, rfl⟩ := Prod.mk.inj (Option.some.inj h)
            rfl
          · obtain ⟨⟨b₁, ts₁⟩, hwalk, h⟩ := Option.bind_eq_some_iff.mp h
            obtain ⟨⟨b₂, ts₂⟩, hrest, heq⟩ := Option.map_eq_some_iff.mp h
            obtain ⟨rfl, rfl⟩ := Prod.mk.inj heq
            rw [ih hrest, stats_dropEmpty, walkLevel_trades hwalk]
            dsimp only
            rw [List.length_append]
            omega
      · obtain ⟨rfl, rfl⟩ := Prod.mk.inj (Option.some.inj h)
        rfl

/-- An order that has been entered is accepted, unless it is POST_ONLY and has traded. -/
theorem concludeAdd_result (b : OrderBook) (o : Slot) (result : AddResult)
    (h : ¬ (type = .postOnly ∧ result.fills ≠ [])) : (b.concludeAdd o type result).2 = result := by
  rw [concludeAdd, if_neg h]
  split_ifs <;> rfl

/-- A POST_ONLY order that has been entered and refused has traded. -/
theorem rejected_traded {result : AddResult}
    (h : b.addOrder freed fuel side .postOnly price qty exch = some (b', result))
    (hid : result.id ≠ 0) (hrejected : result.accepted = false) :
    b.stats.tradesExecuted < b'.stats.tradesExecuted := by
  rcases addOrder_inv h with ⟨-, rfl⟩ | ⟨o, pool, -, -, hend⟩
  · exact absurd rfl hid
  · rcases hend with ⟨hfok, -⟩ | ⟨-, -, b₂, ts, hsweep, heq⟩
    · cases hfok
    · have htrades := sweep_trades hsweep
      have hbefore : b₂.stats.tradesExecuted = b.stats.tradesExecuted + ts.length := htrades
      by_cases hfills : ts = []
      · have hpost : ¬ (OrderType.postOnly = .postOnly ∧ ts ≠ []) := fun hc => hc.2 hfills
        have hresult := concludeAdd_result b₂ o ⟨b.orderIdSeq + 1, true, ts⟩ hpost
        rw [heq] at hresult
        have haccepted : result.accepted = true := congrArg AddResult.accepted hresult
        rw [hrejected] at haccepted
        cases haccepted
      · have hpos := List.length_pos_iff.mpr hfills
        rw [concludeAdd, if_pos ⟨rfl, hfills⟩] at heq
        obtain ⟨rfl, -⟩ := Prod.mk.inj heq
        split <;> exact (by omega : b.stats.tradesExecuted < b₂.stats.tradesExecuted)

/-! ### Neither half is kept -/

/-- An order meets something exactly if it crosses. -/
theorem outcome_crosses (h : Represents b A) (side : Side) (price : Price) (hqty : 0 < qty) :
    (outcome b A side .postOnly price qty).1 = [] ↔ ¬ Crosses A side price := by
  have hpositive := levels_positive h side.opposite
  have hlimit : OrderType.postOnly ≠ .market := by decide
  have hfilled := outcome_eligible h side hlimit price hqty
  have hnil : filled (outcome b A side .postOnly price qty).1 = 0 ↔
      (outcome b A side .postOnly price qty).1 = [] :=
    filled_eq_zero fun f hf => sweepLevels_pos hpositive hf
  constructor
  · rintro hnone ⟨p, hp, hreached⟩
    have hmem : (p, A side.opposite p) ∈
        (levels b A side.opposite).filter fun l => !side.beyond price l.1 :=
      List.mem_filter.mpr ⟨levels_mem h hp, by rw [hreached]; rfl⟩
    have hone : volume (A side.opposite p) ≤ eligible b A side price := by
      refine List.single_le_sum (fun v hv => ?_) _ (List.mem_map_of_mem hmem)
      obtain ⟨l, hl, rfl⟩ := List.mem_map.mp hv
      exact volume_nonneg (hpositive l (List.mem_filter.mp hl).1)
    have hsome : 0 < volume (A side.opposite p) := by
      obtain ⟨x, q, hq⟩ := List.exists_cons_of_ne_nil hp
      have hall := hpositive _ (levels_mem h hp)
      rw [hq] at hall ⊢
      have hx := hall x List.mem_cons_self
      have hrest := volume_nonneg fun y hy => hall y (List.mem_cons_of_mem _ hy)
      rw [volume_cons]
      omega
    have hzero := hnil.mpr hnone
    omega
  · intro hout
    have hzero : eligible b A side price = 0 := by
      have hempty : (levels b A side.opposite).filter (fun l => !side.beyond price l.1) = [] := by
        refine List.filter_eq_nil_iff.mpr fun l hl hreached => hout ⟨l.1, levels_ne_nil h hl, ?_⟩
        exact Bool.eq_false_iff.mpr fun hbeyond => by simp [hbeyond] at hreached
      rw [eligible, reached, hempty]
      rfl
    exact hnil.mp (by omega)

/-- What `add_order` does instead, on every book. -/
theorem post_only_fails (freed : TradeId → Price) (side : Side) (price : Price) (qty : Int)
    (exch : Exchange) (h : Represents b A) (hslot : b.orderPool.freeTop ≠ 0) (hqty : 0 < qty) :
    ∃ b' r, Returns (fun fuel => b.addOrder freed fuel side .postOnly price qty exch) (b', r) ∧
      ¬ PostedOnly b b' A side price qty r := by
  have hlimit : OrderType.postOnly = .limit → 0 < price := fun htype => by cases htype
  have hfok : OrderType.postOnly = .fok →
      b.canFillFok side (entryPrice side .postOnly price) qty = true := fun htype => by cases htype
  obtain ⟨o, b₂, A₂, ts, hadd, hm⟩ := addOrder_matched freed side exch h hqty hlimit hslot hfok
    (Nat.lt_succ_self _)
  have hnone : ts = [] ↔ ¬ Crosses A side price := by
    rw [← outcome_crosses h side price hqty, ← hm.fills, List.map_eq_nil_iff]
  generalize hend : b₂.concludeAdd o .postOnly
    { id := b.orderIdSeq + 1, accepted := true, fills := ts } = ended at hadd
  obtain ⟨b', result⟩ := ended
  refine ⟨b', result, ⟨_, hadd⟩, fun hpromised => ?_⟩
  by_cases hcrosses : Crosses A side price
  · obtain ⟨hrejected, -, hnothing⟩ := hpromised.refused hcrosses
    have hid : result.id ≠ 0 := by
      rw [concludeAdd, if_pos ⟨rfl, fun hts => hnone.mp hts hcrosses⟩] at hend
      obtain ⟨-, rfl⟩ := Prod.mk.inj hend
      exact Nat.succ_ne_zero _
    have htraded := rejected_traded hadd hid hrejected
    exact absurd hnothing.trades (Nat.ne_of_gt htraded)
  · obtain ⟨-, lvl, hfind, htail, -⟩ := hpromised.rests hcrosses
    have hrem : ((b.newOrder side .postOnly price qty exch).afterFills
        (outcome b A side .postOnly price qty).1).remaining ≠ 0 := by
      rw [(outcome_crosses h side price hqty).mpr hcrosses]
      exact Int.ne_of_gt hqty
    rw [concludeAdd_registered _ hm.taker hrem (.inr ⟨rfl, hnone.mpr hcrosses⟩)] at hend
    obtain ⟨rfl, rfl⟩ := Prod.mk.inj hend
    have hlevel := hm.represents.levelOk_of_find hfind
    -- the last order at the price is older than the new one
    have hown : A₂ side price = A side price := congrFun hm.own price
    have hlast : lvl.tail ∈ ids (A side price) := by
      rw [hlevel.tail, ← hown]
      exact lastOr_mem (by simpa using hlevel.nonempty) 0
    have hold := h.lt_of_mem hlast
    rw [htail] at hold
    exact absurd hold (Nat.lt_irrefl _)

/-- One offer of five at 100: a POST_ONLY bid for three at 99 is accepted and rests nowhere. -/
theorem post_only_fails_oneOffer : ∃ b' r, Returns
      (fun fuel => oneOffer.addOrder (fun _ => 0) fuel .buy .postOnly 99 3 .generic) (b', r) ∧
    ¬ PostedOnly oneOffer b' oneOfferQueues .buy 99 3 r :=
  post_only_fails (fun _ => 0) .buy 99 3 .generic oneOffer_represents (by decide) (by decide)

/-- One offer of five at 100: a POST_ONLY bid for three at 100 is refused, and the offer has two
left. -/
theorem refused_bid_traded : ∃ b' r, Returns
      (fun fuel => oneOffer.addOrder (fun _ => 0) fuel .buy .postOnly 100 3 .generic) (b', r) ∧
    r.accepted = false ∧ b'.remainingOf 1 = 2 ∧
    ¬ PostedOnly oneOffer b' oneOfferQueues .buy 100 3 r := by
  refine ⟨((oneOffer.addOrder (fun _ => 0) 5 .buy .postOnly 100 3 .generic).map Prod.fst).getD {},
    { id := 2 }, ⟨5, rfl⟩, rfl, rfl, fun hpromised => ?_⟩
  have hcrosses : Crosses oneOfferQueues .buy 100 :=
    ⟨100, by rw [oneOfferQueues, Side.opposite, Queues.set_self]; simp, rfl⟩
  obtain ⟨-, -, hnothing⟩ := hpromised.refused hcrosses
  cases hnothing.trades

end NanoVault.Book
