/-
Modifications that fail.

`modify_order` cancels the order and then adds another one, and whatever makes `add_order`
refuse that one comes too late: the old order is gone. A call that reports failure leaves the
queues as they were where the cancelled order was in no level, or the new one passes the checks
(`failed_modify`); for an order that rests in a well-formed book these are positive numbers for
price and quantity, and the condition is exact.
-/
import NanoVault.Book.PostOnly
import NanoVault.Book.Quotes
import NanoVault.Book.Listener

namespace NanoVault.Book

open Lib OrderBook

variable {b b' : OrderBook} {A : Queues} {side s : Side} {type : OrderType} {price p : Price}
  {qty : Int} {exch : Exchange} {freed : TradeId → Price} {fuel : Nat} {i : OrderId}

/-- The checks at the beginning of `add_order`. -/
def Passes (type : OrderType) (price : Price) (qty : Int) : Prop :=
  0 < qty ∧ (type = .limit → 0 < price)

/-- An order that stands in a level is replaced by one that passes the checks, and a POST_ONLY
order by one that reaches no level of the other side. -/
def ModifyKeeps (b : OrderBook) (id : OrderId) (newPrice : Price) (newQty : Int) : Prop :=
  ∀ o, b.lookup id = some o →
    (o.isActive = true → (b.ladder o.side).find? o.price ≠ none →
      Passes o.type newPrice newQty) ∧
    (o.type = .postOnly → 0 < newQty → ∀ p, (b.ladder o.side.opposite).find? p ≠ none →
      o.side.beyond newPrice p = true)

/-- The resting orders, their prices, quantities and places are the same. -/
def SameQueues (b b' : OrderBook) : Prop := ∀ s p, b'.queue s p = b.queue s p

/-- A modification that reports failure has changed nothing. -/
def FailureKeeps (b : OrderBook) (id : OrderId) (newPrice : Price) (newQty : Int) : Prop :=
  ∀ freed fuel b' r, b.modifyOrder freed fuel id newPrice newQty = some (b', r) →
    r.success = false → SameQueues b b'

/-! ### Adding -/

theorem sweep_beyond {taker : Slot} {ts : List Trade}
    (hout : ∀ p, (b.ladder (b.order taker).side.opposite).find? p ≠ none →
      (b.order taker).side.beyond (b.order taker).price p = true)
    (h : sweep freed fuel b taker = some (b', ts)) : ts = [] := by
  cases fuel with
  | zero => cases h
  | succ fuel =>
      rw [sweep_succ freed fuel rfl] at h
      split at h
      · split at h
        · exact (Prod.mk.inj (Option.some.inj h)).2.symm
        · next p lvl hfirst =>
            have hfind := SortedMap.first?_find hfirst
            rw [if_pos (hout p (by rw [hfind]; exact Option.some_ne_none lvl))] at h
            exact (Prod.mk.inj (Option.some.inj h)).2.symm
      · exact (Prod.mk.inj (Option.some.inj h)).2.symm

/-- An order that passes the checks and finds a slot is accepted, unless it is an FOK order or a
POST_ONLY order that reaches a level. -/
theorem addOrder_accepted {r : AddResult} (hpasses : Passes type price qty)
    (hslot : b.orderPool.freeTop ≠ 0) (hfok : type ≠ .fok)
    (hpost : type = .postOnly → ∀ p, (b.ladder side.opposite).find? p ≠ none →
      side.beyond price p = true)
    (h : b.addOrder freed fuel side type price qty exch = some (b', r)) : r.accepted = true := by
  obtain ⟨⟨o, pool⟩, halloc⟩ := Option.ne_none_iff_exists'.mp
    fun hnone => hslot (MemoryPool.allocate_eq_none.mp hnone)
  rw [addOrder, if_neg (Int.not_le.mpr hpasses.1),
    if_neg fun hc => Int64.not_lt.mpr hc.2 (hpasses.2 hc.1), halloc] at h
  dsimp only at h
  rw [if_neg fun hc => hfok hc.1] at h
  obtain ⟨⟨b₂, ts⟩, hsweep, heq⟩ := Option.map_eq_some_iff.mp h
  have horder : ((b.placeOrder pool o (b.newOrder side type price qty exch)).enroll
      (b.newOrder side type price qty exch).id o).order o =
        b.newOrder side type price qty exch :=
    order_write_self { b with orderPool := pool, orderIdSeq := b.orderIdSeq + 1 } o fun _ => _
  have hcrossed : ¬ (type = .postOnly ∧ ts ≠ []) := by
    rintro ⟨rfl, hts⟩
    refine hts (sweep_beyond ?_ hsweep)
    rw [horder]
    exact hpost rfl
  have hresult := concludeAdd_result b₂ o ⟨b.orderIdSeq + 1, true, ts⟩ hcrossed
  have heq : b₂.concludeAdd o type ⟨b.orderIdSeq + 1, true, ts⟩ = (b', r) := heq
  rw [heq] at hresult
  exact congrArg AddResult.accepted hresult

/-! ### Cancelling -/

/-- Cancelling an active order frees a slot. -/
theorem cancelOrder_freeTop {x : Order} (hx : b.lookup i = some x) (hactive : x.isActive = true) :
    (b.cancelOrder i).1.orderPool.freeTop ≠ 0 := by
  obtain ⟨o, ho, rfl⟩ := lookup_eq_some.mp hx
  rw [cancelOrder, ho]
  dsimp only
  rw [if_pos hactive]
  exact Nat.succ_ne_zero _

theorem reduceLevel_ladder_ne (b : OrderBook) {s s' : Side} (o : Slot) (amount : Int)
    (leaves : Bool) (hs : s' ≠ s) : (b.reduceLevel s o amount leaves).ladder s' = b.ladder s' := by
  unfold OrderBook.reduceLevel
  dsimp only
  split
  · rfl
  · split_ifs
    · rw [ladder_setLadder_ne _ _ hs, ladder_levelRemoveOrderLinks]
    · rw [ladder_setLadder_ne _ _ hs, ladder_levelRemoveOrderLinks]
    · rw [ladder_setLadder_ne _ _ hs]

/-- Cancelling leaves the other side alone. -/
theorem cancelOrder_ladder {x : Order} (hx : b.lookup i = some x) :
    (b.cancelOrder i).1.ladder x.side.opposite = b.ladder x.side.opposite := by
  obtain ⟨o, ho, rfl⟩ := lookup_eq_some.mp hx
  rw [cancelOrder, ho]
  dsimp only
  split
  · exact (reduceLevel_ladder_ne b o _ true (Side.opposite_ne _) :)
  · rfl

/-- A walk reads the orders it meets, and nothing else. -/
theorem walk_congr {j : OrderId} (hnone : ∀ k, b.lookup k = none → b'.lookup k = none)
    (hsame : ∀ k ∈ b.walk fuel j, b'.lookup k = b.lookup k) : b'.walk fuel j = b.walk fuel j := by
  induction fuel generalizing j with
  | zero => rfl
  | succ fuel ih =>
      cases hx : b.lookup j with
      | none => rw [walk_none hx, walk_none (hnone j hx)]
      | some x =>
          rw [walk_some hx] at hsame ⊢
          have hx' := (hsame j List.mem_cons_self).trans hx
          rw [walk_some hx', ih fun k hk => hsame k (List.mem_cons_of_mem _ hk)]

/-- Cancelling an order that is not active, or has no level at its price, leaves the queues. -/
theorem cancelOrder_idle (h : Linkage b.orderIdSeq b) {x : Order} (hx : b.lookup i = some x)
    (hidle : x.isActive = true → (b.ladder x.side).find? x.price = none) :
    SameQueues b (b.cancelOrder i).1 := by
  intro s p
  by_cases hactive : x.isActive = true
  · obtain ⟨o, ho, rfl⟩ := lookup_eq_some.mp hx
    have hfind := hidle hactive
    have hcancel : (b.cancelOrder i).1 = b.retireCancelled i o := by
      rw [cancelOrder, ho]
      simp only [hactive, if_true, OrderBook.reduceLevel, hfind]
    rw [hcancel]
    have hretired := cancel_retired b i o
    have hlookup := hretired.lookup h.registry ho
    cases hlevel : (b.ladder s).find? p with
    | none => rw [queue_none hlevel, queue_none (by rw [hretired.ladder]; exact hlevel)]
    | some lvl =>
        have hlevel' : ((b.retireCancelled i o).ladder s).find? p = some lvl := by
          rw [hretired.ladder]
          exact hlevel
        -- the orders of the level stand at a price where there is a level
        have hsame : ∀ k ∈ b.walk b.orderIdSeq lvl.head,
            (b.retireCancelled i o).lookup k = b.lookup k := by
          intro k hk
          rw [hlookup, if_neg]
          rintro rfl
          obtain ⟨y, hy, rfl, rfl⟩ := h.walk_place (fun y hy => (h.head hlevel hy).2) hk
          obtain rfl := Option.some.inj (hx.symm.trans hy)
          rw [hfind] at hlevel
          cases hlevel
        have hnone : ∀ k, b.lookup k = none → (b.retireCancelled i o).lookup k = none := by
          intro k hk
          rw [hlookup, hk, ite_self]
        rw [queue_some hlevel, queue_some hlevel', hretired.orderIdSeq, walk_congr hnone hsame]
        refine List.map_congr_left fun k hk => ?_
        rw [restingAt, restingAt, remainingOf, remainingOf, hsame k hk]
  · rw [cancelOrder_inactive hx (Bool.eq_false_iff.mpr hactive)]

/-! ### Modifying -/

/-- On a book whose links are in order and that has no FOK order registered. -/
theorem modify_keeps {newPrice : Price} {newQty : Int} (h : Linkage b.orderIdSeq b)
    (hfok : ∀ o, b.lookup i = some o → o.type ≠ .fok) (hkeeps : ModifyKeeps b i newPrice newQty) :
    FailureKeeps b i newPrice newQty := by
  intro freed fuel b' r hmodify hfails
  simp only [modifyOrder] at hmodify
  split at hmodify
  · obtain ⟨rfl, -⟩ := Prod.mk.inj (Option.some.inj hmodify)
    exact fun s p => rfl
  · next o ho =>
      obtain ⟨⟨b₂, result⟩, hadd, heq⟩ := Option.map_eq_some_iff.mp hmodify
      obtain ⟨rfl, rfl⟩ := Prod.mk.inj heq
      have hx := lookup_of_orderMap ho
      obtain ⟨hpasses, hpost⟩ := hkeeps _ hx
      have haccepted : Passes (b.order o).type newPrice newQty →
          (b.cancelOrder i).1.orderPool.freeTop ≠ 0 → False := by
        intro hpasses hslot
        have haccepted := addOrder_accepted hpasses hslot (hfok _ hx)
          (fun htype p hp => hpost htype hpasses.1 p (by rwa [cancelOrder_ladder hx] at hp)) hadd
        have hfails : result.accepted = false := hfails
        rw [haccepted] at hfails
        cases hfails
      by_cases hstands : (b.order o).isActive = true ∧
          (b.ladder (b.order o).side).find? (b.order o).price ≠ none
      · exact (haccepted (hpasses hstands.1 hstands.2) (cancelOrder_freeTop hx hstands.1)).elim
      · have hsame := cancelOrder_idle h hx fun hactive =>
          by_contra fun hfind => hstands ⟨hactive, hfind⟩
        by_cases hrefused : newQty ≤ 0 ∨ (b.order o).type = .limit ∧ newPrice ≤ 0 ∨
            (b.cancelOrder i).1.orderPool.freeTop = 0
        · have hback := addOrder_refused freed fuel (b.cancelOrder i).1 (b.order o).side
            (b.order o).exchange hrefused
          obtain ⟨rfl, -⟩ := Prod.mk.inj (Option.some.inj (hadd.symm.trans hback))
          exact hsame
        · obtain ⟨hqty, hrest⟩ := not_or.mp hrefused
          obtain ⟨hprice, hslot⟩ := not_or.mp hrest
          refine (haccepted ⟨Int.not_le.mp hqty, fun htype => ?_⟩ hslot).elim
          exact Int64.not_le.mp fun hle => hprice ⟨htype, hle⟩

/-! ### FOK orders are not registered -/

namespace Roster

variable {r r' : Roster} {t : OrderId} {x : Order} {ts : List Trade} {result : AddResult}

/-- No FOK order is registered, but possibly under `t`. -/
def NoFok (r : Roster) (t : Option OrderId) : Prop :=
  ∀ i x, some i ≠ t → r.entry i = some x → x.type ≠ .fok

theorem NoFok.fill {maker taker : Order} (h : NoFok r (some taker.id))
    (hm : r.entry maker.id = some maker) (hne : maker.id ≠ taker.id) (q : Int) :
    NoFok (r.fill maker taker q) (some taker.id) := by
  intro i x hi hx
  have hi' : i ≠ taker.id := fun heq => hi (heq ▸ rfl)
  by_cases him : i = maker.id
  · subst him
    rw [fill_entry_maker r q hne] at hx
    split at hx
    · cases hx
    · obtain rfl := Option.some.inj hx
      exact h _ maker hi hm
  · rw [fill_entry_ne r q him hi'] at hx
    exact h i x hi hx

theorem NoFok.fills (h : NoFok r (some t)) (hfills : Fills t r ts r') : NoFok r' (some t) := by
  induction hfills with
  | nil => exact h
  | cons hm _ hid hne _ _ ih =>
      subst hid
      exact ih (h.fill hm hne _)

theorem NoFok.retire (h : NoFok r (some t)) : NoFok (r.retire t) none := by
  intro i x _ hx
  have hx : Function.update r.entry t none i = some x := hx
  rw [Function.update_apply] at hx
  split at hx
  · cases hx
  · next hi => exact h i x (fun heq => hi (Option.some.inj heq)) hx

theorem NoFok.weaken (h : NoFok r none) (t : Option OrderId) : NoFok r t :=
  fun i x _ => h i x (Option.some_ne_none i)

theorem NoFok.conclude {type : OrderType} (h : NoFok r (some x.id)) (hx : r.entry x.id = some x)
    (htype : x.type = type) (result : AddResult) : NoFok (r.conclude x type result).1 none := by
  have hretired : NoFok (r.retire x.id) none := h.retire
  have hkept : type ≠ .fok → NoFok r none := by
    intro hfok i y _ hy
    by_cases hi : i = x.id
    · subst hi
      obtain rfl := Option.some.inj (hx.symm.trans hy)
      rwa [htype]
    · exact h i y (fun heq => hi (Option.some.inj heq)) hy
  unfold Roster.conclude
  split_ifs with hpost hactive hfilled hdropped hlimit
  · exact hretired
  · exact hkept (by rw [hpost.1]; decide)
  · exact hretired
  · exact hretired
  · exact hkept (by rw [hlimit]; decide)
  · exact hkept fun hfok => hdropped (.inr hfok)

theorem NoFok.adds {side : Side} {type : OrderType} {price : Price} {qty : Int} {exch : Exchange}
    (h : NoFok r none) (hadds : Adds side type price qty exch r result r') : NoFok r' none := by
  cases hadds with
  | refused => exact h
  | unfillable => exact h
  | entered _ _ hfills hx =>
      have hentered : NoFok (r.enter (r.newOrder side type price qty exch))
          (some (r.orderIdSeq + 1)) := by
        intro i y hi hy
        have hne : i ≠ (r.newOrder side type price qty exch).id := fun heq => hi (heq ▸ rfl)
        have hy : Function.update r.entry _ _ i = some y := hy
        rw [Function.update_of_ne hne] at hy
        exact h i y (Option.some_ne_none i) hy
      obtain ⟨x, hx', hid, htype⟩ := hfills.kept (Function.update_self _ _ _) rfl
      obtain rfl := Option.some.inj (hx.symm.trans hx')
      have hleft := hentered.fills hfills
      rw [← hid] at hx hleft
      exact hleft.conclude hx htype _

theorem NoFok.cancel (h : NoFok r none) (i : OrderId) : NoFok (r.cancel i) none := by
  unfold Roster.cancel
  split
  · exact h
  · split
    · exact (h.weaken (some i)).retire
    · exact h

theorem NoFok.step {c : Call} (h : NoFok r none) (hstep : r.Step c result r') :
    NoFok r' none := by
  cases hstep with
  | add hadds => exact h.adds hadds
  | cancel i => exact h.cancel i
  | unknown => exact h
  | modify _ hadds => exact (h.cancel _).adds hadds
  | clear => exact fun i x _ hx => by cases hx

end Roster

/-- In every run the links are in order and no FOK order stays registered. -/
theorem reach_noFok {ok : OrderBook → Call → Prop} (h : bookMachine.Reach ok b) :
    Linkage b.orderIdSeq b ∧ b.roster.NoFok none :=
  h.invariant (I := fun b => Linkage b.orderIdSeq b ∧ b.roster.NoFok none)
    (fun b hb => by
      obtain rfl := hb
      exact ⟨.init, fun i x _ hx => by cases hx⟩)
    fun _ _ _ ⟨hlinkage, hfok⟩ _ hstep => by
      obtain ⟨r, hanswers⟩ := callStep_iff.mp hstep
      obtain ⟨hlinkage', hroster⟩ := hanswers.roster hlinkage
      exact ⟨hlinkage', hfok.step hroster⟩

/-! ### The condition is exact -/

/-- An order that rests is lost by a modification that does not pass the checks. -/
theorem modify_loses {newPrice : Price} {newQty : Int} (h : Represents b A)
    (hi : i ∈ ids (A s p)) (hbad : ¬ ModifyKeeps b i newPrice newQty) :
    ¬ FailureKeeps b i newPrice newQty := by
  intro hsame
  obtain ⟨y, hy, rfl⟩ := mem_ids.mp hi
  obtain ⟨x, hx, hrests⟩ := h.allRest s p y hy
  obtain ⟨-, -, -, -, hgone, -⟩ := h.cancel_resting hy
  obtain ⟨o, ho, rfl⟩ := lookup_eq_some.mp hx
  have hrefused : newQty ≤ 0 ∨ (b.order o).type = .limit ∧ newPrice ≤ 0 ∨
      (b.cancelOrder y.id).1.orderPool.freeTop = 0 := by
    by_contra hpasses
    obtain ⟨hqty, hrest⟩ := not_or.mp hpasses
    obtain ⟨hprice, -⟩ := not_or.mp hrest
    refine hbad fun z hz => ?_
    obtain rfl := Option.some.inj (hx.symm.trans hz)
    refine ⟨fun _ _ => ⟨Int.not_le.mp hqty, fun htype => ?_⟩, fun hpost => ?_⟩
    · exact Int64.not_le.mp fun hle => hprice ⟨htype, hle⟩
    · rw [hrests.type] at hpost
      cases hpost
  have hback := addOrder_refused (fun _ => 0) 0 (b.cancelOrder y.id).1 (b.order o).side
    (b.order o).exchange hrefused
  have hmodify : b.modifyOrder (fun _ => 0) 0 y.id newPrice newQty =
      some ((b.cancelOrder y.id).1, {}) := by
    rw [modifyOrder, ho]
    exact congrArg (Option.map _) hback
  -- the order is still in its queue, but nothing is registered under its id
  have hqueue := hsame _ _ _ _ hmodify rfl s p
  rw [h.queue_eq] at hqueue
  have hmem : y.id ∈ ids (b.cancelOrder y.id).1.resting :=
    mem_ids.mpr ⟨y, mem_resting.mpr ⟨s, p, by rw [hqueue]; exact hy⟩, rfl⟩
  obtain ⟨z, hz⟩ := lookup_of_mem_resting hmem
  cases hgone.symm.trans hz

/-- A modification that fails has changed nothing, in every reachable book, if the old order is in
no level or the new one passes the checks; and for an order that rests only then. -/
theorem failed_modify (h : bookMachine.Reach Machine.Any b) (id : OrderId) (newPrice : Price)
    (newQty : Int64) :
    (ModifyKeeps b id newPrice newQty.toInt → FailureKeeps b id newPrice newQty.toInt) ∧
      ∀ A s p, Represents b A → id ∈ ids (A s p) →
        (FailureKeeps b id newPrice newQty.toInt ↔ ModifyKeeps b id newPrice newQty.toInt) := by
  obtain ⟨hlinkage, hfok⟩ := reach_noFok h
  have hkeeps : ModifyKeeps b id newPrice newQty.toInt →
      FailureKeeps b id newPrice newQty.toInt :=
    modify_keeps hlinkage fun o ho => by
      have hentry : b.roster.entry id = some o.unlinked := congrArg (Option.map Order.unlinked) ho
      exact hfok id o.unlinked (Option.some_ne_none id) hentry
  refine ⟨hkeeps, fun A s p hrep hi => ⟨fun hsame => ?_, hkeeps⟩⟩
  exact by_contra fun hbad => modify_loses hrep hi hbad hsame

/-- The first of two bids at 100 goes to 101. -/
theorem failed_modify_twoBids : FailureKeeps twoBids 1 101 7 := by
  refine (failed_modify (twoBids_reached.mono fun _ _ _ => trivial) 1 101 7).1 fun o ho => ?_
  cases ho
  exact ⟨fun _ _ => ⟨by decide, fun _ => by decide⟩, fun hpost => by cases hpost⟩

/-- A modification of the first bid to no quantity reports failure, and the bid is gone. -/
theorem bid_lost : bookMachine.Reach Machine.Any twoBids ∧ ¬ FailureKeeps twoBids 1 100 0 := by
  refine ⟨twoBids_reached.mono fun _ _ _ => trivial, fun hsame => ?_⟩
  have hqueue := hsame (fun _ => 0) 0 (twoBids.cancelOrder 1).1 {} rfl rfl .buy 100
  revert hqueue
  decide

end NanoVault.Book
