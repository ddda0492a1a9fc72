/-
The calls of a book are operations of its roster.

Nothing is asked of the levels but `Linkage`, which every run keeps: a fill, a whole call
of `add_order`, `cancel_order`, `modify_order` and `clear` do to the registered orders what
`Roster` says.
-/
import NanoVault.Book.Roster

namespace NanoVault.Book

open Lib OrderBook

variable {b b' : OrderBook} {n i j t cur : OrderId} {o maker taker : Slot} {s : Side} {p : Price}
  {fill : Int}

/-! ### Single steps -/

theorem roster_entry (h : b.orderMap i = some o) :
    b.roster.entry i = some (b.order o).unlinked := by
  show (b.lookup i).map Order.unlinked = _
  rw [lookup_of_orderMap h, Option.map_some]

theorem roster_entry_none (h : b.orderMap i = none) : b.roster.entry i = none := by
  show (b.lookup i).map Order.unlinked = _
  rw [OrderBook.lookup, h]
  rfl

/-- Links and levels are no part of the roster. -/
theorem SameButLinks.roster {q : List OrderId} (h : SameButLinks b b' q) :
    b'.roster = b.roster := by
  refine Roster.ext (funext h.payload) h.freeTop h.orderIdSeq h.tradeIdSeq ?_ ?_ ?_
  · exact congrArg Stats.totalVolume h.stats
  · exact congrArg Stats.tradesExecuted h.stats
  · exact congrArg (List.filterMap Event.unlinked) h.log

theorem Linkage.removeLinks_same (h : Linkage n b) (hi : b.orderMap i = some o)
    (lvl : PriceLevel) : SameButLinks b (b.levelRemoveOrderLinks lvl o).1
      [(b.order o).prev, (b.order o).next] := by
  have h₁ : SameButLinks b (b.writeId (b.order o).prev (Order.setNext (b.order o).next))
      [(b.order o).prev, (b.order o).next] :=
    .writeId h.registry (fun _ => by simp) fun _ => rfl
  rw [levelRemoveOrderLinks_eq h.registry hi (h.prev_ne hi)]
  exact h₁.trans (.writeId (h₁.registry h.registry) (fun _ => by simp) fun _ => rfl)

/-- Whether or not the order is in the level of its price, only links change. -/
theorem Linkage.reduceLevel_same (h : Linkage n b) (hi : b.orderMap i = some o) (s : Side)
    (amount : Int) (leaves : Bool) : ∃ q, SameButLinks b (b.reduceLevel s o amount leaves) q := by
  cases hfind : (b.ladder s).find? (b.order o).price with
  | none => exact ⟨[], by simp only [reduceLevel, hfind]; exact .refl b []⟩
  | some lvl =>
      cases leaves with
      | false =>
          refine ⟨[], ?_⟩
          simp only [reduceLevel, hfind, Bool.false_eq_true, if_false]
          exact .setLadder _ _ _ _
      | true =>
          refine ⟨[(b.order o).prev, (b.order o).next], ?_⟩
          have hsame := h.removeLinks_same hi
            { lvl with totalQty := wrap64 (lvl.totalQty - amount) }
          simp only [reduceLevel, hfind, if_true]
          split
          · exact hsame.trans (.setLadder _ _ _ _)
          · exact hsame.trans (.setLadder _ _ _ _)

theorem order_unlinked_of_same {q : List OrderId} (h : SameButLinks b b' q)
    (hi : b.orderMap i = some o) : (b'.order o).unlinked = (b.order o).unlinked := by
  have hpayload := h.payload i
  rw [lookup_of_orderMap hi, lookup_of_orderMap (by rw [h.orderMap]; exact hi)] at hpayload
  exact Option.some.inj hpayload

/-- A write to a registered order, as the roster sees it. -/
theorem roster_write (hb : Registry b) (hi : b.orderMap i = some o) (f : Order → Order) :
    (b.write o f).roster = b.roster.put i (f (b.order o)).unlinked := by
  refine Roster.ext (funext fun j => ?_) rfl rfl rfl rfl rfl rfl
  show ((b.write o f).lookup j).map Order.unlinked = Function.update b.roster.entry i _ j
  rw [lookup_write hb hi, Function.update_apply]
  split
  · rw [lookup_of_orderMap hi]
    rfl
  · rfl

/-- The first half of a fill. -/
theorem roster_chargeFill (hb : Registry b) (hi : b.orderMap i = some maker)
    (ht : b.orderMap t = some taker) (hne : i ≠ t) (fill : Int) :
    (b.chargeFill maker taker fill).roster =
      { (b.roster.put i ((b.order maker).unlinked.reduce fill)).put t
          ((b.order taker).unlinked.reduce fill) with
        tradeIdSeq := b.roster.tradeIdSeq + 1
        totalVolume := b.roster.totalVolume + UInt64.ofInt fill
        tradesExecuted := b.roster.tradesExecuted + 1 } := by
  have hslot : taker ≠ maker := fun heq => hne (hb.inj hi (heq ▸ ht))
  have hb₁ : Registry (b.write maker (Order.reduce fill)) :=
    (SameRegistry.write b maker (f := Order.reduce fill) fun _ => rfl).registry hb
  have hwrites := roster_write hb₁ (i := t) (o := taker) ht (Order.reduce fill)
  rw [roster_write hb hi, order_write_ne _ _ hslot] at hwrites
  have hentry := congrArg Roster.entry hwrites
  exact Roster.ext hentry rfl rfl rfl rfl rfl rfl

/-- The end of a fill for the maker. -/
theorem roster_settleMaker (hb : Registry b) (hi : b.orderMap i = some maker) :
    (b.settleMaker maker).roster =
      if (b.order maker).remaining = 0 then
        (b.roster.retire i).tell (.onOrderFilled ((b.order maker).unlinked.setStatus .filled))
      else b.roster.put i ((b.order maker).unlinked.setStatus .partiallyFilled) := by
  split
  · next hzero =>
      have hretired := settleMaker_filled (x := ⟨i, 0⟩) hb hi hzero
      have hlookup := hretired.lookup hb hi
      refine Roster.ext (funext fun j => ?_) ?_ ?_ ?_ ?_ ?_ ?_
      · show Option.map Order.unlinked _ = Function.update b.roster.entry i none j
        rw [hlookup, Function.update_apply]
        split <;> rfl
      · exact hretired.freeTop
      all_goals rw [settleMaker, if_pos hzero]
      · rfl
      · rfl
      · rfl
      · rfl
      · show List.filterMap Event.unlinked
          (b.log ++ [.onOrderFilled ((b.write maker (Order.setStatus .filled)).order maker)]) = _
        rw [order_write_self, List.filterMap_append]
        rfl
  · next hzero =>
      rw [settleMaker, if_neg hzero]
      exact roster_write hb hi _

/-- What charging leaves in the two slots. -/
theorem order_chargeFill (b : OrderBook) (hslot : maker ≠ taker) (fill : Int) :
    (b.chargeFill maker taker fill).order maker = (b.order maker).reduce fill ∧
      (b.chargeFill maker taker fill).order taker = (b.order taker).reduce fill := by
  constructor
  · show ((b.write maker _).write taker _).order maker = _
    rw [order_write_ne _ _ hslot, order_write_self]
  · show ((b.write maker _).write taker _).order taker = _
    rw [order_write_self, order_write_ne _ _ (Ne.symm hslot)]

theorem Linkage.chargeFill (h : Linkage n b) (hi : b.orderMap i = some maker)
    (ht : b.orderMap t = some taker) (fill : Int) : Linkage n (b.chargeFill maker taker fill) := by
  have h₁ := h.write hi (f := Order.reduce fill) (fun _ => rfl) fun x => ⟨rfl, rfl, rfl, rfl⟩
  have h₂ := h₁.write (i := t) (o := taker) ht (f := Order.reduce fill) (fun _ => rfl)
    fun x => ⟨rfl, rfl, rfl, rfl⟩
  exact h₂.congr ⟨h₂.registry.inj, h₂.registry.held, h₂.registry.distinct, h₂.registry.named⟩ rfl rfl

/-- A fill up to the taker's status: the maker is charged, and retired with nothing left. -/
theorem fillMaker_roster (h : Linkage n b) (hi : b.orderMap i = some maker)
    (ht : b.orderMap t = some taker) (hne : i ≠ t)
    (hside : (b.order maker).side = s) (fill : Int) :
    let b₃ := ((b.chargeFill maker taker fill).reduceLevel s maker fill
      (decide ((b.order maker).remaining = fill))).settleMaker maker
    Linkage n b₃ ∧ b₃.orderMap t = some taker ∧
      (b₃.order taker).unlinked = ((b.order taker).reduce fill).unlinked ∧
      b₃.roster =
        { (b.chargeFill maker taker fill).roster with
          entry := Function.update (b.chargeFill maker taker fill).roster.entry i
            (if (b.order maker).remaining = fill then none
              else some ((b.order maker).unlinked.afterFill fill))
          free := if (b.order maker).remaining = fill then b.roster.free + 1 else b.roster.free
          log := b.roster.log ++ if (b.order maker).remaining = fill then
            [.onOrderFilled ((b.order maker).unlinked.afterFill fill)] else [] } := by
  have hslot : maker ≠ taker := fun heq => hne (h.registry.inj hi (heq ▸ ht))
  have h₁ := h.chargeFill hi ht fill
  obtain ⟨hmaker, htaker⟩ := order_chargeFill b hslot fill
  generalize hb₁ : b.chargeFill maker taker fill = b₁ at h₁ hmaker htaker ⊢
  have hi₁ : b₁.orderMap i = some maker := hb₁ ▸ hi
  have ht₁ : b₁.orderMap t = some taker := hb₁ ▸ ht
  have hside₁ : (b₁.order maker).side = s := hmaker ▸ hside
  have hfree : b₁.roster.free = b.roster.free := hb₁ ▸ rfl
  have hlog : b₁.roster.log = b.roster.log := hb₁ ▸ rfl
  obtain ⟨q, hsame⟩ := h₁.reduceLevel_same hi₁ s fill (decide ((b.order maker).remaining = fill))
  have hdepart : (b.order maker).remaining = fill →
      ∀ {b'}, Retired (b₁.reduceLevel s maker fill
        (decide ((b.order maker).remaining = fill))) b' i maker → Linkage n b' := fun heq => by
    rw [decide_eq_true heq]
    exact fun hretired => h₁.depart hi₁ hside₁ hretired
  have hlower : (b.order maker).remaining ≠ fill → Linkage n (b₁.reduceLevel s maker fill
      (decide ((b.order maker).remaining = fill))) := fun hneq => by
    rw [decide_eq_false hneq]
    exact h₁.lower s maker fill
  generalize b₁.reduceLevel s maker fill _ = b₂ at hsame hdepart hlower ⊢
  have hregistry := hsame.registry h₁.registry
  have hmaker₂ := order_unlinked_of_same hsame hi₁
  have htaker₂ := order_unlinked_of_same hsame ht₁
  have hroster := hsame.roster
  have hi₂ := hsame.orderMap ▸ hi₁
  have ht₂ := hsame.orderMap ▸ ht₁
  have hrem : (b₂.order maker).remaining = (b.order maker).remaining - fill := by
    have hr := congrArg Order.remaining hmaker₂
    rw [hmaker] at hr
    exact hr
  have hsettle := roster_settleMaker hregistry hi₂
  rw [hroster, hmaker₂, hmaker, hrem] at hsettle
  -- A maker that is used up departs from its level; another one is written in place.
  by_cases heq : (b.order maker).remaining = fill
  · have hzero : (b₂.order maker).remaining = 0 := by rw [hrem, heq, Int.sub_self]
    have hretired := settleMaker_filled (x := ⟨i, 0⟩) hregistry hi₂ hzero
    rw [if_pos (by rw [heq, Int.sub_self])] at hsettle
    refine ⟨hdepart heq hretired, ?_, ?_, ?_⟩
    · rw [hretired.orderMap, Function.update_of_ne (Ne.symm hne)]
      exact ht₂
    · rw [hretired.order _ (Ne.symm hslot), htaker₂, htaker]
    · rw [hsettle, if_pos heq, if_pos heq, if_pos heq, ← hfree, ← hlog]
      have hfill : (b.order maker).unlinked.afterFill fill =
          ((b.order maker).reduce fill).unlinked.setStatus .filled := by
        rw [Order.afterFill, fillStatus, if_pos (show _ - fill = 0 by
          rw [show (b.order maker).unlinked.remaining = _ from heq, Int.sub_self])]
        rfl
      rw [hfill]
      rfl
  · have hzero : ¬ (b₂.order maker).remaining = 0 := by
      rw [hrem]
      omega
    rw [if_neg (by omega)] at hsettle
    have hb₃ : b₂.settleMaker maker = b₂.write maker (Order.setStatus .partiallyFilled) := by
      rw [settleMaker, if_neg hzero]
    refine ⟨?_, ?_, ?_, ?_⟩
    · rw [hb₃]
      exact (hlower heq).write hi₂ (fun _ => rfl) fun x => ⟨rfl, rfl, rfl, rfl⟩
    · rw [hb₃]
      exact ht₂
    · rw [hb₃, order_write_ne _ _ (Ne.symm hslot), htaker₂, htaker]
    · rw [hsettle, if_neg heq, if_neg heq, if_neg heq, ← hfree, ← hlog, List.append_nil]
      have hfill : (b.order maker).unlinked.afterFill fill =
          ((b.order maker).reduce fill).unlinked.setStatus .partiallyFilled := by
        rw [Order.afterFill, fillStatus, if_neg (show ¬ _ - fill = 0 by
          rw [show (b.order maker).unlinked.remaining = (b.order maker).remaining from rfl]; omega)]
        rfl
      rw [hfill]
      rfl

/-- A fill does to the roster what `Roster.fill` says. -/
theorem fillOrder_roster (h : Linkage n b) (hi : b.orderMap i = some maker)
    (ht : b.orderMap t = some taker) (hne : i ≠ t)
    (hside : (b.order maker).side = (b.order taker).side.opposite) (fill : Int) :
    let r := b.fillOrder maker taker fill
    Linkage n r.1 ∧ r.1.orderMap t = some taker ∧
      r.1.roster = b.roster.fill (b.order maker).unlinked (b.order taker).unlinked fill ∧
      r.2 = b.roster.trade (b.order maker).unlinked (b.order taker).unlinked fill := by
  have hslot : maker ≠ taker := fun heq => hne (h.registry.inj hi (heq ▸ ht))
  obtain ⟨hmaker, htaker⟩ := order_chargeFill b hslot fill
  obtain ⟨h₃, ht₃, htaker₃, hroster⟩ := fillMaker_roster h hi ht hne hside fill
  have hcharge := roster_chargeFill h.registry hi ht hne fill
  have hidm : (b.order maker).id = i := (h.registry.named (lookup_of_orderMap hi)).1
  have hidt : (b.order taker).id = t := (h.registry.named (lookup_of_orderMap ht)).1
  have hdecide : decide (((b.order maker).reduce fill).remaining = 0) =
      decide ((b.order maker).remaining = fill) :=
    decide_eq_decide.mpr Int.sub_eq_zero
  have htside : ((b.order taker).reduce fill).side = (b.order taker).side := rfl
  simp only [fillOrder, hmaker, htaker, hdecide, htside]
  generalize settleMaker _ maker = b₃ at h₃ ht₃ htaker₃ hroster ⊢
  have hrem : (b₃.order taker).remaining = (b.order taker).remaining - fill :=
    congrArg Order.remaining htaker₃
  have hwrite := h₃.write ht₃ (f := Order.setStatus (fillStatus (b₃.order taker).remaining))
    (fun _ => rfl) fun x => ⟨rfl, rfl, rfl, rfl⟩
  refine ⟨hwrite.congr ⟨hwrite.registry.inj, hwrite.registry.held, hwrite.registry.distinct,
    hwrite.registry.named⟩ rfl rfl, ht₃, ?_, rfl⟩
  have hafter : (Order.setStatus (fillStatus (b₃.order taker).remaining) (b₃.order taker)).unlinked =
      (b.order taker).unlinked.afterFill fill := by
    rw [hrem]
    exact congrArg (Order.setStatus (fillStatus ((b.order taker).remaining - fill))) htaker₃
  have hentry := congrArg Roster.entry (roster_write h₃.registry ht₃
    (Order.setStatus (fillStatus (b₃.order taker).remaining)))
  rw [hafter] at hentry
  have hfree := congrArg Roster.free hroster
  refine Roster.ext ?_ hfree ?_ ?_ ?_ ?_ ?_
  · refine hentry.trans ?_
    show Function.update b₃.roster.entry t _ = Function.update (Function.update _ (b.order maker).id _)
      (b.order taker).id _
    rw [hroster, hidm, hidt]
    funext j
    simp only [hcharge, Roster.put, Function.update_apply, Order.unlinked_remaining]
    by_cases hjt : j = t
    · simp only [if_pos hjt]
    · by_cases hji : j = i
      · simp only [if_neg hjt, if_pos hji]
        rfl
      · simp only [if_neg hjt, if_neg hji]
  · have hfield := congrArg Roster.orderIdSeq hroster
    have hcharged := congrArg Roster.orderIdSeq hcharge
    exact hfield.trans hcharged
  · have hfield := congrArg Roster.tradeIdSeq hroster
    have hcharged := congrArg Roster.tradeIdSeq hcharge
    exact hfield.trans hcharged
  · have hfield := congrArg Roster.totalVolume hroster
    have hcharged := congrArg Roster.totalVolume hcharge
    exact hfield.trans hcharged
  · have hfield := congrArg Roster.tradesExecuted hroster
    have hcharged := congrArg Roster.tradesExecuted hcharge
    exact hfield.trans hcharged
  · have hlog : b₃.log.filterMap Event.unlinked = _ := congrArg Roster.log hroster
    show List.filterMap Event.unlinked (b₃.log ++ [_]) = _
    rw [List.filterMap_append, hlog]
    rfl

/-! ### The loops -/

theorem lookup_of_entry {x : Order} (h : b.roster.entry i = some x) :
    ∃ y, b.lookup i = some y ∧ y.unlinked = x :=
  Option.map_eq_some_iff.mp h

theorem roster_entry_id (hb : Registry b) (hi : b.orderMap i = some o) :
    b.roster.entry (b.order o).unlinked.id = some (b.order o).unlinked := by
  rw [Order.unlinked_id, (hb.named (lookup_of_orderMap hi)).1]
  exact roster_entry hi

/-- The taker after a fill. -/
theorem taker_filled {mk : Order} (hb : Registry b) (ht : b.orderMap t = some taker)
    (ht' : b'.orderMap t = some taker)
    (hroster : b'.roster = b.roster.fill mk (b.order taker).unlinked fill) :
    (b'.order taker).unlinked = (b.order taker).unlinked.afterFill fill := by
  have hid : (b.order taker).unlinked.id = t := (hb.named (lookup_of_orderMap ht)).1
  have hentry := roster_entry ht'
  rw [hroster, ← hid, Roster.fill_entry_taker] at hentry
  exact (Option.some.inj hentry).symm

/-- The orders that stay registered stay at their places. -/
theorem same_place {mk tk x y : Order} (hroster : b'.roster = b.roster.fill mk tk fill)
    (hm : b.roster.entry mk.id = some mk) (ht : b.roster.entry tk.id = some tk)
    (hy : b'.lookup j = some y) (hx : b.lookup j = some x) :
    y.side = x.side ∧ y.price = x.price := by
  have hentry : some y.unlinked = (b.roster.fill mk tk fill).entry j := by
    rw [← hroster]
    exact (congrArg (Option.map Order.unlinked) hy).symm
  have hold : b.roster.entry j = some x.unlinked := congrArg (Option.map Order.unlinked) hx
  have hsame : ∀ {z : Order}, some y.unlinked = some (z.afterFill fill) →
      b.roster.entry j = some z → y.side = x.side ∧ y.price = x.price := fun hyz hz => by
    obtain rfl := Option.some.inj (hz.symm.trans hold)
    exact ⟨(congrArg Order.side (Option.some.inj hyz) :), (congrArg Order.price (Option.some.inj hyz) :)⟩
  by_cases hjt : j = tk.id
  · subst hjt
    rw [Roster.fill_entry_taker] at hentry
    exact hsame hentry ht
  · by_cases hjm : j = mk.id
    · subst hjm
      rw [Roster.fill_entry_maker _ _ hjt] at hentry
      split at hentry
      · cases hentry
      · exact hsame hentry hm
    · rw [Roster.fill_entry_ne _ _ hjm hjt, hold] at hentry
      have heq := Option.some.inj hentry
      exact ⟨(congrArg Order.side heq :), (congrArg Order.price heq :)⟩

/-- A fill registers no order. -/
theorem unknown_filled {mk tk : Order} (hroster : b'.roster = b.roster.fill mk tk fill)
    (hm : b.roster.entry mk.id = some mk) (ht : b.roster.entry tk.id = some tk)
    (hj : b.lookup j = none) : b'.lookup j = none := by
  have hnone : b.roster.entry j = none := congrArg (Option.map Order.unlinked) hj
  have hjm : j ≠ mk.id := fun heq => by
    rw [heq, hm] at hnone
    cases hnone
  have hjt : j ≠ tk.id := fun heq => by
    rw [heq, ht] at hnone
    cases hnone
  have hentry := congrFun (congrArg Roster.entry hroster) j
  rw [Roster.fill_entry_ne _ _ hjm hjt, hnone] at hentry
  exact Option.map_eq_none_iff.mp hentry

/-- A turn of the inner loop: what follows the maker is again an order of the opposite side. -/
theorem fillOrder_turn (h : Linkage n b) (ht : b.orderMap t = some taker) (hn : n < t)
    (hcur : cur ≤ n) (hplace : ∀ x, b.lookup cur = some x → x.side = (b.order taker).side.opposite)
    (hi : b.orderMap cur = some maker) (fill : Int) :
    let r := b.fillOrder maker taker fill
    Linkage n r.1 ∧ r.1.orderMap t = some taker ∧ (r.1.order taker).side = (b.order taker).side ∧
      (∀ x, r.1.lookup (b.order maker).next = some x →
        x.side = (r.1.order taker).side.opposite) ∧
      r.1.roster = b.roster.fill (b.order maker).unlinked (b.order taker).unlinked fill ∧
      r.2 = b.roster.trade (b.order maker).unlinked (b.order taker).unlinked fill := by
  have hne : cur ≠ t := Nat.ne_of_lt (Nat.lt_of_le_of_lt hcur hn)
  have hm := lookup_of_orderMap hi
  obtain ⟨h₁, ht₁, hroster, htrade⟩ := fillOrder_roster h hi ht hne (hplace _ hm) fill
  generalize b.fillOrder maker taker _ = r at h₁ ht₁ hroster htrade ⊢
  have hside : (r.1.order taker).side = (b.order taker).side :=
    (congrArg Order.side (taker_filled h.registry ht ht₁ hroster) :)
  refine ⟨h₁, ht₁, hside, fun x hx => ?_, hroster, htrade⟩
  cases hy : b.lookup (b.order maker).next with
  | none =>
      rw [unknown_filled hroster (roster_entry_id h.registry hi)
        (roster_entry_id h.registry ht) hy] at hx
      cases hx
  | some y =>
      obtain ⟨hxside, -⟩ := same_place hroster (roster_entry_id h.registry hi)
        (roster_entry_id h.registry ht) hx hy
      rw [hside, hxside, (h.follow hm hy).2.1]
      exact hplace _ hm

/-- The inner loop makes fills, at orders of the opposite side. -/
theorem walkLevel_roster {fuel : Nat} {ts : List Trade} (h : Linkage n b)
    (ht : b.orderMap t = some taker) (hn : n < t) (hcur : cur ≤ n)
    (hplace : ∀ x, b.lookup cur = some x → x.side = (b.order taker).side.opposite)
    (hw : walkLevel fuel b taker cur = some (b', ts)) :
    Linkage n b' ∧ b'.orderMap t = some taker ∧ (b'.order taker).side = (b.order taker).side ∧
      Roster.Fills t b.roster ts b'.roster := by
  induction fuel generalizing b cur ts with
  | zero => cases hw
  | succ fuel ih =>
      rw [walkLevel] at hw
      split at hw
      · next hcond =>
          split at hw
          · obtain ⟨rfl, rfl⟩ := Prod.mk.inj (Option.some.inj hw)
            exact ⟨h, ht, rfl, .nil _⟩
          · next maker hi =>
              obtain ⟨w, hrest, heq⟩ := Option.map_eq_some_iff.mp hw
              obtain ⟨rfl, rfl⟩ := Prod.mk.inj heq
              clear hw heq
              have hne : cur ≠ t := Nat.ne_of_lt (Nat.lt_of_le_of_lt hcur hn)
              have hm := lookup_of_orderMap hi
              have hidm : (b.order maker).id = cur := (h.registry.named hm).1
              have hidt : (b.order taker).id = t := (h.registry.named (lookup_of_orderMap ht)).1
              obtain ⟨h₁, ht₁, hside, hplace', hroster, htrade⟩ := fillOrder_turn h ht hn hcur hplace
                hi (min (b.order taker).remaining (b.order maker).remaining)
              generalize b.fillOrder maker taker _ = r at h₁ ht₁ hside hplace' hroster htrade hrest ⊢
              obtain ⟨h', ht', hside', hfills⟩ := ih h₁ ht₁ (h.next_le hm) hplace' hrest
              refine ⟨h', ht', hside'.trans hside, ?_⟩
              rw [htrade]
              rw [← hidm] at hne
              refine .cons (roster_entry_id h.registry hi) (roster_entry ht) hidt hne hcond.2 ?_
              rw [Order.unlinked_remaining, Order.unlinked_remaining, ← hroster]
              exact hfills
      · obtain ⟨rfl, rfl⟩ := Prod.mk.inj (Option.some.inj hw)
        exact ⟨h, ht, rfl, .nil _⟩

/-- Dropping an empty level changes no link. -/
theorem Linkage.dropEmpty (h : Linkage n b) (s : Side) (key : Price) :
    Linkage n (b.dropEmpty s key) ∧ (b.dropEmpty s key).orderMap = b.orderMap ∧
      (b.dropEmpty s key).orderPool = b.orderPool ∧ (b.dropEmpty s key).roster = b.roster := by
  unfold OrderBook.dropEmpty
  split
  · split
    · have hsame := SameButLinks.setLadder b s ((b.ladder s).erase key) []
      refine ⟨h.mono (hsame.registry h.registry)
        (fun {j x} hj => ⟨x, by rwa [lookup_setLadder] at hj, .refl x⟩) fun {s' p lvl} hp => ?_,
        orderMap_setLadder _ _ _, orderPool_setLadder _ _ _, hsame.roster⟩
      by_cases hs : s' = s
      · subst hs
        rw [ladder_setLadder_self, SortedMap.find?_erase] at hp
        split at hp
        · cases hp
        · exact ⟨lvl, hp, rfl, rfl⟩
      · rw [ladder_setLadder_ne _ _ hs] at hp
        exact ⟨lvl, hp, rfl, rfl⟩
    · exact ⟨h, rfl, rfl, rfl⟩
  · exact ⟨h, rfl, rfl, rfl⟩

/-- The outer loop makes fills. -/
theorem sweep_roster {freed : TradeId → Price} {fuel : Nat} {ts : List Trade} (h : Linkage n b)
    (ht : b.orderMap t = some taker) (hn : n < t)
    (hs : sweep freed fuel b taker = some (b', ts)) :
    Linkage n b' ∧ b'.orderMap t = some taker ∧ Roster.Fills t b.roster ts b'.roster := by
  induction fuel generalizing b ts with
  | zero => cases hs
  | succ fuel ih =>
      rw [sweep_succ freed fuel rfl] at hs
      split at hs
      · split at hs
        · obtain ⟨rfl, rfl⟩ := Prod.mk.inj (Option.some.inj hs)
          exact ⟨h, ht, .nil _⟩
        · next p lvl hfirst =>
            split at hs
            · obtain ⟨rfl, rfl⟩ := Prod.mk.inj (Option.some.inj hs)
              exact ⟨h, ht, .nil _⟩
            · have hfind := SortedMap.first?_find hfirst
              obtain ⟨w, hwalk, hs⟩ := Option.bind_eq_some_iff.mp hs
              obtain ⟨w', hrest, heq⟩ := Option.map_eq_some_iff.mp hs
              obtain ⟨rfl, rfl⟩ := Prod.mk.inj heq
              obtain ⟨h₁, ht₁, -, hfills⟩ := walkLevel_roster h ht hn (h.ends hfind).1
                (fun x hx => (h.head hfind hx).2.1) hwalk
              obtain ⟨h₂, hmap, -, hroster⟩ := h₁.dropEmpty (b.order taker).side.opposite
                (readKey freed w.1 (b.order taker).side.opposite p)
              obtain ⟨h', ht', hfills'⟩ := ih h₂ (by rw [hmap]; exact ht₁) hrest
              rw [hroster] at hfills'
              exact ⟨h', ht', hfills.append hfills'⟩
      · obtain ⟨rfl, rfl⟩ := Prod.mk.inj (Option.some.inj hs)
        exact ⟨h, ht, .nil _⟩

/-! ### The calls -/

theorem Linkage.emit (h : Linkage n b) (e : Event) : Linkage n (b.emit e) :=
  h.congr ⟨h.registry.inj, h.registry.held, h.registry.distinct, h.registry.named⟩ rfl rfl

theorem roster_emit (b : OrderBook) {e e' : Event} (he : e.unlinked = some e') :
    (b.emit e).roster = b.roster.tell e' := by
  refine Roster.ext rfl rfl rfl rfl rfl rfl ?_
  show List.filterMap Event.unlinked (b.log ++ [e]) = _
  rw [List.filterMap_append, List.filterMap_cons_some he]
  rfl

@[simp] theorem roster_notifyBbo (b : OrderBook) : b.notifyBbo.roster = b.roster := by
  refine Roster.ext rfl rfl rfl rfl rfl rfl ?_
  show List.filterMap Event.unlinked (b.log ++ [.onBboUpdate b.bestBbo]) = _
  rw [List.filterMap_append]
  exact List.append_nil _

/-- Retiring an order, and nothing told about it. -/
theorem Retired.roster (h : Retired b b' i o) (hb : Registry b) (hi : b.orderMap i = some o)
    (htrade : b'.tradeIdSeq = b.tradeIdSeq) (hvolume : b'.stats.totalVolume = b.stats.totalVolume)
    (htrades : b'.stats.tradesExecuted = b.stats.tradesExecuted) (hlog : b'.log = b.log) :
    b'.roster = b.roster.retire i := by
  refine Roster.ext (funext fun j => ?_) h.freeTop h.orderIdSeq htrade hvolume htrades
    (congrArg (List.filterMap Event.unlinked) hlog)
  show (b'.lookup j).map Order.unlinked = Function.update b.roster.entry i none j
  rw [h.lookup hb hi, Function.update_apply]
  split <;> rfl

/-- `unregister` and `deallocate` together retire an order. -/
theorem retired_unregister (b : OrderBook) (i : OrderId) (o : Slot) :
    Retired b ((b.unregister i).deallocate o) i o :=
  ⟨rfl, rfl, rfl, rfl, fun _ _ => rfl, rfl⟩

/-- The steps by which `add_order` retires an order filled completely. -/
theorem retired_filled (b : OrderBook) (o : Slot) (hid : (b.order o).id = t) :
    let b₁ := b.write o (Order.setStatus .filled)
    let b₂ := b₁.unregister (b₁.order o).id
    let b₃ : OrderBook :=
      { b₂ with stats := { b₂.stats with ordersFilled := b₂.stats.ordersFilled + 1 } }
    Retired b ((b₃.emit (.onOrderFilled (b₃.order o))).deallocate o) t o := by
  refine ⟨rfl, ?_, rfl, rfl, fun slot hslot => order_write_ne b _ hslot, rfl⟩
  show Function.update b.orderMap ((b.write o _).order o).id none = _
  rw [order_write_self]
  exact congrArg (Function.update b.orderMap · none) hid

theorem roster_unregister (hb : Registry b) (hi : b.orderMap i = some o) :
    ((b.unregister i).deallocate o).roster = b.roster.retire i :=
  (retired_unregister b i o).roster hb hi rfl rfl rfl rfl

/-- Putting an order behind the last one changes links only. -/
theorem Linkage.restOrder_same (h : Linkage n b) (hi : b.orderMap i = some o) :
    ∃ q, SameButLinks b (b.restOrder o) q := by
  set lvl : PriceLevel :=
    { ((b.ladder (b.order o).side).find? (b.order o).price).getD {} with
      price := (b.order o).price } with hlvl
  have hrest : b.restOrder o = (b.levelAddOrder lvl o).1.setLadder (b.order o).side
      (((b.levelAddOrder lvl o).1.ladder (b.order o).side).insert (b.order o).price
        (b.levelAddOrder lvl o).2) := rfl
  have hsame : SameButLinks b (linkLast b i lvl.tail) (i :: [lvl.tail]) :=
    linkLast_same h.registry fun _ => List.mem_singleton.mpr rfl
  rw [hrest, levelAddOrder_eq h.registry hi]
  exact ⟨_, hsame.trans (.setLadder _ _ _ _)⟩

/-- The end of `add_order` does to the roster what `Roster.conclude` says. -/
theorem concludeAdd_roster (h : Linkage n b) (ht : b.orderMap t = some o) (hn : n < t)
    (type : OrderType) (result : AddResult) :
    let r := b.concludeAdd o type result
    Linkage t r.1 ∧ r.1.roster = (b.roster.conclude (b.order o).unlinked type result).1 ∧
      r.2 = (b.roster.conclude (b.order o).unlinked type result).2 := by
  have hid : (b.order o).id = t := (h.registry.named (lookup_of_orderMap ht)).1
  have hweak := h.weaken (Nat.le_of_lt hn)
  have hgone := hweak.retire (retired_unregister b t o) ht
  have hroster := roster_unregister h.registry ht
  simp only [concludeAdd, Roster.conclude, Order.unlinked_remaining, Order.unlinked_id,
    Order.unlinked_isActive, hid]
  split_ifs with hcrossed hactive hzero hdropped hlimit
  · exact ⟨hgone, hroster, rfl⟩
  · exact ⟨hweak, rfl, rfl⟩
  · have hfilled : (b.write o (Order.setStatus .filled)).order o =
        (b.order o).setStatus .filled := order_write_self b o _
    have hretired := retired_filled b o hid
    refine ⟨(hweak.retire hretired ht).emit _, (roster_notifyBbo _).trans ?_, rfl⟩
    refine Roster.ext (funext fun j => ?_) rfl rfl rfl rfl rfl ?_
    · show Option.map Order.unlinked _ = Function.update b.roster.entry t none j
      rw [hretired.lookup h.registry ht, Function.update_apply]
      split <;> rfl
    · show List.filterMap Event.unlinked
        (b.log ++ [.onOrderFilled ((b.write o (Order.setStatus .filled)).order o)]) = _
      rw [hfilled, List.filterMap_append]
      rfl
  · exact ⟨hgone.emit _, (roster_notifyBbo _).trans hroster, rfl⟩
  · obtain ⟨q, hsame⟩ := h.restOrder_same ht
    have hlinks := h.rest ht hn
    have horder := order_unlinked_of_same hsame ht
    have hadded : (Event.onOrderAdded ((b.restOrder o).order o)).unlinked =
        some (.onOrderAdded (b.order o).unlinked) := by
      rw [Event.unlinked, horder]
    refine ⟨(hlinks.emit _).emit _, (roster_notifyBbo _).trans ?_, rfl⟩
    rw [roster_emit _ hadded, hsame.roster]
  · exact ⟨hweak, rfl, rfl⟩

/-- Entering an order, as the roster sees it. -/
theorem roster_enrolled (hb : Registry b) {pool : MemoryPool Order maxOrders}
    (halloc : b.orderPool.allocate = some (o, pool)) {x : Order} (hx : x.id = b.orderIdSeq + 1)
    (hlinks : x.unlinked = x) :
    ((b.placeOrder pool o x).enroll x.id o).roster = b.roster.enter x := by
  obtain ⟨hregistry, hmap, horder, hlookup⟩ := hb.enrolled halloc hx
  have hfree := MemoryPool.allocate_freeTop halloc
  refine Roster.ext (funext fun j => ?_) hfree rfl rfl rfl rfl rfl
  show Option.map Order.unlinked _ = Function.update b.roster.entry x.id (some x) j
  rw [Function.update_apply]
  split
  · next hj => rw [hj, lookup_of_orderMap hmap, horder, Option.map_some, hlinks]
  · next hj =>
      rw [hlookup j hj]
      rfl

/-- An order given back has used up an id. -/
theorem roster_rejected (hb : Registry b) {pool : MemoryPool Order maxOrders}
    (halloc : b.orderPool.allocate = some (o, pool)) (x : Order) :
    ((b.placeOrder pool o x).deallocate o).roster =
      { b.roster with orderIdSeq := b.roster.orderIdSeq + 1 } := by
  have hfree : b.orderPool.freeTop ≠ 0 := fun hzero => by
    rw [MemoryPool.allocate_eq_none.mpr hzero] at halloc
    cases halloc
  refine Roster.ext (funext fun j => ?_) ?_ rfl rfl rfl rfl rfl
  · exact congrArg (Option.map Order.unlinked) (congrFun (placeOrder_lookup halloc hb x) j)
  · show pool.freeTop + 1 = b.orderPool.freeTop
    rw [MemoryPool.allocate_freeTop halloc]
    exact Nat.succ_pred_eq_of_ne_zero hfree

/-- How a call of `add_order` ends: refused, or with an FOK order given back, or with an
order entered, matched and concluded. -/
theorem addOrder_inv {freed : TradeId → Price} {fuel : Nat} {side : Side} {type : OrderType}
    {price : Price} {qty : Int} {exch : Exchange} {r : AddResult}
    (hadd : b.addOrder freed fuel side type price qty exch = some (b', r)) :
    b' = b ∧ r = {} ∨ ∃ o pool, 0 < qty ∧ b.orderPool.allocate = some (o, pool) ∧
      (type = .fok ∧ b' = (b.placeOrder pool o (b.newOrder side type price qty exch)).deallocate o ∧
          r = {} ∨
        ¬ (type = .limit ∧ price ≤ 0) ∧ ¬ (type = .fok ∧ b.canFillFok side price qty = false) ∧
        ∃ b₂ ts, sweep freed fuel ((b.placeOrder pool o (b.newOrder side type price qty exch)).enroll
            (b.orderIdSeq + 1) o) o = some (b₂, ts) ∧
          b₂.concludeAdd o type { id := b.orderIdSeq + 1, accepted := true, fills := ts } = (b', r)) := by
  rw [addOrder] at hadd
  split at hadd
  · obtain ⟨rfl, rfl⟩ := Prod.mk.inj (Option.some.inj hadd)
    exact .inl ⟨rfl, rfl⟩
  · next hqty =>
      split at hadd
      · obtain ⟨rfl, rfl⟩ := Prod.mk.inj (Option.some.inj hadd)
        exact .inl ⟨rfl, rfl⟩
      · next hprice =>
          split at hadd
          · obtain ⟨rfl, rfl⟩ := Prod.mk.inj (Option.some.inj hadd)
            exact .inl ⟨rfl, rfl⟩
          · next o pool halloc =>
              refine .inr ⟨o, pool, Int.not_le.mp hqty, halloc, ?_⟩
              dsimp only at hadd
              split at hadd
              · next hfok =>
                  obtain ⟨rfl, rfl⟩ := Prod.mk.inj (Option.some.inj hadd)
                  exact .inl ⟨hfok.1, rfl, rfl⟩
              · next hfok =>
                  obtain ⟨⟨b₂, ts⟩, hsweep, heq⟩ := Option.map_eq_some_iff.mp hadd
                  refine .inr ⟨hprice, fun hc => hfok ⟨hc.1, ?_⟩, b₂, ts, hsweep, heq⟩
                  have hentry : entryPrice side type price = price := by rw [hc.1]; rfl
                  exact (congrArg (b.canFillFok side · qty) hentry).trans hc.2

/-- A call of `add_order` is one of the roster's. -/
theorem addOrder_roster {freed : TradeId → Price} {fuel : Nat} {side : Side} {type : OrderType}
    {price : Price} {qty : Int} {exch : Exchange} {r : AddResult} (h : Linkage b.orderIdSeq b)
    (hadd : b.addOrder freed fuel side type price qty exch = some (b', r)) :
    Linkage b'.orderIdSeq b' ∧ Roster.Adds side type price qty exch b.roster r b'.roster := by
  rcases addOrder_inv hadd with ⟨rfl, rfl⟩ | ⟨o, pool, hqty, halloc, hend⟩
  · exact ⟨h, .refused _⟩
  · have hfree : b.roster.free ≠ 0 := fun hzero => by
      rw [MemoryPool.allocate_eq_none.mpr hzero] at halloc
      cases halloc
    rcases hend with ⟨hfok, rfl, rfl⟩ | ⟨-, -, b₂, ts, hsweep, heq⟩
    · have hrejected := h.registry.rejected halloc (b.newOrder side type price qty exch)
      have hlookup := placeOrder_lookup halloc h.registry (b.newOrder side type price qty exch)
      refine ⟨(h.mono hrejected (fun {j x} hj => ⟨x, hlookup ▸ hj, .refl x⟩)
        fun hp => ⟨_, hp, rfl, rfl⟩).weaken (Nat.le_succ _), ?_⟩
      rw [roster_rejected h.registry halloc]
      exact .unfillable _ hfok
    · have hid : (b.newOrder side type price qty exch).id = b.orderIdSeq + 1 := rfl
      have hentered := h.enrolled (Nat.le_refl _) halloc hid rfl rfl
      obtain ⟨-, hmap, -, -⟩ := h.registry.enrolled halloc hid
      have hroster := roster_enrolled h.registry halloc hid rfl
      obtain ⟨h₂, ht₂, hfills⟩ := sweep_roster hentered hmap (Nat.lt_succ_self _) hsweep
      rw [hroster] at hfills
      obtain ⟨h', hconclude, hresult⟩ := concludeAdd_roster h₂ ht₂ (Nat.lt_succ_self _) type
        { id := b.orderIdSeq + 1, accepted := true, fills := ts }
      rw [heq] at h' hconclude hresult
      have hseq := congrArg Roster.orderIdSeq hconclude
      rw [Roster.conclude_orderIdSeq, hfills.orderIdSeq] at hseq
      have hseq : b'.orderIdSeq = b.orderIdSeq + 1 := hseq
      refine ⟨hseq ▸ h', ?_⟩
      have hresult : r = _ := hresult
      rw [hconclude, hresult]
      exact .entered hqty hfree hfills (roster_entry ht₂)

/-- The end of `cancel_order`. -/
theorem roster_retireCancelled (hb : Registry b) (hi : b.orderMap i = some o) :
    (b.retireCancelled i o).roster =
      (b.roster.retire i).tell (.onOrderCancelled ((b.order o).unlinked.setStatus .cancelled)) := by
  have hlookup := (cancel_retired b i o).lookup hb hi
  have hstatus : (b.write o (Order.setStatus .cancelled)).order o =
      (b.order o).setStatus .cancelled := order_write_self b o _
  refine Roster.ext (funext fun j => ?_) rfl rfl rfl rfl rfl ?_
  · show ((b.retireCancelled i o).lookup j).map Order.unlinked = Function.update b.roster.entry i none j
    rw [hlookup, Function.update_apply]
    split <;> rfl
  · refine congrArg Roster.log (roster_notifyBbo _) |>.trans ?_
    show List.filterMap Event.unlinked
      (b.log ++ [.onOrderCancelled ((b.write o (Order.setStatus .cancelled)).order o)]) = _
    rw [hstatus, List.filterMap_append]
    rfl

theorem cancelOrder_roster (h : Linkage n b) (i : OrderId) :
    Linkage n (b.cancelOrder i).1 ∧ (b.cancelOrder i).1.roster = b.roster.cancel i := by
  rw [cancelOrder, Roster.cancel]
  cases hi : b.orderMap i with
  | none =>
      rw [roster_entry_none hi]
      exact ⟨h, rfl⟩
  | some o =>
      rw [roster_entry hi]
      dsimp only
      rw [Order.unlinked_isActive]
      split
      · obtain ⟨q, hsame⟩ := h.reduceLevel_same hi (b.order o).side (b.order o).remaining true
        have hdepart := fun {b'} (hretired : Retired (b.reduceLevel (b.order o).side o
          (b.order o).remaining true) b' i o) => h.depart hi rfl hretired
        generalize b.reduceLevel (b.order o).side o _ true = b₁ at hsame hdepart ⊢
        have hi₁ := hsame.orderMap ▸ hi
        have hregistry := hsame.registry h.registry
        refine ⟨hdepart (cancel_retired b₁ i o), ?_⟩
        rw [roster_retireCancelled hregistry hi₁, hsame.roster, order_unlinked_of_same hsame hi]
      · exact ⟨h, rfl⟩

theorem clear_roster (b : OrderBook) : Linkage 0 b.clear ∧ b.clear.roster = b.roster.clear := by
  have hrep : Represents b.clear Queues.empty :=
    .of_empty (fun s _ => by cases s <;> rfl) (fun _ => rfl) (MemoryPool.freeDistinct_reset _)
  refine ⟨⟨hrep.registry, fun h => (by cases h), fun h => (by cases h),
    fun {s _ _} h => (by cases s <;> cases h), fun h => (by cases h), fun h => (by cases h),
    fun {s _ _ _} h => (by cases s <;> cases h), fun {s _ _ _} h => (by cases s <;> cases h)⟩, ?_⟩
  refine (roster_notifyBbo _).trans (Roster.ext rfl rfl rfl rfl rfl rfl rfl)

/-- `b'` is the book after the call, and `r` what the caller is told: the fills, and the id
of an order that has been accepted. -/
def Answers (b : OrderBook) : Call → OrderBook → AddResult → Prop
  | .add side type price qty exch, b', r => ∃ freed,
      Returns (fun fuel => b.addOrder freed fuel side type price qty.toInt exch) (b', r)
  | .cancel id, b', r => b' = (b.cancelOrder id).1 ∧ r = {}
  | .modify id newPrice newQty, b', r => ∃ freed m,
      Returns (fun fuel => b.modifyOrder freed fuel id newPrice newQty.toInt) (b', m) ∧
        r = { id := m.newId, accepted := m.success, fills := m.fills }
  | .clear, b', r => b' = b.clear ∧ r = {}

theorem callStep_iff {c : Call} : CallStep b c b' ↔ ∃ r, Answers b c b' r := by
  cases c with
  | add => exact exists_comm
  | cancel => exact ⟨fun h => ⟨{}, h, rfl⟩, fun ⟨_, h, _⟩ => h⟩
  | modify =>
      constructor
      · rintro ⟨freed, m, h⟩
        exact ⟨_, freed, m, h, rfl⟩
      · rintro ⟨_, freed, m, h, -⟩
        exact ⟨freed, m, h⟩
  | clear => exact ⟨fun h => ⟨{}, h, rfl⟩, fun ⟨_, h, _⟩ => h⟩

/-- Every call keeps the links in order, and is a step of the roster. -/
theorem Answers.roster {c : Call} {r : AddResult} (h : Linkage b.orderIdSeq b)
    (hc : Answers b c b' r) : Linkage b'.orderIdSeq b' ∧ b.roster.Step c r b'.roster := by
  cases c with
  | add side type price qty exch =>
      obtain ⟨freed, fuel, hadd⟩ := hc
      obtain ⟨h', hadds⟩ := addOrder_roster h hadd
      exact ⟨h', .add hadds⟩
  | cancel i =>
      obtain ⟨rfl, rfl⟩ := hc
      obtain ⟨h', hcancel⟩ := cancelOrder_roster h i
      have hseq : (b.cancelOrder i).1.orderIdSeq = b.orderIdSeq :=
        (congrArg Roster.orderIdSeq hcancel).trans (Roster.cancel_orderIdSeq _ _)
      rw [hseq, hcancel]
      exact ⟨h', .cancel i⟩
  | modify i newPrice newQty =>
      obtain ⟨freed, m, ⟨fuel, hmodify⟩, rfl⟩ := hc
      simp only [modifyOrder] at hmodify
      split at hmodify
      · next hi =>
          obtain ⟨rfl, rfl⟩ := Prod.mk.inj (Option.some.inj hmodify)
          exact ⟨h, .unknown i newPrice newQty (roster_entry_none hi)⟩
      · next o hi =>
          obtain ⟨⟨b₂, r⟩, hadd, heq⟩ := Option.map_eq_some_iff.mp hmodify
          obtain ⟨rfl, rfl⟩ := Prod.mk.inj heq
          obtain ⟨h₁, hcancel⟩ := cancelOrder_roster h i
          have hseq : (b.cancelOrder i).1.orderIdSeq = b.orderIdSeq :=
            (congrArg Roster.orderIdSeq hcancel).trans (Roster.cancel_orderIdSeq _ _)
          rw [← hseq] at h₁
          obtain ⟨h', hadds⟩ := addOrder_roster h₁ hadd
          rw [hcancel] at hadds
          exact ⟨h', .modify (roster_entry hi) hadds⟩
  | clear =>
      obtain ⟨rfl, rfl⟩ := hc
      obtain ⟨h', hclear⟩ := clear_roster b
      rw [hclear]
      exact ⟨h', .clear⟩

/-- The links are in order in every book a run reaches. -/
theorem reach_linkage {ok : OrderBook → Call → Prop} (h : bookMachine.Reach ok b) :
    Linkage b.orderIdSeq b :=
  h.invariant (I := fun b => Linkage b.orderIdSeq b)
    (fun b hb => by
      obtain rfl := hb
      exact .init)
    fun _ _ _ hlinkage _ hstep => by
      obtain ⟨r, hanswers⟩ := callStep_iff.mp hstep
      exact (hanswers.roster hlinkage).1

end NanoVault.Book
