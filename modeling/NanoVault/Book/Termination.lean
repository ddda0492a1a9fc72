/-
When the loops of `match_order` end.

The outer loop spins on a level that has orders to count but none to walk. Taking an order
off a level it is not in makes such a level, unless the level holds a single order: then
the level is dropped, and its order rests nowhere from then on. `Unlinked` is what a run
keeps that cancels no other strays: the book represents queues, and an order in none of
them has no links.
-/
import NanoVault.Book.Residents

namespace NanoVault.Book

open Lib OrderBook

variable {b b' : OrderBook} {A A' : Queues} {s side : Side} {p price : Price} {i : OrderId}
  {x : Order}

/-- The order under `i`, if it is active and rests nowhere, finds no level with more than
one order at its price. -/
def MayCancel (b : OrderBook) (i : OrderId) : Prop :=
  ∀ o, b.lookup i = some o → o.isActive = true → i ∉ ids b.resting →
    ∀ lvl, (b.ladder o.side).find? o.price = some lvl → lvl.orderCount ≤ 1

/-- The calls that leave every level one that can be walked. -/
def SparesLevels (b : OrderBook) : Call → Prop
  | .cancel i => MayCancel b i
  | .modify i _ _ => MayCancel b i
  | _ => True

/-- The book represents queues, and the orders outside of them have no links. -/
structure Unlinked (b : OrderBook) (A : Queues) : Prop where
  represents : Represents b A
  stray : ∀ {i x}, b.lookup i = some x → (∀ s p, i ∉ ids (A s p)) → x.prev = 0 ∧ x.next = 0

namespace Unlinked

theorem empty (h : Represents b Queues.empty) (hmap : ∀ i, b.lookup i = none) :
    Unlinked b Queues.empty :=
  ⟨h, fun {i x} hx _ => by
    rw [hmap i] at hx
    cases hx⟩

theorem added (h : Unlinked b A) {t : OrderId} {stays : Prop} (ha : Added b b' A A' t stays) :
    Unlinked b' A' := by
  refine ⟨ha.represents, fun {i x} hx hapart => ?_⟩
  by_cases hi : i = t
  · subst hi
    by_cases hs : stays
    · obtain ⟨y, hy⟩ := ha.stray hs
      obtain rfl := Option.some.inj (hx.symm.trans hy.lookup)
      exact ⟨hy.prev, hy.next⟩
    · rcases ha.settled hs with hnone | ⟨s, p, hmem⟩
      · rw [hnone] at hx
        cases hx
      · exact absurd hmem (hapart s p)
  · rcases ha.kept i hi with hnone | ⟨s, p, hmem⟩ | ⟨heq, hnot⟩
    · rw [hnone] at hx
      cases hx
    · exact absurd hmem (hapart s p)
    · exact h.stray (heq ▸ hx) hnot

theorem cancel_resting (h : Unlinked b A) {y : Resting} (hy : y ∈ A s p) :
    ∃ A', Unlinked (b.cancelOrder y.id).1 A' := by
  obtain ⟨q₁, q₂, hq, hrep, hnone, -, hothers⟩ := h.represents.cancel_resting hy
  refine ⟨_, hrep, fun {i x} hx hapart => ?_⟩
  have hi : i ≠ y.id := by
    rintro rfl
    rw [hnone] at hx
    cases hx
  have hold : ∀ s' p', i ∉ ids (A s' p') := fun s' p' hmem =>
    hapart s' p' (Queues.mem_takeOut hq hi hmem)
  exact h.stray (hothers i (hold s p) ▸ hx) hold

/-- Taking an order without links off a level of one order drops the level. -/
theorem cancel_sole (h : Unlinked b A) (hx : b.lookup i = some x) (hactive : x.isActive = true)
    (hapart : ∀ s p, i ∉ ids (A s p)) {lvl : PriceLevel}
    (hfind : (b.ladder x.side).find? x.price = some lvl) (hcount : lvl.orderCount ≤ 1) :
    Unlinked (b.cancelOrder i).1 (A.set x.side x.price []) := by
  have hb := h.represents.registry
  obtain ⟨hprev, hnext⟩ := h.stray hx hapart
  obtain ⟨o, ho, rfl⟩ := lookup_eq_some.mp hx
  have hok := h.represents.levelOk_of_find hfind
  obtain ⟨y, hy⟩ : ∃ y, A (b.order o).side (b.order o).price = [y] := by
    have hlen : (A (b.order o).side (b.order o).price).length ≤ 1 := by
      rw [← List.length_map Resting.id]
      exact hok.count ▸ hcount
    exact List.length_eq_one_iff.mp
      (Nat.le_antisymm hlen (List.length_pos_iff.mpr hok.nonempty))
  have hlen : lvl.orderCount = 1 := by
    rw [hok.count, hy]
    rfl
  have hreduce : b.reduceLevel (b.order o).side o (b.order o).remaining true =
      b.setLadder (b.order o).side ((b.ladder (b.order o).side).erase (b.order o).price) := by
    have hne : (b.order o).prev ≠ i := by
      rw [hprev]
      exact Nat.ne_of_lt (hb.named hx).2.1
    simp only [reduceLevel, hfind, if_true, levelRemoveOrderLinks_eq hb ho hne]
    rw [hprev, hnext, hb.writeId_zero, hb.writeId_zero, hlen]
    rfl
  have hrep : Represents (b.setLadder (b.order o).side
      ((b.ladder (b.order o).side).erase (b.order o).price))
      (A.set (b.order o).side (b.order o).price []) := by
    refine h.represents.set ((SameRegistry.setLadder _ _ _).registry hb) ?_ (fun s p hsp => ?_)
      fun s p _ j _ => by rw [lookup_setLadder]
    · simp [LevelRep]
    · by_cases hs : s = (b.order o).side
      · subst hs
        rw [ladder_setLadder_self, SortedMap.find?_erase_ne _ fun hp => hsp ⟨rfl, hp.symm⟩]
      · rw [ladder_setLadder_ne _ _ hs]
  have hretired := cancel_retired (b.setLadder (b.order o).side
    ((b.ladder (b.order o).side).erase (b.order o).price)) i o
  have ho' : (b.setLadder (b.order o).side
      ((b.ladder (b.order o).side).erase (b.order o).price)).orderMap i = some o := by
    rw [orderMap_setLadder]
    exact ho
  have hlookup := hretired.lookup hrep.registry ho'
  rw [cancelOrder, ho]
  simp only [hactive, if_true, hreduce]
  refine ⟨hrep.retire hretired ho' fun s p hmem => ?_, fun {j z} hz hnot => ?_⟩
  · by_cases hsp : s = (b.order o).side ∧ p = (b.order o).price
    · rw [hsp.1, hsp.2, Queues.set_self] at hmem
      exact List.not_mem_nil hmem
    · rw [Queues.set_ne _ _ hsp] at hmem
      exact hapart s p hmem
  · rw [hlookup] at hz
    split at hz
    · cases hz
    · rw [lookup_setLadder] at hz
      by_cases hj : j = y.id
      · -- The one order of the level has no neighbours.
        have hlinked := hok.linked
        rw [hy, ids_cons, ids_nil] at hlinked
        rw [← prevOf_eq hz, ← nextOf_eq hz, hj]
        exact ⟨hlinked.1, hlinked.2.1⟩
      · refine h.stray hz fun s p hmem => ?_
        by_cases hsp : s = (b.order o).side ∧ p = (b.order o).price
        · rw [hsp.1, hsp.2, hy, ids_cons, ids_nil] at hmem
          exact hj (List.mem_singleton.mp hmem)
        · exact hnot s p (by rw [Queues.set_ne _ _ hsp]; exact hmem)

theorem cancel (h : Unlinked b A) (hok : MayCancel b i) : ∃ A', Unlinked (b.cancelOrder i).1 A' := by
  cases hx : b.lookup i with
  | none =>
      rw [cancelOrder_unknown hx]
      exact ⟨A, h⟩
  | some x =>
      by_cases hrests : ∃ s p, i ∈ ids (A s p)
      · obtain ⟨s, p, hmem⟩ := hrests
        obtain ⟨y, hy, rfl⟩ := mem_ids.mp hmem
        exact h.cancel_resting hy
      · have hapart : ∀ s p, i ∉ ids (A s p) := fun s p hmem => hrests ⟨s, p, hmem⟩
        cases hactive : x.isActive with
        | false =>
            rw [cancelOrder_inactive hx hactive]
            exact ⟨A, h⟩
        | true =>
            cases hfind : (b.ladder x.side).find? x.price with
            | none =>
                have hgone := h.represents.cancel_stray hx hactive hapart hfind
                refine ⟨A, hgone.represents, fun {j z} hz hnot => ?_⟩
                rw [hgone.lookup] at hz
                split at hz
                · cases hz
                · exact h.stray hz hnot
            | some lvl =>
                refine ⟨_, h.cancel_sole hx hactive hapart hfind (hok x hx hactive ?_ lvl hfind)⟩
                rw [h.represents.mem_restingIds]
                exact hrests

theorem add (h : Unlinked b A) (freed : TradeId → Price) (side : Side) (type : OrderType)
    (price : Price) (qty : Int) (exch : Exchange) :
    ∃ b' A' r, Returns (fun fuel => b.addOrder freed fuel side type price qty exch) (b', r) ∧
      Unlinked b' A' := by
  obtain ⟨b', A', r, hreturns, hadded⟩ := h.represents.add freed side type price qty exch
  exact ⟨b', A', r, hreturns, h.added hadded⟩

theorem modify (h : Unlinked b A) (freed : TradeId → Price) {newPrice : Price} {newQty : Int}
    (hok : MayCancel b i) :
    ∃ b' A' r, Returns (fun fuel => b.modifyOrder freed fuel i newPrice newQty) (b', r) ∧
      Unlinked b' A' := by
  cases ho : b.orderMap i with
  | none => exact ⟨b, A, {}, ⟨0, by simp only [modifyOrder, ho]⟩, h⟩
  | some o =>
      obtain ⟨A₁, h₁⟩ := h.cancel hok
      obtain ⟨b', A', r, ⟨fuel, hadd⟩, h'⟩ := h₁.add freed (b.order o).side (b.order o).type
        newPrice newQty (b.order o).exchange
      exact ⟨b', A', _, ⟨fuel, by simp only [modifyOrder, ho, hadd, Option.map_some]; rfl⟩, h'⟩

theorem clear (b : OrderBook) : Unlinked b.clear Queues.empty :=
  .empty (Sound.clear b).represents fun _ => rfl

theorem step (h : Unlinked b A) {c : Call} (hok : SparesLevels b c) (hstep : CallStep b c b') :
    ∃ A', Unlinked b' A' := by
  cases c with
  | add side type price qty exch =>
      obtain ⟨A', hadded⟩ := h.represents.add_step hstep
      exact ⟨A', h.added hadded⟩
  | cancel i =>
      obtain rfl := hstep
      exact h.cancel hok
  | modify i newPrice newQty =>
      rcases modify_step hstep with ⟨-, rfl⟩ | ⟨x, -, hadd⟩
      · exact ⟨A, h⟩
      · obtain ⟨A₁, h₁⟩ := h.cancel hok
        obtain ⟨A₂, hadded⟩ := h₁.represents.add_step hadd
        exact ⟨A₂, h₁.added hadded⟩
  | clear =>
      obtain rfl := hstep
      exact ⟨_, .clear b⟩

end Unlinked

/-- In every book reached without cancelling a stray at a level of several orders, every
further order is matched to an end, whatever a freed node reads as, and so is every
modification that spares the levels too. -/
theorem matching_ends (h : bookMachine.Reach SparesLevels b) (freed : TradeId → Price) :
    (∀ side type price (qty : Int64) exch,
      ∃ r, Returns (fun fuel => b.addOrder freed fuel side type price qty.toInt exch) r) ∧
    ∀ i newPrice (newQty : Int64), SparesLevels b (.modify i newPrice newQty) →
      ∃ r, Returns (fun fuel => b.modifyOrder freed fuel i newPrice newQty.toInt) r := by
  obtain ⟨A, hunlinked⟩ := h.invariant (I := fun b => ∃ A, Unlinked b A)
    (fun b hb => by
      obtain rfl := hb
      exact ⟨_, .empty .init fun _ => rfl⟩)
    (fun _ _ _ ⟨_, hunlinked⟩ hok hstep => hunlinked.step hok hstep)
  constructor
  · intro side type price qty exch
    obtain ⟨b', -, r, hreturns, -⟩ := hunlinked.add freed side type price qty.toInt exch
    exact ⟨(b', r), hreturns⟩
  · intro i newPrice newQty hok
    obtain ⟨b', -, r, hreturns, -⟩ := hunlinked.modify freed hok
    exact ⟨(b', r), hreturns⟩

/-- Two bids rest at 100, and an offer for both is matched to an end. -/
theorem matching_ends_twoBids :
    ∃ r, Returns (fun fuel => twoBids.addOrder (fun _ => 0) fuel .sell .ioc 100 10 .generic) r := by
  have hone : bookMachine.Reach SparesLevels (addedTo {} .buy .limit 100 5) :=
    .step (.init rfl) (i := .add .buy .limit 100 5 .generic) trivial
      ⟨fun _ => 0, { id := 1, accepted := true }, 3, rfl⟩
  have htwo : bookMachine.Reach SparesLevels twoBids :=
    .step hone (i := .add .buy .limit 100 5 .generic) trivial
      ⟨fun _ => 0, { id := 2, accepted := true }, 3, rfl⟩
  exact (matching_ends htwo fun _ => 0).1 .sell .ioc 100 10 .generic

/-! ### A level that cannot be walked -/

/-- A level with orders to count and no head keeps the outer loop going. -/
theorem sweep_spins (freed : TradeId → Price) {taker : Slot} {tk : Order} {lvl : PriceLevel}
    (htaker : b.order taker = tk) (hrem : 0 < tk.remaining)
    (hfirst : (b.ladder tk.side.opposite).first? = some (p, lvl))
    (hreach : tk.side.beyond tk.price p = false) (hhead : lvl.head = 0)
    (hcount : lvl.isEmpty = false) (fuel : Nat) : sweep freed fuel b taker = none := by
  have hfind := SortedMap.first?_find hfirst
  have hkey : readKey freed b tk.side.opposite p = p := by
    rw [readKey, hfind]
    rfl
  have hdrop : b.dropEmpty tk.side.opposite p = b := by
    simp [dropEmpty, hfind, hcount]
  induction fuel with
  | zero => rfl
  | succ fuel ih =>
      rw [sweep_succ freed fuel htaker, if_pos hrem, hfirst]
      simp only [hreach, Bool.false_eq_true, if_false, hhead]
      cases fuel with
      | zero => rfl
      | succ fuel =>
          rw [walkLevel, if_neg fun hc => hc.1 rfl, Option.bind_some]
          simp only [hkey, hdrop, ih, Option.map_none]

/-- An order that reaches such a level first is never matched to an end. -/
theorem addOrder_spins (freed : TradeId → Price) {qty : Int} (exch : Exchange) {lvl : PriceLevel}
    (hqty : 0 < qty) (hslot : b.orderPool.freeTop ≠ 0)
    (hfirst : (b.ladder side.opposite).first? = some (p, lvl))
    (hreach : side.beyond price p = false) (hhead : lvl.head = 0) (hcount : lvl.isEmpty = false)
    (fuel : Nat) : b.addOrder freed fuel side .ioc price qty exch = none := by
  obtain ⟨⟨o, pool⟩, halloc⟩ := Option.ne_none_iff_exists'.mp
    fun hnone => hslot (MemoryPool.allocate_eq_none.mp hnone)
  have horder : ((b.placeOrder pool o (b.newOrder side .ioc price qty exch)).enroll
      (b.newOrder side .ioc price qty exch).id o).order o = b.newOrder side .ioc price qty exch :=
    order_write_self { b with orderPool := pool, orderIdSeq := b.orderIdSeq + 1 } o fun _ => _
  have hspins := sweep_spins freed horder hqty hfirst hreach hhead hcount fuel
  rw [addOrder, if_neg (Int.not_le.mpr hqty), if_neg (by simp), halloc]
  exact (if_neg (by simp)).trans (congrArg (Option.map _) hspins)

/-- The two bids after a POST_ONLY bid at their price has been cancelled. -/
def brokenBids : OrderBook := ((addedTo twoBids .buy .postOnly 100 3).cancelOrder 3).1

theorem brokenBids_reached : bookMachine.Reach Machine.Any brokenBids := by
  have hthree : bookMachine.Reach Machine.Any (addedTo twoBids .buy .postOnly 100 3) :=
    .step (twoBids_reached.mono fun _ _ _ => trivial) (i := .add .buy .postOnly 100 3 .generic)
      trivial ⟨fun _ => 0, { id := 3, accepted := true }, 3, rfl⟩
  exact .step hthree (i := .cancel 3) trivial rfl

/-- An offer at 100 is never matched to an end: the level of the two bids counts one order
and has no head. -/
theorem matching_spins : ∃ b, bookMachine.Reach Machine.Any b ∧ ∀ freed, ¬ ∃ r,
    Returns (fun fuel => b.addOrder freed fuel .sell .ioc 100 5 .generic) r := by
  have hfree : brokenBids.orderPool.freeTop = maxOrders - 2 := rfl
  have hfirst : (brokenBids.ladder .buy).first? = some (100,
    { price := 100, totalQty := 7, orderCount := 1, head := 0, tail := 0 }) := rfl
  refine ⟨brokenBids, brokenBids_reached, fun freed ⟨r, fuel, hadd⟩ => ?_⟩
  have hspins : brokenBids.addOrder freed fuel .sell .ioc 100 5 .generic = none :=
    addOrder_spins freed .generic (by decide) (by rw [hfree]; decide) hfirst (by decide) rfl rfl fuel
  exact Option.some_ne_none r (hadd.symm.trans hspins)

end NanoVault.Book
