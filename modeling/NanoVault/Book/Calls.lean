/-
Runs of public calls on an order book.

A run starts from an empty book and makes one call after the other. A call that matches
has a step when its loops return; what a freed map node reads as may differ from call to
call. `BookInvariant` is the representation invariant in the terms of the source, and
`bookInvariant_of_represents` reads it off a book that represents queues whose totals fit
and which do not cross.
-/
import NanoVault.Lib.Machine
import NanoVault.Book.Adding

namespace NanoVault.Book

open Lib OrderBook

inductive Call where
  | add (side : Side) (type : OrderType) (price : Price) (qty : Int64) (exch : Exchange)
  | cancel (id : OrderId)
  | modify (id : OrderId) (newPrice : Price) (newQty : Int64)
  | clear
deriving DecidableEq, Repr

/-- `b'` is the book after the call returns. -/
def CallStep (b : OrderBook) : Call → OrderBook → Prop
  | .add side type price qty exch, b' => ∃ freed r,
      Returns (fun fuel => b.addOrder freed fuel side type price qty.toInt exch) (b', r)
  | .cancel id, b' => b' = (b.cancelOrder id).1
  | .modify id newPrice newQty, b' => ∃ freed r,
      Returns (fun fuel => b.modifyOrder freed fuel id newPrice newQty.toInt) (b', r)
  | .clear, b' => b' = b.clear

/-- All runs of public calls from an empty book. -/
def bookMachine : Machine OrderBook Call where
  init b := b = {}
  step := CallStep

/-- What is left of the order under an id. -/
def OrderBook.remainingOf (b : OrderBook) (i : OrderId) : Int :=
  ((b.lookup i).map Order.remaining).getD 0

/-- A level of the ladder: its key, its list of orders from `head` to `tail`, their count,
and their total. -/
structure LevelInvariant (b : OrderBook) (s : Side) (p : Price) (lvl : PriceLevel)
    (is : List OrderId) : Prop where
  price : lvl.price = p
  nonempty : is ≠ []
  distinct : is.Nodup
  head : lvl.head = headOr is 0
  tail : lvl.tail = lastOr is 0
  linked : Linked b.prevOf b.nextOf 0 is 0
  count : lvl.orderCount = is.length
  registered : ∀ i ∈ is, ∃ o, b.lookup i = some o ∧ o.id = i ∧ o.price = p ∧ o.side = s ∧
    0 < o.remaining
  total : lvl.totalQty = (is.map b.remainingOf).sum

/-- Every level is sound and the best bid is below the best ask. -/
structure BookInvariant (b : OrderBook) : Prop where
  level : ∀ s p lvl, (b.ladder s).find? p = some lvl → ∃ is, LevelInvariant b s p lvl is
  uncrossed : ∀ p lvl p' lvl', b.bidLadder.first? = some (p, lvl) →
    b.askLadder.first? = some (p', lvl') → p < p'

/-- No bid price reaches an ask price. -/
def Queues.Uncrossed (A : Queues) : Prop :=
  ∀ p p', A .buy p ≠ [] → A .sell p' ≠ [] → p < p'

/-- The quantity at each price fits into an `int64_t`. -/
def Queues.Bounded (A : Queues) : Prop := ∀ s p, volume (A s p) < 2 ^ 63

variable {b b' : OrderBook} {A A' : Queues} {s : Side} {p : Price} {i : OrderId}

theorem Represents.volume_nonneg (h : Represents b A) (s : Side) (p : Price) :
    0 ≤ volume (A s p) := by
  refine List.sum_nonneg fun r hr => ?_
  obtain ⟨x, hx, rfl⟩ := List.mem_map.mp hr
  obtain ⟨o, -, hrests⟩ := h.allRest s p x hx
  rw [← hrests.remaining]
  exact Int.le_of_lt hrests.positive

/-- Where the quantity at a price fits, the level's total is exact. -/
theorem Represents.total_eq (h : Represents b A) (hA : A.Bounded) {lvl : PriceLevel}
    (hfind : (b.ladder s).find? p = some lvl) : lvl.totalQty = volume (A s p) := by
  rw [(h.levelOk_of_find hfind).total]
  refine wrap64_of_range ?_ (hA s p)
  have := h.volume_nonneg s p
  omega

theorem bookInvariant_of_represents (h : Represents b A) (hbounded : A.Bounded)
    (huncrossed : A.Uncrossed) : BookInvariant b := by
  refine ⟨fun s p lvl hfind => ⟨ids (A s p), ?_⟩, fun p lvl p' lvl' hbid hask => ?_⟩
  · have hok := h.levelOk_of_find hfind
    refine ⟨hok.price, by simpa using hok.nonempty, hok.ascending.imp Nat.ne_of_lt, hok.head,
      hok.tail, hok.linked, hok.count, fun i hi => ?_, ?_⟩
    · obtain ⟨x, hx, rfl⟩ := mem_ids.mp hi
      obtain ⟨o, ho, hrests⟩ := hok.resting x hx
      exact ⟨o, ho, (h.registry.named ho).1, hrests.price, hrests.side, hrests.positive⟩
    · rw [h.total_eq hbounded hfind, volume, ids, List.map_map]
      refine congrArg List.sum (List.map_congr_left fun x hx => ?_)
      obtain ⟨o, ho, hrests⟩ := hok.resting x hx
      rw [Function.comp_apply, OrderBook.remainingOf, ho]
      exact hrests.remaining.symm
  · exact huncrossed p p'
      (h.levelOk_of_find (s := .buy) (SortedMap.first?_find hbid)).nonempty
      (h.levelOk_of_find (s := .sell) (SortedMap.first?_find hask)).nonempty

/-! ### Cancelling -/

theorem cancel_retired (b : OrderBook) (i : OrderId) (o : Slot) :
    Retired b (b.retireCancelled i o) i o :=
  ⟨rfl, rfl, rfl, rfl, fun _ hslot => order_write_ne b _ hslot, rfl⟩

theorem cancelOrder_unknown (h : b.lookup i = none) : (b.cancelOrder i).1 = b := by
  have hi : b.orderMap i = none := Option.map_eq_none_iff.mp h
  rw [cancelOrder, hi]

theorem cancelOrder_inactive {x : Order} (hx : b.lookup i = some x) (hactive : x.isActive = false) :
    (b.cancelOrder i).1 = b := by
  obtain ⟨o, ho, rfl⟩ := lookup_eq_some.mp hx
  rw [cancelOrder, ho]
  simp [hactive]

/-- A modification is a cancellation and a new order with the side and the type of the old
one, or nothing if the id is unknown. -/
theorem modify_step {newPrice : Price} {newQty : Int64}
    (h : CallStep b (.modify i newPrice newQty) b') :
    b.lookup i = none ∧ b' = b ∨ ∃ x, b.lookup i = some x ∧
      CallStep (b.cancelOrder i).1 (.add x.side x.type newPrice newQty x.exchange) b' := by
  obtain ⟨freed, m, fuel, hmodify⟩ := h
  simp only [modifyOrder] at hmodify
  split at hmodify
  · next ho =>
      exact .inl ⟨Option.map_eq_none_iff.mpr ho, (Prod.mk.inj (Option.some.inj hmodify)).1.symm⟩
  · next o ho =>
      obtain ⟨⟨b₂, r⟩, hadd, heq⟩ := Option.map_eq_some_iff.mp hmodify
      obtain ⟨rfl, -⟩ := Prod.mk.inj heq
      exact .inr ⟨_, lookup_of_orderMap ho, freed, r, fuel, hadd⟩

/-- Cancelling a resting order takes it out of its queue and retires it. -/
theorem Represents.cancel_resting (h : Represents b A) {y : Resting} (hy : y ∈ A s p) :
    ∃ q₁ q₂, A s p = q₁ ++ y :: q₂ ∧
      Represents (b.cancelOrder y.id).1 (A.set s p (q₁ ++ q₂)) ∧
      (b.cancelOrder y.id).1.lookup y.id = none ∧
      (∀ j, j ≠ y.id → ((b.cancelOrder y.id).1.lookup j).map Order.unlinked =
        (b.lookup j).map Order.unlinked) ∧
      ∀ j, j ∉ ids (A s p) → (b.cancelOrder y.id).1.lookup j = b.lookup j := by
  obtain ⟨x, hx, hrests⟩ := h.allRest s p y hy
  obtain ⟨o, ho, rfl⟩ := lookup_eq_some.mp hx
  obtain ⟨q₁, q₂, hq⟩ := List.append_of_mem hy
  have hmem : y.id ∈ ids (A s p) := mem_ids.mpr ⟨y, hy, rfl⟩
  obtain ⟨hrep, hsame⟩ := h.takeOut hq (.refl b A y.id) ho hrests.price hrests.remaining
  have hnot : ∀ s' p', y.id ∉ ids (A.set s p (q₁ ++ q₂) s' p') := by
    intro s' p' hmem'
    by_cases hsp : s' = s ∧ p' = p
    · obtain ⟨lvl, -, hok⟩ := h.levelOk (List.ne_nil_of_mem hy)
      rw [hsp.1, hsp.2, Queues.set_self] at hmem'
      exact nodup_of_level (hq ▸ hok) hmem'
    · rw [Queues.set_ne _ _ hsp] at hmem'
      exact hsp (h.unique hmem hmem')
  have hcancel : (b.cancelOrder y.id).1 =
      (b.reduceLevel s o (b.order o).remaining true).retireCancelled y.id o := by
    rw [cancelOrder, ho]
    dsimp only
    rw [if_pos hrests.active, hrests.side]
  have ho' := hsame.orderMap ▸ ho
  have hretired := cancel_retired (b.reduceLevel s o (b.order o).remaining true) y.id o
  have hlookup := hretired.lookup hrep.registry ho'
  rw [hcancel]
  refine ⟨q₁, q₂, hq, hrep.retire hretired ho' hnot, ?_, fun j hj => ?_, fun j hj => ?_⟩
  · rw [hlookup, if_pos rfl]
  · rw [hlookup, if_neg hj]
    exact hsame.payload j
  · have hne : j ≠ y.id := fun heq => hj (heq ▸ hmem)
    rw [hlookup, if_neg hne, hsame.others j]
    intro hmem'
    rw [hq] at hj
    simp only [ids_append, ids_cons, List.mem_append, List.mem_cons] at hmem' hj
    tauto

/-- Cancelling an order that rests nowhere and has no level at its price retires it. -/
theorem Represents.cancel_stray (h : Represents b A) {x : Order} (hx : b.lookup i = some x)
    (hactive : x.isActive = true) (hstray : ∀ s p, i ∉ ids (A s p))
    (hfind : (b.ladder x.side).find? x.price = none) : Gone b (b.cancelOrder i).1 A i := by
  obtain ⟨o, ho, rfl⟩ := lookup_eq_some.mp hx
  have hretired := cancel_retired b i o
  rw [cancelOrder, ho]
  simp only [hactive, if_true, reduceLevel, hfind]
  exact ⟨h.retire hretired ho hstray, hretired.lookup h.registry ho, hretired.orderIdSeq⟩

end NanoVault.Book
