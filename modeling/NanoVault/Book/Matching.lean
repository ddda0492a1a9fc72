/-
`fill_order` and the two loops of `match_order` on a book that represents given queues.

`fillOrder_spec` is one fill at the front of a queue. `walkLevel_spec` is the inner loop:
by induction on the queue it does what `consume` does. `sweep_spec` is the outer loop: by
induction on the levels it does what `sweepLevels` does, and the freed node it reads its
cleanup key from makes no difference, since no level it could find is empty.
-/
import NanoVault.Book.Refinement

namespace NanoVault.Book

open Lib OrderBook

variable {b b' : OrderBook} {A : Queues} {p : Price} {maker taker : Slot} {tk : Order}
  {x : Resting} {q : Queue} {fill : Int}

/-- The incoming order: registered in `slot`, resting in no queue. -/
structure Taker (b : OrderBook) (A : Queues) (slot : Slot) (tk : Order) : Prop where
  registered : b.orderMap tk.id = some slot
  order : b.order slot = tk
  apart : ∀ s p, tk.id ∉ ids (A s p)

/-- A taker is found under its id. -/
theorem Taker.lookup (h : Taker b A taker tk) : b.lookup tk.id = some tk := by
  rw [lookup_of_orderMap h.registered, h.order]

/-- A step that leaves the taker's entry alone and rests no new order keeps the taker. -/
theorem Taker.congr {A' : Queues} {tk' : Order} (h : Taker b A taker tk)
    (hmap : b'.orderMap tk.id = b.orderMap tk.id) (horder : b'.order taker = tk')
    (hid : tk'.id = tk.id) (hA : ∀ s p, tk.id ∈ ids (A' s p) → tk.id ∈ ids (A s p)) :
    Taker b' A' taker tk' :=
  ⟨by rw [hid, hmap]; exact h.registered, horder, fun s p hmem => by
    rw [hid] at hmem
    exact h.apart s p (hA s p hmem)⟩

/-- The taker as one fill leaves it. -/
def Order.afterFill (fill : Int) (tk : Order) : Order :=
  (tk.reduce fill).setStatus (fillStatus (tk.remaining - fill))

/-! ### One fill -/

/-- Charging maker and taker writes to these two orders only, and not to their links. -/
theorem chargeFill_spec (fill : Int) (h : Represents b A) (ht : Taker b A taker tk)
    (hm : b.orderMap x.id = some maker) (hne : x.id ≠ tk.id) :
    let b₁ := b.chargeFill maker taker fill
    WrittenTo b b₁ A x.id ∧ b₁.order maker = (b.order maker).reduce fill ∧
      b₁.order taker = tk.reduce fill ∧
      ∀ j, j ≠ x.id → j ≠ tk.id → b₁.lookup j = b.lookup j := by
  have hslot : maker ≠ taker := fun heq => hne (h.registry.inj hm (heq ▸ ht.registered))
  have hsame₁ : SameRegistry b (b.write maker (Order.reduce fill)) := .write b maker fun _ => rfl
  have hsame : SameRegistry b (b.chargeFill maker taker fill) :=
    hsame₁.trans ⟨rfl, rfl, rfl, rfl,
      (SameRegistry.write _ taker (f := Order.reduce fill) fun _ => rfl).named⟩
  have hlookup : ∀ j, (b.chargeFill maker taker fill).lookup j =
      if j = tk.id then some (tk.reduce fill) else if j = x.id then
        some ((b.order maker).reduce fill) else b.lookup j := fun j => by
    show ((b.write maker (Order.reduce fill)).write taker (Order.reduce fill)).lookup j = _
    rw [lookup_write (hsame₁.registry h.registry) ht.registered, lookup_write h.registry hm,
      lookup_write h.registry hm, if_neg (Ne.symm hne), ht.lookup, lookup_of_orderMap hm]
    rfl
  refine ⟨⟨hsame, rfl, ?_, ?_, ?_⟩, ?_, ?_, ?_⟩
  · funext j
    rw [OrderBook.prevOf, OrderBook.prevOf, hlookup]
    split_ifs with hj hj'
    · rw [hj, ht.lookup]; rfl
    · rw [hj', lookup_of_orderMap hm]; rfl
    · rfl
  · funext j
    rw [OrderBook.nextOf, OrderBook.nextOf, hlookup]
    split_ifs with hj hj'
    · rw [hj, ht.lookup]; rfl
    · rw [hj', lookup_of_orderMap hm]; rfl
    · rfl
  · intro s p j hj hjx
    have hjt : j ≠ tk.id := by
      rintro rfl
      exact ht.apart s p hj
    rw [hlookup, if_neg hjt, if_neg hjx]
  · show ((b.write maker _).write taker _).order maker = _
    rw [order_write_ne _ _ hslot, order_write_self]
  · show ((b.write maker _).write taker _).order taker = _
    rw [order_write_self, order_write_ne _ _ (Ne.symm hslot), ht.order]
  · intro j hjx hjt
    rw [hlookup, if_neg hjt, if_neg hjx]

/-- Settling a maker with nothing left retires it. -/
theorem settleMaker_filled (hb : Registry b) (hm : b.orderMap x.id = some maker)
    (hzero : (b.order maker).remaining = 0) : Retired b (b.settleMaker maker) x.id maker := by
  have hid : (b.order maker).id = x.id := (hb.named (lookup_of_orderMap hm)).1
  rw [settleMaker, if_pos hzero]
  refine ⟨rfl, ?_, rfl, rfl, fun slot hslot => ?_, rfl⟩
  · show Function.update b.orderMap _ none = _
    rw [order_write_self]
    exact congrArg (Function.update b.orderMap · none) hid
  · exact order_write_ne b _ hslot

/-- The queue behind a fill at its front. -/
def afterFront (x : Resting) (q : Queue) (fill : Int) : Queue :=
  if x.remaining = fill then q else ⟨x.id, x.remaining - fill⟩ :: q

/-- What a fill does up to the taker's status. -/
structure FilledMaker (b b₃ : OrderBook) (A A' : Queues) (p : Price) (taker : Slot) (tk : Order)
    (fill : Int) : Prop where
  represents : Represents b₃ A'
  registered : b₃.orderMap tk.id = some taker
  order : b₃.order taker = tk.reduce fill
  orderIdSeq : b₃.orderIdSeq = b.orderIdSeq
  others : ∀ j, j ≠ tk.id → j ∉ ids (A tk.side.opposite p) → b₃.lookup j = b.lookup j

/-- Every order but `t` is gone, rests, or is as it was and rested nowhere before. -/
def Kept (b b' : OrderBook) (A A' : Queues) (t : OrderId) : Prop :=
  ∀ j, j ≠ t → b'.lookup j = none ∨ (∃ s p, j ∈ ids (A' s p)) ∨
    (b'.lookup j = b.lookup j ∧ ∀ s p, j ∉ ids (A s p))

/-- What leaves the other orders in their slots keeps them. -/
theorem Kept.of_lookup (A : Queues) {t : OrderId} (h : ∀ j, j ≠ t → b'.lookup j = b.lookup j) :
    Kept b b' A A t := by
  intro j hj
  by_cases hA : ∃ s p, j ∈ ids (A s p)
  · exact .inr (.inl hA)
  · exact .inr (.inr ⟨h j hj, fun s p hmem => hA ⟨s, p, hmem⟩⟩)

theorem Kept.trans {b'' : OrderBook} {A' A'' : Queues} {t : OrderId} (h : Kept b b' A A' t)
    (h' : Kept b' b'' A' A'' t) : Kept b b'' A A'' t := by
  intro j hj
  rcases h' j hj with hnone | hrests | ⟨heq, hnot⟩
  · exact .inl hnone
  · exact .inr (.inl hrests)
  · rcases h j hj with hnone | ⟨s, p, hmem⟩ | ⟨heq', hnot'⟩
    · exact .inl (heq.trans hnone)
    · exact absurd hmem (hnot s p)
    · exact .inr (.inr ⟨heq.trans heq', hnot'⟩)

/-- A maker that is used up leaves its queue. -/
theorem fillMaker_filled (h : Represents b A) (ht : Taker b A taker tk)
    (hq : A tk.side.opposite p = x :: q) (hm : b.orderMap x.id = some maker)
    (hprice : (b.order maker).price = p) (hrem : (b.order maker).remaining = x.remaining) :
    let b₃ := ((b.chargeFill maker taker x.remaining).reduceLevel tk.side.opposite maker
      x.remaining true).settleMaker maker
    FilledMaker b b₃ A (A.set tk.side.opposite p q) p taker tk x.remaining ∧
      b₃.lookup x.id = none := by
  have hmem : x.id ∈ ids (A tk.side.opposite p) := by simp [hq]
  have hne : x.id ≠ tk.id := fun heq => ht.apart _ _ (heq ▸ hmem)
  have hslot : taker ≠ maker := fun heq => hne (h.registry.inj hm (heq ▸ ht.registered))
  obtain ⟨hwritten, hmaker, htaker, hothers⟩ := chargeFill_spec x.remaining h ht hm hne
  have hm₁ := hwritten.orderMap ▸ hm
  have ht₁ := hwritten.orderMap ▸ ht.registered
  obtain ⟨hrep, hsame⟩ := h.takeOut (show A tk.side.opposite p = [] ++ x :: q from hq)
    hwritten hm₁ (by rw [hmaker]; exact hprice) rfl
  simp only [List.nil_append] at hrep hsame
  obtain ⟨lvl, -, hok⟩ := h.levelOk (s := tk.side.opposite) (p := p) (by simp [hq])
  have hxq : x.id ∉ ids q := nodup_of_level (show LevelOk b _ p lvl ([] ++ x :: q) from hq ▸ hok)
  have htq : tk.id ∉ ids q := fun hmem => ht.apart tk.side.opposite p (by simp [hq, hmem])
  have hm₂ := hsame.orderMap ▸ hm₁
  have ht₂ := hsame.orderMap ▸ ht₁
  have hretired := settleMaker_filled hrep.registry hm₂ (by
    rw [hsame.order_eq hm₁ hxq, hmaker, Order.reduce, hrem, Int.sub_self])
  refine ⟨⟨hrep.retire hretired hm₂ fun s' p' hmem' => ?_, ?_, ?_, ?_, fun j hjt hj => ?_⟩,
    by rw [hretired.lookup hrep.registry hm₂, if_pos rfl]⟩
  · by_cases hsp : s' = tk.side.opposite ∧ p' = p
    · rw [hsp.1, hsp.2, Queues.set_self] at hmem'
      exact hxq hmem'
    · rw [Queues.set_ne _ _ hsp] at hmem'
      exact hsp (h.unique hmem hmem')
  · rw [hretired.orderMap, Function.update_of_ne (Ne.symm hne)]
    exact ht₂
  · rw [hretired.order _ hslot, hsame.order_eq ht₁ htq, htaker]
  · rw [hretired.orderIdSeq, hsame.orderIdSeq, hwritten.orderIdSeq]
  · have hjx : j ≠ x.id := fun heq => hj (heq ▸ hmem)
    rw [hretired.lookup hrep.registry hm₂, if_neg hjx,
      hsame.others j fun hmem => hj (by simp [hq, hmem]), hothers j hjx hjt]

/-- A maker with something left stays at the front. -/
theorem fillMaker_stays (h : Represents b A) (ht : Taker b A taker tk)
    (hq : A tk.side.opposite p = x :: q) (hm : b.orderMap x.id = some maker)
    (hrests : Rests (b.order maker) tk.side.opposite p x) (hfill : fill < x.remaining) :
    FilledMaker b (((b.chargeFill maker taker fill).reduceLevel tk.side.opposite maker fill
      false).settleMaker maker) A (A.set tk.side.opposite p (⟨x.id, x.remaining - fill⟩ :: q)) p
      taker tk fill := by
  have hmem : x.id ∈ ids (A tk.side.opposite p) := by simp [hq]
  have hne : x.id ≠ tk.id := fun heq => ht.apart _ _ (heq ▸ hmem)
  have hslot : taker ≠ maker := fun heq => hne (h.registry.inj hm (heq ▸ ht.registered))
  obtain ⟨hwritten, hmaker, htaker, hothers⟩ := chargeFill_spec fill h ht hm hne
  have hm₁ := hwritten.orderMap ▸ hm
  have ht₁ := hwritten.orderMap ▸ ht.registered
  have hpos : 0 < x.remaining - fill := by omega
  have hrests₁ : Rests ((b.chargeFill maker taker fill).order maker) tk.side.opposite p
      ⟨x.id, x.remaining - fill⟩ := by
    rw [hmaker]
    exact ⟨by rw [Order.reduce, hrests.remaining], by rw [Order.reduce, hrests.remaining]; exact hpos,
      hrests.price, hrests.side, hrests.type, hrests.active⟩
  obtain ⟨hrep, hsame⟩ := h.lower (show A tk.side.opposite p = [] ++ x :: q from hq)
    hwritten hm₁ hrests₁.price hrests₁
  simp only [List.nil_append] at hrep
  have hm₂ := hsame.orderMap ▸ hm₁
  have ht₂ := hsame.orderMap ▸ ht₁
  have horder := hsame.order_eq hm₁ List.not_mem_nil
  rw [settleMaker, if_neg (by rw [horder, hrests₁.remaining]; exact Int.ne_of_gt hpos)]
  refine ⟨hrep.write hm₂ (fun _ => rfl) (fun _ => rfl) (fun _ => rfl) ?_, ht₂, ?_, ?_,
    fun j hjt hj => ?_⟩
  · exact fun _ _ _ _ _ hr => ⟨hr.remaining, hr.positive, hr.price, hr.side, hr.type, rfl⟩
  · rw [order_write_ne _ _ hslot, hsame.order_eq ht₁ List.not_mem_nil, htaker]
  · show (reduceLevel _ _ _ _ _).orderIdSeq = _
    rw [hsame.orderIdSeq, hwritten.orderIdSeq]
  · have hjx : j ≠ x.id := fun heq => hj (heq ▸ hmem)
    rw [lookup_write hrep.registry hm₂, if_neg hjx, hsame.others j List.not_mem_nil,
      hothers j hjx hjt]

/-- A fill at the front of a queue: the maker leaves with its whole quantity filled, or
stays in front with the rest. -/
theorem fillOrder_spec (h : Represents b A) (ht : Taker b A taker tk)
    (hq : A tk.side.opposite p = x :: q) (hm : b.orderMap x.id = some maker)
    (hfill : fill ≤ x.remaining) :
    let r := b.fillOrder maker taker fill
    let A' := A.set tk.side.opposite p (afterFront x q fill)
    Represents r.1 A' ∧ Taker r.1 A' taker (tk.afterFill fill) ∧
      r.1.orderIdSeq = b.orderIdSeq ∧
      (∀ j, j ≠ tk.id → j ∉ ids (A tk.side.opposite p) → r.1.lookup j = b.lookup j) ∧
      Kept b r.1 A A' tk.id ∧
      r.2 = ⟨b.tradeIdSeq + 1, x.id, tk.id, p, fill, tk.side⟩ := by
  obtain ⟨o, ho, hrests⟩ := h.allRest tk.side.opposite p x (by simp [hq])
  rw [lookup_of_orderMap hm, Option.some.injEq] at ho
  subst ho
  have hmem : x.id ∈ ids (A tk.side.opposite p) := by simp [hq]
  have hne : x.id ≠ tk.id := fun heq => ht.apart _ _ (heq ▸ hmem)
  obtain ⟨-, hmaker, htaker, -⟩ := chargeFill_spec fill h ht hm hne
  have hfilled : FilledMaker b (((b.chargeFill maker taker fill).reduceLevel tk.side.opposite
      maker fill (decide (x.remaining - fill = 0))).settleMaker maker) A
      (A.set tk.side.opposite p (afterFront x q fill)) p taker tk fill ∧
      (x.remaining = fill → (((b.chargeFill maker taker fill).reduceLevel tk.side.opposite maker
        fill (decide (x.remaining - fill = 0))).settleMaker maker).lookup x.id = none) := by
    by_cases hx : x.remaining = fill
    · subst hx
      rw [afterFront, if_pos rfl, decide_eq_true (Int.sub_self _)]
      obtain ⟨hfilled, hgone⟩ := fillMaker_filled h ht hq hm hrests.price hrests.remaining
      exact ⟨hfilled, fun _ => hgone⟩
    · rw [afterFront, if_neg hx, decide_eq_false (by omega)]
      exact ⟨fillMaker_stays h ht hq hm hrests (by omega), fun heq => absurd heq hx⟩
  have hid : (b.order maker).id = x.id := (h.registry.named (lookup_of_orderMap hm)).1
  have hrem : ((b.order maker).reduce fill).remaining = x.remaining - fill := by
    rw [Order.reduce, hrests.remaining]
  simp only [fillOrder, hmaker, htaker, hrem, ht.order, hid, hrests.price]
  have hside : (tk.reduce fill).side = tk.side := rfl
  rw [hside]
  generalize settleMaker _ maker = b₃ at hfilled ⊢
  obtain ⟨hfilled, hgone⟩ := hfilled
  -- The taker rests nowhere, so its last write touches no queue.
  have hA : ∀ s' p', tk.id ∉ ids (A.set tk.side.opposite p (afterFront x q fill) s' p') := by
    intro s' p' hmem'
    by_cases hsp : s' = tk.side.opposite ∧ p' = p
    · rw [hsp.1, hsp.2, Queues.set_self, afterFront] at hmem'
      refine ht.apart tk.side.opposite p ?_
      rw [hq]
      split at hmem'
      · exact List.mem_cons_of_mem _ hmem'
      · exact hmem'
    · rw [Queues.set_ne _ _ hsp] at hmem'
      exact ht.apart _ _ hmem'
  have hwrite := hfilled.represents.write
    (f := Order.setStatus (fillStatus (b₃.order taker).remaining)) hfilled.registered
    (fun _ => rfl) (fun _ => rfl) (fun _ => rfl)
    fun s' p' y hy hid _ => absurd (mem_ids.mpr ⟨y, hy, hid⟩) (hA s' p')
  have hlookup : ∀ j, j ≠ tk.id → ((b₃.write taker (Order.setStatus
      (fillStatus (b₃.order taker).remaining))).emit (.onTrade ⟨b.tradeIdSeq + 1, x.id, tk.id, p,
        fill, tk.side⟩)).lookup j = b₃.lookup j := fun j hj => by
    rw [lookup_emit, lookup_write hfilled.represents.registry hfilled.registered, if_neg hj]
  refine ⟨hwrite.congr ⟨rfl, rfl, rfl, rfl, fun _ => rfl⟩ rfl rfl, ⟨hfilled.registered, ?_, hA⟩,
    hfilled.orderIdSeq, fun j hjt hj => (hlookup j hjt).trans (hfilled.others j hjt hj),
    fun j hjt => ?_, trivial⟩
  · show (b₃.write taker _).order taker = _
    rw [order_write_self, hfilled.order]
    rfl
  · by_cases hjq : j ∈ ids (A tk.side.opposite p)
    · rw [hq, ids_cons, List.mem_cons] at hjq
      by_cases hstays : j ∈ ids (afterFront x q fill)
      · exact .inr (.inl ⟨tk.side.opposite, p, by rw [Queues.set_self]; exact hstays⟩)
      · rw [afterFront] at hstays
        split at hstays
        · next hx =>
            rw [hlookup j hjt, hjq.resolve_right hstays]
            exact .inl (hgone hx)
        · exact absurd (List.mem_cons.mpr hjq) hstays
    · by_cases hrests' : ∃ s' p', j ∈ ids (A s' p')
      · obtain ⟨s', p', hmem'⟩ := hrests'
        refine .inr (.inl ⟨s', p', ?_⟩)
        rw [Queues.set_ne]
        · exact hmem'
        · rintro ⟨rfl, rfl⟩
          exact hjq hmem'
      · exact .inr (.inr ⟨(hlookup j hjt).trans (hfilled.others j hjt hjq),
          fun s' p' hmem' => hrests' ⟨s', p', hmem'⟩⟩)

/-! ### The inner loop -/

/-- Maker, price and quantity of a trade. -/
def Trade.toFill (t : Trade) : Fill := ⟨t.makerId, t.price, t.qty⟩

/-- The taker as a list of fills leaves it. -/
def Order.afterFills (fs : List Fill) (tk : Order) : Order :=
  if fs = [] then tk else tk.afterFill (filled fs)

@[simp] theorem Order.afterFills_nil (tk : Order) : tk.afterFills [] = tk := rfl

/-- Two fills are one of their sum. -/
theorem Order.afterFill_afterFill (f g : Int) (tk : Order) :
    (tk.afterFill f).afterFill g = tk.afterFill (f + g) := by
  simp only [Order.afterFill, Order.reduce, Order.setStatus, Int.sub_sub]

theorem Order.afterFills_cons (f : Fill) (fs : List Fill) (tk : Order) :
    (tk.afterFill f.qty).afterFills fs = tk.afterFills (f :: fs) := by
  rw [Order.afterFills, Order.afterFills, if_neg (List.cons_ne_nil f fs), filled_cons]
  split
  · next h => rw [h, filled_nil, Int.add_zero]
  · rw [Order.afterFill_afterFill]

/-- Fills follow one another. -/
theorem Order.afterFills_append (fs fs' : List Fill) (tk : Order) :
    (tk.afterFills fs).afterFills fs' = tk.afterFills (fs ++ fs') := by
  induction fs generalizing tk with
  | nil => rfl
  | cons f fs ih => rw [List.cons_append, ← afterFills_cons, ← afterFills_cons, ih]

@[simp] theorem Order.afterFills_remaining (fs : List Fill) (tk : Order) :
    (tk.afterFills fs).remaining = tk.remaining - filled fs := by
  rw [Order.afterFills]
  split
  · next h => rw [h, filled_nil, Int.sub_zero]
  · rfl

@[simp] theorem Order.afterFills_id (fs : List Fill) (tk : Order) :
    (tk.afterFills fs).id = tk.id := by
  rw [Order.afterFills]
  split <;> rfl

@[simp] theorem Order.afterFills_side (fs : List Fill) (tk : Order) :
    (tk.afterFills fs).side = tk.side := by
  rw [Order.afterFills]
  split <;> rfl

@[simp] theorem Order.afterFills_price (fs : List Fill) (tk : Order) :
    (tk.afterFills fs).price = tk.price := by
  rw [Order.afterFills]
  split <;> rfl

@[simp] theorem Order.afterFills_type (fs : List Fill) (tk : Order) :
    (tk.afterFills fs).type = tk.type := by
  rw [Order.afterFills]
  split <;> rfl

/-- `b'` is `b` after the fills `fs` of a taker, with the queues now `A'`. `touched` holds
the ids of the orders that may have been written to. -/
structure MatchedTo (b b' : OrderBook) (A A' : Queues) (taker : Slot) (tk : Order)
    (fs : List Fill) (touched : OrderId → Prop) : Prop where
  represents : Represents b' A'
  taker : Taker b' A' taker (tk.afterFills fs)
  orderIdSeq : b'.orderIdSeq = b.orderIdSeq
  others : ∀ j, j ≠ tk.id → ¬ touched j → b'.lookup j = b.lookup j
  kept : Kept b b' A A' tk.id

theorem MatchedTo.refl (h : Represents b A) (ht : Taker b A taker tk)
    (touched : OrderId → Prop) : MatchedTo b b A A taker tk [] touched :=
  ⟨h, ht, rfl, fun _ _ _ => rfl, .of_lookup A fun _ _ => rfl⟩

/-- Walking the queue of one level consumes it from the front. -/
theorem walkLevel_spec {fuel : Nat} (h : Represents b A) (ht : Taker b A taker tk)
    (hq : A tk.side.opposite p = q) (hfuel : q.length < fuel) :
    ∃ b' ts, walkLevel fuel b taker (headOr (ids q) 0) = some (b', ts) ∧
      ts.map Trade.toFill = (consume p q tk.remaining).1 ∧
      MatchedTo b b' A (A.set tk.side.opposite p (consume p q tk.remaining).2) taker tk
        (consume p q tk.remaining).1 (· ∈ ids q) := by
  induction q generalizing b A tk fuel with
  | nil =>
      obtain ⟨fuel, rfl⟩ := Nat.exists_eq_succ_of_ne_zero (Nat.ne_of_gt hfuel)
      refine ⟨b, [], by simp [walkLevel], rfl, ?_⟩
      rw [consume, ← hq, Queues.set_eq_self]
      exact .refl h ht _
  | cons x q ih =>
      obtain ⟨fuel, rfl⟩ := Nat.exists_eq_succ_of_ne_zero (Nat.ne_of_gt (Nat.zero_lt_of_lt hfuel))
      obtain ⟨o, ho, hrests⟩ := h.allRest tk.side.opposite p x (by simp [hq])
      obtain ⟨maker, hm, rfl⟩ := lookup_eq_some.mp ho
      have hzero : x.id ≠ 0 := Nat.ne_of_gt (h.registry.named ho).2.1
      rw [walkLevel, ht.order, headOr, ids_cons, List.head?_cons, Option.getD_some]
      by_cases hr : 0 < tk.remaining
      · have hnext : (b.order maker).next = headOr (ids q) 0 := by
          obtain ⟨lvl, -, hok⟩ := h.levelOk (s := tk.side.opposite) (p := p) (by simp [hq])
          have hlinked := hok.linked
          rw [hq, ids_cons] at hlinked
          rw [← nextOf_eq ho]
          exact hlinked.2.1
        rw [if_pos ⟨hzero, hr⟩, hm]
        simp only [hrests.remaining, hnext]
        obtain ⟨hrep, htaker, hseq, hothers, hkept, htrade⟩ :=
          fillOrder_spec h ht hq hm (Int.min_le_right tk.remaining x.remaining)
        generalize b.fillOrder maker taker _ = r at hrep htaker hseq hothers hkept htrade ⊢
        by_cases hx : x.remaining ≤ tk.remaining
        · rw [Int.min_eq_right hx] at *
          rw [afterFront, if_pos rfl] at hrep htaker hkept
          obtain ⟨b', ts, hwalk, hfills, hmatched⟩ := ih hrep htaker (Queues.set_self _ _ _ _)
            (Nat.lt_of_succ_lt_succ hfuel)
          rw [consume, if_neg (Int.not_le.mpr hr), if_pos hx]
          refine ⟨b', r.2 :: ts, by rw [hwalk]; rfl, ?_, ?_⟩
          · rw [List.map_cons, hfills, htrade]
            rfl
          · obtain ⟨hrep', htaker', hseq', hothers', hkept'⟩ := hmatched
            have hside : (tk.afterFill x.remaining).side = tk.side := rfl
            rw [hside, Queues.set_set] at hrep' htaker' hkept'
            rw [Order.afterFills_cons ⟨x.id, p, x.remaining⟩] at htaker'
            refine ⟨hrep', htaker', hseq'.trans hseq, fun j hjt hj => ?_, hkept.trans hkept'⟩
            rw [hothers' j hjt fun hmem => hj (List.mem_cons_of_mem _ hmem)]
            exact hothers j hjt (by rw [hq]; exact hj)
        · have hx' := Int.not_le.mp hx
          rw [Int.min_eq_left (Int.le_of_lt hx')] at *
          rw [afterFront, if_neg (Int.ne_of_gt hx')] at hrep htaker hkept
          obtain ⟨fuel, rfl⟩ := Nat.exists_eq_succ_of_ne_zero
            (Nat.ne_of_gt (Nat.zero_lt_of_lt (Nat.lt_of_succ_lt_succ hfuel)))
          -- The taker is used up, so the next round of the loop returns at once.
          have hstop : ¬ 0 < (tk.afterFill tk.remaining).remaining := by
            simp [Order.afterFill, Order.reduce, Order.setStatus]
          rw [consume, if_neg (Int.not_le.mpr hr), if_neg hx, walkLevel, htaker.order,
            if_neg fun h => hstop h.2]
          refine ⟨r.1, [r.2], rfl, by rw [htrade]; rfl, hrep, ?_, hseq, fun j hjt hj => ?_, hkept⟩
          · rw [Order.afterFills, if_neg (List.cons_ne_nil _ _), filled_cons, filled_nil,
              Int.add_zero]
            exact htaker
          · exact hothers j hjt (by rw [hq]; exact hj)
      · refine ⟨b, [], by rw [if_neg fun h => hr h.2], ?_, ?_⟩
        · rw [consume, if_pos (Int.not_lt.mp hr)]
          rfl
        · rw [consume, if_pos (Int.not_lt.mp hr), ← hq, Queues.set_eq_self]
          exact .refl h ht _

/-! ### The outer loop -/

/-- The levels of a side with their queues, best price first. -/
def levels (b : OrderBook) (A : Queues) (s : Side) : List (Price × Queue) :=
  (b.ladder s).keys.map fun p => (p, A s p)

/-- A ladder has the prices with a queue. -/
theorem mem_keys_ladder (h : Represents b A) {s : Side} {p : Price} :
    p ∈ (b.ladder s).keys ↔ A s p ≠ [] := by
  rw [SortedMap.mem_keys, ne_eq, h.find?_eq_none]

/-- The levels stand in the order of their prices. -/
theorem levels_sorted (b : OrderBook) (A : Queues) (s : Side) :
    (levels b A s).Pairwise fun l l' => s.before l.1 l'.1 :=
  List.pairwise_map.mpr (b.ladder s).keys_sorted

/-- A level is the queue at its price. -/
theorem mem_levels {s : Side} {l : Price × Queue} (hl : l ∈ levels b A s) : l.2 = A s l.1 := by
  obtain ⟨p, -, rfl⟩ := List.mem_map.mp hl
  rfl

/-- Every queue is a level. -/
theorem levels_mem (h : Represents b A) {s : Side} (hp : A s p ≠ []) :
    (p, A s p) ∈ levels b A s :=
  List.mem_map.mpr ⟨p, (mem_keys_ladder h).mpr hp, rfl⟩

/-- The levels of a book are not empty. -/
theorem levels_ne_nil (h : Represents b A) {s : Side} {l : Price × Queue}
    (hl : l ∈ levels b A s) : A s l.1 ≠ [] := by
  obtain ⟨p, hp, rfl⟩ := List.mem_map.mp hl
  exact (mem_keys_ladder h).mp hp

/-- A price behind one that is out of reach is out of reach. -/
theorem Side.beyond_of_before {s : Side} {limit p p' : Price}
    (hp : s.beyond limit p = true) (hbefore : s.opposite.before p p') :
    s.beyond limit p' = true := by
  cases s with
  | buy => exact decide_eq_true (Int64.lt_trans (of_decide_eq_true hp) hbefore)
  | sell => exact decide_eq_true (Int64.lt_trans hbefore (of_decide_eq_true hp))

/-- Changing the front queue changes the front level, or drops it. -/
theorem levels_set {s : Side} {q' : Queue} {ls : List (Price × Queue)} (h : Represents b A)
    (h' : Represents b' (A.set s p q')) (hls : levels b A s = (p, q) :: ls) :
    levels b' (A.set s p q') s = if q' = [] then ls else (p, q') :: ls := by
  obtain ⟨ks, hks, rfl⟩ : ∃ ks, (b.ladder s).keys = p :: ks ∧ ks.map (fun p => (p, A s p)) = ls := by
    unfold levels at hls
    cases hk : (b.ladder s).keys with
    | nil => rw [hk] at hls; cases hls
    | cons k ks =>
        rw [hk, List.map_cons, List.cons.injEq, Prod.mk.injEq] at hls
        exact ⟨ks, by rw [hls.1.1], hls.2⟩
  have hsorted := (b.ladder s).keys_sorted
  rw [hks] at hsorted
  obtain ⟨hfirst, hrest⟩ := List.pairwise_cons.mp hsorted
  have hpks : p ∉ ks := fun hmem => Std.Irrefl.irrefl p (hfirst p hmem)
  have hkeys : (b'.ladder s).keys = if q' = [] then ks else p :: ks := by
    refine SortedMap.eq_of_sorted (b'.ladder s).keys_sorted (by split <;> assumption) fun k => ?_
    rw [mem_keys_ladder h']
    by_cases hk : k = p
    · rw [hk, Queues.set_self]
      split <;> simp_all
    · rw [Queues.set_ne _ _ fun hsp => hk hsp.2, ← mem_keys_ladder h, hks]
      split <;> simp [hk]
  have hmap : ks.map (fun k => (k, A.set s p q' s k)) = ks.map fun k => (k, A s k) :=
    List.map_congr_left fun k hk => by
      have hkp : k ≠ p := by
        rintro rfl
        exact hpks hk
      rw [Queues.set_ne _ _ fun hsp => hkp hsp.2]
  rw [levels, hkeys]
  split
  · exact hmap
  · rw [List.map_cons, Queues.set_self, hmap]

/-- The first level is the first of the ladder. -/
theorem first?_of_levels {s : Side} {ls : List (Price × Queue)}
    (hls : levels b A s = (p, q) :: ls) :
    ∃ lvl, (b.ladder s).first? = some (p, lvl) ∧ A s p = q := by
  rw [levels, SortedMap.keys, List.map_map] at hls
  cases he : (b.ladder s).entries with
  | nil => rw [he] at hls; cases hls
  | cons e es =>
      rw [he, List.map_cons, List.cons.injEq, Function.comp_apply, Prod.mk.injEq] at hls
      obtain ⟨⟨rfl, rfl⟩, -⟩ := hls
      exact ⟨e.2, by rw [SortedMap.first?, he, List.head?_cons], rfl⟩

/-- No level of a book that represents queues is empty, so the cleanup drops none. -/
theorem dropEmpty_eq (h : Represents b A) (s : Side) (key : Price) : b.dropEmpty s key = b := by
  unfold dropEmpty
  cases hfind : (b.ladder s).find? key with
  | none => rfl
  | some lvl =>
      have hok := h.levelOk_of_find hfind
      have hne : lvl.isEmpty = false := by
        rw [PriceLevel.isEmpty, hok.count, decide_eq_false_iff_not, List.length_eq_zero_iff,
          ids_eq_nil]
        exact hok.nonempty
      simp [hne]

/-- Fuel that suffices for the levels of a side: one unit for each level and order. -/
def sweepCost (ls : List (Price × Queue)) : Nat := (ls.map fun l => l.2.length + 1).sum

/-- One round of the outer loop, for a known taker. -/
theorem sweep_succ (freed : TradeId → Price) (fuel : Nat) (ht : b.order taker = tk) :
    sweep freed (fuel + 1) b taker =
      if 0 < tk.remaining then
        match (b.ladder tk.side.opposite).first? with
        | none => some (b, [])
        | some (p, lvl) =>
            if tk.side.beyond tk.price p then some (b, [])
            else
              (walkLevel fuel b taker lvl.head).bind fun w =>
                (sweep freed fuel (w.1.dropEmpty tk.side.opposite
                  (readKey freed w.1 tk.side.opposite p)) taker).map fun r => (r.1, w.2 ++ r.2)
      else some (b, []) := by
  subst ht
  rfl

/-- Sweeping a side consumes its levels in turn, whatever a freed node reads as. -/
theorem sweep_spec (freed : TradeId → Price) {fuel : Nat} {ls : List (Price × Queue)}
    (h : Represents b A) (ht : Taker b A taker tk) (hls : levels b A tk.side.opposite = ls)
    (hfuel : sweepCost ls < fuel) :
    ∃ b' ts A', sweep freed fuel b taker = some (b', ts) ∧
      ts.map Trade.toFill = (sweepLevels (tk.side.beyond tk.price) ls tk.remaining).1 ∧
      levels b' A' tk.side.opposite = (sweepLevels (tk.side.beyond tk.price) ls tk.remaining).2 ∧
      A' tk.side = A tk.side ∧
      MatchedTo b b' A A' taker tk (sweepLevels (tk.side.beyond tk.price) ls tk.remaining).1
        (fun i => ∃ p, i ∈ ids (A tk.side.opposite p)) := by
  induction ls generalizing b A tk fuel with
  | nil =>
      obtain ⟨fuel, rfl⟩ := Nat.exists_eq_succ_of_ne_zero (Nat.ne_of_gt hfuel)
      have hfirst : (b.ladder tk.side.opposite).first? = none := by
        rw [levels, List.map_eq_nil_iff, SortedMap.keys, List.map_eq_nil_iff] at hls
        rw [SortedMap.first?, hls, List.head?_nil]
      refine ⟨b, [], A, ?_, rfl, hls, rfl, .refl h ht _⟩
      rw [sweep_succ freed fuel ht.order, hfirst]
      simp
  | cons l ls ih =>
      obtain ⟨p, q⟩ := l
      obtain ⟨fuel, rfl⟩ := Nat.exists_eq_succ_of_ne_zero (Nat.ne_of_gt (Nat.zero_lt_of_lt hfuel))
      obtain ⟨lvl, hfirst, hq⟩ := first?_of_levels hls
      have hok := h.levelOk_of_find (SortedMap.first?_find hfirst)
      have hcost : sweepCost ls + q.length < fuel := by
        simp only [sweepCost, List.map_cons, List.sum_cons] at hfuel ⊢
        omega
      rw [sweep_succ freed fuel ht.order, sweepLevels]
      by_cases hr : 0 < tk.remaining
      · by_cases hbeyond : tk.side.beyond tk.price p = true
        · refine ⟨b, [], A, ?_, ?_, ?_, rfl, ?_⟩
          · simp [hr, hfirst, hbeyond]
          · rw [if_pos (.inr hbeyond)]
            rfl
          · rw [if_pos (.inr hbeyond), hls]
          · rw [if_pos (.inr hbeyond)]
            exact .refl h ht _
        · obtain ⟨b₁, ts, hwalk, hfills, hmatched⟩ := walkLevel_spec h ht hq
            (show q.length < fuel by omega)
          have hside : (tk.afterFills (consume p q tk.remaining).1).side = tk.side := by simp
          have hhead : lvl.head = headOr (ids q) 0 := by rw [hok.head, hq]
          have hlevels := levels_set h hmatched.represents hls
          rw [if_neg (not_or.mpr ⟨Int.not_le.mpr hr, hbeyond⟩)]
          simp only [hr, if_true, hfirst, hbeyond, Bool.false_eq_true, if_false, hhead, hwalk,
            Option.bind_some, dropEmpty_eq hmatched.represents]
          have hleft := consume_left (p := p) (q := q) (r := tk.remaining)
          generalize consume p q tk.remaining = c at hfills hmatched hside hlevels hleft ⊢
          obtain ⟨hrep, htaker, hseq, hothers, hkept⟩ := hmatched
          have hown : A.set tk.side.opposite p c.2 tk.side = A tk.side :=
            funext fun p' => A.set_side p p' c.2 (Ne.symm (Side.opposite_ne _))
          -- A level that is used up is dropped, and the sweep goes on to the next one.
          by_cases hempty : c.2 = []
          · rw [if_pos hempty] at hlevels ⊢
            have hrest : sweepCost ls < fuel := by omega
            obtain ⟨b', ts', A', hsweep, hfills', hlevels', hA', hmatched'⟩ :=
              ih hrep htaker (by rw [hside]; exact hlevels) hrest
            rw [hside, Order.afterFills_price, Order.afterFills_remaining] at *
            obtain ⟨hrep', htaker', hseq', hothers', hkept'⟩ := hmatched'
            rw [Order.afterFills_id] at hkept'
            refine ⟨b', ts ++ ts', A', by rw [hsweep]; rfl, ?_, hlevels', hA'.trans hown, hrep', ?_,
              hseq'.trans hseq, fun j hjt hj => ?_, hkept.trans hkept'⟩
            · rw [List.map_append, hfills, hfills']
            · rw [← Order.afterFills_append]
              exact htaker'
            · have hjq : j ∉ ids q := fun hmem => hj ⟨p, by rw [hq]; exact hmem⟩
              rw [hothers' j (by rw [Order.afterFills_id]; exact hjt) ?_, hothers j hjt hjq]
              rintro ⟨p', hmem⟩
              by_cases hp : p' = p
              · rw [hp, Queues.set_self, hempty] at hmem
                exact List.not_mem_nil hmem
              · rw [Queues.set_ne _ _ fun hsp => hp hsp.2] at hmem
                exact hj ⟨p', hmem⟩
          · -- The taker is used up: the next round returns at once.
            rw [if_neg hempty] at hlevels ⊢
            have hdone := hleft hempty
            obtain ⟨fuel, rfl⟩ := Nat.exists_eq_succ_of_ne_zero (Nat.ne_of_gt (Nat.zero_lt_of_lt hcost))
            rw [sweepLevels_done hdone, sweep_succ freed fuel htaker.order,
              Order.afterFills_remaining, if_neg (Int.not_lt.mpr hdone)]
            rw [List.append_nil]
            refine ⟨b₁, ts, _, by rw [Option.map_some, List.append_nil], hfills, hlevels,
              hown, hrep, htaker, hseq,
              fun j hjt hj => ?_, hkept⟩
            exact hothers j hjt fun hmem => hj ⟨p, by rw [hq]; exact hmem⟩
      · refine ⟨b, [], A, by simp [hr], ?_, ?_, rfl, ?_⟩
        · rw [if_pos (.inl (Int.not_lt.mp hr))]
          rfl
        · rw [if_pos (.inl (Int.not_lt.mp hr)), hls]
        · rw [if_pos (.inl (Int.not_lt.mp hr))]
          exact .refl h ht _

end NanoVault.Book
