/-
The representation invariant over whole runs.

Two kinds of call break it. A MARKET or POST_ONLY order can stay registered without
resting, and cancelling or modifying it takes it out of the level that happens to have its
price. And a level's total is not checked for overflow when an order joins the level.
`SafeCall` excludes exactly these: `safe_run` shows that a run without them keeps the
invariant, and that every further such call returns. `unsafe_cancel` is a run of the first
kind that loses the invariant.
-/
import NanoVault.Book.Calls

namespace NanoVault.Book

open Lib OrderBook

variable {b b' b₂ : OrderBook} {A A' A₂ : Queues} {s side : Side} {type : OrderType}
  {price p : Price} {qty : Int} {exch : Exchange} {o : Slot} {i : OrderId}
  {freed : TradeId → Price}

/-- The order under this id, if it is not a LIMIT order, has no level at its price. -/
def MayLeave (b : OrderBook) (id : OrderId) : Prop :=
  ∀ o, b.lookup id = some o → o.isActive = true → o.type ≠ .limit →
    (b.ladder o.side).find? o.price = none

/-- A LIMIT order of this quantity fits into the level at its price, out of which
`leaving` is taken first. -/
def MayJoin (b : OrderBook) (side : Side) (type : OrderType) (price : Price)
    (qty leaving : Int) : Prop :=
  type = .limit → ∀ lvl, (b.ladder side).find? price = some lvl →
    lvl.totalQty - leaving + qty < 2 ^ 63

/-- The calls that keep the invariant. -/
def SafeCall (b : OrderBook) : Call → Prop
  | .add side type price qty _ =>
      b.orderPool.freeTop ≠ 0 → MayJoin b side type price qty.toInt 0
  | .cancel id => MayLeave b id
  | .modify id newPrice newQty => MayLeave b id ∧
      ∀ o, b.lookup id = some o → MayJoin b o.side o.type newPrice newQty.toInt
        (if o.price = newPrice then o.remaining else 0)
  | .clear => True

/-- Every registered LIMIT order but `t` rests. -/
def Settled (b : OrderBook) (A : Queues) (t : Option OrderId) : Prop :=
  ∀ i o, some i ≠ t → b.lookup i = some o → o.type = .limit → ∃ s p, i ∈ ids (A s p)

/-- The invariant of safe runs. -/
structure Sound (b : OrderBook) (A : Queues) : Prop where
  represents : Represents b A
  settled : Settled b A none
  bounded : A.Bounded
  uncrossed : A.Uncrossed

theorem Sound.bookInvariant (h : Sound b A) : BookInvariant b :=
  bookInvariant_of_represents h.represents h.bounded h.uncrossed

theorem Sound.init : Sound {} Queues.empty :=
  ⟨.init, fun _ _ _ h => (by cases h), fun _ _ => (by decide : (0 : Int) < 2 ^ 63),
    fun _ _ h => absurd rfl h⟩

/-! ### Queues that shrink -/

/-- `A'` has orders only where `A` has, and no more of them. -/
def Queues.Within (A' A : Queues) : Prop :=
  ∀ s p, A' s p ≠ [] → A s p ≠ [] ∧ volume (A' s p) ≤ volume (A s p)

theorem Queues.Within.bounded (h : A'.Within A) (hA : A.Bounded) : A'.Bounded := by
  intro s p
  by_cases hp : A' s p = []
  · rw [hp]
    decide
  · exact Int.lt_of_le_of_lt (h s p hp).2 (hA s p)

theorem Queues.Within.uncrossed (h : A'.Within A) (hA : A.Uncrossed) : A'.Uncrossed :=
  fun p p' hp hp' => hA p p' (h .buy p hp).1 (h .sell p' hp').1

/-- Taking an order out of a queue shrinks it. -/
theorem Represents.within_takeOut (h : Represents b A) {q₁ q₂ : Queue} {x : Resting}
    (hq : A s p = q₁ ++ x :: q₂) : (A.set s p (q₁ ++ q₂)).Within A := by
  intro s' p' hne
  by_cases hsp : s' = s ∧ p' = p
  · obtain ⟨rfl, rfl⟩ := hsp
    have hx := h.positive (s := s') (p := p') (x := x) (by rw [hq]; simp)
    rw [Queues.set_self, hq]
    refine ⟨by simp, ?_⟩
    simp only [volume_append, volume_cons]
    omega
  · rw [Queues.set_ne _ _ hsp] at hne ⊢
    exact ⟨hne, Int.le_refl _⟩

section Matched

variable {tk : Order} {ts : List Trade}

/-- Matching only takes from the opposite side. -/
theorem within_matched (h : Represents b A) (hm : Matched b b₂ A A₂ tk o ts
    (sweepLevels (tk.side.beyond p) (levels b A tk.side.opposite) qty)) : A₂.Within A := by
  intro s p' hne
  by_cases hs : s = tk.side
  · rw [hs, hm.own] at hne ⊢
    exact ⟨hne, Int.le_refl _⟩
  · have hs : s = tk.side.opposite := by
      cases s <;> cases htk : tk.side <;> simp_all [Side.opposite]
    subst hs
    have hl := levels_mem hm.represents hne
    rw [hm.levels] at hl
    obtain ⟨q, hq, hv⟩ := sweepLevels_mem (fun l hl x hx => by
      rw [mem_levels hl] at hx
      exact Int.le_of_lt (h.positive hx)) hl
    have hA := mem_levels hq
    dsimp only at hA
    exact ⟨levels_ne_nil h hq, hA ▸ hv⟩

theorem settled_matched {w : List Fill × List (Price × Queue)} (h : Settled b A none)
    (hm : Matched b b₂ A A₂ tk o ts w) :
    Settled b₂ A₂ (some tk.id) := by
  intro i x hi hx htype
  rcases hm.kept i (fun heq => hi (heq ▸ rfl)) with hnone | hrests | ⟨heq, hnot⟩
  · rw [hnone] at hx
    cases hx
  · exact hrests
  · obtain ⟨s, p, hmem⟩ := h i x (by simp) (heq ▸ hx) htype
    exact absurd hmem (hnot s p)

end Matched

/-! ### Cancelling -/

theorem Gone.settled {tk : Order} (hg : Gone b b' A tk.id) (h : Settled b A (some tk.id)) :
    Settled b' A none := by
  intro i x _ hx htype
  rw [hg.lookup] at hx
  split at hx
  · cases hx
  · next hi => exact h i x (fun heq => hi (Option.some.inj heq)) hx htype

/-- Cancelling a resting order takes it out of its queue. -/
theorem Sound.cancel_resting (h : Sound b A) {x : Order} (hx : b.lookup i = some x)
    (htype : x.type = .limit) :
    ∃ q₁ q₂, A x.side x.price = q₁ ++ ⟨i, x.remaining⟩ :: q₂ ∧
      Sound (b.cancelOrder i).1 (A.set x.side x.price (q₁ ++ q₂)) := by
  obtain ⟨s, p, hmem⟩ := h.settled i x (by simp) hx htype
  obtain ⟨y, hy, rfl⟩ := mem_ids.mp hmem
  obtain ⟨x', hlookup, hrests⟩ := h.represents.allRest s p y hy
  obtain rfl : x = x' := Option.some.inj (hx.symm.trans hlookup)
  obtain rfl := hrests.side
  obtain rfl := hrests.price
  obtain ⟨q₁, q₂, hq, hrep, hnone, hpayload, -⟩ := h.represents.cancel_resting hy
  have hwithin := h.represents.within_takeOut hq
  have hyeq : (⟨y.id, x.remaining⟩ : Resting) = y := by rw [hrests.remaining]
  refine ⟨q₁, q₂, by rw [hyeq]; exact hq, hrep, fun j z _ hz hztype => ?_,
    hwithin.bounded h.bounded, hwithin.uncrossed h.uncrossed⟩
  have hj : j ≠ y.id := fun heq => by
    rw [heq, hnone] at hz
    cases hz
  have hpay := hpayload j hj
  rw [hz, Option.map_some] at hpay
  obtain ⟨z', hz', hun⟩ := Option.map_eq_some_iff.mp hpay.symm
  have htype' : z'.type = .limit := (congrArg Order.type hun).trans hztype
  obtain ⟨s, p, hmem'⟩ := h.settled j z' (by simp) hz' htype'
  by_cases hsp : s = x.side ∧ p = x.price
  · refine ⟨s, p, ?_⟩
    rw [hsp.1, hsp.2, Queues.set_self]
    rw [hsp.1, hsp.2, hq] at hmem'
    simp only [ids_append, ids_cons, List.mem_append, List.mem_cons] at hmem' ⊢
    tauto
  · exact ⟨s, p, by rw [Queues.set_ne _ _ hsp]; exact hmem'⟩

/-- Cancelling an order that rests nowhere and has no level at its price retires it. -/
theorem Sound.cancel_stray (h : Sound b A) {x : Order} (hx : b.lookup i = some x)
    (hactive : x.isActive = true) (htype : x.type ≠ .limit)
    (hfind : (b.ladder x.side).find? x.price = none) : Sound (b.cancelOrder i).1 A := by
  have hnot : ∀ s p, i ∉ ids (A s p) := fun s p hmem => by
    obtain ⟨y, hy, rfl⟩ := mem_ids.mp hmem
    obtain ⟨x, hlookup, hrests⟩ := h.represents.allRest s p y hy
    rw [hx, Option.some.injEq] at hlookup
    exact htype (hlookup ▸ hrests.type)
  have hgone := h.represents.cancel_stray hx hactive hnot hfind
  refine ⟨hgone.represents, fun j z _ hz hztype => ?_, h.bounded, h.uncrossed⟩
  rw [hgone.lookup] at hz
  split at hz
  · cases hz
  · exact h.settled j z (by simp) hz hztype

/-! ### Adding -/

section Add

variable {w : List Fill × List (Price × Queue)} {ts : List Trade} {tk : Order}

/-- Once the taker is gone, what matching leaves is sound. -/
theorem Sound.gone (h : Sound b A) (hm : Matched b b₂ A A₂ tk o ts w) (hwithin : A₂.Within A)
    (hg : Gone b₂ b' A₂ tk.id) : Sound b' A₂ :=
  ⟨hg.represents, hg.settled (settled_matched h.settled hm), hwithin.bounded h.bounded,
    hwithin.uncrossed h.uncrossed⟩

/-- A taker that stays registered without resting is no LIMIT order. -/
theorem Sound.stray (h : Sound b A) (hm : Matched b b₂ A A₂ tk o ts w) (hwithin : A₂.Within A)
    (htype : tk.type ≠ .limit) : Sound b₂ A₂ := by
  refine ⟨hm.represents, fun i x _ hx hxtype => ?_, hwithin.bounded h.bounded,
    hwithin.uncrossed h.uncrossed⟩
  by_cases hi : i = tk.id
  · have hself := hm.taker.lookup
    rw [Order.afterFills_id, ← hi, hx, Option.some.injEq] at hself
    rw [hself, Order.afterFills_type] at hxtype
    exact absurd hxtype htype
  · exact settled_matched h.settled hm i x (fun heq => hi (Option.some.inj heq)) hx hxtype

/-- Putting an order last at a price no opposite level reaches crosses nothing. -/
theorem Queues.Uncrossed.set (hA : A.Uncrossed) (q : Queue)
    (hout : ∀ p', A side.opposite p' ≠ [] → side.beyond p p' = true) :
    (A.set side p q).Uncrossed := by
  intro p₁ p₂ h₁ h₂
  cases side with
  | buy =>
      rw [A.set_side p p₂ q (by decide)] at h₂
      by_cases hp : p₁ = p
      · exact hp ▸ of_decide_eq_true (hout p₂ h₂)
      · exact hA p₁ p₂ (by rwa [A.set_ne q fun hsp => hp hsp.2] at h₁) h₂
  | sell =>
      rw [A.set_side p p₁ q (by decide)] at h₁
      by_cases hp : p₂ = p
      · exact hp ▸ of_decide_eq_true (hout p₁ h₁)
      · exact hA p₁ p₂ h₁ (by rwa [A.set_ne q fun hsp => hp hsp.2] at h₂)

theorem Queues.Bounded.set (hA : A.Bounded) {q : Queue} (hq : volume q < 2 ^ 63) :
    (A.set s p q).Bounded := by
  intro s' p'
  by_cases hsp : s' = s ∧ p' = p
  · rw [hsp.1, hsp.2, Queues.set_self]
    exact hq
  · rw [Queues.set_ne _ _ hsp]
    exact hA s' p'

/-- With something left of the order, every opposite level is out of its reach. -/
theorem out_of_reach (hm : Matched b b₂ A A₂ (b.newOrder side type price qty exch) o ts
      (outcome b A side type price qty))
    (hleft : 0 < qty - filled (outcome b A side type price qty).1)
    (hp : A₂ side.opposite p ≠ []) : side.beyond (entryPrice side type price) p = true := by
  have hl := levels_mem hm.represents hp
  have hlevels : levels b₂ A₂ side.opposite = (outcome b A side type price qty).2 := hm.levels
  rw [hlevels] at hl
  exact sweepLevels_exhausted ((levels_sorted b A side.opposite).imp fun hbefore hbeyond =>
    Side.beyond_of_before hbeyond hbefore) hleft hl

/-- What is left of a new order. -/
theorem newOrder_afterFills (b : OrderBook) (side : Side) (type : OrderType) (price : Price)
    (qty : Int) (exch : Exchange) (fs : List Fill) :
    let x := (b.newOrder side type price qty exch).afterFills fs
    x.id = b.orderIdSeq + 1 ∧ x.side = side ∧ x.price = entryPrice side type price ∧
      x.type = type ∧ x.remaining = qty - filled fs :=
  ⟨Order.afterFills_id _ _, Order.afterFills_side _ _, Order.afterFills_price _ _,
    Order.afterFills_type _ _, Order.afterFills_remaining _ _⟩

/-- Resting what is left of a LIMIT order keeps the invariant. -/
theorem Sound.rest (h : Sound b A)
    (hm : Matched b b₂ A A₂ (b.newOrder side .limit price qty exch) o ts
      (outcome b A side .limit price qty)) (hwithin : A₂.Within A)
    (hfilled : 0 ≤ filled (outcome b A side .limit price qty).1)
    (hjoin : volume (A side price) + qty < 2 ^ 63) {x : Order}
    (hx : (b.newOrder side .limit price qty exch).afterFills
      (outcome b A side .limit price qty).1 = x) (hleft : 0 < x.remaining)
    (hrep : Represents b'
      (A₂.set x.side x.price (A₂ x.side x.price ++ [⟨x.id, x.remaining⟩])))
    (hpayload : ∀ j, (b'.lookup j).map Order.unlinked = (b₂.lookup j).map Order.unlinked) :
    Sound b' (A₂.set x.side x.price (A₂ x.side x.price ++ [⟨x.id, x.remaining⟩])) := by
  obtain ⟨hid, hside, hprice, -, hrem⟩ := newOrder_afterFills b side .limit price qty exch
    (outcome b A side .limit price qty).1
  rw [hx] at hid hside hprice hrem
  have hown : A₂ x.side x.price = A side price := by
    rw [hside, hprice]
    exact congrFun hm.own price
  refine ⟨hrep, fun i z _ hz hztype => ?_,
    (hwithin.bounded h.bounded).set ?_, (hwithin.uncrossed h.uncrossed).set _ fun p' hp' => ?_⟩
  · have hpay := hpayload i
    rw [hz, Option.map_some] at hpay
    obtain ⟨z', hz', hun⟩ := Option.map_eq_some_iff.mp hpay.symm
    have hztype' : z'.type = .limit := (congrArg Order.type hun).trans hztype
    by_cases hi : i = x.id
    · exact ⟨x.side, x.price, by rw [Queues.set_self, hi]; simp⟩
    · obtain ⟨s, p, hmem⟩ := settled_matched h.settled hm i z'
        (fun heq => hi ((Option.some.inj heq).trans hid.symm)) hz' hztype'
      by_cases hsp : s = x.side ∧ p = x.price
      · refine ⟨x.side, x.price, ?_⟩
        rw [hsp.1, hsp.2] at hmem
        rw [Queues.set_self, ids_append]
        exact List.mem_append_left _ hmem
      · exact ⟨s, p, by rw [Queues.set_ne _ _ hsp]; exact hmem⟩
  · rw [hown, volume_append, volume_cons, volume_nil, hrem]
    dsimp only
    omega
  · rw [hside] at hp' ⊢
    rw [hprice]
    exact out_of_reach hm (hrem ▸ hleft) hp'

/-- Every way a matched order ends keeps the invariant. -/
theorem Sound.conclude (h : Sound b A) (hqty : 0 < qty)
    (hm : Matched b b₂ A A₂ (b.newOrder side type price qty exch) o ts
      (outcome b A side type price qty))
    (hjoin : type = .limit → volume (A side price) + qty < 2 ^ 63) {result : AddResult}
    (hresult : result.fills = [] ↔ (outcome b A side type price qty).1 = []) :
    ∃ b' A' r, b₂.concludeAdd o type result = (b', r) ∧ Sound b' A' := by
  obtain ⟨hnonneg, hle⟩ := outcome_filled h.represents side type price hqty
  have hwithin := within_matched h.represents hm
  obtain ⟨hid, hside, hprice, htype, hrem⟩ := newOrder_afterFills b side type price qty exch
    (outcome b A side type price qty).1
  generalize hx : (b.newOrder side type price qty exch).afterFills
    (outcome b A side type price qty).1 = x at hid hside hprice htype hrem
  obtain ⟨b', A', r, hconclude, hconcluded⟩ := concludeAdd_concluded (o := o) hm.represents hx
    (hx ▸ hm.taker) rfl rfl (Int.ne_of_gt hqty) (by omega) hresult fun j hj => by
      have hown : A₂ side = A side := hm.own
      rw [hside, hown] at hj
      rw [hid]
      exact h.represents.lt_of_mem hj
  refine ⟨b', A', r, hconclude, ?_⟩
  cases hconcluded with
  | gone _ hgone =>
      rw [hid] at hgone
      exact h.gone hm hwithin hgone
  | lingers hlingers =>
      refine h.stray hm hwithin ?_
      rcases hlingers with ⟨rfl, -⟩ | ⟨rfl, -⟩ <;> simp [newOrder]
  | rested hlimit hleft hrep hpayload _ =>
      subst hlimit
      exact h.rest hm hwithin hnonneg (hjoin rfl) hx hleft hrep hpayload

/-- An order that fits into its level keeps the invariant. -/
theorem Sound.add (h : Sound b A) (freed : TradeId → Price) (side : Side) (type : OrderType)
    (price : Price) (qty : Int) (exch : Exchange)
    (hjoin : b.orderPool.freeTop ≠ 0 → type = .limit → volume (A side price) + qty < 2 ^ 63) :
    ∃ b' A' r, Returns (fun fuel => b.addOrder freed fuel side type price qty exch) (b', r) ∧
      Sound b' A' := by
  by_cases hrefused : qty ≤ 0 ∨ type = .limit ∧ price ≤ 0 ∨ b.orderPool.freeTop = 0
  · exact ⟨b, A, {}, ⟨0, addOrder_refused freed 0 b side exch hrefused⟩, h⟩
  · obtain ⟨hqty, hprice, hslot⟩ := not_or.mp hrefused |>.imp_right not_or.mp
    have hqty : 0 < qty := Int.not_le.mp hqty
    by_cases hfok : type = .fok ∧ b.canFillFok side price qty = false
    · obtain ⟨rfl, hfill⟩ := hfok
      obtain ⟨⟨o, pool⟩, halloc⟩ := Option.ne_none_iff_exists'.mp
        fun hnone => hslot (MemoryPool.allocate_eq_none.mp hnone)
      refine ⟨_, A, {}, ⟨0, addOrder_unfillable freed 0 hqty halloc hfill⟩,
        h.represents.rejected halloc _, fun i x hi hx => ?_, h.bounded, h.uncrossed⟩
      exact h.settled i x hi (placeOrder_lookup halloc h.represents.registry _ ▸ hx)
    · have hcan : type = .fok → b.canFillFok side (entryPrice side type price) qty = true := by
        rintro rfl
        simpa [entryPrice] using hfok
      obtain ⟨o, b₂, A₂, ts, hadd, hm⟩ := addOrder_matched freed side exch h.represents hqty
        (fun htype => Int64.not_le.mp fun hle => hprice ⟨htype, hle⟩) hslot hcan
        (Nat.lt_succ_self _)
      have hresult : ts = [] ↔ (outcome b A side type price qty).1 = [] := by
        rw [← hm.fills, List.map_eq_nil_iff]
      obtain ⟨b', A', r, hconclude, hsound⟩ := h.conclude hqty hm (hjoin hslot)
        (show AddResult.fills { id := b.orderIdSeq + 1, accepted := true, fills := ts } = [] ↔ _
          from hresult)
      exact ⟨b', A', r, ⟨_, hadd.trans (congrArg some hconclude)⟩, hsound⟩

end Add

/-! ### Calls -/

/-- A level's total bounds the queue it stands for. -/
theorem Sound.fits (h : Sound b A) {leaving : Int} (hjoin : MayJoin b side type price qty leaving)
    (htype : type = .limit) (hqty : qty < 2 ^ 63) (hleaving : 0 ≤ leaving) :
    volume (A side price) - leaving + qty < 2 ^ 63 := by
  by_cases hq : A side price = []
  · rw [hq, volume_nil]
    omega
  · obtain ⟨lvl, hfind, -⟩ := h.represents.levelOk hq
    have hlt := hjoin htype lvl hfind
    rwa [h.represents.total_eq h.bounded hfind] at hlt

/-- A cancel keeps the invariant, and takes a LIMIT order's quantity off its level. -/
theorem Sound.cancel (h : Sound b A) (hleave : MayLeave b i) :
    ∃ A', Sound (b.cancelOrder i).1 A' ∧
      ∀ x, b.lookup i = some x → x.type = .limit → 0 ≤ x.remaining ∧
        ∀ p, volume (A' x.side p) =
          volume (A x.side p) - if x.price = p then x.remaining else 0 := by
  cases hx : b.lookup i with
  | none =>
      rw [cancelOrder_unknown hx]
      exact ⟨A, h, fun _ hcontra => by cases hcontra⟩
  | some x =>
      by_cases htype : x.type = .limit
      · obtain ⟨s, p, hmem⟩ := h.settled i x (by simp) hx htype
        obtain ⟨y, hy, rfl⟩ := mem_ids.mp hmem
        obtain ⟨x', hx', hrests⟩ := h.represents.allRest s p y hy
        obtain rfl : x = x' := Option.some.inj (hx.symm.trans hx')
        obtain ⟨q₁, q₂, hq, hsound⟩ := h.cancel_resting hx htype
        refine ⟨_, hsound, fun z hz _ => ?_⟩
        obtain rfl : x = z := Option.some.inj hz
        refine ⟨Int.le_of_lt hrests.positive, fun p' => ?_⟩
        by_cases hp : p' = x.price
        · subst hp
          rw [Queues.set_self, hq, if_pos rfl]
          simp only [volume_append, volume_cons]
          omega
        · rw [Queues.set_ne _ _ fun hsp => hp hsp.2, if_neg fun heq => hp heq.symm, Int.sub_zero]
      · refine ⟨A, ?_, fun z hz hztype => absurd (Option.some.inj hz ▸ hztype) htype⟩
        cases hactive : x.isActive with
        | true => exact h.cancel_stray hx hactive htype (hleave x hx hactive htype)
        | false => rwa [cancelOrder_inactive hx hactive]

/-- A modification whose order may leave and whose new quantity fits keeps the invariant. -/
theorem Sound.modify (h : Sound b A) (freed : TradeId → Price) {newPrice : Price}
    {newQty : Int64} (hsafe : SafeCall b (.modify i newPrice newQty)) :
    ∃ b' A' r, Returns (fun fuel => b.modifyOrder freed fuel i newPrice newQty.toInt) (b', r) ∧
      Sound b' A' := by
  obtain ⟨hleave, hjoin⟩ := hsafe
  cases ho : b.orderMap i with
  | none => exact ⟨b, A, {}, ⟨0, by simp only [modifyOrder, ho]⟩, h⟩
  | some o =>
      have hx := lookup_of_orderMap ho
      obtain ⟨A₁, hsound, hvolume⟩ := h.cancel hleave
      have hfits : (b.order o).type = .limit →
          volume (A₁ (b.order o).side newPrice) + newQty.toInt < 2 ^ 63 := fun htype => by
        obtain ⟨hnonneg, hv⟩ := hvolume _ hx htype
        have hlt := h.fits (hjoin _ hx) htype newQty.toInt_lt
          (by split <;> [exact hnonneg; exact Int.le_refl 0])
        rwa [hv]
      obtain ⟨b', A', r, ⟨fuel, hadd⟩, hsound'⟩ := hsound.add freed (b.order o).side
        (b.order o).type newPrice newQty.toInt (b.order o).exchange fun _ => hfits
      exact ⟨b', A', _, ⟨fuel, by simp only [modifyOrder, ho, hadd, Option.map_some]; rfl⟩,
        hsound'⟩

theorem Sound.clear (b : OrderBook) : Sound b.clear Queues.empty :=
  ⟨.of_empty (fun s _ => by cases s <;> rfl) (fun _ => rfl) (MemoryPool.freeDistinct_reset _),
    fun _ _ _ h => (by cases h), Sound.init.bounded, Sound.init.uncrossed⟩

theorem modifyOrder_mono (freed : TradeId → Price) (b : OrderBook) (i : OrderId)
    (newPrice : Price) (newQty : Int) :
    FuelMono fun fuel => b.modifyOrder freed fuel i newPrice newQty := by
  unfold modifyOrder
  split
  · exact .const _
  · exact (addOrder_mono _ _ _ _ _ _ _).map _

theorem Sound.addFits (h : Sound b A) {qty : Int64}
    (hsafe : SafeCall b (.add side type price qty exch)) :
    b.orderPool.freeTop ≠ 0 → type = .limit →
      volume (A side price) + qty.toInt < 2 ^ 63 := fun hslot htype => by
  have hlt := h.fits (hsafe hslot) htype qty.toInt_lt (Int.le_refl 0)
  rwa [Int.sub_zero] at hlt

/-- A safe call returns. -/
theorem Sound.returns (h : Sound b A) {c : Call} (hsafe : SafeCall b c) :
    ∃ b', CallStep b c b' := by
  cases c with
  | add side type price qty exch =>
      obtain ⟨b', -, r, hret, -⟩ := h.add (fun _ => 0) side type price qty.toInt exch
        (h.addFits hsafe)
      exact ⟨b', _, r, hret⟩
  | cancel i => exact ⟨_, rfl⟩
  | modify i newPrice newQty =>
      obtain ⟨b', -, r, hret, -⟩ := h.modify (fun _ => 0) hsafe
      exact ⟨b', _, r, hret⟩
  | clear => exact ⟨_, rfl⟩

/-- A safe call keeps the invariant. -/
theorem Sound.step (h : Sound b A) {c : Call} (hsafe : SafeCall b c) (hstep : CallStep b c b') :
    ∃ A', Sound b' A' := by
  cases c with
  | add side type price qty exch =>
      obtain ⟨freed, r, hret⟩ := hstep
      obtain ⟨b₁, A', r₁, hret', hsound⟩ := h.add freed side type price qty.toInt exch
        (h.addFits hsafe)
      obtain ⟨rfl, -⟩ := Prod.mk.inj (hret.unique (addOrder_mono _ _ _ _ _ _ _) hret')
      exact ⟨A', hsound⟩
  | cancel i =>
      obtain rfl := hstep
      obtain ⟨A', hsound, -⟩ := h.cancel hsafe
      exact ⟨A', hsound⟩
  | modify i newPrice newQty =>
      obtain ⟨freed, r, hret⟩ := hstep
      obtain ⟨b₁, A', r₁, hret', hsound⟩ := h.modify freed hsafe
      obtain ⟨rfl, -⟩ := Prod.mk.inj (hret.unique (modifyOrder_mono _ _ _ _ _) hret')
      exact ⟨A', hsound⟩
  | clear =>
      obtain rfl := hstep
      exact ⟨_, .clear b⟩

/-- Every book a safe run reaches meets the invariant, and every safe call on it returns. -/
theorem safe_run (h : bookMachine.Reach SafeCall b) :
    BookInvariant b ∧ ∀ c, SafeCall b c → ∃ b', CallStep b c b' := by
  obtain ⟨A, hsound⟩ := h.invariant (I := fun b => ∃ A, Sound b A)
    (fun b hb => by
      obtain rfl := hb
      exact ⟨_, .init⟩)
    (fun _ _ _ ⟨_, hsound⟩ hsafe hstep => hsound.step hsafe hstep)
  exact ⟨hsound.bookInvariant, fun _ => hsound.returns⟩

/-! ### Two runs -/

/-- The book after an order is added to `b`, with little fuel. -/
def addedTo (b : OrderBook) (side : Side) (type : OrderType) (price : Price) (qty : Int64) :
    OrderBook :=
  ((b.addOrder (fun _ => 0) 3 side type price qty.toInt .generic).map Prod.fst).getD b

/-- Two LIMIT bids of five at 100. -/
def twoBids : OrderBook := addedTo (addedTo {} .buy .limit 100 5) .buy .limit 100 5

theorem twoBids_reached : bookMachine.Reach SafeCall twoBids := by
  have hone : bookMachine.Reach SafeCall (addedTo {} .buy .limit 100 5) :=
    .step (.init rfl) (i := .add .buy .limit 100 5 .generic) (fun _ _ _ hfind => by cases hfind)
      ⟨fun _ => 0, { id := 1, accepted := true }, 3, rfl⟩
  refine .step hone (i := .add .buy .limit 100 5 .generic) (fun _ _ lvl hfind => ?_)
    ⟨fun _ => 0, { id := 2, accepted := true }, 3, rfl⟩
  cases hfind
  decide

/-- The first of the two bids can be cancelled. -/
theorem safe_run_twoBids :
    BookInvariant twoBids ∧ ∃ b', CallStep twoBids (.cancel 1) b' := by
  obtain ⟨hinv, hcalls⟩ := safe_run twoBids_reached
  refine ⟨hinv, hcalls _ fun x hx _ htype => ?_⟩
  cases hx
  exact absurd rfl htype

/-- A POST_ONLY bid that does not cross stays registered without resting; cancelling it
takes the two resting bids out of their level. -/
theorem unsafe_cancel : ∃ b, bookMachine.Reach Machine.Any b ∧ ¬ BookInvariant b := by
  have hreach : bookMachine.Reach Machine.Any (addedTo twoBids .buy .postOnly 100 3) :=
    .step (twoBids_reached.mono fun _ _ _ => trivial) (i := .add .buy .postOnly 100 3 .generic)
      trivial ⟨fun _ => 0, { id := 3, accepted := true }, 3, rfl⟩
  refine ⟨_, .step hreach (i := .cancel 3) trivial rfl, fun hinv => ?_⟩
  obtain ⟨is, his⟩ := hinv.level .buy 100
    { price := 100, totalQty := 7, orderCount := 1, head := 0, tail := 0 } rfl
  have hmem := headOr_mem his.nonempty 0
  rw [← his.head] at hmem
  obtain ⟨o, ho, -⟩ := his.registered 0 hmem
  cases ho

end NanoVault.Book
