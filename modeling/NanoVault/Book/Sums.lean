/-
The sums of quantities a book forms (`level_add_order` and `can_fill_fok`).

`callSums` lists the exact values of the `int64_t` additions a call makes to a level's total
and to `avail`. Only `qty > 0` is checked on entry, so that two orders of the greatest
quantity already add up to more than an `int64_t` holds (`sums_overflow`). In the runs of
`add_order` and `cancel_order` whose LIMIT orders fit into their levels and whose FOK checks
meet no level that takes the sum beyond `int64_t`, every sum is exact (`exact_sums`): the
totals, the quantities at the best prices and the decision about an FOK order are those of
the registered LIMIT orders.
-/
import NanoVault.Book.FillOrKill
import NanoVault.Book.Invariant

namespace NanoVault.Book

open Lib OrderBook

variable {b b' b₂ : OrderBook} {A A₂ : Queues} {s side : Side} {type : OrderType}
  {price p : Price} {qty avail : Int} {exch : Exchange} {o : Slot} {freed : TradeId → Price}
  {fuel : Nat}

/-! ### The additions a call makes -/

/-- The sums the loop of `can_fill_fok` forms. -/
def fokSums (side : Side) (price : Price) (qty : Int) :
    List (Price × PriceLevel) → Int → List Int
  | [], _ => []
  | (p, lvl) :: rest, avail =>
      if side.beyond price p then []
      else (avail + lvl.totalQty) ::
        if qty ≤ wrap64 (avail + lvl.totalQty) then []
        else fokSums side price qty rest (wrap64 (avail + lvl.totalQty))

/-- The sum `level_add_order` forms if the order in slot `o` comes to rest. -/
def restSums (b : OrderBook) (o : Slot) (type : OrderType) : List Int :=
  if type = .limit ∧ (b.order o).remaining ≠ 0 then
    [(((b.ladder (b.order o).side).find? (b.order o).price).getD {}).totalQty +
      (b.order o).remaining]
  else []

/-- The sums a call of `add_order` forms. -/
def addSums (freed : TradeId → Price) (fuel : Nat) (b : OrderBook) (side : Side)
    (type : OrderType) (price : Price) (qty : Int) (exch : Exchange) : Option (List Int) :=
  if qty ≤ 0 then some []
  else if type = .limit ∧ price ≤ 0 then some []
  else
    match b.orderPool.allocate with
    | none => some []
    | some (o, pool) =>
        let x := b.newOrder side type price qty exch
        let b := b.placeOrder pool o x
        let checked :=
          if type = .fok then fokSums side x.price qty (b.ladder side.opposite).entries 0 else []
        if type = .fok ∧ b.canFillFok side x.price qty = false then some checked
        else
          let b := b.enroll x.id o
          (b.matchOrder freed fuel o).map fun m => checked ++ restSums m.1 o type

/-- The sums a public call forms; `cancel_order` and `clear` only subtract. -/
def callSums (freed : TradeId → Price) (fuel : Nat) (b : OrderBook) : Call → Option (List Int)
  | .add side type price qty exch => addSums freed fuel b side type price qty.toInt exch
  | .cancel _ => some []
  | .modify id newPrice newQty =>
      match b.orderMap id with
      | none => some []
      | some o =>
          let x := b.order o
          addSums freed fuel (b.cancelOrder id).1 x.side x.type newPrice newQty.toInt x.exchange
  | .clear => some []

/-! ### What is asked of the calls -/

/-- The calls this is about. -/
def AddOrCancel (_ : OrderBook) : Call → Prop
  | .add .. | .cancel _ => True
  | .modify .. | .clear => False

/-- No level within the limit takes a sum below the quantity beyond an `int64_t`. -/
def LevelsFit (side : Side) (price : Price) (qty : Int) (es : List (Price × PriceLevel)) : Prop :=
  ∀ ahead p lvl behind, es = ahead ++ (p, lvl) :: behind → side.beyond price p = false →
    (ahead.map fun e => e.2.totalQty).sum < qty →
    (ahead.map fun e => e.2.totalQty).sum + lvl.totalQty < 2 ^ 63

/-- The check of an FOK order stays within an `int64_t`. -/
def FokFits (b : OrderBook) : Call → Prop
  | .add side .fok price qty _ =>
      b.orderPool.freeTop ≠ 0 → LevelsFit side price qty.toInt (b.ladder side.opposite).entries
  | _ => True

/-- The calls whose sums fit. -/
def FittingCall (b : OrderBook) (c : Call) : Prop := AddOrCancel b c ∧ SafeCall b c ∧ FokFits b c

/-- What is left of the registered LIMIT orders of a side at the prices `within`. -/
def OrderBook.restingQty (b : OrderBook) (s : Side) (within : Price → Bool) : Int :=
  (((List.range (b.orderIdSeq + 1)).filter fun i => (b.lookup i).any fun o =>
    decide (o.type = .limit) && decide (o.side = s) && within o.price).map b.remainingOf).sum

/-- The book's sums are those of the orders. -/
structure ExactSums (b : OrderBook) : Prop where
  total : ∀ s p lvl, (b.ladder s).find? p = some lvl →
    lvl.totalQty = b.restingQty s (· = p) ∧ lvl.totalQty < 2 ^ 63
  bidQty : b.bestBbo.bidQty =
    (b.bidLadder.first?.map fun e => b.restingQty .buy (· = e.1)).getD 0
  askQty : b.bestBbo.askQty =
    (b.askLadder.first?.map fun e => b.restingQty .sell (· = e.1)).getD 0
  fok : ∀ side price qty, 0 < qty → LevelsFit side price qty (b.ladder side.opposite).entries →
    b.canFillFok side price qty =
      decide (qty ≤ b.restingQty side.opposite fun p => !side.beyond price p)

/-! ### The quantity at rest -/

theorem remainingOf_ids {q : Queue} (h : AllRest b s p q) :
    (ids q).map b.remainingOf = q.map Resting.remaining := by
  rw [ids, List.map_map]
  refine List.map_congr_left fun x hx => ?_
  obtain ⟨o, ho, hrests⟩ := h x hx
  rw [Function.comp_apply, OrderBook.remainingOf, ho]
  exact hrests.remaining

/-- A LIMIT order that is registered rests in the queue of its side and price. -/
theorem Settled.mem_ids (hsettled : Settled b A none) (h : Represents b A) {i : OrderId} {x : Order}
    (hx : b.lookup i = some x) : x.type = .limit ↔ i ∈ ids (A x.side x.price) := by
  constructor
  · intro htype
    obtain ⟨s, p, hmem⟩ := hsettled i x (by simp) hx htype
    obtain ⟨y, hy, rfl⟩ := NanoVault.Book.mem_ids.mp hmem
    obtain ⟨x', hx', hrests⟩ := h.allRest s p y hy
    obtain rfl := Option.some.inj (hx.symm.trans hx')
    rwa [hrests.side, hrests.price]
  · intro hmem
    obtain ⟨y, hy, rfl⟩ := NanoVault.Book.mem_ids.mp hmem
    obtain ⟨x', hx', hrests⟩ := h.allRest _ _ y hy
    obtain rfl := Option.some.inj (hx.symm.trans hx')
    exact hrests.type

/-- The registered LIMIT orders at some prices are those of the queues there. -/
theorem restingQty_of_ids (h : Represents b A) (hsettled : Settled b A none)
    {within : Price → Bool} {is : List OrderId} (hnodup : is.Nodup)
    (hmem : ∀ i, i ∈ is ↔ ∃ p, within p = true ∧ i ∈ ids (A s p)) :
    b.restingQty s within = (is.map b.remainingOf).sum := by
  refine ((List.Perm.map _ ?_).sum_eq)
  refine (List.perm_ext_iff_of_nodup (List.nodup_range.filter _) hnodup).mpr fun i => ?_
  simp only [hmem, List.mem_filter, List.mem_range, Option.any_eq_true, Bool.and_eq_true,
    decide_eq_true_eq]
  constructor
  · rintro ⟨-, x, hx, ⟨htype, rfl⟩, hwithin⟩
    exact ⟨x.price, hwithin, (hsettled.mem_ids h hx).mp htype⟩
  · rintro ⟨p, hwithin, hi⟩
    obtain ⟨y, hy, rfl⟩ := mem_ids.mp hi
    obtain ⟨x, hx, hrests⟩ := h.allRest _ _ y hy
    have hle := (h.registry.named hx).2.2
    exact ⟨Nat.lt_succ_of_le hle, x, hx, ⟨hrests.type, hrests.side⟩, by rwa [hrests.price]⟩

theorem nodup_ids (h : Represents b A) (s : Side) (p : Price) : (ids (A s p)).Nodup := by
  by_cases hq : A s p = []
  · rw [hq]
    exact List.nodup_nil
  · obtain ⟨lvl, -, hok⟩ := h.levelOk hq
    exact hok.ascending.imp Nat.ne_of_lt

/-- At one price. -/
theorem restingQty_at (h : Represents b A) (hsettled : Settled b A none) (s : Side) (p : Price) :
    b.restingQty s (· = p) = volume (A s p) := by
  rw [restingQty_of_ids h hsettled (nodup_ids h s p), remainingOf_ids (h.allRest s p), volume]
  intro i
  simp

/-- At the prices an order may trade at. -/
theorem restingQty_within (h : Represents b A) (hsettled : Settled b A none) (s : Side)
    (beyond : Price → Bool) :
    (b.restingQty s fun p => !beyond p) = reached beyond (levels b A s) := by
  have hnodup : (((levels b A s).filter fun l => !beyond l.1).flatMap fun l => ids l.2).Nodup := by
    rw [List.nodup_flatMap]
    constructor
    · intro l hl
      rw [mem_levels (List.mem_filter.mp hl).1]
      exact nodup_ids h s l.1
    · refine List.Pairwise.filter _ ?_
      refine List.Pairwise.imp_of_mem (fun {l l'} hl hl' hbefore i hi hi' => ?_)
        (levels_sorted b A s)
      dsimp only at hi hi'
      rw [mem_levels hl] at hi
      rw [mem_levels hl'] at hi'
      obtain ⟨-, hprice⟩ := h.unique hi hi'
      rw [hprice] at hbefore
      exact Std.Irrefl.irrefl _ hbefore
  rw [restingQty_of_ids h hsettled hnodup, List.map_flatMap, List.flatMap, List.sum_flatten,
    List.map_map, reached]
  · refine congrArg List.sum (List.map_congr_left fun l hl => ?_)
    have hrest := h.allRest s l.1
    rw [← mem_levels (List.mem_filter.mp hl).1] at hrest
    rw [Function.comp_apply, remainingOf_ids hrest, volume]
  · intro i
    simp only [List.mem_flatMap, List.mem_filter]
    constructor
    · rintro ⟨l, ⟨hl, hwithin⟩, hi⟩
      exact ⟨l.1, hwithin, mem_levels hl ▸ hi⟩
    · rintro ⟨p, hwithin, hi⟩
      have hne : A s p ≠ [] := fun hnil => by
        rw [hnil] at hi
        cases hi
      exact ⟨_, ⟨levels_mem h hne, hwithin⟩, hi⟩

/-! ### The sums of an FOK check -/

/-- The totals of the levels add up as the condition says, from `avail` on. -/
theorem sumsFit_of_levels {es : List (Price × PriceLevel)} (havail : avail < qty)
    (htotal : ∀ e ∈ es, e.2.totalQty = volume (A s e.1))
    (hfit : ∀ ahead p lvl behind, es = ahead ++ (p, lvl) :: behind →
      side.beyond price p = false → avail + (ahead.map fun e => e.2.totalQty).sum < qty →
      avail + (ahead.map fun e => e.2.totalQty).sum + lvl.totalQty < 2 ^ 63) :
    SumsFit (side.beyond price) qty (es.map fun e => (e.1, A s e.1)) avail := by
  induction es generalizing avail with
  | nil => trivial
  | cons e es ih =>
      obtain ⟨p, lvl⟩ := e
      rw [List.map_cons, SumsFit]
      by_cases hbeyond : side.beyond price p = true
      · exact .inl hbeyond
      · right
        have hlvl : lvl.totalQty = volume (A s p) := htotal (p, lvl) List.mem_cons_self
        have hfirst := hfit [] p lvl es rfl (Bool.eq_false_iff.mpr hbeyond) (by simpa using havail)
        rw [List.map_nil, List.sum_nil, Int.add_zero, hlvl] at hfirst
        refine ⟨hfirst, ?_⟩
        by_cases henough : qty ≤ avail + volume (A s p)
        · exact .inl henough
        · refine .inr (ih (Int.not_le.mp henough)
            (fun e he => htotal e (List.mem_cons_of_mem _ he)) ?_)
          intro ahead p' lvl' behind hes hbeyond' hsum
          have hnext := hfit ((p, lvl) :: ahead) p' lvl' behind (by rw [hes]; rfl) hbeyond'
          rw [List.map_cons, List.sum_cons, hlvl, ← Int.add_assoc] at hnext
          exact hnext hsum

/-- Where the sums fit, each is formed exactly. -/
theorem fokSums_fit {es : List (Price × PriceLevel)} {v : Int} (havail : 0 ≤ avail)
    (htotal : ∀ e ∈ es, e.2.totalQty = volume (A s e.1))
    (hpos : ∀ e ∈ es, 0 ≤ volume (A s e.1))
    (hfit : SumsFit (side.beyond price) qty (es.map fun e => (e.1, A s e.1)) avail)
    (hv : v ∈ fokSums side price qty es avail) : v < 2 ^ 63 := by
  induction es generalizing avail with
  | nil => cases hv
  | cons e es ih =>
      obtain ⟨p, lvl⟩ := e
      rw [List.map_cons, SumsFit] at hfit
      dsimp only at hfit
      rw [fokSums] at hv
      split at hv
      · cases hv
      · next hbeyond =>
          obtain ⟨hsum, hnext⟩ := hfit.resolve_left hbeyond
          have hlvl : lvl.totalQty = volume (A s p) := htotal (p, lvl) List.mem_cons_self
          have hvol : 0 ≤ volume (A s p) := hpos (p, lvl) List.mem_cons_self
          have hexact : wrap64 (avail + volume (A s p)) = avail + volume (A s p) :=
            wrap64_of_range (by omega) hsum
          rw [hlvl, hexact] at hv
          rcases List.mem_cons.mp hv with rfl | hv
          · exact hsum
          · split at hv
            · cases hv
            · next henough =>
                exact ih (by omega) (fun e he => htotal e (List.mem_cons_of_mem _ he))
                  (fun e he => hpos e (List.mem_cons_of_mem _ he))
                  (hnext.resolve_left henough) hv

/-! ### The sums of a call -/

/-- In a sound book each total is the exact volume of its queue. -/
theorem Sound.totals (h : Sound b A) (s : Side) :
    ∀ e ∈ (b.ladder s).entries, e.2.totalQty = volume (A s e.1) := fun _ he =>
  h.represents.total_eq h.bounded (SortedMap.find?_eq_some.mpr he)

theorem Sound.sumsFit (h : Sound b A) (hqty : 0 < qty)
    (hfit : LevelsFit side price qty (b.ladder side.opposite).entries) :
    SumsFit (side.beyond price) qty
      ((b.ladder side.opposite).entries.map fun e => (e.1, A side.opposite e.1)) 0 := by
  refine sumsFit_of_levels hqty (h.totals side.opposite) ?_
  intro ahead p lvl behind hes hbeyond hsum
  rw [Int.zero_add] at hsum ⊢
  exact hfit ahead p lvl behind hes hbeyond hsum

/-- The sums of the check, which only an FOK order undergoes. -/
theorem Sound.checked_fit (h : Sound b A) (hqty : 0 < qty)
    (hfit : type = .fok → LevelsFit side price qty (b.ladder side.opposite).entries) {v : Int}
    (hv : v ∈ if type = .fok then
      fokSums side (entryPrice side type price) qty (b.ladder side.opposite).entries 0 else []) :
    v < 2 ^ 63 := by
  split at hv
  · next htype =>
      subst htype
      exact fokSums_fit (Int.le_refl 0) (h.totals side.opposite)
        (fun _ _ => h.represents.volume_nonneg _ _) (h.sumsFit hqty (hfit rfl)) hv
  · cases hv

/-- What remains of a LIMIT order fits into its level. -/
theorem Sound.restSums_fit {ts : List Trade} (h : Sound b A) (hqty : 0 < qty)
    (hm : Matched b b₂ A A₂ (b.newOrder side type price qty exch) o ts
      (outcome b A side type price qty))
    (hjoin : type = .limit → volume (A side price) + qty < 2 ^ 63) {v : Int}
    (hv : v ∈ restSums b₂ o type) : v < 2 ^ 63 := by
  rw [restSums] at hv
  split at hv
  · next hrests =>
      obtain ⟨rfl, -⟩ := hrests
      obtain ⟨-, hside, hprice, -, hrem⟩ := newOrder_afterFills b side .limit price qty exch
        (outcome b A side .limit price qty).1
      obtain ⟨hnonneg, -⟩ := outcome_filled h.represents side .limit price hqty
      have hbounded := (within_matched h.represents hm).bounded h.bounded
      rw [hm.taker.order, hside, hprice, hrem, entryPrice, if_neg (by decide)] at hv
      obtain rfl := List.mem_singleton.mp hv
      have hown : A₂ side price = A side price := congrFun hm.own price
      have htotal : (((b₂.ladder side).find? price).getD {}).totalQty = volume (A side price) := by
        rw [← hown]
        cases hfind : (b₂.ladder side).find? price with
        | none =>
            rw [hm.represents.find?_eq_none.mp hfind]
            rfl
        | some lvl => exact hm.represents.total_eq hbounded hfind
      rw [htotal]
      have hlt := hjoin rfl
      omega
  · cases hv

/-- Every sum a fitting call forms is below 2^63. -/
theorem Sound.callSums_fit (h : Sound b A) {c : Call} (hc : FittingCall b c) {ss : List Int}
    (hss : callSums freed fuel b c = some ss) {v : Int} (hv : v ∈ ss) : v < 2 ^ 63 := by
  obtain ⟨hkind, hsafe, hfok⟩ := hc
  cases c with
  | cancel i =>
      obtain rfl := Option.some.inj hss
      cases hv
  | modify i newPrice newQty => cases hkind
  | clear => cases hkind
  | add side type price qty exch =>
      rw [callSums, addSums] at hss
      split at hss
      · obtain rfl := Option.some.inj hss
        cases hv
      · next hqty =>
          have hqty : 0 < qty.toInt := Int.not_le.mp hqty
          split at hss
          · obtain rfl := Option.some.inj hss
            cases hv
          · split at hss
            · obtain rfl := Option.some.inj hss
              cases hv
            · next o pool halloc =>
                have hslot : b.orderPool.freeTop ≠ 0 := fun hzero => by
                  rw [MemoryPool.allocate_eq_none.mpr hzero] at halloc
                  cases halloc
                dsimp only at hss
                -- The check is made on the ladders of `b`, as the order is not registered yet.
                have hlevels : type = .fok → LevelsFit side price qty.toInt
                    (b.ladder side.opposite).entries := by
                  rintro rfl
                  exact hfok hslot
                split at hss
                · obtain rfl := Option.some.inj hss
                  exact h.checked_fit hqty hlevels hv
                · obtain ⟨m, hmatch, rfl⟩ := Option.map_eq_some_iff.mp hss
                  rcases List.mem_append.mp hv with hv | hv
                  · exact h.checked_fit hqty hlevels hv
                  · obtain ⟨b₂, A₂, ts, hsweep, hm⟩ := entered_matched freed h.represents halloc
                      side type price qty.toInt exch (Nat.lt_succ_self _)
                    have hsame : m = (b₂, ts) :=
                      Returns.unique (sweep_mono freed _ o) ⟨fuel, hmatch⟩ ⟨_, hsweep⟩
                    rw [hsame] at hv
                    exact h.restSums_fit hqty hm (h.addFits hsafe hslot) hv

/-- The sums of a sound book. -/
theorem Sound.exactSums (h : Sound b A) : ExactSums b := by
  have hbest : ∀ s, ((b.ladder s).first?.map fun e => e.2.totalQty).getD 0 =
      ((b.ladder s).first?.map fun e => b.restingQty s (· = e.1)).getD 0 := by
    intro s
    cases hfirst : (b.ladder s).first? with
    | none => rfl
    | some e =>
        rw [Option.map_some, Option.map_some, Option.getD_some, Option.getD_some,
          restingQty_at h.represents h.settled]
        exact h.represents.total_eq h.bounded (SortedMap.first?_find hfirst)
  constructor
  · intro s p lvl hfind
    rw [restingQty_at h.represents h.settled, h.represents.total_eq h.bounded hfind]
    exact ⟨rfl, h.bounded s p⟩
  · refine Eq.trans ?_ (hbest .buy)
    show ((b.bidLadder.first?.map Prod.snd).map PriceLevel.totalQty).getD 0 = _
    rw [Option.map_map]
    rfl
  · refine Eq.trans ?_ (hbest .sell)
    show ((b.askLadder.first?.map Prod.snd).map PriceLevel.totalQty).getD 0 = _
    rw [Option.map_map]
    rfl
  · intro side price qty hqty hfit
    have hsums := h.sumsFit hqty hfit
    have hlevels : levels b A side.opposite =
        (b.ladder side.opposite).entries.map fun e => (e.1, A side.opposite e.1) :=
      List.map_map
    rw [← hlevels] at hsums
    rw [canFillFok_eq h.represents hsums, restingQty_within h.represents h.settled]
    rfl

/-- In every run of `add_order` and `cancel_order` whose calls fit, each sum a further such
call forms is below 2^63, and totals, best quantities and FOK decisions are exact. -/
theorem exact_sums (h : bookMachine.Reach FittingCall b) :
    ExactSums b ∧ ∀ c, FittingCall b c → ∀ freed fuel ss, callSums freed fuel b c = some ss →
      ∀ v ∈ ss, v < 2 ^ 63 := by
  obtain ⟨A, hsound⟩ := h.invariant (I := fun b => ∃ A, Sound b A)
    (fun b hb => by
      obtain rfl := hb
      exact ⟨_, .init⟩)
    (fun _ _ _ ⟨_, hsound⟩ hfits hstep => hsound.step hfits.2.1 hstep)
  exact ⟨hsound.exactSums, fun c hc freed fuel ss hss v hv => hsound.callSums_fit hc hss hv⟩

/-- One bid at 100, of the greatest quantity. -/
def greatBid : OrderBook := addedTo {} .buy .limit 100 Int64.maxValue

theorem greatBid_reached : bookMachine.Reach FittingCall greatBid :=
  .step (.init rfl) (i := .add .buy .limit 100 Int64.maxValue .generic)
    ⟨trivial, fun _ _ _ hfind => (by cases hfind), trivial⟩
    ⟨fun _ => 0, { id := 1, accepted := true }, 3, rfl⟩

/-- An FOK order for the whole bid is checked against its one level. -/
theorem exact_sums_greatBid :
    ExactSums greatBid ∧ ∀ v ∈ [9223372036854775807], v < (2 : Int) ^ 63 := by
  obtain ⟨hexact, hsums⟩ := exact_sums greatBid_reached
  refine ⟨hexact, hsums (.add .sell .fok 100 Int64.maxValue .generic) ⟨trivial, ?_, ?_⟩
    (fun _ => 0) 3 _ (by decide)⟩
  · intro _ htype
    cases htype
  · rintro - ahead p lvl behind hes - -
    have hone : (greatBid.ladder Side.sell.opposite).entries =
        [(100, ⟨100, 9223372036854775807, 1, 1, 1⟩)] := rfl
    rw [hone] at hes
    cases ahead with
    | nil =>
        obtain ⟨-, rfl⟩ := Prod.mk.inj (List.cons.inj hes).1
        decide
    | cons e ahead =>
        have htail := (List.cons.inj hes).2
        simp at htail

/-- A second bid of one takes the level's total to 2^63, and what is stored is negative. -/
theorem sums_overflow : ∃ b b' lvl, bookMachine.Reach AddOrCancel b ∧
    CallStep b (.add .buy .limit 100 1 .generic) b' ∧
    callSums (fun _ => 0) 3 b (.add .buy .limit 100 1 .generic) = some [2 ^ 63] ∧
    (b'.ladder .buy).find? 100 = some lvl ∧ lvl.totalQty = -2 ^ 63 ∧
    b'.bestBbo.bidQty = -2 ^ 63 := by
  refine ⟨greatBid, addedTo greatBid .buy .limit 100 1, _,
    greatBid_reached.mono fun _ _ h => h.1, ⟨fun _ => 0, { id := 2, accepted := true }, 3, rfl⟩,
    by decide, rfl, by decide, by decide⟩

end NanoVault.Book
