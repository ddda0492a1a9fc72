/-
`MarketDataHandler::apply_delta` (`hft_clean/src/market_data_handler.cpp`).

The exchange sends absolute quantities: a delta names a level and says what is there now,
0 for nothing (`lastQty`). The handler passes a delta with a quantity to `add_order` and
drops one without. So the book agrees with the exchange exactly as long as every delta
creates a level the exchange did not have, or deletes one it did not have
(`applyDelta_mirrors_iff`): a second quantity for a level is added to the first, and a
deletion is lost (`deletion_lost`).
-/
import NanoVault.Book.Adding

namespace NanoVault.MarketData

open Lib Book OrderBook

/-- `Symbol`, a fixed buffer of bytes. -/
abbrev Symbol := Vector UInt8 24

structure MarketDataMsg where
  side : Side := .buy
  price : Price := 0
  qty : Int64 := 0
  exchange : Exchange := .generic
  symbol : Symbol := .replicate 24 0
deriving DecidableEq

structure ExchangeSymbolKey where
  exchange : Exchange
  symbol : Symbol
deriving DecidableEq

structure MarketDataHandler where
  books : ExchangeSymbolKey → Option OrderBook := fun _ => none

/-- The key under which `apply_delta` looks for the book. -/
def MarketDataMsg.key (msg : MarketDataMsg) : ExchangeSymbolKey := ⟨msg.exchange, msg.symbol⟩

namespace MarketDataHandler

def setBook (h : MarketDataHandler) (k : ExchangeSymbolKey) (b : OrderBook) :
    MarketDataHandler :=
  { h with books := Function.update h.books k (some b) }

/-- `get_or_create_book`, as `register_adapter` calls it. -/
def getOrCreateBook (h : MarketDataHandler) (k : ExchangeSymbolKey) : MarketDataHandler :=
  match h.books k with
  | some _ => h
  | none => h.setBook k {}

def applyDelta (freed : TradeId → Price) (fuel : Nat) (h : MarketDataHandler)
    (msg : MarketDataMsg) : Option MarketDataHandler :=
  match h.books msg.key with
  | none => some h
  | some b =>
      if msg.qty = 0 then some h
      else
        (b.addOrder freed fuel msg.side .limit msg.price msg.qty.toInt msg.exchange).map fun r =>
          h.setBook msg.key r.1

def applyDeltas (freed : TradeId → Price) (fuel : Nat) (h : MarketDataHandler)
    (msgs : List MarketDataMsg) : Option MarketDataHandler :=
  msgs.foldlM (applyDelta freed fuel) h

end MarketDataHandler

open MarketDataHandler

/-! ### What the exchange says -/

/-- The quantity of the last delta for a level, 0 when there was none. -/
def lastQty (msgs : List MarketDataMsg) (s : Side) (p : Price) : Int :=
  ((msgs.filter fun d => d.side = s ∧ d.price = p).getLast?.map fun d => d.qty.toInt).getD 0

/-- A sequence of deltas for one book, from an exchange that never crosses. -/
structure ExchangeFeed (k : ExchangeSymbolKey) (msgs : List MarketDataMsg) : Prop where
  addressed : ∀ d ∈ msgs, d.key = k
  price : ∀ d ∈ msgs, 0 < d.price
  qty : ∀ d ∈ msgs, 0 ≤ d.qty
  uncrossed : ∀ sent, sent <+: msgs → ∀ p p', lastQty sent .buy p ≠ 0 →
    lastQty sent .sell p' ≠ 0 → p < p'

/-- The quantities a book reports for one level when asked for `n` levels. -/
def reported (b : OrderBook) (n : Nat) (p : Price) : Side → List Int
  | .buy => ((b.bidDepth n).filter fun d => d.price = p).map DepthLevel.qty
  | .sell => ((b.askDepth n).filter fun d => d.price = p).map DepthLevel.qty

/-- Asked for at least as many levels as it has, the book reports the exchange's quantity
for every level, and nothing for a level the exchange does not have. -/
def Mirrors (b : OrderBook) (msgs : List MarketDataMsg) : Prop :=
  ∀ s p n, (b.ladder s).entries.length ≤ n →
    reported b n p s = if lastQty msgs s p = 0 then [] else [lastQty msgs s p]

/-- From the handler `h` on, the book under `k` mirrors the exchange after each delta. -/
def Mirrored (freed : TradeId → Price) (h : MarketDataHandler) (k : ExchangeSymbolKey)
    (msgs : List MarketDataMsg) : Prop :=
  ∀ sent, sent <+: msgs → ∃ h' b, Returns (fun fuel => h.applyDeltas freed fuel sent) h' ∧
    h'.books k = some b ∧ Mirrors b sent

/-- How many deltas had a quantity. -/
def entered (msgs : List MarketDataMsg) : Nat := (msgs.filter fun d => d.qty ≠ 0).length

/-- A delta for a level the exchange does not have, while the pool has room for its order;
or, when the pool is used up, a delta that repeats what the exchange has. -/
def Fits (sent : List MarketDataMsg) (d : MarketDataMsg) : Prop :=
  if lastQty sent d.side d.price = 0 then d.qty = 0 ∨ entered sent < maxOrders
  else d.qty.toInt = lastQty sent d.side d.price ∧ maxOrders ≤ entered sent

instance (sent : List MarketDataMsg) (d : MarketDataMsg) : Decidable (Fits sent d) := by
  unfold Fits
  infer_instance

variable {msgs sent : List MarketDataMsg} {d : MarketDataMsg} {s : Side} {p : Price}
  {k : ExchangeSymbolKey} {b b' : OrderBook} {A : Queues} {h h' : MarketDataHandler}
  {freed : TradeId → Price}

theorem lastQty_snoc (msgs : List MarketDataMsg) (d : MarketDataMsg) (s : Side) (p : Price) :
    lastQty (msgs ++ [d]) s p =
      if d.side = s ∧ d.price = p then d.qty.toInt else lastQty msgs s p := by
  rw [lastQty, List.filter_append]
  split
  · next hd => simp [hd]
  · next hd => simp [hd, lastQty]

theorem lastQty_snoc_self (msgs : List MarketDataMsg) (d : MarketDataMsg) :
    lastQty (msgs ++ [d]) d.side d.price = d.qty.toInt := by
  rw [lastQty_snoc, if_pos (And.intro rfl rfl)]

theorem entered_snoc (msgs : List MarketDataMsg) (d : MarketDataMsg) :
    entered (msgs ++ [d]) = entered msgs + if d.qty = 0 then 0 else 1 := by
  rw [entered, entered, List.filter_append, List.length_append]
  split
  · next hd => simp [hd]
  · next hd => simp [hd]

theorem ExchangeFeed.of_prefix (h : ExchangeFeed k msgs) (hsent : sent <+: msgs) :
    ExchangeFeed k sent :=
  ⟨fun d hd => h.addressed d (hsent.subset hd), fun d hd => h.price d (hsent.subset hd),
    fun d hd => h.qty d (hsent.subset hd), fun pre hpre => h.uncrossed pre (hpre.trans hsent)⟩

theorem toInt_eq_zero {q : Int64} : q.toInt = 0 ↔ q = 0 := by
  rw [← Int64.toInt_inj, Int64.toInt_zero]

theorem lastQty_range (msgs : List MarketDataMsg) (s : Side) (p : Price) :
    -2 ^ 63 ≤ lastQty msgs s p ∧ lastQty msgs s p < 2 ^ 63 := by
  rw [lastQty]
  cases (msgs.filter fun d => d.side = s ∧ d.price = p).getLast? with
  | none => simp
  | some d => exact ⟨d.qty.le_toInt, d.qty.toInt_lt⟩

/-! ### What the book says -/

/-- A book reports the total of a queue under its price. -/
theorem reported_eq (h : Represents b A) {n : Nat} (hn : (b.ladder s).entries.length ≤ n)
    (p : Price) :
    reported b n p s = if A s p = [] then [] else [wrap64 (volume (A s p))] := by
  have hdepth : reported b n p s = ((b.ladder s).entries.filter fun e => e.1 = p).map
      fun e => e.2.totalQty := by
    have hside : reported b n p s =
        ((b.depth s n).filter fun d => d.price = p).map DepthLevel.qty := by
      cases s <;> rfl
    rw [hside, depth, List.take_of_length_le hn, List.filter_map, List.map_map]
    refine congrArg (List.map _) (List.filter_congr fun e he => ?_)
    have hok := h.levelOk_of_find (SortedMap.find?_eq_some.mpr he)
    simp only [Function.comp_apply, hok.price]
  rw [hdepth, SortedMap.filter_key]
  split
  · next hq => rw [h.find?_eq_none.mpr hq]; rfl
  · next hq =>
      obtain ⟨lvl, hfind, hok⟩ := h.levelOk hq
      rw [hfind, ← hok.total]
      rfl

/-- A book has one report for each level, so it mirrors one quantity. -/
theorem Mirrors.unique {msgs' : List MarketDataMsg} (h : Mirrors b msgs) (h' : Mirrors b msgs')
    (s : Side) (p : Price) : lastQty msgs s p = lastQty msgs' s p := by
  have heq := (h s p _ (Nat.le_refl _)).symm.trans (h' s p _ (Nat.le_refl _))
  split at heq <;> split at heq
  · next hz hz' => rw [hz, hz']
  · cases heq
  · cases heq
  · exact List.singleton_inj.mp heq

/-- The book holds one order for each level of the exchange, and has used one slot for
each delta with a quantity, as long as there were any. -/
structure InStep (msgs : List MarketDataMsg) (b : OrderBook) (A : Queues) : Prop where
  represents : Represents b A
  level : ∀ s p, (A s p).map Resting.remaining =
    if lastQty msgs s p = 0 then [] else [lastQty msgs s p]
  room : b.orderPool.freeTop = maxOrders - entered msgs

theorem InStep.volume_eq (h : InStep msgs b A) (s : Side) (p : Price) :
    volume (A s p) = lastQty msgs s p := by
  rw [volume, h.level]
  split
  · next hz => rw [hz, List.sum_nil]
  · rw [List.sum_singleton]

theorem InStep.eq_nil_iff (h : InStep msgs b A) : A s p = [] ↔ lastQty msgs s p = 0 := by
  rw [← List.map_eq_nil_iff (f := Resting.remaining), h.level]
  split <;> simp_all

theorem InStep.mirrors (h : InStep msgs b A) : Mirrors b msgs := by
  intro s p n hn
  obtain ⟨hlow, hhigh⟩ := lastQty_range msgs s p
  rw [reported_eq h.represents hn, h.volume_eq, wrap64_of_range hlow hhigh]
  simp only [h.eq_nil_iff]

theorem InStep.init : InStep [] {} Queues.empty := ⟨.init, fun _ _ => rfl, rfl⟩

/-! ### One delta -/

/-- A delta for a level the exchange has, or gets, reaches no level of the other side. -/
theorem InStep.out_of_reach (h : InStep sent b A) (hfeed : ExchangeFeed k (sent ++ [d]))
    (hqty : d.qty ≠ 0) {p : Price} (hp : A d.side.opposite p ≠ []) :
    d.side.beyond d.price p = true := by
  have hown : lastQty (sent ++ [d]) d.side d.price ≠ 0 := by
    rw [lastQty_snoc_self]
    exact fun hz => hqty (toInt_eq_zero.mp hz)
  have hother : lastQty (sent ++ [d]) d.side.opposite p ≠ 0 := by
    rw [lastQty_snoc, if_neg fun hd => Side.opposite_ne _ hd.1.symm]
    exact fun hz => hp (h.eq_nil_iff.mpr hz)
  have hlt := hfeed.uncrossed _ (List.prefix_refl _)
  cases hside : d.side with
  | buy =>
      rw [hside] at hown hother
      exact decide_eq_true (hlt _ _ hown hother)
  | sell =>
      rw [hside] at hown hother
      exact decide_eq_true (hlt _ _ hother hown)

/-- What a delta does to a book in step: nothing when it has no quantity or the pool is
used up, else it adds an order to its level. -/
theorem InStep.applied (freed : TradeId → Price) (h : InStep sent b A)
    (hfeed : ExchangeFeed k (sent ++ [d]))
    {mdh : MarketDataHandler} (hb : mdh.books k = some b) :
    ∃ mdh' b', Returns (fun fuel => mdh.applyDelta freed fuel d) mdh' ∧ mdh'.books k = some b' ∧
      if d.qty = 0 ∨ maxOrders ≤ entered sent then b' = b
      else
        Represents b' (A.set d.side d.price
          (A d.side d.price ++ [⟨b.orderIdSeq + 1, d.qty.toInt⟩])) ∧
        b'.orderPool.freeTop = b.orderPool.freeTop - 1 := by
  have hmem : d ∈ sent ++ [d] := by simp
  obtain rfl := hfeed.addressed d hmem
  by_cases hqty : d.qty = 0
  · refine ⟨mdh, b, ⟨0, ?_⟩, hb, by rw [if_pos (.inl hqty)]⟩
    simp only [applyDelta, hb, hqty, if_true]
  · have hset : ∀ b' : OrderBook, (mdh.setBook d.key b').books d.key = some b' := fun b' =>
      Function.update_self _ _ _
    by_cases hfull : maxOrders ≤ entered sent
    · have hroom : b.orderPool.freeTop = 0 := h.room.trans (Nat.sub_eq_zero_of_le hfull)
      refine ⟨mdh.setBook d.key b, b, ⟨0, ?_⟩, hset b, by rw [if_pos (.inr hfull)]⟩
      simp only [applyDelta, hb, hqty, if_false,
        addOrder_refused freed 0 b d.side d.exchange (.inr (.inr hroom)), Option.map_some]
    · have hpos : 0 < d.qty.toInt := by
        have hnonneg := Int64.le_iff_toInt_le.mp (hfeed.qty d hmem)
        rw [Int64.toInt_zero] at hnonneg
        exact lt_of_le_of_ne hnonneg fun hz => hqty (toInt_eq_zero.mp hz.symm)
      have hroom : b.orderPool.freeTop ≠ 0 := by
        rw [h.room]
        exact Nat.sub_ne_zero_of_lt (Nat.not_le.mp hfull)
      obtain ⟨b', r, hadd, hrep, hfree⟩ := addOrder_joins freed 0 d.exchange h.represents hpos
        (hfeed.price d hmem) hroom fun p hp => h.out_of_reach hfeed hqty hp
      refine ⟨mdh.setBook d.key b', b', ⟨1, ?_⟩, hset b', ?_⟩
      · simp only [applyDelta, hb, hqty, if_false, hadd, Option.map_some]
      · rw [if_neg (not_or.mpr ⟨hqty, hfull⟩)]
        exact ⟨hrep, hfree⟩

/-- A delta that says what the exchange already has is rightly dropped. -/
theorem InStep.keep (h : InStep sent b A) (hsame : d.qty.toInt = lastQty sent d.side d.price)
    (hkeeps : d.qty = 0 ∨ maxOrders ≤ entered sent) : InStep (sent ++ [d]) b A := by
  refine ⟨h.represents, fun s p => ?_, ?_⟩
  · rw [h.level, lastQty_snoc]
    by_cases hd : d.side = s ∧ d.price = p
    · rw [if_pos hd, hsame, hd.1, hd.2]
    · rw [if_neg hd]
  · rw [h.room, entered_snoc]
    split
    · rfl
    · next hqty =>
        have hfull := hkeeps.resolve_left hqty
        rw [Nat.sub_eq_zero_of_le hfull, Nat.sub_eq_zero_of_le (Nat.le_succ_of_le hfull)]

/-- A delta for a level the exchange does not have creates it. -/
theorem InStep.join (h : InStep sent b A) (hzero : lastQty sent d.side d.price = 0)
    (hqty : d.qty ≠ 0) {x : OrderId}
    (hrep : Represents b' (A.set d.side d.price (A d.side d.price ++ [⟨x, d.qty.toInt⟩])))
    (hfree : b'.orderPool.freeTop = b.orderPool.freeTop - 1) :
    InStep (sent ++ [d]) b' (A.set d.side d.price (A d.side d.price ++ [⟨x, d.qty.toInt⟩])) := by
  refine ⟨hrep, fun s p => ?_, ?_⟩
  · by_cases hd : d.side = s ∧ d.price = p
    · obtain ⟨rfl, rfl⟩ := hd
      rw [Queues.set_self, h.eq_nil_iff.mpr hzero, lastQty_snoc_self,
        if_neg fun hz => hqty (toInt_eq_zero.mp hz)]
      rfl
    · rw [lastQty_snoc, if_neg hd, Queues.set_ne _ _ fun hsp => hd ⟨hsp.1.symm, hsp.2.symm⟩, h.level]
  · rw [hfree, h.room, entered_snoc, if_neg hqty, Nat.sub_sub]

/-- A delta that fits keeps the book in step. -/
theorem InStep.next (freed : TradeId → Price) (h : InStep sent b A)
    (hfeed : ExchangeFeed k (sent ++ [d])) (hfits : Fits sent d) {mdh : MarketDataHandler}
    (hb : mdh.books k = some b) :
    ∃ mdh' b' A', Returns (fun fuel => mdh.applyDelta freed fuel d) mdh' ∧
      mdh'.books k = some b' ∧ InStep (sent ++ [d]) b' A' := by
  obtain ⟨mdh', b', hret, hb', heffect⟩ := h.applied freed hfeed hb
  rw [Fits] at hfits
  by_cases hzero : lastQty sent d.side d.price = 0
  · rw [if_pos hzero] at hfits
    by_cases hqty : d.qty = 0
    · rw [if_pos (.inl hqty)] at heffect
      subst heffect
      have hsame : d.qty.toInt = lastQty sent d.side d.price := by rw [hqty, hzero]; rfl
      exact ⟨mdh', b', A, hret, hb', h.keep hsame (.inl hqty)⟩
    · have hroom := hfits.resolve_left hqty
      rw [if_neg (not_or.mpr ⟨hqty, Nat.not_le.mpr hroom⟩)] at heffect
      exact ⟨mdh', b', _, hret, hb', h.join hzero hqty heffect.1 heffect.2⟩
  · rw [if_neg hzero] at hfits
    rw [if_pos (.inr hfits.2)] at heffect
    subst heffect
    exact ⟨mdh', b', A, hret, hb', h.keep hfits.1 (.inr hfits.2)⟩

/-- A delta that does not fit loses the exchange. -/
theorem InStep.lost (freed : TradeId → Price) (h : InStep sent b A)
    (hfeed : ExchangeFeed k (sent ++ [d])) (hfits : ¬ Fits sent d) {mdh : MarketDataHandler}
    (hb : mdh.books k = some b) :
    ∃ mdh' b', Returns (fun fuel => mdh.applyDelta freed fuel d) mdh' ∧
      mdh'.books k = some b' ∧ ¬ Mirrors b' (sent ++ [d]) := by
  obtain ⟨mdh', b', hret, hb', heffect⟩ := h.applied freed hfeed hb
  refine ⟨mdh', b', hret, hb', fun hmirrors => hfits ?_⟩
  rw [Fits]
  by_cases hkeeps : d.qty = 0 ∨ maxOrders ≤ entered sent
  · rw [if_pos hkeeps] at heffect
    subst heffect
    have hsame := hmirrors.unique h.mirrors d.side d.price
    rw [lastQty_snoc_self] at hsame
    split
    · next hzero => exact .inl (toInt_eq_zero.mp (hsame.trans hzero))
    · next hzero =>
        exact ⟨hsame, hkeeps.resolve_left fun hqty => hzero (hsame ▸ toInt_eq_zero.mpr hqty)⟩
  · rw [if_neg hkeeps] at heffect
    obtain ⟨hqty, hroom⟩ := not_or.mp hkeeps
    split
    · exact .inr (Nat.not_le.mp hroom)
    · next hzero =>
        -- The book adds the two quantities; the exchange has the second.
        have hq : A d.side d.price ≠ [] := fun hq => hzero (h.eq_nil_iff.mp hq)
        have hreport := hmirrors d.side d.price _ (Nat.le_refl _)
        rw [reported_eq heffect.1 (Nat.le_refl _), Queues.set_self, if_neg (by simp),
          volume_append, h.volume_eq, volume_cons, volume_nil, Int.add_zero, lastQty_snoc_self,
          if_neg fun hz => hqty (toInt_eq_zero.mp hz)] at hreport
        obtain ⟨hlow, hhigh⟩ := lastQty_range sent d.side d.price
        exact absurd (eq_zero_of_wrap64_add hlow hhigh (List.singleton_inj.mp hreport)) hzero

/-! ### Whole feeds -/

theorem applyDeltas_snoc (freed : TradeId → Price) (fuel : Nat) (mdh : MarketDataHandler)
    (msgs : List MarketDataMsg) (d : MarketDataMsg) :
    mdh.applyDeltas freed fuel (msgs ++ [d]) =
      (mdh.applyDeltas freed fuel msgs).bind fun mdh => mdh.applyDelta freed fuel d := by
  simp only [applyDeltas, List.foldlM_append, List.foldlM_cons, List.foldlM_nil, bind_pure]
  rfl

theorem applyDelta_mono (freed : TradeId → Price) (mdh : MarketDataHandler) (d : MarketDataMsg) :
    FuelMono fun fuel => mdh.applyDelta freed fuel d := by
  unfold applyDelta
  split
  · exact .const _
  · split
    · exact .const _
    · exact (addOrder_mono _ _ _ _ _ _ _).map _

theorem applyDeltas_mono (freed : TradeId → Price) (mdh : MarketDataHandler)
    (msgs : List MarketDataMsg) : FuelMono fun fuel => mdh.applyDeltas freed fuel msgs := by
  induction msgs using List.reverseRecOn with
  | nil => exact .const _
  | append_singleton msgs d ih =>
      simp only [applyDeltas_snoc]
      exact ih.bind fun mdh => applyDelta_mono freed mdh d

theorem returns_snoc {mdh mdh' mdh'' : MarketDataHandler}
    (h : Returns (fun fuel => mdh.applyDeltas freed fuel msgs) mdh')
    (h' : Returns (fun fuel => mdh'.applyDelta freed fuel d) mdh'') :
    Returns (fun fuel => mdh.applyDeltas freed fuel (msgs ++ [d])) mdh'' := by
  simp only [applyDeltas_snoc]
  exact .bind (applyDeltas_mono freed mdh msgs) (fun mdh => applyDelta_mono freed mdh d) h h'

/-- As long as every delta fits, the book stays in step. -/
theorem inStep_of_fits (freed : TradeId → Price) {mdh : MarketDataHandler}
    (hb : mdh.books k = some {}) (hfeed : ExchangeFeed k msgs)
    (hfits : ∀ sent d rest, msgs = sent ++ d :: rest → Fits sent d) :
    ∃ mdh' b A, Returns (fun fuel => mdh.applyDeltas freed fuel msgs) mdh' ∧
      mdh'.books k = some b ∧ InStep msgs b A := by
  induction msgs using List.reverseRecOn with
  | nil => exact ⟨mdh, {}, _, ⟨0, rfl⟩, hb, .init⟩
  | append_singleton msgs d ih =>
      obtain ⟨mdh₁, b₁, A₁, hret, hb₁, hstep⟩ := ih (hfeed.of_prefix (List.prefix_append _ _))
        fun sent d' rest heq => hfits sent d' (rest ++ [d]) (by rw [heq]; simp)
      obtain ⟨mdh₂, b₂, A₂, hret', hb₂, hstep'⟩ := hstep.next freed hfeed
        (hfits msgs d [] rfl) hb₁
      exact ⟨mdh₂, b₂, A₂, returns_snoc hret hret', hb₂, hstep'⟩

/-- The book mirrors the exchange after every delta exactly when every delta fits. -/
theorem applyDelta_mirrors_iff (freed : TradeId → Price) (mdh : MarketDataHandler)
    (k : ExchangeSymbolKey) (msgs : List MarketDataMsg) (hb : mdh.books k = some {})
    (hfeed : ExchangeFeed k msgs) :
    Mirrored freed mdh k msgs ↔ ∀ sent d rest, msgs = sent ++ d :: rest → Fits sent d := by
  constructor
  · intro hmirrored sent
    induction hn : sent.length using Nat.strong_induction_on generalizing sent with
    | _ n ih =>
        rintro d rest rfl
        by_contra hfits
        have hsent : sent ++ [d] <+: sent ++ d :: rest := ⟨rest, by simp⟩
        obtain ⟨mdh₁, b₁, A₁, hret, hb₁, hstep⟩ := inStep_of_fits freed hb
          (hfeed.of_prefix (List.prefix_append sent _)) fun sent' d' rest' heq =>
            ih sent'.length (by rw [← hn, heq]; simp) sent' rfl d' (rest' ++ d :: rest)
              (by rw [heq]; simp)
        obtain ⟨mdh₂, b₂, hret₂, hb₂, hlost⟩ := hstep.lost freed (hfeed.of_prefix hsent) hfits hb₁
        obtain ⟨mdh₃, b₃, hret₃, hb₃, hmirrors⟩ := hmirrored _ hsent
        obtain rfl := (returns_snoc hret hret₂).unique (applyDeltas_mono _ _ _) hret₃
        obtain rfl := Option.some.inj (hb₂.symm.trans hb₃)
        exact hlost hmirrors
  · intro hfits sent hsent
    obtain ⟨rest, rfl⟩ := hsent
    obtain ⟨mdh', b, A, hret, hb', hstep⟩ := inStep_of_fits freed hb
      (hfeed.of_prefix (List.prefix_append _ _)) fun sent' d rest' heq =>
        hfits sent' d (rest' ++ rest) (by rw [heq]; simp)
    exact ⟨mdh', b, hret, hb', hstep.mirrors⟩

/-! ### Two feeds -/

/-- A handler with one registered book. -/
def oneBook : MarketDataHandler := getOrCreateBook {} ⟨.generic, .replicate 24 0⟩

/-- A bid at 100 and an offer at 101. -/
def twoLevels : List MarketDataMsg :=
  [{ side := .buy, price := 100, qty := 5 }, { side := .sell, price := 101, qty := 3 }]

/-- A bid at 100 that the exchange deletes again. -/
def createAndDelete : List MarketDataMsg :=
  [{ side := .buy, price := 100, qty := 5 }, { side := .buy, price := 100, qty := 0 }]

/-- A level with a quantity was named by some delta. -/
theorem lastQty_ne_zero (h : lastQty msgs s p ≠ 0) : ∃ d ∈ msgs, d.side = s ∧ d.price = p := by
  rw [lastQty] at h
  cases hlast : (msgs.filter fun d => d.side = s ∧ d.price = p).getLast? with
  | none => rw [hlast] at h; exact absurd rfl h
  | some d =>
      obtain ⟨hmem, hd⟩ := List.mem_filter.mp (List.mem_of_getLast? hlast)
      exact ⟨d, hmem, of_decide_eq_true hd⟩

theorem twoLevels_feed : ExchangeFeed ⟨.generic, .replicate 24 0⟩ twoLevels := by
  refine ⟨by decide, by decide, by decide, fun sent hsent p p' hp hp' => ?_⟩
  obtain ⟨d, hd, hside, rfl⟩ := lastQty_ne_zero hp
  obtain ⟨d', hd', hside', rfl⟩ := lastQty_ne_zero hp'
  have hlt : ∀ d ∈ twoLevels, ∀ d' ∈ twoLevels, d.side = .buy → d'.side = .sell →
      d.price < d'.price := by decide
  exact hlt d (hsent.subset hd) d' (hsent.subset hd') hside hside'

theorem twoLevels_mirrored :
    Mirrored (fun _ => 0) oneBook ⟨.generic, .replicate 24 0⟩ twoLevels := by
  refine (applyDelta_mirrors_iff (fun _ => 0) oneBook _ twoLevels rfl twoLevels_feed).mpr
    fun sent d rest heq => ?_
  match sent, heq with
  | [], heq => cases heq; decide
  | [_], heq => cases heq; decide
  | _ :: _ :: sent, heq => cases sent <;> cases heq

/-- The book keeps the bid that the exchange has deleted. -/
theorem deletion_lost : ¬ ∀ (freed : TradeId → Price) (mdh : MarketDataHandler)
    (k : ExchangeSymbolKey) (msgs : List MarketDataMsg), mdh.books k = some {} →
    ExchangeFeed k msgs →
    ∃ mdh' b, Returns (fun fuel => mdh.applyDeltas freed fuel msgs) mdh' ∧
      mdh'.books k = some b ∧ Mirrors b msgs := by
  intro hall
  have hfeed : ExchangeFeed ⟨.generic, .replicate 24 0⟩ createAndDelete := by
    refine ⟨by decide, by decide, by decide, fun sent hsent p p' _ hp' => ?_⟩
    obtain ⟨d, hd, hside, -⟩ := lastQty_ne_zero hp'
    have hbuy : ∀ d ∈ createAndDelete, d.side = .buy := by decide
    rw [hbuy d (hsent.subset hd)] at hside
    cases hside
  obtain ⟨mdh', b, hret, hb, hmirrors⟩ := hall (fun _ => 0) oneBook _ createAndDelete rfl hfeed
  have hrun : Returns (fun fuel => oneBook.applyDeltas (fun _ => 0) fuel createAndDelete)
      (((oneBook.applyDeltas (fun _ => 0) 1 createAndDelete)).getD {}) := ⟨1, rfl⟩
  obtain rfl := hret.unique (applyDeltas_mono _ _ _) hrun
  cases hb
  have hreport := hmirrors .buy 100 1 (by decide)
  cases hreport

end NanoVault.MarketData
