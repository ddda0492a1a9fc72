/-
What a listener knows of the best prices.

`add_order` announces the best prices at some of its exits only. A POST_ONLY order that is
taken back after it has traded, and what is left of a MARKET order that has traded, leave the
ladders changed and say nothing. As long as calls do neither, the quotes a listener was last
given are those of the book, whatever state the levels are in (`fresh_run`): a level is never
left empty (`Stocked`), so that a sweep without trades changes nothing, and a sweep that does
not fill its taker has traded all there was within reach (`sweep_exhausts`).
-/
import NanoVault.Book.Conservation

namespace NanoVault.Book

open Lib OrderBook

/-- The quotes last given to a listener; none is the empty BBO. -/
def lastBbo (log : List Event) : BBO :=
  log.foldl (fun bbo e =>
    match e with
    | .onBboUpdate quotes => quotes
    | _ => bbo) {}

/-- The last quotes are those of the book. -/
def Fresh (b : OrderBook) : Prop := lastBbo b.log = b.bestBbo

/-- A POST_ONLY order has nothing to trade with, and a MARKET order either has nothing to
trade with or can be filled. -/
def Quoted (b : OrderBook) (side : Side) (type : OrderType) (price : Price) (qty : Int) : Prop :=
  (type = .postOnly → b.tradable side type price qty = 0) ∧
    (type = .market → b.tradable side type price qty = 0 ∨ b.tradable side type price qty = qty)

/-- The calls that announce what they do to the best prices. A modification adds its order to
the book without the old one. -/
def AllQuoted (b : OrderBook) : Call → Prop
  | .add side type price qty _ => Quoted b side type price qty.toInt
  | .modify i newPrice newQty => ∀ x, b.lookup i = some x →
      Quoted (b.cancelOrder i).1 x.side x.type newPrice newQty.toInt
  | _ => True

variable {b b' : OrderBook} {n i t : OrderId} {o taker : Slot} {s : Side} {p : Price}
  {cur : OrderId} {limit : Price}

/-! ### No level is empty -/

/-- Every level counts an order. -/
def Stocked (b : OrderBook) : Prop :=
  ∀ s p lvl, (b.ladder s).find? p = some lvl → lvl.isEmpty = false

@[simp] theorem ladder_levelRemoveOrderLinks (b : OrderBook) (lvl : PriceLevel) (o : Slot) :
    (b.levelRemoveOrderLinks lvl o).1.ladder = b.ladder := by
  simp only [levelRemoveOrderLinks]
  split <;> split <;> simp

@[simp] theorem ladder_levelAddOrder (b : OrderBook) (lvl : PriceLevel) (o : Slot) :
    (b.levelAddOrder lvl o).1.ladder = b.ladder := by
  simp only [levelAddOrder]
  split <;> simp

@[simp] theorem ladder_settleMaker (b : OrderBook) (maker : Slot) :
    (b.settleMaker maker).ladder = b.ladder := by
  unfold settleMaker
  split <;> rfl

namespace Stocked

/-- Levels are all that counts. -/
theorem congr (h : Stocked b) (hladder : b'.ladder = b.ladder) : Stocked b' := by
  intro s p lvl hlvl
  rw [hladder] at hlvl
  exact h s p lvl hlvl

/-- A level that holds an order may be put in. -/
theorem insert (h : Stocked b) (s : Side) (p : Price) {lvl : PriceLevel}
    (hlvl : lvl.isEmpty = false) : Stocked (b.setLadder s ((b.ladder s).insert p lvl)) := by
  intro s' p' lvl' hfind
  by_cases hs : s' = s
  · subst hs
    rw [ladder_setLadder_self, SortedMap.find?_insert] at hfind
    split at hfind
    · cases hfind
      exact hlvl
    · exact h _ _ _ hfind
  · rw [ladder_setLadder_ne _ _ hs] at hfind
    exact h _ _ _ hfind

/-- A level may be taken out. -/
theorem erase (h : Stocked b) (s : Side) (p : Price) :
    Stocked (b.setLadder s ((b.ladder s).erase p)) := by
  intro s' p' lvl' hfind
  by_cases hs : s' = s
  · subst hs
    rw [ladder_setLadder_self, SortedMap.find?_erase] at hfind
    split at hfind
    · cases hfind
    · exact h _ _ _ hfind
  · rw [ladder_setLadder_ne _ _ hs] at hfind
    exact h _ _ _ hfind

/-- A level an order leaves empty is dropped. -/
theorem reduceLevel (h : Stocked b) (s : Side) (o : Slot) (amount : Int) (leaves : Bool) :
    Stocked (b.reduceLevel s o amount leaves) := by
  unfold OrderBook.reduceLevel
  dsimp only
  split
  · exact h
  · rename_i lvl hlvl
    split
    · have hlinks : Stocked (b.levelRemoveOrderLinks
          { lvl with totalQty := wrap64 (lvl.totalQty - amount) } o).1 := h.congr (by simp)
      split
      · exact hlinks.erase s _
      · rename_i hfull
        exact hlinks.insert s _ (Bool.not_eq_true _ ▸ hfull)
    · exact h.insert s _ (h s _ lvl hlvl)

/-- A fill leaves no empty level. -/
theorem fillOrder (h : Stocked b) (maker taker : Slot) (fill : Int) :
    Stocked (b.fillOrder maker taker fill).1 := by
  have hcharged : Stocked (b.chargeFill maker taker fill) := h.congr rfl
  have hreduced := hcharged.reduceLevel
    ((b.chargeFill maker taker fill).order taker).side.opposite maker fill
    (decide (((b.chargeFill maker taker fill).order maker).remaining = 0))
  exact hreduced.congr (by simp [OrderBook.fillOrder])

/-- Walking a level leaves no empty level. -/
theorem walkLevel {fuel : Nat} {ts : List Trade} (h : Stocked b)
    (hw : OrderBook.walkLevel fuel b taker cur = some (b', ts)) : Stocked b' := by
  induction fuel generalizing b cur ts with
  | zero => cases hw
  | succ fuel ih =>
      rw [OrderBook.walkLevel] at hw
      split at hw
      · split at hw
        · obtain ⟨rfl, rfl⟩ := Prod.mk.inj (Option.some.inj hw)
          exact h
        · obtain ⟨w, hrest, heq⟩ := Option.map_eq_some_iff.mp hw
          obtain ⟨rfl, rfl⟩ := Prod.mk.inj heq
          exact ih (h.fillOrder _ _ _) hrest
      · obtain ⟨rfl, rfl⟩ := Prod.mk.inj (Option.some.inj hw)
        exact h

/-- The cleanup behind the inner loop finds nothing to do, whatever it reads. -/
theorem dropEmpty (h : Stocked b) (s : Side) (key : Price) : b.dropEmpty s key = b := by
  unfold OrderBook.dropEmpty
  split
  · rename_i lvl hlvl
    rw [h s key lvl hlvl]
    rfl
  · rfl

/-- A sweep leaves no empty level. -/
theorem sweep {freed : TradeId → Price} {fuel : Nat} {ts : List Trade} (h : Stocked b)
    (hs : OrderBook.sweep freed fuel b taker = some (b', ts)) : Stocked b' := by
  induction fuel generalizing b ts with
  | zero => cases hs
  | succ fuel ih =>
      rw [sweep_succ freed fuel rfl] at hs
      split at hs
      · split at hs
        · obtain ⟨rfl, rfl⟩ := Prod.mk.inj (Option.some.inj hs)
          exact h
        · split at hs
          · obtain ⟨rfl, rfl⟩ := Prod.mk.inj (Option.some.inj hs)
            exact h
          · obtain ⟨w, hwalk, hs⟩ := Option.bind_eq_some_iff.mp hs
            obtain ⟨w', hrest, heq⟩ := Option.map_eq_some_iff.mp hs
            obtain ⟨rfl, rfl⟩ := Prod.mk.inj heq
            have hw := h.walkLevel hwalk
            rw [hw.dropEmpty] at hrest
            exact ih hw hrest
      · obtain ⟨rfl, rfl⟩ := Prod.mk.inj (Option.some.inj hs)
        exact h

/-- Resting an order leaves no empty level. -/
theorem restOrder (h : Stocked b) (o : Slot) : Stocked (b.restOrder o) := by
  have hadded : Stocked (b.levelAddOrder { (((b.ladder (b.order o).side).find?
      (b.order o).price).getD {}) with price := (b.order o).price } o).1 := h.congr (by simp)
  apply hadded.insert
  simp [levelAddOrder, PriceLevel.isEmpty]

/-- The conclusion of an add leaves no empty level. -/
theorem concludeAdd (h : Stocked b) (o : Slot) (type : OrderType) (result : AddResult) :
    Stocked (b.concludeAdd o type result).1 := by
  unfold OrderBook.concludeAdd
  dsimp only
  split
  · split
    · exact h.congr rfl
    · exact h
  split
  · exact h.congr rfl
  split
  · exact h.congr rfl
  split
  · exact (h.restOrder o).congr rfl
  · exact h

/-- Adding an order leaves no empty level. -/
theorem addOrder {freed : TradeId → Price} {fuel : Nat} {side : Side} {type : OrderType}
    {price : Price} {qty : Int} {exch : Exchange} {r : AddResult} (h : Stocked b)
    (hadd : b.addOrder freed fuel side type price qty exch = some (b', r)) : Stocked b' := by
  rcases addOrder_inv hadd with ⟨rfl, rfl⟩ | ⟨o, pool, -, -, ⟨-, rfl, -⟩ | ⟨-, -, b₂, ts, hs, heq⟩⟩
  · exact h
  · exact h.congr rfl
  · have hentered : Stocked ((b.placeOrder pool o (b.newOrder side type price qty exch)).enroll
        (b.orderIdSeq + 1) o) := h.congr rfl
    have hconcluded := (hentered.sweep hs).concludeAdd o type
      { id := b.orderIdSeq + 1, accepted := true, fills := ts }
    rwa [heq] at hconcluded

/-- Cancelling an order leaves no empty level. -/
theorem cancelOrder (h : Stocked b) (i : OrderId) : Stocked (b.cancelOrder i).1 := by
  unfold OrderBook.cancelOrder
  split
  · exact h
  · dsimp only
    split
    · exact (h.reduceLevel _ _ _ _).congr rfl
    · exact h

theorem step {c : Call} (h : Stocked b) (hstep : CallStep b c b') : Stocked b' := by
  cases c with
  | add side type price qty exch =>
      obtain ⟨freed, r, fuel, hadd⟩ := hstep
      exact h.addOrder hadd
  | cancel i =>
      obtain rfl := hstep
      exact h.cancelOrder i
  | modify i newPrice newQty =>
      rcases modify_step hstep with ⟨-, rfl⟩ | ⟨x, -, freed, r, fuel, hadd⟩
      · exact h
      · exact (h.cancelOrder i).addOrder hadd
  | clear =>
      obtain rfl := hstep
      intro s p lvl hlvl
      cases s <;> cases hlvl

end Stocked

/-! ### What a sweep finds -/

/-- A walk without trades changes nothing. -/
theorem walkLevel_nil {fuel : Nat} (hw : walkLevel fuel b taker cur = some (b', [])) : b' = b := by
  cases fuel with
  | zero => cases hw
  | succ fuel =>
      rw [walkLevel] at hw
      split at hw
      · split at hw
        · exact (Prod.mk.inj (Option.some.inj hw)).1.symm
        · obtain ⟨w, -, heq⟩ := Option.map_eq_some_iff.mp hw
          cases (Prod.mk.inj heq).2
      · exact (Prod.mk.inj (Option.some.inj hw)).1.symm

/-- A sweep without trades changes nothing. -/
theorem Stocked.sweep_nil {freed : TradeId → Price} {fuel : Nat} (h : Stocked b)
    (hs : OrderBook.sweep freed fuel b taker = some (b', [])) : b' = b := by
  induction fuel with
  | zero => cases hs
  | succ fuel ih =>
      rw [sweep_succ freed fuel rfl] at hs
      split at hs
      · split at hs
        · exact (Prod.mk.inj (Option.some.inj hs)).1.symm
        · split at hs
          · exact (Prod.mk.inj (Option.some.inj hs)).1.symm
          · obtain ⟨⟨b₁, ts₁⟩, hwalk, hs⟩ := Option.bind_eq_some_iff.mp hs
            obtain ⟨⟨b₂, ts₂⟩, hrest, heq⟩ := Option.map_eq_some_iff.mp hs
            obtain ⟨rfl, hts⟩ := Prod.mk.inj heq
            obtain ⟨rfl, rfl⟩ := List.append_eq_nil_iff.mp hts
            obtain rfl := walkLevel_nil hwalk
            rw [h.dropEmpty] at hrest
            exact ih hrest
      · exact (Prod.mk.inj (Option.some.inj hs)).1.symm

/-- A level that begins with an order that is not registered holds nothing. -/
theorem inReach_eq_others {side : Side} (hzero : b.volumeFrom b.orderIdSeq cur = 0)
    (hhead : ∀ lvl, (b.ladder side.opposite).find? p = some lvl → lvl.head = cur) :
    b.inReach side limit = b.inOthers side limit p := by
  by_cases hp : (b.ladder side.opposite).find? p = none ∨ side.beyond limit p = true
  · exact inReach_of_not_mem hp
  · obtain ⟨hfind, hreach⟩ := not_or.mp hp
    obtain ⟨lvl, hlvl⟩ := Option.ne_none_iff_exists'.mp hfind
    rw [inReach_of_mem hfind (Bool.not_eq_true _ ▸ hreach), volume_queue hlvl, hhead lvl hlvl, hzero,
      Int.zero_add]

/-- A walk that does not fill its taker trades all there is at the level. -/
theorem walkLevel_exhausts {fuel : Nat} {ts : List Trade} (h : Linkage n b)
    (ht : b.orderMap t = some taker) (hn : n < t) (hcur : cur ≤ n) (hcharged : Charged b.roster)
    (hplace : ∀ x, b.lookup cur = some x → x.side = (b.order taker).side.opposite ∧ x.price = p)
    (hhead : ∀ lvl, (b.ladder (b.order taker).side.opposite).find? p = some lvl → lvl.head = cur)
    (hw : walkLevel fuel b taker cur = some (b', ts)) (hleft : 0 < (b'.order taker).remaining) :
    traded ts + b'.inReach (b.order taker).side limit =
      b.volumeFrom b.orderIdSeq cur + b.inOthers (b.order taker).side limit p := by
  induction fuel generalizing b cur ts with
  | zero => cases hw
  | succ fuel ih =>
      have hstop : b.lookup cur = none → traded [] + b.inReach (b.order taker).side limit =
          b.volumeFrom b.orderIdSeq cur + b.inOthers (b.order taker).side limit p := fun hnone => by
        have hzero := volumeFrom_none hnone b.orderIdSeq
        rw [inReach_eq_others hzero hhead, hzero, traded_nil]
      rw [walkLevel] at hw
      split at hw
      · next hcond =>
          split at hw
          · next hi =>
              obtain ⟨rfl, rfl⟩ := Prod.mk.inj (Option.some.inj hw)
              exact hstop (Option.map_eq_none_iff.mpr hi)
          · next maker hi =>
              obtain ⟨w, hrest, heq⟩ := Option.map_eq_some_iff.mp hw
              obtain ⟨rfl, rfl⟩ := Prod.mk.inj heq
              clear hw heq
              obtain ⟨hfill, hqty⟩ := fillOrder_filledAt h ht hn hcur hcharged hplace hhead hi
              have hnext := h.next_le (lookup_of_orderMap hi)
              set q := min (b.order taker).remaining (b.order maker).remaining with hq
              generalize b.fillOrder maker taker q = r at hfill hqty hrest ⊢
              by_cases hwhole : (b.order maker).remaining = q
              · have hrec := ih hfill.linkage hfill.mapped hnext hfill.charged hfill.place
                  (hfill.head hwhole) hrest
                rw [hfill.side, hfill.behind, hfill.others] at hrec
                rw [traded_cons, hqty, hfill.volume]
                omega
              · -- The maker is left, and so the taker is not.
                have hzero : (r.1.order taker).remaining = 0 := by
                  rw [hfill.left]
                  omega
                obtain ⟨hstops, -⟩ := walkLevel_filled hzero hrest
                rw [← hstops, hzero] at hleft
                cases hleft
      · next hcond =>
          obtain ⟨rfl, rfl⟩ := Prod.mk.inj (Option.some.inj hw)
          have hcur0 : cur = 0 := by
            by_contra hne
            exact hcond ⟨hne, hleft⟩
          exact hstop (hcur0 ▸ lookup_zero h.registry)

/-- Nothing is in reach if all levels are beyond the limit. -/
theorem inReach_eq_zero {side : Side} (h : ∀ p lvl,
    (b.ladder side.opposite).find? p = some lvl → side.beyond limit p = true) :
    b.inReach side limit = 0 := by
  have hnone : (b.ladder side.opposite).keys.filter (fun p => !side.beyond limit p) = [] := by
    apply List.filter_eq_nil_iff.mpr
    intro p hp
    obtain ⟨lvl, hlvl⟩ := Option.ne_none_iff_exists'.mp (SortedMap.mem_keys.mp hp)
    simp [h p lvl hlvl]
  rw [OrderBook.inReach, hnone]
  rfl

/-- A sweep whose taker has nothing left is over. -/
theorem sweep_filled {freed : TradeId → Price} {fuel : Nat} {ts : List Trade}
    (hdone : ¬ 0 < (b.order taker).remaining)
    (hs : OrderBook.sweep freed fuel b taker = some (b', ts)) : b' = b := by
  cases fuel with
  | zero => cases hs
  | succ fuel =>
      rw [sweep_succ freed fuel rfl, if_neg hdone] at hs
      exact (Prod.mk.inj (Option.some.inj hs)).1.symm

/-- A sweep that does not fill its taker trades all there is within reach. -/
theorem Stocked.sweep_exhausts {freed : TradeId → Price} {fuel : Nat} {ts : List Trade}
    (hstocked : Stocked b) (h : Linkage n b) (ht : b.orderMap t = some taker) (hn : n < t)
    (hcharged : Charged b.roster) (hs : OrderBook.sweep freed fuel b taker = some (b', ts))
    (hleft : 0 < (b'.order taker).remaining) :
    traded ts = b.inReach (b.order taker).side (b.order taker).price := by
  induction fuel generalizing b ts with
  | zero => cases hs
  | succ fuel ih =>
      rw [sweep_succ freed fuel rfl] at hs
      split at hs
      · split at hs
        · next hfirst =>
            obtain ⟨rfl, rfl⟩ := Prod.mk.inj (Option.some.inj hs)
            rw [inReach_eq_zero, traded_nil]
            intro p lvl hlvl
            rw [SortedMap.first?_eq_none.mp hfirst p] at hlvl
            cases hlvl
        · next p lvl hfirst =>
            split at hs
            · next hbeyond =>
                obtain ⟨rfl, rfl⟩ := Prod.mk.inj (Option.some.inj hs)
                rw [inReach_eq_zero, traded_nil]
                intro p' lvl' hlvl'
                rcases (SortedMap.first?_eq_some.mp hfirst).2 p' lvl' hlvl' with rfl | hbehind
                · exact hbeyond
                · exact Side.beyond_of_before hbeyond hbehind
            · next hreach =>
                have hfind := SortedMap.first?_find hfirst
                obtain ⟨w, hwalk, hs⟩ := Option.bind_eq_some_iff.mp hs
                obtain ⟨w', hrest, heq⟩ := Option.map_eq_some_iff.mp hs
                obtain ⟨rfl, rfl⟩ := Prod.mk.inj heq
                have hstocked₁ := hstocked.walkLevel hwalk
                rw [hstocked₁.dropEmpty] at hrest
                have hleft₁ : 0 < (w.1.order taker).remaining := by
                  by_contra hdone
                  rw [sweep_filled hdone hrest] at hleft
                  exact hdone hleft
                have hwalked : traded w.2 + w.1.inReach (b.order taker).side (b.order taker).price =
                    b.volumeFrom b.orderIdSeq lvl.head +
                      b.inOthers (b.order taker).side (b.order taker).price p :=
                  walkLevel_exhausts h ht hn (h.ends hfind).1 hcharged
                    (fun x hx => (h.head hfind hx).2)
                    (fun lvl' hlvl' => by rw [Option.some.inj (hfind.symm.trans hlvl')]) hwalk hleft₁
                have hin : b.inReach (b.order taker).side (b.order taker).price = _ :=
                  inReach_of_mem (by rw [hfind]; exact Option.some_ne_none _)
                    (Bool.not_eq_true _ ▸ hreach)
                rw [volume_queue hfind] at hin
                obtain ⟨h₁, ht₁, -, hfills⟩ := walkLevel_roster h ht hn (h.ends hfind).1
                  (fun x hx => (h.head hfind hx).2.1) hwalk
                obtain ⟨hside, hprice⟩ := taker_after h.registry ht ht₁ hfills
                have hrec := ih hstocked₁ h₁ ht₁ (hcharged.fills hfills) hrest
                rw [hside, hprice] at hrec
                rw [traded_append]
                omega
      · next hdone =>
          obtain ⟨rfl, rfl⟩ := Prod.mk.inj (Option.some.inj hs)
          exact absurd hleft hdone

/-! ### Quotes after a call -/

@[simp] theorem lastBbo_update (log : List Event) (quotes : BBO) :
    lastBbo (log ++ [.onBboUpdate quotes]) = quotes := by
  simp only [lastBbo, List.foldl_append, List.foldl_cons, List.foldl_nil]

namespace Fresh

/-- What has just been notified is fresh. -/
theorem notifyBbo (b : OrderBook) : Fresh b.notifyBbo :=
  lastBbo_update _ _

theorem congr (h : Fresh b) (hlog : b'.log = b.log) (hladder : b'.ladder = b.ladder) : Fresh b' := by
  have hbid : b'.bidLadder = b.bidLadder := congrFun hladder .buy
  have hask : b'.askLadder = b.askLadder := congrFun hladder .sell
  unfold Fresh bestBbo
  rw [hlog, hbid, hask]
  exact h

/-- Only an order that is taken back after it has traded, and one that is neither filled nor
put into the book, is concluded without new quotes. -/
theorem concludeAdd {o : Slot} {type : OrderType} {result : AddResult}
    (htold : type = .postOnly → result.fills = [])
    (h : type = .postOnly ∨ type = .market → (b.order o).remaining ≠ 0 → Fresh b) :
    Fresh (b.concludeAdd o type result).1 := by
  unfold OrderBook.concludeAdd
  dsimp only
  split
  · next hcrossed => exact absurd (htold hcrossed.1) hcrossed.2
  split
  · exact notifyBbo _
  split
  · exact notifyBbo _
  split
  · exact notifyBbo _
  · next hleft hdropped hrests =>
      apply h _ hleft
      cases type <;> simp_all

end Fresh

/-- What is left of an order that has been matched with a book in which every order has
something left: at most the tradable quantity is traded, and less only if the order is
filled. -/
theorem matched_volume {freed : TradeId → Price} {fuel : Nat} {side : Side} {type : OrderType}
    {price : Price} {qty : Int} {exch : Exchange} {pool : MemoryPool Order maxOrders}
    {b₂ : OrderBook} {ts : List Trade} (h : Linkage b.orderIdSeq b) (hopen : Open b.roster)
    (hstocked : Stocked b) (hqty : 0 < qty) (halloc : b.orderPool.allocate = some (o, pool))
    (hprice : ¬ (type = .limit ∧ price ≤ 0))
    (hfok : ¬ (type = .fok ∧ b.canFillFok side price qty = false))
    (hs : OrderBook.sweep freed fuel ((b.placeOrder pool o (b.newOrder side type price qty exch)).enroll
      (b.orderIdSeq + 1) o) o = some (b₂, ts)) :
    (∀ u ∈ ts, 0 < u.qty) ∧ traded ts ≤ b.tradable side type price qty ∧
      ((b₂.order o).remaining ≠ 0 →
        traded ts = b.tradable side type price qty ∧ traded ts ≠ qty) := by
  have hid : (b.newOrder side type price qty exch).id = b.orderIdSeq + 1 := rfl
  have hcharged : Charged b.roster := fun i x hx => Int.le_of_lt (hopen i x hx)
  have hfree : b.orderPool.freeTop ≠ 0 := fun hzero => by
    rw [MemoryPool.allocate_eq_none.mpr hzero] at halloc
    cases halloc
  have hentered := h.enrolled (Nat.le_refl _) halloc hid rfl rfl
  obtain ⟨-, hmap, horder, -⟩ := h.registry.enrolled halloc hid
  have hroster := roster_enrolled h.registry halloc hid rfl
  have hreach := inReach_enrolled h halloc hid rfl rfl side (entryPrice side type price)
  have hcharged₁ : Charged (b.roster.enter (b.newOrder side type price qty exch)) :=
    hcharged.enter (Int.le_of_lt hqty)
  have hstocked₁ : Stocked ((b.placeOrder pool o (b.newOrder side type price qty exch)).enroll
    (b.newOrder side type price qty exch).id o) := hstocked.congr rfl
  obtain ⟨h₂, ht₂, hfills⟩ := sweep_roster hentered hmap (Nat.lt_succ_self _) hs
  have hbound := sweep_volume hentered hmap (Nat.lt_succ_self _) (hroster ▸ hcharged₁) hs
  have hexhausts := hstocked₁.sweep_exhausts hentered hmap (Nat.lt_succ_self _)
    (hroster ▸ hcharged₁) hs
  rw [horder] at hbound hexhausts
  have hbound : traded ts + b₂.inReach side (entryPrice side type price) ≤
      b.inReach side (entryPrice side type price) := hreach ▸ hbound
  have hexhausts : 0 < (b₂.order o).remaining →
      traded ts = b.inReach side (entryPrice side type price) := hreach ▸ hexhausts
  rw [hroster] at hfills
  have hcharged₂ := hcharged₁.fills hfills
  have hrest := inReach_nonneg (fun hx => hcharged₂.lookup hx) side (entryPrice side type price)
  obtain ⟨x, hx, -, -, -, -, hrem⟩ := hfills.charges (Function.update_self ..) rfl
  have hleft : 0 ≤ x.remaining := hcharged₂ _ x hx
  have hrem : x.remaining = qty - traded ts := hrem
  obtain rfl := Option.some.inj (hx.symm.trans (roster_entry ht₂))
  rw [Order.unlinked_remaining] at hrem hleft
  have hbut : OpenBut (b.roster.enter (b.newOrder side type price qty exch)) (b.orderIdSeq + 1) :=
    fun j y hj hy => hopen j y ((Function.update_of_ne hj _ _).symm.trans hy)
  rw [OrderBook.tradable, if_neg (by rw [not_or, not_or, not_or]; exact
    ⟨Int.not_le.mpr hqty, hprice, hfree, hfok⟩)]
  refine ⟨(hbut.fills hfills).2, by omega, fun hne => ?_⟩
  have hall := hexhausts (by omega)
  omega

/-! ### Runs -/

/-- A book whose last quotes are right, with what keeps them so. -/
structure UpToDate (b : OrderBook) : Prop where
  linkage : Linkage b.orderIdSeq b
  isOpen : Open b.roster
  stocked : Stocked b
  fresh : Fresh b

namespace UpToDate

/-- The empty book has told its best prices. -/
theorem init : UpToDate {} :=
  ⟨.init, fun i x hx => (by cases hx), fun s p lvl hlvl => (by cases s <;> cases hlvl), rfl⟩

/-- After an order that was quoted the best prices are told. -/
theorem add_fresh {freed : TradeId → Price} {fuel : Nat} {side : Side} {type : OrderType}
    {price : Price} {qty : Int} {exch : Exchange} {r : AddResult} (h : UpToDate b)
    (hquoted : Quoted b side type price qty)
    (hadd : b.addOrder freed fuel side type price qty exch = some (b', r)) : Fresh b' := by
  obtain ⟨hlinkage, hopen, hstocked, hfresh⟩ := h
  rcases addOrder_inv hadd with
    ⟨rfl, -⟩ | ⟨o, pool, hqty, halloc, ⟨-, rfl, -⟩ | ⟨hprice, hfok, b₂, ts, hs, heq⟩⟩
  · exact hfresh
  · exact hfresh.congr rfl rfl
  · obtain ⟨hpositive, hbound, hrest⟩ :=
      matched_volume hlinkage hopen hstocked hqty halloc hprice hfok hs
    have hunchanged : ts = [] → Fresh b₂ := fun hts => by
      have hstocked₁ : Stocked ((b.placeOrder pool o (b.newOrder side type price qty exch)).enroll
        (b.orderIdSeq + 1) o) := hstocked.congr rfl
      subst hts
      rw [hstocked₁.sweep_nil hs]
      exact hfresh.congr rfl rfl
    have hpost : type = .postOnly → ts = [] := fun htype =>
      eq_nil_of_traded hpositive (hquoted.1 htype ▸ hbound)
    suffices hconcluded : Fresh (b₂.concludeAdd o type
        { id := b.orderIdSeq + 1, accepted := true, fills := ts }).1 by
      rwa [heq] at hconcluded
    apply Fresh.concludeAdd hpost
    intro htype hleft
    obtain ⟨hall, hpartly⟩ := hrest hleft
    apply hunchanged
    rcases htype with htype | htype
    · exact hpost htype
    · rcases hquoted.2 htype with hnone | hfilled
      · exact eq_nil_of_traded hpositive (by omega)
      · exact absurd (hall.trans hfilled) hpartly

/-- A cancel leaves what was told as good as it was. -/
theorem cancel_fresh (h : Fresh b) (i : OrderId) : Fresh (b.cancelOrder i).1 := by
  unfold OrderBook.cancelOrder
  split
  · exact h
  · dsimp only
    split
    · exact Fresh.notifyBbo _
    · exact h

theorem cancel (h : UpToDate b) (i : OrderId) : UpToDate (b.cancelOrder i).1 := by
  obtain ⟨hlinkage, hcancel⟩ := cancelOrder_roster h.linkage i
  have hseq : (b.cancelOrder i).1.orderIdSeq = b.orderIdSeq :=
    (congrArg Roster.orderIdSeq hcancel).trans (Roster.cancel_orderIdSeq _ _)
  refine ⟨hseq ▸ hlinkage, ?_, h.stocked.cancelOrder i, cancel_fresh h.fresh i⟩
  rw [hcancel]
  exact h.isOpen.cancel i

theorem step {c : Call} (h : UpToDate b) (hok : AllQuoted b c) (hstep : CallStep b c b') :
    UpToDate b' := by
  obtain ⟨r, hanswers⟩ := callStep_iff.mp hstep
  have hlinkage := (hanswers.roster h.linkage).1
  have hstocked := h.stocked.step hstep
  suffices hkept : Open b'.roster ∧ Fresh b' from ⟨hlinkage, hkept.1, hstocked, hkept.2⟩
  cases c with
  | add side type price qty exch =>
      obtain ⟨freed, r, fuel, hadd⟩ := hstep
      exact ⟨h.isOpen.add h.linkage hok.1 hadd, h.add_fresh hok hadd⟩
  | cancel i =>
      obtain rfl := hstep
      exact ⟨(h.cancel i).isOpen, (h.cancel i).fresh⟩
  | modify i newPrice newQty =>
      rcases modify_step hstep with ⟨-, rfl⟩ | ⟨x, hx, freed, r, fuel, hadd⟩
      · exact ⟨h.isOpen, h.fresh⟩
      · have hcancelled := h.cancel i
        have hquoted := hok x hx
        exact ⟨hcancelled.isOpen.add hcancelled.linkage hquoted.1 hadd,
          hcancelled.add_fresh hquoted hadd⟩
  | clear =>
      obtain rfl := hstep
      exact ⟨fun i x hx => (by cases hx), Fresh.notifyBbo _⟩

end UpToDate

/-- As long as every change of the best prices is announced, the quotes a listener was last
given are those of the book. -/
theorem fresh_run (h : bookMachine.Reach AllQuoted b) : Fresh b := by
  have hkept := h.invariant (I := UpToDate)
    (fun b hb => by
      obtain rfl := hb
      exact .init)
    fun _ _ _ hup hok hstep => hup.step hok hstep
  exact hkept.fresh

/-- An offer of five at 100. -/
def offerOfFive : OrderBook := addedTo {} .sell .limit 100 5

theorem offerOfFive_step : CallStep {} (.add .sell .limit 100 5 .generic) offerOfFive :=
  ⟨fun _ => 0, { id := 1, accepted := true }, 3, rfl⟩

/-- A MARKET order that buys all of the offer leaves the quotes right. -/
theorem fresh_run_oneOffer :
    CallStep offerOfFive (.add .buy .market 0 5 .generic) (addedTo offerOfFive .buy .market 0 5) ∧
      Fresh (addedTo offerOfFive .buy .market 0 5) := by
  have hfirst : AllQuoted {} (.add .sell .limit 100 5 .generic) :=
    ⟨fun htype => (by cases htype), fun htype => (by cases htype)⟩
  have hsecond : AllQuoted offerOfFive (.add .buy .market 0 5 .generic) :=
    ⟨fun htype => (by cases htype), fun _ => .inr rfl⟩
  have hstep : CallStep offerOfFive (.add .buy .market 0 5 .generic)
      (addedTo offerOfFive .buy .market 0 5) := ⟨fun _ => 0, { id := 2, accepted := true, fills :=
        [{ id := 1, makerId := 1, takerId := 2, price := 100, qty := 5, aggressor := .buy }] }, 3, rfl⟩
  exact ⟨hstep, fresh_run (.step (.step (.init rfl) hfirst offerOfFive_step) hsecond hstep)⟩

/-- A POST_ONLY order that crosses takes three of the offer, and the listener still holds the
offer of five. A MARKET order for seven takes the whole offer, and the listener still holds
it as well. -/
theorem stale_quotes :
    (∃ b, bookMachine.Reach Machine.Any b ∧ ¬ Fresh b ∧
      lastBbo b.log = { askPrice := 100, askQty := 5 } ∧
      b.bestBbo = { askPrice := 100, askQty := 2 }) ∧
    ∃ b, bookMachine.Reach Machine.Any b ∧ ¬ Fresh b ∧
      lastBbo b.log = { askPrice := 100, askQty := 5 } ∧ b.bestBbo = {} := by
  have hoffer : bookMachine.Reach Machine.Any offerOfFive :=
    .step (.init rfl) (i := .add .sell .limit 100 5 .generic) trivial offerOfFive_step
  constructor
  · have hlast : lastBbo (addedTo offerOfFive .buy .postOnly 100 3).log =
        { askPrice := 100, askQty := 5 } := rfl
    have hbest : (addedTo offerOfFive .buy .postOnly 100 3).bestBbo =
        { askPrice := 100, askQty := 2 } := rfl
    refine ⟨addedTo offerOfFive .buy .postOnly 100 3,
      .step hoffer (i := .add .buy .postOnly 100 3 .generic) trivial
        ⟨fun _ => 0, { id := 2 }, 3, rfl⟩, ?_, hlast, hbest⟩
    rw [Fresh, hlast, hbest]
    decide
  · have hlast : lastBbo (addedTo offerOfFive .buy .market 0 7).log =
        { askPrice := 100, askQty := 5 } := rfl
    have hbest : (addedTo offerOfFive .buy .market 0 7).bestBbo = {} := rfl
    refine ⟨addedTo offerOfFive .buy .market 0 7,
      .step hoffer (i := .add .buy .market 0 7 .generic) trivial
        ⟨fun _ => 0, { id := 2, accepted := true, fills :=
          [{ id := 1, makerId := 1, takerId := 2, price := 100, qty := 5, aggressor := .buy }] },
          3, rfl⟩, ?_, hlast, hbest⟩
    rw [Fresh, hlast, hbest]
    decide

end NanoVault.Book
