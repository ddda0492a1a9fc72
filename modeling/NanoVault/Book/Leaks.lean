/-
Orders that are registered without resting.

Every registered order holds one slot, in every run (`Counted`). Every registered order
rests as long as no call leaves its order behind (`Stays`); the first call that does so
breaks this (`no_leak_run`).
-/
import NanoVault.Book.Simulation
import NanoVault.Book.Residents

namespace NanoVault.Book

open Lib OrderBook

def OrderBook.orderCount (b : OrderBook) : Nat := b.orderPool.used

/-- The registered ids are those of the resting orders, and each holds one slot. -/
structure NoLeak (b : OrderBook) : Prop where
  registered : ∀ i, (b.orderMap i).isSome ↔ i ∈ ids b.resting
  slots : b.orderCount = b.resting.length

/-- The calls that leave no order behind. -/
def Settles (b : OrderBook) : Call → Prop
  | .add side type price qty _ => ¬ Stays b side type price qty.toInt
  | _ => True

/-! ### Slots -/

namespace Roster

variable {r r' : Roster} {t i : OrderId} {x : Order} {ts : List Trade}

/-- Entries are named by ids given out, and each holds one slot. -/
structure Counted (r : Roster) : Prop where
  named : ∀ {i x}, r.entry i = some x → x.id = i ∧ i ≤ r.orderIdSeq
  slots : ∃ is : Finset OrderId, (∀ i, i ∈ is ↔ (r.entry i).isSome) ∧
    r.free + is.card = maxOrders

namespace Counted

theorem retire (h : Counted r) (hi : r.entry i = some x) : Counted (r.retire i) := by
  obtain ⟨is, his, hcard⟩ := h.slots
  have hmem : i ∈ is := (his i).mpr (by rw [hi]; rfl)
  refine ⟨fun {j y} hj => ?_, is.erase i, fun j => ?_, ?_⟩
  · have hj : Function.update r.entry i none j = some y := hj
    rw [Function.update_apply] at hj
    split at hj
    · cases hj
    · exact h.named hj
  · show j ∈ is.erase i ↔ (Function.update r.entry i none j).isSome
    rw [Finset.mem_erase, his, Function.update_apply]
    split
    · next hji => simp [hji]
    · next hji => simp [hji]
  · have hpos := Finset.card_pos.mpr ⟨i, hmem⟩
    show r.free + 1 + (is.erase i).card = maxOrders
    rw [Finset.card_erase_of_mem hmem]
    omega

theorem tell (h : Counted r) (e : Event) : Counted (r.tell e) := ⟨h.named, h.slots⟩

theorem enter (h : Counted r) (hx : x.id = r.orderIdSeq + 1) (hfree : r.free ≠ 0) :
    Counted (r.enter x) := by
  obtain ⟨is, his, hcard⟩ := h.slots
  have hmem : x.id ∉ is := fun hmem => by
    obtain ⟨y, hy⟩ := Option.isSome_iff_exists.mp ((his _).mp hmem)
    exact absurd (h.named hy).2 (by rw [hx]; exact Nat.not_succ_le_self _)
  refine ⟨fun {j y} hj => ?_, insert x.id is, fun j => ?_, ?_⟩
  · have hj : Function.update r.entry x.id (some x) j = some y := hj
    show y.id = j ∧ j ≤ r.orderIdSeq + 1
    rw [Function.update_apply] at hj
    split at hj
    · next hjx =>
        obtain rfl := Option.some.inj hj
        exact ⟨hjx.symm, Nat.le_of_eq (hjx.trans hx)⟩
    · exact ⟨(h.named hj).1, Nat.le_succ_of_le (h.named hj).2⟩
  · show j ∈ insert x.id is ↔ (Function.update r.entry x.id (some x) j).isSome
    rw [Finset.mem_insert, his, Function.update_apply]
    split
    · next hjx => simp [hjx]
    · next hjx => simp [hjx]
  · show r.free - 1 + (insert x.id is).card = maxOrders
    rw [Finset.card_insert_of_notMem hmem]
    omega

/-- Entries may change, as long as they stay under their ids. -/
theorem congr (h : Counted r) (hdomain : ∀ j, (r'.entry j).isSome ↔ (r.entry j).isSome)
    (hnamed : ∀ {j y}, r'.entry j = some y → y.id = j) (hfree : r'.free = r.free)
    (hseq : r'.orderIdSeq = r.orderIdSeq) : Counted r' := by
  obtain ⟨is, his, hcard⟩ := h.slots
  refine ⟨fun {j y} hj => ?_, is, fun j => (his j).trans (hdomain j).symm, hfree ▸ hcard⟩
  obtain ⟨z, hz⟩ := Option.isSome_iff_exists.mp ((hdomain j).mp (by rw [hj]; rfl))
  rw [hseq]
  exact ⟨hnamed hj, (h.named hz).2⟩

theorem fill {maker taker : Order} (h : Counted r) (hm : r.entry maker.id = some maker)
    (ht : r.entry taker.id = some taker) (hne : maker.id ≠ taker.id) (q : Int) :
    Counted (r.fill maker taker q) := by
  have hentry : ∀ j, (r.fill maker taker q).entry j =
      if j = taker.id then some (taker.afterFill q) else
      if j = maker.id then (if maker.remaining = q then none else some (maker.afterFill q))
      else r.entry j := fun j => by
    show Function.update (Function.update r.entry _ _) _ _ j = _
    rw [Function.update_apply, Function.update_apply]
  have hnamed : ∀ {j y}, (r.fill maker taker q).entry j = some y → y.id = j := by
    intro j y hj
    rw [hentry] at hj
    split_ifs at hj with hjt hjm hq
    · exact hjt ▸ (Option.some.inj hj) ▸ rfl
    · exact hjm ▸ (Option.some.inj hj) ▸ rfl
    · exact (h.named hj).1
  by_cases hq : maker.remaining = q
  · refine (h.retire hm).congr (fun j => ?_) hnamed (if_pos hq) rfl
    show _ ↔ (Function.update r.entry maker.id none j).isSome
    rw [hentry, Function.update_apply]
    split_ifs with hjt hjm
    · exact absurd (hjm.symm.trans hjt) hne
    · simp [hjt, ht]
    · rfl
    · rfl
  · refine h.congr (fun j => ?_) hnamed (if_neg hq) rfl
    rw [hentry]
    split_ifs with hjt hjm
    · simp [hjt, ht]
    · simp [hjm, hm]
    · rfl

theorem fills (h : Counted r) (hfills : Fills t r ts r') : Counted r' := by
  induction hfills with
  | nil => exact h
  | cons hm ht hid hne _ _ ih =>
      subst hid
      exact ih (h.fill hm ht hne _)

theorem conclude (h : Counted r) (hx : r.entry x.id = some x) (type : OrderType)
    (result : AddResult) : Counted (r.conclude x type result).1 := by
  have hretired := h.retire hx
  unfold Roster.conclude
  split_ifs
  · exact hretired
  · exact h
  · exact hretired.tell _
  · exact hretired
  · exact h.tell _
  · exact h

theorem adds {side : Side} {type : OrderType} {price : Price} {qty : Int} {exch : Exchange}
    {result : AddResult} (h : Counted r) (hadds : Adds side type price qty exch r result r') :
    Counted r' := by
  cases hadds with
  | refused => exact h
  | unfillable => exact ⟨fun hj => ⟨(h.named hj).1, Nat.le_succ_of_le (h.named hj).2⟩, h.slots⟩
  | entered _ hfree hfills hx =>
      have h₂ := (h.enter (x := r.newOrder side type price qty exch) rfl hfree).fills hfills
      have hid := (h₂.named hx).1
      rw [← hid] at hx
      exact h₂.conclude hx type _

theorem cancel (h : Counted r) (i : OrderId) : Counted (r.cancel i) := by
  unfold Roster.cancel
  split
  · exact h
  · next x hx =>
      split
      · exact (h.retire hx).tell _
      · exact h

theorem step {c : Call} {result : AddResult} (h : Counted r) (hstep : r.Step c result r') :
    Counted r' := by
  cases hstep with
  | add hadds => exact h.adds hadds
  | cancel i => exact h.cancel i
  | unknown => exact h
  | modify _ hadds => exact (h.cancel _).adds hadds
  | clear => exact ⟨fun hj => (by cases hj), ∅, fun i => by simp [Roster.clear], Nat.add_zero _⟩

end Counted

end Roster

variable {b b' : OrderBook} {A : Queues} {i : OrderId}

/-- In every run each registered order holds one slot. -/
theorem reach_counted {ok : OrderBook → Call → Prop} (h : bookMachine.Reach ok b) :
    Linkage b.orderIdSeq b ∧ b.roster.Counted :=
  h.invariant (I := fun b => Linkage b.orderIdSeq b ∧ b.roster.Counted)
    (fun b hb => by
      obtain rfl := hb
      exact ⟨.init, fun hj => (by cases hj), ∅, fun i => by simp [roster, OrderBook.lookup], rfl⟩)
    fun _ _ _ ⟨hlinkage, hcounted⟩ _ hstep => by
      obtain ⟨r, hanswers⟩ := callStep_iff.mp hstep
      obtain ⟨hlinkage', hroster⟩ := hanswers.roster hlinkage
      exact ⟨hlinkage', hcounted.step hroster⟩

/-! ### Runs without leaks -/

/-- Every registered order rests. -/
structure Tidy (b : OrderBook) (A : Queues) : Prop where
  represents : Represents b A
  rests : ∀ {i x}, b.lookup i = some x → ∃ s p, i ∈ ids (A s p)

namespace Tidy

theorem noLeak (h : Tidy b A) (hcounted : b.roster.Counted) : NoLeak b := by
  have hsome : ∀ i, (b.orderMap i).isSome ↔ (b.lookup i).isSome := fun i => by
    rw [OrderBook.lookup, Option.isSome_map]
  have hrests : ∀ i, (b.lookup i).isSome ↔ i ∈ ids b.resting := fun i => by
    rw [h.represents.mem_restingIds]
    constructor
    · intro hi
      obtain ⟨x, hx⟩ := Option.isSome_iff_exists.mp hi
      exact h.rests hx
    · rintro ⟨s, p, hmem⟩
      exact (h.represents.allRest s p).isSome hmem
  refine ⟨fun i => (hsome i).trans (hrests i), ?_⟩
  obtain ⟨is, his, hcard⟩ := hcounted.slots
  have heq : is = (ids b.resting).toFinset := Finset.ext fun i => by
    rw [his, List.mem_toFinset, ← hrests i]
    exact Iff.of_eq (congrArg (· = true) (Option.isSome_map ..))
  have hlen : is.card = b.resting.length := by
    rw [heq, List.toFinset_card_of_nodup h.represents.nodup_resting]
    exact List.length_map _
  show maxOrders - b.orderPool.freeTop = b.resting.length
  have hcard : b.orderPool.freeTop + is.card = maxOrders := hcard
  omega

/-- An order that stays behind is a leak. -/
theorem leak {A' : Queues} {t : OrderId} {x : Order} (h : Represents b' A') (hx : Stray b' A' t x) :
    ¬ NoLeak b' := by
  intro hleak
  obtain ⟨slot, hslot, -⟩ := lookup_eq_some.mp hx.lookup
  have hmem := (hleak.registered t).mp (by rw [hslot]; rfl)
  obtain ⟨s, p, hmem⟩ := h.mem_restingIds.mp hmem
  exact hx.apart s p hmem

theorem added {A' : Queues} {t : OrderId} {stays : Prop} (h : Tidy b A)
    (ha : Added b b' A A' t stays) (hstays : ¬ stays) : Tidy b' A' := by
  refine ⟨ha.represents, fun {i x} hx => ?_⟩
  by_cases hi : i = t
  · subst hi
    rcases ha.settled hstays with hnone | hrests
    · rw [hnone] at hx
      cases hx
    · exact hrests
  · rcases ha.kept i hi with hnone | hrests | ⟨heq, hnot⟩
    · rw [hnone] at hx
      cases hx
    · exact hrests
    · obtain ⟨s, p, hmem⟩ := h.rests (heq ▸ hx)
      exact absurd hmem (hnot s p)

theorem cancel (h : Tidy b A) (i : OrderId) : ∃ A', Tidy (b.cancelOrder i).1 A' := by
  cases hx : b.lookup i with
  | none =>
      rw [cancelOrder_unknown hx]
      exact ⟨A, h⟩
  | some x =>
      obtain ⟨s, p, hmem⟩ := h.rests hx
      obtain ⟨y, hy, rfl⟩ := mem_ids.mp hmem
      obtain ⟨q₁, q₂, hq, hrep, hnone, hpayload, -⟩ := h.represents.cancel_resting hy
      refine ⟨_, hrep, fun {j z} hz => ?_⟩
      have hj : j ≠ y.id := by
        rintro rfl
        rw [hnone] at hz
        cases hz
      have hold := hpayload j hj
      rw [hz] at hold
      obtain ⟨w, hw, -⟩ := Option.map_eq_some_iff.mp hold.symm
      obtain ⟨s', p', hmem'⟩ := h.rests hw
      exact ⟨s', p', Queues.mem_takeOut hq hj hmem'⟩

/-- A resting order is a LIMIT order, so that none like it stays behind. -/
theorem limit (h : Tidy b A) {x : Order} (hx : b.lookup i = some x) : x.type = .limit := by
  obtain ⟨s, p, hmem⟩ := h.rests hx
  obtain ⟨y, hy, rfl⟩ := mem_ids.mp hmem
  obtain ⟨x', hx', hrests⟩ := h.represents.allRest s p y hy
  obtain rfl := Option.some.inj (hx.symm.trans hx')
  exact hrests.type

/-- A call keeps every registered order resting, or leaves its own order behind. -/
theorem step (h : Tidy b A) {c : Call} (hstep : CallStep b c b') :
    (Settles b c → ∃ A', Tidy b' A') ∧ (¬ Settles b c → ¬ NoLeak b') := by
  cases c with
  | add side type price qty exch =>
      obtain ⟨A', hadded⟩ := h.represents.add_step hstep
      refine ⟨fun hok => ⟨A', h.added hadded hok⟩, fun hok => ?_⟩
      obtain ⟨x, hx⟩ := hadded.stray (not_not.mp hok)
      exact leak hadded.represents hx
  | cancel i =>
      obtain rfl := hstep
      exact ⟨fun _ => h.cancel i, fun hok => absurd trivial hok⟩
  | modify i newPrice newQty =>
      refine ⟨fun _ => ?_, fun hok => absurd trivial hok⟩
      rcases modify_step hstep with ⟨-, rfl⟩ | ⟨x, hx, hadd⟩
      · exact ⟨A, h⟩
      · have hlimit := h.limit hx
        obtain ⟨A₁, h₁⟩ := h.cancel i
        obtain ⟨A₂, hadded⟩ := h₁.represents.add_step hadd
        refine ⟨A₂, h₁.added hadded ?_⟩
        rintro ⟨-, -, ⟨hc, -⟩ | ⟨hc, -⟩⟩ <;> rw [hlimit] at hc <;> cases hc
  | clear =>
      obtain rfl := hstep
      exact ⟨fun _ => ⟨_, (Sound.clear b).represents, fun hx => (by cases hx)⟩,
        fun hok => absurd trivial hok⟩

end Tidy

/-- A run that leaves no order behind leaks nothing, and the first call that leaves one
behind leaks it. -/
theorem no_leak_run (h : bookMachine.Reach Settles b) :
    NoLeak b ∧ ∀ c b', CallStep b c b' → (NoLeak b' ↔ Settles b c) := by
  have hcounted : ∀ {b}, bookMachine.Reach Settles b → b.roster.Counted := fun h =>
    (reach_counted h).2
  obtain ⟨A, htidy⟩ := h.invariant (I := fun b => ∃ A, Tidy b A)
    (fun b hb => by
      obtain rfl := hb
      exact ⟨_, .init, fun hx => (by cases hx)⟩)
    (fun _ _ _ ⟨_, htidy⟩ hok hstep => (htidy.step hstep).1 hok)
  refine ⟨htidy.noLeak (hcounted h), fun c b' hstep => ⟨fun hleak => ?_, fun hok => ?_⟩⟩
  · by_contra hok
    exact (htidy.step hstep).2 hok hleak
  · obtain ⟨A', htidy'⟩ := (htidy.step hstep).1 hok
    exact htidy'.noLeak (hcounted (.step h hok hstep))

/-- Two bids rest in the two slots taken, and after a cancellation one does. -/
theorem no_leak_run_twoBids :
    NoLeak twoBids ∧ ∀ b', CallStep twoBids (.cancel 1) b' → NoLeak b' := by
  have hone : bookMachine.Reach Settles (addedTo {} .buy .limit 100 5) := by
    refine .step (.init rfl) (i := .add .buy .limit 100 5 .generic) ?_
      ⟨fun _ => 0, { id := 1, accepted := true }, 3, rfl⟩
    rintro ⟨-, -, ⟨htype, -⟩ | ⟨htype, -⟩⟩ <;> cases htype
  have htwo : bookMachine.Reach Settles twoBids := by
    refine .step hone (i := .add .buy .limit 100 5 .generic) ?_
      ⟨fun _ => 0, { id := 2, accepted := true }, 3, rfl⟩
    rintro ⟨-, -, ⟨htype, -⟩ | ⟨htype, -⟩⟩ <;> cases htype
  obtain ⟨hnoLeak, hnext⟩ := no_leak_run htwo
  exact ⟨hnoLeak, fun b' hstep => (hnext _ b' hstep).mpr trivial⟩

/-- A MARKET order that meets nothing stays registered, in its slot, without resting. -/
theorem market_leaks : ∃ b, bookMachine.Reach Machine.Any b ∧ ¬ NoLeak b := by
  refine ⟨addedTo {} .buy .market 0 5, .step (.init rfl) (i := .add .buy .market 0 5 .generic)
    trivial ⟨fun _ => 0, { id := 1, accepted := true }, 3, rfl⟩, fun hleak => ?_⟩
  have hmem := (hleak.registered 1).mp rfl
  cases hmem

end NanoVault.Book
