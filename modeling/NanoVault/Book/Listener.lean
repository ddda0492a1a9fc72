/-
A listener that keeps its own copy of the book.

`listen` is what a listener holds after a log of events. On the roster it is told of every
LIMIT order that is left registered, and of nothing else (`Heard`), whatever the levels
look like; only `clear` tells it nothing. In a book whose registered LIMIT orders all rest
these are the resting orders (`mirrored_run`).
-/
import NanoVault.Lib.EventLog
import NanoVault.Book.Leaks

namespace NanoVault.Book

open Lib OrderBook

/-- Remaining quantities, under the ids held. -/
abbrev Holdings := OrderId → Option Int

/-- What a listener does on an event: an id it does not hold is ignored. -/
def hear (h : Holdings) : Event → Holdings
  | .onTrade t => Function.update h t.makerId ((h t.makerId).map (· - t.qty))
  | .onBboUpdate _ => h
  | .onOrderAdded o => Function.update h o.id (some o.remaining)
  | .onOrderCancelled o => Function.update h o.id none
  | .onOrderFilled o => Function.update h o.id none

def listen (log : List Event) : Holdings := log.foldl hear fun _ => none

/-- The listener holds the orders it is told have been cancelled. -/
def Known (before : List Event) : Event → Prop
  | .onOrderCancelled o => (listen before o.id).isSome
  | _ => True

/-- The listener holds exactly the resting orders, and has never been told of the
cancellation of another one. -/
structure Mirrored (b : OrderBook) : Prop where
  holds : ∀ i r, listen b.log i = some r ↔ ⟨i, r⟩ ∈ b.resting
  known : Guarded Known b.log

/-- The calls whose effect on the resting orders is told: no active order is cancelled that
is not a LIMIT order, and no order rests when the book is cleared. -/
def Announced (b : OrderBook) : Call → Prop
  | .add .. => True
  | .cancel i => ∀ x, b.lookup i = some x → x.isActive = true → x.type = .limit
  | .modify i _ _ => ∀ x, b.lookup i = some x → x.isActive = true → x.type = .limit
  | .clear => b.resting = []

@[simp] theorem listen_concat (log : List Event) (e : Event) :
    listen (log ++ [e]) = hear (listen log) e := by
  simp [listen]

/-- Links and best prices are nothing to the listener. -/
theorem listen_unlinked (log : List Event) : listen (log.filterMap Event.unlinked) = listen log := by
  rw [listen, List.foldl_filterMap]
  congr
  funext h e
  cases e <;> rfl

theorem known_unlinked {log : List Event} :
    Guarded Known (log.filterMap Event.unlinked) ↔ Guarded Known log := by
  refine guarded_filterMap (fun before e he => ?_) fun before e e' he => ?_
  · cases e <;> cases he
    trivial
  · cases e with
    | onOrderCancelled o =>
        obtain rfl := Option.some.inj he
        show (listen _ o.id).isSome ↔ (listen _ o.id).isSome
        rw [listen_unlinked]
    | onBboUpdate => cases he
    | _ =>
        cases he
        exact Iff.rfl

/-! ### The roster and its log -/

namespace Roster

variable {r r' : Roster} {t i : OrderId} {x y : Order} {ts : List Trade}

/-- The quantity left of a registered LIMIT order. -/
def shown (r : Roster) (i : OrderId) : Option Int :=
  (r.entry i).bind fun x => if x.type = .limit then some x.remaining else none

/-- The listener holds the registered LIMIT orders. -/
def Heard (r : Roster) : Prop := ∀ i, listen r.log i = r.shown i

/-- While `t` is matched, the listener holds the other ones. -/
def HeardBut (r : Roster) (t : OrderId) : Prop :=
  listen r.log t = none ∧ ∀ i, i ≠ t → listen r.log i = r.shown i

theorem shown_none (h : r.entry i = none) : r.shown i = none := by
  rw [shown, h, Option.bind_none]

theorem shown_some (h : r.entry i = some x) :
    r.shown i = if x.type = .limit then some x.remaining else none := by
  rw [shown, h, Option.bind_some]

theorem Heard.but (h : Heard r) (ht : r.shown t = none) : HeardBut r t :=
  ⟨(h t).trans ht, fun i _ => h i⟩

theorem HeardBut.heard (h : HeardBut r t) (ht : r.shown t = none) : Heard r := fun i => by
  by_cases hi : i = t
  · rw [hi, h.1, ht]
  · exact h.2 i hi

/-- One fill lowers the maker's quantity in both places, or takes it from both. -/
theorem HeardBut.fill {maker taker : Order} (h : HeardBut r taker.id)
    (hm : r.entry maker.id = some maker) (hne : maker.id ≠ taker.id) (q : Int) :
    HeardBut (r.fill maker taker q) taker.id := by
  have hlisten : listen (r.fill maker taker q).log = Function.update (listen r.log) maker.id
      (if maker.remaining = q then none else (listen r.log maker.id).map (· - q)) := by
    show listen (r.log ++ _ ++ [_]) = _
    rw [listen_concat]
    split_ifs
    · rw [listen_concat]
      simp [hear, trade, Order.afterFill, Order.reduce, Order.setStatus]
    · rw [List.append_nil]
      rfl
  constructor
  · rw [hlisten, Function.update_of_ne hne.symm]
    exact h.1
  · intro i hi
    rw [hlisten, Function.update_apply]
    by_cases him : i = maker.id
    · subst him
      have hentry := r.fill_entry_maker q hne
      rw [if_pos rfl, h.2 _ hne, shown_some hm]
      by_cases hq : maker.remaining = q
      · rw [if_pos hq] at hentry ⊢
        exact (shown_none hentry).symm
      · rw [if_neg hq] at hentry ⊢
        rw [shown_some hentry]
        show _ = if maker.type = .limit then some (maker.remaining - q) else none
        split_ifs <;> rfl
    · rw [if_neg him, h.2 i hi, shown, shown, r.fill_entry_ne q him hi]

theorem HeardBut.fills (h : HeardBut r t) (hfills : Fills t r ts r') : HeardBut r' t := by
  induction hfills with
  | nil => exact h
  | cons hm _ hid hne _ _ ih =>
      subst hid
      exact ih (h.fill hm hne _)

/-- Fills leave the order that is matched under its id, and of its type. -/
theorem Fills.kept (hfills : Fills t r ts r') (hy : r.entry t = some y) (hid : y.id = t) :
    ∃ x, r'.entry t = some x ∧ x.id = t ∧ x.type = y.type := by
  induction hfills generalizing y with
  | nil => exact ⟨y, hy, hid, rfl⟩
  | cons _ ht htaker _ _ _ ih =>
      subst htaker
      obtain rfl := Option.some.inj (hy.symm.trans ht)
      obtain ⟨x, hx, hxid, hxtype⟩ := ih (fill_entry_taker ..) rfl
      exact ⟨x, hx, hxid, hxtype⟩

/-- The end of a call tells the listener of the new order if it is left as a LIMIT order. -/
theorem HeardBut.conclude (h : HeardBut r x.id) (hx : r.entry x.id = some x)
    {type : OrderType} (htype : x.type = type) (result : AddResult) :
    Heard (r.conclude x type result).1 := by
  have hretired : HeardBut (r.retire x.id) x.id := ⟨h.1, fun i hi => by
    rw [shown]
    show _ = (Function.update r.entry x.id none i).bind _
    rw [Function.update_of_ne hi]
    exact h.2 i hi⟩
  have hnone : (r.retire x.id).shown x.id = none := shown_none (Function.update_self ..)
  unfold Roster.conclude
  split_ifs with hpost hactive hzero hioc hlimit
  · exact hretired.heard hnone
  · refine h.heard ?_
    rw [shown_some hx, if_neg]
    rw [htype, hpost.1]
    decide
  · intro i
    have hsame : listen ((r.retire x.id).log ++ [.onOrderFilled (x.setStatus .filled)]) =
        Function.update (listen r.log) x.id none := listen_concat _ _
    refine (congrFun hsame i).trans ?_
    rw [← h.1, Function.update_eq_self]
    exact hretired.heard hnone i
  · exact hretired.heard hnone
  · intro i
    have hsame : listen (r.log ++ [.onOrderAdded x]) =
        Function.update (listen r.log) x.id (some x.remaining) := listen_concat _ _
    refine (congrFun hsame i).trans ?_
    by_cases hi : i = x.id
    · subst hi
      have hshown : (r.tell (.onOrderAdded x)).shown x.id = _ := shown_some hx
      rw [hshown, Function.update_self, if_pos (htype.trans hlimit)]
    · rw [Function.update_of_ne hi]
      exact h.2 i hi
  · refine h.heard ?_
    rw [shown_some hx, if_neg]
    rw [htype]
    exact hlimit

/-- Events that are no cancellations ask nothing of the listener. -/
theorem Fills.log (hfills : Fills t r ts r') :
    ∃ es, r'.log = r.log ++ es ∧ ∀ e ∈ es, ∀ before, Known before e := by
  induction hfills with
  | nil r => exact ⟨[], (List.append_nil _).symm, fun _ he => (by cases he)⟩
  | @cons r _ maker taker _ _ _ _ _ _ _ ih =>
      obtain ⟨es, hlog, hes⟩ := ih
      have hfill : (r.fill maker taker (min taker.remaining maker.remaining)).log = r.log ++ _ ++ _ :=
        rfl
      rw [hfill, List.append_assoc, List.append_assoc] at hlog
      refine ⟨_, hlog, fun e he before => ?_⟩
      rw [List.mem_append, List.mem_append, List.mem_singleton] at he
      rcases he with he | rfl | he
      · split at he
        · obtain rfl := List.mem_singleton.mp he
          trivial
        · cases he
      · trivial
      · exact hes e he before

theorem conclude_log (r : Roster) (x : Order) (type : OrderType) (result : AddResult) :
    ∃ es, (r.conclude x type result).1.log = r.log ++ es ∧ ∀ e ∈ es, ∀ before, Known before e := by
  have hsilent : ∃ es, r.log = r.log ++ es ∧ ∀ e ∈ es, ∀ before, Known before e :=
    ⟨[], (List.append_nil _).symm, fun _ he => (by cases he)⟩
  unfold conclude
  split_ifs
  · exact hsilent
  · exact hsilent
  · exact ⟨[_], rfl, fun e he before => List.mem_singleton.mp he ▸ trivial⟩
  · exact hsilent
  · exact ⟨[_], rfl, fun e he before => List.mem_singleton.mp he ▸ trivial⟩
  · exact hsilent

section Adds

variable {side : Side} {type : OrderType} {price : Price} {qty : Int} {exch : Exchange}
  {result : AddResult}

theorem Adds.known (h : Adds side type price qty exch r result r') :
    Guarded Known r'.log ↔ Guarded Known r.log := by
  cases h with
  | refused => exact Iff.rfl
  | unfillable => exact Iff.rfl
  | @entered r₂ x _ _ _ hfills _ =>
      obtain ⟨es, hlog, hes⟩ := hfills.log
      obtain ⟨es', hlog', hes'⟩ := conclude_log r₂ x type _
      rw [hlog', guarded_append hes', hlog, guarded_append hes]
      rfl

theorem Heard.adds (h : Heard r) (hcounted : Counted r)
    (hadds : Adds side type price qty exch r result r') : Heard r' := by
  cases hadds with
  | refused => exact h
  | unfillable => exact h
  | entered _ hfree hfills hx =>
      have hnext : r.entry (r.orderIdSeq + 1) = none := by
        cases hentry : r.entry (r.orderIdSeq + 1) with
        | none => rfl
        | some y => exact absurd (hcounted.named hentry).2 (Nat.not_succ_le_self _)
      have hbut : HeardBut (r.enter (r.newOrder side type price qty exch)) (r.orderIdSeq + 1) := by
        refine ⟨(h.but (shown_none hnext)).1, fun i hi => ?_⟩
        refine (h i).trans (congrArg (Option.bind · _) ?_)
        exact (Function.update_of_ne hi _ _).symm
      obtain ⟨y, hy, hid, htype⟩ := hfills.kept (Function.update_self ..) rfl
      obtain rfl := Option.some.inj (hx.symm.trans hy)
      have hafter := hbut.fills hfills
      rw [← hid] at hafter hx
      exact hafter.conclude hx htype _

end Adds

/-- A cancelled order is taken from the listener too. -/
theorem Heard.cancel (h : Heard r) (hcounted : Counted r) (i : OrderId) : Heard (r.cancel i) := by
  unfold Roster.cancel
  split
  · exact h
  · next x hx =>
      split
      · intro j
        have hlisten : listen (r.log ++ [.onOrderCancelled (x.setStatus .cancelled)]) =
            Function.update (listen r.log) x.id none := listen_concat _ _
        have hid : x.id = i := (hcounted.named hx).1
        refine (congrFun hlisten j).trans ?_
        show _ = (Function.update r.entry i none j).bind _
        rw [hid]
        by_cases hj : j = i
        · rw [hj, Function.update_self, Function.update_self, Option.bind_none]
        · rw [Function.update_of_ne hj, Function.update_of_ne hj]
          exact h j
      · exact h

/-- It was held if it was a LIMIT order. -/
theorem Heard.cancel_known (h : Heard r) (hcounted : Counted r) (i : OrderId) :
    Guarded Known (r.cancel i).log ↔
      Guarded Known r.log ∧ ∀ x, r.entry i = some x → x.isActive = true → x.type = .limit := by
  unfold Roster.cancel
  split
  · next hnone => simp [hnone]
  · next x hx =>
      rw [hx]
      split
      · next hactive =>
          show Guarded Known (r.log ++ [_]) ↔ _
          rw [guarded_concat]
          refine and_congr_right fun _ => ?_
          show (listen r.log x.id).isSome ↔ _
          rw [(hcounted.named hx).1, h i, shown_some hx]
          constructor
          · intro hsome y hy _
            obtain rfl := Option.some.inj hy
            by_contra htype
            rw [if_neg htype] at hsome
            cases hsome
          · intro hlimit
            rw [if_pos (hlimit x rfl hactive)]
            rfl
      · next hinactive =>
          refine (and_iff_left fun y hy hactive => ?_).symm
          obtain rfl := Option.some.inj hy
          exact absurd hactive hinactive

/-- Nothing is told when the roster is cleared. -/
theorem Heard.clear (h : Heard r) (hnone : ∀ i, r.shown i = none) : Heard r.clear :=
  fun i => (h i).trans (hnone i)

end Roster

/-! ### Runs in which every change is told -/

variable {b b' : OrderBook} {A A' : Queues} {i : OrderId}

/-- The book represents queues, and every registered LIMIT order is in one. -/
structure Lodged (b : OrderBook) (A : Queues) : Prop where
  represents : Represents b A
  settled : Settled b A none

namespace Lodged

theorem empty (h : Represents b Queues.empty) (hmap : ∀ i, b.lookup i = none) :
    Lodged b Queues.empty :=
  ⟨h, fun i x _ hx _ => by
    rw [hmap i] at hx
    cases hx⟩

theorem added {t : OrderId} {stays : Prop} (h : Lodged b A) (ha : Added b b' A A' t stays) :
    Lodged b' A' := by
  refine ⟨ha.represents, fun i x _ hx htype => ?_⟩
  by_cases hi : i = t
  · subst hi
    by_cases hs : stays
    · obtain ⟨y, hy⟩ := ha.stray hs
      obtain rfl := Option.some.inj (hx.symm.trans hy.lookup)
      exact absurd htype hy.type
    · rcases ha.settled hs with hnone | hrests
      · rw [hnone] at hx
        cases hx
      · exact hrests
  · rcases ha.kept i hi with hnone | hrests | ⟨heq, hnot⟩
    · rw [hnone] at hx
      cases hx
    · exact hrests
    · obtain ⟨s, p, hmem⟩ := h.settled i x (by simp) (heq ▸ hx) htype
      exact absurd hmem (hnot s p)

theorem cancel (h : Lodged b A)
    (hok : ∀ x, b.lookup i = some x → x.isActive = true → x.type = .limit) :
    ∃ A', Lodged (b.cancelOrder i).1 A' := by
  cases hx : b.lookup i with
  | none =>
      rw [cancelOrder_unknown hx]
      exact ⟨A, h⟩
  | some x =>
      cases hactive : x.isActive with
      | false =>
          rw [cancelOrder_inactive hx hactive]
          exact ⟨A, h⟩
      | true =>
          obtain ⟨s, p, hmem⟩ := h.settled i x (by simp) hx (hok x hx hactive)
          obtain ⟨y, hy, rfl⟩ := mem_ids.mp hmem
          obtain ⟨q₁, q₂, hq, hrep, hnone, hpayload, -⟩ := h.represents.cancel_resting hy
          refine ⟨_, hrep, fun j z _ hz htype => ?_⟩
          have hj : j ≠ y.id := by
            rintro rfl
            rw [hnone] at hz
            cases hz
          have hold := hpayload j hj
          rw [hz] at hold
          obtain ⟨w, hw, hwz⟩ := Option.map_eq_some_iff.mp hold.symm
          have hwtype : w.type = .limit := (congrArg Order.type hwz).trans htype
          obtain ⟨s', p', hmem'⟩ := h.settled j w (by simp) hw hwtype
          exact ⟨s', p', Queues.mem_takeOut hq hj hmem'⟩

theorem step (h : Lodged b A) {c : Call} (hok : Announced b c) (hstep : CallStep b c b') :
    ∃ A', Lodged b' A' := by
  cases c with
  | add side type price qty exch =>
      obtain ⟨A', hadded⟩ := h.represents.add_step hstep
      exact ⟨A', h.added hadded⟩
  | cancel i =>
      obtain rfl := hstep
      exact h.cancel hok
  | modify i newPrice newQty =>
      rcases modify_step hstep with ⟨-, rfl⟩ | ⟨x, -, hadd⟩
      · exact ⟨A, h⟩
      · obtain ⟨A₁, h₁⟩ := h.cancel hok
        obtain ⟨A₂, hadded⟩ := h₁.represents.add_step hadd
        exact ⟨A₂, h₁.added hadded⟩
  | clear =>
      obtain rfl := hstep
      exact ⟨_, .empty (Sound.clear b).represents fun _ => rfl⟩

/-- The registered LIMIT orders are those that rest. -/
theorem shown_iff (h : Lodged b A) (i : OrderId) (r : Int) :
    b.roster.shown i = some r ↔ ⟨i, r⟩ ∈ b.resting := by
  rw [h.represents.mem_resting]
  constructor
  · intro hshown
    obtain ⟨x, hx, hxr⟩ := Option.bind_eq_some_iff.mp hshown
    obtain ⟨y, hy, rfl⟩ := Option.map_eq_some_iff.mp hx
    split at hxr
    · next htype =>
        obtain rfl := Option.some.inj hxr
        obtain ⟨s, p, hmem⟩ := h.settled i y (by simp) hy htype
        obtain ⟨z, hz, rfl⟩ := mem_ids.mp hmem
        obtain ⟨x', hx', hrests⟩ := h.represents.allRest s p z hz
        obtain rfl := Option.some.inj (hy.symm.trans hx')
        exact ⟨s, p, hrests.remaining ▸ hz⟩
    · cases hxr
  · rintro ⟨s, p, hmem⟩
    obtain ⟨x, hx, hrests⟩ := h.represents.allRest s p _ hmem
    have hentry : b.roster.entry i = some x.unlinked := congrArg (Option.map Order.unlinked) hx
    rw [Roster.shown_some hentry, Order.unlinked_type, if_pos hrests.type]
    exact congrArg some hrests.remaining

theorem mirrored (h : Lodged b A) (hheard : b.roster.Heard) (hknown : Guarded Known b.roster.log) :
    Mirrored b := by
  refine ⟨fun i r => ?_, known_unlinked.mp hknown⟩
  rw [← h.shown_iff, ← hheard i]
  exact Iff.of_eq (congrArg (fun l => l i = some r) (listen_unlinked b.log).symm)

/-- A call that is announced is followed, and one that is not is not. -/
theorem follows {c : Call} (h : Lodged b A) (hlinkage : Linkage b.orderIdSeq b)
    (hcounted : b.roster.Counted) (hheard : b.roster.Heard) (hknown : Guarded Known b.roster.log)
    (hstep : CallStep b c b') :
    (Announced b c → b'.roster.Heard ∧ Guarded Known b'.roster.log) ∧
      (¬ Announced b c → ¬ Mirrored b') := by
  obtain ⟨r, hanswers⟩ := callStep_iff.mp hstep
  obtain ⟨-, hroster⟩ := hanswers.roster hlinkage
  have hcancel : ∀ i, (∀ x, b.roster.entry i = some x → x.isActive = true → x.type = .limit) ↔
      ∀ x, b.lookup i = some x → x.isActive = true → x.type = .limit := fun i => by
    constructor
    · intro hok x hx
      exact hok x.unlinked (congrArg (Option.map Order.unlinked) hx)
    · intro hok x hx
      obtain ⟨y, hy, rfl⟩ := lookup_of_entry hx
      exact hok y hy
  generalize hb' : b'.roster = r' at hroster ⊢
  have hlog : Mirrored b' → Guarded Known r'.log := fun hmirrored =>
    hb' ▸ known_unlinked.mpr hmirrored.known
  cases hroster with
  | add hadds =>
      exact ⟨fun _ => ⟨hheard.adds hcounted hadds, hadds.known.mpr hknown⟩,
        fun hok => absurd trivial hok⟩
  | cancel i =>
      have hiff := hheard.cancel_known hcounted i
      rw [hcancel] at hiff
      exact ⟨fun hok => ⟨hheard.cancel hcounted i, hiff.mpr ⟨hknown, hok⟩⟩,
        fun hok hmirrored => hok (hiff.mp (hlog hmirrored)).2⟩
  | unknown i p q hnone =>
      refine ⟨fun _ => ⟨hheard, hknown⟩, fun hok _ => hok ((hcancel i).mp fun x hx => ?_)⟩
      rw [hnone] at hx
      cases hx
  | @modify i x p q result r' hx hadds =>
      have hiff := hheard.cancel_known hcounted i
      rw [hcancel] at hiff
      exact ⟨fun hok => ⟨(hheard.cancel hcounted i).adds (hcounted.cancel i) hadds,
          hadds.known.mpr (hiff.mpr ⟨hknown, hok⟩)⟩,
        fun hok hmirrored => hok (hiff.mp (hadds.known.mp (hlog hmirrored))).2⟩
  | clear =>
      obtain rfl := hstep
      constructor
      · intro hok
        refine ⟨hheard.clear fun i => ?_, hknown⟩
        cases hshown : b.roster.shown i with
        | none => rfl
        | some r =>
            have hmem := (h.shown_iff i r).mp hshown
            rw [show b.resting = [] from hok] at hmem
            cases hmem
      · intro hok hmirrored
        obtain ⟨y, hy⟩ := List.exists_mem_of_ne_nil _ hok
        have hheld : listen b.log y.id = some y.remaining :=
          ((h.mirrored hheard hknown).holds y.id y.remaining).mpr hy
        have hsame : listen b.clear.log = listen b.log := listen_concat _ _
        have hmem := (hmirrored.holds y.id y.remaining).mp (hsame ▸ hheld)
        cases hmem

end Lodged

/-- As long as every change is announced, the listener holds what rests in the book; the
first call that is not announced breaks this. -/
theorem mirrored_run (h : bookMachine.Reach Announced b) :
    Mirrored b ∧ ∀ c b', CallStep b c b' → (Mirrored b' ↔ Announced b c) := by
  have hfollowed : ∀ {b}, bookMachine.Reach Announced b →
      (∃ A, Lodged b A) ∧ b.roster.Heard ∧ Guarded Known b.roster.log := by
    intro b h
    induction h with
    | init hb =>
        obtain rfl := hb
        exact ⟨⟨_, .empty .init fun _ => rfl⟩, fun _ => rfl, guarded_nil _⟩
    | step hreach hok hstep ih =>
        obtain ⟨⟨A, hlodged⟩, hheard, hknown⟩ := ih
        obtain ⟨hlinkage, hcounted⟩ := reach_counted hreach
        exact ⟨hlodged.step hok hstep,
          (hlodged.follows hlinkage hcounted hheard hknown hstep).1 hok⟩
  obtain ⟨⟨A, hlodged⟩, hheard, hknown⟩ := hfollowed h
  obtain ⟨hlinkage, hcounted⟩ := reach_counted h
  refine ⟨hlodged.mirrored hheard hknown, fun c b' hstep => ⟨fun hmirrored => ?_, fun hok => ?_⟩⟩
  · by_contra hok
    exact (hlodged.follows hlinkage hcounted hheard hknown hstep).2 hok hmirrored
  · obtain ⟨⟨A', hlodged'⟩, hheard', hknown'⟩ := hfollowed (.step h hok hstep)
    exact hlodged'.mirrored hheard' hknown'

/-- The listener follows two bids, and the cancellation of one. -/
theorem mirrored_run_twoBids :
    Mirrored twoBids ∧ ∀ b', CallStep twoBids (.cancel 1) b' → Mirrored b' := by
  have hone : bookMachine.Reach Announced (addedTo {} .buy .limit 100 5) :=
    .step (.init rfl) (i := .add .buy .limit 100 5 .generic) trivial
      ⟨fun _ => 0, { id := 1, accepted := true }, 3, rfl⟩
  have htwo : bookMachine.Reach Announced twoBids :=
    .step hone (i := .add .buy .limit 100 5 .generic) trivial
      ⟨fun _ => 0, { id := 2, accepted := true }, 3, rfl⟩
  obtain ⟨hmirrored, hnext⟩ := mirrored_run htwo
  refine ⟨hmirrored, fun b' hstep => (hnext _ b' hstep).mpr fun x hx _ => ?_⟩
  cases hx
  rfl

/-- The cancellation of a POST_ONLY order is told to a listener that was never told of the
order. -/
theorem stray_cancellation_told : ∃ b, bookMachine.Reach Machine.Any b ∧ ¬ Mirrored b := by
  have hone : bookMachine.Reach Machine.Any (addedTo {} .buy .postOnly 100 3) :=
    .step (.init rfl) (i := .add .buy .postOnly 100 3 .generic) trivial
      ⟨fun _ => 0, { id := 1, accepted := true }, 3, rfl⟩
  refine ⟨_, .step hone (i := .cancel 1) trivial rfl, fun hmirrored => ?_⟩
  have hheld := hmirrored.known [] (.onOrderCancelled
    { id := 1, price := 100, qty := 3, remaining := 3, type := .postOnly, status := .cancelled })
    [.onBboUpdate {}] rfl
  cases hheld

end NanoVault.Book
