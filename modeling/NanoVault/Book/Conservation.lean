/-
The account of what has been traded.

A `Session` is a book with what its callers know: the fills they were handed and the
quantities they asked for. `Accounts` is the balance of a roster and such a record; a fill
keeps it (`Accounts.fill`), and so does every call that hides no fill and does not take
the traded volume beyond 64 bits (`conserved_run`).
-/
import NanoVault.Book.Volume
import NanoVault.Book.Listener

namespace NanoVault.Book

open Lib OrderBook

/-- What has been traded of the order under `i`, as maker or as taker. -/
def filledOf (i : OrderId) (ts : List Trade) : Int :=
  traded (ts.filter fun u => u.makerId = i ∨ u.takerId = i)

/-- A book, the fills its callers have been handed, and the quantity each accepted order
was submitted with. -/
structure Session where
  book : OrderBook := {}
  fills : List Trade := []
  submitted : OrderId → Option Int := fun _ => none

def Call.qty : Call → Int
  | .add _ _ _ qty _ => qty.toInt
  | .modify _ _ newQty => newQty.toInt
  | _ => 0

/-- The session after a call that has left `b'` and answered `r`. -/
def Session.after (s : Session) (c : Call) (b' : OrderBook) (r : AddResult) : Session where
  book := b'
  fills := s.fills ++ r.fills
  submitted := if r.accepted then Function.update s.submitted r.id (some c.qty) else s.submitted

/-- Calls of `add_order`, `cancel_order` and `modify_order` on a book that starts empty. -/
def sessionMachine : Machine Session Call where
  init s := s = {}
  step s c s' := c ≠ .clear ∧ ∃ b' r, Answers s.book c b' r ∧ s' = s.after c b' r

/-- The fills handed out are those of the statistics, and make up what each resting or
filled order has been charged. -/
structure Conserved (s : Session) : Prop where
  volume : traded s.fills = s.book.stats.totalVolume.toNat
  trades : s.fills.length = s.book.stats.tradesExecuted
  resting : ∀ i ∈ ids s.book.resting,
    s.submitted i = some (s.book.remainingOf i + filledOf i s.fills)
  filled : ∀ o, .onOrderFilled o ∈ s.book.log → s.submitted o.id = some (filledOf o.id s.fills)

/-- A POST_ONLY order has nothing to trade with, and the traded volume fits its counter. -/
def Reported (b : OrderBook) (side : Side) (type : OrderType) (price : Price) (qty : Int) : Prop :=
  (type = .postOnly → b.tradable side type price qty = 0) ∧
    b.stats.totalVolume.toNat + b.tradable side type price qty < UInt64.size

/-- The calls whose fills are all reported. A modification adds its order to the book
without the old one. -/
def AllReported (s : Session) : Call → Prop
  | .add side type price qty _ => Reported s.book side type price qty.toInt
  | .modify i newPrice newQty => ∀ x, s.book.lookup i = some x →
      Reported (s.book.cancelOrder i).1 x.side x.type newPrice newQty.toInt
  | _ => True

/-! ### The balance of a roster -/

@[simp] theorem filledOf_nil (i : OrderId) : filledOf i [] = 0 := rfl

/-- What is filled after one trade more. -/
theorem filledOf_concat (i : OrderId) (ts : List Trade) (u : Trade) :
    filledOf i (ts ++ [u]) =
      filledOf i ts + if u.makerId = i ∨ u.takerId = i then u.qty else 0 := by
  rw [filledOf, List.filter_append, traded_append]
  refine congrArg (filledOf i ts + ·) ?_
  by_cases hi : u.makerId = i ∨ u.takerId = i
  · rw [List.filter_cons_of_pos (by simpa using hi), if_pos hi]
    exact Int.add_zero _
  · rw [List.filter_cons_of_neg (by simpa using hi), if_neg hi]
    rfl

/-- An order without trades is not filled. -/
theorem filledOf_fresh {i : OrderId} {ts : List Trade}
    (h : ∀ u ∈ ts, u.makerId ≠ i ∧ u.takerId ≠ i) : filledOf i ts = 0 := by
  have hnone : ts.filter (fun u => u.makerId = i ∨ u.takerId = i) = [] :=
    List.filter_eq_nil_iff.mpr fun u hu => by simpa using h u hu
  rw [filledOf, hnone]
  rfl

/-- The fills `fs` and the submitted quantities balance the roster. -/
structure Accounts (r : Roster) (fs : List Trade) (sub : OrderId → Option Int) : Prop where
  registered : ∀ i x, r.entry i = some x →
    x.id = i ∧ i ≤ r.orderIdSeq ∧ sub i = some (x.remaining + filledOf i fs)
  filled : ∀ o, .onOrderFilled o ∈ r.log →
    r.entry o.id = none ∧ o.id ≤ r.orderIdSeq ∧ sub o.id = some (filledOf o.id fs)
  volume : traded fs = r.totalVolume.toNat
  trades : fs.length = r.tradesExecuted
  parties : ∀ u ∈ fs, u.makerId ≤ r.orderIdSeq ∧ u.takerId ≤ r.orderIdSeq

/-- Every registered order but `t` has something left. -/
def OpenBut (r : Roster) (t : OrderId) : Prop :=
  ∀ i x, i ≠ t → r.entry i = some x → 0 < x.remaining

/-- Every registered order has something left. -/
def Open (r : Roster) : Prop := ∀ i x, r.entry i = some x → 0 < x.remaining

section Balance

variable {r r' : Roster} {fs ts : List Trade} {sub : OrderId → Option Int} {t i : OrderId}
  {x : Order} {q : Int}

/-- A fill within the maker leaves no order filled but the taker. -/
theorem OpenBut.fill {mk tk : Order} (h : OpenBut r tk.id) (hne : mk.id ≠ tk.id) (hq : q ≤ mk.remaining) :
    OpenBut (r.fill mk tk q) tk.id := by
  intro j y hjt hj
  by_cases hjm : j = mk.id
  · rw [hjm, r.fill_entry_maker _ hne] at hj
    split at hj
    · cases hj
    · next hneq =>
        obtain rfl := Option.some.inj hj
        exact Int.sub_pos_of_lt (lt_of_le_of_ne hq (Ne.symm hneq))
  · rw [r.fill_entry_ne _ hjm hjt] at hj
    exact h j y hjt hj

/-- So do all fills of one taker, and each is of something. -/
theorem OpenBut.fills (h : OpenBut r t) (hfills : Roster.Fills t r ts r') :
    OpenBut r' t ∧ ∀ u ∈ ts, 0 < u.qty := by
  induction hfills with
  | nil => exact ⟨h, fun _ hu => (by cases hu)⟩
  | cons hm _ hid hne hpos _ ih =>
      subst hid
      obtain ⟨hopen, hqty⟩ := ih (h.fill hne (min_le_right ..))
      refine ⟨hopen, List.forall_mem_cons.mpr ⟨lt_min hpos (h _ _ hne hm), hqty⟩⟩

/-- The counter counts on while there is room. -/
theorem toNat_add_ofInt {v : UInt64} (hq : 0 ≤ q) (hroom : v.toNat + q < UInt64.size) :
    (v + UInt64.ofInt q).toNat = v.toNat + q := by
  obtain ⟨k, rfl⟩ := Int.eq_ofNat_of_zero_le hq
  have hsize : UInt64.size = 18446744073709551616 := rfl
  have hof : UInt64.ofInt (k : Int) = UInt64.ofNat k := by
    rw [UInt64.ofInt]
    exact congrArg UInt64.ofNat (by omega)
  rw [hof, UInt64.toNat_add, UInt64.toNat_ofNat']
  omega

/-- One fill charges maker and taker with what it adds to the fills of both. -/
theorem Accounts.fill {mk tk : Order} (h : Accounts r fs sub) (hm : r.entry mk.id = some mk)
    (ht : r.entry tk.id = some tk) (hne : mk.id ≠ tk.id) (hq : 0 ≤ q)
    (hroom : traded fs + q < UInt64.size) :
    Accounts (r.fill mk tk q) (fs ++ [r.trade mk tk q]) sub := by
  have hfilled : ∀ j, filledOf j (fs ++ [r.trade mk tk q]) =
      filledOf j fs + if mk.id = j ∨ tk.id = j then q else 0 := fun j => filledOf_concat ..
  obtain ⟨-, hmseq, hmsub⟩ := h.registered _ _ hm
  obtain ⟨-, htseq, htsub⟩ := h.registered _ _ ht
  have hlog : (r.fill mk tk q).log = r.log ++ (if mk.remaining = q then
      [.onOrderFilled (mk.afterFill q)] else []) ++ [.onTrade (r.trade mk tk q)] := rfl
  -- A fill charges its two orders and no other.
  have hrest : ∀ j, j ≠ mk.id → j ≠ tk.id → filledOf j (fs ++ [r.trade mk tk q]) = filledOf j fs :=
    fun j hjm hjt => by
      rw [hfilled, if_neg (not_or.mpr ⟨Ne.symm hjm, Ne.symm hjt⟩), Int.add_zero]
  refine ⟨fun j y hj => ?_, fun o ho => ?_, ?_, ?_, fun u hu => ?_⟩
  · by_cases hjt : j = tk.id
    · subst hjt
      rw [r.fill_entry_taker] at hj
      obtain rfl := Option.some.inj hj
      refine ⟨rfl, htseq, htsub.trans (congrArg some ?_)⟩
      rw [hfilled, if_pos (.inr rfl)]
      show _ = tk.remaining - q + _
      omega
    · by_cases hjm : j = mk.id
      · subst hjm
        rw [r.fill_entry_maker _ hne] at hj
        split at hj
        · cases hj
        · obtain rfl := Option.some.inj hj
          refine ⟨rfl, hmseq, hmsub.trans (congrArg some ?_)⟩
          rw [hfilled, if_pos (.inl rfl)]
          show _ = mk.remaining - q + _
          omega
      · rw [r.fill_entry_ne _ hjm hjt] at hj
        rw [hrest j hjm hjt]
        exact h.registered j y hj
  · rw [hlog, List.mem_append, List.mem_append, List.mem_singleton] at ho
    rcases ho with (ho | ho) | ho
    · obtain ⟨hnone, hseq, hsub⟩ := h.filled o ho
      have hom : o.id ≠ mk.id := fun heq => by
        rw [heq, hm] at hnone
        cases hnone
      have hot : o.id ≠ tk.id := fun heq => by
        rw [heq, ht] at hnone
        cases hnone
      rw [r.fill_entry_ne _ hom hot, hrest _ hom hot]
      exact ⟨hnone, hseq, hsub⟩
    · split at ho
      · next hwhole =>
          obtain rfl := Event.onOrderFilled.inj (List.mem_singleton.mp ho)
          have hentry := r.fill_entry_maker q hne
          rw [if_pos hwhole] at hentry
          refine ⟨hentry, hmseq, hmsub.trans (congrArg some ?_)⟩
          show _ = filledOf mk.id _
          rw [hfilled, if_pos (.inl rfl), hwhole, Int.add_comm]
      · cases ho
    · cases ho
  · rw [traded_append, traded_cons, traded_nil, Int.add_zero, h.volume]
    rw [h.volume] at hroom
    exact (toNat_add_ofInt hq hroom).symm
  · rw [List.length_append, h.trades]
    rfl
  · rcases List.mem_append.mp hu with hu | hu
    · exact h.parties u hu
    · obtain rfl := List.mem_singleton.mp hu
      exact ⟨hmseq, htseq⟩

/-- Fills are accounted for. -/
theorem Accounts.fills (h : Accounts r fs sub) (hopen : OpenBut r t)
    (hfills : Roster.Fills t r ts r') (hroom : traded fs + traded ts < UInt64.size) :
    Accounts r' (fs ++ ts) sub := by
  induction hfills generalizing fs with
  | nil => rwa [List.append_nil]
  | @cons r _ mk tk ts hm ht hid hne hpos hrest ih =>
      subst hid
      have hopen' := hopen.fill hne (min_le_right tk.remaining mk.remaining)
      have hqty : 0 ≤ min tk.remaining mk.remaining :=
        Int.le_of_lt (lt_min hpos (hopen _ _ hne hm))
      have hlater : 0 ≤ traded ts := List.sum_nonneg fun v hv => by
        obtain ⟨u, hu, rfl⟩ := List.mem_map.mp hv
        exact Int.le_of_lt ((hopen'.fills hrest).2 u hu)
      rw [traded_cons] at hroom
      have hroom : traded fs + (min tk.remaining mk.remaining + traded ts) < UInt64.size := hroom
      have hfill := h.fill hm ht hne hqty (by omega)
      rw [List.append_cons]
      refine ih hfill hopen' ?_
      rw [traded_append, traded_cons, traded_nil, Int.add_zero, Int.add_assoc]
      exact hroom

/-- The order entered has been submitted with its quantity, and nothing of it is traded. -/
theorem Accounts.enter (h : Accounts r fs sub) (hx : x.id = r.orderIdSeq + 1) :
    Accounts (r.enter x) fs (Function.update sub x.id (some x.remaining)) := by
  have hold : ∀ {j}, j ≤ r.orderIdSeq → j ≠ x.id := fun hj heq =>
    absurd (heq ▸ hj) (by rw [hx]; exact Nat.not_succ_le_self _)
  refine ⟨fun j y hj => ?_, fun o ho => ?_, h.volume, h.trades, fun u hu => ?_⟩
  · have hj : Function.update r.entry x.id (some x) j = some y := hj
    rw [Function.update_apply] at hj ⊢
    split at hj
    · next hjx =>
        obtain rfl := Option.some.inj hj
        rw [if_pos hjx, hjx, filledOf_fresh fun u hu =>
          ⟨hold (h.parties u hu).1, hold (h.parties u hu).2⟩, Int.add_zero]
        exact ⟨rfl, Nat.le_of_eq hx, rfl⟩
    · next hjx =>
        obtain ⟨hid, hseq, hsub⟩ := h.registered j y hj
        rw [if_neg hjx]
        exact ⟨hid, Nat.le_succ_of_le hseq, hsub⟩
  · obtain ⟨hnone, hseq, hsub⟩ := h.filled o ho
    refine ⟨?_, Nat.le_succ_of_le hseq, ?_⟩
    · exact (Function.update_of_ne (hold hseq) _ _).trans hnone
    · rw [Function.update_of_ne (hold hseq)]
      exact hsub
  · exact ⟨Nat.le_succ_of_le (h.parties u hu).1, Nat.le_succ_of_le (h.parties u hu).2⟩

/-- Orders may be unregistered, and told of, as long as a filled one has nothing left. -/
theorem Accounts.retire (h : Accounts r fs sub) (i : OrderId) :
    Accounts (r.retire i) fs sub := by
  have hentry : ∀ j y, (r.retire i).entry j = some y → r.entry j = some y := fun j y hj => by
    have hj : Function.update r.entry i none j = some y := hj
    rw [Function.update_apply] at hj
    split at hj
    · cases hj
    · exact hj
  refine ⟨fun j y hj => h.registered j y (hentry j y hj), fun o ho => ?_, h.volume, h.trades,
    h.parties⟩
  obtain ⟨hnone, hrest⟩ := h.filled o ho
  refine ⟨?_, hrest⟩
  cases hj : (r.retire i).entry o.id with
  | none => rfl
  | some y =>
      rw [hentry _ _ hj] at hnone
      cases hnone

/-- What is told to the listener is accounted for. -/
theorem Accounts.tell (h : Accounts r fs sub) {e : Event}
    (he : ∀ o, e = .onOrderFilled o →
      r.entry o.id = none ∧ o.id ≤ r.orderIdSeq ∧ sub o.id = some (filledOf o.id fs)) :
    Accounts (r.tell e) fs sub := by
  refine ⟨h.registered, fun o ho => ?_, h.volume, h.trades, h.parties⟩
  rcases List.mem_append.mp ho with ho | ho
  · exact h.filled o ho
  · exact he o (List.mem_singleton.mp ho).symm

/-- The end of a call that hides no fill. -/
theorem OpenBut.retire (h : OpenBut r i) : Open (r.retire i) := by
  intro j y hj
  have hj : Function.update r.entry i none j = some y := hj
  rw [Function.update_apply] at hj
  split at hj
  · cases hj
  · next hji => exact h j y hji hj

/-- The order entered leaves the book or has something left, unless it is taken back. -/
theorem OpenBut.conclude (h : OpenBut r x.id) (type : OrderType) (result : AddResult)
    (hx : r.entry x.id = some x) (hrem : 0 ≤ x.remaining)
    (htold : ¬ (type = .postOnly ∧ result.fills ≠ [])) : Open (r.conclude x type result).1 := by
  have hleft : x.remaining ≠ 0 → Open r := fun hne j y hj => by
    by_cases hjx : j = x.id
    · subst hjx
      obtain rfl := Option.some.inj (hj.symm.trans hx)
      omega
    · exact h j y hjx hj
  unfold Roster.conclude
  rw [if_neg htold]
  split_ifs with hzero hioc hlimit
  · exact h.retire
  · exact h.retire
  · exact hleft hzero
  · exact hleft hzero

/-- A cancel leaves every order open. -/
theorem Open.cancel (h : Open r) (i : OrderId) : Open (r.cancel i) := by
  unfold Roster.cancel
  split
  · exact h
  · split
    · exact OpenBut.retire fun j y _ hj => h j y hj
    · exact h

/-- Where nothing is traded there are no fills. -/
theorem eq_nil_of_traded (hpositive : ∀ u ∈ ts, 0 < u.qty) (h : traded ts ≤ 0) : ts = [] := by
  by_contra hne
  obtain ⟨u, us, rfl⟩ := List.exists_cons_of_ne_nil hne
  have hu := hpositive u List.mem_cons_self
  have hus : 0 ≤ traded us := List.sum_nonneg fun v hv => by
    obtain ⟨w, hw, rfl⟩ := List.mem_map.mp hv
    exact Int.le_of_lt (hpositive w (List.mem_cons_of_mem _ hw))
  rw [traded_cons] at h
  omega

/-- The conclusion of an add is accounted for, if it is told. -/
theorem Accounts.conclude (h : Accounts r fs sub) (type : OrderType) (result : AddResult)
    (hx : r.entry x.id = some x) (htold : ¬ (type = .postOnly ∧ result.fills ≠ [])) :
    Accounts (r.conclude x type result).1 fs sub ∧ (r.conclude x type result).2 = result := by
  obtain ⟨-, hseq, hsub⟩ := h.registered _ _ hx
  unfold Roster.conclude
  rw [if_neg htold]
  split_ifs with hzero hioc hlimit
  · refine ⟨(h.retire x.id).tell fun o ho => ?_, rfl⟩
    obtain rfl := Event.onOrderFilled.inj ho
    refine ⟨Function.update_self .., hseq, ?_⟩
    show sub x.id = some (filledOf x.id fs)
    rw [hsub, hzero, Int.zero_add]
  · exact ⟨h.retire x.id, rfl⟩
  · exact ⟨h.tell fun o ho => (by cases ho), rfl⟩
  · exact ⟨h, rfl⟩

/-- A cancel is accounted for. -/
theorem Accounts.cancel (h : Accounts r fs sub) (i : OrderId) : Accounts (r.cancel i) fs sub := by
  unfold Roster.cancel
  split
  · exact h
  · split
    · exact (h.retire i).tell fun o ho => (by cases ho)
    · exact h

end Balance

/-! ### Sessions -/

variable {b b' : OrderBook} {fs : List Trade} {sub : OrderId → Option Int}

/-- What is known of an order that has been matched with a book in which every order has
something left, if it is POST_ONLY only with nothing to trade with. -/
theorem Open.matched {side : Side} {type : OrderType} {price : Price} {qty : Int}
    {exch : Exchange} {ts : List Trade} {r₂ : Roster} {x : Order} (hopen : Open b.roster)
    (hqty : 0 < qty) (hpost : type = .postOnly → b.tradable side type price qty = 0)
    (hfills : Roster.Fills (b.orderIdSeq + 1)
      (b.roster.enter (b.roster.newOrder side type price qty exch)) ts r₂)
    (hx : r₂.entry (b.orderIdSeq + 1) = some x)
    (hbound : traded ts ≤ b.tradable side type price qty) :
    OpenBut (b.roster.enter (b.roster.newOrder side type price qty exch)) (b.orderIdSeq + 1) ∧
      OpenBut r₂ x.id ∧ x.id = b.orderIdSeq + 1 ∧ 0 ≤ x.remaining ∧
      ¬ (type = .postOnly ∧ ts ≠ []) := by
  have hcharged : Charged b.roster := fun i x hx => Int.le_of_lt (hopen i x hx)
  have hbut : OpenBut (b.roster.enter (b.roster.newOrder side type price qty exch))
      (b.orderIdSeq + 1) := fun j y hj hy =>
    hopen j y ((Function.update_of_ne hj _ _).symm.trans hy)
  obtain ⟨hopen₂, hpositive⟩ := hbut.fills hfills
  obtain ⟨y, hy, hid, -, -, -, -⟩ := hfills.charges (Function.update_self ..) rfl
  obtain rfl := Option.some.inj (hx.symm.trans hy)
  have hleft : 0 ≤ x.remaining :=
    (Charged.enter (x := b.roster.newOrder side type price qty exch) hcharged
      (Int.le_of_lt hqty)).fills hfills _ x hx
  exact ⟨hbut, hid.symm ▸ hopen₂, hid, hleft,
    fun ⟨htype, hne⟩ => hne (eq_nil_of_traded hpositive (hpost htype ▸ hbound))⟩

/-- An order added leaves every order with something left. -/
theorem Open.add {freed : TradeId → Price} {fuel : Nat} {side : Side} {type : OrderType}
    {price : Price} {qty : Int} {exch : Exchange} {r : AddResult} (hopen : Open b.roster)
    (hlinkage : Linkage b.orderIdSeq b)
    (hpost : type = .postOnly → b.tradable side type price qty = 0)
    (hadd : b.addOrder freed fuel side type price qty exch = some (b', r)) : Open b'.roster := by
  have hcharged : Charged b.roster := fun i x hx => Int.le_of_lt (hopen i x hx)
  rcases addOrder_volume hlinkage hcharged hadd with
    ⟨-, hroster | hroster⟩ | ⟨ts, r₂, x, hqty, hfills, hx, hbound, hroster, -⟩
  · rw [hroster]
    exact hopen
  · rw [hroster]
    exact hopen
  · obtain ⟨-, hopen₂, hid, hleft, htold⟩ := hopen.matched hqty hpost hfills hx hbound
    rw [hroster]
    exact hopen₂.conclude type _ (hid ▸ hx) hleft htold

/-- An order added to a balanced book is balanced, if all its fills are reported. -/
theorem Accounts.add {freed : TradeId → Price} {fuel : Nat} {side : Side} {type : OrderType}
    {price : Price} {qty : Int} {exch : Exchange} {r : AddResult} (h : Accounts b.roster fs sub)
    (hopen : Open b.roster) (hlinkage : Linkage b.orderIdSeq b)
    (hreported : Reported b side type price qty)
    (hadd : b.addOrder freed fuel side type price qty exch = some (b', r)) :
    Accounts b'.roster (fs ++ r.fills)
      (if r.accepted then Function.update sub r.id (some qty) else sub) := by
  have hcharged : Charged b.roster := fun i x hx => Int.le_of_lt (hopen i x hx)
  rcases addOrder_volume hlinkage hcharged hadd with
    ⟨rfl, hroster⟩ | ⟨ts, r₂, x, hqty, hfills, hx, hbound, hroster, hr⟩
  · rw [List.append_nil]
    rcases hroster with hroster | hroster
    · rw [hroster]
      exact h
    · rw [hroster]
      exact ⟨fun i x hx => (h.registered i x hx).imp_right fun hr => ⟨Nat.le_succ_of_le hr.1, hr.2⟩,
        fun o ho => (h.filled o ho).imp_right fun hr => ⟨Nat.le_succ_of_le hr.1, hr.2⟩, h.volume,
        h.trades, fun u hu => ⟨Nat.le_succ_of_le (h.parties u hu).1,
          Nat.le_succ_of_le (h.parties u hu).2⟩⟩
  · obtain ⟨hpost, hroom⟩ := hreported
    obtain ⟨hbut, -, hid, -, htold⟩ := hopen.matched hqty hpost hfills hx hbound
    have hentered := h.enter (x := b.roster.newOrder side type price qty exch) rfl
    have hafter := hentered.fills hbut hfills (by
      have hvolume : traded fs = b.stats.totalVolume.toNat := h.volume
      omega)
    obtain ⟨haccounts, hresult⟩ := hafter.conclude type
      { id := b.orderIdSeq + 1, accepted := true, fills := ts } (hid ▸ hx) htold
    rw [hroster, hr, hresult]
    exact haccounts

/-- The session's record balances its book. -/
structure Balanced (s : Session) : Prop where
  linkage : Linkage s.book.orderIdSeq s.book
  accounts : Accounts s.book.roster s.fills s.submitted
  isOpen : Open s.book.roster

theorem Balanced.init : Balanced {} :=
  ⟨.init, ⟨fun _ _ hx => (by cases hx), fun _ ho => (by cases ho), rfl, rfl,
    fun _ hu => (by cases hu)⟩, fun _ _ hx => (by cases hx)⟩

/-- A call that is reported keeps the session balanced. -/
theorem Balanced.step {s s' : Session} {c : Call} (h : Balanced s) (hok : AllReported s c)
    (hstep : sessionMachine.step s c s') : Balanced s' := by
  obtain ⟨hclear, b', r, hanswers, rfl⟩ := hstep
  suffices hkept : Accounts b'.roster (s.fills ++ r.fills)
      (if r.accepted then Function.update s.submitted r.id (some c.qty) else s.submitted) ∧
        Open b'.roster from
    ⟨(hanswers.roster h.linkage).1, hkept.1, hkept.2⟩
  cases c with
  | add side type price qty exch =>
      obtain ⟨freed, fuel, hadd⟩ := hanswers
      exact ⟨h.accounts.add h.isOpen h.linkage hok hadd, h.isOpen.add h.linkage hok.1 hadd⟩
  | cancel i =>
      obtain ⟨rfl, rfl⟩ := hanswers
      rw [(cancelOrder_roster h.linkage i).2, List.append_nil]
      exact ⟨h.accounts.cancel i, h.isOpen.cancel i⟩
  | modify i newPrice newQty =>
      obtain ⟨freed, m, ⟨fuel, hmodify⟩, rfl⟩ := hanswers
      simp only [modifyOrder] at hmodify
      split at hmodify
      · obtain ⟨rfl, rfl⟩ := Prod.mk.inj (Option.some.inj hmodify)
        rw [List.append_nil]
        exact ⟨h.accounts, h.isOpen⟩
      · next o hi =>
          obtain ⟨⟨b₂, r⟩, hadd, heq⟩ := Option.map_eq_some_iff.mp hmodify
          obtain ⟨rfl, rfl⟩ := Prod.mk.inj heq
          obtain ⟨hlinkage, hcancel⟩ := cancelOrder_roster h.linkage i
          have hseq : (s.book.cancelOrder i).1.orderIdSeq = s.book.orderIdSeq :=
            (congrArg Roster.orderIdSeq hcancel).trans (Roster.cancel_orderIdSeq _ _)
          rw [← hseq] at hlinkage
          have haccounts := h.accounts.cancel i
          have hopen := h.isOpen.cancel i
          rw [← hcancel] at haccounts hopen
          have hreported := hok _ (lookup_of_orderMap hi)
          exact ⟨haccounts.add hopen hlinkage hreported hadd,
            hopen.add hlinkage hreported.1 hadd⟩
  | clear => exact absurd rfl hclear

/-- A balanced session conserves quantities. -/
theorem Balanced.conserved {s : Session} (h : Balanced s) : Conserved s := by
  refine ⟨h.accounts.volume, h.accounts.trades, fun i hi => ?_, fun o ho => ?_⟩
  · obtain ⟨x, hx⟩ := lookup_of_mem_resting hi
    have hrem : s.book.remainingOf i = x.remaining := by rw [OrderBook.remainingOf, hx]; rfl
    obtain ⟨-, -, hsub⟩ := h.accounts.registered i x.unlinked
      (congrArg (Option.map Order.unlinked) hx)
    rw [hsub, hrem, Order.unlinked_remaining]
  · have ho : .onOrderFilled o.unlinked ∈ s.book.roster.log :=
      List.mem_filterMap.mpr ⟨_, ho, rfl⟩
    exact (h.accounts.filled _ ho).2.2

/-- As long as every fill is reported, the fills handed out account for the statistics and
for every order that rests or has been filled. -/
theorem conserved_run {s : Session} (h : sessionMachine.Reach AllReported s) : Conserved s :=
  (h.invariant (I := Balanced)
    (fun s hs => by
      obtain rfl := hs
      exact .init)
    fun _ _ _ hbalanced hok hstep => hbalanced.step hok hstep).conserved

/-- An offer of five at 100. -/
def offered : Session :=
  ({} : Session).after (.add .sell .limit 100 5 .generic) (addedTo {} .sell .limit 100 5)
    { id := 1, accepted := true }

theorem offered_step : sessionMachine.step {} (.add .sell .limit 100 5 .generic) offered :=
  ⟨Call.noConfusion, _, _, ⟨fun _ => 0, 3, rfl⟩, rfl⟩

/-- Three of it are bought, and accounted for. -/
theorem conserved_run_offered :
    ∃ s, sessionMachine.step offered (.add .buy .limit 100 3 .generic) s ∧ Conserved s := by
  have hfirst : AllReported {} (.add .sell .limit 100 5 .generic) := by
    have hnone : ({} : OrderBook).tradable .sell .limit 100 (5 : Int64).toInt = 0 := rfl
    refine ⟨fun htype => (by cases htype), ?_⟩
    rw [hnone]
    decide
  have hsecond : AllReported offered (.add .buy .limit 100 3 .generic) := by
    have hthree : offered.book.tradable .buy .limit 100 (3 : Int64).toInt = 3 := rfl
    refine ⟨fun htype => (by cases htype), ?_⟩
    rw [hthree]
    decide
  have hanswers : Answers offered.book (.add .buy .limit 100 3 .generic)
      (addedTo offered.book .buy .limit 100 3) { id := 2, accepted := true, fills :=
        [{ id := 1, makerId := 1, takerId := 2, price := 100, qty := 3, aggressor := .buy }] } :=
    ⟨fun _ => 0, 3, rfl⟩
  have hstep : sessionMachine.step offered (.add .buy .limit 100 3 .generic) _ :=
    ⟨Call.noConfusion, _, _, hanswers, rfl⟩
  exact ⟨_, hstep, conserved_run (.step (.step (.init rfl) hfirst offered_step) hsecond hstep)⟩

/-- A POST_ONLY order that crosses trades three of the offer, and its caller is told of no
fill. -/
theorem hidden_fill : ∃ s, sessionMachine.Reach Machine.Any s ∧ ¬ Conserved s := by
  have hanswers : Answers offered.book (.add .buy .postOnly 100 3 .generic)
      (addedTo offered.book .buy .postOnly 100 3) { id := 2 } := ⟨fun _ => 0, 3, rfl⟩
  refine ⟨_, .step (.step (.init rfl) trivial offered_step) trivial
    ⟨Call.noConfusion, _, _, hanswers, rfl⟩, fun hconserved => ?_⟩
  have htrades := hconserved.trades
  cases htrades

end NanoVault.Book
