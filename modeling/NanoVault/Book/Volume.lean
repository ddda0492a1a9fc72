/-
How much an order can trade, whatever the levels look like.

`inReach` counts what is found from the heads of the levels within reach. In every book
with its links in order (`Linkage`) a fill takes from it what it trades, so that no call of
`add_order` trades more than that, or more than its own quantity (`addOrder_volume`).
-/
import NanoVault.Book.Simulation
import NanoVault.Book.Residents

namespace NanoVault.Book

open Lib OrderBook

variable {b b' : OrderBook} {n i j t cur : OrderId} {o maker taker : Slot} {s s' : Side}
  {p p' limit : Price} {fill : Int}

/-! ### Walks -/

/-- The quantity left of the orders from `i` on. -/
def OrderBook.volumeFrom (b : OrderBook) (fuel : Nat) (i : OrderId) : Int :=
  volume ((b.walk fuel i).map b.restingAt)

theorem volumeFrom_none (h : b.lookup i = none) (fuel : Nat) : b.volumeFrom fuel i = 0 := by
  rw [volumeFrom, walk_none h]
  rfl

theorem volumeFrom_some {x : Order} (h : b.lookup i = some x) (fuel : Nat) :
    b.volumeFrom (fuel + 1) i = x.remaining + b.volumeFrom fuel x.next := by
  have hrem : b.remainingOf i = x.remaining := by rw [OrderBook.remainingOf, h]; rfl
  rw [volumeFrom, walk_some h, List.map_cons, volume_cons, restingAt, hrem]
  rfl

/-- The volume of a queue is counted from the head of its level. -/
theorem volume_queue {lvl : PriceLevel} (h : (b.ladder s).find? p = some lvl) :
    volume (b.queue s p) = b.volumeFrom b.orderIdSeq lvl.head := by
  rw [queue_some h]
  rfl

/-- No volume is negative where no order is overfilled. -/
theorem volumeFrom_nonneg (hpos : ∀ {j x}, b.lookup j = some x → 0 ≤ x.remaining) (fuel : Nat)
    (i : OrderId) : 0 ≤ b.volumeFrom fuel i := by
  induction fuel generalizing i with
  | zero => exact Int.le_refl 0
  | succ fuel ih =>
      cases hx : b.lookup i with
      | none => exact Int.le_of_eq (volumeFrom_none hx _).symm
      | some x =>
          rw [volumeFrom_some hx]
          exact Int.add_nonneg (hpos hx) (ih _)

/-- A walk that stays below the ids given out does not run out of fuel. -/
theorem Linkage.walk_stable (h : Linkage n b) {fuel : Nat} (hfuel : b.orderIdSeq < i + fuel) :
    b.walk (fuel + 1) i = b.walk fuel i := by
  induction fuel generalizing i with
  | zero =>
      rw [walk_none]
      · rfl
      · cases hx : b.lookup i with
        | none => rfl
        | some x => exact absurd (h.registry.named hx).2.2 (Nat.not_le.mpr hfuel)
  | succ fuel ih =>
      cases hx : b.lookup i with
      | none => rw [walk_none hx, walk_none hx]
      | some x =>
          rw [walk_some hx, walk_some hx]
          rcases h.next hx with hzero | ⟨hlt, -⟩
          · rw [hzero, walk_none (lookup_zero h.registry), walk_none (lookup_zero h.registry)]
          · rw [ih]
            refine Nat.lt_of_lt_of_le hfuel ?_
            rw [← Nat.succ_add_eq_add_succ]
            exact Nat.add_le_add_right hlt fuel

/-- The orders of a walk stand at the place of the first one. -/
theorem Linkage.walk_place (h : Linkage n b)
    (hplace : ∀ x, b.lookup i = some x → x.side = s ∧ x.price = p) {fuel : Nat}
    (hj : j ∈ b.walk fuel i) : ∃ x, b.lookup j = some x ∧ x.side = s ∧ x.price = p := by
  induction fuel generalizing i with
  | zero => cases hj
  | succ fuel ih =>
      cases hx : b.lookup i with
      | none =>
          rw [walk_none hx] at hj
          cases hj
      | some x =>
          rw [walk_some hx] at hj
          rcases List.mem_cons.mp hj with rfl | hj
          · exact ⟨x, hx, hplace x hx⟩
          · refine ih (fun y hy => ?_) hj
            obtain ⟨-, hside, hprice⟩ := h.follow hx hy
            obtain ⟨hs, hp⟩ := hplace x hx
            exact ⟨hside.trans hs, hprice.trans hp⟩

/-- Walks read the links and quantities of the orders they meet, and nothing else. -/
theorem volumeFrom_congr (hnone : ∀ j, b.lookup j = none → b'.lookup j = none) {fuel : Nat}
    (hsame : ∀ j ∈ b.walk fuel i, ∀ x, b.lookup j = some x →
      ∃ y, b'.lookup j = some y ∧ y.next = x.next ∧ y.remaining = x.remaining) :
    b'.volumeFrom fuel i = b.volumeFrom fuel i := by
  induction fuel generalizing i with
  | zero => rfl
  | succ fuel ih =>
      cases hx : b.lookup i with
      | none => rw [volumeFrom_none hx, volumeFrom_none (hnone i hx)]
      | some x =>
          rw [walk_some hx] at hsame
          obtain ⟨y, hy, hnext, hrem⟩ := hsame i List.mem_cons_self x hx
          rw [volumeFrom_some hx, volumeFrom_some hy, hnext, hrem,
            ih fun j hj => hsame j (List.mem_cons_of_mem _ hj)]

/-! ### One fill -/

/-- Taking the first order off its level changes the successor of none. -/
theorem reduceLevel_next (h : Linkage n b) (hi : b.orderMap i = some o)
    (hprev : ∀ lvl, (b.ladder s).find? (b.order o).price = some lvl → (b.order o).prev = 0)
    (amount : Int) (leaves : Bool) (j : OrderId) :
    ((b.reduceLevel s o amount leaves).lookup j).map Order.next = (b.lookup j).map Order.next := by
  have hnext : (b.order o).prev = 0 → ∀ lvl,
      ((b.levelRemoveOrderLinks lvl o).1.lookup j).map Order.next =
        (b.lookup j).map Order.next := fun hzero lvl => by
    rw [lookup_levelRemoveOrderLinks h hi, hzero]
    cases hx : b.lookup j with
    | none => rfl
    | some x =>
        have hj : j ≠ 0 := Nat.ne_of_gt (h.registry.named hx).2.1
        exact congrArg some ((x.relinked_next 0 _ j).trans (if_neg hj))
  unfold reduceLevel
  dsimp only
  split
  · rfl
  · next lvl hlvl =>
      split
      · split
        · rw [lookup_setLadder]
          exact hnext (hprev lvl hlvl) _
        · rw [lookup_setLadder]
          exact hnext (hprev lvl hlvl) _
      · rw [lookup_setLadder]

/-- The other levels are left alone. -/
theorem reduceLevel_find_ne (h : Linkage n b) (hi : b.orderMap i = some o) (amount : Int)
    (leaves : Bool) (hne : ¬ (s' = s ∧ p = (b.order o).price)) :
    ((b.reduceLevel s o amount leaves).ladder s').find? p = (b.ladder s').find? p := by
  have hladder : ∀ lvl, (b.levelRemoveOrderLinks lvl o).1.ladder = b.ladder := fun lvl => by
    rw [levelRemoveOrderLinks_eq h.registry hi (h.prev_ne hi), ladder_writeId, ladder_writeId]
  have hset : ∀ (b' : OrderBook) (l : Ladder s), b'.ladder = b.ladder →
      l.find? p = (b.ladder s).find? p ∨ p = (b.order o).price →
      ((b'.setLadder s l).ladder s').find? p = (b.ladder s').find? p := by
    intro b' l hb' hl
    by_cases hs : s' = s
    · subst hs
      rw [ladder_setLadder_self]
      exact hl.resolve_right fun hp => hne ⟨rfl, hp⟩
    · rw [ladder_setLadder_ne _ _ hs, hb']
  have hor : ∀ {l : Ladder s}, (p ≠ (b.order o).price → l.find? p = (b.ladder s).find? p) →
      l.find? p = (b.ladder s).find? p ∨ p = (b.order o).price := fun hl =>
    (em (p = (b.order o).price)).symm.imp_left hl
  unfold reduceLevel
  dsimp only
  split
  · rfl
  · split
    · split
      · refine hset _ _ (hladder _) (hor fun hp => ?_)
        rw [SortedMap.find?_erase_ne _ (Ne.symm hp), hladder]
      · refine hset _ _ (hladder _) (hor fun hp => ?_)
        rw [SortedMap.find?_insert_ne _ _ (Ne.symm hp), hladder]
    · refine hset _ _ rfl (hor fun hp => ?_)
      rw [SortedMap.find?_insert_ne _ _ (Ne.symm hp)]

/-- Its own level, if there is one left, begins with the next order. -/
theorem reduceLevel_head (h : Linkage n b) (hi : b.orderMap i = some o)
    (hprev : ∀ lvl, (b.ladder s).find? (b.order o).price = some lvl → (b.order o).prev = 0)
    {amount : Int} {leaves : Bool} {lvl' : PriceLevel}
    (hfind : ((b.reduceLevel s o amount leaves).ladder s).find? (b.order o).price = some lvl') :
    ∃ lvl, (b.ladder s).find? (b.order o).price = some lvl ∧
      lvl'.head = if leaves then (b.order o).next else lvl.head := by
  have hlevel : (b.order o).prev = 0 → ∀ lvl,
      (b.levelRemoveOrderLinks lvl o).2.head = (b.order o).next := fun hzero lvl => by
    rw [levelRemoveOrderLinks_eq h.registry hi (h.prev_ne hi), hzero]
    rfl
  unfold reduceLevel at hfind
  dsimp only at hfind
  split at hfind
  · next hnone =>
      rw [hnone] at hfind
      cases hfind
  · next lvl hlvl =>
      refine ⟨lvl, hlvl, ?_⟩
      split at hfind
      · next hleaves =>
          rw [if_pos hleaves]
          split at hfind
          · rw [ladder_setLadder_self, SortedMap.find?_erase_self] at hfind
            cases hfind
          · rw [ladder_setLadder_self, SortedMap.find?_insert_self] at hfind
            obtain rfl := Option.some.inj hfind
            exact hlevel (hprev lvl hlvl) _
      · next hleaves =>
          rw [ladder_setLadder_self, SortedMap.find?_insert_self] at hfind
          obtain rfl := Option.some.inj hfind
          rw [if_neg hleaves]

/-- A fill of the order `x`, the first of its level, as walks see it. -/
structure FilledFirst (b b' : OrderBook) (s : Side) (p : Price) (i t : OrderId) (x : Order)
    (fill : Int) : Prop where
  unknown : ∀ j, b.lookup j = none → b'.lookup j = none
  others : ∀ j y, j ≠ i → j ≠ t → b.lookup j = some y →
    ∃ z, b'.lookup j = some z ∧ z.next = y.next ∧ z.remaining = y.remaining
  first : x.remaining ≠ fill →
    ∃ z, b'.lookup i = some z ∧ z.next = x.next ∧ z.remaining = x.remaining - fill
  level : ∀ s' p', ¬ (s' = s ∧ p' = p) → (b'.ladder s').find? p' = (b.ladder s').find? p'
  head : ∀ {lvl'}, (b'.ladder s).find? p = some lvl' → ∃ lvl, (b.ladder s).find? p = some lvl ∧
    lvl'.head = if x.remaining = fill then x.next else lvl.head

theorem write_next (hb : Registry b) (hi : b.orderMap i = some o) (f : Order → Order)
    (hf : ∀ x, (f x).next = x.next) (j : OrderId) :
    ((b.write o f).lookup j).map Order.next = (b.lookup j).map Order.next := by
  rw [lookup_write hb hi]
  split
  · next hj =>
      rw [hj, Option.map_map]
      exact congrArg (Option.map · _) (funext hf)
  · rfl

/-- What a fill up to the taker's status does to links and levels. -/
theorem fillMaker_first (h : Linkage n b) (hi : b.orderMap i = some maker)
    (ht : b.orderMap t = some taker) (hne : i ≠ t)
    (hprev : ∀ lvl, (b.ladder s).find? (b.order maker).price = some lvl → (b.order maker).prev = 0)
    (fill : Int) :
    let b₃ := ((b.chargeFill maker taker fill).reduceLevel s maker fill
      (decide ((b.order maker).remaining = fill))).settleMaker maker
    (∀ j, (j ≠ i ∨ (b.order maker).remaining ≠ fill) →
      (b₃.lookup j).map Order.next = (b.lookup j).map Order.next) ∧
    (∀ s' p', ¬ (s' = s ∧ p' = (b.order maker).price) →
      (b₃.ladder s').find? p' = (b.ladder s').find? p') ∧
    ∀ lvl', (b₃.ladder s).find? (b.order maker).price = some lvl' →
      ∃ lvl, (b.ladder s).find? (b.order maker).price = some lvl ∧
        lvl'.head = if (b.order maker).remaining = fill then (b.order maker).next else lvl.head := by
  have hslot : maker ≠ taker := fun heq => hne (h.registry.inj hi (heq ▸ ht))
  have h₁ := h.chargeFill hi ht fill
  obtain ⟨hmaker, -⟩ := order_chargeFill b hslot fill
  have hnext₁ : ∀ j, ((b.chargeFill maker taker fill).lookup j).map Order.next =
      (b.lookup j).map Order.next := fun j => by
    have hwrite := h.write hi (f := Order.reduce fill) (fun _ => rfl) fun x => ⟨rfl, rfl, rfl, rfl⟩
    exact (write_next hwrite.registry (i := t) ht (Order.reduce fill) (fun _ => rfl) j).trans
      (write_next h.registry hi (Order.reduce fill) (fun _ => rfl) j)
  generalize hb₁ : b.chargeFill maker taker fill = b₁ at h₁ hmaker hnext₁ ⊢
  have hi₁ : b₁.orderMap i = some maker := hb₁ ▸ hi
  have hladder₁ : b₁.ladder = b.ladder := hb₁ ▸ rfl
  have hprice₁ : (b₁.order maker).price = (b.order maker).price := hmaker ▸ rfl
  have hsucc₁ : (b₁.order maker).next = (b.order maker).next := hmaker ▸ rfl
  have hrem₁ : (b₁.order maker).remaining = (b.order maker).remaining - fill := hmaker ▸ rfl
  have hprev₁ : ∀ lvl, (b₁.ladder s).find? (b₁.order maker).price = some lvl →
      (b₁.order maker).prev = 0 := by
    rw [hladder₁, hmaker]
    exact hprev
  set leaves := decide ((b.order maker).remaining = fill) with hleaves
  obtain ⟨q, hsame⟩ := h₁.reduceLevel_same hi₁ s fill leaves
  have hnext₂ := reduceLevel_next h₁ hi₁ hprev₁ fill leaves
  have hlevel₂ : ∀ s' p', ¬ (s' = s ∧ p' = (b₁.order maker).price) →
      ((b₁.reduceLevel s maker fill leaves).ladder s').find? p' = (b₁.ladder s').find? p' :=
    fun s' p' => reduceLevel_find_ne h₁ hi₁ fill leaves
  have hhead₂ : ∀ lvl', ((b₁.reduceLevel s maker fill leaves).ladder s).find?
      (b₁.order maker).price = some lvl' → _ := fun lvl' hfind => reduceLevel_head h₁ hi₁ hprev₁ hfind
  rw [hprice₁, hladder₁] at hlevel₂ hhead₂
  generalize b₁.reduceLevel s maker fill leaves = b₂ at hsame hnext₂ hlevel₂ hhead₂ ⊢
  have hregistry := hsame.registry h₁.registry
  have hi₂ := hsame.orderMap ▸ hi₁
  have hrem₂ : (b₂.order maker).remaining = (b.order maker).remaining - fill :=
    (congrArg Order.remaining (order_unlinked_of_same hsame hi₁)).trans hrem₁
  have hladder₃ : (b₂.settleMaker maker).ladder = b₂.ladder := by
    unfold settleMaker
    split <;> rfl
  dsimp only
  rw [hladder₃]
  refine ⟨fun j hj => ?_, hlevel₂, fun lvl' hfind => ?_⟩
  · rw [← hnext₁, ← hnext₂]
    by_cases hzero : (b₂.order maker).remaining = 0
    · have hji : j ≠ i := hj.resolve_right fun hneq => hneq (by omega)
      rw [(settleMaker_filled (x := ⟨i, 0⟩) hregistry hi₂ hzero).lookup hregistry hi₂, if_neg hji]
    · rw [settleMaker, if_neg hzero]
      exact write_next hregistry hi₂ (Order.setStatus .partiallyFilled) (fun _ => rfl) j
  · obtain ⟨lvl, hlvl, hhead⟩ := hhead₂ lvl' hfind
    refine ⟨lvl, hlvl, ?_⟩
    rw [hhead, hsucc₁, hleaves]
    simp only [decide_eq_true_eq]

/-- A fill of the first order of a level. -/
theorem fillOrder_first (h : Linkage n b) (hi : b.orderMap i = some maker)
    (ht : b.orderMap t = some taker) (hne : i ≠ t)
    (hprev : ∀ lvl, (b.ladder (b.order taker).side.opposite).find? (b.order maker).price = some lvl →
      (b.order maker).prev = 0)
    (hside : (b.order maker).side = (b.order taker).side.opposite) (fill : Int) :
    FilledFirst b (b.fillOrder maker taker fill).1 (b.order taker).side.opposite
      (b.order maker).price i t (b.order maker) fill := by
  have hslot : maker ≠ taker := fun heq => hne (h.registry.inj hi (heq ▸ ht))
  obtain ⟨-, -, hroster, -⟩ := fillOrder_roster h hi ht hne hside fill
  obtain ⟨h₃, ht₃, -, -⟩ := fillMaker_roster h hi ht hne hside fill
  obtain ⟨hnext, hlevel, hhead⟩ := fillMaker_first h hi ht hne hprev fill
  have hidm : (b.order maker).id = i := (h.registry.named (lookup_of_orderMap hi)).1
  have hidt : (b.order taker).id = t := (h.registry.named (lookup_of_orderMap ht)).1
  obtain ⟨hmaker, htaker⟩ := order_chargeFill b hslot fill
  have hdecide : decide (((b.order maker).reduce fill).remaining = 0) =
      decide ((b.order maker).remaining = fill) :=
    decide_eq_decide.mpr Int.sub_eq_zero
  have htside : ((b.order taker).reduce fill).side = (b.order taker).side := rfl
  simp only [fillOrder, hmaker, htaker, hdecide, htside] at hroster ⊢
  generalize settleMaker _ maker = b₃ at h₃ ht₃ hnext hlevel hhead hroster ⊢
  generalize hb₄ : (b₃.write taker (Order.setStatus (fillStatus (b₃.order taker).remaining))).emit _ =
    b₄ at hroster ⊢
  have hnext₄ : ∀ j, (b₄.lookup j).map Order.next = (b₃.lookup j).map Order.next := fun j => by
    rw [← hb₄]
    exact write_next h₃.registry ht₃ (Order.setStatus _) (fun _ => rfl) j
  have hladder₄ : b₄.ladder = b₃.ladder := by rw [← hb₄]; rfl
  rw [← hladder₄] at hlevel hhead
  have hentry : ∀ j, (b₄.lookup j).map Order.unlinked = (b.roster.fill (b.order maker).unlinked
      (b.order taker).unlinked fill).entry j := congrFun (congrArg Roster.entry hroster)
  have hothers : ∀ j, j ≠ i → j ≠ t →
      (b₄.lookup j).map Order.unlinked = (b.lookup j).map Order.unlinked := fun j hji hjt => by
    rw [hentry, Roster.fill_entry_ne _ _ (by rwa [Order.unlinked_id, hidm])
      (by rwa [Order.unlinked_id, hidt])]
    rfl
  refine ⟨fun j hj => ?_, fun j y hji hjt hy => ?_, fun hneq => ?_, hlevel, fun hfind => hhead _ hfind⟩
  · exact unknown_filled hroster (roster_entry_id h.registry hi) (roster_entry_id h.registry ht) hj
  · have hpayload := hothers j hji hjt
    have hlinks := (hnext₄ j).trans (hnext j (.inl hji))
    rw [hy] at hpayload hlinks
    obtain ⟨z, hz, hzy⟩ := Option.map_eq_some_iff.mp hpayload
    rw [hz] at hlinks
    exact ⟨z, hz, Option.some.inj hlinks, (congrArg Order.remaining hzy :)⟩
  · have hpayload := hentry i
    have hlinks := (hnext₄ i).trans (hnext i (.inr hneq))
    rw [← hidm, ← Order.unlinked_id (b.order maker), Roster.fill_entry_maker _ _
      (by rwa [Order.unlinked_id, Order.unlinked_id, hidm, hidt]), Order.unlinked_id, hidm,
      Order.unlinked_remaining, if_neg hneq] at hpayload
    obtain ⟨z, hz, hzx⟩ := Option.map_eq_some_iff.mp hpayload
    rw [hz, lookup_of_orderMap hi] at hlinks
    exact ⟨z, hz, Option.some.inj hlinks, (congrArg Order.remaining hzx :)⟩

/-! ### What is within reach -/

/-- The levels within reach, but for the one at `p`. -/
def OrderBook.otherLevels (b : OrderBook) (side : Side) (limit p : Price) : List Price :=
  ((b.ladder side.opposite).keys.filter fun p' => !side.beyond limit p').filter (· != p)

def OrderBook.inOthers (b : OrderBook) (side : Side) (limit p : Price) : Int :=
  ((b.otherLevels side limit p).map fun p' => volume (b.queue side.opposite p')).sum

/-- The levels in reach besides one. -/
theorem mem_otherLevels {side : Side} : p' ∈ b.otherLevels side limit p ↔
    ((b.ladder side.opposite).find? p' ≠ none ∧ side.beyond limit p' = false) ∧ p' ≠ p := by
  simp only [otherLevels, List.mem_filter, SortedMap.mem_keys, Bool.not_eq_true', bne_iff_ne]

theorem keys_nodup (b : OrderBook) (s : Side) : (b.ladder s).keys.Nodup := by
  refine (b.ladder s).keys_sorted.imp fun {q q'} hbefore heq => ?_
  subst heq
  exact Std.Irrefl.irrefl _ hbefore

/-- What is within reach is at `p` or in the other levels. -/
theorem inReach_of_mem {side : Side} (hp : (b.ladder side.opposite).find? p ≠ none)
    (hreach : side.beyond limit p = false) :
    b.inReach side limit = volume (b.queue side.opposite p) + b.inOthers side limit p := by
  set l := (b.ladder side.opposite).keys.filter fun p' => !side.beyond limit p' with hl
  have hmem : p ∈ l := by simp [hl, SortedMap.mem_keys, hp, hreach]
  have hnodup : l.Nodup := (keys_nodup b side.opposite).filter _
  have hperm := (List.perm_cons_erase hmem).map fun p' => volume (b.queue side.opposite p')
  rw [hnodup.erase_eq_filter] at hperm
  exact hperm.sum_eq

/-- A level out of reach counts for nothing. -/
theorem inReach_of_not_mem {side : Side}
    (hp : (b.ladder side.opposite).find? p = none ∨ side.beyond limit p = true) :
    b.inReach side limit = b.inOthers side limit p := by
  have hall : b.otherLevels side limit p =
      (b.ladder side.opposite).keys.filter fun p' => !side.beyond limit p' := by
    refine List.filter_eq_self.mpr fun p' hp' => ?_
    rw [List.mem_filter, SortedMap.mem_keys] at hp'
    refine bne_iff_ne.mpr fun heq => ?_
    subst heq
    rcases hp with hnone | hbeyond
    · exact hp'.1 hnone
    · rw [hbeyond] at hp'
      cases hp'.2
  rw [inOthers, hall]
  rfl

theorem volume_queue_nonneg (hpos : ∀ {j x}, b.lookup j = some x → 0 ≤ x.remaining) (s : Side)
    (p : Price) : 0 ≤ volume (b.queue s p) := by
  cases hfind : (b.ladder s).find? p with
  | none =>
      rw [queue_none hfind]
      exact Int.le_refl 0
  | some lvl =>
      rw [volume_queue hfind]
      exact volumeFrom_nonneg hpos _ _

/-- What is in reach is not negative. -/
theorem inReach_nonneg (hpos : ∀ {j x}, b.lookup j = some x → 0 ≤ x.remaining) (side : Side)
    (limit : Price) : 0 ≤ b.inReach side limit := by
  refine List.sum_nonneg fun v hv => ?_
  obtain ⟨p', -, rfl⟩ := List.mem_map.mp hv
  exact volume_queue_nonneg hpos _ _

/-- A level that begins with `cur` holds what is found from there on. -/
theorem inReach_le_from (hpos : ∀ {j x}, b.lookup j = some x → 0 ≤ x.remaining) {side : Side}
    (hhead : ∀ lvl, (b.ladder side.opposite).find? p = some lvl → lvl.head = cur) :
    b.inReach side limit ≤ b.volumeFrom b.orderIdSeq cur + b.inOthers side limit p := by
  have hnonneg := volumeFrom_nonneg hpos b.orderIdSeq cur
  by_cases hp : (b.ladder side.opposite).find? p = none ∨ side.beyond limit p = true
  · rw [inReach_of_not_mem hp]
    omega
  · obtain ⟨hfind, hreach⟩ := not_or.mp hp
    obtain ⟨lvl, hlvl⟩ := Option.ne_none_iff_exists'.mp hfind
    rw [inReach_of_mem hfind (Bool.not_eq_true _ ▸ hreach), volume_queue hlvl, hhead lvl hlvl]

section Fill

variable {x : Order}

/-- The other levels count the same in a book that has them too, with the same volumes. -/
theorem inOthers_congr {side : Side} (hfind : ∀ p', p' ≠ p →
      (b'.ladder side.opposite).find? p' = (b.ladder side.opposite).find? p')
    (hvolume : ∀ p' lvl, p' ≠ p → (b.ladder side.opposite).find? p' = some lvl →
      volume (b'.queue side.opposite p') = volume (b.queue side.opposite p')) (limit : Price) :
    b'.inOthers side limit p = b.inOthers side limit p := by
  have hlevels : b'.otherLevels side limit p = b.otherLevels side limit p := by
    refine SortedMap.eq_of_sorted (((b'.ladder side.opposite).keys_sorted.filter _).filter _)
      (((b.ladder side.opposite).keys_sorted.filter _).filter _) fun p' => ?_
    refine mem_otherLevels.trans (Iff.trans ?_ mem_otherLevels.symm)
    refine and_congr_left fun hne => ?_
    rw [hfind p' hne]
  unfold OrderBook.inOthers
  rw [hlevels]
  refine congrArg List.sum (List.map_congr_left fun p' hp' => ?_)
  obtain ⟨⟨hlvl, -⟩, hne⟩ := mem_otherLevels.mp hp'
  obtain ⟨lvl, hlvl⟩ := Option.ne_none_iff_exists'.mp hlvl
  exact hvolume p' lvl hne hlvl

/-- A fill leaves the other levels where they were, with what they held. -/
theorem FilledFirst.inOthers {side : Side} (hf : FilledFirst b b' side.opposite p i t x fill)
    (h : Linkage n b) (hi : b.lookup i = some x) (hprice : x.price = p)
    (ht : ∀ y, b.lookup t = some y → y.side = side) (hseq : b'.orderIdSeq = b.orderIdSeq)
    (limit : Price) : b'.inOthers side limit p = b.inOthers side limit p := by
  refine inOthers_congr (fun p' hne => hf.level _ p' fun heq => hne heq.2)
    (fun p' lvl hne hlvl => ?_) limit
  have hlvl' := (hf.level _ p' fun heq => hne heq.2).trans hlvl
  rw [volume_queue hlvl, volume_queue hlvl', hseq]
  refine volumeFrom_congr hf.unknown fun j hj y hy => ?_
  obtain ⟨z, hz, hzside, hzprice⟩ := h.walk_place (fun w hw => (h.head hlvl hw).2) hj
  obtain rfl := Option.some.inj (hy.symm.trans hz)
  refine hf.others j y (fun hji => ?_) (fun hjt => ?_) hy
  · subst hji
    obtain rfl := Option.some.inj (hi.symm.trans hy)
    exact hne (hzprice.symm.trans hprice)
  · subst hjt
    exact side.opposite_ne (hzside.symm.trans (ht y hy))

/-- A queue is walked towards later ids. -/
theorem walk_ascending (h : Linkage n b) {fuel : Nat} (hj : j ∈ b.walk fuel i) : i ≤ j := by
  induction fuel generalizing i with
  | zero => cases hj
  | succ fuel ih =>
      cases hx : b.lookup i with
      | none =>
          rw [walk_none hx] at hj
          cases hj
      | some x =>
          rw [walk_some hx] at hj
          rcases List.mem_cons.mp hj with rfl | hj
          · exact Nat.le_refl _
          · rcases h.next hx with hzero | ⟨hlt, -⟩
            · rw [hzero, walk_none (lookup_zero h.registry)] at hj
              cases hj
            · exact Nat.le_trans (Nat.le_of_lt hlt) (ih hj)

/-- What is found from the order on is what is left of it and what is found behind it. -/
theorem Linkage.volumeFrom_eq (h : Linkage n b) (hi : b.lookup i = some x) :
    b.volumeFrom b.orderIdSeq i = x.remaining + b.volumeFrom b.orderIdSeq x.next := by
  obtain ⟨-, hpos, hle⟩ := h.registry.named hi
  obtain ⟨fuel, hfuel⟩ := Nat.exists_eq_add_one_of_ne_zero
    (Nat.ne_of_gt (Nat.lt_of_lt_of_le hpos hle))
  rw [hfuel, volumeFrom_some hi]
  rcases h.next hi with hzero | ⟨hlt, -⟩
  · rw [hzero, volumeFrom_none (lookup_zero h.registry), volumeFrom_none (lookup_zero h.registry)]
  · have hstable : b.orderIdSeq < x.next + fuel := by
      rw [hfuel, Nat.add_comm fuel]
      exact Nat.add_lt_add_right (Nat.lt_of_le_of_lt hpos hlt) fuel
    rw [volumeFrom, volumeFrom, h.walk_stable hstable]

/-- The orders behind a filled one are where they were. -/
theorem FilledFirst.behind {side : Side} (hf : FilledFirst b b' side.opposite p i t x fill)
    (h : Linkage n b) (hi : b.lookup i = some x) (hside : x.side = side.opposite)
    (ht : ∀ y, b.lookup t = some y → y.side = side) (fuel : Nat) :
    b'.volumeFrom fuel x.next = b.volumeFrom fuel x.next := by
  refine volumeFrom_congr hf.unknown fun j hj y hy => ?_
  refine hf.others j y (fun hji => ?_) (fun hjt => ?_) hy
  · subst hji
    rcases h.next hi with hzero | ⟨hlt, -⟩
    · rw [hzero, walk_none (lookup_zero h.registry)] at hj
      cases hj
    · exact absurd (walk_ascending h hj) (Nat.not_le.mpr hlt)
  · subst hjt
    have hplace : ∀ w, b.lookup x.next = some w → w.side = side.opposite ∧ w.price = x.price :=
      fun w hw => ⟨(h.follow hi hw).2.1.trans hside, (h.follow hi hw).2.2⟩
    obtain ⟨z, hz, hzside, -⟩ := h.walk_place hplace hj
    exact side.opposite_ne (hzside.symm.trans (ht z hz))

end Fill

/-! ### What a sweep trades -/

def traded (ts : List Trade) : Int := (ts.map Trade.qty).sum

@[simp] theorem traded_nil : traded [] = 0 := rfl

@[simp] theorem traded_cons (u : Trade) (ts : List Trade) :
    traded (u :: ts) = u.qty + traded ts := List.sum_cons

@[simp] theorem traded_append (ts ts' : List Trade) :
    traded (ts ++ ts') = traded ts + traded ts' := by
  rw [traded, List.map_append, List.sum_append]
  rfl

/-- No registered order has been charged more than it had. -/
def Charged (r : Roster) : Prop := ∀ i x, r.entry i = some x → 0 ≤ x.remaining

/-- A fill within both orders overfills none. -/
theorem Charged.afterFill {r : Roster} {mk tk : Order} (h : Charged r) (hq : fill ≤ mk.remaining)
    (hq' : fill ≤ tk.remaining) (hne : mk.id ≠ tk.id) : Charged (r.fill mk tk fill) := by
  intro j y hj
  by_cases hjt : j = tk.id
  · rw [hjt, Roster.fill_entry_taker] at hj
    obtain rfl := Option.some.inj hj
    exact Int.sub_nonneg_of_le hq'
  · by_cases hjm : j = mk.id
    · rw [hjm, Roster.fill_entry_maker _ _ hne] at hj
      split at hj
      · cases hj
      · obtain rfl := Option.some.inj hj
        exact Int.sub_nonneg_of_le hq
    · rw [Roster.fill_entry_ne _ _ hjm hjt] at hj
      exact h j y hj

/-- No order that is found is overfilled. -/
theorem Charged.lookup {x : Order} (h : Charged b.roster) (hx : b.lookup i = some x) :
    0 ≤ x.remaining :=
  h i x.unlinked (congrArg (Option.map Order.unlinked) hx)

/-- A taker that is filled meets no more orders. -/
theorem walkLevel_filled {fuel : Nat} {ts : List Trade} (hzero : (b.order taker).remaining = 0)
    (hw : walkLevel fuel b taker cur = some (b', ts)) : b = b' ∧ [] = ts := by
  cases fuel with
  | zero => cases hw
  | succ fuel =>
      rw [walkLevel, if_neg fun hcond => absurd hcond.2 (by omega)] at hw
      exact Prod.mk.inj (Option.some.inj hw)

/-- What the fill of a taker at the order under `cur`, the first one at `p`, does to the book
and to what is within reach. -/
structure FilledAt (n : OrderId) (b b' : OrderBook) (t cur : OrderId) (taker maker : Slot)
    (p : Price) (q : Int) : Prop where
  linkage : Linkage n b'
  mapped : b'.orderMap t = some taker
  charged : Charged b'.roster
  side : (b'.order taker).side = (b.order taker).side
  left : (b'.order taker).remaining = (b.order taker).remaining - q
  volume : b.volumeFrom b.orderIdSeq cur =
    (b.order maker).remaining + b.volumeFrom b.orderIdSeq (b.order maker).next
  behind : b'.volumeFrom b'.orderIdSeq (b.order maker).next =
    b.volumeFrom b.orderIdSeq (b.order maker).next
  others : ∀ limit, b'.inOthers (b.order taker).side limit p =
    b.inOthers (b.order taker).side limit p
  place : ∀ x, b'.lookup (b.order maker).next = some x →
    x.side = (b'.order taker).side.opposite ∧ x.price = p
  head : (b.order maker).remaining = q → ∀ lvl,
    (b'.ladder (b'.order taker).side.opposite).find? p = some lvl → lvl.head = (b.order maker).next
  partly : (b.order maker).remaining ≠ q → ∀ limit,
    b'.inReach (b.order taker).side limit ≤ (b.order maker).remaining - q +
      b.volumeFrom b.orderIdSeq (b.order maker).next + b.inOthers (b.order taker).side limit p

/-- A fill at the head of a level takes its quantity off the level's volume. -/
theorem fillOrder_filledAt (h : Linkage n b) (ht : b.orderMap t = some taker) (hn : n < t)
    (hcur : cur ≤ n) (hcharged : Charged b.roster)
    (hplace : ∀ x, b.lookup cur = some x → x.side = (b.order taker).side.opposite ∧ x.price = p)
    (hhead : ∀ lvl, (b.ladder (b.order taker).side.opposite).find? p = some lvl → lvl.head = cur)
    (hi : b.orderMap cur = some maker) :
    let q := min (b.order taker).remaining (b.order maker).remaining
    FilledAt n b (b.fillOrder maker taker q).1 t cur taker maker p q ∧
      (b.fillOrder maker taker q).2.qty = q := by
  intro q
  have hm := lookup_of_orderMap hi
  have htk := lookup_of_orderMap ht
  have hne : cur ≠ t := Nat.ne_of_lt (Nat.lt_of_le_of_lt hcur hn)
  obtain ⟨hmside, hmprice⟩ := hplace _ hm
  obtain ⟨h₁, ht₁, hroster, htrade⟩ := fillOrder_roster h hi ht hne hmside q
  have hfirst := fillOrder_first h hi ht hne
    (fun lvl hlvl => (h.head hlvl (hhead lvl (hmprice ▸ hlvl) ▸ hm)).1) hmside q
  rw [hmprice] at hfirst
  generalize b.fillOrder maker taker q = r at h₁ ht₁ hroster htrade hfirst ⊢
  have hseq : r.1.orderIdSeq = b.orderIdSeq := congrArg Roster.orderIdSeq hroster
  have htaker := taker_filled h.registry ht ht₁ hroster
  have htside : (r.1.order taker).side = (b.order taker).side := (congrArg Order.side htaker :)
  have hside : ∀ y, b.lookup t = some y → y.side = (b.order taker).side := fun y hy =>
    congrArg Order.side (Option.some.inj (hy.symm.trans htk))
  have hcharged₁ : Charged r.1.roster := by
    rw [hroster]
    refine hcharged.afterFill (min_le_right ..) (min_le_left ..) ?_
    rw [Order.unlinked_id, Order.unlinked_id, (h.registry.named hm).1, (h.registry.named htk).1]
    exact hne
  have hothers := hfirst.inOthers h hm hmprice hside hseq
  have hbehind := hfirst.behind h hm hmside hside b.orderIdSeq
  refine ⟨⟨h₁, ht₁, hcharged₁, htside, (congrArg Order.remaining htaker :), h.volumeFrom_eq hm,
    hseq ▸ hbehind, hothers, fun y hy => ?_, fun hwhole lvl' hlvl' => ?_, fun hpart limit => ?_⟩,
    congrArg Trade.qty htrade⟩
  · cases hz : b.lookup (b.order maker).next with
    | none =>
        rw [hfirst.unknown _ hz] at hy
        cases hy
    | some z =>
        obtain ⟨-, hzside, hzprice⟩ := h.follow hm hz
        obtain ⟨hyside, hyprice⟩ := same_place hroster
          (roster_entry_id h.registry hi) (roster_entry_id h.registry ht) hy hz
        rw [htside, hyside, hyprice, hzside, hzprice]
        exact ⟨hmside, hmprice⟩
  · rw [htside] at hlvl'
    obtain ⟨lvl, -, hlvl⟩ := hfirst.head hlvl'
    rw [hlvl, if_pos hwhole]
  · obtain ⟨z, hz, hznext, hzrem⟩ := hfirst.first hpart
    have hleft : r.1.inReach (b.order taker).side limit ≤
        r.1.volumeFrom r.1.orderIdSeq cur + r.1.inOthers (b.order taker).side limit p :=
      inReach_le_from (fun hx => hcharged₁.lookup hx) fun lvl' hlvl' => by
        obtain ⟨lvl, hlvl, hsame⟩ := hfirst.head hlvl'
        rw [hsame, if_neg hpart]
        exact hhead lvl hlvl
    rw [h₁.volumeFrom_eq hz, hznext, hzrem, hseq, hbehind, hothers] at hleft
    exact hleft

/-- The inner loop takes from what is within reach what it trades. -/
theorem walkLevel_volume {fuel : Nat} {ts : List Trade} (h : Linkage n b)
    (ht : b.orderMap t = some taker) (hn : n < t) (hcur : cur ≤ n) (hcharged : Charged b.roster)
    (hplace : ∀ x, b.lookup cur = some x → x.side = (b.order taker).side.opposite ∧ x.price = p)
    (hhead : ∀ lvl, (b.ladder (b.order taker).side.opposite).find? p = some lvl → lvl.head = cur)
    (hw : walkLevel fuel b taker cur = some (b', ts)) :
    traded ts + b'.inReach (b.order taker).side limit ≤
      b.volumeFrom b.orderIdSeq cur + b.inOthers (b.order taker).side limit p := by
  induction fuel generalizing b cur ts with
  | zero => cases hw
  | succ fuel ih =>
      have hstop : b.inReach (b.order taker).side limit ≤
          b.volumeFrom b.orderIdSeq cur + b.inOthers (b.order taker).side limit p :=
        inReach_le_from (fun hx => hcharged.lookup hx) hhead
      rw [walkLevel] at hw
      split at hw
      · next hcond =>
          split at hw
          · obtain ⟨rfl, rfl⟩ := Prod.mk.inj (Option.some.inj hw)
            rwa [traded_nil, Int.zero_add]
          · next maker hi =>
              obtain ⟨w, hrest, heq⟩ := Option.map_eq_some_iff.mp hw
              obtain ⟨rfl, rfl⟩ := Prod.mk.inj heq
              clear hw heq
              obtain ⟨hfill, hqty⟩ := fillOrder_filledAt h ht hn hcur hcharged hplace hhead hi
              have hnext := h.next_le (lookup_of_orderMap hi)
              set q := min (b.order taker).remaining (b.order maker).remaining with hq
              generalize b.fillOrder maker taker q = r at hfill hqty hrest ⊢
              rw [traded_cons, hqty, hfill.volume]
              by_cases hwhole : (b.order maker).remaining = q
              · have hrec := ih hfill.linkage hfill.mapped hnext hfill.charged hfill.place
                  (hfill.head hwhole) hrest
                rw [hfill.side, hfill.behind, hfill.others] at hrec
                omega
              · -- The maker is left, and so the taker is not.
                have hzero : (r.1.order taker).remaining = 0 := by
                  rw [hfill.left]
                  omega
                obtain ⟨hstops, htrades⟩ := walkLevel_filled hzero hrest
                have hleft := hfill.partly hwhole limit
                rw [← hstops, ← htrades, traded_nil]
                omega
      · obtain ⟨rfl, rfl⟩ := Prod.mk.inj (Option.some.inj hw)
        rwa [traded_nil, Int.zero_add]

theorem Charged.enter {r : Roster} {x : Order} (h : Charged r) (hx : 0 ≤ x.remaining) :
    Charged (r.enter x) := by
  intro j y hj
  have hj : Function.update r.entry x.id (some x) j = some y := hj
  rw [Function.update_apply] at hj
  split at hj
  · obtain rfl := Option.some.inj hj
    exact hx
  · exact h j y hj

/-- Fills overfill no order. -/
theorem Charged.fills {r r' : Roster} {ts : List Trade} (h : Charged r)
    (hfills : Roster.Fills t r ts r') : Charged r' := by
  induction hfills with
  | nil => exact h
  | cons _ _ hid hne _ _ ih =>
      subst hid
      exact ih (h.afterFill (min_le_right ..) (min_le_left ..) hne)

/-- Fills charge the taker with what they trade, and change nothing else about it. -/
theorem Roster.Fills.charges {r r' : Roster} {ts : List Trade} (hfills : Roster.Fills t r ts r')
    {y : Order} (hy : r.entry t = some y) (hid : y.id = t) : ∃ x, r'.entry t = some x ∧
      x.id = t ∧ x.side = y.side ∧ x.price = y.price ∧ x.type = y.type ∧
        x.remaining = y.remaining - traded ts := by
  induction hfills generalizing y with
  | nil => exact ⟨y, hy, hid, rfl, rfl, rfl, (Int.sub_zero _).symm⟩
  | cons _ ht htaker _ _ _ ih =>
      subst htaker
      obtain rfl := Option.some.inj (hy.symm.trans ht)
      obtain ⟨x, hx, hxid, hside, hprice, htype, hrem⟩ := ih (fill_entry_taker ..) rfl
      refine ⟨x, hx, hxid, hside, hprice, htype, hrem.trans ?_⟩
      rw [traded_cons]
      exact Int.sub_sub _ _ _

/-- The taker keeps its side and price. -/
theorem taker_after {r : List Trade} (hb : Registry b) (ht : b.orderMap t = some taker)
    (ht' : b'.orderMap t = some taker) (hfills : Roster.Fills t b.roster r b'.roster) :
    (b'.order taker).side = (b.order taker).side ∧ (b'.order taker).price = (b.order taker).price := by
  obtain ⟨x, hx, -, hside, hprice, -, -⟩ := hfills.charges (roster_entry ht)
    (hb.named (lookup_of_orderMap ht)).1
  obtain rfl := Option.some.inj (hx.symm.trans (roster_entry ht'))
  exact ⟨hside, hprice⟩

/-- Dropping a level adds nothing. -/
theorem inReach_dropEmpty (hcharged : Charged b.roster) (side : Side) (limit key : Price) :
    (b.dropEmpty side.opposite key).inReach side limit ≤ b.inReach side limit := by
  unfold OrderBook.dropEmpty
  split
  · next lvl hlvl =>
      split
      · have hgone : ((b.setLadder side.opposite ((b.ladder side.opposite).erase key)).ladder
            side.opposite).find? key = none := by
          rw [ladder_setLadder_self, SortedMap.find?_erase_self]
        have hfind : ∀ p', p' ≠ key → ((b.setLadder side.opposite
            ((b.ladder side.opposite).erase key)).ladder side.opposite).find? p' =
              (b.ladder side.opposite).find? p' := fun p' hne => by
          rw [ladder_setLadder_self, SortedMap.find?_erase_ne _ (Ne.symm hne)]
        have hothers := inOthers_congr hfind (fun p' lvl hne hlvl => by
          rw [volume_queue hlvl, volume_queue ((hfind p' hne).trans hlvl), orderIdSeq_setLadder]
          exact volumeFrom_congr (fun j hj => by rwa [lookup_setLadder]) fun j _ x hx =>
            ⟨x, by rwa [lookup_setLadder], rfl, rfl⟩) limit
        rw [inReach_of_not_mem (.inl hgone), hothers]
        have hnonneg := volume_queue_nonneg (fun hx => hcharged.lookup hx) side.opposite key
        by_cases hreach : side.beyond limit key = true
        · rw [inReach_of_not_mem (.inr hreach)]
        · rw [inReach_of_mem (by rw [hlvl]; exact Option.some_ne_none _)
            (Bool.not_eq_true _ ▸ hreach)]
          omega
      · exact Int.le_refl _
  · exact Int.le_refl _

/-- A sweep takes from what is within reach what it trades. -/
theorem sweep_volume {freed : TradeId → Price} {fuel : Nat} {ts : List Trade} (h : Linkage n b)
    (ht : b.orderMap t = some taker) (hn : n < t) (hcharged : Charged b.roster)
    (hs : sweep freed fuel b taker = some (b', ts)) :
    traded ts + b'.inReach (b.order taker).side (b.order taker).price ≤
      b.inReach (b.order taker).side (b.order taker).price := by
  induction fuel generalizing b ts with
  | zero => cases hs
  | succ fuel ih =>
      have hnone : traded [] + b.inReach (b.order taker).side (b.order taker).price ≤
          b.inReach (b.order taker).side (b.order taker).price := by
        rw [traded_nil, Int.zero_add]
      rw [sweep_succ freed fuel rfl] at hs
      split at hs
      · split at hs
        · obtain ⟨rfl, rfl⟩ := Prod.mk.inj (Option.some.inj hs)
          exact hnone
        · next p lvl hfirst =>
            split at hs
            · obtain ⟨rfl, rfl⟩ := Prod.mk.inj (Option.some.inj hs)
              exact hnone
            · next hreach =>
                have hfind := SortedMap.first?_find hfirst
                obtain ⟨w, hwalk, hs⟩ := Option.bind_eq_some_iff.mp hs
                obtain ⟨w', hrest, heq⟩ := Option.map_eq_some_iff.mp hs
                obtain ⟨rfl, rfl⟩ := Prod.mk.inj heq
                have hbound : traded w.2 + w.1.inReach (b.order taker).side (b.order taker).price ≤
                    b.volumeFrom b.orderIdSeq lvl.head +
                      b.inOthers (b.order taker).side (b.order taker).price p :=
                  walkLevel_volume h ht hn (h.ends hfind).1 hcharged
                    (fun x hx => (h.head hfind hx).2)
                    (fun lvl' hlvl' => by rw [Option.some.inj (hfind.symm.trans hlvl')]) hwalk
                have hin : b.inReach (b.order taker).side (b.order taker).price = _ :=
                  inReach_of_mem (by rw [hfind]; exact Option.some_ne_none _)
                    (Bool.not_eq_true _ ▸ hreach)
                rw [volume_queue hfind] at hin
                obtain ⟨h₁, ht₁, -, hfills⟩ := walkLevel_roster h ht hn (h.ends hfind).1
                  (fun x hx => (h.head hfind hx).2.1) hwalk
                have hcharged₁ := hcharged.fills hfills
                obtain ⟨hside, hprice⟩ := taker_after h.registry ht ht₁ hfills
                have hdrop := inReach_dropEmpty hcharged₁ (b.order taker).side
                  (b.order taker).price (readKey freed w.1 (b.order taker).side.opposite p)
                obtain ⟨h₂, hmap, hpool, hroster⟩ := h₁.dropEmpty (b.order taker).side.opposite
                  (readKey freed w.1 (b.order taker).side.opposite p)
                have horder : (w.1.dropEmpty (b.order taker).side.opposite
                    (readKey freed w.1 (b.order taker).side.opposite p)).order taker =
                      w.1.order taker :=
                  congrArg (fun pool => pool.storage taker) hpool
                have hrec := ih h₂ (by rw [hmap]; exact ht₁) (by rw [hroster]; exact hcharged₁) hrest
                rw [horder, hside, hprice] at hrec
                rw [traded_append]
                omega
      · obtain ⟨rfl, rfl⟩ := Prod.mk.inj (Option.some.inj hs)
        exact hnone

/-! ### What a call trades -/

/-- The quantity a call of `add_order` is to trade: what is within reach, up to its own
quantity, and nothing if it is refused. -/
def OrderBook.tradable (b : OrderBook) (side : Side) (type : OrderType) (price : Price)
    (qty : Int) : Int :=
  if qty ≤ 0 ∨ type = .limit ∧ price ≤ 0 ∨ b.orderPool.freeTop = 0 ∨
      type = .fok ∧ b.canFillFok side price qty = false then 0
  else min qty (b.inReach side (entryPrice side type price))

/-- A queue is walked among the ids it may link to. -/
theorem walk_le (h : Linkage n b) (hi : i ≤ n) {fuel : Nat} (hj : j ∈ b.walk fuel i) : j ≤ n := by
  induction fuel generalizing i with
  | zero => cases hj
  | succ fuel ih =>
      cases hx : b.lookup i with
      | none =>
          rw [walk_none hx] at hj
          cases hj
      | some x =>
          rw [walk_some hx] at hj
          rcases List.mem_cons.mp hj with rfl | hj
          · exact hi
          · exact ih (h.next_le hx) hj

/-- The order entered is within no one's reach. -/
theorem inReach_enrolled (h : Linkage b.orderIdSeq b) {pool : MemoryPool Order maxOrders}
    (halloc : b.orderPool.allocate = some (o, pool)) {x : Order} (hx : x.id = b.orderIdSeq + 1)
    (hprev : x.prev = 0) (hnext : x.next = 0) (side : Side) (limit : Price) :
    ((b.placeOrder pool o x).enroll x.id o).inReach side limit = b.inReach side limit := by
  obtain ⟨-, -, -, hlookup⟩ := h.registry.enrolled halloc hx
  have h₁ := h.enrolled (Nat.le_refl _) halloc hx hprev hnext
  have hladder : ((b.placeOrder pool o x).enroll x.id o).ladder = b.ladder := rfl
  have hseq : ((b.placeOrder pool o x).enroll x.id o).orderIdSeq = b.orderIdSeq + 1 := rfl
  generalize (b.placeOrder pool o x).enroll x.id o = b₁ at hlookup h₁ hladder hseq ⊢
  unfold OrderBook.inReach
  rw [hladder]
  refine congrArg List.sum (List.map_congr_left fun p hp => ?_)
  rw [List.mem_filter, SortedMap.mem_keys] at hp
  obtain ⟨lvl, hlvl⟩ := Option.ne_none_iff_exists'.mp hp.1
  have hlvl₁ : (b₁.ladder side.opposite).find? p = some lvl := by rw [hladder]; exact hlvl
  rw [volume_queue hlvl, volume_queue hlvl₁, hseq]
  have hsame : b.volumeFrom (b.orderIdSeq + 1) lvl.head = b₁.volumeFrom (b.orderIdSeq + 1) lvl.head := by
    refine volumeFrom_congr (fun j hj => ?_) fun j hj y hy => ?_
    · by_cases hjx : j = x.id
      · rw [hjx, hx]
        exact lookup_next h.registry
      · rw [← hlookup j hjx]
        exact hj
    · have hjx : j ≠ x.id := by
        rw [hx]
        exact Nat.ne_of_lt (Nat.lt_succ_of_le (walk_le h₁ (h₁.ends hlvl₁).1 hj))
      exact ⟨y, hlookup j hjx ▸ hy, rfl, rfl⟩
  rw [← hsame]
  rcases Nat.eq_zero_or_pos lvl.head with hzero | hpos
  · rw [hzero, volumeFrom_none (lookup_zero h.registry), volumeFrom_none (lookup_zero h.registry)]
  · have hfuel : b.orderIdSeq < lvl.head + b.orderIdSeq := Nat.lt_add_of_pos_left hpos
    rw [volumeFrom, volumeFrom, h.walk_stable hfuel]

/-- A call of `add_order` is one of the roster's, and trades no more than is tradable. -/
theorem addOrder_volume {freed : TradeId → Price} {fuel : Nat} {side : Side} {type : OrderType}
    {price : Price} {qty : Int} {exch : Exchange} {r : AddResult} (h : Linkage b.orderIdSeq b)
    (hcharged : Charged b.roster)
    (hadd : b.addOrder freed fuel side type price qty exch = some (b', r)) :
    (r = {} ∧ (b'.roster = b.roster ∨
        b'.roster = { b.roster with orderIdSeq := b.roster.orderIdSeq + 1 })) ∨
      ∃ ts r₂ x, 0 < qty ∧ Roster.Fills (b.orderIdSeq + 1)
          (b.roster.enter (b.roster.newOrder side type price qty exch)) ts r₂ ∧
        r₂.entry (b.orderIdSeq + 1) = some x ∧ traded ts ≤ b.tradable side type price qty ∧
        b'.roster = (r₂.conclude x type { id := b.orderIdSeq + 1, accepted := true, fills := ts }).1 ∧
        r = (r₂.conclude x type { id := b.orderIdSeq + 1, accepted := true, fills := ts }).2 := by
  rcases addOrder_inv hadd with ⟨rfl, rfl⟩ | ⟨o, pool, hqty, halloc, hend⟩
  · exact .inl ⟨rfl, .inl rfl⟩
  · have hfree : b.orderPool.freeTop ≠ 0 := fun hzero => by
      rw [MemoryPool.allocate_eq_none.mpr hzero] at halloc
      cases halloc
    rcases hend with ⟨hfok, rfl, rfl⟩ | ⟨hprice, hfok, b₂, ts, hsweep, heq⟩
    · exact .inl ⟨rfl, .inr (roster_rejected h.registry halloc _)⟩
    · have hid : (b.newOrder side type price qty exch).id = b.orderIdSeq + 1 := rfl
      have hentered := h.enrolled (Nat.le_refl _) halloc hid rfl rfl
      obtain ⟨-, hmap, horder, -⟩ := h.registry.enrolled halloc hid
      have hroster := roster_enrolled h.registry halloc hid rfl
      have hreach := inReach_enrolled h halloc hid rfl rfl side (entryPrice side type price)
      have hcharged₁ : Charged (b.roster.enter (b.newOrder side type price qty exch)) :=
        hcharged.enter (Int.le_of_lt hqty)
      obtain ⟨h₂, ht₂, hfills⟩ := sweep_roster hentered hmap (Nat.lt_succ_self _) hsweep
      have hbound := sweep_volume hentered hmap (Nat.lt_succ_self _) (hroster ▸ hcharged₁) hsweep
      rw [horder] at hbound
      have hbound : traded ts + b₂.inReach side (entryPrice side type price) ≤
          b.inReach side (entryPrice side type price) := hreach ▸ hbound
      rw [hroster] at hfills
      have hcharged₂ := hcharged₁.fills hfills
      have hrest := inReach_nonneg (fun hx => hcharged₂.lookup hx) side (entryPrice side type price)
      obtain ⟨x, hx, -, -, -, -, hrem⟩ := hfills.charges (Function.update_self ..) rfl
      have hleft : 0 ≤ x.remaining := hcharged₂ _ x hx
      have hrem : x.remaining = qty - traded ts := hrem
      obtain ⟨-, hconclude, hresult⟩ := concludeAdd_roster h₂ ht₂ (Nat.lt_succ_self _) type
        { id := b.orderIdSeq + 1, accepted := true, fills := ts }
      rw [heq] at hconclude hresult
      refine .inr ⟨ts, b₂.roster, _, hqty, hfills, roster_entry ht₂, ?_, hconclude, hresult⟩
      rw [OrderBook.tradable, if_neg (by rw [not_or, not_or, not_or]; exact
        ⟨Int.not_le.mpr hqty, hprice, hfree, hfok⟩)]
      omega

end NanoVault.Book
