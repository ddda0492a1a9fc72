/-
What the links of a book keep to in every run.

`Represents` is lost once an order that rests nowhere is taken out of a level. `Linkage` is
not: whatever the levels say, a link leads to a younger or older order of the same side and
price or to none that is registered, a successor knows its predecessor, and the head of a
level has no predecessor. Ends and links are ids up to `n`, so that an order with a later
id is in no queue.
-/
import NanoVault.Book.Resting

namespace NanoVault.Book

open Lib OrderBook

structure Linkage (n : OrderId) (b : OrderBook) : Prop where
  registry : Registry b
  next : ∀ {i o}, b.lookup i = some o → o.next = 0 ∨ i < o.next ∧ o.next ≤ n
  prev : ∀ {i o}, b.lookup i = some o → o.prev < i ∧ o.prev ≤ n
  ends : ∀ {s p lvl}, (b.ladder s).find? p = some lvl → lvl.head ≤ n ∧ lvl.tail ≤ n
  follow : ∀ {i o x}, b.lookup i = some o → b.lookup o.next = some x →
    x.prev = i ∧ x.side = o.side ∧ x.price = o.price
  precede : ∀ {i o x}, b.lookup i = some o → b.lookup o.prev = some x →
    x.side = o.side ∧ x.price = o.price
  head : ∀ {s p lvl x}, (b.ladder s).find? p = some lvl → b.lookup lvl.head = some x →
    x.prev = 0 ∧ x.side = s ∧ x.price = p
  tail : ∀ {s p lvl x}, (b.ladder s).find? p = some lvl → b.lookup lvl.tail = some x →
    x.side = s ∧ x.price = p

/-- The two orders stand at the same place and have the same links. -/
structure SamePlace (o o' : Order) : Prop where
  prev : o'.prev = o.prev
  next : o'.next = o.next
  side : o'.side = o.side
  price : o'.price = o.price

theorem SamePlace.refl (o : Order) : SamePlace o o := ⟨rfl, rfl, rfl, rfl⟩

variable {b b' : OrderBook} {n i t : OrderId} {o maker taker : Slot} {s : Side} {p : Price}

theorem lookup_zero (hb : Registry b) : b.lookup 0 = none := by
  rw [OrderBook.lookup, hb.orderMap_zero]
  rfl

namespace Linkage

theorem next_le (h : Linkage n b) {x : Order} (hx : b.lookup i = some x) : x.next ≤ n := by
  rcases h.next hx with hzero | ⟨-, hle⟩
  · rw [hzero]
    exact Nat.zero_le n
  · exact hle

theorem init : Linkage 0 {} :=
  ⟨Represents.init.registry, fun h => (by cases h), fun h => (by cases h),
    fun {s _ _} h => (by cases s <;> cases h), fun h => (by cases h), fun h => (by cases h),
    fun {s _ _ _} h => (by cases s <;> cases h), fun {s _ _ _} h => (by cases s <;> cases h)⟩

/-- Orders may be unregistered and levels dropped, as long as the others stay in place. -/
theorem mono (h : Linkage n b) (hb' : Registry b')
    (horders : ∀ {i o'}, b'.lookup i = some o' → ∃ o, b.lookup i = some o ∧ SamePlace o o')
    (hlevels : ∀ {s p lvl'}, (b'.ladder s).find? p = some lvl' →
      ∃ lvl, (b.ladder s).find? p = some lvl ∧ lvl'.head = lvl.head ∧ lvl'.tail = lvl.tail) :
    Linkage n b' := by
  refine ⟨hb', fun hi => ?_, fun hi => ?_, fun hp => ?_, fun hi hx => ?_, fun hi hx => ?_,
    fun hp hx => ?_, fun hp hx => ?_⟩
  · obtain ⟨o, ho, hsame⟩ := horders hi
    rw [hsame.next]
    exact h.next ho
  · obtain ⟨o, ho, hsame⟩ := horders hi
    rw [hsame.prev]
    exact h.prev ho
  · obtain ⟨lvl, hlvl, hhead, htail⟩ := hlevels hp
    rw [hhead, htail]
    exact h.ends hlvl
  · obtain ⟨o, ho, hsame⟩ := horders hi
    obtain ⟨x, hx', hsame'⟩ := horders hx
    rw [hsame.next] at hx'
    rw [hsame'.prev, hsame'.side, hsame'.price, hsame.side, hsame.price]
    exact h.follow ho hx'
  · obtain ⟨o, ho, hsame⟩ := horders hi
    obtain ⟨x, hx', hsame'⟩ := horders hx
    rw [hsame.prev] at hx'
    rw [hsame'.side, hsame'.price, hsame.side, hsame.price]
    exact h.precede ho hx'
  · obtain ⟨lvl, hlvl, hhead, -⟩ := hlevels hp
    obtain ⟨x, hx', hsame'⟩ := horders hx
    rw [hhead] at hx'
    rw [hsame'.prev, hsame'.side, hsame'.price]
    exact h.head hlvl hx'
  · obtain ⟨lvl, hlvl, -, htail⟩ := hlevels hp
    obtain ⟨x, hx', hsame'⟩ := horders hx
    rw [htail] at hx'
    rw [hsame'.side, hsame'.price]
    exact h.tail hlvl hx'

/-- More ids may be linked to. -/
theorem weaken (h : Linkage n b) {m : OrderId} (hm : n ≤ m) : Linkage m b :=
  ⟨h.registry, fun hi => (h.next hi).imp_right fun hn => ⟨hn.1, Nat.le_trans hn.2 hm⟩,
    fun hi => ⟨(h.prev hi).1, Nat.le_trans (h.prev hi).2 hm⟩,
    fun hp => ⟨Nat.le_trans (h.ends hp).1 hm, Nat.le_trans (h.ends hp).2 hm⟩,
    h.follow, h.precede, h.head, h.tail⟩

/-- The queues are not read: pool, counters, statistics and log may change. -/
theorem congr (h : Linkage n b) (hb' : Registry b') (hlookup : b'.lookup = b.lookup)
    (hladder : b'.ladder = b.ladder) : Linkage n b' :=
  h.mono hb' (fun hi => ⟨_, hlookup ▸ hi, .refl _⟩) fun hp => ⟨_, hladder ▸ hp, rfl, rfl⟩

/-- A write through a slot that leaves the order in its place. -/
theorem write (h : Linkage n b) (hi : b.orderMap i = some o) {f : Order → Order}
    (hid : ∀ x, (f x).id = x.id) (hf : ∀ x, SamePlace x (f x)) : Linkage n (b.write o f) := by
  refine h.mono ((SameRegistry.write b o hid).registry h.registry) (fun {j x'} hj => ?_)
    fun hp => ⟨_, hp, rfl, rfl⟩
  rw [lookup_write h.registry hi] at hj
  split at hj
  · next heq =>
      obtain ⟨x, hx, rfl⟩ := Option.map_eq_some_iff.mp hj
      exact ⟨x, heq ▸ hx, hf x⟩
  · exact ⟨x', hj, .refl x'⟩

theorem retire (h : Linkage n b) (hretired : Retired b b' i o) (hi : b.orderMap i = some o) :
    Linkage n b' := by
  refine h.mono (hretired.registry h.registry hi) (fun {j x} hj => ?_) fun hp => ?_
  · rw [hretired.lookup h.registry hi] at hj
    split at hj
    · cases hj
    · exact ⟨x, hj, .refl x⟩
  · rw [hretired.ladder] at hp
    exact ⟨_, hp, rfl, rfl⟩

end Linkage

/-! ### Taking an order off its level -/

/-- The order under `j`, after one with the neighbours `before` and `behind` has been taken
out. -/
def Order.relinked (before behind j : OrderId) (x : Order) : Order :=
  { x with
    next := if j = before then behind else x.next
    prev := if j = behind then before else x.prev }

theorem Order.relinked_next (before behind j : OrderId) (x : Order) :
    (x.relinked before behind j).next = if j = before then behind else x.next := rfl

theorem Order.relinked_prev (before behind j : OrderId) (x : Order) :
    (x.relinked before behind j).prev = if j = behind then before else x.prev := rfl

@[simp] theorem Order.relinked_side (before behind j : OrderId) (x : Order) :
    (x.relinked before behind j).side = x.side := rfl

@[simp] theorem Order.relinked_price (before behind j : OrderId) (x : Order) :
    (x.relinked before behind j).price = x.price := rfl

theorem Linkage.prev_ne (h : Linkage n b) (hi : b.orderMap i = some o) : (b.order o).prev ≠ i :=
  Nat.ne_of_lt (h.prev (lookup_of_orderMap hi)).1

theorem lookup_levelRemoveOrderLinks (h : Linkage n b) (hi : b.orderMap i = some o)
    (lvl : PriceLevel) (j : OrderId) :
    (b.levelRemoveOrderLinks lvl o).1.lookup j =
      (b.lookup j).map (Order.relinked (b.order o).prev (b.order o).next j) := by
  have hb := h.registry
  have hb₁ : Registry (b.writeId (b.order o).prev (Order.setNext (b.order o).next)) :=
    (SameRegistry.writeId b _ (f := Order.setNext _) fun _ => rfl).registry hb
  rw [levelRemoveOrderLinks_eq hb hi (h.prev_ne hi)]
  show ((b.writeId _ _).writeId _ _).lookup j = _
  rw [lookup_writeId hb₁, lookup_writeId hb, lookup_writeId hb]
  by_cases hnext : j = (b.order o).next <;> by_cases hprev : j = (b.order o).prev
  · have hzero : j = 0 := by
      rcases h.next (lookup_of_orderMap hi) with hz | ⟨hlt, -⟩
      · exact hnext.trans hz
      · have hlt' := (h.prev (lookup_of_orderMap hi)).1
        exact absurd (hprev.symm.trans hnext) (Nat.ne_of_lt (Nat.lt_trans hlt' hlt))
    rw [← hnext, ← hprev, hzero, lookup_zero hb]
    rfl
  · have hne : (b.order o).next ≠ (b.order o).prev := fun heq => hprev (hnext.trans heq)
    rw [if_pos hnext, if_neg hne, ← hnext]
    refine congrArg (Option.map · _) (funext fun x => ?_)
    simp only [Order.relinked, Order.setPrev, if_neg hprev, if_true]
  · rw [if_neg hnext, if_pos hprev, ← hprev]
    refine congrArg (Option.map · _) (funext fun x => ?_)
    simp only [Order.relinked, Order.setNext, if_neg hnext, if_true]
  · rw [if_neg hnext, if_neg hprev]
    have hself : Order.relinked (b.order o).prev (b.order o).next j = id := funext fun x => by
      simp only [Order.relinked, if_neg hnext, if_neg hprev, id]
    rw [hself, Option.map_id]
    rfl

section Relinked

variable {x w v : Order} {j : OrderId}

/-- With `x` out, a link to the front still leads to a later id. -/
theorem Linkage.relinked_forward (h : Linkage n b) (hx : b.lookup i = some x)
    (hw : b.lookup j = some w) :
    (w.relinked x.prev x.next j).next = 0 ∨
      j < (w.relinked x.prev x.next j).next ∧ (w.relinked x.prev x.next j).next ≤ n := by
  rw [Order.relinked_next]
  split
  · next hjp =>
      rcases h.next hx with hzero | ⟨hlt, hle⟩
      · exact .inl hzero
      · exact .inr ⟨Nat.lt_trans (hjp ▸ (h.prev hx).1) hlt, hle⟩
  · exact h.next hw

/-- With `x` out, a link to the back still leads to an earlier id. -/
theorem Linkage.relinked_back (h : Linkage n b) (hx : b.lookup i = some x)
    (hw : b.lookup j = some w) :
    (w.relinked x.prev x.next j).prev < j ∧ (w.relinked x.prev x.next j).prev ≤ n := by
  rw [Order.relinked_prev]
  split
  · next hjn =>
      rcases h.next hx with hzero | ⟨hlt, -⟩
      · rw [hjn, hzero, lookup_zero h.registry] at hw
        cases hw
      · exact ⟨Nat.lt_trans (h.prev hx).1 (hjn ▸ hlt), (h.prev hx).2⟩
  · exact h.prev hw

/-- With `x` out, the order behind `j` still names `j` as the one before it. -/
theorem Linkage.relinked_follow (h : Linkage n b) (hx : b.lookup i = some x)
    (hw : b.lookup j = some w) (hji : j ≠ i)
    (hv : b.lookup (w.relinked x.prev x.next j).next = some v) :
    (v.relinked x.prev x.next (w.relinked x.prev x.next j).next).prev = j ∧
      v.side = w.side ∧ v.price = w.price := by
  rw [Order.relinked_prev]
  rw [Order.relinked_next] at hv ⊢
  by_cases hjp : j = x.prev
  · rw [if_pos hjp] at hv ⊢
    obtain ⟨-, hvside, hvprice⟩ := h.follow hx hv
    obtain ⟨hwside, hwprice⟩ := h.precede hx (hjp ▸ hw)
    rw [if_pos rfl]
    exact ⟨hjp.symm, hvside.trans hwside.symm, hvprice.trans hwprice.symm⟩
  · rw [if_neg hjp] at hv ⊢
    -- Only `i` is followed by its successor.
    have hne : w.next ≠ x.next := fun heq =>
      hji ((h.follow hw hv).1.symm.trans (h.follow hx (heq ▸ hv)).1)
    rw [if_neg hne]
    exact h.follow hw hv

/-- With `x` out, the order before `j` still stands at its side and price. -/
theorem Linkage.relinked_precede (h : Linkage n b) (hx : b.lookup i = some x)
    (hw : b.lookup j = some w) (hv : b.lookup (w.relinked x.prev x.next j).prev = some v) :
    v.side = w.side ∧ v.price = w.price := by
  rw [Order.relinked_prev] at hv
  by_cases hjn : j = x.next
  · rw [if_pos hjn] at hv
    obtain ⟨hvside, hvprice⟩ := h.precede hx hv
    obtain ⟨-, hwside, hwprice⟩ := h.follow hx (hjn ▸ hw)
    exact ⟨hvside.trans hwside.symm, hvprice.trans hwprice.symm⟩
  · rw [if_neg hjn] at hv
    exact h.precede hw hv

/-- The head of a level stays the head when another order is taken out. -/
theorem Linkage.relinked_head (h : Linkage n b) (hx : b.lookup i = some x) {lvl : PriceLevel}
    (hlvl : (b.ladder s).find? p = some lvl) (hv : b.lookup lvl.head = some v) :
    (v.relinked x.prev x.next lvl.head).prev = 0 ∧ v.side = s ∧ v.price = p := by
  obtain ⟨hvprev, hvside, hvprice⟩ := h.head hlvl hv
  have hipos : i ≠ 0 := Nat.ne_of_gt (h.registry.named hx).2.1
  have hne : lvl.head ≠ x.next := fun hn =>
    hipos ((h.follow hx (hn ▸ hv)).1.symm.trans hvprev)
  rw [Order.relinked_prev, if_neg hne]
  exact ⟨hvprev, hvside, hvprice⟩

end Relinked

/-- An order leaves, and its neighbours and level are linked past it. -/
theorem Linkage.leave (h : Linkage n b) {x : Order} (hx : b.lookup i = some x)
    (hb' : Registry b')
    (horders : ∀ {j y}, b'.lookup j = some y →
      j ≠ i ∧ ∃ w, b.lookup j = some w ∧ SamePlace (w.relinked x.prev x.next j) y)
    (hlevels : ∀ {s p lvl'}, (b'.ladder s).find? p = some lvl' →
      ∃ lvl, (b.ladder s).find? p = some lvl ∧
        (lvl'.head = lvl.head ∨ x.prev = 0 ∧ s = x.side ∧ p = x.price ∧ lvl'.head = x.next) ∧
        (lvl'.tail = lvl.tail ∨ s = x.side ∧ p = x.price ∧ lvl'.tail = x.prev)) :
    Linkage n b' := by
  refine ⟨hb', fun {j y} hj => ?_, fun {j y} hj => ?_, fun hp => ?_, fun {j y z} hj hz => ?_,
    fun {j y z} hj hz => ?_, fun {s p lvl' z} hp hz => ?_, fun {s p lvl' z} hp hz => ?_⟩
  · obtain ⟨-, w, hw, hsame⟩ := horders hj
    rw [hsame.next]
    exact h.relinked_forward hx hw
  · obtain ⟨-, w, hw, hsame⟩ := horders hj
    rw [hsame.prev]
    exact h.relinked_back hx hw
  · obtain ⟨lvl, hlvl, hhead, htail⟩ := hlevels hp
    obtain ⟨hheadn, htailn⟩ := h.ends hlvl
    constructor
    · rcases hhead with heq | ⟨-, -, -, heq⟩
      · rwa [heq]
      · rw [heq]
        exact h.next_le hx
    · rcases htail with heq | ⟨-, -, heq⟩
      · rwa [heq]
      · rw [heq]
        exact (h.prev hx).2
  · obtain ⟨hji, w, hw, hsame⟩ := horders hj
    obtain ⟨-, v, hv, hsame'⟩ := horders hz
    rw [hsame.next] at hv hsame'
    rw [hsame'.prev, hsame'.side, hsame'.price, hsame.side, hsame.price]
    exact h.relinked_follow hx hw hji hv
  · obtain ⟨-, w, hw, hsame⟩ := horders hj
    obtain ⟨-, v, hv, hsame'⟩ := horders hz
    rw [hsame.prev] at hv
    rw [hsame'.side, hsame'.price, hsame.side, hsame.price]
    simp only [Order.relinked_side, Order.relinked_price]
    exact h.relinked_precede hx hw hv
  · obtain ⟨lvl, hlvl, hhead, -⟩ := hlevels hp
    obtain ⟨-, v, hv, hsame⟩ := horders hz
    rw [hsame.prev, hsame.side, hsame.price]
    rcases hhead with heq | ⟨hzero, rfl, rfl, heq⟩
    · rw [heq] at hv ⊢
      exact h.relinked_head hx hlvl hv
    · rw [heq] at hv ⊢
      rw [Order.relinked_prev, if_pos rfl]
      exact ⟨hzero, (h.follow hx hv).2⟩
  · obtain ⟨lvl, hlvl, -, htail⟩ := hlevels hp
    obtain ⟨-, v, hv, hsame⟩ := horders hz
    rw [hsame.side, hsame.price]
    simp only [Order.relinked_side, Order.relinked_price]
    rcases htail with heq | ⟨rfl, rfl, heq⟩
    · exact h.tail hlvl (heq ▸ hv)
    · exact h.precede hx (heq ▸ hv)

/-- An order that is taken off its level and then retired. -/
theorem Linkage.depart (h : Linkage n b) (hi : b.orderMap i = some o)
    (hside : (b.order o).side = s) {amount : Int}
    (hretired : Retired (b.reduceLevel s o amount true) b' i o) : Linkage n b' := by
  cases hfind : (b.ladder s).find? (b.order o).price with
  | none =>
      have hsame : b.reduceLevel s o amount true = b := by simp only [reduceLevel, hfind]
      rw [hsame] at hretired
      exact h.retire hretired hi
  | some lvl =>
      have ho := lookup_of_orderMap hi
      set lvl₁ : PriceLevel := { lvl with totalQty := wrap64 (lvl.totalQty - amount) } with hlvl₁
      have hlookup := lookup_levelRemoveOrderLinks h hi lvl₁
      have hr : b.levelRemoveOrderLinks lvl₁ o = _ :=
        levelRemoveOrderLinks_eq h.registry hi (h.prev_ne hi)
      have hregistry : SameRegistry b (b.levelRemoveOrderLinks lvl₁ o).1 := by
        rw [hr]
        exact (SameRegistry.writeId b _ (f := Order.setNext _) fun _ => rfl).trans
          (SameRegistry.writeId _ _ (f := Order.setPrev _) fun _ => rfl)
      have hladder : (b.levelRemoveOrderLinks lvl₁ o).1.ladder = b.ladder := by
        rw [hr]
        simp
      have hlevel : (b.levelRemoveOrderLinks lvl₁ o).2.head =
            (if (b.order o).prev ≠ 0 then lvl.head else (b.order o).next) ∧
          (b.levelRemoveOrderLinks lvl₁ o).2.tail =
            if (b.order o).next ≠ 0 then lvl.tail else (b.order o).prev := by
        rw [hr]
        exact ⟨rfl, rfl⟩
      -- The level goes with its last order and is written back otherwise.
      have hreduce : ∃ l, b.reduceLevel s o amount true =
          (b.levelRemoveOrderLinks lvl₁ o).1.setLadder s l ∧
            ∀ {p lvl'}, l.find? p = some lvl' → p = (b.order o).price ∧
              lvl' = (b.levelRemoveOrderLinks lvl₁ o).2 ∨ (b.ladder s).find? p = some lvl' := by
        simp only [reduceLevel, hfind, if_true]
        rw [← hlvl₁, hladder]
        split
        · refine ⟨_, rfl, fun {p lvl'} hp => ?_⟩
          rw [SortedMap.find?_erase] at hp
          split at hp
          · cases hp
          · exact .inr hp
        · refine ⟨_, rfl, fun {p lvl'} hp => ?_⟩
          rw [SortedMap.find?_insert] at hp
          split at hp
          · next heq => exact .inl ⟨heq.symm, (Option.some.inj hp).symm⟩
          · exact .inr hp
      obtain ⟨l, hreduce, hl⟩ := hreduce
      rw [hreduce] at hretired
      generalize b.levelRemoveOrderLinks lvl₁ o = r at hlookup hregistry hladder hlevel hl hretired
      have hset := SameRegistry.setLadder r.1 s l
      have hi' : (r.1.setLadder s l).orderMap i = some o := by
        rw [hset.orderMap, hregistry.orderMap]
        exact hi
      have hreg := hset.registry (hregistry.registry h.registry)
      refine h.leave ho (hretired.registry hreg hi') (fun {j y} hj => ?_) fun {s' p lvl'} hp => ?_
      · rw [hretired.lookup hreg hi'] at hj
        split at hj
        · cases hj
        · next hji =>
            rw [lookup_setLadder, hlookup] at hj
            obtain ⟨w, hw, rfl⟩ := Option.map_eq_some_iff.mp hj
            exact ⟨hji, w, hw, .refl _⟩
      · rw [hretired.ladder] at hp
        by_cases hs : s' = s
        · subst hs
          rw [ladder_setLadder_self] at hp
          rcases hl hp with ⟨rfl, rfl⟩ | hp
          · refine ⟨lvl, hfind, ?_, ?_⟩
            · rw [hlevel.1]
              split
              · exact .inl rfl
              · next hzero => exact .inr ⟨not_not.mp hzero, hside.symm, rfl, rfl⟩
            · rw [hlevel.2]
              split
              · exact .inl rfl
              · exact .inr ⟨hside.symm, rfl, rfl⟩
          · exact ⟨lvl', hp, .inl rfl, .inl rfl⟩
        · rw [ladder_setLadder_ne _ _ hs, hladder] at hp
          exact ⟨lvl', hp, .inl rfl, .inl rfl⟩

/-- Lowering a level's total leaves the links alone. -/
theorem Linkage.lower (h : Linkage n b) (s : Side) (o : Slot) (amount : Int) :
    Linkage n (b.reduceLevel s o amount false) := by
  cases hfind : (b.ladder s).find? (b.order o).price with
  | none =>
      have hsame : b.reduceLevel s o amount false = b := by simp only [reduceLevel, hfind]
      rwa [hsame]
  | some lvl =>
      simp only [reduceLevel, hfind, Bool.false_eq_true, if_false]
      refine h.mono ((SameRegistry.setLadder _ _ _).registry h.registry)
        (fun {j x} hj => ⟨x, by rwa [lookup_setLadder] at hj, .refl x⟩) fun {s' p lvl'} hp => ?_
      by_cases hs : s' = s
      · subst hs
        rw [ladder_setLadder_self, SortedMap.find?_insert] at hp
        split at hp
        · next heq =>
            obtain rfl := Option.some.inj hp
            exact ⟨lvl, heq ▸ hfind, rfl, rfl⟩
        · exact ⟨lvl', hp, rfl, rfl⟩
      · rw [ladder_setLadder_ne _ _ hs] at hp
        exact ⟨lvl', hp, rfl, rfl⟩

/-! ### Entering and resting an order -/

/-- A new order is registered outside the queues. -/
theorem Linkage.enrolled (h : Linkage n b) (hn : n ≤ b.orderIdSeq)
    {pool : MemoryPool Order maxOrders} (halloc : b.orderPool.allocate = some (o, pool)) {x : Order}
    (hx : x.id = b.orderIdSeq + 1) (hprev : x.prev = 0) (hnext : x.next = 0) :
    Linkage n ((b.placeOrder pool o x).enroll x.id o) := by
  obtain ⟨hregistry, hmap, horder, hlookup⟩ := h.registry.enrolled halloc hx
  have hself : ((b.placeOrder pool o x).enroll x.id o).lookup x.id = some x := by
    rw [lookup_of_orderMap hmap, horder]
  have hold : ∀ {j y}, j ≤ n → ((b.placeOrder pool o x).enroll x.id o).lookup j = some y →
      b.lookup j = some y := fun {j y} hj hy => by
    have hne : j ≠ x.id := fun heq => by
      rw [heq, hx] at hj
      exact absurd (Nat.le_trans hj hn) (Nat.not_succ_le_self _)
    rwa [hlookup j hne] at hy
  have hcases : ∀ {j y}, ((b.placeOrder pool o x).enroll x.id o).lookup j = some y →
      b.lookup j = some y ∨ 0 < j ∧ y.prev = 0 ∧ y.next = 0 := fun {j y} hy => by
    by_cases hj : j = x.id
    · rw [hj, hself, Option.some.injEq] at hy
      subst hy
      exact .inr ⟨by rw [hj, hx]; exact Nat.succ_pos _, hprev, hnext⟩
    · rw [hlookup j hj] at hy
      exact .inl hy
  have hnone : ∀ {z}, ((b.placeOrder pool o x).enroll x.id o).lookup 0 ≠ some z := fun {z} hz => by
    rw [lookup_zero hregistry] at hz
    cases hz
  refine ⟨hregistry, fun hj => ?_, fun hj => ?_, h.ends, fun hj hz => ?_, fun hj hz => ?_,
    fun hp hz => h.head hp (hold (h.ends hp).1 hz), fun hp hz => h.tail hp (hold (h.ends hp).2 hz)⟩
  · rcases hcases hj with hj | ⟨-, -, hzero⟩
    · exact h.next hj
    · exact .inl hzero
  · rcases hcases hj with hj | ⟨hpos, hzero, -⟩
    · exact h.prev hj
    · rw [hzero]
      exact ⟨hpos, Nat.zero_le n⟩
  · rcases hcases hj with hj | ⟨-, -, hzero⟩
    · rcases h.next hj with hzero | ⟨-, hle⟩
      · exact absurd (hzero ▸ hz) hnone
      · exact h.follow hj (hold hle hz)
    · exact absurd (hzero ▸ hz) hnone
  · rcases hcases hj with hj | ⟨-, hzero, -⟩
    · exact h.precede hj (hold (h.prev hj).2 hz)
    · exact absurd (hzero ▸ hz) hnone

/-- The order under `j`, after the order `i` has been put behind `tail`. -/
def Order.relinkedLast (i tail j : OrderId) (x : Order) : Order :=
  { x with
    prev := if j = i then tail else x.prev
    next := if j = tail then i else if j = i then 0 else x.next }

theorem Order.relinkedLast_prev (i tail j : OrderId) (x : Order) :
    (x.relinkedLast i tail j).prev = if j = i then tail else x.prev := rfl

theorem Order.relinkedLast_next (i tail j : OrderId) (x : Order) :
    (x.relinkedLast i tail j).next = if j = tail then i else if j = i then 0 else x.next := rfl

@[simp] theorem Order.relinkedLast_side (i tail j : OrderId) (x : Order) :
    (x.relinkedLast i tail j).side = x.side := rfl

@[simp] theorem Order.relinkedLast_price (i tail j : OrderId) (x : Order) :
    (x.relinkedLast i tail j).price = x.price := rfl

theorem lookup_linkLast (hb : Registry b) {tail : OrderId} (hne : tail ≠ i) (j : OrderId) :
    (linkLast b i tail).lookup j = (b.lookup j).map (Order.relinkedLast i tail j) := by
  have hb₁ : Registry (b.writeId i (Order.setPrev tail)) :=
    (SameRegistry.writeId b _ (f := Order.setPrev _) fun _ => rfl).registry hb
  have hb₂ : Registry ((b.writeId i (Order.setPrev tail)).writeId i (Order.setNext 0)) :=
    (SameRegistry.writeId _ _ (f := Order.setNext _) fun _ => rfl).registry hb₁
  rw [linkLast, lookup_writeId hb₂]
  simp only [lookup_writeId hb₁, lookup_writeId hb]
  by_cases hjt : j = tail
  · rw [if_pos hjt, if_neg hne, if_neg hne, hjt]
    refine congrArg (Option.map · _) (funext fun x => ?_)
    simp only [Order.relinkedLast, Order.setNext, if_true, if_neg hne]
  · rw [if_neg hjt]
    by_cases hji : j = i
    · rw [if_pos hji, if_pos trivial, hji, Option.map_map]
      refine congrArg (Option.map · _) (funext fun x => ?_)
      simp only [Order.relinkedLast, Order.setNext, Order.setPrev, Function.comp_apply, if_true,
        if_neg (Ne.symm hne)]
    · rw [if_neg hji, if_neg hji]
      have hself : Order.relinkedLast i tail j = id := funext fun x => by
        simp only [Order.relinkedLast, if_neg hjt, if_neg hji, id]
      rw [hself, Option.map_id]
      rfl

/-- With `i` behind `tail`, the order behind `j` names `j` as the one before it. -/
theorem Linkage.relinkedLast_follow (h : Linkage n b) {x w v : Order} {j tail : OrderId}
    (hx : b.lookup i = some x) (hn : n < i)
    (hlast : ∀ {z}, b.lookup tail = some z → z.side = x.side ∧ z.price = x.price)
    (hw : b.lookup j = some w) (hv : b.lookup (w.relinkedLast i tail j).next = some v) :
    (v.relinkedLast i tail (w.relinkedLast i tail j).next).prev = j ∧
      v.side = w.side ∧ v.price = w.price := by
  have hzero : b.lookup 0 = none := lookup_zero h.registry
  rw [Order.relinkedLast_prev]
  rw [Order.relinkedLast_next] at hv ⊢
  by_cases hjt : j = tail
  · rw [if_pos hjt] at hv ⊢
    obtain rfl := Option.some.inj (hv.symm.trans hx)
    obtain ⟨hside, hprice⟩ := hlast (hjt ▸ hw)
    rw [if_pos rfl]
    exact ⟨hjt.symm, hside.symm, hprice.symm⟩
  · rw [if_neg hjt] at hv ⊢
    by_cases hji : j = i
    · rw [if_pos hji, hzero] at hv
      cases hv
    · rw [if_neg hji] at hv ⊢
      -- An older link leads to ids up to `n`, hence not to `i`.
      have hne : w.next ≠ i := by
        rcases h.next hw with hz | ⟨-, hle⟩
        · rw [hz, hzero] at hv
          cases hv
        · exact Nat.ne_of_lt (Nat.lt_of_le_of_lt hle hn)
      rw [if_neg hne]
      exact h.follow hw hv

/-- The order with the latest id is put behind the last one of its side and price. -/
theorem Linkage.arrive (h : Linkage n b) {x : Order} (hx : b.lookup i = some x) (hn : n < i)
    (hb' : Registry b') {tail : OrderId} (htail : tail ≤ n)
    (hlast : ∀ {z}, b.lookup tail = some z → z.side = x.side ∧ z.price = x.price)
    (horders : ∀ {j y}, b'.lookup j = some y →
      ∃ w, b.lookup j = some w ∧ w.relinkedLast i tail j = y)
    (hlevels : ∀ {s p lvl'}, (b'.ladder s).find? p = some lvl' →
      (b.ladder s).find? p = some lvl' ∨ s = x.side ∧ p = x.price ∧ lvl'.tail = i ∧
        (tail = 0 ∧ lvl'.head = i ∨
          ∃ lvl, (b.ladder s).find? p = some lvl ∧ lvl'.head = lvl.head)) :
    Linkage i b' := by
  have hni : n ≤ i := Nat.le_of_lt hn
  have hold : ∀ {j}, j ≤ n → j ≠ i := fun hj => Nat.ne_of_lt (Nat.lt_of_le_of_lt hj hn)
  have hself : ∀ {w}, b.lookup i = some w → w = x := fun hw => Option.some.inj (hw.symm.trans hx)
  refine ⟨hb', fun {j y} hj => ?_, fun {j y} hj => ?_, fun hp => ?_, fun {j y z} hj hz => ?_,
    fun {j y z} hj hz => ?_, fun {s p lvl' z} hp hz => ?_, fun {s p lvl' z} hp hz => ?_⟩
  · obtain ⟨w, hw, rfl⟩ := horders hj
    rw [Order.relinkedLast_next]
    split_ifs with hjt hji
    · exact .inr ⟨by rw [hjt]; exact Nat.lt_of_le_of_lt htail hn, Nat.le_refl i⟩
    · exact .inl rfl
    · exact (h.next hw).imp_right fun hnext => ⟨hnext.1, Nat.le_trans hnext.2 hni⟩
  · obtain ⟨w, hw, rfl⟩ := horders hj
    rw [Order.relinkedLast_prev]
    split_ifs with hji
    · exact ⟨by rw [hji]; exact Nat.lt_of_le_of_lt htail hn, Nat.le_trans htail hni⟩
    · exact ⟨(h.prev hw).1, Nat.le_trans (h.prev hw).2 hni⟩
  · rcases hlevels hp with hp | ⟨-, -, htl, ⟨-, hhd⟩ | ⟨lvl, hlvl, hhd⟩⟩
    · exact ⟨Nat.le_trans (h.ends hp).1 hni, Nat.le_trans (h.ends hp).2 hni⟩
    · exact ⟨Nat.le_of_eq hhd, Nat.le_of_eq htl⟩
    · exact ⟨by rw [hhd]; exact Nat.le_trans (h.ends hlvl).1 hni, Nat.le_of_eq htl⟩
  · obtain ⟨w, hw, rfl⟩ := horders hj
    obtain ⟨v, hv, rfl⟩ := horders hz
    simp only [Order.relinkedLast_side, Order.relinkedLast_price]
    exact h.relinkedLast_follow hx hn hlast hw hv
  · obtain ⟨w, hw, rfl⟩ := horders hj
    obtain ⟨v, hv, rfl⟩ := horders hz
    simp only [Order.relinkedLast_side, Order.relinkedLast_price]
    rw [Order.relinkedLast_prev] at hv
    by_cases hji : j = i
    · rw [if_pos hji] at hv
      obtain rfl := hself (hji ▸ hw)
      exact hlast hv
    · rw [if_neg hji] at hv
      exact h.precede hw hv
  · obtain ⟨v, hv, rfl⟩ := horders hz
    rw [Order.relinkedLast_prev]
    simp only [Order.relinkedLast_side, Order.relinkedLast_price]
    rcases hlevels hp with hp | ⟨rfl, rfl, -, ⟨ht, hhd⟩ | ⟨lvl, hlvl, hhd⟩⟩
    · rw [if_neg (hold (h.ends hp).1)]
      exact h.head hp hv
    · rw [hhd] at hv ⊢
      obtain rfl := hself hv
      rw [if_pos rfl]
      exact ⟨ht, rfl, rfl⟩
    · rw [hhd] at hv ⊢
      rw [if_neg (hold (h.ends hlvl).1)]
      exact h.head hlvl hv
  · obtain ⟨v, hv, rfl⟩ := horders hz
    simp only [Order.relinkedLast_side, Order.relinkedLast_price]
    rcases hlevels hp with hp | ⟨rfl, rfl, htl, -⟩
    · exact h.tail hp hv
    · obtain rfl := hself (htl ▸ hv)
      exact ⟨rfl, rfl⟩

theorem Linkage.rest (h : Linkage n b) (hi : b.orderMap i = some o) (hn : n < i) :
    Linkage i (b.restOrder o) := by
  have hb := h.registry
  set lvl : PriceLevel :=
    { ((b.ladder (b.order o).side).find? (b.order o).price).getD {} with
      price := (b.order o).price } with hlvl
  have hold : lvl.head = 0 ∧ lvl.tail = 0 ∨
      ∃ l, (b.ladder (b.order o).side).find? (b.order o).price = some l ∧ lvl.head = l.head ∧
        lvl.tail = l.tail := by
    rw [hlvl]
    cases hf : (b.ladder (b.order o).side).find? (b.order o).price with
    | none => exact .inl ⟨rfl, rfl⟩
    | some l => exact .inr ⟨l, rfl, rfl, rfl⟩
  have htail : lvl.tail ≤ n := by
    rcases hold with ⟨-, htail⟩ | ⟨l, hf, -, htail⟩
    · rw [htail]
      exact Nat.zero_le n
    · rw [htail]
      exact (h.ends hf).2
  have hlast : ∀ {z}, b.lookup lvl.tail = some z →
      z.side = (b.order o).side ∧ z.price = (b.order o).price := by
    intro z hz
    rcases hold with ⟨-, htail⟩ | ⟨l, hf, -, htail⟩
    · rw [htail, lookup_zero hb] at hz
      cases hz
    · exact h.tail hf (htail ▸ hz)
  have hne : lvl.tail ≠ i := Nat.ne_of_lt (Nat.lt_of_le_of_lt htail hn)
  have hladder : (linkLast b i lvl.tail).ladder = b.ladder := by simp [linkLast]
  have hsame : SameButLinks b (linkLast b i lvl.tail) (i :: [lvl.tail]) :=
    linkLast_same hb fun _ => List.mem_singleton.mpr rfl
  have hregistry := hsame.registry hb
  have hlookup := lookup_linkLast (b := b) hb hne
  have hrest : b.restOrder o = (b.levelAddOrder lvl o).1.setLadder (b.order o).side
      (((b.levelAddOrder lvl o).1.ladder (b.order o).side).insert (b.order o).price
        (b.levelAddOrder lvl o).2) := rfl
  rw [hrest, levelAddOrder_eq hb hi]
  refine h.arrive (lookup_of_orderMap hi) hn ((SameRegistry.setLadder _ _ _).registry hregistry)
    htail hlast (fun {j y} hj => ?_) fun {s p lvl'} hp => ?_
  · rw [lookup_setLadder, hlookup] at hj
    exact Option.map_eq_some_iff.mp hj
  · by_cases hs : s = (b.order o).side
    · subst hs
      rw [ladder_setLadder_self, SortedMap.find?_insert] at hp
      split at hp
      · next heq =>
          obtain rfl := Option.some.inj hp
          refine .inr ⟨rfl, heq.symm, rfl, ?_⟩
          dsimp only
          split
          · next htl =>
              rcases hold with ⟨-, hzero⟩ | ⟨l, hf, hhead, -⟩
              · exact absurd hzero htl
              · exact .inr ⟨l, heq ▸ hf, hhead⟩
          · next htl => exact .inl ⟨not_not.mp htl, rfl⟩
      · rw [hladder] at hp
        exact .inl hp
    · rw [ladder_setLadder_ne _ _ hs, hladder] at hp
      exact .inl hp

end NanoVault.Book
