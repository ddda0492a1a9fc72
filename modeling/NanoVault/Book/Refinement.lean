/-
Single steps on a book that represents given queues.

Each step of the source changes the queues in one way or not at all: writing a resting
order's status (`Represents.write`), retiring an order that does not rest
(`Represents.retire`), taking an order out of its queue (`Represents.takeOut`), lowering
its quantity (`Represents.lower`) and putting one behind the last (`Represents.rest`).
`takeOut` and `lower` start from a book whose order `x` has already been written to, as
`fill_order` does it.
-/
import NanoVault.Book.LevelQueue

namespace NanoVault.Book

open Lib OrderBook

variable {b b' : OrderBook} {A : Queues} {s : Side} {p : Price}

namespace Represents

theorem allRest (h : Represents b A) (s : Side) (p : Price) : AllRest b s p (A s p) := by
  have hlevel := h.level s p
  unfold LevelRep at hlevel
  split at hlevel
  · rw [hlevel]
    exact fun x hx => absurd hx List.not_mem_nil
  · exact hlevel.resting

/-- What rests has something left. -/
theorem positive (h : Represents b A) {x : Resting} (hx : x ∈ A s p) : 0 < x.remaining := by
  obtain ⟨o, -, hrests⟩ := h.allRest s p x hx
  exact hrests.remaining ▸ hrests.positive

/-- An id rests in one queue only. -/
theorem unique (h : Represents b A) {s' : Side} {p' : Price} {i : OrderId} (hi : i ∈ ids (A s p))
    (hi' : i ∈ ids (A s' p')) : s' = s ∧ p' = p := by
  obtain ⟨x, hx, rfl⟩ := mem_ids.mp hi
  obtain ⟨y, hy, hid⟩ := mem_ids.mp hi'
  obtain ⟨o, ho, hrests⟩ := h.allRest s p x hx
  obtain ⟨o', ho', hrests'⟩ := h.allRest s' p' y hy
  rw [hid, ho, Option.some.injEq] at ho'
  subst ho'
  exact ⟨hrests'.side.symm.trans hrests.side, hrests'.price.symm.trans hrests.price⟩

/-- A queue with orders has a level. -/
theorem levelOk (h : Represents b A) (hq : A s p ≠ []) :
    ∃ lvl, (b.ladder s).find? p = some lvl ∧ LevelOk b s p lvl (A s p) := by
  have hlevel := h.level s p
  unfold LevelRep at hlevel
  split at hlevel
  · exact absurd hlevel hq
  · next lvl hfind => exact ⟨lvl, hfind, hlevel⟩

/-- A level that is there has orders. -/
theorem levelOk_of_find (h : Represents b A) {lvl : PriceLevel}
    (hfind : (b.ladder s).find? p = some lvl) : LevelOk b s p lvl (A s p) := by
  have hlevel := h.level s p
  rw [LevelRep, hfind] at hlevel
  exact hlevel

theorem find?_eq_none (h : Represents b A) : (b.ladder s).find? p = none ↔ A s p = [] := by
  constructor
  · intro hfind
    have hlevel := h.level s p
    rw [LevelRep, hfind] at hlevel
    exact hlevel
  · intro hq
    cases hfind : (b.ladder s).find? p with
    | none => rfl
    | some lvl => exact absurd hq (h.levelOk_of_find hfind).nonempty

end Represents

theorem LevelRep.congr {q : Queue} (h : LevelRep b s p q)
    (hfind : (b'.ladder s).find? p = (b.ladder s).find? p)
    (hq : ∀ i ∈ ids q, b'.lookup i = b.lookup i) : LevelRep b' s p q := by
  unfold LevelRep at h ⊢
  rw [hfind]
  cases hf : (b.ladder s).find? p with
  | none =>
      rw [hf] at h
      exact h
  | some lvl =>
      rw [hf] at h
      exact LevelOk.congr h fun x hx => hq x.id (mem_ids.mpr ⟨x, hx, rfl⟩)

/-- What a step that touches one queue has to show: the other levels and the orders in
other queues are as before. -/
theorem Represents.set (h : Represents b A) (hb' : Registry b') {q : Queue}
    (hlevel : LevelRep b' s p q)
    (hfind : ∀ s' p', ¬ (s' = s ∧ p' = p) → (b'.ladder s').find? p' = (b.ladder s').find? p')
    (hlookup : ∀ s' p', ¬ (s' = s ∧ p' = p) → ∀ i ∈ ids (A s' p'), b'.lookup i = b.lookup i) :
    Represents b' (A.set s p q) := by
  refine ⟨hb', fun s' p' => ?_⟩
  by_cases hsp : s' = s ∧ p' = p
  · obtain ⟨rfl, rfl⟩ := hsp
    rw [Queues.set_self]
    exact hlevel
  · rw [Queues.set_ne _ _ hsp]
    exact (h.level s' p').congr (hfind s' p' hsp) (hlookup s' p' hsp)

/-- What is not read by `Represents` may change. -/
theorem Represents.congr (h : Represents b A) (hb : SameRegistry b b')
    (hladder : b'.ladder = b.ladder) (hlookup : b'.lookup = b.lookup) : Represents b' A :=
  ⟨hb.registry h.registry, fun s p => (h.level s p).congr (by rw [hladder])
    fun _ _ => by rw [hlookup]⟩

/-- A write to one order that leaves its id, its links and what its queue says about it. -/
theorem Represents.write (h : Represents b A) {i : OrderId} {slot : Slot} {f : Order → Order}
    (hi : b.orderMap i = some slot) (hid : ∀ o, (f o).id = o.id) (hprev : ∀ o, (f o).prev = o.prev)
    (hnext : ∀ o, (f o).next = o.next)
    (hrests : ∀ s p x, x ∈ A s p → x.id = i → Rests (b.order slot) s p x →
      Rests (f (b.order slot)) s p x) : Represents (b.write slot f) A := by
  have hlookup := lookup_write (f := f) h.registry hi
  have hlinks : (b.write slot f).prevOf = b.prevOf ∧ (b.write slot f).nextOf = b.nextOf := by
    constructor <;> funext j <;> simp only [prevOf, nextOf, hlookup] <;> split
    all_goals try rfl
    all_goals
      next hj =>
        subst hj
        rw [lookup_of_orderMap hi]
        simp [hprev, hnext]
  refine ⟨(SameRegistry.write b slot hid).registry h.registry, fun s p => ?_⟩
  have hlevel := h.level s p
  unfold LevelRep at hlevel ⊢
  rw [ladder_write]
  split at hlevel
  · exact hlevel
  · obtain ⟨⟨hcount, hhead, htail, hlinked, hascending⟩, hne, hprice, htotal, hrest⟩ := hlevel
    refine ⟨⟨hcount, hhead, htail, ?_, hascending⟩, hne, hprice, htotal, fun x hx => ?_⟩
    · rw [hlinks.1, hlinks.2]
      exact hlinked
    · obtain ⟨o, ho, hro⟩ := hrest x hx
      rw [hlookup]
      by_cases hxi : x.id = i
      · rw [hxi, lookup_of_orderMap hi, Option.some.injEq] at ho
        subst ho
        rw [if_pos hxi, lookup_of_orderMap hi]
        exact ⟨_, rfl, hrests s p x hx hxi hro⟩
      · rw [if_neg hxi]
        exact ⟨o, ho, hro⟩

/-- The queues of a book without orders. -/
def Queues.empty : Queues := fun _ _ => []

/-- A book without ladders and registered orders holds no orders. -/
theorem Represents.of_empty (hladder : ∀ s p, (b.ladder s).find? p = none)
    (hmap : ∀ i, b.orderMap i = none) (hdistinct : b.orderPool.FreeDistinct) :
    Represents b Queues.empty := by
  refine ⟨⟨fun {i _ _} hi _ => ?_, fun {i _} hi => ?_, hdistinct, fun {i _} hi => ?_⟩,
    fun s p => ?_⟩
  · rw [hmap i] at hi
    cases hi
  · rw [hmap i] at hi
    cases hi
  · rw [OrderBook.lookup, hmap i] at hi
    cases hi
  · rw [LevelRep, hladder s p]
    rfl

theorem Represents.init : Represents {} Queues.empty :=
  .of_empty (fun s _ => by cases s <;> rfl) (fun _ => rfl) MemoryPool.freeDistinct_init

/-! ### Retiring an order -/

/-- `b'` is `b` with the order under id `i` unregistered and its slot given back. -/
structure Retired (b b' : OrderBook) (i : OrderId) (slot : Slot) : Prop where
  ladder : b'.ladder = b.ladder
  orderMap : b'.orderMap = Function.update b.orderMap i none
  freeList : b'.orderPool.freeList = (b.orderPool.deallocate slot).freeList
  freeTop : b'.orderPool.freeTop = (b.orderPool.deallocate slot).freeTop
  order : ∀ slot', slot' ≠ slot → b'.order slot' = b.order slot'
  orderIdSeq : b'.orderIdSeq = b.orderIdSeq

namespace Retired

variable {i : OrderId} {slot : Slot}

theorem lookup (h : Retired b b' i slot) (hb : Registry b) (hi : b.orderMap i = some slot)
    (j : OrderId) : b'.lookup j = if j = i then none else b.lookup j := by
  rw [OrderBook.lookup, h.orderMap]
  split
  · next hj => rw [hj, Function.update_self, Option.map_none]
  · next hj =>
      rw [Function.update_of_ne hj, OrderBook.lookup]
      cases hm : b.orderMap j with
      | none => rfl
      | some slot' =>
          have hne : slot' ≠ slot := fun heq => hj (hb.inj hm (heq ▸ hi))
          rw [Option.map_some, Option.map_some, h.order _ hne]

theorem registry (h : Retired b b' i slot) (hb : Registry b) (hi : b.orderMap i = some slot) :
    Registry b' := by
  obtain ⟨hdistinct, hfree⟩ := MemoryPool.deallocate_spec (hb.held hi) hb.distinct
  have hmap : ∀ {j t}, b'.orderMap j = some t → j ≠ i ∧ b.orderMap j = some t := fun {j t} hj => by
    rw [h.orderMap] at hj
    by_cases hji : j = i
    · rw [hji, Function.update_self] at hj
      cases hj
    · rw [Function.update_of_ne hji] at hj
      exact ⟨hji, hj⟩
  refine ⟨fun hj hk => hb.inj (hmap hj).2 (hmap hk).2, fun {j t} hj => ?_, ?_, fun {j o} hj => ?_⟩
  · rw [MemoryPool.IsFree, h.freeList, h.freeTop]
    intro hcontra
    rcases (hfree t).mp hcontra with hcontra | rfl
    · exact hb.held (hmap hj).2 hcontra
    · exact (hmap hj).1 (hb.inj (hmap hj).2 hi)
  · rw [MemoryPool.FreeDistinct, h.freeList, h.freeTop]
    exact hdistinct
  · rw [h.lookup hb hi] at hj
    split at hj
    · cases hj
    · rw [h.orderIdSeq]
      exact hb.named hj

end Retired

/-- Retiring an order that rests nowhere leaves the queues alone. -/
theorem Represents.retire (h : Represents b A) {i : OrderId} {slot : Slot}
    (hretired : Retired b b' i slot) (hi : b.orderMap i = some slot)
    (hrests : ∀ s p, i ∉ ids (A s p)) : Represents b' A := by
  refine ⟨hretired.registry h.registry hi, fun s p => (h.level s p).congr ?_ fun j hj => ?_⟩
  · rw [hretired.ladder]
  · rw [hretired.lookup h.registry hi, if_neg]
    rintro rfl
    exact hrests s p hj

/-! ### Changing one queue -/

/-- `b₁` is `b` but for what the orders `x` and those outside the queues hold, links apart. -/
structure WrittenTo (b b₁ : OrderBook) (A : Queues) (x : OrderId) : Prop extends
    SameRegistry b b₁ where
  ladder : b₁.ladder = b.ladder
  prevOf : b₁.prevOf = b.prevOf
  nextOf : b₁.nextOf = b.nextOf
  others : ∀ s p, ∀ i ∈ ids (A s p), i ≠ x → b₁.lookup i = b.lookup i

theorem WrittenTo.refl (b : OrderBook) (A : Queues) (x : OrderId) : WrittenTo b b A x :=
  ⟨.refl b, rfl, rfl, rfl, fun _ _ _ _ _ => rfl⟩

section Queue

variable {b₁ : OrderBook} {q₁ q₂ : Queue} {x : Resting} {o : Slot} {amount : Int}

theorem nodup_of_level {lvl : PriceLevel} (h : LevelOk b s p lvl (q₁ ++ x :: q₂)) :
    x.id ∉ ids (q₁ ++ q₂) := by
  have hnodup : (ids (q₁ ++ x :: q₂)).Nodup := h.ascending.imp Nat.ne_of_lt
  rw [ids_append, ids_cons, List.nodup_middle, List.nodup_cons] at hnodup
  rw [ids_append]
  exact hnodup.1

/-- `reduceLevel` of an order that leaves takes it out of its queue. -/
theorem Represents.takeOut (h : Represents b A) (hq : A s p = q₁ ++ x :: q₂)
    (hb : WrittenTo b b₁ A x.id) (hx : b₁.orderMap x.id = some o) (hprice : (b₁.order o).price = p)
    (hamount : amount = x.remaining) :
    let b' := b₁.reduceLevel s o amount true
    Represents b' (A.set s p (q₁ ++ q₂)) ∧ SameButLinks b₁ b' (ids (q₁ ++ q₂)) := by
  obtain ⟨lvl, hfind, hok⟩ := h.levelOk (s := s) (p := p) (by rw [hq]; simp)
  rw [hq] at hok
  have hnot := nodup_of_level hok
  have hmem : ∀ i ∈ ids (q₁ ++ q₂), i ∈ ids (A s p) := fun i hi => by
    rw [hq]
    simp only [ids_append, ids_cons, List.mem_append, List.mem_cons] at hi ⊢
    tauto
  have hrest : AllRest b₁ s p (q₁ ++ q₂) := fun y hy => by
    have hi := mem_ids.mpr ⟨y, hy, rfl⟩
    rw [hb.others s p _ (hmem _ hi) fun heq => hnot (heq ▸ hi)]
    exact hok.resting y (by simp only [List.mem_append, List.mem_cons] at hy ⊢; tauto)
  have hlinks : LevelLinks b₁ lvl (ids q₁ ++ x.id :: ids q₂) := by
    have hl := hok.toLevelLinks
    rw [ids_append, ids_cons] at hl
    refine ⟨hl.count, hl.head, hl.tail, ?_, hl.ascending⟩
    rw [hb.prevOf, hb.nextOf]
    exact hl.linked
  have htotal : wrap64 (lvl.totalQty - amount) = wrap64 (volume (q₁ ++ q₂)) := by
    rw [hok.total, wrap64_wrap64_sub, hamount]
    congr 1
    simp only [volume_append, volume_cons]
    omega
  obtain ⟨hsame, hlevel, hside, hfinds⟩ := reduceLevel_leaves (hb.registry h.registry) hx hprice
    (by rw [hb.ladder]; exact hfind) hlinks hok.price hrest htotal
  refine ⟨h.set (hsame.registry (hb.registry h.registry)) hlevel ?_ ?_, hsame⟩
  · intro s' p' hsp
    by_cases hs : s' = s
    · subst hs
      rw [hfinds p' fun hp => hsp ⟨rfl, hp⟩, hb.ladder]
    · rw [hside s' hs, hb.ladder]
  · intro s' p' hsp i hi
    have hne : ∀ j ∈ ids (A s p), i ≠ j := fun j hj heq => hsp (h.unique hj (heq ▸ hi))
    rw [hsame.others i fun hmem' => hne i (hmem i hmem') rfl]
    exact hb.others s' p' i hi (hne x.id (by rw [hq]; simp))

/-- `reduceLevel` of an order that stays lowers its quantity in its queue. -/
theorem Represents.lower (h : Represents b A) (hq : A s p = q₁ ++ x :: q₂)
    (hb : WrittenTo b b₁ A x.id) (hx : b₁.orderMap x.id = some o) (hprice : (b₁.order o).price = p)
    (hrests : Rests (b₁.order o) s p ⟨x.id, x.remaining - amount⟩) :
    let b' := b₁.reduceLevel s o amount false
    Represents b' (A.set s p (q₁ ++ ⟨x.id, x.remaining - amount⟩ :: q₂)) ∧
      SameButLinks b₁ b' [] := by
  obtain ⟨lvl, hfind, hok⟩ := h.levelOk (s := s) (p := p) (by rw [hq]; simp)
  rw [hq] at hok
  have hnot := nodup_of_level hok
  have hb₁ := hb.registry h.registry
  have hids : ids (q₁ ++ ⟨x.id, x.remaining - amount⟩ :: q₂) = ids (q₁ ++ x :: q₂) := by simp
  simp only [reduceLevel, hprice, hb.ladder, hfind, Bool.false_eq_true, if_false]
  refine ⟨h.set ((SameRegistry.setLadder _ _ _).registry hb₁) ?_ ?_ ?_, .setLadder _ _ _ _⟩
  · simp only [LevelRep, ladder_setLadder_self, SortedMap.find?_insert_self]
    have hok₁ : LevelOk b₁ s p { lvl with totalQty := wrap64 (lvl.totalQty - amount) }
        (q₁ ++ ⟨x.id, x.remaining - amount⟩ :: q₂) := by
      refine ⟨⟨?_, ?_, ?_, ?_, ?_⟩, by simp, hok.price, ?_, fun y hy => ?_⟩
      · rw [hids]
        exact hok.count
      · rw [hids]
        exact hok.head
      · rw [hids]
        exact hok.tail
      · rw [hids, hb.prevOf, hb.nextOf]
        exact hok.linked
      · rw [hids]
        exact hok.ascending
      · show wrap64 (lvl.totalQty - amount) = _
        rw [hok.total, wrap64_wrap64_sub]
        congr 1
        simp only [volume_append, volume_cons]
        omega
      · by_cases hyx : y = ⟨x.id, x.remaining - amount⟩
        · subst hyx
          exact ⟨_, lookup_of_orderMap hx, hrests⟩
        · have hy' : y ∈ q₁ ++ q₂ := by
            simp only [List.mem_append, List.mem_cons] at hy ⊢
            tauto
          have hi := mem_ids.mpr ⟨y, hy', rfl⟩
          rw [hb.others s p _ (by rw [hq]; simp only [ids_append, ids_cons, List.mem_append,
            List.mem_cons] at hi ⊢; tauto) fun heq => hnot (heq ▸ hi)]
          exact hok.resting y (by simp only [List.mem_append, List.mem_cons] at hy' ⊢; tauto)
    exact hok₁.congr fun y _ => by rw [lookup_setLadder]
  · intro s' p' hsp
    by_cases hs : s' = s
    · subst hs
      rw [ladder_setLadder_self, SortedMap.find?_insert_ne _ _ fun hp => hsp ⟨rfl, hp.symm⟩]
    · rw [ladder_setLadder_ne _ _ hs, hb.ladder]
  · intro s' p' hsp i hi
    have hne : i ≠ x.id := fun heq =>
      hsp (h.unique (i := x.id) (by rw [hq]; simp) (heq ▸ hi))
    rw [lookup_setLadder]
    exact hb.others s' p' i hi hne

/-- `restOrder` puts a registered order behind the last one of its queue. -/
theorem Represents.putLast (h : Represents b A) {i : OrderId} {r : Int}
    (hi : b.orderMap i = some o) (hrests : Rests (b.order o) s p ⟨i, r⟩)
    (hlast : ∀ j ∈ ids (A s p), j < i) :
    let b' := b.restOrder o
    Represents b' (A.set s p (A s p ++ [⟨i, r⟩])) ∧ SameButLinks b b' (i :: ids (A s p)) := by
  set lvl : PriceLevel := { ((b.ladder s).find? p).getD {} with price := p } with hlvl
  have hfound : LevelLinks b lvl (ids (A s p)) ∧ lvl.totalQty = wrap64 (volume (A s p)) := by
    cases hfind : (b.ladder s).find? p with
    | none =>
        rw [h.find?_eq_none.mp hfind, hlvl, hfind]
        exact ⟨⟨rfl, rfl, rfl, trivial, List.Pairwise.nil⟩, rfl⟩
    | some l =>
        obtain ⟨⟨hcount, hhead, htail, hlinked, hascending⟩, -, -, htotal, -⟩ :=
          h.levelOk_of_find hfind
        rw [hlvl, hfind]
        exact ⟨⟨hcount, hhead, htail, hlinked, hascending⟩, htotal⟩
  have hrest := h.allRest s p
  obtain ⟨hsame, hladder, hlinks, hprice, htotal⟩ := levelAddOrder_spec h.registry hi hlast
    (fun j hj => hrest.isSome hj) hfound.1
  have hrestOrder : b.restOrder o =
      (b.levelAddOrder lvl o).1.setLadder s
        (((b.levelAddOrder lvl o).1.ladder s).insert p (b.levelAddOrder lvl o).2) := by
    rw [restOrder, hrests.price]
    have := hrests.side
    subst this
    rfl
  simp only [hrestOrder]
  generalize b.levelAddOrder lvl o = l at hsame hladder hlinks hprice htotal ⊢
  refine ⟨h.set ((SameRegistry.setLadder _ _ _).registry (hsame.registry h.registry)) ?_ ?_ ?_,
    hsame.trans (.setLadder _ _ _ _)⟩
  · simp only [LevelRep, ladder_setLadder_self, SortedMap.find?_insert_self]
    have hok : LevelOk l.1 s p l.2 (A s p ++ [⟨i, r⟩]) := by
      refine ⟨?_, by simp, hprice, ?_, ?_⟩
      · rw [ids_append]
        exact hlinks
      · rw [htotal, hfound.2, wrap64_wrap64_add, hrests.remaining]
        simp
      · refine AllRest.of_links (fun x hx => ?_) hsame
        rcases List.mem_append.mp hx with hx | hx
        · exact hrest x hx
        · rw [List.mem_singleton.mp hx]
          exact ⟨_, lookup_of_orderMap hi, hrests⟩
    exact hok.congr fun x _ => by rw [lookup_setLadder]
  · intro s' p' hsp
    by_cases hs : s' = s
    · subst hs
      rw [ladder_setLadder_self, SortedMap.find?_insert_ne _ _ fun hp => hsp ⟨rfl, hp.symm⟩,
        hladder]
    · rw [ladder_setLadder_ne _ _ hs, hladder]
  · intro s' p' hsp j hj
    rw [lookup_setLadder]
    refine hsame.others j fun hmem => ?_
    rcases List.mem_cons.mp hmem with rfl | hmem
    · obtain ⟨x, hx, hxj⟩ := mem_ids.mp hj
      obtain ⟨o', ho', hrests'⟩ := h.allRest s' p' x hx
      rw [hxj, lookup_of_orderMap hi, Option.some.injEq] at ho'
      subst ho'
      exact hsp ⟨hrests'.side.symm.trans hrests.side, hrests'.price.symm.trans hrests.price⟩
    · exact hsp (h.unique hmem hj)

end Queue

end NanoVault.Book
