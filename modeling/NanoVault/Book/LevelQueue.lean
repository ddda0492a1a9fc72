/-
What `level_add_order`, `level_remove_order_links` and `reduceLevel` do to a queue.

`levelRemoveOrderLinks_spec` and `levelAddOrder_spec` are about the links alone and hold
whatever the orders' quantities are, so that `fill_order` may use them after it has
written the maker's remaining quantity. What they leave alone is said by `SameButLinks`.
-/
import NanoVault.Book.Represents

namespace NanoVault.Book

open Lib OrderBook

/-- `b'` differs from `b` at most in the ladders and in the links of the orders named by
`q`. -/
structure SameButLinks (b b' : OrderBook) (q : List OrderId) : Prop extends
    SameRegistry b b' where
  payload : ∀ j, (b'.lookup j).map Order.unlinked = (b.lookup j).map Order.unlinked
  others : ∀ j, j ∉ q → b'.lookup j = b.lookup j
  stats : b'.stats = b.stats
  log : b'.log = b.log
  tradeIdSeq : b'.tradeIdSeq = b.tradeIdSeq

namespace SameButLinks

variable {b b' b'' : OrderBook} {q : List OrderId}

theorem refl (b : OrderBook) (q : List OrderId) : SameButLinks b b q :=
  ⟨.refl b, fun _ => rfl, fun _ _ => rfl, rfl, rfl, rfl⟩

theorem trans (h : SameButLinks b b' q) (h' : SameButLinks b' b'' q) : SameButLinks b b'' q :=
  ⟨h.toSameRegistry.trans h'.toSameRegistry, fun j => (h'.payload j).trans (h.payload j),
    fun j hj => (h'.others j hj).trans (h.others j hj), h'.stats.trans h.stats,
    h'.log.trans h.log, h'.tradeIdSeq.trans h.tradeIdSeq⟩

/-- A write of links changes the links only. -/
theorem writeId (hb : Registry b) {i : OrderId} {f : Order → Order} (hi : i ≠ 0 → i ∈ q)
    (hf : ∀ o, (f o).unlinked = o.unlinked) : SameButLinks b (b.writeId i f) q := by
  by_cases hzero : i = 0
  · rw [hzero, hb.writeId_zero]
    exact refl b q
  have hid : ∀ o, (f o).id = o.id := fun o => by
    have h := hf o
    simp only [Order.unlinked, Order.mk.injEq] at h
    exact h.1
  refine ⟨.writeId b i hid, fun j => ?_, fun j hj => ?_, ?_, ?_, ?_⟩
  · rw [lookup_writeId hb]
    split
    · next hj =>
        subst hj
        cases b.lookup j with
        | none => rfl
        | some o => exact congrArg some (hf o)
    · rfl
  · have hne : j ≠ i := by
      rintro rfl
      exact hj (hi hzero)
    rw [lookup_writeId hb, if_neg hne]
  all_goals
    unfold OrderBook.writeId
    split <;> rfl

/-- The same orders are registered. -/
theorem isSome_iff (h : SameButLinks b b' q) {j : OrderId} :
    (b'.lookup j).isSome ↔ (b.lookup j).isSome := by
  rw [OrderBook.lookup, OrderBook.lookup, h.orderMap, Option.isSome_map, Option.isSome_map]

/-- Orders outside the queue are as before. -/
theorem order_eq (h : SameButLinks b b' q) {i : OrderId} {slot : Slot}
    (hi : b.orderMap i = some slot) (hq : i ∉ q) : b'.order slot = b.order slot := by
  have hlookup := h.others i hq
  rwa [lookup_of_orderMap hi, lookup_of_orderMap (by rw [h.orderMap]; exact hi),
    Option.some.injEq] at hlookup

theorem setLadder (b : OrderBook) (s : Side) (l : Ladder s) (q : List OrderId) :
    SameButLinks b (b.setLadder s l) q := by
  cases s <;> exact ⟨.setLadder _ _ _, fun _ => rfl, fun _ _ => rfl, rfl, rfl, rfl⟩

end SameButLinks

theorem Rests.of_unlinked {o o' : Order} {s : Side} {p : Price} {x : Resting}
    (h : Rests o s p x) (ho : o'.unlinked = o.unlinked) : Rests o' s p x := by
  simp only [Order.unlinked, Order.mk.injEq] at ho
  obtain ⟨-, hprice, -, hrem, -, -, hside, htype, hstatus, -⟩ := ho
  exact ⟨hrem.trans h.remaining, hrem ▸ h.positive, hprice.trans h.price, hside.trans h.side,
    htype.trans h.type, by rw [Order.isActive, hstatus]; exact h.active⟩

/-- A level keeps its queue when its orders stay as they are. -/
theorem LevelOk.congr {b b' : OrderBook} {s : Side} {p : Price} {lvl : PriceLevel} {q : Queue}
    (h : LevelOk b s p lvl q) (hq : ∀ x ∈ q, b'.lookup x.id = b.lookup x.id) :
    LevelOk b' s p lvl q := by
  have hids : ∀ i ∈ ids q, b'.lookup i = b.lookup i := fun i hi => by
    obtain ⟨x, hx, rfl⟩ := mem_ids.mp hi
    exact hq x hx
  refine ⟨⟨h.count, h.head, h.tail, h.linked.congr (fun i hi => ?_) (fun i hi => ?_),
    h.ascending⟩, h.nonempty, h.price, h.total, fun x hx => ?_⟩
  · rw [prevOf, hids i hi, prevOf]
  · rw [nextOf, hids i hi, nextOf]
  · rw [hq x hx]
    exact h.resting x hx

theorem AllRest.of_links {b b' : OrderBook} {s : Side} {p : Price} {q : Queue}
    {is : List OrderId} (h : AllRest b s p q) (hb : SameButLinks b b' is) : AllRest b' s p q := by
  intro x hx
  obtain ⟨o, ho, hrests⟩ := h x hx
  have hpayload := hb.payload x.id
  rw [ho, Option.map_some] at hpayload
  obtain ⟨o', ho', hsame⟩ := Option.map_eq_some_iff.mp hpayload
  exact ⟨o', ho', hrests.of_unlinked hsame⟩

theorem AllRest.isSome {b : OrderBook} {s : Side} {p : Price} {q : Queue} (h : AllRest b s p q)
    {i : OrderId} (hi : i ∈ ids q) : (b.lookup i).isSome := by
  obtain ⟨x, hx, rfl⟩ := mem_ids.mp hi
  obtain ⟨o, ho, -⟩ := h x hx
  rw [ho]
  rfl

/-! ### Taking an order out -/

section Remove

variable {b : OrderBook} {lvl : PriceLevel} {i : OrderId} {o : Slot}

/-- The neighbours' writes, and the new ends of the level. -/
theorem levelRemoveOrderLinks_eq (hb : Registry b) (hi : b.orderMap i = some o)
    (hp : (b.order o).prev ≠ i) :
    b.levelRemoveOrderLinks lvl o =
      ((b.writeId (b.order o).prev (Order.setNext (b.order o).next)).writeId (b.order o).next
          (Order.setPrev (b.order o).prev),
        { lvl with
          head := if (b.order o).prev ≠ 0 then lvl.head else (b.order o).next
          tail := if (b.order o).next ≠ 0 then lvl.tail else (b.order o).prev
          orderCount := lvl.orderCount - 1 }) := by
  have horder : (b.writeId (b.order o).prev (Order.setNext (b.order o).next)).order o =
      b.order o := by
    have h := lookup_writeId (f := Order.setNext (b.order o).next) hb i (i := (b.order o).prev)
    rw [if_neg (Ne.symm hp), lookup_of_orderMap hi, lookup_of_orderMap (by simpa using hi)] at h
    exact Option.some.inj h
  unfold levelRemoveOrderLinks
  by_cases hprev : (b.order o).prev = 0
  · by_cases hnext : (b.order o).next = 0
    · simp [hprev, hnext, hb.writeId_zero]
    · simp [hprev, hnext, hb.writeId_zero]
  · have hb' : Registry (b.writeId (b.order o).prev (Order.setNext (b.order o).next)) :=
      (SameRegistry.writeId b _ (f := Order.setNext _) fun _ => rfl).registry hb
    simp only [ne_eq, hprev, not_false_eq_true, if_true, horder]
    by_cases hnext : (b.order o).next = 0
    · simp only [hnext, not_true_eq_false, if_false]
      rw [hnext] at hb'
      rw [hb'.writeId_zero]
    · simp [hnext]

/-- Taking an order out leaves the rest of the queue linked, between the level's new ends. -/
theorem levelRemoveOrderLinks_spec {q₁ q₂ : List OrderId} (hb : Registry b)
    (hi : b.orderMap i = some o) (hreg : ∀ j ∈ q₁ ++ q₂, (b.lookup j).isSome)
    (hlvl : LevelLinks b lvl (q₁ ++ i :: q₂)) :
    let r := b.levelRemoveOrderLinks lvl o
    SameButLinks b r.1 (q₁ ++ q₂) ∧ r.1.ladder = b.ladder ∧ LevelLinks r.1 r.2 (q₁ ++ q₂) ∧
      r.2.price = lvl.price ∧ r.2.totalQty = lvl.totalQty := by
  obtain ⟨hcount, hhead, htail, hlinked, hascending⟩ := hlvl
  have hnodup : (q₁ ++ i :: q₂).Nodup := hascending.imp Nat.ne_of_lt
  have hpos : ∀ j ∈ q₁ ++ q₂, j ≠ 0 := fun j hj heq => by
    obtain ⟨x, hx⟩ := Option.isSome_iff_exists.mp (hreg j hj)
    exact absurd (hb.named hx).2.1 (heq ▸ Nat.lt_irrefl 0)
  have hprev : (b.order o).prev = lastOr q₁ 0 := by
    rw [← prevOf_eq (lookup_of_orderMap hi)]
    exact hlinked.links.1
  have hnext : (b.order o).next = headOr q₂ 0 := by
    rw [← nextOf_eq (lookup_of_orderMap hi)]
    exact hlinked.links.2
  have hlast : lastOr q₁ 0 ≠ 0 → lastOr q₁ 0 ∈ q₁ ++ q₂ := fun hne =>
    List.mem_append_left _ (lastOr_mem (fun hq => hne (by rw [hq, lastOr_nil])) 0)
  have hfirst : headOr q₂ 0 ≠ 0 → headOr q₂ 0 ∈ q₁ ++ q₂ := fun hne =>
    List.mem_append_right _ (headOr_mem (fun hq => hne (by rw [hq, headOr_nil])) 0)
  have hpi : lastOr q₁ 0 ≠ i := by
    rintro heq
    by_cases hq : q₁ = []
    · rw [hq, lastOr_nil] at heq
      exact absurd hi (by rw [← heq, hb.orderMap_zero]; simp)
    · exact (List.nodup_append.mp hnodup).2.2 _ (lastOr_mem hq 0) i List.mem_cons_self heq
  have hheadEq : (if lastOr q₁ 0 ≠ 0 then lvl.head else headOr q₂ 0) = headOr (q₁ ++ q₂) 0 := by
    cases q₁ with
    | nil => rfl
    | cons j q₁ =>
        rw [if_pos (hpos _ (List.mem_append_left _ (lastOr_mem (List.cons_ne_nil _ _) 0))), hhead]
        rfl
  have htailEq : (if headOr q₂ 0 ≠ 0 then lvl.tail else lastOr q₁ 0) = lastOr (q₁ ++ q₂) 0 := by
    cases q₂ with
    | nil => simp
    | cons j q₂ =>
        rw [if_pos (hpos _ (List.mem_append_right _ (headOr_mem (List.cons_ne_nil _ _) 0))), htail]
        simp only [lastOr_append, lastOr_cons]
  -- The order before `i` is linked to the one behind it, and back.
  have h₁ : SameButLinks b (b.writeId (lastOr q₁ 0) (Order.setNext (headOr q₂ 0))) (q₁ ++ q₂) :=
    .writeId hb hlast fun _ => rfl
  have hb₁ := h₁.registry hb
  have h₂ := SameButLinks.writeId (f := Order.setPrev (lastOr q₁ 0)) hb₁ hfirst fun _ => rfl
  rw [levelRemoveOrderLinks_eq hb hi (hprev ▸ hpi), hprev, hnext]
  refine ⟨h₁.trans h₂, by simp, ⟨?_, hheadEq, htailEq,
    hlinked.remove (hnodup.sublist (by simp)) ?_ ?_ ?_ ?_, hascending.sublist (by simp)⟩, rfl, rfl⟩
  · simp [hcount]
  · intro hq
    rw [nextOf_setPrev hb₁,
      nextOf_writeId hb _ (hreg _ (List.mem_append_left _ (lastOr_mem hq 0))), if_pos rfl]
  · intro j _ hne
    rw [nextOf_setPrev hb₁]
    by_cases hq : q₁ = []
    · rw [hq, lastOr_nil, hb.writeId_zero]
    · rw [nextOf_writeId hb _ (hreg _ (List.mem_append_left _ (lastOr_mem hq 0))),
        if_neg (hne hq)]
  · intro hq
    have hreg₁ := hreg _ (List.mem_append_right q₁ (headOr_mem hq 0))
    rw [prevOf_writeId hb₁ _ (h₁.isSome_iff.mpr hreg₁), if_pos rfl]
  · intro j _ hne
    by_cases hq : q₂ = []
    · rw [show headOr q₂ 0 = 0 by rw [hq, headOr_nil]] at hb₁ ⊢
      rw [hb₁.writeId_zero, prevOf_setNext hb]
    · have hreg₁ := hreg _ (List.mem_append_right q₁ (headOr_mem hq 0))
      rw [prevOf_writeId hb₁ _ (h₁.isSome_iff.mpr hreg₁), if_neg (hne hq),
        prevOf_setNext hb]

/-- Taking an order off its level, whatever its own quantity says by now: the level holds
the rest of the queue, or is gone with its last order. -/
theorem reduceLevel_leaves {s : Side} {p : Price} {q₁ q₂ : Queue} {amount : Int}
    (hb : Registry b) (hi : b.orderMap i = some o) (hprice : (b.order o).price = p)
    (hfind : (b.ladder s).find? p = some lvl) (hlvl : LevelLinks b lvl (ids q₁ ++ i :: ids q₂))
    (hp : lvl.price = p) (hrest : AllRest b s p (q₁ ++ q₂))
    (htotal : wrap64 (lvl.totalQty - amount) = wrap64 (volume (q₁ ++ q₂))) :
    let b' := b.reduceLevel s o amount true
    SameButLinks b b' (ids (q₁ ++ q₂)) ∧ LevelRep b' s p (q₁ ++ q₂) ∧
      (∀ s', s' ≠ s → b'.ladder s' = b.ladder s') ∧
      (∀ p', p' ≠ p → (b'.ladder s).find? p' = (b.ladder s).find? p') := by
  have hreg : ∀ j ∈ ids q₁ ++ ids q₂, (b.lookup j).isSome := fun j hj =>
    hrest.isSome (by rwa [ids_append])
  have hlvl' : LevelLinks b { lvl with totalQty := wrap64 (lvl.totalQty - amount) }
      (ids q₁ ++ i :: ids q₂) :=
    ⟨hlvl.count, hlvl.head, hlvl.tail, hlvl.linked, hlvl.ascending⟩
  obtain ⟨hsame, hladder, hlinks, hprice', htotal'⟩ :=
    levelRemoveOrderLinks_spec hb hi hreg hlvl'
  rw [← ids_append] at hsame hlinks
  simp only [reduceLevel, hprice, hfind, if_true]
  generalize b.levelRemoveOrderLinks _ o = r at hsame hladder hlinks hprice' htotal' ⊢
  by_cases hq : q₁ ++ q₂ = []
  · have hempty : r.2.isEmpty = true := by
      rw [PriceLevel.isEmpty, hlinks.count, hq]
      rfl
    rw [if_pos hempty, hladder]
    refine ⟨hsame.trans (.setLadder _ _ _ _), ?_, fun s' hs' => ?_, fun p' hp' => ?_⟩
    · simp [LevelRep, hq]
    · rw [ladder_setLadder_ne _ _ hs', hladder]
    · rw [ladder_setLadder_self, SortedMap.find?_erase_ne _ (Ne.symm hp')]
  · have hempty : r.2.isEmpty = false := by
      rw [PriceLevel.isEmpty, hlinks.count, decide_eq_false_iff_not, List.length_eq_zero_iff,
        ids_eq_nil]
      exact hq
    rw [if_neg (by rw [hempty]; decide), hladder]
    refine ⟨hsame.trans (.setLadder _ _ _ _), ?_, fun s' hs' => ?_, fun p' hp' => ?_⟩
    · simp only [LevelRep, ladder_setLadder_self, SortedMap.find?_insert_self]
      have hok : LevelOk r.1 s p r.2 (q₁ ++ q₂) :=
        ⟨hlinks, hq, hprice'.trans hp, htotal'.trans htotal, hrest.of_links hsame⟩
      exact hok.congr fun x _ => by rw [lookup_setLadder]
    · rw [ladder_setLadder_ne _ _ hs', hladder]
    · rw [ladder_setLadder_self, SortedMap.find?_insert_ne _ _ (Ne.symm hp')]

end Remove

/-! ### Putting an order behind the last one -/

section Append

variable {b : OrderBook} {lvl : PriceLevel} {i : OrderId} {o : Slot}

theorem write_eq_writeId (hi : b.orderMap i = some o) (f : Order → Order) :
    b.write o f = b.writeId i f := by
  rw [OrderBook.writeId, hi]

/-- The writes of `level_add_order`, by id. -/
def linkLast (b : OrderBook) (i tail : OrderId) : OrderBook :=
  ((b.writeId i (Order.setPrev tail)).writeId i (Order.setNext 0)).writeId tail (Order.setNext i)

/-- Putting an order last changes links only. -/
theorem linkLast_same {is : List OrderId} (hb : Registry b) {tail : OrderId}
    (htail : tail ≠ 0 → tail ∈ is) : SameButLinks b (linkLast b i tail) (i :: is) := by
  have h₁ : SameButLinks b (b.writeId i (Order.setPrev tail)) (i :: is) :=
    .writeId hb (fun _ => List.mem_cons_self) fun _ => rfl
  have h₂ := SameButLinks.writeId (f := Order.setNext 0) (i := i) (q := i :: is)
    (h₁.registry hb) (fun _ => List.mem_cons_self) fun _ => rfl
  have h₃ := SameButLinks.writeId (f := Order.setNext i) (i := tail) (q := i :: is)
    (h₂.registry (h₁.registry hb)) (fun h => List.mem_cons_of_mem _ (htail h)) fun _ => rfl
  exact (h₁.trans h₂).trans h₃

/-- The links after an order is put last. -/
theorem linkLast_links (hb : Registry b) (hi : b.orderMap i = some o) {tail : OrderId}
    (htail : tail ≠ 0 → (b.lookup tail).isSome) (hne : tail ≠ i) (j : OrderId) :
    (linkLast b i tail).prevOf j = (if j = i then tail else b.prevOf j) ∧
      (linkLast b i tail).nextOf j =
        if tail ≠ 0 ∧ j = tail then i else if j = i then 0 else b.nextOf j := by
  have hreg : (b.lookup i).isSome := by
    rw [lookup_of_orderMap hi]
    rfl
  have h₁ : SameButLinks b (b.writeId i (Order.setPrev tail)) [i] :=
    .writeId hb (fun _ => List.mem_cons_self) fun _ => rfl
  have hb₁ := h₁.registry hb
  have h₂ := SameButLinks.writeId (f := Order.setNext 0) (i := i) (q := [i]) hb₁
    (fun _ => List.mem_cons_self) fun _ => rfl
  have hb₂ := h₂.registry hb₁
  constructor
  · rw [linkLast, prevOf_setNext hb₂, prevOf_setNext hb₁, prevOf_writeId hb _ hreg]
  · rcases eq_or_ne tail 0 with rfl | hzero
    · rw [linkLast, hb₂.writeId_zero, nextOf_writeId hb₁ _ (h₁.isSome_iff.mpr hreg), nextOf_setPrev hb]
      simp
    · rw [linkLast, nextOf_writeId hb₂ _ (h₂.isSome_iff.mpr (h₁.isSome_iff.mpr (htail hzero))),
        nextOf_writeId hb₁ _ (h₁.isSome_iff.mpr hreg), nextOf_setPrev hb]
      simp [hzero]

theorem levelAddOrder_eq (hb : Registry b) (hi : b.orderMap i = some o) :
    b.levelAddOrder lvl o =
      (linkLast b i lvl.tail,
        { lvl with
          head := if lvl.tail ≠ 0 then lvl.head else i
          tail := i
          totalQty := wrap64 (lvl.totalQty + (b.order o).remaining)
          orderCount := lvl.orderCount + 1 }) := by
  have hsame : SameButLinks b (linkLast b i lvl.tail) [i, lvl.tail] :=
    linkLast_same hb fun _ => List.mem_cons_self
  have hid : (b.order o).id = i := (hb.named (lookup_of_orderMap hi)).1
  have hrem : ((linkLast b i lvl.tail).order o).remaining = (b.order o).remaining := by
    have h := hsame.payload i
    rw [lookup_of_orderMap (b := linkLast b i lvl.tail) (by rw [hsame.orderMap]; exact hi),
      lookup_of_orderMap hi, Option.map_some, Option.map_some, Option.some.injEq] at h
    exact (Order.mk.injEq .. ▸ h).2.2.2.1
  have hwrites : ((b.write o (Order.setPrev lvl.tail)).write o (Order.setNext 0)).writeId lvl.tail
      (Order.setNext i) = linkLast b i lvl.tail := by
    rw [write_eq_writeId (i := i) (by simpa using hi), write_eq_writeId hi, linkLast]
  have hid' : (((b.write o (Order.setPrev lvl.tail)).write o (Order.setNext 0)).order o).id = i := by
    rw [order_write_self, order_write_self]
    exact hid
  simp only [levelAddOrder, hid']
  by_cases hzero : lvl.tail = 0
  · have hb₂ : Registry ((b.write o (Order.setPrev lvl.tail)).write o (Order.setNext 0)) :=
      ((SameRegistry.write b o (f := Order.setPrev _) fun _ => rfl).trans
        (SameRegistry.write _ o (f := Order.setNext _) fun _ => rfl)).registry hb
    rw [← hwrites]
    rw [hzero] at hb₂ ⊢
    rw [hb₂.writeId_zero]
    simp [Order.setNext, Order.setPrev]
  · simp [hzero, hwrites, hrem]

/-- The order is behind the old last one, and the new end of the level. -/
theorem levelAddOrder_spec {is : List OrderId} (hb : Registry b) (hi : b.orderMap i = some o)
    (hlast : ∀ j ∈ is, j < i) (hreg : ∀ j ∈ is, (b.lookup j).isSome) (hlvl : LevelLinks b lvl is) :
    let r := b.levelAddOrder lvl o
    SameButLinks b r.1 (i :: is) ∧ r.1.ladder = b.ladder ∧ LevelLinks r.1 r.2 (is ++ [i]) ∧
      r.2.price = lvl.price ∧ r.2.totalQty = wrap64 (lvl.totalQty + (b.order o).remaining) := by
  obtain ⟨hcount, hhead, htail, hlinked, hascending⟩ := hlvl
  have hipos : i ≠ 0 := fun heq => by
    rw [heq, hb.orderMap_zero] at hi
    cases hi
  have hempty : lvl.tail = 0 ↔ is = [] := by
    constructor
    · intro heq
      by_contra hne
      obtain ⟨x, hx⟩ := Option.isSome_iff_exists.mp (hreg _ (lastOr_mem hne 0))
      rw [← htail, heq] at hx
      exact absurd (hb.named hx).2.1 (Nat.lt_irrefl 0)
    · intro heq
      rw [htail, heq, lastOr_nil]
  have hmem : lvl.tail ≠ 0 → lvl.tail ∈ is := fun h => by
    rw [htail]
    exact lastOr_mem (fun hq => h (hempty.mpr hq)) 0
  have htaili : lvl.tail ≠ i := fun heq => by
    by_cases hz : lvl.tail = 0
    · exact hipos (heq ▸ hz)
    · exact Nat.lt_irrefl i (hlast i (heq ▸ hmem hz))
  have hlinks := linkLast_links hb hi (fun h => hreg _ (hmem h)) htaili
  have hnodup : is.Nodup := hascending.imp Nat.ne_of_lt
  rw [levelAddOrder_eq hb hi]
  refine ⟨linkLast_same hb hmem, by simp [linkLast], ⟨?_, ?_, ?_, ?_, ?_⟩, rfl, rfl⟩
  · simp [hcount]
  · cases is with
    | nil => simp [hempty.mpr rfl]
    | cons j is => simp [show lvl.tail ≠ 0 from fun h => List.cons_ne_nil _ _ (hempty.mp h), hhead]
  · simp
  · refine hlinked.append hnodup (fun j hj => ?_) (fun hq => ?_) (fun j hj hjl => ?_) ?_ ?_
    · rw [(hlinks j).1, if_neg (Nat.ne_of_lt (hlast j hj))]
    · rw [(hlinks _).2, if_pos ⟨fun h => hq (hempty.mp h), htail.symm⟩]
    · rw [(hlinks j).2, if_neg fun h => hjl (h.2.trans htail), if_neg (Nat.ne_of_lt (hlast j hj))]
    · rw [(hlinks i).1, if_pos rfl, htail]
    · rw [(hlinks i).2, if_neg fun h => htaili h.2.symm, if_pos rfl]
  · exact List.pairwise_append.mpr ⟨hascending, List.pairwise_singleton _ _, fun j hj k hk =>
      (List.mem_singleton.mp hk) ▸ hlast j hj⟩

end Append

end NanoVault.Book
