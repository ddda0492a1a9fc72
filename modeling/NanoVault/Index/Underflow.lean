/-
The end of `handle_underflow`.

Where no leaf on either side has a key to spare, two leaves become one and the parent, which is
still locked, has a key less. If it has enough keys left, the tree is right again. If not, either
the parent is the root, and is deleted under its lock, or the call for the parent locks it again.
-/
import NanoVault.Index.Removal

namespace NanoVault.Index

open Lib Lib.KeyRange Op

variable {K V : Type} [LinearOrder K]

variable {t t' : Heap K V} {own : Addr → KeyRange K} {height : Addr → Nat}
  {a b c p x y : Addr} {n m l r : Node K V} {i j fuel : Nat} {key : K} {held : List Mutex}
  {e : Fault}

/-! ### A node that is locked already -/

section

omit [LinearOrder K]

theorem tryBorrow_error (hx : t.node x = some l) (hfree : Mutex.node x ∉ held)
    (hspare : minKeys < l.keys.length) {borrow : Op K V Unit}
    (hborrow : borrow (.node x :: held) t = .error e) :
    tryBorrow x borrow held t = .error e := by
  refine locked_error hfree hx ?_
  rw [bind_ok (read_ok hx), if_pos hspare, bind_error hborrow]

variable (hn : t.node a = some n) (hparent : n.parent = some p) (hheld : Mutex.node a ∈ held)
include hn hparent hheld

theorem borrowFromLeft_held : borrowFromLeft a x i held t = .error .relocked := by
  rw [borrowFromLeft, bind_ok (read_ok hn), hparent]
  exact (bind_ok (pointee_ok p)).trans (locked_held hheld)

theorem borrowFromRight_held : borrowFromRight a x i held t = .error .relocked := by
  rw [borrowFromRight, bind_ok (read_ok hn), hparent]
  exact (bind_ok (pointee_ok p)).trans (locked_held hheld)

theorem mergeWithLeft_held (f : Addr → Op K V Unit) :
    mergeWithLeft f a x i held t = .error .relocked := by
  rw [mergeWithLeft, bind_ok (read_ok hn), hparent]
  exact (bind_ok (pointee_ok p)).trans (bind_error (locked_held hheld))

theorem mergeWithRight_held (f : Addr → Op K V Unit) :
    mergeWithRight f a x i held t = .error .relocked := by
  rw [mergeWithRight, bind_ok (read_ok hn), hparent]
  exact (bind_ok (pointee_ok p)).trans (bind_error (locked_held hheld))

/-- Whichever sibling has a key to spare, the node is locked again. -/
theorem relieve_held (hi : i < m.children.length) (hsiblings : 2 ≤ m.children.length)
    (hlive : ∀ j c, m.children[j]? = some c → j ≠ i →
      (∃ b, t.node c = some b) ∧ Mutex.node c ∉ held) :
    relieve fuel a m i held t = .error .relocked := by
  have htry : ∀ {c j} {borrow : Op K V Unit}, m.children[j]? = some c → j ≠ i →
      borrow (.node c :: held) t = .error .relocked →
      tryBorrow c borrow held t = .error .relocked ∨
        tryBorrow c borrow held t = .ok (false, t) := by
    intro c j borrow hj hji hborrow
    obtain ⟨⟨b, hb⟩, hfree⟩ := hlive j c hj hji
    rcases Nat.lt_or_ge minKeys b.keys.length with hspare | hfew
    · exact .inl (tryBorrow_error hb hfree hspare hborrow)
    · exact .inr (tryBorrow_no hb hfree hfew borrow)
  have hleft : borrowLeft a m i held t = .error .relocked ∨
      borrowLeft a m i held t = .ok (false, t) := by
    rw [borrowLeft]
    by_cases hpos : 0 < i
    · have hc := List.getElem?_eq_getElem (show i - 1 < m.children.length by omega)
      rw [if_pos hpos, bind_ok (element_ok hc)]
      exact htry hc (by omega)
        (borrowFromLeft_held hn hparent (List.mem_cons_of_mem _ hheld))
    · rw [if_neg hpos]
      exact .inr rfl
  have hright : borrowRight a m i held t = .error .relocked ∨
      borrowRight a m i held t = .ok (false, t) := by
    rw [borrowRight]
    by_cases hpos : i + 1 < m.children.length
    · have hc := List.getElem?_eq_getElem hpos
      rw [if_pos hpos, bind_ok (element_ok hc)]
      exact htry hc (by omega)
        (borrowFromRight_held hn hparent (List.mem_cons_of_mem _ hheld))
    · rw [if_neg hpos]
      exact .inr rfl
  have hmerge : mergeAside fuel a m i held t = .error .relocked := by
    rw [mergeAside]
    by_cases hpos : 0 < i
    · have hc := List.getElem?_eq_getElem (show i - 1 < m.children.length by omega)
      rw [if_pos hpos, bind_ok (element_ok hc)]
      exact mergeWithLeft_held hn hparent hheld _
    · have hc := List.getElem?_eq_getElem (show i + 1 < m.children.length by omega)
      rw [if_neg hpos, bind_ok (element_ok hc)]
      exact mergeWithRight_held hn hparent hheld _
  rw [relieve]
  rcases hleft with hleft | hleft
  · exact bind_error hleft
  rw [bind_ok hleft, if_neg Bool.false_ne_true]
  rcases hright with hright | hright
  · exact bind_error hright
  rw [bind_ok hright, if_neg Bool.false_ne_true]
  exact hmerge

end

/-- The call for a node other than the root that is locked already. -/
theorem handleUnderflow_held (h : Sound t.node t.root own height) (hp : t.node p = some m)
    (hroot : p ≠ t.root)
    (hkeys : ∀ g mg, t.node g = some mg → mg.isLeaf = false → mg.keys ≠ [])
    (hheld : ∀ z, Mutex.node z ∈ held ↔ z = p) :
    handleUnderflow (fuel + 1) p held t = .error .relocked := by
  obtain ⟨g, mg, i, hparent, hg, hinner, hi, hshape⟩ := h.exists_parent hp hroot
  obtain ⟨hpg, -⟩ := h.child_facts hg hinner (List.mem_of_getElem? hi)
  have hfree : Mutex.node g ∉ held := fun hmem => hpg ((hheld g).mp hmem).symm
  have hmem : Mutex.node p ∈ Mutex.node g :: held :=
    List.mem_cons_of_mem _ ((hheld p).mpr rfl)
  have hsiblings : 2 ≤ mg.children.length := by
    have hlength := hshape.children
    have hpos := List.length_pos_of_ne_nil (hkeys g mg hg hinner)
    omega
  refine handleUnderflow_error hp hparent hfree hg (hshape.idxOf hi) ?_
  refine relieve_held hp hparent hmem (List.getElem?_eq_some_iff.mp hi).1 hsiblings ?_
  intro j c hj hji
  obtain ⟨hcg, -, b, hb, -⟩ := h.child_facts hg hinner (List.mem_of_getElem? hj)
  refine ⟨⟨b, hb⟩, fun hc => ?_⟩
  rcases List.mem_cons.mp hc with heq | hc
  · exact hcg (Mutex.node.inj heq)
  · obtain rfl := (hheld c).mp hc
    exact hji (hshape.index_inj hj hi)

/-! ### Two leaves that have become one -/

omit [LinearOrder K] in
/-- The calls up the tree have fuel where there are two nodes. -/
theorem exists_fuel {N : Node K V} (hx : t.node x = some n) (hy : t.node y = some N) (hxy : x ≠ y) :
    ∃ f, t.cells.length = f + 2 := by
  have hxlt : Nat.succ x ≤ _ := Heap.lt_of_node hx
  have hylt : Nat.succ y ≤ _ := Heap.lt_of_node hy
  have htwo : 2 ≤ t.cells.length := by
    rcases Nat.lt_or_gt_of_ne hxy with hlt | hlt <;> omega
  exact ⟨_, (Nat.sub_add_cancel htwo).symm⟩

/-- The right leaf has moved into the left one, which has neither too few keys nor too many. -/
structure Merging (t t' : Heap K V) (p : Addr) (m : Node K V) (j : Nat) (x : Addr) (l : Node K V)
    (y : Addr) (r : Node K V) : Prop where
  adjacent : Adjacent t.node p m j x l y r
  root : t'.root = t.root
  node : t'.node = Nodes.merge t.node p m j x { l with
    keys := l.keys ++ r.keys, values := l.values ++ r.values, next := r.next } y
  size : minKeys ≤ (l.keys ++ r.keys).length ∧ (l.keys ++ r.keys).length ≤ maxKeys
  others : ∀ z b, t.node z = some b → z ≠ x → z ≠ y →
    b.keys.length ≤ maxKeys ∧ (z ≠ t.root → minKeys ≤ b.keys.length)
  keyed : Keyed t.node t.root

/-- A root without keys is deleted; the merged leaf is to be the new root. -/
def collapse (p x : Addr) : Op K V Unit := do
  setRoot x
  let node ← read x
  write x { node with parent := none }
  delete (← Op.fuel) p

omit [LinearOrder K] in
/-- The new root is a child of the old one, and is deleted with it. -/
theorem collapse_ok (hx : t.node x = some l) (hleaf : l.isLeaf = true) (hp : t.node p = some m)
    (hinner : m.isLeaf = false) (hchildren : m.children = [x]) (hxp : x ≠ p) :
    ∃ t', collapse p x held t = .ok ((), t') ∧ t'.node p = none := by
  generalize ht : ({ t with root := x } : Heap K V) = t₁
  generalize hl : ({ l with parent := none } : Node K V) = l'
  have hx₁ : t₁.node x = some l := by
    rw [← ht]
    exact hx
  have hp₁ : t₁.node p = some m := by
    rw [← ht]
    exact hp
  have hput := Heap.node_put (n := l') hx₁
  have hx₂ : (t₁.put x l').node x = some l' := by rw [hput, Function.update_self]
  have hp₂ : (t₁.put x l').node p = some m := by
    rw [hput, Function.update_of_ne hxp.symm, hp₁]
  have hp₃ : ((t₁.put x l').drop x).node p = some m := by
    rw [Heap.node_drop hx₂, Function.update_of_ne hxp.symm, hp₂]
  have hleaf' : l'.isLeaf = true := by
    rw [← hl]
    exact hleaf
  obtain ⟨d, hd⟩ := exists_fuel hx₂ hp₂ hxp
  refine ⟨((t₁.put x l').drop x).drop p, ?_, ?_⟩
  · refine (bind_ok rfl).trans ?_
    rw [ht]
    refine (bind_ok (read_ok hx₁)).trans ?_
    rw [hl]
    refine (bind_ok (write_ok hx₁)).trans ((bind_ok rfl).trans ?_)
    rw [hd, delete, bind_ok (read_ok hp₂), hinner, if_neg Bool.false_ne_true, hchildren]
    refine (bind_ok ((bind_ok (delete_leaf hx₂ hleaf' d)).trans rfl)).trans ?_
    exact free_ok hp₃
  · rw [Heap.node_drop hp₃, Function.update_self]

/-- A leaf next to the one that has a key too few, or the parent, has keys to spare. -/
def Relievable (t : Heap K V) (p : Addr) (m : Node K V) (i : Nat) : Prop :=
  (∃ j c b, (j + 1 = i ∨ j = i + 1) ∧ m.children[j]? = some c ∧ t.node c = some b ∧
    minKeys < b.keys.length) ∨ needed t.root p < m.keys.length

section

variable (h : Sound t.node t.root own height) (hm : Merging t t' p m j x l y r)
include h hm

theorem Merging.parent : t'.node p = some { m with
    keys := m.keys.eraseIdx j, children := m.children.eraseIdx (j + 1) } := by
  obtain ⟨-, hyp, -, -, -⟩ := hm.adjacent.ne h
  rw [hm.node, Nodes.merge, Function.update_of_ne hyp.symm, Function.update_self]

theorem Merging.left : t'.node x = some { l with
    keys := l.keys ++ r.keys, values := l.values ++ r.values, next := r.next } := by
  obtain ⟨hxp, -, hxy, -, -⟩ := hm.adjacent.ne h
  rw [hm.node]
  exact Nodes.merge_left hxp hxy

theorem Merging.length_keys : (m.keys.eraseIdx j).length = m.keys.length - 1 :=
  List.length_eraseIdx_of_lt ((hm.adjacent.shape h).index_le hm.adjacent.right_child)

theorem Merging.one_le : 1 ≤ m.keys.length := by
  have hle := (hm.adjacent.shape h).index_le hm.adjacent.right_child
  omega

/-- Which of its three branches the end of the merge takes. -/
theorem Merging.afterMerge_eq (f : Addr → Op K V Unit) :
    afterMerge f p x held t' =
      (if p ≠ t.root ∧ m.keys.length - 1 < minKeys then f p
      else if p = t.root ∧ m.keys.length = 1 then collapse p x
      else pure ()) held t' := by
  have hlength := hm.length_keys h
  have hone := hm.one_le h
  have hroot : (Op.root : Op K V Addr) held t' = .ok (t.root, t') := by
    rw [← hm.root]
    rfl
  have hempty : m.keys.eraseIdx j = [] ↔ m.keys.length = 1 := by
    rw [← List.length_eq_zero_iff, hlength]
    omega
  rw [afterMerge, bind_ok (read_ok (hm.parent h)), bind_ok hroot, hlength]
  by_cases hlow : p ≠ t.root ∧ m.keys.length - 1 < minKeys
  · rw [if_pos hlow, if_pos hlow]
  · rw [if_neg hlow, if_neg hlow, bind_ok hroot]
    by_cases hlast : p = t.root ∧ m.keys.length = 1
    · rw [if_pos hlast, if_pos (hlast.imp_right hempty.mpr)]
      rfl
    · rw [if_neg hlast, if_neg fun hnil => hlast (hnil.imp_right hempty.mp)]

/-- The parent has keys enough left. -/
theorem Merging.spared (hspare : needed t.root p < m.keys.length) (f : Addr → Op K V Unit)
    (held : List Mutex) :
    afterMerge f p x held t' = .ok ((), t') ∧ Relieved t t' p := by
  rw [needed] at hspare
  have hone : m.keys.length ≠ 1 := by
    split at hspare
    · exact hspare.ne'
    · rw [minKeys] at hspare
      omega
  obtain ⟨hsound, hholds⟩ := hm.adjacent.unite h (fun _ _ => hone) hm.node
  refine ⟨?_, ?_, hholds, _, hm.parent h⟩
  · rw [hm.afterMerge_eq h, if_neg, if_neg (fun hroot => hone hroot.2)]
    · rfl
    · rintro ⟨hroot, hlow⟩
      rw [if_neg hroot] at hspare
      omega
  · exact hm.adjacent.healthy_merge hm.others hm.size hm.keyed hm.root h hsound hm.node hspare

/-- A root with one key is deleted with the merged leaf. -/
theorem Merging.collapsed (hroot : p = t.root) (hone : m.keys.length = 1)
    (f : Addr → Op K V Unit) :
    ∃ t'', afterMerge f p x held t' = .ok ((), t'') ∧ t''.node p = none := by
  obtain ⟨hxp, -, -, -, -⟩ := hm.adjacent.ne h
  have hlength := (hm.adjacent.shape h).children
  have hj := (List.getElem?_eq_some_iff.mp hm.adjacent.right_child).1
  have hfirst : (m.children.eraseIdx (j + 1))[0]? = some x := by
    rw [List.getElem?_eraseIdx_of_lt (Nat.succ_pos j), ← hm.adjacent.left_child]
    congr 1
    omega
  have hone' : (m.children.eraseIdx (j + 1)).length = 1 := by
    rw [List.length_eraseIdx_of_lt hj, hlength, hone]
  obtain ⟨x', hx'⟩ := List.length_eq_one_iff.mp hone'
  rw [hx'] at hfirst
  obtain rfl := Option.some.inj hfirst
  obtain ⟨t'', hop, hgone⟩ := collapse_ok (hm.left h) hm.adjacent.left_leaf (hm.parent h)
    hm.adjacent.inner hx' hxp
  refine ⟨t'', ?_, hgone⟩
  rw [hm.afterMerge_eq h, if_neg fun hlow => hlow.1 hroot, if_pos ⟨hroot, hone⟩, hop]

/-- A parent other than the root that has no key to spare is locked again. -/
theorem Merging.cascaded (hroot : p ≠ t.root) (hfew : m.keys.length = minKeys)
    (hheld : ∀ z, Mutex.node z ∈ held ↔ z = p) :
    afterMerge (handleUnderflow (fuel + 1)) p x held t' = .error .relocked := by
  have hone : m.keys.length ≠ 1 := by
    rw [hfew]
    decide
  obtain ⟨⟨own', hsound⟩, -⟩ := hm.adjacent.unite h (fun _ _ => hone) hm.node
  have hlow : m.keys.length - 1 < minKeys := by
    rw [hfew]
    decide
  rw [hm.afterMerge_eq h, if_pos ⟨hroot, hlow⟩]
  rw [← hm.root] at hsound hroot
  refine handleUnderflow_held hsound (hm.parent h) hroot ?_ hheld
  intro g mg hg hinner hnil
  rw [hm.node] at hg
  obtain ⟨hgy, ⟨rfl, rfl⟩ | ⟨-, rfl, rfl⟩ | ⟨hgp, hgx, hold⟩⟩ := Nodes.merge_cases hg
  · have hzero : (m.keys.eraseIdx j).length = 0 := congrArg List.length hnil
    rw [hm.length_keys h, hfew] at hzero
    cases hzero
  · cases hinner.symm.trans hm.adjacent.left_leaf
  · by_cases hgroot : g = t.root
    · exact hm.keyed mg (hgroot ▸ hold) hinner hnil
    · have hmin := (hm.others g mg hold hgx hgy).2 hgroot
      rw [hnil] at hmin
      cases hmin

end

/-! ### A leaf with a key too few -/

/-- No leaf on either side has a key to spare. -/
def Scarce (t : Heap K V) (m : Node K V) (i : Nat) : Prop :=
  ∀ j c b, (j + 1 = i ∨ j = i + 1) → m.children[j]? = some c → t.node c = some b →
    b.keys.length ≤ minKeys

section

variable (h : Lacking t own height p m i a n) (hheld : ∀ z, Mutex.node z ∈ held → z = p)
include h hheld

/-- The leaf is merged with the one on its left, or else with the one on its right. -/
theorem Lacking.exists_merging (hscarce : Scarce t m i) (fuel : Nat) : ∃ t' j x l y r,
    Merging t t' p m j x l y r ∧
      mergeAside fuel a m i held t = afterMerge (handleUnderflow fuel) p x held t' := by
  have hshort := h.short
  by_cases hi : 0 < i
  · obtain ⟨x, l, hx, ha⟩ := h.left hi
    obtain ⟨hxp, hap, hxa, hxroot, -⟩ := ha.ne h.sound
    obtain ⟨t', hop, hroot, hnode⟩ := ha.mergeWithLeft h.sound
      (fun hmem => hxp (hheld x hmem)) (fun hmem => hap (hheld a hmem)) (handleUnderflow fuel)
    have hfew := hscarce (i - 1) x l (.inl (Nat.sub_add_cancel hi)) hx ha.left
    have hmin := (h.others x l ha.left hxa).2 hxroot
    refine ⟨t', i - 1, x, l, a, n, ⟨ha, hroot, hnode, ?_, ?_, h.keyed⟩, ?_⟩
    · rw [List.length_append]
      simp only [minKeys, maxKeys] at *
      omega
    · exact fun z b hb _ hza => h.others z b hb hza
    · rw [mergeAside, if_pos hi, bind_ok (element_ok hx), hop]
  · have hright : i + 1 < m.children.length := by
      have hsiblings := h.siblings
      omega
    obtain ⟨y, r, hy, ha⟩ := h.right hright
    obtain ⟨hap, hyp, hay, -, hyroot⟩ := ha.ne h.sound
    obtain ⟨t', hop, hroot, hnode⟩ := ha.mergeWithRight h.sound
      (fun hmem => hap (hheld a hmem)) (fun hmem => hyp (hheld y hmem)) (handleUnderflow fuel)
    have hfew := hscarce (i + 1) y r (.inr rfl) hy ha.right
    have hmin := (h.others y r ha.right hay.symm).2 hyroot
    refine ⟨t', i, a, n, y, r, ⟨ha, hroot, hnode, ?_, ?_, h.keyed⟩, ?_⟩
    · rw [List.length_append]
      simp only [minKeys, maxKeys] at *
      omega
    · exact fun z b hb hza _ => h.others z b hb hza
    · rw [mergeAside, if_neg hi, bind_ok (element_ok hy), hop]

/-- What is left to do where nothing can be borrowed. -/
theorem Lacking.relieve_scarce (hscarce : Scarce t m i) :
    relieve fuel a m i held t = mergeAside fuel a m i held t := by
  have hleft := h.borrowLeft_no hheld fun x l hi hx hl =>
    hscarce (i - 1) x l (.inl (Nat.sub_add_cancel hi)) hx hl
  have hright := h.borrowRight_no hheld fun y r hy hr => hscarce (i + 1) y r (.inr rfl) hy hr
  rw [relieve, bind_ok hleft, if_neg Bool.false_ne_true, bind_ok hright,
    if_neg Bool.false_ne_true]

/-- A leaf whose neighbours or whose parent have keys to spare is relieved. -/
theorem Lacking.relieve_ok (hspare : Relievable t p m i) :
    ∃ t', relieve fuel a m i held t = .ok ((), t') ∧ Relieved t t' p := by
  by_cases hleft : ∃ x l, 0 < i ∧ m.children[i - 1]? = some x ∧ t.node x = some l ∧
      minKeys < l.keys.length
  · obtain ⟨x, l, hi, hx, hl, hmore⟩ := hleft
    obtain ⟨t', hop, hrelieved⟩ := h.borrowLeft_yes hheld hi hx hl hmore
    refine ⟨t', ?_, hrelieved⟩
    rw [relieve, bind_ok hop]
    rfl
  have hnoleft := h.borrowLeft_no hheld fun x l hi hx hl =>
    Nat.not_lt.mp fun hmore => hleft ⟨x, l, hi, hx, hl, hmore⟩
  by_cases hright : ∃ y r, m.children[i + 1]? = some y ∧ t.node y = some r ∧
      minKeys < r.keys.length
  · obtain ⟨y, r, hy, hr, hmore⟩ := hright
    obtain ⟨t', hop, hrelieved⟩ := h.borrowRight_yes hheld hy hr hmore
    refine ⟨t', ?_, hrelieved⟩
    rw [relieve, bind_ok hnoleft, if_neg Bool.false_ne_true, bind_ok hop]
    rfl
  have hscarce : Scarce t m i := by
    rintro j c b (rfl | rfl) hj hb
    · exact Nat.not_lt.mp fun hmore => hleft ⟨c, b, Nat.succ_pos j, hj, hb, hmore⟩
    · exact Nat.not_lt.mp fun hmore => hright ⟨c, b, hj, hb, hmore⟩
  have hparent : needed t.root p < m.keys.length := by
    rcases hspare with ⟨j, c, b, hplace, hj, hb, hmore⟩ | hparent
    · exact absurd hmore (Nat.not_lt.mpr (hscarce j c b hplace hj hb))
    · exact hparent
  obtain ⟨t', j, x, l, y, r, hm, hop⟩ := h.exists_merging hheld hscarce fuel
  obtain ⟨hend, hrelieved⟩ := hm.spared h.sound hparent (handleUnderflow fuel) held
  exact ⟨t', (h.relieve_scarce hheld hscarce).trans (hop.trans hend), hrelieved⟩

end

section

variable (h : Lacking t own height p m i a n) (hheld : ∀ z, Mutex.node z ∉ held)
include h

theorem Lacking.parent_eq : n.parent = some p := by
  obtain ⟨-, -, n', hn', hparent⟩ := h.shape.child i a h.child
  rw [← hparent, Option.some.inj (h.leaf.symm.trans hn')]

include hheld

omit h in
theorem mem_held_iff (z : Addr) : Mutex.node z ∈ Mutex.node p :: held ↔ z = p := by
  simp [hheld z]

/-- `handle_underflow` puts a leaf right that can be relieved. -/
theorem Lacking.handleUnderflow_ok (hspare : Relievable t p m i) (fuel : Nat) :
    ∃ t', handleUnderflow (fuel + 1) a held t = .ok ((), t') ∧ Healthy t' ∧
      ∀ k v, Holds t'.node k v ↔ Holds t.node k v := by
  obtain ⟨t', hop, hhealthy, hholds, m', hm'⟩ :=
    h.relieve_ok (fun z => (mem_held_iff hheld z).mp) hspare
  exact ⟨t', Index.handleUnderflow_ok h.leaf h.parent_eq (hheld p) h.parent h.idxOf hop hm',
    hhealthy, hholds⟩

/-- It does not end otherwise: a root is destroyed while it is locked, and another parent is
locked twice. -/
theorem Lacking.handleUnderflow_fault (hspare : ¬ Relievable t p m i) (fuel : Nat) :
    handleUnderflow (fuel + 2) a held t =
      .error (if p = t.root then .removed else .relocked) := by
  have hscarce : Scarce t m i := fun j c b hplace hj hb =>
    Nat.not_lt.mp fun hmore => hspare (.inl ⟨j, c, b, hplace, hj, hb, hmore⟩)
  have hfew : m.keys.length ≤ needed t.root p := Nat.not_lt.mp fun hmore => hspare (.inr hmore)
  have hiff := mem_held_iff (p := p) hheld
  obtain ⟨t', j, x, l, y, r, hm, hop⟩ := h.exists_merging
    (fun z => (hiff z).mp) hscarce (fuel + 1)
  have hrelieve := (h.relieve_scarce (fun z => (hiff z).mp) hscarce).trans hop
  have hone := hm.one_le h.sound
  by_cases hroot : p = t.root
  · rw [needed, if_pos hroot] at hfew
    obtain ⟨t'', hend, hgone⟩ := hm.collapsed h.sound hroot (Nat.le_antisymm hfew hone)
      (handleUnderflow (fuel + 1))
    rw [if_pos hroot]
    exact handleUnderflow_removed h.leaf h.parent_eq (hheld p) h.parent h.idxOf
      (hrelieve.trans hend) hgone
  · rw [needed, if_neg hroot] at hfew
    obtain ⟨hap, -⟩ := h.sound.child_facts h.parent h.inner (List.mem_of_getElem? h.child)
    have hmin := (h.others p m h.parent hap.symm).2 hroot
    rw [if_neg hroot]
    exact handleUnderflow_error h.leaf h.parent_eq (hheld p) h.parent h.idxOf
      (hrelieve.trans (hm.cascaded h.sound hroot (Nat.le_antisymm hfew hmin) hiff))

end

/-! ### remove -/

/-- A removal needs no more of the tree than it has: the leaf keeps enough keys, or it can be
relieved. -/
def Harmless (t : Heap K V) (key : K) : Prop :=
  ∀ a n p m i, t.node a = some n → n.isLeaf = true → key ∈ n.keys → n.keys.length ≤ minKeys →
    t.node p = some m → m.isLeaf = false → m.children[i]? = some a → Relievable t p m i

/-- A leaf without a key that it has had. -/
def Node.without (n : Node K V) (key : K) : Node K V :=
  { n with
    keys := n.keys.eraseIdx (n.keys.idxOf key)
    values := n.values.eraseIdx (n.keys.idxOf key) }

section

variable {ks : List K} {vs : List V} {pos : Nat} {k : K} {v : V}

/-- A key is erased with its value. -/
theorem exists_eraseIdx (hsorted : ks.Pairwise (· < ·)) (hpos : ks[pos]? = some key) :
    (∃ i : Nat, (ks.eraseIdx pos)[i]? = some k ∧ (vs.eraseIdx pos)[i]? = some v) ↔
      k ≠ key ∧ ∃ i : Nat, ks[i]? = some k ∧ vs[i]? = some v := by
  have hother : ∀ {j : Nat}, j ≠ pos → ks[j]? = some k → k ≠ key := by
    rintro j hj hk rfl
    exact hj (place_unique hsorted hk hpos)
  constructor
  · rintro ⟨i, hk, hv⟩
    rcases Nat.lt_or_ge i pos with hi | hi
    · rw [List.getElem?_eraseIdx_of_lt hi] at hk hv
      exact ⟨hother hi.ne hk, i, hk, hv⟩
    · rw [List.getElem?_eraseIdx_of_ge hi] at hk hv
      exact ⟨hother (Nat.lt_succ_of_le hi).ne' hk, i + 1, hk, hv⟩
  · rintro ⟨hne, i, hk, hv⟩
    rcases lt_trichotomy i pos with hi | rfl | hi
    · refine ⟨i, ?_, ?_⟩
      · rw [List.getElem?_eraseIdx_of_lt hi, hk]
      · rw [List.getElem?_eraseIdx_of_lt hi, hv]
    · exact absurd (Option.some.inj (hk.symm.trans hpos)) hne
    · obtain ⟨j, rfl⟩ := Nat.exists_eq_add_of_lt hi
      refine ⟨pos + j, ?_, ?_⟩
      · rw [List.getElem?_eraseIdx_of_ge (Nat.le_add_right pos j), hk]
      · rw [List.getElem?_eraseIdx_of_ge (Nat.le_add_right pos j), hv]

end

/-- The entries after a key has gone. -/
def Removed (N N' : Nodes K V) (key : K) : Prop := ∀ k v, Holds N' k v ↔ k ≠ key ∧ Holds N k v

section

variable (h : Sound t.node t.root own height) (hn : t.node a = some n) (hleaf : n.isLeaf = true)
include h hn hleaf

/-- A key is erased from its leaf. -/
theorem Shape.put_without (hkey : key ∈ n.keys) :
    Sound (t.put a (n.without key)).node t.root own height ∧
      Removed t.node (t.put a (n.without key)).node key ∧
      (n.without key).keys.length = n.keys.length - 1 := by
  have hshape := (h.leaf a n hn hleaf).2
  have hplace := idxOf_getElem? hkey
  have hlt := (List.getElem?_eq_some_iff.mp hplace).1
  have hlength : (n.without key).keys.length = n.keys.length - 1 := List.length_eraseIdx_of_lt hlt
  have hsound : Sound (Function.update t.node a (some (n.without key))) t.root own height := by
    refine h.put_leaf hn hleaf hleaf rfl rfl ?_ ?_ ?_
    · exact hshape.sorted.sublist (List.eraseIdx_sublist _ _)
    · exact fun k hk => hshape.inside k ((List.eraseIdx_sublist _ _).subset hk)
    · rw [hlength, ← hshape.values]
      exact List.length_eraseIdx_of_lt (hshape.values.symm ▸ hlt)
  refine ⟨?_, ?_, hlength⟩
  · rw [Heap.node_put hn]
    exact hsound
  · intro k v
    have hlists : (∃ i : Nat, (n.without key).keys[i]? = some k ∧
        (n.without key).values[i]? = some v) ↔
        k ≠ key ∧ ∃ i : Nat, n.keys[i]? = some k ∧ n.values[i]? = some v :=
      exists_eraseIdx hshape.sorted hplace
    rw [Heap.node_put hn, h.holds_put hsound hleaf, hlists]
    by_cases hk : k ∈ own a
    · simp [hk, h.holds_iff hn hleaf hk]
    · have hne : k ≠ key := by
        rintro rfl
        exact hk (hshape.inside k hkey)
      simp [hk, hne]

omit [LinearOrder K] h hn hleaf in
/-- The tree is locked while the leaf is put right. -/
theorem locked_handleUnderflow :
    locked .tree (do handleUnderflow (← Op.fuel) a) [] t =
      handleUnderflow t.cells.length a [.tree] t := by
  rw [locked_tree List.not_mem_nil]
  rfl

omit h hleaf

theorem deleteFromLeaf_absent (hkey : key ∉ n.keys) :
    deleteFromLeaf a key [] t = .ok (false, t) := by
  have hscope : locked (.node a) (do
      let node ← read a
      if key ∈ node.keys then do
        let pos := node.keys.idxOf key
        let keys := node.keys.eraseIdx pos
        write a { node with keys := keys, values := node.values.eraseIdx pos }
        return some (decide (a ≠ (← root) ∧ keys.length < minKeys))
      else return none : Op K V (Option Bool)) [] t = .ok (none, t) := by
    refine locked_ok List.not_mem_nil hn ?_ hn
    rw [bind_ok (read_ok hn), if_neg hkey]
    rfl
  exact bind_ok hscope

/-- What follows when the key has been erased. -/
theorem deleteFromLeaf_present (hkey : key ∈ n.keys) :
    deleteFromLeaf a key [] t =
      (if a ≠ t.root ∧ (n.without key).keys.length < minKeys then do
        locked .tree do
          handleUnderflow (← Op.fuel) a
        return true
      else pure true) [] (t.put a (n.without key)) := by
  have hself : (t.put a (n.without key)).node a = some (n.without key) := by
    rw [Heap.node_put hn, Function.update_self]
  have hscope : locked (.node a) (do
      let node ← read a
      if key ∈ node.keys then do
        let pos := node.keys.idxOf key
        let keys := node.keys.eraseIdx pos
        write a { node with keys := keys, values := node.values.eraseIdx pos }
        return some (decide (a ≠ (← root) ∧ keys.length < minKeys))
      else return none : Op K V (Option Bool)) [] t =
      .ok (some (decide (a ≠ t.root ∧ (n.without key).keys.length < minKeys)),
        t.put a (n.without key)) := by
    refine locked_ok List.not_mem_nil hn ?_ hself
    rw [bind_ok (read_ok hn), if_pos hkey]
    exact (bind_ok (write_ok hn)).trans rfl
  refine (bind_ok hscope).trans ?_
  by_cases hlow : a ≠ t.root ∧ (n.without key).keys.length < minKeys
  · rw [if_pos hlow, decide_eq_true hlow]
  · rw [if_neg hlow, decide_eq_false hlow]

end

section

variable (h : Sound t.node t.root own height) (hn : t.node a = some n)
  (hleaf : n.isLeaf = true) (hkey : key ∈ n.keys)
include h hn hleaf hkey

/-- A leaf that had as few keys as it may have lacks one. -/
theorem Shape.lacking_without (hsized : Sized t.node t.root) (hkeyed : Keyed t.node t.root)
    (hfew : n.keys.length ≤ minKeys) (hm : t.node p = some m) (hinner : m.isLeaf = false)
    (hi : m.children[i]? = some a) :
    Lacking (t.put a (n.without key)) own height p m i a (n.without key) := by
  obtain ⟨hsound, -, hlength⟩ := h.put_without hn hleaf hkey
  obtain ⟨hap, haroot, -⟩ := h.child_facts hm hinner (List.mem_of_getElem? hi)
  have hmin := (hsized a n hn).2 haroot
  have hnode := Heap.node_put (n := n.without key) hn
  refine ⟨hsound, ?_, hleaf, ?_, hinner, hi, ?_, ?_, ?_⟩
  · rw [hnode, Function.update_self]
  · rw [hnode, Function.update_of_ne hap.symm, hm]
  · rw [hlength]
    simp only [minKeys] at *
    omega
  · intro x b hb hxa
    rw [hnode, Function.update_of_ne hxa] at hb
    exact hsized x b hb
  · rw [hnode]
    exact keyed_put_leaf hkeyed hleaf

omit hleaf hkey in
/-- What its neighbours and its parent have to spare is what they had. -/
theorem Shape.relievable_without (key : K) (hm : t.node p = some m) (hinner : m.isLeaf = false)
    (hi : m.children[i]? = some a) :
    Relievable (t.put a (n.without key)) p m i ↔ Relievable t p m i := by
  have hshape := h.inner p m hm hinner
  have hsame : ∀ {j c}, (j + 1 = i ∨ j = i + 1) → m.children[j]? = some c →
      (t.put a (n.without key)).node c = t.node c := by
    intro j c hplace hj
    rw [Heap.node_put hn, Function.update_of_ne]
    rintro rfl
    have hji := hshape.index_inj hj hi
    omega
  rw [Relievable, Relievable, Heap.put_root]
  refine or_congr (exists_congr fun j => exists_congr fun c => exists_congr fun b => ?_) Iff.rfl
  constructor
  · rintro ⟨hplace, hj, hb, hmore⟩
    exact ⟨hplace, hj, (hsame hplace hj).symm.trans hb, hmore⟩
  · rintro ⟨hplace, hj, hb, hmore⟩
    exact ⟨hplace, hj, (hsame hplace hj).trans hb, hmore⟩

end

section

variable {entries : K → Option V} (h : Healthy t)
include h

/-- The leaf with a key is the one `find_leaf` ends at. -/
theorem Healthy.findLeaf_ok (hn : t.node a = some n) (hleaf : n.isLeaf = true)
    (hkey : key ∈ n.keys) : findLeaf key [] t = .ok (a, t) := by
  obtain ⟨own, height, hsound⟩ := h.shape
  obtain ⟨b, m, hfind, hm, hmleaf, hb⟩ := hsound.findLeaf_ok key
  obtain ⟨hzero, hshape⟩ := hsound.leaf a n hn hleaf
  have hlevel := (hsound.leaf b m hm hmleaf).1.trans hzero.symm
  rw [hfind, hsound.eq_of_mem hm hn hlevel hb (hshape.inside key hkey)]

/-- A removal that is harmless. -/
theorem Healthy.remove_ok (hentries : Represents t entries) (hharmless : Harmless t key) :
    ∃ t', remove key [] t = .ok ((entries key).isSome, t') ∧ Healthy t' ∧
      Represents t' (Function.update entries key none) := by
  obtain ⟨own, height, hsound⟩ := h.shape
  obtain ⟨a, n, hfind, hn, hleaf, hkey⟩ := hsound.findLeaf_ok key
  by_cases hmem : key ∈ n.keys
  · have hsome : (entries key).isSome := by
      obtain ⟨v, hv, hentry⟩ := hsound.entry_some hentries hn hleaf hmem
      rw [hentry]
      rfl
    obtain ⟨hsound', hremoved, hlength⟩ := hsound.put_without hn hleaf hmem
    have hrepresents : ∀ {t' : Heap K V},
        (∀ k v, Holds t'.node k v ↔ Holds (t.put a (n.without key)).node k v) →
        Represents t' (Function.update entries key none) := by
      intro t' hholds k v
      rw [hholds, hremoved, hentries]
      by_cases hk : k = key
      · simp [hk]
      · simp [hk, Function.update_of_ne]
    have hnode := Heap.node_put (n := n.without key) hn
    rw [remove, bind_ok hfind, deleteFromLeaf_present hn hmem, hsome]
    by_cases hlow : a ≠ t.root ∧ (n.without key).keys.length < minKeys
    · have hfew : n.keys.length ≤ minKeys := by omega
      obtain ⟨p, m, i, -, hm, hinner, hi, -⟩ := hsound.exists_parent hn hlow.1
      have hlacking := hsound.lacking_without hn hleaf hmem h.sized h.keyed hfew hm hinner hi
      have hspare := (hsound.relievable_without hn key hm hinner hi).mpr
        (hharmless a n p m i hn hleaf hmem hfew hm hinner hi)
      obtain ⟨f, hf⟩ : ∃ f, (t.put a (n.without key)).cells.length = f + 1 :=
        ⟨_, (Nat.sub_add_cancel (Nat.one_le_of_lt (Heap.lt_of_node hlacking.leaf))).symm⟩
      obtain ⟨t', hop, hhealthy, hholds⟩ := hlacking.handleUnderflow_ok not_held_tree hspare f
      refine ⟨t', ?_, hhealthy, hrepresents hholds⟩
      rw [if_pos hlow]
      rw [← hf, ← locked_handleUnderflow] at hop
      exact bind_ok hop
    · refine ⟨_, ?_, ⟨⟨own, height, hsound'⟩, ?_, ?_⟩, hrepresents fun k v => Iff.rfl⟩
      · rw [if_neg hlow]
        rfl
      · intro x b hb
        rw [hnode] at hb
        by_cases hxa : x = a
        · rw [hxa, Function.update_self] at hb
          obtain rfl := Option.some.inj hb
          rw [hxa]
          refine ⟨hlength.trans_le ((Nat.sub_le _ _).trans (h.sized a n hn).1), fun hroot => ?_⟩
          exact Nat.not_lt.mp fun hless => hlow ⟨hroot, hless⟩
        · rw [Function.update_of_ne hxa] at hb
          exact h.sized x b hb
      · rw [hnode]
        exact keyed_put_leaf h.keyed hleaf
  · have hnone := hsound.entry_none hentries hn hleaf hkey hmem
    refine ⟨t, ?_, h, ?_⟩
    · rw [remove, bind_ok hfind, deleteFromLeaf_absent hn hmem, hnone]
      rfl
    · rw [← hnone, Function.update_eq_self]
      exact hentries

/-- A removal that is not. -/
theorem Healthy.remove_fault (hn : t.node a = some n) (hleaf : n.isLeaf = true)
    (hkey : key ∈ n.keys) (hfew : n.keys.length ≤ minKeys) (hm : t.node p = some m)
    (hinner : m.isLeaf = false) (hi : m.children[i]? = some a) (hspare : ¬ Relievable t p m i) :
    remove key [] t = .error (if p = t.root then .removed else .relocked) := by
  obtain ⟨own, height, hsound⟩ := h.shape
  obtain ⟨hap, haroot, -⟩ := hsound.child_facts hm hinner (List.mem_of_getElem? hi)
  have hlacking := hsound.lacking_without hn hleaf hkey h.sized h.keyed hfew hm hinner hi
  have hspare' := mt (hsound.relievable_without hn key hm hinner hi).mp hspare
  obtain ⟨f, hf⟩ := exists_fuel hlacking.leaf hlacking.parent hap
  have hop := hlacking.handleUnderflow_fault not_held_tree hspare' f
  have hshort := hlacking.short
  rw [remove, bind_ok (h.findLeaf_ok hn hleaf hkey), deleteFromLeaf_present hn hkey,
    if_pos ⟨haroot, by omega⟩]
  rw [← hf, ← locked_handleUnderflow] at hop
  exact bind_error hop

end

end NanoVault.Index
