/-
A node in two halves.

A split moves the right half of a node into a new one (`Nodes.split`), which hangs on no parent
until its key and its address are entered in the parent of the left half, or in a new root
(`Pending`). What is said here is about the nodes only, for leaves and inner nodes alike.
-/
import NanoVault.Index.Shape

namespace NanoVault.Index

open Lib Lib.KeyRange

section

variable {K V : Type}

/-- The nodes of a list get another parent. -/
def Nodes.adopt (N : Nodes K V) (cs : List Addr) (p : Addr) : Nodes K V := fun x =>
  (N x).map fun m => { m with parent := if x ∈ cs then some p else m.parent }

/-- `l` is left of the node at `a`, and `r` is at the new address `b`. -/
def Nodes.split (N : Nodes K V) (a : Addr) (l : Node K V) (b : Addr) (r : Node K V) :
    Nodes K V :=
  Function.update (Function.update (N.adopt r.children b) a (some l)) b (some r)

/-- `right` is entered behind `key` in the node at `p`. -/
def Nodes.link (N : Nodes K V) (p : Addr) (m : Node K V) (i : Nat) (key : K) (right : Addr) :
    Nodes K V :=
  Function.update (N.adopt [right] p) p (some { m with
    keys := m.keys.insertIdx i key
    children := m.children.insertIdx (i + 1) right })

/-- A new root at `b`, over two halves. -/
def Nodes.grow (N : Nodes K V) (left : Addr) (key : K) (right b : Addr) : Nodes K V :=
  Function.update (N.adopt [left, right] b) b
    (some { keys := [key], children := [left, right], isLeaf := false })

variable {N : Nodes K V} {a b c p : Addr} {m m' n l r : Node K V} {cs : List Addr}

theorem Nodes.adopt_some (h : N c = some m) : N.adopt cs p c =
    some { m with parent := if c ∈ cs then some p else m.parent } := by
  rw [Nodes.adopt, h]
  rfl

theorem Nodes.exists_of_adopt (h : N.adopt cs p c = some m') :
    ∃ m, N c = some m ∧ m' = { m with parent := if c ∈ cs then some p else m.parent } := by
  obtain ⟨m, hm, rfl⟩ := Option.map_eq_some_iff.mp h
  exact ⟨m, hm, rfl⟩

theorem Nodes.adopt_nil (N : Nodes K V) (p : Addr) : N.adopt [] p = N := by
  funext c
  cases hc : N c with
  | none => rw [Nodes.adopt, hc, Option.map_none]
  | some m => rw [Nodes.adopt_some hc, if_neg List.not_mem_nil]

/-- One node gets the parent after the other. -/
theorem Nodes.adopt_cons (hm : N a = some m) :
    Nodes.adopt (Function.update N a (some { m with parent := some p })) cs p =
      N.adopt (a :: cs) p := by
  funext c
  by_cases hc : c = a
  · subst hc
    have hself : Function.update N c (some { m with parent := some p }) c =
        some { m with parent := some p } := Function.update_self _ _ _
    rw [Nodes.adopt_some hself, Nodes.adopt_some hm, if_pos List.mem_cons_self]
    by_cases hmem : c ∈ cs
    · rw [if_pos hmem]
    · rw [if_neg hmem]
  · have hmem : c ∈ a :: cs ↔ c ∈ cs := by
      rw [List.mem_cons, or_iff_right hc]
    simp only [Nodes.adopt, Function.update_of_ne hc, hmem]

/-- A node that is written before or after others get a parent. -/
theorem Nodes.adopt_update (ha : a ∉ cs) :
    Nodes.adopt (Function.update N a (some n)) cs p =
      Function.update (N.adopt cs p) a (some n) := by
  funext c
  by_cases hc : c = a
  · subst hc
    have hself : Function.update N c (some n) c = some n := Function.update_self _ _ _
    rw [Function.update_self, Nodes.adopt_some hself, if_neg ha]
  · rw [Function.update_of_ne hc, Nodes.adopt, Nodes.adopt, Function.update_of_ne hc]

/-- What stands at an address after some nodes have got another parent and one is written. -/
theorem Nodes.adopt_cases (h : Function.update (N.adopt cs p) a (some n) c = some m') :
    c = a ∧ m' = n ∨ c ≠ a ∧ ∃ m, N c = some m ∧
      m' = { m with parent := if c ∈ cs then some p else m.parent } := by
  by_cases ha : c = a
  · rw [ha, Function.update_self] at h
    exact .inl ⟨ha, (Option.some.inj h).symm⟩
  · rw [Function.update_of_ne ha] at h
    exact .inr ⟨ha, Nodes.exists_of_adopt h⟩

theorem Nodes.split_left (hab : a ≠ b) : N.split a l b r a = some l := by
  rw [Nodes.split, Function.update_of_ne hab, Function.update_self]

theorem Nodes.split_right : N.split a l b r b = some r := Function.update_self _ _ _

theorem Nodes.split_other (ha : c ≠ a) (hb : c ≠ b) :
    N.split a l b r c = N.adopt r.children b c := by
  rw [Nodes.split, Function.update_of_ne hb, Function.update_of_ne ha]

theorem Nodes.ne_of_live (hb : N b = none) (hm : N c = some m) : c ≠ b := by
  rintro rfl
  cases hm.symm.trans hb

/-- What stands at an address after a split. -/
theorem Nodes.split_cases (hne : a ≠ b) (h : N.split a l b r c = some m') :
    c = b ∧ m' = r ∨ c = a ∧ m' = l ∨ c ≠ b ∧ c ≠ a ∧ ∃ m, N c = some m ∧
      m' = { m with parent := if c ∈ r.children then some b else m.parent } := by
  by_cases hb : c = b
  · rw [hb, Nodes.split_right] at h
    exact .inl ⟨hb, (Option.some.inj h).symm⟩
  · by_cases ha : c = a
    · rw [ha, Nodes.split_left hne] at h
      exact .inr (.inl ⟨ha, (Option.some.inj h).symm⟩)
    · rw [Nodes.split_other ha hb] at h
      exact .inr (.inr ⟨hb, ha, Nodes.exists_of_adopt h⟩)

end

variable {K V : Type} [LinearOrder K]

/-- The node `right` is to be entered behind `left`, with `key` between them; until then the slot
`due` to the left half is larger than its interval. -/
structure Pending (N : Nodes K V) (root : Addr) (due : Addr → KeyRange K) (height : Addr → Nat)
    (left : Addr) (key : K) (right : Addr) : Prop where
  shape : Shape N root (Function.update due left ⟨(due left).lo, key⟩) due height (some right)
  due_right : due right = ⟨key, (due left).hi⟩
  above : (due left).lo < key
  below : key < (due left).hi
  height_right : height right = height left
  right_ne_left : right ≠ left
  right_ne_root : right ≠ root
  live_left : ∃ n, N left = some n
  live_right : ∃ n, N right = some n
  not_child : ∀ p i, ¬ N.Child p i right

variable {N : Nodes K V} {root : Addr} {own due : Addr → KeyRange K} {height : Addr → Nat}
  {a b c p left right : Addr} {n m m' l r : Node K V} {i : Nat} {key : K}

/-! ### A split -/

/-- What a child and its parent have to do with each other. -/
theorem Shape.child_facts {orphan : Option Addr} (h : Shape N root own due height orphan)
    (hp : N p = some m) (hinner : m.isLeaf = false) (hc : c ∈ m.children) :
    c ≠ p ∧ c ≠ root ∧ ∃ m', N c = some m' ∧ m'.parent = some p := by
  obtain ⟨i, hi⟩ := List.getElem?_of_mem hc
  obtain ⟨-, hheight, m', hm', hparent⟩ := (h.inner p m hp hinner).child i c hi
  refine ⟨?_, ?_, m', hm', hparent⟩
  · rintro rfl
    omega
  · rintro rfl
    obtain ⟨n, hn, hnone⟩ := h.root_live
    obtain rfl := Option.some.inj (hm'.symm.trans hn)
    cases hparent.symm.trans hnone

section

variable (h : Sound N root own height) (hn : N a = some n) (hb : N b = none)
  (hchildren : n.children = l.children ++ r.children)
  (hnone : n.isLeaf = true → r.children = [])

include h hn hchildren hnone

/-- What is moved is a child of the node that is split. -/
theorem Shape.split_moved (hm : N c = some m) (hmem : c ∈ r.children) :
    c ≠ a ∧ c ≠ root ∧ m.parent = some a := by
  cases hkind : n.isLeaf with
  | true =>
      rw [hnone hkind] at hmem
      cases hmem
  | false =>
      obtain ⟨hca, hcroot, m', hm', hpar⟩ := h.child_facts hn hkind
        (hchildren ▸ List.mem_append_right _ hmem)
      obtain rfl := Option.some.inj (hm.symm.trans hm')
      exact ⟨hca, hcroot, hpar⟩

include hb

/-- The children of other nodes stay as they are. -/
theorem Shape.split_stays (hm : N c = some m) (hca : c ≠ a) (hp : m.parent = some p)
    (hpa : p ≠ a) : N.split a l b r c = some m := by
  have hmem : c ∉ r.children := fun hmem =>
    hpa (Option.some.inj (hp.symm.trans (h.split_moved hn hchildren hnone hm hmem).2.2))
  rw [Nodes.split_other hca (Nodes.ne_of_live hb hm), Nodes.adopt_some hm, if_neg hmem]

/-- The halves share the children; the new one is a child of none. -/
theorem Shape.split_owned (hleft : l.isLeaf = n.isLeaf) (hparent : l.parent = n.parent)
    (hright : r.isLeaf = n.isLeaf) (hm : N.split a l b r c = some m) (hcroot : c ≠ root)
    (hcb : c ≠ b) : ∃ p i, m.parent = some p ∧ (N.split a l b r).Child p i c := by
  have hlive : ∀ {x m}, N x = some m → x ≠ b := Nodes.ne_of_live hb
  have hab : a ≠ b := hlive hn
  rcases Nodes.split_cases hab hm with ⟨rfl, rfl⟩ | ⟨rfl, rfl⟩ | ⟨-, hca, m₀, hm₀, rfl⟩
  · exact absurd rfl hcb
  · obtain ⟨p, i, hp, mp, hmp, hmpkind, hi⟩ := h.owned _ n hn hcroot (Option.some_ne_none _)
    have hpa := (h.child_facts hmp hmpkind (List.mem_of_getElem? hi)).1
    exact ⟨p, i, hparent.trans hp, _,
      (Nodes.split_other hpa.symm (hlive hmp)).trans (Nodes.adopt_some hmp), hmpkind, hi⟩
  · obtain ⟨p, i, hp, mp, hmp, hmpkind, hi⟩ := h.owned c m₀ hm₀ hcroot (Option.some_ne_none _)
    by_cases hpa : p = a
    · subst hpa
      obtain rfl := Option.some.inj (hn.symm.trans hmp)
      by_cases hmem : c ∈ r.children
      · obtain ⟨j, hj⟩ := List.getElem?_of_mem hmem
        exact ⟨b, j, if_pos hmem, r, Nodes.split_right, hright.trans hmpkind, hj⟩
      · have hmem' := List.mem_of_getElem? hi
        rw [hchildren, List.mem_append] at hmem'
        obtain ⟨j, hj⟩ := List.getElem?_of_mem (hmem'.resolve_right hmem)
        exact ⟨p, j, (if_neg hmem).trans hp, l, Nodes.split_left hab, hleft.trans hmpkind, hj⟩
    · have hsame := (h.split_stays hn hb hchildren hnone hm₀ hca hp hpa).symm.trans hm
      refine ⟨p, i, ?_, _,
        (Nodes.split_other hpa (hlive hmp)).trans (Nodes.adopt_some hmp), hmpkind, hi⟩
      rw [← Option.some.inj hsame]
      exact hp

omit hnone in
theorem Shape.split_not_child (hleft : l.isLeaf = n.isLeaf) (hright : r.isLeaf = n.isLeaf)
    (p : Addr) (i : Nat) : ¬ (N.split a l b r).Child p i b := by
  rintro ⟨m', hm', hkind, hi⟩
  have hchild : ∀ {x m}, N x = some m → m.isLeaf = false → b ∉ m.children := by
    intro x m hx hinn hmem
    obtain ⟨-, -, mb, hmb, -⟩ := h.child_facts hx hinn hmem
    exact Nodes.ne_of_live hb hmb rfl
  have hmem := List.mem_of_getElem? hi
  rcases Nodes.split_cases (Nodes.ne_of_live hb hn) hm' with
    ⟨rfl, rfl⟩ | ⟨rfl, rfl⟩ | ⟨-, -, m, hm, rfl⟩
  · exact hchild hn (hright ▸ hkind) (hchildren ▸ List.mem_append_right _ hmem)
  · exact hchild hn (hleft ▸ hkind) (hchildren ▸ List.mem_append_left _ hmem)
  · exact hchild hm hkind hmem

end

/-- A root that is split, or not, is still there. -/
theorem Shape.split_root (h : Sound N root own height) (hn : N a = some n) (hb : N b = none)
    (hparent : l.parent = n.parent) (hchildren : n.children = l.children ++ r.children)
    (hnone : n.isLeaf = true → r.children = []) :
    ∃ m, N.split a l b r root = some m ∧ m.parent = none := by
  obtain ⟨n₀, hroot, hrootparent⟩ := h.root_live
  have hlive : ∀ {x m}, N x = some m → x ≠ b := Nodes.ne_of_live hb
  by_cases ha : root = a
  · subst ha
    obtain rfl := Option.some.inj (hn.symm.trans hroot)
    exact ⟨l, Nodes.split_left (hlive hn), hparent.trans hrootparent⟩
  · have hmem : root ∉ r.children := fun hmem =>
      (h.split_moved hn hchildren hnone hroot hmem).2.1 rfl
    refine ⟨n₀, ?_, hrootparent⟩
    rw [Nodes.split_other ha (hlive hroot), Nodes.adopt_some hroot, if_neg hmem]

section

variable {due : Addr → KeyRange K} {own' : Addr → KeyRange K} {height' : Addr → Nat}

/-- A leaf beside the split is as before; if it pointed to the node that is split, it points to
the left half. -/
theorem Shape.split_leaf_other (h : Sound N root own height) (hn : N a = some n) (hb : N b = none)
    (hleft : l.isLeaf = n.isLeaf) (hlo : (own' a).lo = (own a).lo)
    (hown : ∀ {x m}, N x = some m → x ≠ a → own' x = own x)
    (hm' : N.split a l b r c = some m') (hca : c ≠ a) (hcb : c ≠ b) (hkind : m'.isLeaf = true) :
    (∃ m, N c = some m) ∧ height c = 0 ∧ LeafShape (N.split a l b r) own' c m' := by
  have hlive : ∀ {x m}, N x = some m → x ≠ b := Nodes.ne_of_live hb
  rcases Nodes.split_cases (hlive hn) hm' with ⟨heq, -⟩ | ⟨heq, -⟩ | ⟨-, -, m, hm, rfl⟩
  · exact absurd heq hcb
  · exact absurd heq hca
  · obtain ⟨hzero, hsound⟩ := h.leaf c m hm hkind
    refine ⟨⟨m, hm⟩, hzero, hsound.congr rfl rfl rfl (hown hm hca) ?_⟩
    intro y my hy hmy hykind
    by_cases hya : y = a
    · subst hya
      obtain rfl := Option.some.inj (hn.symm.trans hmy)
      exact ⟨hlo, l, Nodes.split_left (hlive hn), hleft.trans hykind⟩
    · rw [hown hmy hya]
      exact ⟨rfl, _, (Nodes.split_other hya (hlive hmy)).trans (Nodes.adopt_some hmy), hykind⟩

/-- An inner node beside the split keeps its children, the left half among them. -/
theorem Shape.split_inner_other (h : Sound N root own height) (hn : N a = some n)
    (hb : N b = none) (hparent : l.parent = n.parent)
    (hchildren : n.children = l.children ++ r.children)
    (hnone : n.isLeaf = true → r.children = [])
    (hown : ∀ {x m}, N x = some m → x ≠ a → own' x = own x)
    (hdue : ∀ {x m}, N x = some m → due x = own x)
    (hheight : ∀ {x m}, N x = some m → height' x = height x)
    (hm' : N.split a l b r c = some m') (hca : c ≠ a) (hcb : c ≠ b)
    (hkind : m'.isLeaf = false) : InnerShape (N.split a l b r) own' due height' c m' := by
  have hlive : ∀ {x m}, N x = some m → x ≠ b := Nodes.ne_of_live hb
  rcases Nodes.split_cases (hlive hn) hm' with ⟨heq, -⟩ | ⟨heq, -⟩ | ⟨-, -, m, hm, rfl⟩
  · exact absurd heq hcb
  · exact absurd heq hca
  · refine (h.inner c m hm hkind).congr rfl rfl (hown hm hca) (hheight hm) ?_
    intro y my _ hmy hpar
    refine ⟨hdue hmy, hheight hmy, ?_⟩
    by_cases hya : y = a
    · subst hya
      obtain rfl := Option.some.inj (hn.symm.trans hmy)
      exact ⟨l, Nodes.split_left (hlive hn), hparent.trans hpar⟩
    · exact ⟨my, h.split_stays hn hb hchildren hnone hmy hya hpar hca, hpar⟩

end

/-- The halves of a node, if each has the shape it should have. -/
theorem Shape.split (h : Sound N root own height) (hn : N a = some n) (hb : N b = none)
    (hlo : (own a).lo < key) (hhi : key < (own a).hi) (hleft : l.isLeaf = n.isLeaf)
    (hparent : l.parent = n.parent) (hright : r.isLeaf = n.isLeaf)
    (hchildren : n.children = l.children ++ r.children)
    (hnone : n.isLeaf = true → r.children = [])
    {due : Addr → KeyRange K} (hdue : due = Function.update own b ⟨key, (own a).hi⟩)
    {own' : Addr → KeyRange K} (hown : own' = Function.update due a ⟨(due a).lo, key⟩)
    {height' : Addr → Nat} (hheight : height' = Function.update height b (height a))
    (hleaf : n.isLeaf = true →
      LeafShape (N.split a l b r) own' a l ∧ LeafShape (N.split a l b r) own' b r)
    (hinner : n.isLeaf = false → InnerShape (N.split a l b r) own' due height' a l ∧
      InnerShape (N.split a l b r) own' due height' b r) :
    Pending (N.split a l b r) root due height' a key b := by
  have hlive : ∀ {x m}, N x = some m → x ≠ b := Nodes.ne_of_live hb
  have hab : a ≠ b := hlive hn
  have hdue' : ∀ {x m}, N x = some m → due x = own x := by
    intro x m hx
    rw [hdue, Function.update_of_ne (hlive hx)]
  have hown' : ∀ {x m}, N x = some m → x ≠ a → own' x = own x := by
    intro x m hx hxa
    rw [hown, Function.update_of_ne hxa, hdue' hx]
  have hheight' : ∀ {x m}, N x = some m → height' x = height x := by
    intro x m hx
    rw [hheight, Function.update_of_ne (hlive hx)]
  have hheightb : height' b = height a := by rw [hheight, Function.update_self]
  have hlo' : (own' a).lo = (own a).lo := by rw [hown, Function.update_self, hdue' hn]
  obtain ⟨n₀, hroot, -⟩ := h.root_live
  have hshape : Shape (N.split a l b r) root own' due height' (some b) := by
    refine ⟨h.split_root hn hb hparent hchildren hnone, ?_, ?_, ?_, ?_, ?_⟩
    · rw [hdue' hroot]
      exact h.root_due
    · intro x m' hx hkind
      by_cases hxb : x = b
      · subst hxb
        obtain rfl := Option.some.inj (Nodes.split_right.symm.trans hx)
        exact ⟨hheightb.trans (h.leaf a n hn (hright ▸ hkind)).1, (hleaf (hright ▸ hkind)).2⟩
      by_cases hxa : x = a
      · subst hxa
        obtain rfl := Option.some.inj ((Nodes.split_left hab).symm.trans hx)
        exact ⟨(hheight' hn).trans (h.leaf _ n hn (hleft ▸ hkind)).1, (hleaf (hleft ▸ hkind)).1⟩
      obtain ⟨⟨m, hm⟩, hzero, hsound⟩ :=
        h.split_leaf_other hn hb hleft hlo' hown' hx hxa hxb hkind
      exact ⟨(hheight' hm).trans hzero, hsound⟩
    · intro x m' hx hkind
      by_cases hxb : x = b
      · subst hxb
        obtain rfl := Option.some.inj (Nodes.split_right.symm.trans hx)
        exact (hinner (hright ▸ hkind)).2
      by_cases hxa : x = a
      · subst hxa
        obtain rfl := Option.some.inj ((Nodes.split_left hab).symm.trans hx)
        exact (hinner (hleft ▸ hkind)).1
      exact h.split_inner_other hn hb hparent hchildren hnone hown' hdue' hheight' hx hxa hxb hkind
    · intro x m' hx
      rw [hheight' hroot]
      rcases Nodes.split_cases hab hx with ⟨rfl, rfl⟩ | ⟨rfl, rfl⟩ | ⟨hxb, hxa, m, hm, rfl⟩
      · rw [hheightb]
        exact h.height_le a n hn
      · rw [hheight' hn]
        exact h.height_le _ n hn
      · rw [hheight' hm]
        exact h.height_le x m hm
    · intro x m' hx hxroot hxorphan
      exact h.split_owned hn hb hchildren hnone hleft hparent hright hx hxroot
        fun heq => hxorphan (congrArg some heq)
  refine ⟨hown ▸ hshape, ?_, ?_, ?_, hheightb.trans (hheight' hn).symm, hab.symm,
    (hlive hroot).symm, ⟨l, Nodes.split_left hab⟩, ⟨r, Nodes.split_right⟩,
    h.split_not_child hn hb hchildren hleft hright⟩
  · rw [hdue' hn, hdue, Function.update_self]
  · rw [hdue' hn]
    exact hlo
  · rw [hdue' hn]
    exact hhi

/-- The middle key of an inner node separates its halves. -/
theorem Shape.split_inner (h : Sound N root own height) (hn : N a = some n)
    (hkind : n.isLeaf = false) (hb : N b = none) {mid : Nat} (hkey : n.keys[mid]? = some key)
    (hpos : 0 < mid) (hmid : mid + 1 < n.keys.length) :
    Pending (N.split a
        { n with keys := n.keys.take mid, children := n.children.take (mid + 1) } b
        { keys := n.keys.drop (mid + 1), children := n.children.drop (mid + 1), isLeaf := false,
          parent := n.parent })
      root (Function.update own b ⟨key, (own a).hi⟩) (Function.update height b (height a))
      a key b := by
  have hshape := h.inner a n hn hkind
  have hmem := List.mem_of_getElem? hkey
  have hlive : ∀ {x m}, N x = some m → x ≠ b := Nodes.ne_of_live hb
  have hab := hlive hn
  refine h.split
    (l := { n with keys := n.keys.take mid, children := n.children.take (mid + 1) })
    (r := { keys := n.keys.drop (mid + 1), children := n.children.drop (mid + 1), isLeaf := false,
            parent := n.parent })
    hn hb (hshape.separates.above key hmem) (hshape.separates.below key hmem) rfl rfl
    hkind.symm (List.take_append_drop _ _).symm
    (fun hleaf => by cases hkind.symm.trans hleaf) rfl rfl rfl
    (fun hleaf => by cases hkind.symm.trans hleaf) fun _ => ?_
  have hchild : ∀ {j c}, n.children[j]? = some c → Function.update own b ⟨key, (own a).hi⟩ c =
      slot (own a) n.keys j ∧ Function.update height b (height a) c + 1 = height a ∧
      c ≠ a ∧ ∃ m, N c = some m ∧ m.parent = some a := by
    intro j c hj
    obtain ⟨hslot, hheight, m, hm, hpar⟩ := hshape.child j c hj
    rw [Function.update_of_ne (hlive hm), Function.update_of_ne (hlive hm)]
    exact ⟨hslot, hheight, (h.child_facts hn hkind (List.mem_of_getElem? hj)).1, m, hm, hpar⟩
  constructor
  · have hown : Function.update (Function.update own b ⟨key, (own a).hi⟩) a
        ⟨(Function.update own b ⟨key, (own a).hi⟩ a).lo, key⟩ a = ⟨(own a).lo, key⟩ := by
      rw [Function.update_self, Function.update_of_ne hab]
    refine ⟨?_, ?_, ?_, ?_⟩
    · intro s _ hnil
      have hzero := congrArg List.length hnil
      rw [List.length_take, List.length_nil] at hzero
      omega
    · rw [List.length_take, List.length_take, hshape.children]
      omega
    · rw [hown]
      exact hshape.separates.take hkey
    · intro j c hc
      rw [List.getElem?_take] at hc
      split at hc
      · next hj =>
          obtain ⟨hslot, hheight, hca, m, hm, hpar⟩ := hchild hc
          -- A child is in one place of the list, so one of the left half is not among those moved.
          have hstays : c ∉ n.children.drop (mid + 1) := by
            intro hright
            obtain ⟨j', hj'⟩ := List.getElem?_of_mem hright
            rw [List.getElem?_drop] at hj'
            have heq := hshape.index_inj hc hj'
            omega
          rw [hown, slot_take hkey (Nat.le_of_lt_succ hj), Function.update_of_ne hab]
          refine ⟨hslot, hheight, m, ?_, hpar⟩
          rw [Nodes.split_other hca (hlive hm), Nodes.adopt_some hm, if_neg hstays]
      · cases hc
  · have hown : Function.update (Function.update own b ⟨key, (own a).hi⟩) a
        ⟨(Function.update own b ⟨key, (own a).hi⟩ a).lo, key⟩ b = ⟨key, (own a).hi⟩ := by
      rw [Function.update_of_ne hab.symm, Function.update_self]
    refine ⟨?_, ?_, ?_, ?_⟩
    · intro s _ hnil
      have hzero := congrArg List.length hnil
      rw [List.length_drop, List.length_nil] at hzero
      omega
    · rw [List.length_drop, List.length_drop, hshape.children]
      omega
    · rw [hown]
      exact hshape.separates.drop hkey
    · intro j c hc
      rw [List.getElem?_drop] at hc
      obtain ⟨hslot, hheight, hca, m, hm, -⟩ := hchild hc
      have hle := hshape.index_le hc
      rw [hown, slot_drop hkey hle, Function.update_self]
      refine ⟨hslot, hheight, _, (Nodes.split_other hca (hlive hm)).trans (Nodes.adopt_some hm), ?_⟩
      refine if_pos (List.mem_of_getElem? (i := j) ?_)
      rw [List.getElem?_drop, hc]

/-- The first key of the right half separates the halves of a leaf. -/
theorem Shape.split_leaf (h : Sound N root own height) (hn : N a = some n)
    (hkind : n.isLeaf = true) (hb : N b = none) {mid : Nat} (hkey : n.keys[mid]? = some key)
    (hpos : 0 < mid) :
    Pending (N.split a
        { n with keys := n.keys.take mid, values := n.values.take mid, next := some b } b
        { keys := n.keys.drop mid, values := n.values.drop mid, isLeaf := true, next := n.next,
          parent := n.parent })
      root (Function.update own b ⟨key, (own a).hi⟩) (Function.update height b (height a))
      a key b := by
  have hshape := (h.leaf a n hn hkind).2
  have hinside := hshape.inside key (List.mem_of_getElem? hkey)
  have hlive : ∀ {x m}, N x = some m → x ≠ b := Nodes.ne_of_live hb
  have hab := hlive hn
  have hlt : ∀ {j k}, j < mid → n.keys[j]? = some k → k < key := by
    intro j k hj hk
    obtain ⟨hjlt, rfl⟩ := List.getElem?_eq_some_iff.mp hk
    obtain ⟨hmlt, rfl⟩ := List.getElem?_eq_some_iff.mp hkey
    exact List.pairwise_iff_getElem.mp hshape.sorted j mid hjlt hmlt hj
  have hlo : (own a).lo < key := by
    have hfirst := List.getElem?_eq_getElem (hpos.trans (List.getElem?_eq_some_iff.mp hkey).1)
    have hmem := hshape.inside _ (List.mem_of_getElem? hfirst)
    exact hmem.1.trans_lt (WithBot.coe_lt_coe.mpr (hlt hpos hfirst))
  refine h.split
    (l := { n with keys := n.keys.take mid, values := n.values.take mid, next := some b })
    (r := { keys := n.keys.drop mid, values := n.values.drop mid, isLeaf := true, next := n.next,
            parent := n.parent })
    hn hb hlo hinside.2 rfl rfl hkind.symm (List.append_nil _).symm (fun _ => rfl) rfl rfl rfl
    (fun _ => ?_) (fun hinner => by cases hkind.symm.trans hinner)
  have howna : Function.update (Function.update own b ⟨key, (own a).hi⟩) a
      ⟨(Function.update own b ⟨key, (own a).hi⟩ a).lo, key⟩ a = ⟨(own a).lo, key⟩ := by
    rw [Function.update_self, Function.update_of_ne hab]
  have hownb : Function.update (Function.update own b ⟨key, (own a).hi⟩) a
      ⟨(Function.update own b ⟨key, (own a).hi⟩ a).lo, key⟩ b = ⟨key, (own a).hi⟩ := by
    rw [Function.update_of_ne hab.symm, Function.update_self]
  constructor
  · refine ⟨hshape.sorted.sublist (List.take_sublist _ _), ?_, ?_, (Option.some_ne_none b).elim, ?_⟩
    · intro k hk
      rw [howna]
      obtain ⟨j, hj⟩ := List.getElem?_of_mem hk
      rw [List.getElem?_take] at hj
      split at hj
      · next hjm =>
          have hk := hshape.inside k (List.mem_of_getElem? hj)
          exact ⟨hk.1, WithTop.coe_lt_coe.mpr (hlt hjm hj)⟩
      · cases hj
    · rw [List.length_take, List.length_take, hshape.values]
    · intro x hx
      obtain rfl := Option.some.inj hx
      refine ⟨_, key, Nodes.split_right, rfl, ?_, ?_⟩
      · rw [howna]
      · rw [hownb]
  · refine ⟨hshape.sorted.sublist (List.drop_sublist _ _), ?_, ?_, ?_, ?_⟩
    · intro k hk
      rw [hownb]
      refine ⟨?_, (hshape.inside k (List.mem_of_mem_drop hk)).2⟩
      obtain ⟨j, hj⟩ := List.getElem?_of_mem hk
      rw [List.getElem?_drop] at hj
      obtain ⟨hjlt, rfl⟩ := List.getElem?_eq_some_iff.mp hj
      obtain ⟨hmlt, rfl⟩ := List.getElem?_eq_some_iff.mp hkey
      rcases Nat.eq_zero_or_pos j with rfl | hjpos
      · exact le_rfl
      · exact WithBot.coe_le_coe.mpr
          (List.pairwise_iff_getElem.mp hshape.sorted mid _ hmlt hjlt (by omega)).le
    · rw [List.length_drop, List.length_drop, hshape.values]
    · intro hnone
      rw [hownb]
      exact hshape.last hnone
    -- The leaf behind is as before, unless it is the left half.
    · intro x hx
      obtain ⟨m, s, hm, hleaf, hhi, hxlo⟩ := hshape.next x hx
      have hsame : (Function.update (Function.update own b ⟨key, (own a).hi⟩) a
          ⟨(Function.update own b ⟨key, (own a).hi⟩ a).lo, key⟩ x).lo = s := by
        rw [← hxlo]
        by_cases hxa : x = a
        · rw [hxa, howna]
        · rw [Function.update_of_ne hxa, Function.update_of_ne (hlive hm)]
      rw [hownb]
      by_cases hxa : x = a
      · subst hxa
        exact ⟨_, s, Nodes.split_left hab, hkind, hhi, hsame⟩
      · exact ⟨_, s, (Nodes.split_other hxa (hlive hm)).trans (Nodes.adopt_some hm), hleaf, hhi,
          hsame⟩

/-! ### The new entry -/

/-- Where the left half hangs. -/
theorem Pending.exists_parent (h : Pending N root due height left key right)
    (hn : N left = some n) (hne : left ≠ root) :
    ∃ p m, ∃ i : Nat, n.parent = some p ∧ N p = some m ∧ m.isLeaf = false ∧
      m.children[i]? = some left ∧ lowerBound m.keys key = i ∧ p ≠ left ∧ p ≠ right := by
  obtain ⟨p, i, hp, m, hm, hkind, hi⟩ := h.shape.owned left n hn hne
    fun heq => h.right_ne_left (Option.some.inj heq).symm
  have hinner := h.shape.inner p m hm hkind
  obtain ⟨hslot, hheight, -⟩ := hinner.child i left hi
  have hpleft : p ≠ left := by
    rintro rfl
    omega
  refine ⟨p, m, i, hp, hm, hkind, hi, ?_, hpleft, ?_⟩
  · have habove := h.above
    have hbelow := h.below
    rw [hslot] at habove hbelow
    exact hinner.separates.lowerBound_eq (hinner.index_le hi) habove hbelow
  · rintro rfl
    have hsame := h.height_right
    omega

/-- The node with the new entry: the slot of the left half is divided. -/
theorem InnerShape.enter {N N' : Nodes K V} {own own' due : Addr → KeyRange K}
    (h : InnerShape N own due height p m) (hi : m.children[i]? = some left)
    (habove : (due left).lo < key) (hbelow : key < (due left).hi) (hp : own' p = own p)
    (hleft : own' left = ⟨(due left).lo, key⟩) (hright : own' right = ⟨key, (due left).hi⟩)
    (hothers : ∀ c ∈ m.children, c ≠ left → own' c = due c)
    (hheight : height right = height left)
    (hparents : ∀ c, c = right ∨ c ∈ m.children → ∃ n, N' c = some n ∧ n.parent = some p) :
    InnerShape N' own' own' height p { m with
      keys := m.keys.insertIdx i key
      children := m.children.insertIdx (i + 1) right } := by
  have hle := h.index_le hi
  obtain ⟨hslot, hlevel, -⟩ := h.child i left hi
  rw [hslot, slot_lo] at habove hleft
  rw [hslot, slot_hi] at hbelow hright
  have hlength : (m.keys.insertIdx i key).length = m.keys.length + 1 :=
    List.length_insertIdx_of_le_length hle key
  refine ⟨?_, ?_, ?_, ?_⟩
  · intro s _ hnil
    have hzero := hlength.symm.trans (congrArg List.length hnil)
    cases hzero
  · rw [hlength, List.length_insertIdx_of_le_length, h.children]
    rw [h.children]
    exact Nat.succ_le_succ hle
  · rw [hp]
    exact h.separates.insertIdx hle habove hbelow
  · intro j c hc
    rw [hp]
    rcases lt_trichotomy j (i + 1) with hj | rfl | hj
    · rw [List.getElem?_insertIdx_of_lt hj] at hc
      obtain ⟨hcslot, hclevel, -⟩ := h.child j c hc
      refine ⟨?_, hclevel, hparents c (.inr (List.mem_of_getElem? hc))⟩
      rcases Nat.lt_or_eq_of_le (Nat.le_of_lt_succ hj) with hlt | rfl
      · have hne : c ≠ left := by
          rintro rfl
          exact hlt.ne (h.index_inj hc hi)
        rw [hothers c (List.mem_of_getElem? hc) hne, slot_insertIdx_lt _ _ _ hlt, hcslot]
      · obtain rfl := Option.some.inj (hc.symm.trans hi)
        rw [hleft, slot_insertIdx_left _ _ hle]
    · have hplace : i + 1 ≤ m.children.length := h.children.symm ▸ Nat.succ_le_succ hle
      rw [List.getElem?_insertIdx_self, if_pos hplace] at hc
      obtain rfl := Option.some.inj hc
      refine ⟨?_, ?_, hparents right (.inl rfl)⟩
      · rw [hright, slot_insertIdx_right _ _ hle]
      · rw [hheight]
        exact hlevel
    · obtain ⟨j, rfl⟩ : ∃ k, j = k + 1 := ⟨j - 1, by omega⟩
      rw [List.getElem?_insertIdx_of_gt hj, Nat.add_sub_cancel] at hc
      obtain ⟨hcslot, hclevel, -⟩ := h.child j c hc
      have hlt : i < j := Nat.lt_of_succ_lt_succ hj
      have hne : c ≠ left := by
        rintro rfl
        exact hlt.ne (h.index_inj hi hc)
      refine ⟨?_, hclevel, hparents c (.inr (List.mem_of_getElem? hc))⟩
      rw [hothers c (List.mem_of_getElem? hc) hne, slot_insertIdx_gt _ _ _ hlt, hcslot]

omit [LinearOrder K] in
theorem Nodes.link_other {x : Addr} (hn : N x = some n) (hxp : x ≠ p) :
    N.link p m i key right x =
      some { n with parent := if x ∈ [right] then some p else n.parent } :=
  (Function.update_of_ne hxp _ _).trans (Nodes.adopt_some hn)

/-- The new entry hangs on `p`, and all else where it has hung. -/
theorem Pending.link_owned (h : Pending N root due height left key right) (hm : N p = some m)
    (hkind : m.isLeaf = false) (hi : m.children[i]? = some left) (hpright : p ≠ right)
    (hc : N.link p m i key right c = some m') (hcroot : c ≠ root) :
    ∃ q j, m'.parent = some q ∧ (N.link p m i key right).Child q j c := by
  have hinner := h.shape.inner p m hm hkind
  have hplace : i + 1 ≤ m.children.length := by
    rw [hinner.children]
    exact Nat.succ_le_succ (hinner.index_le hi)
  have hself : N.link p m i key right p = some { m with
      keys := m.keys.insertIdx i key
      children := m.children.insertIdx (i + 1) right } := Function.update_self _ _ _
  have hentered : ∀ {c}, c = right ∨ c ∈ m.children →
      ∃ j, (N.link p m i key right).Child p j c := by
    intro c hc
    obtain ⟨j, hj⟩ := List.getElem?_of_mem ((List.mem_insertIdx hplace).mpr hc)
    exact ⟨j, _, hself, hkind, hj⟩
  by_cases hcright : c = right
  · subst hcright
    obtain ⟨nr, hnr⟩ := h.live_right
    have hpar : m'.parent = some p := by
      rw [Nodes.link_other hnr hpright.symm] at hc
      rw [← Option.some.inj hc]
      exact if_pos (List.mem_singleton.mpr rfl)
    obtain ⟨j, hj⟩ := hentered (.inl rfl)
    exact ⟨p, j, hpar, hj⟩
  · obtain ⟨n, hn, hpar⟩ : ∃ n, N c = some n ∧ m'.parent = n.parent := by
      rcases Nodes.adopt_cases hc with ⟨rfl, rfl⟩ | ⟨hcp, n, hn, rfl⟩
      · exact ⟨m, hm, rfl⟩
      · exact ⟨n, hn, if_neg (mt List.mem_singleton.mp hcright)⟩
    obtain ⟨q, j, hq, mq, hmq, hmqkind, hj⟩ := h.shape.owned c n hn hcroot
      fun heq => hcright (Option.some.inj heq)
    by_cases hqp : q = p
    · subst hqp
      obtain rfl := Option.some.inj (hm.symm.trans hmq)
      obtain ⟨j', hj'⟩ := hentered (.inr (List.mem_of_getElem? hj))
      exact ⟨q, j', hpar.trans hq, hj'⟩
    · exact ⟨q, j, hpar.trans hq, _, Nodes.link_other hmq hqp, hmqkind, hj⟩

theorem Pending.link (h : Pending N root due height left key right) (hne : left ≠ root)
    (hm : N p = some m) (hkind : m.isLeaf = false) (hi : m.children[i]? = some left)
    (hpright : p ≠ right) :
    Sound (N.link p m i key right) root (Function.update due left ⟨(due left).lo, key⟩) height := by
  have hown : ∀ {x}, x ≠ left → Function.update due left ⟨(due left).lo, key⟩ x = due x :=
    fun hx => Function.update_of_ne hx _ _
  have hinner := h.shape.inner p m hm hkind
  obtain ⟨-, -, nl, hnl, hnlparent⟩ := hinner.child i left hi
  obtain ⟨nr, hnr⟩ := h.live_right
  have hshape := h.shape
  have hownleft : Function.update due left ⟨(due left).lo, key⟩ left = ⟨(due left).lo, key⟩ :=
    Function.update_self _ _ _
  generalize Function.update due left ⟨(due left).lo, key⟩ = own at hown hinner hshape hownleft ⊢
  have hself : N.link p m i key right p = some { m with
      keys := m.keys.insertIdx i key
      children := m.children.insertIdx (i + 1) right } := Function.update_self _ _ _
  -- all but the new node keep their parents
  have hkeep : ∀ {x n}, N x = some n → x ≠ right →
      ∃ n', N.link p m i key right x = some n' ∧ n'.parent = n.parent := by
    intro x n hx hxright
    by_cases hxp : x = p
    · subst hxp
      obtain rfl := Option.some.inj (hm.symm.trans hx)
      exact ⟨_, hself, rfl⟩
    · exact ⟨_, Nodes.link_other hx hxp, if_neg (mt List.mem_singleton.mp hxright)⟩
  have hnochild : ∀ {x n c}, N x = some n → n.isLeaf = false → c ∈ n.children → c ≠ right := by
    rintro x n c hx hn hc rfl
    obtain ⟨j, hj⟩ := List.getElem?_of_mem hc
    exact h.not_child x j ⟨n, hx, hn, hj⟩
  have hgrandchild : ∀ {x n c nc}, N x = some n → x ≠ p → c ∈ n.children → N c = some nc →
      nc.parent = some x → c ≠ left := by
    rintro x n c nc hx hxp hc hnc hpar rfl
    obtain rfl := Option.some.inj (hnl.symm.trans hnc)
    exact hxp (Option.some.inj (hpar.symm.trans hnlparent))
  refine ⟨?_, ?_, ?_, ?_, ?_, ?_⟩
  · obtain ⟨n₀, hroot, hnone⟩ := hshape.root_live
    obtain ⟨n', hn', hpar⟩ := hkeep hroot h.right_ne_root.symm
    exact ⟨n', hn', hpar.trans hnone⟩
  · rw [hown hne.symm]
    exact hshape.root_due
  · intro x n' hx hleaf
    rcases Nodes.adopt_cases hx with ⟨rfl, rfl⟩ | ⟨hxp, n, hn, rfl⟩
    · cases hkind.symm.trans hleaf
    · obtain ⟨hzero, hsound⟩ := hshape.leaf x n hn hleaf
      refine ⟨hzero, hsound.congr rfl rfl rfl rfl ?_⟩
      intro y my _ hy hyleaf
      have hyp : y ≠ p := by
        rintro rfl
        obtain rfl := Option.some.inj (hm.symm.trans hy)
        cases hkind.symm.trans hyleaf
      exact ⟨rfl, _, Nodes.link_other hy hyp, hyleaf⟩
  · intro x n' hx hinn
    rcases Nodes.adopt_cases hx with ⟨rfl, rfl⟩ | ⟨hxp, n, hn, rfl⟩
    · refine hinner.enter hi h.above h.below rfl hownleft ?_ ?_ h.height_right ?_
      · rw [hown h.right_ne_left]
        exact h.due_right
      · exact fun c _ hc => hown hc
      · rintro c (rfl | hc)
        · exact ⟨_, Nodes.link_other hnr hpright.symm, if_pos (List.mem_singleton.mpr rfl)⟩
        · obtain ⟨-, -, nc, hnc, hpar⟩ := hshape.child_facts hm hkind hc
          obtain ⟨n', hn', hsame⟩ := hkeep hnc (hnochild hm hkind hc)
          exact ⟨n', hn', hsame.trans hpar⟩
    · refine (hshape.inner x n hn hinn).congr rfl rfl rfl rfl ?_
      intro c nc hc hnc hpar
      refine ⟨hown (hgrandchild hn hxp hc hnc hpar), rfl, ?_⟩
      obtain ⟨n', hn', hsame⟩ := hkeep hnc (hnochild hn hinn hc)
      exact ⟨n', hn', hsame.trans hpar⟩
  · intro x n' hx
    rcases Nodes.adopt_cases hx with ⟨rfl, rfl⟩ | ⟨hxp, n, hn, rfl⟩
    · exact hshape.height_le x m hm
    · exact hshape.height_le x n hn
  · exact fun x n' hx hxroot _ => h.link_owned hm hkind hi hpright hx hxroot

omit [LinearOrder K] in
theorem Nodes.grow_self : N.grow left key right b b =
    some { keys := [key], children := [left, right], isLeaf := false } :=
  Function.update_self _ _ _

omit [LinearOrder K] in
theorem Nodes.grow_other {x : Addr} (hn : N x = some n) (hxb : x ≠ b) :
    N.grow left key right b x =
      some { n with parent := if x ∈ [left, right] then some b else n.parent } :=
  (Function.update_of_ne hxb _ _).trans (Nodes.adopt_some hn)

/-- A node with one key and two children, in a tree of which it is the root. -/
theorem InnerShape.two {own : Addr → KeyRange K} (hwhole : own b = whole)
    (hleft : own left = ⟨whole.lo, key⟩) (hright : own right = ⟨key, whole.hi⟩)
    (hlevel : height left + 1 = height b) (hlevel' : height right + 1 = height b)
    (hl : ∃ n, N left = some n ∧ n.parent = some b)
    (hr : ∃ n, N right = some n ∧ n.parent = some b) :
    InnerShape N own own height b
      { keys := [key], children := [left, right], isLeaf := false } := by
  refine ⟨fun _ _ => List.cons_ne_nil _ _, rfl, ?_, ?_⟩
  · rw [hwhole]
    exact ⟨List.pairwise_singleton _ _, fun k _ => WithBot.bot_lt_coe k,
      fun k _ => WithTop.coe_lt_top k⟩
  · intro i c hc
    rw [hwhole]
    match i with
    | 0 =>
        obtain rfl : left = c := Option.some.inj hc
        exact ⟨hleft, hlevel, hl⟩
    | 1 =>
        obtain rfl : right = c := Option.some.inj hc
        exact ⟨hright, hlevel', hr⟩
    | i + 2 => cases hc

/-- The halves of the root are nobody's children. -/
theorem Pending.not_halves (h : Pending N root due height root key right) (hn : N a = some n)
    (hkind : n.isLeaf = false) (hc : c ∈ n.children) : c ∉ [root, right] := by
  intro hmem
  rcases List.mem_cons.mp hmem with hc' | hmem
  · exact (h.shape.child_facts hn hkind hc).2.1 hc'
  · obtain rfl := List.mem_singleton.mp hmem
    obtain ⟨j, hj⟩ := List.getElem?_of_mem hc
    exact h.not_child a j ⟨n, hn, hkind, hj⟩

/-- The halves hang on the new root, and all else where it has hung. -/
theorem Pending.grow_owned (h : Pending N root due height root key right) (hb : N b = none)
    (hc : N.grow root key right b c = some m) (hcb : c ≠ b) :
    ∃ q j, m.parent = some q ∧ (N.grow root key right b).Child q j c := by
  obtain ⟨hself, -⟩ | ⟨-, n, hn, rfl⟩ := Nodes.adopt_cases hc
  · exact absurd hself hcb
  · by_cases hmem : c ∈ [root, right]
    · obtain ⟨j, hj⟩ := List.getElem?_of_mem hmem
      exact ⟨b, j, if_pos hmem, _, Nodes.grow_self, rfl, hj⟩
    · obtain ⟨hcroot, hcright⟩ := not_or.mp (List.mem_cons.not.mp hmem)
      obtain ⟨q, j, hq, mq, hmq, hmqkind, hj⟩ := h.shape.owned c n hn hcroot
        fun heq => hcright (List.mem_singleton.mpr (Option.some.inj heq))
      exact ⟨q, j, (if_neg hmem).trans hq, _, Nodes.grow_other hmq (Nodes.ne_of_live hb hmq),
        hmqkind, hj⟩

/-- The root has been split: both halves get a new one. -/
theorem Pending.grow (h : Pending N root due height root key right) (hb : N b = none) :
    Sound (N.grow root key right b) b
      (Function.update (Function.update due root ⟨(due root).lo, key⟩) b whole)
      (Function.update height b (height root + 1)) := by
  have hshape := h.shape
  obtain ⟨n₀, hroot, -⟩ := hshape.root_live
  obtain ⟨nr, hnr⟩ := h.live_right
  have hlive : ∀ {x m}, N x = some m → x ≠ b := Nodes.ne_of_live hb
  have hdue : ∀ {x}, x ≠ root → Function.update due root ⟨(due root).lo, key⟩ x = due x :=
    fun hx => Function.update_of_ne hx _ _
  have hdueroot : Function.update due root ⟨(due root).lo, key⟩ root = ⟨whole.lo, key⟩ := by
    rw [Function.update_self, hshape.root_due]
  generalize Function.update due root ⟨(due root).lo, key⟩ = own at hshape hdue hdueroot ⊢
  have hown : ∀ {x m}, N x = some m → Function.update own b whole x = own x :=
    fun hx => Function.update_of_ne (hlive hx) _ _
  have hheight : ∀ {x m}, N x = some m →
      Function.update height b (height root + 1) x = height x :=
    fun hx => Function.update_of_ne (hlive hx) _ _
  have hother : ∀ {x n}, N x = some n → N.grow root key right b x =
      some { n with parent := if x ∈ [root, right] then some b else n.parent } :=
    fun hx => Nodes.grow_other hx (hlive hx)
  refine ⟨⟨_, Nodes.grow_self, rfl⟩, Function.update_self _ _ _, ?_, ?_, ?_,
    fun x n' hx hxb _ => h.grow_owned hb hx hxb⟩
  · intro x n' hx hleaf
    rcases Nodes.adopt_cases hx with ⟨rfl, rfl⟩ | ⟨hxb, n, hn, rfl⟩
    · cases hleaf
    · obtain ⟨hzero, hsound⟩ := hshape.leaf x n hn hleaf
      refine ⟨(hheight hn).trans hzero, hsound.congr rfl rfl rfl (hown hn) ?_⟩
      intro y my _ hy hyleaf
      exact ⟨congrArg KeyRange.lo (hown hy), _, hother hy, hyleaf⟩
  · intro x n' hx hinn
    rcases Nodes.adopt_cases hx with ⟨rfl, rfl⟩ | ⟨hxb, n, hn, rfl⟩
    · refine .two (Function.update_self ..) ((hown hroot).trans hdueroot) ?_ ?_ ?_
        ⟨_, hother hroot, if_pos List.mem_cons_self⟩
        ⟨_, hother hnr, if_pos (List.mem_cons_of_mem _ List.mem_cons_self)⟩
      · rw [hown hnr, hdue h.right_ne_left, h.due_right, hshape.root_due]
      · rw [hheight hroot, Function.update_self]
      · rw [hheight hnr, h.height_right, Function.update_self]
    · refine (hshape.inner x n hn hinn).congr rfl rfl (hown hn) (hheight hn) ?_
      intro c nc hc hnc hpar
      have hcold := h.not_halves hn hinn hc
      have hcroot : c ≠ root := fun heq => hcold (heq ▸ List.mem_cons_self)
      exact ⟨(hown hnc).trans (hdue hcroot), hheight hnc, _, hother hnc,
        (if_neg hcold).trans hpar⟩
  · intro x n' hx
    rw [Function.update_self]
    rcases Nodes.adopt_cases hx with ⟨rfl, rfl⟩ | ⟨hxb, n, hn, rfl⟩
    · rw [Function.update_self]
    · rw [hheight hn]
      exact (hshape.height_le x n hn).trans (Nat.le_succ _)

end NanoVault.Index
