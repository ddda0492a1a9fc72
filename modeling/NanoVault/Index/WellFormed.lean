/-
The structural invariant of the B+ tree, said of the tree from its root down.

All leaves have the same depth, the keys of every node ascend, what is under a child lies between
the separators on both sides of it, parent pointers are exact, the `next` pointers pass the leaves
from left to right, and a node other than the root has `minKeys` to `maxKeys` keys (`WellFormed`).
This is the shape of each node and its neighbours, with intervals and heights found on the way
down (`wellFormed_iff`).
-/
import NanoVault.Index.Insertion

namespace NanoVault.Index

open Lib Lib.KeyRange

variable {K V : Type} [LinearOrder K]

/-- A node and what hangs on it: leaves at one depth, keys that ascend and lie between the
separators above, exact parent pointers. -/
def Subtree (N : Nodes K V) : Nat → Option Addr → KeyRange K → Addr → Prop
  | 0, parent, I, a => ∃ n, N a = some n ∧ n.isLeaf = true ∧ n.parent = parent ∧
      n.keys.Pairwise (· < ·) ∧ (∀ k ∈ n.keys, k ∈ I) ∧ n.values.length = n.keys.length
  | depth + 1, parent, I, a => ∃ n, N a = some n ∧ n.isLeaf = false ∧ n.parent = parent ∧
      n.keys.Pairwise (· < ·) ∧ (∀ k ∈ n.keys, k ∈ I) ∧ n.children.length = n.keys.length + 1 ∧
      ∀ (i : Nat) (c : Addr), n.children[i]? = some c →
        Subtree N depth (some a) (slot I n.keys i) c

/-- The leaves under a node, from left to right. -/
def leavesOf (N : Nodes K V) : Nat → Addr → List Addr
  | 0, a => [a]
  | depth + 1, a => (N a).elim [] fun n => n.children.flatMap (leavesOf N depth)

/-- Every node points to the next one of the list, the last one to none. -/
def Linked (N : Nodes K V) : List Addr → Prop
  | [] => True
  | a :: as => (∃ n, N a = some n ∧ n.next = as.head?) ∧ Linked N as

/-- What can be reached from the root. -/
inductive InTree (N : Nodes K V) (root : Addr) : Addr → Prop where
  | root : InTree N root root
  | child {p c : Addr} {i : Nat} : InTree N root p → N.Child p i c → InTree N root c

/-- The structural invariant. There are no other nodes than those of the tree. -/
structure WellFormed (t : Heap K V) : Prop where
  tree : ∃ depth, Subtree t.node depth none whole t.root ∧
    Linked t.node (leavesOf t.node depth t.root)
  sizes : ∀ a n, t.node a = some n → a ≠ t.root →
    minKeys ≤ n.keys.length ∧ n.keys.length ≤ maxKeys
  reached : ∀ a n, t.node a = some n → InTree t.node t.root a

variable {N : Nodes K V} {root : Addr} {own : Addr → KeyRange K} {height : Addr → Nat}
  {a b c p : Addr} {n m : Node K V} {i depth d e : Nat} {I J : KeyRange K} {L L' : List Addr}
  {lo : WithBot K} {hi : WithTop K} {s : K}

/-! ### Leaves from left to right -/

/-- The intervals of the nodes follow each other from `lo` to `hi`. -/
inductive Spans (own : Addr → KeyRange K) : List Addr → WithBot K → WithTop K → Prop where
  | one {a : Addr} {lo : WithBot K} {hi : WithTop K} : own a = ⟨lo, hi⟩ → Spans own [a] lo hi
  | cons {a : Addr} {as : List Addr} {lo : WithBot K} {hi : WithTop K} {s : K} :
      own a = ⟨lo, s⟩ → Spans own as s hi → Spans own (a :: as) lo hi

omit [LinearOrder K] in
theorem Spans.append (h : Spans own L lo s) (h' : Spans own L' s hi) :
    Spans own (L ++ L') lo hi := by
  generalize hs : (s : WithTop K) = stop at h
  induction h with
  | one ha => exact .cons (hs ▸ ha) h'
  | cons ha _ ih => exact .cons ha (ih hs)

omit [LinearOrder K] in
/-- Children in the slots of their parent. -/
theorem Spans.flatMap {f : Addr → List Addr} {ks : List K} {cs : List Addr}
    (hlength : cs.length = ks.length + 1)
    (h : ∀ (i : Nat) c, cs[i]? = some c → Spans own (f c) (start I ks i) (stop I ks i)) :
    Spans own (cs.flatMap f) I.lo I.hi := by
  induction ks generalizing cs I with
  | nil =>
      obtain ⟨c, rfl⟩ := List.length_eq_one_iff.mp hlength
      have hc := h 0 c rfl
      rw [List.flatMap_singleton]
      exact hc
  | cons k ks ih =>
      cases cs with
      | nil => cases hlength
      | cons c cs =>
          have hc := h 0 c rfl
          have hrest : Spans own (cs.flatMap f) k I.hi := by
            refine ih (I := ⟨k, I.hi⟩) (Nat.succ.inj hlength) fun i c hi => ?_
            have hci := h (i + 1) c hi
            cases i with
            | zero => exact hci
            | succ i =>
                have hlt : i < ks.length := by
                  have hcs := (List.getElem?_eq_some_iff.mp hi).1
                  have hks : cs.length = ks.length + 1 := Nat.succ.inj hlength
                  omega
                have hkey := List.getElem?_eq_getElem hlt
                have hsucc : (k :: ks)[i + 1]? = some ks[i] := by
                  rw [List.getElem?_cons_succ, hkey]
                rw [start_succ hsucc] at hci
                rw [start_succ hkey]
                exact hci
          rw [List.flatMap_cons]
          exact hc.append hrest

omit [LinearOrder K] in
theorem Spans.head (h : Spans own L lo hi) : ∃ a as, L = a :: as ∧ (own a).lo = lo := by
  cases h with
  | one ha => exact ⟨_, [], rfl, congrArg KeyRange.lo ha⟩
  | cons ha _ => exact ⟨_, _, rfl, congrArg KeyRange.lo ha⟩

omit [LinearOrder K] in
/-- Where the `next` pointers lead, if they pass the list. -/
theorem Spans.next (h : Spans own L lo hi) (hlinked : Linked N L) :
    ∀ a ∈ L, ∃ n, N a = some n ∧ (n.next = none → (own a).hi = hi) ∧
      ∀ b, n.next = some b → b ∈ L ∧ ∃ s : K, (own a).hi = s ∧ (own b).lo = s := by
  induction h with
  | one ha =>
      obtain ⟨⟨n, hn, hnext⟩, -⟩ := hlinked
      intro x hx
      obtain rfl := List.mem_singleton.mp hx
      refine ⟨n, hn, fun _ => congrArg KeyRange.hi ha, fun b hb => ?_⟩
      cases hnext.symm.trans hb
  | cons ha hspans ih =>
      obtain ⟨⟨n, hn, hnext⟩, hlinked⟩ := hlinked
      obtain ⟨b, bs, rfl, hb⟩ := hspans.head
      intro x hx
      rcases List.mem_cons.mp hx with rfl | hx
      · refine ⟨n, hn, fun hnone => ?_, fun b' hb' => ?_⟩
        · cases hnext.symm.trans hnone
        · obtain rfl := Option.some.inj (hnext.symm.trans hb')
          exact ⟨List.mem_cons_of_mem _ List.mem_cons_self, _, congrArg KeyRange.hi ha, hb⟩
      · obtain ⟨m, hm, hlast, hfollow⟩ := ih hlinked x hx
        exact ⟨m, hm, hlast, fun b' hb' => (hfollow b' hb').imp_left (List.mem_cons_of_mem _)⟩

theorem InnerShape.height_ne (h : InnerShape N own own height a n) : height a ≠ 0 := by
  have hfirst := List.getElem?_eq_getElem (l := n.children) (i := 0) (by
    rw [h.children]
    exact Nat.succ_pos _)
  have hlevel := (h.child 0 _ hfirst).2.1
  omega

/-- The intervals of the leaves under a node follow each other from its lower end to its upper
end. -/
theorem spans_leavesOf (hleaf : ∀ a n, N a = some n → n.isLeaf = true → height a = 0)
    (hinner : ∀ a n, N a = some n → n.isLeaf = false → InnerShape N own own height a n)
    (hn : N a = some n) (hd : height a = d) :
    Spans own (leavesOf N d a) (own a).lo (own a).hi := by
  induction d generalizing a n with
  | zero => exact .one rfl
  | succ d ih =>
      cases hkind : n.isLeaf with
      | true => cases (hleaf a n hn hkind).symm.trans hd
      | false =>
          have hshape := hinner a n hn hkind
          rw [leavesOf, hn, Option.elim_some]
          refine Spans.flatMap hshape.children fun i c hc => ?_
          obtain ⟨hslot, hheight, m, hm, -⟩ := hshape.child i c hc
          have hspans := ih hm (by omega)
          rw [hslot] at hspans
          exact hspans

theorem leavesOf_leaves (hleaf : ∀ a n, N a = some n → n.isLeaf = true → height a = 0)
    (hinner : ∀ a n, N a = some n → n.isLeaf = false → InnerShape N own own height a n)
    (hn : N a = some n) (hd : height a = d) :
    ∀ b ∈ leavesOf N d a, ∃ m, N b = some m ∧ m.isLeaf = true := by
  induction d generalizing a n with
  | zero =>
      intro b hb
      obtain rfl := List.mem_singleton.mp hb
      cases hkind : n.isLeaf with
      | true => exact ⟨n, hn, hkind⟩
      | false => exact absurd hd (hinner b n hn hkind).height_ne
  | succ d ih =>
      intro b hb
      cases hkind : n.isLeaf with
      | true => cases (hleaf a n hn hkind).symm.trans hd
      | false =>
          rw [leavesOf, hn, Option.elim_some, List.mem_flatMap] at hb
          obtain ⟨c, hc, hb⟩ := hb
          obtain ⟨i, hi⟩ := List.getElem?_of_mem hc
          obtain ⟨-, hheight, mc, hmc, -⟩ := (hinner a n hn hkind).child i c hi
          exact ih hmc (by omega) b hb

/-- A node has its leaves among those of the root. -/
theorem InTree.leavesOf_subset
    (hinner : ∀ a n, N a = some n → n.isLeaf = false → InnerShape N own own height a n)
    (h : InTree N root a) : leavesOf N (height a) a ⊆ leavesOf N (height root) root := by
  induction h with
  | root => exact fun x hx => hx
  | child _ hc ih =>
      obtain ⟨m, hm, hkind, hi⟩ := hc
      obtain ⟨-, hheight, -⟩ := (hinner _ m hm hkind).child _ _ hi
      intro x hx
      refine ih ?_
      rw [← hheight, leavesOf, hm, Option.elim_some]
      exact List.mem_flatMap.mpr ⟨_, List.mem_of_getElem? hi, hx⟩

/-! ### From the shape of the nodes -/

theorem Shape.subtree (h : Sound N root own height) (hn : N a = some n) (hd : height a = d) :
    Subtree N d n.parent (own a) a := by
  induction d generalizing a n with
  | zero =>
      cases hkind : n.isLeaf with
      | true =>
          have hshape := (h.leaf a n hn hkind).2
          exact ⟨n, hn, hkind, rfl, hshape.sorted, hshape.inside, hshape.values⟩
      | false => exact absurd hd (h.inner a n hn hkind).height_ne
  | succ d ih =>
      cases hkind : n.isLeaf with
      | true => cases (h.leaf a n hn hkind).1.symm.trans hd
      | false =>
          have hshape := h.inner a n hn hkind
          refine ⟨n, hn, hkind, rfl, hshape.separates.sorted, ?_, hshape.children, ?_⟩
          · exact fun k hk => ⟨(hshape.separates.above k hk).le, hshape.separates.below k hk⟩
          · intro i c hc
            obtain ⟨hslot, hheight, m, hm, hparent⟩ := hshape.child i c hc
            have hsub := ih hm (by omega)
            rwa [hslot, hparent] at hsub

theorem Shape.linked (h : Sound N root own height) (hspans : Spans own L lo ⊤)
    (hleaves : ∀ a ∈ L, ∃ n, N a = some n ∧ n.isLeaf = true) : Linked N L := by
  generalize htop : (⊤ : WithTop K) = stop at hspans
  induction hspans with
  | one ha =>
      obtain ⟨n, hn, hkind⟩ := hleaves _ List.mem_cons_self
      refine ⟨⟨n, hn, ?_⟩, trivial⟩
      cases hnext : n.next with
      | none => rfl
      | some b =>
          obtain ⟨m, s, -, -, hhi, -⟩ := (h.leaf _ n hn hkind).2.next b hnext
          rw [ha, ← htop] at hhi
          cases hhi
  | cons ha hrest ih =>
      obtain ⟨n, hn, hkind⟩ := hleaves _ List.mem_cons_self
      obtain ⟨b, bs, rfl, hb⟩ := hrest.head
      refine ⟨⟨n, hn, ?_⟩, ih (fun x hx => hleaves x (List.mem_cons_of_mem _ hx)) htop⟩
      obtain ⟨hzero, hshape⟩ := h.leaf _ n hn hkind
      cases hnext : n.next with
      | none =>
          have hhi := hshape.last hnext
          rw [ha] at hhi
          cases hhi
      | some b' =>
          obtain ⟨m', s, hm', hkind', hhi, hlo⟩ := hshape.next b' hnext
          obtain ⟨m, hm, hmkind⟩ := hleaves b (List.mem_cons_of_mem _ List.mem_cons_self)
          rw [ha] at hhi
          obtain rfl := WithTop.coe_injective hhi
          have hlevel := (h.leaf b' m' hm' hkind').1.trans (h.leaf b m hm hmkind).1.symm
          rw [h.eq_of_lo hm' hm hlevel (hlo.trans hb.symm)]
          rfl

/-- Every node hangs in the tree. -/
theorem Shape.inTree (h : Sound N root own height) (hn : N a = some n) : InTree N root a := by
  obtain ⟨e, he⟩ : ∃ e, e + height a = height root :=
    ⟨height root - height a, Nat.sub_add_cancel (h.height_le a n hn)⟩
  induction e generalizing a n with
  | zero =>
      rw [h.eq_root hn (by omega)]
      exact .root
  | succ e ih =>
      by_cases ha : a = root
      · rw [ha]
        exact .root
      · obtain ⟨p, m, i, -, hm, hkind, hi, hshape⟩ := h.exists_parent hn ha
        have hheight := (hshape.child i a hi).2.1
        exact .child (ih hm (by omega)) ⟨m, hm, hkind, hi⟩

/-- The shape of the nodes is the shape of the tree. -/
theorem Shape.tree (h : Sound N root own height) : Subtree N (height root) none whole root ∧
    Linked N (leavesOf N (height root) root) := by
  obtain ⟨n, hn, hnone⟩ := h.root_live
  constructor
  · have hsub := h.subtree hn rfl
    rwa [hnone, h.root_due] at hsub
  · have hspans := spans_leavesOf (fun a n ha hkind => (h.leaf a n ha hkind).1) h.inner hn rfl
    rw [h.root_due] at hspans
    exact h.linked hspans
      (leavesOf_leaves (fun a n ha hkind => (h.leaf a n ha hkind).1) h.inner hn rfl)

/-! ### From the tree -/

/-- A node that is found on the way down, with its interval and its height. -/
inductive Within (N : Nodes K V) (root : Addr) (depth : Nat) :
    Addr → KeyRange K → Nat → Prop where
  | root : Within N root depth root whole depth
  | child {p c : Addr} {I : KeyRange K} {d i : Nat} {m : Node K V} :
      Within N root depth p I (d + 1) → N p = some m → m.isLeaf = false →
        m.children[i]? = some c → Within N root depth c (slot I m.keys i) d

omit [LinearOrder K] in
theorem Within.le (h : Within N root depth a I d) : d ≤ depth := by
  induction h with
  | root => exact le_rfl
  | child _ _ _ _ ih => exact (Nat.le_succ _).trans ih

theorem Subtree.facts {parent : Option Addr} (h : Subtree N d parent I a) :
    ∃ n, N a = some n ∧ n.parent = parent ∧ n.keys.Pairwise (· < ·) ∧ ∀ k ∈ n.keys, k ∈ I := by
  cases d with
  | zero =>
      obtain ⟨n, hn, -, hparent, hsorted, hinside, -⟩ := h
      exact ⟨n, hn, hparent, hsorted, hinside⟩
  | succ d =>
      obtain ⟨n, hn, -, hparent, hsorted, hinside, -⟩ := h
      exact ⟨n, hn, hparent, hsorted, hinside⟩

section Tree

variable (hroot : Subtree N depth none whole root)
  (hkeys : ∀ a n, N a = some n → a ≠ root → n.keys ≠ [])
include hroot

theorem Within.subtree (h : Within N root depth a I d) : ∃ parent, Subtree N d parent I a := by
  induction h with
  | root => exact ⟨none, hroot⟩
  | child _ hm _ hi ih =>
      obtain ⟨parent, n, hn, -, -, -, -, -, hchildren⟩ := ih
      obtain rfl := Option.some.inj (hm.symm.trans hn)
      exact ⟨_, hchildren _ _ hi⟩

/-- A child has the parent it is found under. -/
theorem Within.subtree_child (h : Within N root depth p I (d + 1)) (hm : N p = some m)
    (hi : m.children[i]? = some c) :
    c ≠ root ∧ Subtree N d (some p) (slot I m.keys i) c := by
  obtain ⟨parent, n, hn, -, -, -, -, -, hchildren⟩ := h.subtree hroot
  obtain rfl := Option.some.inj (hm.symm.trans hn)
  have hsub := hchildren i c hi
  refine ⟨?_, hsub⟩
  rintro rfl
  obtain ⟨n₁, hn₁, hsome, -⟩ := hsub.facts
  obtain ⟨n₂, hn₂, hnone, -⟩ := hroot.facts
  obtain rfl := Option.some.inj (hn₁.symm.trans hn₂)
  cases hsome.symm.trans hnone

/-- A leaf is found at height zero. -/
theorem Within.leaf (h : Within N root depth a I d) (hn : N a = some n) (hkind : n.isLeaf = true) :
    d = 0 ∧ n.keys.Pairwise (· < ·) ∧ (∀ k ∈ n.keys, k ∈ I) ∧
      n.values.length = n.keys.length := by
  obtain ⟨parent, hsub⟩ := h.subtree hroot
  cases d with
  | zero =>
      obtain ⟨m, hm, -, -, hsorted, hinside, hvalues⟩ := hsub
      obtain rfl := Option.some.inj (hm.symm.trans hn)
      exact ⟨rfl, hsorted, hinside, hvalues⟩
  | succ d =>
      obtain ⟨m, hm, hinner, -⟩ := hsub
      obtain rfl := Option.some.inj (hm.symm.trans hn)
      cases hkind.symm.trans hinner

/-- An inner node is found above height zero. -/
theorem Within.inner (h : Within N root depth a I d) (hn : N a = some n)
    (hkind : n.isLeaf = false) : ∃ e, d = e + 1 ∧ n.children.length = n.keys.length + 1 := by
  obtain ⟨parent, hsub⟩ := h.subtree hroot
  cases d with
  | zero =>
      obtain ⟨m, hm, hleaf, -⟩ := hsub
      obtain rfl := Option.some.inj (hm.symm.trans hn)
      cases hkind.symm.trans hleaf
  | succ d =>
      obtain ⟨m, hm, -, -, -, -, hlength, -⟩ := hsub
      obtain rfl := Option.some.inj (hm.symm.trans hn)
      exact ⟨d, rfl, hlength⟩

/-- Every node that hangs in the tree is found on some way down. -/
theorem InTree.within (h : InTree N root a) : ∃ I d, Within N root depth a I d := by
  induction h with
  | root => exact ⟨whole, depth, .root⟩
  | child _ hc ih =>
      obtain ⟨I, d, hp⟩ := ih
      obtain ⟨m, hm, hkind, hi⟩ := hc
      obtain ⟨e, rfl, -⟩ := hp.inner hroot hm hkind
      exact ⟨_, e, hp.child hm hkind hi⟩

theorem Within.index_le (h : Within N root depth p I (d + 1)) (hm : N p = some m)
    (hi : m.children[i]? = some c) : i ≤ m.keys.length := by
  obtain ⟨parent, n, hn, -, -, -, -, hlength, -⟩ := h.subtree hroot
  obtain rfl := Option.some.inj (hm.symm.trans hn)
  have hlt := (List.getElem?_eq_some_iff.mp hi).1
  omega

include hkeys

/-- There is a key in the slot of a child. -/
theorem Within.exists_key (h : Within N root depth p I (d + 1)) (hm : N p = some m)
    (hi : m.children[i]? = some c) : ∃ k, k ∈ slot I m.keys i := by
  obtain ⟨hc, hsub⟩ := h.subtree_child hroot hm hi
  obtain ⟨n, hn, -, -, hinside⟩ := hsub.facts
  obtain ⟨k, ks, hks⟩ := List.exists_cons_of_ne_nil (hkeys c n hn hc)
  exact ⟨k, hinside k (hks ▸ List.mem_cons_self)⟩

theorem Within.separates (h : Within N root depth p I (d + 1)) (hm : N p = some m) :
    Separates I m.keys := by
  obtain ⟨parent, n, hn, -, -, hsorted, hinside, hlength, -⟩ := h.subtree hroot
  obtain rfl := Option.some.inj (hm.symm.trans hn)
  refine ⟨hsorted, fun k hk => ?_, fun k hk => (hinside k hk).2⟩
  have hfirst := List.getElem?_eq_getElem (l := m.children) (i := 0) (by omega)
  obtain ⟨k', hlo, hhi⟩ := h.exists_key hroot hkeys hm hfirst
  obtain ⟨k₀, ks, hks⟩ := List.exists_cons_of_ne_nil (List.ne_nil_of_mem hk)
  have hk₀ : (k' : WithTop K) < k₀ := by
    rw [slot_hi, stop_some (s := k₀)] at hhi
    · exact hhi
    · rw [hks]
      rfl
  have hle : k₀ ≤ k := by
    rw [hks] at hk hsorted
    rcases List.mem_cons.mp hk with rfl | hk
    · exact le_rfl
    · exact ((List.pairwise_cons.mp hsorted).1 k hk).le
  exact hlo.trans_lt (WithBot.coe_lt_coe.mpr ((WithTop.coe_lt_coe.mp hk₀).trans_le hle))

/-- There is one way down to a node. -/
theorem Within.unique (h : Within N root depth a I d) (h' : Within N root depth a J e) :
    I = J ∧ d = e := by
  induction h generalizing J e with
  | root =>
      cases h' with
      | root => exact ⟨rfl, rfl⟩
      | child hp hm _ hi => exact absurd rfl (hp.subtree_child hroot hm hi).1
  | child hp hm _ hi ih =>
      cases h' with
      | root => exact absurd rfl (hp.subtree_child hroot hm hi).1
      | child hp' hm' _ hj =>
          obtain ⟨n₁, hn₁, hparent₁, -⟩ := (hp.subtree_child hroot hm hi).2.facts
          obtain ⟨n₂, hn₂, hparent₂, -⟩ := (hp'.subtree_child hroot hm' hj).2.facts
          obtain rfl := Option.some.inj (hn₁.symm.trans hn₂)
          obtain rfl := Option.some.inj (hparent₁.symm.trans hparent₂)
          obtain rfl := Option.some.inj (hm.symm.trans hm')
          obtain ⟨rfl, hd⟩ := ih hp'
          have hseparates := hp.separates hroot hkeys hm
          obtain ⟨hc, hsub⟩ := hp.subtree_child hroot hm hi
          obtain ⟨m₁, hm₁, -, -, hinside₁⟩ := hsub.facts
          obtain ⟨m₂, hm₂, -, -, hinside₂⟩ := (hp'.subtree_child hroot hm' hj).2.facts
          obtain rfl := Option.some.inj (hm₁.symm.trans hm₂)
          obtain ⟨k, ks, hks⟩ := List.exists_cons_of_ne_nil (hkeys _ m₁ hm₁ hc)
          have hk : k ∈ m₁.keys := hks ▸ List.mem_cons_self
          rw [← hseparates.index_eq (hp.index_le hroot hm hi) (hinside₁ k hk),
            ← hseparates.index_eq (hp.index_le hroot hm hj) (hinside₂ k hk)]
          exact ⟨rfl, Nat.succ.inj hd⟩

/-- The tree has the shape that is said of its nodes. -/
theorem sound_of_tree (hlinked : Linked N (leavesOf N depth root))
    (hreached : ∀ a n, N a = some n → InTree N root a) :
    ∃ own height, Sound N root own height := by
  have hfound : ∀ a, ∃ I d, ∀ n, N a = some n → Within N root depth a I d := by
    intro a
    by_cases ha : ∃ n, N a = some n
    · obtain ⟨n, hn⟩ := ha
      obtain ⟨I, d, h⟩ := (hreached a n hn).within hroot
      exact ⟨I, d, fun _ _ => h⟩
    · exact ⟨whole, 0, fun n hn => absurd ⟨n, hn⟩ ha⟩
  choose own height h using hfound
  obtain ⟨n₀, hn₀, hnone, -⟩ := hroot.facts
  obtain ⟨hrootown, hrootheight⟩ := (h root n₀ hn₀).unique hroot hkeys .root
  have hleaf : ∀ a n, N a = some n → n.isLeaf = true → height a = 0 := fun a n hn hkind =>
    ((h a n hn).leaf hroot hn hkind).1
  have hinner : ∀ a n, N a = some n → n.isLeaf = false → InnerShape N own own height a n := by
    intro a n hn hkind
    have hway := h a n hn
    obtain ⟨e, he, hlength⟩ := hway.inner hroot hn hkind
    rw [he] at hway
    refine ⟨fun s hs => ?_, hlength, hway.separates hroot hkeys hn, fun i c hc => ?_⟩
    · refine hkeys a n hn ?_
      rintro rfl
      rw [hrootown] at hs
      cases hs
    · obtain ⟨mc, hmc, hparent, -⟩ := (hway.subtree_child hroot hn hc).2.facts
      obtain ⟨hown, hheight⟩ := (h c mc hmc).unique hroot hkeys (hway.child hn hkind hc)
      rw [he, hheight]
      exact ⟨hown, rfl, mc, hmc, hparent⟩
  refine ⟨own, height, ⟨n₀, hn₀, hnone⟩, hrootown, ?_, hinner, ?_, ?_⟩
  · intro a n hn hkind
    obtain ⟨hzero, hsorted, hinside, hvalues⟩ := (h a n hn).leaf hroot hn hkind
    have hspans := spans_leavesOf hleaf hinner hn₀ hrootheight
    have hmem := (hreached a n hn).leavesOf_subset hinner
    rw [hzero, hrootheight] at hmem
    obtain ⟨m', hm', hlast, hnext⟩ := hspans.next hlinked a (hmem List.mem_cons_self)
    obtain rfl := Option.some.inj (hn.symm.trans hm')
    refine ⟨hzero, hsorted, hinside, hvalues, fun hnil => ?_, fun b hb => ?_⟩
    · rw [hlast hnil, hrootown]
      rfl
    · obtain ⟨hbmem, s, hhi, hlo⟩ := hnext b hb
      obtain ⟨mb, hmb, hbleaf⟩ := leavesOf_leaves hleaf hinner hn₀ hrootheight b hbmem
      exact ⟨mb, s, hmb, hbleaf, hhi, hlo⟩
  · intro a n hn
    rw [hrootheight]
    exact (h a n hn).le
  · intro a n hn ha _
    cases hreached a n hn with
    | root => exact absurd rfl ha
    | child hp hc =>
        obtain ⟨m, hm, hkind, hi⟩ := hc
        obtain ⟨-, -, n', hn', hparent⟩ := (hinner _ m hm hkind).child _ _ hi
        obtain rfl := Option.some.inj (hn.symm.trans hn')
        exact ⟨_, _, hparent, m, hm, hkind, hi⟩

end Tree

/-- The structural invariant, as what is said of each node and its neighbours. -/
theorem wellFormed_iff {t : Heap K V} : WellFormed t ↔
    (∃ own height, Sound t.node t.root own height) ∧ ∀ a n, t.node a = some n → a ≠ t.root →
      minKeys ≤ n.keys.length ∧ n.keys.length ≤ maxKeys := by
  constructor
  · rintro ⟨⟨depth, hsub, hlinked⟩, hsizes, hreached⟩
    refine ⟨sound_of_tree hsub (fun a n hn ha hnil => ?_) hlinked hreached, hsizes⟩
    have hmin := (hsizes a n hn ha).1
    rw [hnil] at hmin
    exact absurd hmin (by simp [minKeys])
  · rintro ⟨⟨own, height, h⟩, hsizes⟩
    exact ⟨⟨_, h.tree⟩, hsizes, fun a n hn => h.inTree hn⟩

/-! ### insert -/

/-- A tree of the right shape holds the entries of a map. -/
theorem Shape.exists_entries {t : Heap K V} (h : Sound t.node t.root own height) :
    ∃ entries, Represents t entries := by
  have hunique : ∀ {k v w}, Holds t.node k v → Holds t.node k w → v = w := by
    intro k v w hv hw
    obtain ⟨leaf, n, -, hn, hleaf, hkey⟩ := h.findLeaf_ok k
    obtain ⟨i, hi, hvi⟩ := (h.holds_iff hn hleaf hkey).mp hv
    obtain ⟨j, hj, hwj⟩ := (h.holds_iff hn hleaf hkey).mp hw
    obtain rfl := place_unique (h.leaf leaf n hn hleaf).2.sorted hi hj
    exact Option.some.inj (hvi.symm.trans hwj)
  have hentry : ∀ k, ∃ entry : Option V, ∀ v, Holds t.node k v ↔ entry = some v := by
    intro k
    by_cases hk : ∃ v, Holds t.node k v
    · obtain ⟨v, hv⟩ := hk
      refine ⟨some v, fun w => ⟨fun hw => congrArg some (hunique hv hw), fun hw => ?_⟩⟩
      rwa [← Option.some.inj hw]
    · exact ⟨none, fun v => ⟨fun hv => absurd ⟨v, hv⟩ hk, fun hv => by cases hv⟩⟩
  choose entries hentries using hentry
  exact ⟨entries, hentries⟩

theorem Entered.represents {t t' : Heap K V} {key : K} {value : V} {entries : K → Option V}
    (h : Entered t.node t'.node key value) (hentries : Represents t entries) :
    Represents t' (Function.update entries key (some value)) := by
  intro k v
  rw [h k v, hentries k v]
  by_cases hk : k = key
  · subst hk
    rw [Function.update_self]
    simp [eq_comm]
  · rw [Function.update_of_ne hk]
    simp [hk]

/-- The root has no key too many. -/
def RootFits (t : Heap K V) : Prop := ∀ n, t.node t.root = some n → n.keys.length ≤ maxKeys

/-- `insert` sets the value of the key and of no other one, as `search` finds them. -/
def SetsOnly (key : K) (value : V) (t t' : Heap K V) : Prop :=
  ∀ k, ∃ found, search k [] t = .ok (found, t) ∧
    search k [] t' = .ok (if k = key then some value else found, t')

/-- `insert` keeps the invariant of a tree whose root has no key too many. -/
theorem insert_wellFormed {t : Heap K V} (h : WellFormed t) (hroot : RootFits t) (key : K)
    (value : V) :
    ∃ t', insert key value [] t = .ok ((), t') ∧ WellFormed t' ∧ RootFits t' ∧
      SetsOnly key value t t' := by
  obtain ⟨⟨own, height, hsound⟩, hsizes⟩ := wellFormed_iff.mp h
  have hsized : Sized t.node t.root := by
    intro a n hn
    by_cases ha : a = t.root
    · rw [ha] at hn ⊢
      exact ⟨hroot n hn, fun hne => absurd rfl hne⟩
    · exact ⟨(hsizes a n hn ha).2, (hsizes a n hn ·|>.1)⟩
  obtain ⟨t', own', height', hop, hsound', hsized', hentered, -⟩ :=
    insert_ok hsound hsized key value
  refine ⟨t', hop, wellFormed_iff.mpr ⟨⟨own', height', hsound'⟩, ?_⟩, ?_, ?_⟩
  · exact fun a n hn ha => ⟨(hsized' a n hn).2 ha, (hsized' a n hn).1⟩
  · exact fun n hn => (hsized' _ n hn).1
  · intro k
    obtain ⟨entries, hentries⟩ := hsound.exists_entries
    refine ⟨entries k, hsound.search_ok hentries k, ?_⟩
    rw [hsound'.search_ok (hentered.represents hentries) k, Function.update_apply]

/-- A tree of one leaf. -/
def single (keys : List K) (values : List V) : Heap K V where
  cells := [some { keys := keys, values := values, isLeaf := true }]
  root := 0

theorem wellFormed_single {keys : List K} {values : List V} (hsorted : keys.Pairwise (· < ·))
    (hvalues : values.length = keys.length) : WellFormed (single keys values) := by
  have hzero : ∀ a n, (single keys values).node a = some n → a = 0 := by
    intro a n hn
    exact Nat.lt_one_iff.mp (Heap.lt_of_node hn)
  refine ⟨⟨0, ⟨_, rfl, rfl, rfl, hsorted, fun k _ => mem_whole k, hvalues⟩, ⟨_, rfl, rfl⟩,
    trivial⟩, ?_, ?_⟩
  · exact fun a n hn ha => absurd (hzero a n hn) ha
  · intro a n hn
    rw [hzero a n hn]
    exact .root

/-- The first split. -/
theorem insert_wellFormed_split :
    ∃ t', insert 199 () [] (single (List.range 199) (List.replicate 199 ())) = .ok ((), t') ∧
      WellFormed t' ∧ RootFits t' ∧
      SetsOnly 199 () (single (List.range 199) (List.replicate 199 ())) t' := by
  refine insert_wellFormed (wellFormed_single List.pairwise_lt_range ?_) (fun n hn => ?_) 199 ()
  · rw [List.length_replicate, List.length_range]
  · obtain rfl := Option.some.inj hn
    exact List.length_range.le

/-- A root that has twice as many keys as a node may have is split into halves one of which has a
key too many. -/
theorem overfull_halves :
    WellFormed (single (List.range 398) (List.replicate 398 ())) ∧
      ∃ t', insert 398 () [] (single (List.range 398) (List.replicate 398 ())) = .ok ((), t') ∧
        ¬ WellFormed t' := by
  constructor
  · refine wellFormed_single List.pairwise_lt_range ?_
    rw [List.length_replicate, List.length_range]
  · have hhalf : ((insert 398 () [] (single (List.range 398)
        (List.replicate 398 ()))).toOption.any fun r =>
          r.2.root ≠ 0 && (r.2.node 0).any fun n => decide (maxKeys < n.keys.length)) = true := by
      decide +kernel
    generalize insert 398 () [] (single (List.range 398) (List.replicate 398 ())) = result
      at hhalf ⊢
    cases result with
    | error e => cases hhalf
    | ok r =>
        refine ⟨r.2, rfl, fun h => ?_⟩
        rw [Except.toOption, Option.any_some, Bool.and_eq_true, decide_eq_true_eq,
          Option.any_eq_true] at hhalf
        obtain ⟨hroot, n, hn, hlarge⟩ := hhalf
        exact Nat.not_le.mpr (decide_eq_true_eq.mp hlarge) (h.sizes 0 n hn hroot.symm).2

end NanoVault.Index
