/-
The readers of the tree: `find_leaf`, `search` and `forEachKey`.

`find_leaf` ends at the one leaf that is responsible for the key (`Shape.findLeaf_ok`), so `search`
finds what the leaves hold, and the leaves are passed in ascending order from the leftmost one on.
-/
import NanoVault.Index.Shape
import Mathlib.Data.Finset.Card
import Mathlib.Data.Finset.Range
import Mathlib.Data.Fintype.Card

namespace NanoVault.Index

open Lib Lib.KeyRange Op

variable {K V : Type} [LinearOrder K]

/-- A leaf has the key with the value. -/
def Holds (N : Nodes K V) (k : K) (v : V) : Prop :=
  ∃ a n, ∃ i : Nat, N a = some n ∧ n.isLeaf = true ∧ n.keys[i]? = some k ∧ n.values[i]? = some v

def Nodes.leafAt (N : Nodes K V) (a : Addr) : Option (List K × List V) :=
  (N a).bind fun n => if n.isLeaf then some (n.keys, n.values) else none

/-- The leaves hold the entries of a map. -/
def Represents (t : Heap K V) (entries : K → Option V) : Prop :=
  ∀ k v, Holds t.node k v ↔ entries k = some v

variable {t : Heap K V} {own : Addr → KeyRange K} {height : Addr → Nat} {a : Addr}
  {n : Node K V} {key : K} {held : List Mutex} {entries : K → Option V} {fuel : Nat}

omit [LinearOrder K] in
theorem holds_iff_leafAt {N : Nodes K V} {v : V} : Holds N key v ↔ ∃ a ks vs, ∃ i : Nat,
    N.leafAt a = some (ks, vs) ∧ ks[i]? = some key ∧ vs[i]? = some v := by
  constructor
  · rintro ⟨a, n, i, hn, hleaf, hk, hv⟩
    refine ⟨a, n.keys, n.values, i, ?_, hk, hv⟩
    rw [Nodes.leafAt, hn, Option.bind_some, if_pos hleaf]
  · rintro ⟨a, ks, vs, i, hat, hk, hv⟩
    obtain ⟨n, hn, hif⟩ := Option.bind_eq_some_iff.mp hat
    split at hif
    · next hleaf =>
        cases hif
        exact ⟨a, n, i, hn, hleaf, hk, hv⟩
    · cases hif

/-! ### Heights -/

/-- There is a node at each height up to the root's. -/
theorem Shape.exists_height {N : Nodes K V} {root : Addr} (h : Sound N root own height) {d : Nat}
    (hd : d ≤ height root) : ∃ a n, N a = some n ∧ height a = d := by
  obtain ⟨e, he⟩ : ∃ e, d + e = height root := ⟨height root - d, by omega⟩
  induction e generalizing d with
  | zero =>
      obtain ⟨n, hn, -⟩ := h.root_live
      exact ⟨root, n, hn, he.symm⟩
  | succ e ih =>
      obtain ⟨a, n, hn, ha⟩ := ih (d := d + 1) (by omega) (by omega)
      cases hleaf : n.isLeaf with
      | true =>
          have hzero := (h.leaf a n hn hleaf).1
          omega
      | false =>
          have hinner := h.inner a n hn hleaf
          have hfirst : 0 < n.children.length := by
            rw [hinner.children]
            exact Nat.succ_pos _
          obtain ⟨-, hheight, m, hm, -⟩ := hinner.child 0 _ (List.getElem?_eq_getElem hfirst)
          exact ⟨_, m, hm, by omega⟩

/-- The tree is not higher than there are nodes. -/
theorem Shape.height_lt (h : Sound t.node t.root own height) : height t.root < t.cells.length := by
  have hlevel : ∀ d : Fin (height t.root + 1), ∃ a n, t.node a = some n ∧ height a = d :=
    fun d => h.exists_height (Nat.le_of_lt_succ d.isLt)
  choose f n hn hf using hlevel
  have hinj : Function.Injective fun d => (⟨f d, Heap.lt_of_node (hn d)⟩ : Fin t.cells.length) := by
    intro d d' heq
    have hsame : f d = f d' := Fin.mk.inj heq
    exact Fin.ext ((hf d).symm.trans ((congrArg height hsame).trans (hf d')))
  have hcard := Fintype.card_le_of_injective _ hinj
  rwa [Fintype.card_fin, Fintype.card_fin] at hcard

/-! ### find_leaf -/

theorem Shape.descend_ok (h : Sound t.node t.root own height) (hheld : ∀ a, .node a ∉ held)
    (hn : t.node a = some n) (hkey : key ∈ own a) (hfuel : height a < fuel) :
    ∃ leaf m, descend key fuel a held t = .ok (leaf, t) ∧ t.node leaf = some m ∧
      m.isLeaf = true ∧ key ∈ own leaf := by
  induction fuel generalizing a n with
  | zero => exact absurd hfuel (Nat.not_lt_zero _)
  | succ fuel ih =>
      rw [descend, bind_ok (read_ok hn)]
      cases hleaf : n.isLeaf with
      | true => exact ⟨a, n, rfl, hn, hleaf, hkey⟩
      | false =>
          have hinner := h.inner a n hn hleaf
          have hindex : index n.keys key < n.children.length := by
            rw [hinner.children]
            exact Nat.lt_succ_of_le (index_le_length n.keys key)
          have hchild := List.getElem?_eq_getElem hindex
          obtain ⟨hslot, hheight, m, hm, -⟩ := hinner.child _ _ hchild
          have hread : locked (.node a) (do
              let node ← read a
              element node.children (index node.keys key)) held t =
              .ok (n.children[index n.keys key], t) := by
            refine locked_ok (hheld a) hn ?_ hn
            rw [bind_ok (read_ok hn)]
            exact element_ok hchild
          rw [if_neg Bool.false_ne_true, bind_ok hread]
          refine ih hm ?_ (by omega)
          rw [hslot]
          exact mem_slot_index hkey

/-- The leaf that is responsible for a key is found. -/
theorem Shape.findLeaf_ok (h : Sound t.node t.root own height) (key : K) :
    ∃ leaf m, findLeaf key [] t = .ok (leaf, t) ∧ t.node leaf = some m ∧ m.isLeaf = true ∧
      key ∈ own leaf := by
  obtain ⟨n, hn, -⟩ := h.root_live
  have hwhole : key ∈ own t.root := by
    rw [h.root_due]
    exact mem_whole key
  obtain ⟨leaf, m, hdescend, hleaf⟩ := h.descend_ok not_held_tree hn hwhole h.height_lt
  refine ⟨leaf, m, ?_, hleaf⟩
  rw [findLeaf, locked_tree List.not_mem_nil]
  exact hdescend

/-! ### search -/

/-- A key stands in the leaf that is responsible for it only. -/
theorem Shape.holds_iff {N : Nodes K V} {root : Addr} (h : Sound N root own height)
    (hn : N a = some n) (hleaf : n.isLeaf = true) (hkey : key ∈ own a) {v : V} :
    Holds N key v ↔ ∃ i : Nat, n.keys[i]? = some key ∧ n.values[i]? = some v := by
  constructor
  · rintro ⟨b, m, i, hm, hmleaf, hi, hv⟩
    obtain ⟨hb, hshape⟩ := h.leaf b m hm hmleaf
    have ha := (h.leaf a n hn hleaf).1
    have hmem := hshape.inside key (List.mem_of_getElem? hi)
    obtain rfl := h.eq_of_mem hn hm (ha.trans hb.symm) hkey hmem
    obtain rfl := Option.some.inj (hn.symm.trans hm)
    exact ⟨i, hi, hv⟩
  · rintro ⟨i, hi, hv⟩
    exact ⟨a, n, i, hn, hleaf, hi, hv⟩

theorem LeafShape.exists_value {N : Nodes K V} (h : LeafShape N own a n) {i : Nat} {k : K}
    (hi : n.keys[i]? = some k) : ∃ v, n.values[i]? = some v := by
  have hlt := (List.getElem?_eq_some_iff.mp hi).1
  rw [← h.values] at hlt
  exact ⟨_, List.getElem?_eq_getElem hlt⟩

theorem idxOf_getElem? {l : List K} (h : key ∈ l) : l[l.idxOf key]? = some key := by
  have hlt := List.idxOf_lt_length_of_mem h
  rw [List.getElem?_eq_getElem hlt, List.getElem_idxOf hlt]

/-- A key in a leaf has the entry that stands beside it. -/
theorem Shape.entry_some (h : Sound t.node t.root own height) (hentries : Represents t entries)
    (hn : t.node a = some n) (hleaf : n.isLeaf = true) (hmem : key ∈ n.keys) :
    ∃ v, n.values[n.keys.idxOf key]? = some v ∧ entries key = some v := by
  have hplace := idxOf_getElem? hmem
  obtain ⟨v, hv⟩ := (h.leaf a n hn hleaf).2.exists_value hplace
  exact ⟨v, hv, (hentries key v).mp ⟨a, n, _, hn, hleaf, hplace, hv⟩⟩

/-- A key that its leaf does not have has no entry. -/
theorem Shape.entry_none (h : Sound t.node t.root own height) (hentries : Represents t entries)
    (hn : t.node a = some n) (hleaf : n.isLeaf = true) (hkey : key ∈ own a)
    (hmem : key ∉ n.keys) : entries key = none := by
  refine Option.eq_none_iff_forall_ne_some.mpr fun v hv => ?_
  obtain ⟨i, hi, -⟩ := (h.holds_iff hn hleaf hkey).mp ((hentries key v).mpr hv)
  exact hmem (List.mem_of_getElem? hi)

/-- `search` finds the value of the key, and leaves the tree as it is. -/
theorem Shape.search_ok (h : Sound t.node t.root own height) (hentries : Represents t entries)
    (key : K) :
    search key [] t = .ok (entries key, t) := by
  obtain ⟨leaf, n, hfind, hn, hleaf, hkey⟩ := h.findLeaf_ok key
  rw [search, bind_ok hfind]
  refine locked_ok List.not_mem_nil hn ?_ hn
  rw [bind_ok (read_ok hn)]
  by_cases hmem : key ∈ n.keys
  · obtain ⟨v, hv, hentry⟩ := h.entry_some hentries hn hleaf hmem
    rw [if_pos hmem, bind_ok (element_ok hv), hentry]
    rfl
  · rw [if_neg hmem, h.entry_none hentries hn hleaf hkey hmem]
    rfl

/-! ### forEachKey -/

/-- The first loop ends at the leaf with the lowest keys. -/
theorem Shape.leftmost_ok (h : Sound t.node t.root own height) (hheld : ∀ a, .node a ∉ held)
    (hn : t.node a = some n) (hlo : (own a).lo = ⊥) (hfuel : height a < fuel) :
    ∃ leaf m, leftmost fuel a held t = .ok (leaf, t) ∧ t.node leaf = some m ∧
      m.isLeaf = true ∧ (own leaf).lo = ⊥ := by
  induction fuel generalizing a n with
  | zero => exact absurd hfuel (Nat.not_lt_zero _)
  | succ fuel ih =>
      rw [leftmost, bind_ok (read_ok hn)]
      cases hleaf : n.isLeaf with
      | true => exact ⟨a, n, rfl, hn, hleaf, hlo⟩
      | false =>
          have hinner := h.inner a n hn hleaf
          have hlength : 0 < n.children.length := by
            rw [hinner.children]
            exact Nat.succ_pos _
          have hchild := List.getElem?_eq_getElem hlength
          obtain ⟨hslot, hheight, m, hm, -⟩ := hinner.child _ _ hchild
          have hread : locked (.node a) (do
              let node ← read a
              element node.children 0) held t = .ok (n.children[0], t) := by
            refine locked_ok (hheld a) hn ?_ hn
            rw [bind_ok (read_ok hn)]
            exact element_ok hchild
          rw [if_neg Bool.false_ne_true, bind_ok hread]
          refine ih hm ?_ (by omega)
          rw [hslot, slot_lo, start_zero, hlo]

open Classical in
/-- The leaves that start at a key or above it. -/
noncomputable def leavesFrom (t : Heap K V) (own : Addr → KeyRange K) (lo : WithBot K) :
    Finset Addr :=
  (Finset.range t.cells.length).filter fun a =>
    (∃ n, t.node a = some n ∧ n.isLeaf = true) ∧ lo ≤ (own a).lo

theorem mem_leavesFrom (hn : t.node a = some n) (hleaf : n.isLeaf = true) {lo : WithBot K} :
    a ∈ leavesFrom t own lo ↔ lo ≤ (own a).lo := by
  rw [leavesFrom, Finset.mem_filter, Finset.mem_range]
  exact ⟨fun h => h.2.2, fun h => ⟨Heap.lt_of_node hn, ⟨n, hn, hleaf⟩, h⟩⟩

theorem card_leavesFrom_lt (hn : t.node a = some n) (hleaf : n.isLeaf = true) {lo : WithBot K}
    (hlt : (own a).lo < lo) :
    (leavesFrom t own lo).card < (leavesFrom t own (own a).lo).card := by
  refine Finset.card_lt_card ((Finset.ssubset_iff_of_subset ?_).mpr ⟨a, ?_, ?_⟩)
  · intro b hb
    rw [leavesFrom, Finset.mem_filter] at hb ⊢
    exact ⟨hb.1, hb.2.1, hlt.le.trans hb.2.2⟩
  · exact (mem_leavesFrom hn hleaf).mpr le_rfl
  · rw [mem_leavesFrom hn hleaf]
    exact not_le.mpr hlt

theorem Shape.mem_keys_iff {N : Nodes K V} {root : Addr} (h : Sound N root own height)
    (hn : N a = some n) (hleaf : n.isLeaf = true) (hkey : key ∈ own a) :
    key ∈ n.keys ↔ ∃ v, Holds N key v := by
  constructor
  · intro hmem
    obtain ⟨i, hi⟩ := List.getElem?_of_mem hmem
    obtain ⟨v, hv⟩ := (h.leaf a n hn hleaf).2.exists_value hi
    exact ⟨v, (h.holds_iff hn hleaf hkey).mpr ⟨i, hi, hv⟩⟩
  · rintro ⟨v, hv⟩
    obtain ⟨i, hi, -⟩ := (h.holds_iff hn hleaf hkey).mp hv
    exact List.mem_of_getElem? hi

/-- The second loop passes the keys from a leaf on, in ascending order. -/
theorem Shape.walk_ok (h : Sound t.node t.root own height) (hheld : ∀ a, .node a ∉ held)
    (hn : t.node a = some n) (hleaf : n.isLeaf = true)
    (hfuel : (leavesFrom t own (own a).lo).card ≤ fuel) :
    ∃ ks, walk fuel (some a) held t = .ok (ks, t) ∧ ks.Pairwise (· < ·) ∧
      ∀ k, k ∈ ks ↔ (own a).lo ≤ k ∧ ∃ v, Holds t.node k v := by
  induction fuel generalizing a n with
  | zero =>
      have hmem : a ∈ leavesFrom t own (own a).lo := (mem_leavesFrom hn hleaf).mpr le_rfl
      exact absurd (Finset.card_pos.mpr ⟨a, hmem⟩) (Nat.not_lt.mpr hfuel)
  | succ fuel ih =>
      obtain ⟨hheight, hshape⟩ := h.leaf a n hn hleaf
      have hread : locked (.node a) (do
          let node ← read a
          return (node.keys, node.next)) held t = .ok ((n.keys, n.next), t) := by
        refine locked_ok (hheld a) hn ?_ hn
        rw [bind_ok (read_ok hn)]
        rfl
      rw [walk, bind_ok hread]
      cases hnext : n.next with
      | none =>
          have hstop : walk (K := K) fuel none held t = .ok ([], t) := by
            rw [walk]
            rfl
          refine ⟨n.keys ++ [], ?_, ?_, ?_⟩
          · rw [bind_ok hstop]
            rfl
          · rw [List.append_nil]
            exact hshape.sorted
          · intro k
            have hinside : (own a).lo ≤ k → k ∈ own a := by
              intro hlo
              refine ⟨hlo, ?_⟩
              rw [hshape.last hnext]
              exact WithTop.coe_lt_top k
            rw [List.append_nil]
            constructor
            · intro hk
              have hkey := hshape.inside k hk
              exact ⟨hkey.1, (h.mem_keys_iff hn hleaf hkey).mp hk⟩
            · rintro ⟨hlo, hholds⟩
              exact (h.mem_keys_iff hn hleaf (hinside hlo)).mpr hholds
      | some b =>
          obtain ⟨m, s, hm, hmleaf, hhi, hlo⟩ := hshape.next b hnext
          have hlt : (own a).lo < s := by
            cases hbot : (own a).lo with
            | bot => exact WithBot.bot_lt_coe s
            | coe x =>
                have hx := (h.proper hn hbot).2
                rw [hhi] at hx
                exact WithBot.coe_lt_coe.mpr (WithTop.coe_lt_coe.mp hx)
          have hcard : (leavesFrom t own _).card < _ := card_leavesFrom_lt hn hleaf hlt
          -- The fuel counts the leaves to the right, of which there is one less.
          obtain ⟨ks, hwalk, hsorted, hmem⟩ := ih hm hmleaf (by rw [hlo]; omega)
          rw [hlo] at hmem
          have hbelow : ∀ k ∈ n.keys, k < s := by
            intro k hk
            have hkhi := (hshape.inside k hk).2
            rw [hhi] at hkhi
            exact WithTop.coe_lt_coe.mp hkhi
          refine ⟨n.keys ++ ks, ?_, ?_, ?_⟩
          · rw [bind_ok hwalk]
            rfl
          · refine List.pairwise_append.mpr ⟨hshape.sorted, hsorted, ?_⟩
            intro x hx y hy
            exact (hbelow x hx).trans_le (WithBot.coe_le_coe.mp ((hmem y).mp hy).1)
          · intro k
            rw [List.mem_append, hmem]
            constructor
            · rintro (hk | ⟨hks, hholds⟩)
              · have hkey := hshape.inside k hk
                exact ⟨hkey.1, (h.mem_keys_iff hn hleaf hkey).mp hk⟩
              · exact ⟨hlt.le.trans hks, hholds⟩
            · rintro ⟨hka, hholds⟩
              rcases lt_or_ge k s with hks | hks
              · have hkey : k ∈ own a := ⟨hka, by rw [hhi]; exact WithTop.coe_lt_coe.mpr hks⟩
                exact .inl ((h.mem_keys_iff hn hleaf hkey).mpr hholds)
              · exact .inr ⟨WithBot.coe_le_coe.mpr hks, hholds⟩

/-- `forEachKey` passes every key once, in ascending order. -/
theorem Shape.forEachKey_ok (h : Sound t.node t.root own height) (hentries : Represents t entries) :
    ∃ ks, forEachKey [] t = .ok (ks, t) ∧ ks.Pairwise (· < ·) ∧
      ∀ k, k ∈ ks ↔ (entries k).isSome := by
  obtain ⟨n, hn, -⟩ := h.root_live
  have hroot : (own t.root).lo = ⊥ := by
    rw [h.root_due]
    rfl
  obtain ⟨leaf, m, hleftmost, hm, hleaf, hlo⟩ := h.leftmost_ok not_held_tree hn hroot h.height_lt
  have hcard : (leavesFrom t own (own leaf).lo).card ≤ t.cells.length :=
    (Finset.card_filter_le _ _).trans_eq (Finset.card_range _)
  obtain ⟨ks, hwalk, hsorted, hmem⟩ := h.walk_ok not_held_tree hm hleaf hcard
  refine ⟨ks, ?_, hsorted, ?_⟩
  · rw [forEachKey, locked_tree List.not_mem_nil]
    refine (bind_ok rfl).trans ((bind_ok rfl).trans ((bind_ok hleftmost).trans ?_))
    exact (bind_ok rfl).trans hwalk
  · intro k
    rw [hmem, hlo, Option.isSome_iff_exists]
    constructor
    · rintro ⟨-, v, hv⟩
      exact ⟨v, (hentries k v).mp hv⟩
    · rintro ⟨v, hv⟩
      exact ⟨bot_le, v, (hentries k v).mpr hv⟩

end NanoVault.Index
