/-
`insert` of the B+ tree.

The key is entered in the leaf that is responsible for it, or gets another value there; a leaf with
a key too many is split. The tree keeps its shape and the sizes of its nodes, the key has the value
then, and all other keys have the values they have had (`insert_ok`).
-/
import NanoVault.Index.Parents

namespace NanoVault.Index

open Lib Lib.KeyRange Op

variable {K V : Type} [LinearOrder K]

variable {N N' : Nodes K V} {t t' : Heap K V} {root : Addr} {own due : Addr → KeyRange K}
  {height : Addr → Nat} {a b c p left right : Addr} {n n' m l r : Node K V} {i : Nat} {key k : K}
  {value v : V} {held : List Mutex} {cs : List Addr}

/-! ### A leaf -/

/-- A leaf is written that keeps its place in the tree. -/
theorem Shape.put_leaf (h : Sound N root own height) (hn : N a = some n)
    (hleaf : n.isLeaf = true) (hleaf' : n'.isLeaf = true) (hparent : n'.parent = n.parent)
    (hnext : n'.next = n.next) (hsorted : n'.keys.Pairwise (· < ·))
    (hinside : ∀ k ∈ n'.keys, k ∈ own a) (hvalues : n'.values.length = n'.keys.length) :
    Sound (Function.update N a (some n')) root own height := by
  have hcases : ∀ {x m'}, Function.update N a (some n') x = some m' →
      x = a ∧ m' = n' ∨ x ≠ a ∧ N x = some m' := by
    intro x m' hx
    by_cases hxa : x = a
    · rw [hxa, Function.update_self] at hx
      exact .inl ⟨hxa, (Option.some.inj hx).symm⟩
    · rw [Function.update_of_ne hxa] at hx
      exact .inr ⟨hxa, hx⟩
  have hkeep : ∀ {x m}, N x = some m → ∃ m', Function.update N a (some n') x = some m' ∧
      m'.isLeaf = m.isLeaf ∧ m'.parent = m.parent := by
    intro x m hx
    by_cases hxa : x = a
    · rw [hxa] at hx ⊢
      obtain rfl := Option.some.inj (hn.symm.trans hx)
      exact ⟨n', Function.update_self _ _ _, hleaf'.trans hleaf.symm, hparent⟩
    · exact ⟨m, (Function.update_of_ne hxa _ _).trans hx, rfl, rfl⟩
  have hnextleaf : ∀ {b m}, N b = some m → m.isLeaf = true →
      (own b).lo = (own b).lo ∧ ∃ m', Function.update N a (some n') b = some m' ∧
        m'.isLeaf = true := by
    intro b m hb hbleaf
    obtain ⟨m', hm', hkind, -⟩ := hkeep hb
    exact ⟨rfl, m', hm', hkind.trans hbleaf⟩
  refine ⟨?_, h.root_due, ?_, ?_, ?_, ?_⟩
  · obtain ⟨n₀, hroot, hnone⟩ := h.root_live
    obtain ⟨m', hm', -, hsame⟩ := hkeep hroot
    exact ⟨m', hm', hsame.trans hnone⟩
  · intro x m' hx hxleaf
    rcases hcases hx with ⟨rfl, rfl⟩ | ⟨-, hm⟩
    · obtain ⟨hzero, hshape⟩ := h.leaf x n hn hleaf
      refine ⟨hzero, hsorted, hinside, hvalues, ?_, ?_⟩
      · rw [hnext]
        exact hshape.last
      · intro b hb
        obtain ⟨m, s, hm, hmleaf, hends⟩ := hshape.next b (hnext ▸ hb)
        obtain ⟨-, m', hm', hm'leaf⟩ := hnextleaf hm hmleaf
        exact ⟨m', s, hm', hm'leaf, hends⟩
    · obtain ⟨hzero, hshape⟩ := h.leaf x m' hm hxleaf
      exact ⟨hzero, hshape.congr rfl rfl rfl rfl fun b m _ hb hbleaf => hnextleaf hb hbleaf⟩
  · intro x m' hx hxinner
    rcases hcases hx with ⟨rfl, rfl⟩ | ⟨-, hm⟩
    · cases hleaf'.symm.trans hxinner
    · refine (h.inner x m' hm hxinner).congr rfl rfl rfl rfl fun c m _ hc hpar => ?_
      obtain ⟨mc, hmc, -, hsame⟩ := hkeep hc
      exact ⟨rfl, rfl, mc, hmc, hsame.trans hpar⟩
  · intro x m' hx
    rcases hcases hx with ⟨rfl, -⟩ | ⟨-, hm⟩
    · exact h.height_le x n hn
    · exact h.height_le x m' hm
  · intro x m' hx hxroot horphan
    obtain ⟨m, hm, hsame⟩ : ∃ m, N x = some m ∧ m'.parent = m.parent := by
      rcases hcases hx with ⟨rfl, rfl⟩ | ⟨-, hm⟩
      · exact ⟨n, hn, hparent⟩
      · exact ⟨m', hm, rfl⟩
    obtain ⟨q, j, hq, mq, hmq, hmqkind, hj⟩ := h.owned x m hm hxroot horphan
    -- The leaf has no children, so it is not the parent of any node.
    have hqa : q ≠ a := by
      rintro rfl
      obtain rfl := Option.some.inj (hn.symm.trans hmq)
      cases hleaf.symm.trans hmqkind
    exact ⟨q, j, hsame.trans hq, mq, (Function.update_of_ne hqa _ _).trans hmq, hmqkind, hj⟩

/-- What is held after a leaf has been written. -/
theorem Shape.holds_put (h : Sound N root own height)
    (h' : Sound (Function.update N a (some n')) root own height) (hleaf' : n'.isLeaf = true) :
    Holds (Function.update N a (some n')) k v ↔
      (k ∈ own a ∧ ∃ i : Nat, n'.keys[i]? = some k ∧ n'.values[i]? = some v) ∨
        (k ∉ own a ∧ Holds N k v) := by
  have hself : Function.update N a (some n') a = some n' := Function.update_self _ _ _
  by_cases hk : k ∈ own a
  · rw [h'.holds_iff hself hleaf' hk]
    simp [hk]
  · have hother : ∀ {M : Nodes K V} {x : Addr} {m : Node K V} {i : Nat},
        Sound M root own height → M x = some m → m.isLeaf = true → m.keys[i]? = some k → x ≠ a := by
      rintro M x m i hM hx hxleaf hi rfl
      exact hk ((hM.leaf x m hx hxleaf).2.inside k (List.mem_of_getElem? hi))
    simp only [hk, false_and, false_or, not_false_eq_true, true_and]
    constructor
    · rintro ⟨x, m, i, hx, hxleaf, hi, hv⟩
      have hxa := hother h' hx hxleaf hi
      exact ⟨x, m, i, (Function.update_of_ne hxa _ _).symm.trans hx, hxleaf, hi, hv⟩
    · rintro ⟨x, m, i, hx, hxleaf, hi, hv⟩
      have hxa := hother h hx hxleaf hi
      exact ⟨x, m, i, (Function.update_of_ne hxa _ _).trans hx, hxleaf, hi, hv⟩

section

variable {ks : List K} {vs : List V} {pos : Nat}

/-- A key has one place. -/
theorem place_unique (hsorted : ks.Pairwise (· < ·)) {i j : Nat} (hi : ks[i]? = some key)
    (hj : ks[j]? = some key) : i = j := by
  obtain ⟨hilt, higet⟩ := List.getElem?_eq_some_iff.mp hi
  obtain ⟨hjlt, hjget⟩ := List.getElem?_eq_some_iff.mp hj
  have hnodup : ks.Nodup := hsorted.imp ne_of_lt
  exact hnodup.getElem_inj_iff.mp (higet.trans hjget.symm)

/-- The value of a key is replaced. -/
theorem exists_set (hsorted : ks.Pairwise (· < ·)) (hvalues : vs.length = ks.length)
    (hpos : ks[pos]? = some key) :
    (∃ i : Nat, ks[i]? = some k ∧ (vs.set pos value)[i]? = some v) ↔
      (k = key ∧ v = value) ∨ (k ≠ key ∧ ∃ i : Nat, ks[i]? = some k ∧ vs[i]? = some v) := by
  have hlt := (List.getElem?_eq_some_iff.mp hpos).1
  constructor
  · rintro ⟨i, hk, hv⟩
    by_cases hi : i = pos
    · subst hi
      rw [List.getElem?_set_self (hvalues.symm ▸ hlt)] at hv
      exact .inl ⟨Option.some.inj (hk.symm.trans hpos), (Option.some.inj hv).symm⟩
    · rw [List.getElem?_set_ne (Ne.symm hi)] at hv
      refine .inr ⟨?_, i, hk, hv⟩
      rintro rfl
      exact hi (place_unique hsorted hk hpos)
  · rintro (⟨rfl, rfl⟩ | ⟨hne, i, hk, hv⟩)
    · exact ⟨pos, hpos, List.getElem?_set_self (hvalues.symm ▸ hlt)⟩
    · refine ⟨i, hk, ?_⟩
      rw [List.getElem?_set_ne, hv]
      rintro rfl
      exact hne (Option.some.inj (hk.symm.trans hpos))

omit [LinearOrder K] in
/-- A key is entered with its value. -/
theorem exists_insertIdx (hvalues : vs.length = ks.length) (hpos : pos ≤ ks.length)
    (hnew : ∀ {j : Nat}, ks[j]? ≠ some key) :
    (∃ i : Nat, (ks.insertIdx pos key)[i]? = some k ∧
      (vs.insertIdx pos value)[i]? = some v) ↔
      (k = key ∧ v = value) ∨ (k ≠ key ∧ ∃ i : Nat, ks[i]? = some k ∧ vs[i]? = some v) := by
  have hother : ∀ {j : Nat}, ks[j]? = some k → k ≠ key := by
    rintro j hj rfl
    exact hnew hj
  constructor
  · rintro ⟨i, hk, hv⟩
    rcases lt_trichotomy i pos with hi | rfl | hi
    · rw [List.getElem?_insertIdx_of_lt hi] at hk hv
      exact .inr ⟨hother hk, i, hk, hv⟩
    · rw [List.getElem?_insertIdx_self, if_pos hpos] at hk
      rw [List.getElem?_insertIdx_self, if_pos (hvalues.symm ▸ hpos)] at hv
      exact .inl ⟨(Option.some.inj hk).symm, (Option.some.inj hv).symm⟩
    · rw [List.getElem?_insertIdx_of_gt hi] at hk hv
      exact .inr ⟨hother hk, i - 1, hk, hv⟩
  · rintro (⟨rfl, rfl⟩ | ⟨-, i, hk, hv⟩)
    · refine ⟨pos, ?_, ?_⟩
      · rw [List.getElem?_insertIdx_self, if_pos hpos]
      · rw [List.getElem?_insertIdx_self, if_pos (hvalues.symm ▸ hpos)]
    · rcases Nat.lt_or_ge i pos with hi | hi
      · refine ⟨i, ?_, ?_⟩
        · rw [List.getElem?_insertIdx_of_lt hi, hk]
        · rw [List.getElem?_insertIdx_of_lt hi, hv]
      · refine ⟨i + 1, ?_, ?_⟩
        · rw [List.getElem?_insertIdx_of_gt (Nat.lt_succ_of_le hi), Nat.succ_sub_one, hk]
        · rw [List.getElem?_insertIdx_of_gt (Nat.lt_succ_of_le hi), Nat.succ_sub_one, hv]

end

/-- The entries after a key has got a value. -/
def Entered (N N' : Nodes K V) (key : K) (value : V) : Prop :=
  ∀ k v, Holds N' k v ↔ (k = key ∧ v = value) ∨ (k ≠ key ∧ Holds N k v)

/-- `insert_into_leaf` enters the key in its leaf, which has at most one key more then. -/
theorem insertIntoLeaf_ok (h : Sound t.node t.root own height) (hn : t.node a = some n)
    (hleaf : n.isLeaf = true) (hkey : key ∈ own a) (hfree : Mutex.node a ∉ held) (value : V) :
    ∃ n', insertIntoLeaf a key value held t = .ok ((), t.put a n') ∧ n'.isLeaf = true ∧
      n.keys.length ≤ n'.keys.length ∧ n'.keys.length ≤ n.keys.length + 1 ∧
      Sound (t.put a n').node t.root own height ∧
      Entered t.node (t.put a n').node key value := by
  have hshape := (h.leaf a n hn hleaf).2
  have hentered : ∀ {n' : Node K V}, n'.isLeaf = true →
      Sound (Function.update t.node a (some n')) t.root own height →
      (∀ k v, (∃ i : Nat, n'.keys[i]? = some k ∧ n'.values[i]? = some v) ↔
        (k = key ∧ v = value) ∨
          (k ≠ key ∧ ∃ i : Nat, n.keys[i]? = some k ∧ n.values[i]? = some v)) →
      Entered t.node (Function.update t.node a (some n')) key value := by
    intro n' hleaf' hsound hlists k v
    rw [h.holds_put hsound hleaf']
    by_cases hk : k ∈ own a
    · simp [hk, hlists, h.holds_iff hn hleaf hk]
    · have hne : k ≠ key := by
        rintro rfl
        exact hk hkey
      simp [hk, hne]
  have hself : ∀ n' : Node K V, (t.put a n').node a = some n' := by
    intro n'
    rw [Heap.node_put hn, Function.update_self]
  -- A key that is there has its value replaced; another one is put before the lower bound.
  by_cases hplace : n.keys[lowerBound n.keys key]? = some key
  · obtain ⟨n', hn'⟩ : ∃ n' : Node K V, n' =
        { n with values := n.values.set (lowerBound n.keys key) value } := ⟨_, rfl⟩
    have hsound : Sound (Function.update t.node a (some n')) t.root own height := by
      subst hn'
      refine h.put_leaf hn hleaf hleaf rfl rfl hshape.sorted hshape.inside ?_
      rw [List.length_set]
      exact hshape.values
    refine ⟨n', ?_, hn' ▸ hleaf, ?_, ?_, ?_, ?_⟩
    · refine locked_ok hfree hn ?_ (hself n')
      rw [bind_ok (read_ok hn), if_pos hplace, write_ok hn, hn']
    · rw [hn']
    · rw [hn']
      exact Nat.le_succ _
    · rw [Heap.node_put hn]
      exact hsound
    · rw [Heap.node_put hn]
      refine hentered (hn' ▸ hleaf) hsound fun k v => ?_
      rw [hn']
      exact exists_set hshape.sorted hshape.values hplace
  · have hle := lowerBound_le_length n.keys key
    obtain ⟨n', hn'⟩ : ∃ n' : Node K V, n' = { n with
        keys := n.keys.insertIdx (lowerBound n.keys key) key
        values := n.values.insertIdx (lowerBound n.keys key) value } := ⟨_, rfl⟩
    have hlength : n'.keys.length = n.keys.length + 1 := by
      rw [hn']
      exact List.length_insertIdx_of_le_length hle key
    have hsound : Sound (Function.update t.node a (some n')) t.root own height := by
      subst hn'
      refine h.put_leaf hn hleaf hleaf rfl rfl (sorted_insert_lowerBound hshape.sorted hplace) ?_ ?_
      · intro k hk
        rcases List.eq_or_mem_of_mem_insertIdx hk with rfl | hk
        · exact hkey
        · exact hshape.inside k hk
      · rw [hlength, List.length_insertIdx_of_le_length, hshape.values]
        rw [hshape.values]
        exact hle
    refine ⟨n', ?_, hn' ▸ hleaf, ?_, hlength.le, ?_, ?_⟩
    · refine locked_ok hfree hn ?_ (hself n')
      rw [bind_ok (read_ok hn), if_neg hplace, write_ok hn, hn']
    · rw [hlength]
      exact Nat.le_succ _
    · rw [Heap.node_put hn]
      exact hsound
    · rw [Heap.node_put hn]
      refine hentered (hn' ▸ hleaf) hsound fun k v => ?_
      rw [hn']
      exact exists_insertIdx hshape.values hle fun hj =>
        getElem?_ne_of_lowerBound hshape.sorted hplace hj rfl

/-! ### split_leaf -/

omit [LinearOrder K] in
/-- The halves of a leaf hold what the leaf has held. -/
theorem holds_split (hn : N a = some n) (hleaf : n.isLeaf = true) (hb : N b = none) (mid : Nat)
    (next : Option Addr) :
    Holds (N.split a
        { n with keys := n.keys.take mid, values := n.values.take mid, next := some b } b
        { keys := n.keys.drop mid, values := n.values.drop mid, isLeaf := true, next := next,
          parent := n.parent }) k v ↔ Holds N k v := by
  have hlive : ∀ {x m}, N x = some m → x ≠ b := Nodes.ne_of_live hb
  have hab := hlive hn
  constructor
  · rintro ⟨x, m', i, hx, hkind, hk, hv⟩
    rcases Nodes.split_cases hab hx with ⟨-, rfl⟩ | ⟨-, rfl⟩ | ⟨-, -, m, hm, rfl⟩
    · rw [List.getElem?_drop] at hk hv
      exact ⟨a, n, mid + i, hn, hleaf, hk, hv⟩
    · rw [List.getElem?_take] at hk hv
      split at hk
      · next hi =>
          rw [if_pos hi] at hv
          exact ⟨a, n, i, hn, hleaf, hk, hv⟩
      · cases hk
    · exact ⟨x, m, i, hm, hkind, hk, hv⟩
  · rintro ⟨x, m, i, hx, hkind, hk, hv⟩
    by_cases hxa : x = a
    · subst hxa
      obtain rfl := Option.some.inj (hn.symm.trans hx)
      by_cases hi : i < mid
      · refine ⟨x, _, i, Nodes.split_left hab, hleaf, ?_, ?_⟩
        · rw [List.getElem?_take, if_pos hi, hk]
        · rw [List.getElem?_take, if_pos hi, hv]
      · have hplace : mid + (i - mid) = i := Nat.add_sub_cancel' (Nat.not_lt.mp hi)
        refine ⟨b, _, i - mid, Nodes.split_right, rfl, ?_, ?_⟩
        · rw [List.getElem?_drop, hplace, hk]
        · rw [List.getElem?_drop, hplace, hv]
    · exact ⟨x, _, i, (Nodes.split_other hxa (hlive hx)).trans (Nodes.adopt_some hx), hkind, hk, hv⟩

/-- There is a leaf at the address. -/
def IsLeaf (N : Nodes K V) (a : Addr) : Prop := ∃ n, N a = some n ∧ n.isLeaf = true

omit [LinearOrder K] in
theorem isLeaf_iff : IsLeaf N a ↔ (N.leafAt a).isSome := by
  constructor
  · rintro ⟨n, hn, hleaf⟩
    rw [Nodes.leafAt, hn, Option.bind_some, if_pos hleaf]
    rfl
  · intro h
    obtain ⟨e, he⟩ := Option.isSome_iff_exists.mp h
    obtain ⟨n, hn, hif⟩ := Option.bind_eq_some_iff.mp he
    split at hif
    · next hleaf => exact ⟨n, hn, hleaf⟩
    · cases hif

omit [LinearOrder K] in
/-- Leaves stay leaves when one of them is split. -/
theorem isLeaf_split (hb : N b = none) (hl : l.isLeaf = true) (hab : a ≠ b) (h : IsLeaf N c) :
    IsLeaf (N.split a l b r) c := by
  obtain ⟨m, hm, hleaf⟩ := h
  have hcb : c ≠ b := by
    rintro rfl
    cases hm.symm.trans hb
  by_cases hca : c = a
  · rw [hca]
    exact ⟨l, Nodes.split_left hab, hl⟩
  · exact ⟨_, (Nodes.split_other hca hcb).trans (Nodes.adopt_some hm), hleaf⟩

/-- A leaf with at least two keys is split. The sizes are right if it has had one too many. -/
theorem splitLeaf_ok (h : Sound t.node t.root own height) (hn : t.node a = some n)
    (hleaf : n.isLeaf = true) (htwo : 2 ≤ n.keys.length) :
    ∃ t' own' height', splitLeaf a [] t = .ok ((), t') ∧ Sound t'.node t'.root own' height' ∧
      (∀ k v, Holds t'.node k v ↔ Holds t.node k v) ∧
      (∀ c, IsLeaf t.node c → IsLeaf t'.node c) ∧
      (n.keys.length = maxKeys + 1 → (∀ x m, t.node x = some m → x ≠ a →
        m.keys.length ≤ maxKeys ∧ (x ≠ t.root → minKeys ≤ m.keys.length)) →
        Sized t'.node t'.root) ∧
      (Keyed t.node t.root → Keyed t'.node t'.root) := by
  generalize hb : t.cells.length = b
  have hfresh : t.node b = none := hb ▸ t.node_fresh
  have hab : a ≠ b := hb ▸ (Heap.lt_of_node hn).ne
  obtain ⟨mid, hmid⟩ : ∃ mid, (n.keys.length + 1) / 2 = mid := ⟨_, rfl⟩
  obtain ⟨key, hkey⟩ : ∃ key, n.keys[mid]? = some key :=
    ⟨_, List.getElem?_eq_getElem (by omega)⟩
  obtain ⟨r, hr⟩ : ∃ r : Node K V, r =
      { keys := n.keys.drop mid, values := n.values.drop mid, isLeaf := true, next := n.next,
        parent := n.parent } := ⟨_, rfl⟩
  obtain ⟨l, hl⟩ : ∃ l : Node K V, l =
      { n with keys := n.keys.take mid, values := n.values.take mid, next := some b } := ⟨_, rfl⟩
  have hadd : (t.add r).node = Function.update t.node b (some r) := hb ▸ t.node_add r
  have ha₁ : (t.add r).node a = some n := by rw [hadd, Function.update_of_ne hab, hn]
  have hnode : ((t.add r).put a l).node = Nodes.split t.node a l b r := by
    have hnone : r.children = [] := hr ▸ rfl
    rw [Heap.node_put ha₁, hadd, Nodes.split, hnone, Nodes.adopt_nil, Function.update_comm hab]
  have hpending := h.split_leaf hn hleaf hfresh hkey (by omega)
  have hholds := fun k v => holds_split (k := k) (v := v) hn hleaf hfresh mid n.next
  rw [← hl, ← hr, ← hnode] at hpending
  rw [← hl, ← hr, ← hnode] at hholds
  have hlevel : Function.update height b (height a) t.root <
      Function.update height b (height a) a + (b + 1) := by
    obtain ⟨n₀, hn₀, -⟩ := h.root_live
    have hlt := h.height_lt
    rw [Function.update_of_ne (hb ▸ (Heap.lt_of_node hn₀).ne)]
    omega
  obtain ⟨t', own', height', hop, hsound, hleaves, hsized, hkeyed⟩ :=
    insertIntoParent_ok not_held_tree hpending hlevel
  have hlleaf : l.isLeaf = true := hl ▸ hleaf
  have hrootb : t.root ≠ b := by
    obtain ⟨n₀, hn₀, -⟩ := h.root_live
    exact hb ▸ (Heap.lt_of_node hn₀).ne
  refine ⟨t', own', height', ?_, hsound, fun k v => ?_, fun c hc => ?_,
    fun hfull hothers => hsized ?_, fun hkeyed₀ => hkeyed ?_⟩
  · have hafter : ((t.add r).put a l).node a = some l := by rw [hnode, Nodes.split_left hab]
    have hfirst : (n.keys.drop mid)[0]? = some key := by
      rw [List.getElem?_drop, Nat.add_zero, hkey]
    rw [splitLeaf, locked_tree List.not_mem_nil]
    refine (bind_ok (locked_ok (r := (key, b)) (not_held_tree a) hn ?_ hafter)).trans ?_
    · rw [bind_ok (read_ok hn), hmid, ← hr]
      refine (bind_ok ((new_ok r).trans (by rw [hb]))).trans ?_
      rw [← hl]
      refine (bind_ok (write_ok ha₁)).trans ?_
      exact (bind_ok (element_ok hfirst)).trans rfl
    · refine (bind_ok rfl).trans ?_
      rw [Heap.put_length, Heap.add_length, hb]
      exact hop
  · rw [holds_iff_leafAt, hleaves, ← holds_iff_leafAt, hholds]
  · rw [isLeaf_iff, hleaves, ← isLeaf_iff, hnode]
    exact isLeaf_split hfresh hlleaf hab hc
  · have hlength : n.keys.length = 200 := hfull
    have hmid' : mid = 100 := by omega
    rw [hnode]
    refine sizedHalves_split hab hothers ?_ ?_
    · simp [hl, minKeys, maxKeys, hlength, hmid']
    · simp [hr, minKeys, maxKeys, hlength, hmid']
  · rw [hnode]
    exact keyed_split hkeyed₀ hab hrootb fun hkind => by cases hlleaf.symm.trans hkind

omit [LinearOrder K] in
theorem keyed_put_leaf (h : Keyed N root) (hleaf : n.isLeaf = true) :
    Keyed (Function.update N a (some n)) root := by
  intro n' hn' hkind
  by_cases ha : root = a
  · rw [ha, Function.update_self] at hn'
    rw [← Option.some.inj hn', hleaf] at hkind
    cases hkind
  · rw [Function.update_of_ne ha] at hn'
    exact h n' hn' hkind

/-! ### insert -/

/-- `insert` in a tree of the right shape and size. -/
theorem insert_ok (h : Sound t.node t.root own height) (hsized : Sized t.node t.root) (key : K)
    (value : V) :
    ∃ t' own' height', insert key value [] t = .ok ((), t') ∧ Sound t'.node t'.root own' height' ∧
      Sized t'.node t'.root ∧ Entered t.node t'.node key value ∧
      (Keyed t.node t.root → Keyed t'.node t'.root) := by
  obtain ⟨a, n, hfind, hn, hleaf, hkey⟩ := h.findLeaf_ok key
  obtain ⟨n', hinsert, hleaf', hmin, hmax, hsound, hentered⟩ :=
    insertIntoLeaf_ok h hn hleaf hkey List.not_mem_nil value
  have hn' : (t.put a n').node a = some n' := by rw [Heap.node_put hn, Function.update_self]
  have hothers : ∀ x m, (t.put a n').node x = some m → x ≠ a →
      m.keys.length ≤ maxKeys ∧ (x ≠ t.root → minKeys ≤ m.keys.length) := by
    intro x m hx hxa
    rw [Heap.node_put hn, Function.update_of_ne hxa] at hx
    exact hsized x m hx
  have hcheck : locked (.node a) (do
      let node ← read a
      return decide (maxKeys < node.keys.length) : Op K V Bool) [] (t.put a n') =
      .ok (decide (maxKeys < n'.keys.length), t.put a n') := by
    refine locked_ok List.not_mem_nil hn' ?_ hn'
    rw [bind_ok (read_ok hn')]
    rfl
  have hop : insert key value [] t =
      (if maxKeys < n'.keys.length then splitLeaf a else pure ()) [] (t.put a n') := by
    rw [insert, bind_ok hfind, bind_ok hinsert, bind_ok hcheck]
    simp only [decide_eq_true_eq]
  have hbefore := (hsized a n hn).1
  have hkeyed : Keyed t.node t.root → Keyed (t.put a n').node t.root := by
    intro hkeyed
    rw [Heap.node_put hn]
    exact keyed_put_leaf hkeyed hleaf'
  by_cases hfull : maxKeys < n'.keys.length
  · have hexact : n'.keys.length = maxKeys + 1 := by omega
    have htwo : 2 ≤ n'.keys.length := by
      rw [hexact]
      decide
    obtain ⟨t', own', height', hsplit, hsound', hholds, -, hsized', hkeyed'⟩ :=
      splitLeaf_ok hsound hn' hleaf' htwo
    rw [if_pos hfull] at hop
    refine ⟨t', own', height', hop.trans hsplit, hsound', hsized' hexact hothers, fun k v => ?_,
      fun hkeyed₀ => hkeyed' (hkeyed hkeyed₀)⟩
    rw [hholds, hentered]
  · rw [if_neg hfull] at hop
    refine ⟨t.put a n', own, height, hop, hsound, fun x m hx => ?_, hentered, hkeyed⟩
    by_cases hxa : x = a
    · rw [hxa] at hx ⊢
      obtain rfl := Option.some.inj (hn'.symm.trans hx)
      exact ⟨Nat.not_lt.mp hfull, fun hroot => ((hsized a n hn).2 hroot).trans hmin⟩
    · exact hothers x m hx hxa

end NanoVault.Index
