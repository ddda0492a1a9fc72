/-
The shape of a B+ tree in memory.

Every node is responsible for the keys of an interval: the root for all, a child for its slot
between the separators of its parent (`InnerShape`). The leaves hold their keys in order, and each
points to the one whose interval starts where its own ends (`LeafShape`). All this is said of
each node and its neighbours, so that an operation has to look only at the nodes it changes. The
first inner node of a height may be without keys, as a root can be.

While a node is split, its right half hangs on no parent yet: the interval of the left half as it is
then (`own`) is smaller than the slot its parent has for it (`due`).
-/
import NanoVault.Index.BPlusTree

namespace NanoVault.Index

open Lib Lib.KeyRange

variable {K V : Type} [LinearOrder K]

abbrev Nodes (K V : Type) : Type := Addr → Option (Node K V)

structure LeafShape (N : Nodes K V) (own : Addr → KeyRange K) (a : Addr) (n : Node K V) :
    Prop where
  sorted : n.keys.Pairwise (· < ·)
  inside : ∀ k ∈ n.keys, k ∈ own a
  values : n.values.length = n.keys.length
  last : n.next = none → (own a).hi = ⊤
  next : ∀ b, n.next = some b →
    ∃ m s, N b = some m ∧ m.isLeaf = true ∧ (own a).hi = (s : K) ∧ (own b).lo = s

structure InnerShape (N : Nodes K V) (own due : Addr → KeyRange K) (height : Addr → Nat)
    (a : Addr) (n : Node K V) : Prop where
  keys : ∀ s : K, (own a).lo = s → n.keys ≠ []
  children : n.children.length = n.keys.length + 1
  separates : Separates (own a) n.keys
  child : ∀ i c, n.children[i]? = some c →
    due c = slot (own a) n.keys i ∧ height c + 1 = height a ∧
      ∃ m, N c = some m ∧ m.parent = some a

/-- A node is the child of another at a position. -/
def Nodes.Child (N : Nodes K V) (p : Addr) (i : Nat) (c : Addr) : Prop :=
  ∃ m, N p = some m ∧ m.isLeaf = false ∧ m.children[i]? = some c

/-- The shape of the tree; `orphan` is the node that hangs on no parent. -/
structure Shape (N : Nodes K V) (root : Addr) (own due : Addr → KeyRange K)
    (height : Addr → Nat) (orphan : Option Addr) : Prop where
  root_live : ∃ n, N root = some n ∧ n.parent = none
  root_due : due root = whole
  leaf : ∀ a n, N a = some n → n.isLeaf = true → height a = 0 ∧ LeafShape N own a n
  inner : ∀ a n, N a = some n → n.isLeaf = false → InnerShape N own due height a n
  height_le : ∀ a n, N a = some n → height a ≤ height root
  owned : ∀ a n, N a = some n → a ≠ root → some a ≠ orphan →
    ∃ p i, n.parent = some p ∧ N.Child p i a

/-- The shape between the operations. -/
abbrev Sound (N : Nodes K V) (root : Addr) (own : Addr → KeyRange K) (height : Addr → Nat) :
    Prop := Shape N root own own height none

variable {N N' : Nodes K V} {root : Addr} {own own' due due' : Addr → KeyRange K}
  {height height' : Addr → Nat} {orphan : Option Addr} {a b c p : Addr} {n n' m : Node K V}
  {i j : Nat} {k : K}

/-! ### One node -/

theorem LeafShape.congr (h : LeafShape N own a n) (hkeys : n'.keys = n.keys)
    (hvalues : n'.values = n.values) (hlink : n'.next = n.next) (hown : own' a = own a)
    (hnext : ∀ b m, n.next = some b → N b = some m → m.isLeaf = true →
      (own' b).lo = (own b).lo ∧ ∃ m', N' b = some m' ∧ m'.isLeaf = true) :
    LeafShape N' own' a n' := by
  refine ⟨hkeys ▸ h.sorted, ?_, ?_, ?_, ?_⟩
  · rw [hkeys, hown]
    exact h.inside
  · rw [hkeys, hvalues]
    exact h.values
  · rw [hlink, hown]
    exact h.last
  · intro b hb
    obtain ⟨m, s, hm, hleaf, hhi, hlo⟩ := h.next b (hlink ▸ hb)
    obtain ⟨hsame, m', hm', hleaf'⟩ := hnext b m (hlink ▸ hb) hm hleaf
    exact ⟨m', s, hm', hleaf', hown ▸ hhi, hsame.trans hlo⟩

theorem InnerShape.congr (h : InnerShape N own due height a n) (hkeys : n'.keys = n.keys)
    (hchildren : n'.children = n.children) (hown : own' a = own a) (hheight : height' a = height a)
    (hchild : ∀ c m, c ∈ n.children → N c = some m → m.parent = some a →
      due' c = due c ∧ height' c = height c ∧ ∃ m', N' c = some m' ∧ m'.parent = some a) :
    InnerShape N' own' due' height' a n' := by
  refine ⟨?_, ?_, ?_, ?_⟩
  · rw [hkeys, hown]
    exact h.keys
  · rw [hkeys, hchildren]
    exact h.children
  · rw [hkeys, hown]
    exact h.separates
  · intro i c hc
    rw [hchildren] at hc
    obtain ⟨hdue, hbelow, m, hm, hparent⟩ := h.child i c hc
    obtain ⟨hsame, hlevel, hafter⟩ := hchild c m (List.mem_of_getElem? hc) hm hparent
    refine ⟨?_, ?_, hafter⟩
    · rw [hsame, hkeys, hown]
      exact hdue
    · rw [hlevel, hheight]
      exact hbelow

theorem InnerShape.index_le (h : InnerShape N own due height a n)
    (hc : n.children[i]? = some c) : i ≤ n.keys.length := by
  have hi := (List.getElem?_eq_some_iff.mp hc).1
  rw [h.children] at hi
  exact Nat.le_of_lt_succ hi

/-- A node has one place among the children. -/
theorem InnerShape.index_inj (h : InnerShape N own due height a n)
    (hi : n.children[i]? = some c) (hj : n.children[j]? = some c) : i = j := by
  have hslot := (h.child i c hi).1.symm.trans (h.child j c hj).1
  exact h.separates.start_inj (h.index_le hi) (h.index_le hj) (congrArg KeyRange.lo hslot)

/-! ### Places in the tree -/

section Sound

variable (h : Sound N root own height)
include h

theorem Shape.exists_parent (hn : N a = some n) (ha : a ≠ root) :
    ∃ p m, ∃ i : Nat, n.parent = some p ∧ N p = some m ∧ m.isLeaf = false ∧
      m.children[i]? = some a ∧ InnerShape N own own height p m := by
  obtain ⟨p, i, hp, m, hm, hinner, hi⟩ := h.owned a n hn ha (Option.some_ne_none a)
  exact ⟨p, m, i, hp, hm, hinner, hi, h.inner p m hm hinner⟩

/-- The root is alone at its height. -/
theorem Shape.eq_root (hn : N a = some n) (ha : height a = height root) : a = root := by
  by_contra hne
  obtain ⟨p, m, i, -, hm, -, hi, hshape⟩ := h.exists_parent hn hne
  have hle := h.height_le p m hm
  have hheight := (hshape.child i a hi).2.1
  omega

/-- Two nodes of a height are the same, if their parents are and their slots have something in
common that determines the place. -/
theorem Shape.eq_of_parents {P : Addr → Addr → Prop}
    (hstep : ∀ a b p q m m' (i j : Nat), P a b → N p = some m → N q = some m' →
      InnerShape N own own height p m → InnerShape N own own height q m' →
      m.children[i]? = some a → m'.children[j]? = some b →
      P p q ∧ (p = q → m = m' → i = j))
    (hn : N a = some n) (hm : N b = some m) (hheight : height a = height b) (hP : P a b) :
    a = b := by
  obtain ⟨d, hd⟩ : ∃ d, d + height a = height root :=
    ⟨height root - height a, Nat.sub_add_cancel (h.height_le a n hn)⟩
  induction d generalizing a b n m with
  | zero =>
      rw [h.eq_root hn (by omega), h.eq_root hm (by omega)]
  | succ d ih =>
      have hne : ∀ {x : Addr}, height x = height a → x ≠ root := by
        rintro x hx rfl
        omega
      obtain ⟨p, mp, i, -, hp, -, hi, hpshape⟩ := h.exists_parent hn (hne rfl)
      obtain ⟨q, mq, j, -, hq, -, hj, hqshape⟩ := h.exists_parent hm (hne hheight.symm)
      obtain ⟨hPpq, hplace⟩ := hstep a b p q mp mq i j hP hp hq hpshape hqshape hi hj
      have hpa := (hpshape.child i a hi).2.1
      have hqb := (hqshape.child j b hj).2.1
      obtain rfl := ih hp hq (by omega) hPpq (by omega)
      obtain rfl := Option.some.inj (hp.symm.trans hq)
      obtain rfl := hplace rfl rfl
      exact Option.some.inj (hi.symm.trans hj)

/-- A key belongs to one node of each height. -/
theorem Shape.eq_of_mem (hn : N a = some n) (hm : N b = some m) (hheight : height a = height b)
    (ha : k ∈ own a) (hb : k ∈ own b) : a = b := by
  refine h.eq_of_parents (P := fun a b => k ∈ own a ∧ k ∈ own b) ?_ hn hm hheight ⟨ha, hb⟩
  rintro a b p q m m' i j ⟨ha, hb⟩ - - hp hq hi hj
  rw [(hp.child i a hi).1] at ha
  rw [(hq.child j b hj).1] at hb
  refine ⟨⟨hp.separates.mem_of_slot ha, hq.separates.mem_of_slot hb⟩, ?_⟩
  rintro rfl rfl
  rw [← hp.separates.index_eq (hp.index_le hi) ha, hq.separates.index_eq (hq.index_le hj) hb]

/-- The lower end of an interval belongs to it. -/
theorem Shape.proper (hn : N a = some n) (hlo : (own a).lo = k) : k ∈ own a := by
  by_cases ha : a = root
  · rw [ha, h.root_due] at hlo
    cases hlo
  · obtain ⟨p, m, i, -, -, -, hi, hshape⟩ := h.exists_parent hn ha
    have hown := (hshape.child i a hi).1
    rw [hown] at hlo ⊢
    have hkeys : m.keys ≠ [] := by
      intro hnil
      have hle := hshape.index_le hi
      rw [hnil, List.length_nil, Nat.le_zero] at hle
      rw [hle] at hlo
      exact hshape.keys k hlo hnil
    exact hshape.separates.slot_proper hkeys (hshape.index_le hi) hlo

theorem Shape.eq_of_lo (hn : N a = some n) (hm : N b = some m) (hheight : height a = height b)
    (hlo : (own a).lo = (own b).lo) : a = b := by
  cases hbot : (own b).lo with
  | coe s =>
      have hb := h.proper hm hbot
      have ha := h.proper hn (hlo.trans hbot)
      exact h.eq_of_mem hn hm hheight ha hb
  | bot =>
      refine h.eq_of_parents (P := fun a b => (own a).lo = ⊥ ∧ (own b).lo = ⊥) ?_ hn hm hheight
        ⟨hlo.trans hbot, hbot⟩
      have hfirst : ∀ {p c : Addr} {m : Node K V} {i : Nat},
          InnerShape N own own height p m → m.children[i]? = some c → (own c).lo = ⊥ →
          i = 0 ∧ (own p).lo = ⊥ := by
        intro p c m i hp hi hc
        rw [(hp.child i c hi).1, slot_lo] at hc
        cases i with
        | zero => exact ⟨rfl, hc⟩
        | succ i =>
            rw [start_succ (List.getElem?_eq_getElem (hp.index_le hi))] at hc
            cases hc
      rintro a b p q m m' i j ⟨ha, hb⟩ - - hp hq hi hj
      obtain ⟨rfl, hplo⟩ := hfirst hp hi ha
      obtain ⟨rfl, hqlo⟩ := hfirst hq hj hb
      exact ⟨⟨hplo, hqlo⟩, fun _ _ => rfl⟩

theorem Shape.eq_of_hi (hn : N a = some n) (hm : N b = some m) (hheight : height a = height b)
    (hhi : (own a).hi = (own b).hi) : a = b := by
  have hle : ∀ {a b : Addr} {n m : Node K V}, N a = some n → N b = some m →
      height a = height b → (own a).hi = (own b).hi → (own a).lo ≤ (own b).lo → a = b := by
    intro a b n m hn hm hheight hhi hlo
    cases hb : (own b).lo with
    | bot =>
        rw [hb] at hlo
        exact h.eq_of_lo hn hm hheight ((le_bot_iff.mp hlo).trans hb.symm)
    | coe s =>
        have hs := h.proper hm hb
        rw [hb] at hlo
        exact h.eq_of_mem hn hm hheight ⟨hlo, hhi ▸ hs.2⟩ hs
  rcases le_total (own a).lo (own b).lo with hlo | hlo
  · exact hle hn hm hheight hhi hlo
  · exact (hle hm hn hheight.symm hhi.symm hlo).symm

end Sound

end NanoVault.Index
