/-
Two leaves side by side.

A leaf with a key too few gets one from the leaf next to it under the same parent
(`Nodes.rotate`), or the two become one (`Nodes.merge`). The separator between them is replaced or
goes, the other leaves stay where they are, and together the two hold what they have held.
-/
import NanoVault.Index.WellFormed

namespace NanoVault.Index

open Lib Lib.KeyRange

variable {K V : Type} [LinearOrder K]

/-- The leaves at `x` and `y` are written, and the separator `i` between them in their parent. -/
def Nodes.rotate (N : Nodes K V) (p : Addr) (m : Node K V) (i : Nat) (s : K) (x : Addr)
    (l : Node K V) (y : Addr) (r : Node K V) : Nodes K V :=
  Function.update (Function.update (Function.update N x (some l)) y (some r)) p
    (some { m with keys := m.keys.set i s })

/-- The leaf at `y` is gone, with the separator `i` in front of it. -/
def Nodes.merge (N : Nodes K V) (p : Addr) (m : Node K V) (i : Nat) (x : Addr) (l : Node K V)
    (y : Addr) : Nodes K V :=
  Function.update (Function.update (Function.update N x (some l)) p (some { m with
    keys := m.keys.eraseIdx i
    children := m.children.eraseIdx (i + 1) })) y none

/-- Two leaves side by side under one parent. -/
structure Adjacent (N : Nodes K V) (p : Addr) (m : Node K V) (i : Nat) (x : Addr) (l : Node K V)
    (y : Addr) (r : Node K V) : Prop where
  parent : N p = some m
  inner : m.isLeaf = false
  left_child : m.children[i]? = some x
  right_child : m.children[i + 1]? = some y
  left : N x = some l
  right : N y = some r
  left_leaf : l.isLeaf = true
  right_leaf : r.isLeaf = true

/-- The keys of a leaf with their values. -/
def Node.pairs (n : Node K V) : List (K × V) := n.keys.zip n.values

/-- A leaf with keys in order, all in an interval, and a value for each. -/
structure Filled (n : Node K V) (I : KeyRange K) : Prop where
  leaf : n.isLeaf = true
  sorted : n.keys.Pairwise (· < ·)
  inside : ∀ k ∈ n.keys, k ∈ I
  values : n.values.length = n.keys.length

variable {N N' : Nodes K V} {root : Addr} {own own' : Addr → KeyRange K} {height : Addr → Nat}
  {p x y a b : Addr} {m l r l' r' n : Node K V} {i : Nat} {s k : K} {v : V}

/-! ### Where they are -/

section

variable (h : Sound N root own height) (ha : Adjacent N p m i x l y r)
include h ha

theorem Adjacent.shape : InnerShape N own own height p m := h.inner p m ha.parent ha.inner

theorem Adjacent.exists_separator : ∃ s, m.keys[i]? = some s := by
  have hle := (ha.shape h).index_le ha.right_child
  exact ⟨_, List.getElem?_eq_getElem hle⟩

theorem Adjacent.own_left : own x = slot (own p) m.keys i :=
  ((ha.shape h).child i x ha.left_child).1

theorem Adjacent.own_right : own y = slot (own p) m.keys (i + 1) :=
  ((ha.shape h).child (i + 1) y ha.right_child).1

theorem Adjacent.meet (hs : m.keys[i]? = some s) : (own x).hi = s ∧ (own y).lo = s := by
  rw [ha.own_left h, ha.own_right h, slot_hi, slot_lo, stop_some hs, start_succ hs]
  exact ⟨rfl, rfl⟩

/-- The three nodes are different, and the two leaves are not the root. -/
theorem Adjacent.ne : x ≠ p ∧ y ≠ p ∧ x ≠ y ∧ x ≠ root ∧ y ≠ root := by
  obtain ⟨hxp, hxroot, -⟩ := h.child_facts ha.parent ha.inner (List.mem_of_getElem? ha.left_child)
  obtain ⟨hyp, hyroot, -⟩ := h.child_facts ha.parent ha.inner (List.mem_of_getElem? ha.right_child)
  refine ⟨hxp, hyp, ?_, hxroot, hyroot⟩
  rintro rfl
  have hplace := (ha.shape h).index_inj ha.left_child ha.right_child
  omega

theorem Adjacent.parents : l.parent = some p ∧ r.parent = some p := by
  obtain ⟨-, -, n, hn, hnp⟩ := (ha.shape h).child i x ha.left_child
  obtain ⟨-, -, n', hn', hnp'⟩ := (ha.shape h).child (i + 1) y ha.right_child
  obtain rfl := Option.some.inj (ha.left.symm.trans hn)
  obtain rfl := Option.some.inj (ha.right.symm.trans hn')
  exact ⟨hnp, hnp'⟩

/-- The left leaf points to the right one. -/
theorem Adjacent.next : l.next = some y := by
  obtain ⟨s, hs⟩ := ha.exists_separator h
  obtain ⟨hhi, hlo⟩ := ha.meet h hs
  obtain ⟨hzero, hshape⟩ := h.leaf x l ha.left ha.left_leaf
  have hzero' := (h.leaf y r ha.right ha.right_leaf).1
  cases hnext : l.next with
  | none => cases (hshape.last hnext).symm.trans hhi
  | some b =>
      obtain ⟨mb, s', hmb, hbleaf, hhi', hblo⟩ := hshape.next b hnext
      obtain rfl := WithTop.coe_injective (hhi'.symm.trans hhi)
      have hlevel := (h.leaf b mb hmb hbleaf).1.trans hzero'.symm
      rw [h.eq_of_lo hmb ha.right hlevel (hblo.trans hlo.symm)]

/-- No other leaf does. -/
theorem Adjacent.eq_of_next (hn : N a = some n) (hleaf : n.isLeaf = true)
    (hnext : n.next = some y) : a = x := by
  obtain ⟨s, hs⟩ := ha.exists_separator h
  obtain ⟨hhi, hlo⟩ := ha.meet h hs
  obtain ⟨hzero, hshape⟩ := h.leaf a n hn hleaf
  obtain ⟨mb, s', -, -, hhi', hlo'⟩ := hshape.next y hnext
  obtain rfl := WithBot.coe_injective (hlo'.symm.trans hlo)
  exact h.eq_of_hi hn ha.left (hzero.trans (h.leaf x l ha.left ha.left_leaf).1.symm)
    (hhi'.trans hhi.symm)

/-- What is behind the right leaf is another leaf. -/
theorem Adjacent.next_ne (hnext : r.next = some b) : b ≠ y := by
  rintro rfl
  obtain ⟨-, s', -, -, hhi, hlo⟩ := (h.leaf _ r ha.right ha.right_leaf).2.next _ hnext
  have hproper := (h.proper ha.right hlo).2
  rw [hhi] at hproper
  exact lt_irrefl _ hproper

theorem Adjacent.child_ne_left {c : Addr} {j : Nat} (hc : m.children[j]? = some c)
    (hj : j ≠ i) : c ≠ x := by
  rintro rfl
  exact hj ((ha.shape h).index_inj hc ha.left_child)

theorem Adjacent.child_ne_right {c : Addr} {j : Nat} (hc : m.children[j]? = some c)
    (hj : j ≠ i + 1) : c ≠ y := by
  rintro rfl
  exact hj ((ha.shape h).index_inj hc ha.right_child)

/-- What hangs on another node is neither of them. -/
theorem Adjacent.ne_of_parent (hn : N b = some n) (hparent : n.parent = some a) (hap : a ≠ p) :
    b ≠ x ∧ b ≠ y := by
  obtain ⟨hlparent, hrparent⟩ := ha.parents h
  constructor
  · rintro rfl
    obtain rfl := Option.some.inj (hn.symm.trans ha.left)
    exact hap (Option.some.inj (hparent.symm.trans hlparent))
  · rintro rfl
    obtain rfl := Option.some.inj (hn.symm.trans ha.right)
    exact hap (Option.some.inj (hparent.symm.trans hrparent))

/-- A leaf that ends where the right one has ended, and points to what that has pointed to. -/
theorem Adjacent.leaf_at_end {n' : Node K V} (hn : Filled n' (own' a)) (hlink : n'.next = r.next)
    (hend : (own' a).hi = (own y).hi)
    (hnext : ∀ b mb, r.next = some b → N b = some mb → mb.isLeaf = true →
      (own' b).lo = (own b).lo ∧ ∃ m', N' b = some m' ∧ m'.isLeaf = true) :
    LeafShape N' own' a n' := by
  obtain ⟨-, hold⟩ := h.leaf y r ha.right ha.right_leaf
  refine ⟨hn.sorted, hn.inside, hn.values, ?_, ?_⟩
  · rw [hlink, hend]
    exact hold.last
  · intro b hb
    rw [hlink] at hb
    obtain ⟨mb, s', hmb, hbleaf, hhi, hlo⟩ := hold.next b hb
    obtain ⟨hsame, m', hm', hm'leaf⟩ := hnext b mb hb hmb hbleaf
    exact ⟨m', s', hm', hm'leaf, hend.trans hhi, hsame.trans hlo⟩

theorem Adjacent.filled : Filled l (own x) ∧ Filled r (own y) := by
  have hl := (h.leaf x l ha.left ha.left_leaf).2
  have hr := (h.leaf y r ha.right ha.right_leaf).2
  exact ⟨⟨ha.left_leaf, hl.sorted, hl.inside, hl.values⟩,
    ⟨ha.right_leaf, hr.sorted, hr.inside, hr.values⟩⟩

end

omit [LinearOrder K] in
theorem Adjacent.ne_of_inner (ha : Adjacent N p m i x l y r) (hn : N a = some n)
    (hinner : n.isLeaf = false) : a ≠ x ∧ a ≠ y := by
  constructor
  · rintro rfl
    obtain rfl := Option.some.inj (hn.symm.trans ha.left)
    cases ha.left_leaf.symm.trans hinner
  · rintro rfl
    obtain rfl := Option.some.inj (hn.symm.trans ha.right)
    cases ha.right_leaf.symm.trans hinner

/-! ### Entries -/

omit [LinearOrder K] in
theorem mem_pairs : (k, v) ∈ n.pairs ↔ ∃ i : Nat, n.keys[i]? = some k ∧ n.values[i]? = some v := by
  rw [Node.pairs, List.mem_iff_getElem?]
  simp only [List.getElem?_zip_eq_some]

omit [LinearOrder K] in
theorem holds_iff_pairs : Holds N k v ↔
    ∃ a n, N a = some n ∧ n.isLeaf = true ∧ (k, v) ∈ n.pairs := by
  simp only [Holds, mem_pairs]
  constructor
  · rintro ⟨a, n, j, hn, hleaf, hplace⟩
    exact ⟨a, n, hn, hleaf, j, hplace⟩
  · rintro ⟨a, n, hn, hleaf, j, hplace⟩
    exact ⟨a, n, j, hn, hleaf, hplace⟩

/-! ### A key moves over -/

omit [LinearOrder K] in
/-- What stands at an address after a rotation. -/
theorem Nodes.rotate_cases (h : N.rotate p m i s x l y r a = some n) :
    a = p ∧ n = { m with keys := m.keys.set i s } ∨ a ≠ p ∧ a = y ∧ n = r ∨
      a ≠ p ∧ a ≠ y ∧ a = x ∧ n = l ∨ a ≠ p ∧ a ≠ y ∧ a ≠ x ∧ N a = some n := by
  rw [Nodes.rotate] at h
  by_cases hp : a = p
  · rw [hp, Function.update_self] at h
    exact .inl ⟨hp, (Option.some.inj h).symm⟩
  · rw [Function.update_of_ne hp] at h
    by_cases hy : a = y
    · rw [hy, Function.update_self] at h
      exact .inr (.inl ⟨hp, hy, (Option.some.inj h).symm⟩)
    · rw [Function.update_of_ne hy] at h
      by_cases hx : a = x
      · rw [hx, Function.update_self] at h
        exact .inr (.inr (.inl ⟨hp, hy, hx, (Option.some.inj h).symm⟩))
      · rw [Function.update_of_ne hx] at h
        exact .inr (.inr (.inr ⟨hp, hy, hx, h⟩))

omit [LinearOrder K] in
theorem Nodes.rotate_left (hxp : x ≠ p) (hxy : x ≠ y) : N.rotate p m i s x l y r x = some l := by
  rw [Nodes.rotate, Function.update_of_ne hxp, Function.update_of_ne hxy, Function.update_self]

omit [LinearOrder K] in
theorem Nodes.rotate_right (hyp : y ≠ p) : N.rotate p m i s x l y r y = some r := by
  rw [Nodes.rotate, Function.update_of_ne hyp, Function.update_self]

omit [LinearOrder K] in
theorem Nodes.rotate_other (hp : a ≠ p) (hx : a ≠ x) (hy : a ≠ y) :
    N.rotate p m i s x l y r a = N a := by
  rw [Nodes.rotate, Function.update_of_ne hp, Function.update_of_ne hy, Function.update_of_ne hx]

section

variable (h : Sound N root own height) (ha : Adjacent N p m i x l y r)
include h ha

/-- Every node is still there, with its kind and its parent. -/
theorem Adjacent.rotate_live (hlp : l'.parent = l.parent) (hrp : r'.parent = r.parent)
    (hl : l'.isLeaf = true) (hr : r'.isLeaf = true) (hn : N a = some n) :
    ∃ n', N.rotate p m i s x l' y r' a = some n' ∧ n'.isLeaf = n.isLeaf ∧
      n'.parent = n.parent := by
  obtain ⟨hxp, hyp, hxy, -, -⟩ := ha.ne h
  rw [Nodes.rotate]
  by_cases hp : a = p
  · subst hp
    obtain rfl := Option.some.inj (hn.symm.trans ha.parent)
    exact ⟨_, Function.update_self _ _ _, rfl, rfl⟩
  · rw [Function.update_of_ne hp]
    by_cases hy : a = y
    · subst hy
      obtain rfl := Option.some.inj (hn.symm.trans ha.right)
      exact ⟨r', Function.update_self _ _ _, hr.trans ha.right_leaf.symm, hrp⟩
    · rw [Function.update_of_ne hy]
      by_cases hx : a = x
      · subst hx
        obtain rfl := Option.some.inj (hn.symm.trans ha.left)
        exact ⟨l', Function.update_self _ _ _, hl.trans ha.left_leaf.symm, hlp⟩
      · rw [Function.update_of_ne hx]
        exact ⟨n, hn, rfl, rfl⟩

/-- Their parent with another separator between them. -/
theorem Adjacent.rotate_parent (hownx : own' x = ⟨(own x).lo, s⟩)
    (howny : own' y = ⟨s, (own y).hi⟩) (hown : ∀ {c}, c ≠ x → c ≠ y → own' c = own c)
    (hlo : (own x).lo < s) (hhi : s < (own y).hi)
    (hlive : ∀ {c n}, N c = some n →
      ∃ n', N' c = some n' ∧ n'.isLeaf = n.isLeaf ∧ n'.parent = n.parent) :
    InnerShape N' own' own' height p { m with keys := m.keys.set i s } := by
  obtain ⟨hxp, hyp, -⟩ := ha.ne h
  have hshape := ha.shape h
  have hle := hshape.index_le ha.right_child
  rw [ha.own_left h] at hlo
  rw [ha.own_right h] at hhi
  constructor
  · rw [hown hxp.symm hyp.symm]
    intro s' hs' hnil
    exact hshape.keys s' hs' (List.length_eq_zero_iff.mp
      ((List.length_set).symm.trans (congrArg List.length hnil)))
  · rw [List.length_set]
    exact hshape.children
  · rw [hown hxp.symm hyp.symm]
    exact hshape.separates.set hle hlo hhi
  · intro j c hc
    obtain ⟨hslot, hheight, mc, hmc, hparent⟩ := hshape.child j c hc
    obtain ⟨m', hm', -, hsame⟩ := hlive hmc
    refine ⟨?_, hheight, m', hm', hsame.trans hparent⟩
    rw [hown hxp.symm hyp.symm]
    rcases lt_trichotomy j i with hj | rfl | hj
    · have hcx := ha.child_ne_left h hc hj.ne
      have hcy := ha.child_ne_right h hc (by omega)
      rw [hown hcx hcy, slot_set_lt _ _ _ hj]
      exact hslot
    · obtain rfl := Option.some.inj (hc.symm.trans ha.left_child)
      rw [hownx, slot_set_left _ _ hle, hslot]
      rfl
    · rcases Nat.lt_or_eq_of_le (Nat.succ_le_of_lt hj) with hj | rfl
      · have hcx := ha.child_ne_left h hc (by omega)
        have hcy := ha.child_ne_right h hc hj.ne'
        rw [hown hcx hcy, slot_set_gt _ _ _ hj]
        exact hslot
      · obtain rfl := Option.some.inj (hc.symm.trans ha.right_child)
        rw [howny, slot_set_right _ _ hle, hslot]
        rfl

/-- The left leaf in front of another separator, at which the right one begins. -/
theorem Adjacent.rotate_left_leaf (hln : l'.next = l.next) (hl : Filled l' (own' x))
    (hxend : (own' x).hi = s) (hystart : (own' y).lo = s)
    (hright : ∃ m', N' y = some m' ∧ m'.isLeaf = true) : LeafShape N' own' x l' := by
  have hlink : l'.next = some y := hln.trans (ha.next h)
  refine ⟨hl.sorted, hl.inside, hl.values, ?_, ?_⟩
  · intro hnone
    cases hlink.symm.trans hnone
  · intro b hb
    obtain rfl := Option.some.inj (hlink.symm.trans hb)
    obtain ⟨m', hm', hleaf⟩ := hright
    exact ⟨m', s, hm', hleaf, hxend, hystart⟩

/-- Every node but the root is the child it has been. -/
theorem Adjacent.rotate_owned (hlp : l'.parent = l.parent) (hrp : r'.parent = r.parent)
    (hn : N.rotate p m i s x l' y r' a = some n) (haroot : a ≠ root) :
    ∃ q j, n.parent = some q ∧ (N.rotate p m i s x l' y r').Child q j a := by
  obtain ⟨n₀, hold, hparent⟩ : ∃ n₀, N a = some n₀ ∧ n.parent = n₀.parent := by
    rcases Nodes.rotate_cases hn with ⟨rfl, rfl⟩ | ⟨-, rfl, rfl⟩ | ⟨-, -, rfl, rfl⟩ |
      ⟨-, -, -, hold⟩
    · exact ⟨m, ha.parent, rfl⟩
    · exact ⟨r, ha.right, hrp⟩
    · exact ⟨l, ha.left, hlp⟩
    · exact ⟨n, hold, rfl⟩
  obtain ⟨q, j, hq, mq, hmq, hmqkind, hj⟩ := h.owned a n₀ hold haroot (Option.some_ne_none a)
  refine ⟨q, j, hparent.trans hq, ?_⟩
  by_cases hqp : q = p
  · subst hqp
    obtain rfl := Option.some.inj (hmq.symm.trans ha.parent)
    exact ⟨_, Function.update_self _ _ _, hmqkind, hj⟩
  · obtain ⟨hqx, hqy⟩ := ha.ne_of_inner hmq hmqkind
    exact ⟨mq, (Nodes.rotate_other hqp hqx hqy).trans hmq, hmqkind, hj⟩

/-- The leaves on both sides of another separator. -/
theorem Adjacent.rotate (hlp : l'.parent = l.parent) (hrp : r'.parent = r.parent)
    (hln : l'.next = l.next) (hrn : r'.next = r.next) (hl : Filled l' ⟨(own x).lo, s⟩)
    (hr : Filled r' ⟨s, (own y).hi⟩) (hlo : (own x).lo < s) (hhi : s < (own y).hi) :
    Sound (N.rotate p m i s x l' y r') root
      (Function.update (Function.update own x ⟨(own x).lo, s⟩) y ⟨s, (own y).hi⟩) height := by
  obtain ⟨hxp, hyp, hxy, hxroot, hyroot⟩ := ha.ne h
  have hownx : Function.update (Function.update own x ⟨(own x).lo, s⟩) y ⟨s, (own y).hi⟩ x =
      ⟨(own x).lo, s⟩ := by
    rw [Function.update_of_ne hxy, Function.update_self]
  have howny : Function.update (Function.update own x ⟨(own x).lo, s⟩) y ⟨s, (own y).hi⟩ y =
      ⟨s, (own y).hi⟩ := Function.update_self _ _ _
  have hown : ∀ {a}, a ≠ x → a ≠ y → Function.update (Function.update own x ⟨(own x).lo, s⟩) y
      ⟨s, (own y).hi⟩ a = own a := by
    intro a hax hay
    rw [Function.update_of_ne hay, Function.update_of_ne hax]
  generalize hown' : Function.update (Function.update own x ⟨(own x).lo, s⟩) y
    ⟨s, (own y).hi⟩ = own' at hownx howny hown ⊢
  have hlive : ∀ {a n}, N a = some n → ∃ n', N.rotate p m i s x l' y r' a = some n' ∧
      n'.isLeaf = n.isLeaf ∧ n'.parent = n.parent :=
    fun hn => ha.rotate_live h hlp hrp hl.leaf hr.leaf hn
  -- what is behind a leaf other than the left one starts where it has started
  have hnext : ∀ {a n b mb}, N a = some n → n.isLeaf = true → a ≠ x → n.next = some b →
      N b = some mb → mb.isLeaf = true → (own' b).lo = (own b).lo ∧
        ∃ m', N.rotate p m i s x l' y r' b = some m' ∧ m'.isLeaf = true := by
    intro a n b mb hn hleaf hax hb hmb hbleaf
    obtain ⟨m', hm', hkind, -⟩ := hlive hmb
    refine ⟨?_, m', hm', hkind.trans hbleaf⟩
    have hby : b ≠ y := by
      rintro rfl
      exact hax (ha.eq_of_next h hn hleaf hb)
    by_cases hbx : b = x
    · rw [hbx, hownx]
    · rw [hown hbx hby]
  refine ⟨?_, ?_, ?_, ?_, ?_, fun a n hn haroot _ => ha.rotate_owned h hlp hrp hn haroot⟩
  · obtain ⟨n₀, hroot, hnone⟩ := h.root_live
    obtain ⟨m', hm', -, hsame⟩ := hlive hroot
    exact ⟨m', hm', hsame.trans hnone⟩
  · rw [hown hxroot.symm hyroot.symm]
    exact h.root_due
  · intro a n hn hleaf
    rcases Nodes.rotate_cases hn with ⟨-, rfl⟩ | ⟨-, rfl, rfl⟩ | ⟨-, -, rfl, rfl⟩ |
      ⟨hap, hay, hax, hold⟩
    · cases ha.inner.symm.trans hleaf
    · refine ⟨(h.leaf a r ha.right ha.right_leaf).1, ?_⟩
      refine ha.leaf_at_end h (by rwa [howny]) hrn (by rw [howny]) fun b mb hb hmb hbleaf => ?_
      exact hnext ha.right ha.right_leaf hxy.symm hb hmb hbleaf
    · refine ⟨(h.leaf a l ha.left ha.left_leaf).1, ?_⟩
      refine ha.rotate_left_leaf h hln (by rwa [hownx]) (by rw [hownx]) (by rw [howny]) ?_
      obtain ⟨m', hm', hkind, -⟩ := hlive ha.right
      exact ⟨m', hm', hkind.trans ha.right_leaf⟩
    · obtain ⟨hzero, hold'⟩ := h.leaf a n hold hleaf
      exact ⟨hzero, hold'.congr rfl rfl rfl (hown hax hay)
        fun b mb hb hmb hbleaf => hnext hold hleaf hax hb hmb hbleaf⟩
  · intro a n hn hkind
    rcases Nodes.rotate_cases hn with ⟨rfl, rfl⟩ | ⟨-, -, rfl⟩ | ⟨-, -, -, rfl⟩ |
      ⟨hap, hay, hax, hold⟩
    · exact ha.rotate_parent h hownx howny hown hlo hhi hlive
    · cases hr.leaf.symm.trans hkind
    · cases hl.leaf.symm.trans hkind
    · refine (h.inner a n hold hkind).congr rfl rfl (hown hax hay) rfl fun c mc _ hmc hparent => ?_
      obtain ⟨m', hm', -, hsame⟩ := hlive hmc
      obtain ⟨hcx, hcy⟩ := ha.ne_of_parent h hmc hparent hap
      exact ⟨hown hcx hcy, rfl, m', hm', hsame.trans hparent⟩
  · intro a n hn
    rcases Nodes.rotate_cases hn with ⟨rfl, -⟩ | ⟨-, rfl, -⟩ | ⟨-, -, rfl, -⟩ | ⟨-, -, -, hold⟩
    · exact h.height_le a m ha.parent
    · exact h.height_le a r ha.right
    · exact h.height_le a l ha.left
    · exact h.height_le a n hold

/-- The two leaves hold together what they have held. -/
theorem Adjacent.holds_rotate (hl : l'.isLeaf = true) (hr : r'.isLeaf = true)
    (hpairs : ∀ e, e ∈ l'.pairs ∨ e ∈ r'.pairs ↔ e ∈ l.pairs ∨ e ∈ r.pairs) :
    Holds (N.rotate p m i s x l' y r') k v ↔ Holds N k v := by
  obtain ⟨hxp, hyp, hxy, -, -⟩ := ha.ne h
  rw [holds_iff_pairs, holds_iff_pairs]
  constructor
  · rintro ⟨a, n, hn, hleaf, hmem⟩
    rcases Nodes.rotate_cases hn with ⟨-, rfl⟩ | ⟨-, -, rfl⟩ | ⟨-, -, -, rfl⟩ | ⟨-, -, -, hold⟩
    · cases ha.inner.symm.trans hleaf
    · rcases (hpairs _).mp (.inr hmem) with hmem | hmem
      · exact ⟨x, l, ha.left, ha.left_leaf, hmem⟩
      · exact ⟨y, r, ha.right, ha.right_leaf, hmem⟩
    · rcases (hpairs _).mp (.inl hmem) with hmem | hmem
      · exact ⟨x, l, ha.left, ha.left_leaf, hmem⟩
      · exact ⟨y, r, ha.right, ha.right_leaf, hmem⟩
    · exact ⟨a, n, hold, hleaf, hmem⟩
  · rintro ⟨a, n, hn, hleaf, hmem⟩
    have hmoved : (k, v) ∈ l.pairs ∨ (k, v) ∈ r.pairs →
        ∃ a n, N.rotate p m i s x l' y r' a = some n ∧ n.isLeaf = true ∧ (k, v) ∈ n.pairs := by
      intro hmem
      rcases (hpairs _).mpr hmem with hmem | hmem
      · exact ⟨x, l', Nodes.rotate_left hxp hxy, hl, hmem⟩
      · exact ⟨y, r', Nodes.rotate_right hyp, hr, hmem⟩
    by_cases hax : a = x
    · rw [hax] at hn
      obtain rfl := Option.some.inj (hn.symm.trans ha.left)
      exact hmoved (.inl hmem)
    · by_cases hay : a = y
      · rw [hay] at hn
        obtain rfl := Option.some.inj (hn.symm.trans ha.right)
        exact hmoved (.inr hmem)
      · have hap : a ≠ p := by
          rintro rfl
          obtain rfl := Option.some.inj (hn.symm.trans ha.parent)
          cases ha.inner.symm.trans hleaf
        exact ⟨a, n, (Nodes.rotate_other hap hax hay).trans hn, hleaf, hmem⟩

end

/-! ### Two leaves become one -/

omit [LinearOrder K] in
/-- What stands at an address after a merge. -/
theorem Nodes.merge_cases (h : N.merge p m i x l y a = some n) : a ≠ y ∧
    (a = p ∧ n = { m with keys := m.keys.eraseIdx i, children := m.children.eraseIdx (i + 1) } ∨
      a ≠ p ∧ a = x ∧ n = l ∨ a ≠ p ∧ a ≠ x ∧ N a = some n) := by
  rw [Nodes.merge] at h
  by_cases hy : a = y
  · rw [hy, Function.update_self] at h
    cases h
  · rw [Function.update_of_ne hy] at h
    refine ⟨hy, ?_⟩
    by_cases hp : a = p
    · rw [hp, Function.update_self] at h
      exact .inl ⟨hp, (Option.some.inj h).symm⟩
    · rw [Function.update_of_ne hp] at h
      by_cases hx : a = x
      · rw [hx, Function.update_self] at h
        exact .inr (.inl ⟨hp, hx, (Option.some.inj h).symm⟩)
      · rw [Function.update_of_ne hx] at h
        exact .inr (.inr ⟨hp, hx, h⟩)

omit [LinearOrder K] in
theorem Nodes.merge_left (hxp : x ≠ p) (hxy : x ≠ y) : N.merge p m i x l y x = some l := by
  rw [Nodes.merge, Function.update_of_ne hxy, Function.update_of_ne hxp, Function.update_self]

omit [LinearOrder K] in
theorem Nodes.merge_other (hp : a ≠ p) (hx : a ≠ x) (hy : a ≠ y) :
    N.merge p m i x l y a = N a := by
  rw [Nodes.merge, Function.update_of_ne hy, Function.update_of_ne hp, Function.update_of_ne hx]

omit [LinearOrder K] in
/-- Every node but the right leaf is still there, with its kind and its parent. -/
theorem Adjacent.merge_live (ha : Adjacent N p m i x l y r) (hlp : l'.parent = l.parent)
    (hl : l'.isLeaf = true) (hn : N a = some n) (hay : a ≠ y) :
    ∃ n', N.merge p m i x l' y a = some n' ∧ n'.isLeaf = n.isLeaf ∧ n'.parent = n.parent := by
  rw [Nodes.merge, Function.update_of_ne hay]
  by_cases hp : a = p
  · subst hp
    obtain rfl := Option.some.inj (hn.symm.trans ha.parent)
    exact ⟨_, Function.update_self _ _ _, rfl, rfl⟩
  · rw [Function.update_of_ne hp]
    by_cases hx : a = x
    · subst hx
      obtain rfl := Option.some.inj (hn.symm.trans ha.left)
      exact ⟨l', Function.update_self _ _ _, hl.trans ha.left_leaf.symm, hlp⟩
    · rw [Function.update_of_ne hx]
      exact ⟨n, hn, rfl, rfl⟩

section

variable (h : Sound N root own height) (ha : Adjacent N p m i x l y r)
include h ha

/-- Their parent without the separator and without the right one. -/
theorem Adjacent.merge_parent (hownx : own' x = ⟨(own x).lo, (own y).hi⟩)
    (hown : ∀ {c}, c ≠ x → own' c = own c)
    (hkeys : ∀ s : K, (own p).lo = s → m.keys.length ≠ 1)
    (hlive : ∀ {c n}, N c = some n → c ≠ y →
      ∃ n', N' c = some n' ∧ n'.isLeaf = n.isLeaf ∧ n'.parent = n.parent) :
    InnerShape N' own' own' height p { m with
      keys := m.keys.eraseIdx i, children := m.children.eraseIdx (i + 1) } := by
  obtain ⟨hxp, -⟩ := ha.ne h
  have hshape := ha.shape h
  have hle : i < m.keys.length := hshape.index_le ha.right_child
  have hlength := List.length_eraseIdx_of_lt hle
  constructor
  · rw [hown hxp.symm]
    intro s' hs' hnil
    have hone := hkeys s' hs'
    have hzero := hlength.symm.trans (congrArg List.length hnil)
    rw [List.length_nil] at hzero
    omega
  · have hchildren := hshape.children
    rw [hlength, List.length_eraseIdx_of_lt (by omega)]
    omega
  · rw [hown hxp.symm]
    exact hshape.separates.eraseIdx i
  · intro j c hc
    rw [hown hxp.symm]
    rcases Nat.lt_or_ge j (i + 1) with hj | hj
    · rw [List.getElem?_eraseIdx_of_lt hj] at hc
      obtain ⟨hslot, hheight, mc, hmc, hparent⟩ := hshape.child j c hc
      obtain ⟨m', hm', -, hsame⟩ := hlive hmc (ha.child_ne_right h hc hj.ne)
      refine ⟨?_, hheight, m', hm', hsame.trans hparent⟩
      rcases Nat.lt_or_eq_of_le (Nat.le_of_lt_succ hj) with hj | rfl
      · rw [hown (ha.child_ne_left h hc hj.ne), slot_eraseIdx_lt _ _ hj]
        exact hslot
      · obtain rfl := Option.some.inj (hc.symm.trans ha.left_child)
        rw [hownx, slot_eraseIdx_self, ha.own_right h, hslot]
        rfl
    · -- the children behind the one that goes move one place forward
      rw [List.getElem?_eraseIdx_of_ge hj] at hc
      obtain ⟨hslot, hheight, mc, hmc, hparent⟩ := hshape.child (j + 1) c hc
      obtain ⟨m', hm', -, hsame⟩ := hlive hmc (ha.child_ne_right h hc (by omega))
      refine ⟨?_, hheight, m', hm', hsame.trans hparent⟩
      rw [hown (ha.child_ne_left h hc (by omega)), slot_eraseIdx_gt _ _ (Nat.lt_of_succ_le hj)]
      exact hslot

/-- Every node that stays, but the root, is the child of its parent, perhaps one place further to the
front. -/
theorem Adjacent.merge_owned (hlp : l'.parent = l.parent)
    (hn : N.merge p m i x l' y a = some n) (haroot : a ≠ root) :
    ∃ q j, n.parent = some q ∧ (N.merge p m i x l' y).Child q j a := by
  obtain ⟨hay, hcases⟩ := Nodes.merge_cases hn
  obtain ⟨n₀, hold, hparent⟩ : ∃ n₀, N a = some n₀ ∧ n.parent = n₀.parent := by
    rcases hcases with ⟨rfl, rfl⟩ | ⟨-, rfl, rfl⟩ | ⟨-, -, hold⟩
    · exact ⟨m, ha.parent, rfl⟩
    · exact ⟨l, ha.left, hlp⟩
    · exact ⟨n, hold, rfl⟩
  obtain ⟨q, j, hq, mq, hmq, hmqkind, hj⟩ := h.owned a n₀ hold haroot (Option.some_ne_none a)
  obtain ⟨hqx, hqy⟩ := ha.ne_of_inner hmq hmqkind
  by_cases hqp : q = p
  · subst hqp
    obtain rfl := Option.some.inj (hmq.symm.trans ha.parent)
    -- the children behind the one that goes have moved one place forward
    have hplace : j ≠ i + 1 := by
      rintro rfl
      exact hay (Option.some.inj (hj.symm.trans ha.right_child))
    have hself : N.merge q mq i x l' y q = some { mq with
        keys := mq.keys.eraseIdx i, children := mq.children.eraseIdx (i + 1) } := by
      rw [Nodes.merge, Function.update_of_ne hqy, Function.update_self]
    rcases Nat.lt_or_gt_of_ne hplace with hlt | hgt
    · refine ⟨q, j, hparent.trans hq, _, hself, hmqkind, ?_⟩
      exact (List.getElem?_eraseIdx_of_lt hlt).trans hj
    · refine ⟨q, j - 1, hparent.trans hq, _, hself, hmqkind, ?_⟩
      refine (List.getElem?_eraseIdx_of_ge (by omega)).trans ?_
      rw [Nat.sub_add_cancel (by omega), hj]
  · exact ⟨q, j, hparent.trans hq, mq, (Nodes.merge_other hqp hqx hqy).trans hmq, hmqkind, hj⟩

/-- One leaf in the place of two, if their parent keeps a key or is the root. -/
theorem Adjacent.merge (hlp : l'.parent = l.parent) (hln : l'.next = r.next)
    (hl : Filled l' ⟨(own x).lo, (own y).hi⟩)
    (hkeys : ∀ s : K, (own p).lo = s → m.keys.length ≠ 1) :
    Sound (N.merge p m i x l' y) root (Function.update own x ⟨(own x).lo, (own y).hi⟩)
      height := by
  obtain ⟨hxp, hyp, hxy, hxroot, hyroot⟩ := ha.ne h
  have hownx : Function.update own x ⟨(own x).lo, (own y).hi⟩ x = ⟨(own x).lo, (own y).hi⟩ :=
    Function.update_self _ _ _
  have hown : ∀ {a}, a ≠ x →
      Function.update own x ⟨(own x).lo, (own y).hi⟩ a = own a := by
    intro a hax
    rw [Function.update_of_ne hax]
  generalize hown' : Function.update own x ⟨(own x).lo, (own y).hi⟩ = own' at hownx hown ⊢
  have hlive : ∀ {a n}, N a = some n → a ≠ y → ∃ n', N.merge p m i x l' y a = some n' ∧
      n'.isLeaf = n.isLeaf ∧ n'.parent = n.parent :=
    fun hn hay => ha.merge_live hlp hl.leaf hn hay
  -- no leaf that stays has pointed to the one that goes, except the left one
  have hnext : ∀ {b mb}, b ≠ y → N b = some mb → mb.isLeaf = true → (own' b).lo = (own b).lo ∧
      ∃ m', N.merge p m i x l' y b = some m' ∧ m'.isLeaf = true := by
    intro b mb hby hmb hbleaf
    obtain ⟨m', hm', hkind, -⟩ := hlive hmb hby
    refine ⟨?_, m', hm', hkind.trans hbleaf⟩
    by_cases hbx : b = x
    · rw [hbx, hownx]
    · rw [hown hbx]
  refine ⟨?_, ?_, ?_, ?_, ?_, fun a n hn haroot _ => ha.merge_owned h hlp hn haroot⟩
  · obtain ⟨n₀, hroot, hnone⟩ := h.root_live
    obtain ⟨m', hm', -, hsame⟩ := hlive hroot hyroot.symm
    exact ⟨m', hm', hsame.trans hnone⟩
  · rw [hown hxroot.symm]
    exact h.root_due
  · intro a n hn hleaf
    obtain ⟨hay, ⟨-, rfl⟩ | ⟨-, rfl, rfl⟩ | ⟨hap, hax, hold⟩⟩ := Nodes.merge_cases hn
    · cases ha.inner.symm.trans hleaf
    · refine ⟨(h.leaf a l ha.left ha.left_leaf).1, ?_⟩
      refine ha.leaf_at_end h (by rwa [hownx]) hln (by rw [hownx]) fun b mb hb hmb hbleaf => ?_
      exact hnext (ha.next_ne h hb) hmb hbleaf
    · obtain ⟨hzero, hold'⟩ := h.leaf a n hold hleaf
      refine ⟨hzero, hold'.congr rfl rfl rfl (hown hax) fun b mb hb hmb hbleaf => ?_⟩
      refine hnext ?_ hmb hbleaf
      rintro rfl
      exact hax (ha.eq_of_next h hold hleaf hb)
  · intro a n hn hkind
    obtain ⟨hay, ⟨rfl, rfl⟩ | ⟨-, -, rfl⟩ | ⟨hap, hax, hold⟩⟩ := Nodes.merge_cases hn
    · exact ha.merge_parent h hownx hown hkeys hlive
    · cases hl.leaf.symm.trans hkind
    · refine (h.inner a n hold hkind).congr rfl rfl (hown hax) rfl fun c mc _ hmc hparent => ?_
      obtain ⟨hcx, hcy⟩ := ha.ne_of_parent h hmc hparent hap
      obtain ⟨m', hm', -, hsame⟩ := hlive hmc hcy
      exact ⟨hown hcx, rfl, m', hm', hsame.trans hparent⟩
  · intro a n hn
    obtain ⟨-, ⟨rfl, -⟩ | ⟨-, rfl, -⟩ | ⟨-, -, hold⟩⟩ := Nodes.merge_cases hn
    · exact h.height_le a m ha.parent
    · exact h.height_le a l ha.left
    · exact h.height_le a n hold

/-- The one leaf holds what the two have held. -/
theorem Adjacent.holds_merge (hl : l'.isLeaf = true)
    (hpairs : ∀ e, e ∈ l'.pairs ↔ e ∈ l.pairs ∨ e ∈ r.pairs) :
    Holds (N.merge p m i x l' y) k v ↔ Holds N k v := by
  obtain ⟨hxp, -, hxy, -, -⟩ := ha.ne h
  rw [holds_iff_pairs, holds_iff_pairs]
  constructor
  · rintro ⟨a, n, hn, hleaf, hmem⟩
    obtain ⟨-, ⟨-, rfl⟩ | ⟨-, -, rfl⟩ | ⟨-, -, hold⟩⟩ := Nodes.merge_cases hn
    · cases ha.inner.symm.trans hleaf
    · rcases (hpairs _).mp hmem with hmem | hmem
      · exact ⟨x, l, ha.left, ha.left_leaf, hmem⟩
      · exact ⟨y, r, ha.right, ha.right_leaf, hmem⟩
    · exact ⟨a, n, hold, hleaf, hmem⟩
  · rintro ⟨a, n, hn, hleaf, hmem⟩
    have hself : N.merge p m i x l' y x = some l' := Nodes.merge_left hxp hxy
    by_cases hax : a = x
    · rw [hax] at hn
      obtain rfl := Option.some.inj (hn.symm.trans ha.left)
      exact ⟨x, l', hself, hl, (hpairs _).mpr (.inl hmem)⟩
    · by_cases hay : a = y
      · rw [hay] at hn
        obtain rfl := Option.some.inj (hn.symm.trans ha.right)
        exact ⟨x, l', hself, hl, (hpairs _).mpr (.inr hmem)⟩
      · have hap : a ≠ p := by
          rintro rfl
          obtain rfl := Option.some.inj (hn.symm.trans ha.parent)
          cases ha.inner.symm.trans hleaf
        exact ⟨a, n, (Nodes.merge_other hap hax hay).trans hn, hleaf, hmem⟩

end

end NanoVault.Index
