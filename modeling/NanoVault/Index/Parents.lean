/-
How a new node gets its parent (`split_internal`, `insert_into_parent`).

The right half of a node is entered in the node above, which is split in turn when it has a key too
many; a root that is split gets a new root. By induction on the fuel, which is enough for the way up
to the root, the calls end in a tree of the right shape and size that holds what the leaves have
held (`insertIntoParent_ok`).
-/
import NanoVault.Index.Descent
import NanoVault.Index.Halves

namespace NanoVault.Index

open Lib Lib.KeyRange Op

variable {K V : Type} [LinearOrder K]

variable {N N' : Nodes K V} {t t' : Heap K V} {root : Addr} {own due : Addr → KeyRange K}
  {height : Addr → Nat} {a b c p left right : Addr} {n m l r : Node K V} {i : Nat} {key k : K}
  {v : V} {held : List Mutex} {cs : List Addr}

/-! ### Parents -/

omit [LinearOrder K] in
theorem setParent_ok (hc : t.node c = some m) (hfree : Mutex.node c ∉ held) :
    setParent p c held t = .ok ((), t.put c { m with parent := some p }) := by
  refine locked_ok hfree hc ?_ ((congrFun (Heap.node_put hc) c).trans (Function.update_self _ _ _))
  rw [bind_ok (read_ok hc), write_ok hc]

omit [LinearOrder K] in
theorem each_setParent_ok (hlive : ∀ c ∈ cs, ∃ m, t.node c = some m)
    (hfree : ∀ c ∈ cs, Mutex.node c ∉ held) :
    ∃ t', each (setParent p) cs held t = .ok ((), t') ∧ t'.node = Nodes.adopt t.node cs p ∧
      t'.root = t.root ∧ t'.cells.length = t.cells.length := by
  induction cs generalizing t with
  | nil =>
      exact ⟨t, rfl, (Nodes.adopt_nil _ _).symm, rfl, rfl⟩
  | cons c cs ih =>
      obtain ⟨m, hm⟩ := hlive c List.mem_cons_self
      have hset := setParent_ok (p := p) hm (hfree c List.mem_cons_self)
      have hnode := Heap.node_put (n := { m with parent := some p }) hm
      have hlive' : ∀ x ∈ cs, ∃ m', (t.put c { m with parent := some p }).node x = some m' := by
        intro x hx
        rw [hnode]
        by_cases hxc : x = c
        · rw [hxc, Function.update_self]
          exact ⟨_, rfl⟩
        · rw [Function.update_of_ne hxc]
          exact hlive x (List.mem_cons_of_mem _ hx)
      obtain ⟨t', heach, hafter, hroot, hlength⟩ :=
        ih hlive' fun x hx => hfree x (List.mem_cons_of_mem _ hx)
      refine ⟨t', ?_, ?_, hroot, hlength.trans (Heap.put_length _ _ _)⟩
      · rw [each, bind_ok hset, heach]
      · rw [hafter, hnode, Nodes.adopt_cons hm]

/-! ### split_internal -/

/-- `split_internal` ends in the call that enters the right half. -/
theorem splitInternal_ok (h : Sound t.node t.root own height) (hheld : ∀ x, .node x ∉ held)
    (hn : t.node a = some n) (hkind : n.isLeaf = false)
    (hkey : n.keys[n.keys.length / 2]? = some key) (f : Addr → K → Addr → Op K V Unit) :
    ∃ t', splitInternal f a held t = f a key t.cells.length held t' ∧
      t'.node = Nodes.split t.node a
        { n with
          keys := n.keys.take (n.keys.length / 2)
          children := n.children.take (n.keys.length / 2 + 1) }
        t.cells.length
        { keys := n.keys.drop (n.keys.length / 2 + 1)
          children := n.children.drop (n.keys.length / 2 + 1)
          isLeaf := false
          parent := n.parent } ∧
      t'.root = t.root ∧ t'.cells.length = t.cells.length + 1 := by
  generalize hb : t.cells.length = b
  generalize hmid : n.keys.length / 2 = mid at hkey ⊢
  have hfresh : t.node b = none := hb ▸ t.node_fresh
  have hab : a ≠ b := by
    rintro rfl
    cases hn.symm.trans hfresh
  have hmoved : ∀ c ∈ n.children.drop (mid + 1), c ≠ a ∧ c ≠ b ∧ ∃ m, t.node c = some m := by
    intro c hc
    obtain ⟨hca, -, m, hm, -⟩ := h.child_facts hn hkind (List.mem_of_mem_drop hc)
    refine ⟨hca, ?_, m, hm⟩
    rintro rfl
    cases hm.symm.trans hfresh
  obtain ⟨r₀, hr₀⟩ : ∃ r₀ : Node K V, r₀ =
      { keys := n.keys.drop (mid + 1), children := n.children.drop (mid + 1), isLeaf := false } :=
    ⟨_, rfl⟩
  have hadd : (t.add r₀).node = Function.update t.node b (some r₀) := hb ▸ t.node_add r₀
  have hlive : ∀ c ∈ n.children.drop (mid + 1), ∃ m, (t.add r₀).node c = some m := by
    intro c hc
    obtain ⟨-, hcb, hm⟩ := hmoved c hc
    rw [hadd, Function.update_of_ne hcb]
    exact hm
  -- Each child is locked while its parent is set, and none of them is held yet.
  have hfree : ∀ c ∈ n.children.drop (mid + 1), Mutex.node c ∉ Mutex.node a :: held := by
    intro c hc hmem
    rcases List.mem_cons.mp hmem with heq | hmem
    · exact (hmoved c hc).1 (Mutex.node.inj heq)
    · exact hheld c hmem
  obtain ⟨t₁, heach, hnode₁, hroot₁, hlength₁⟩ := each_setParent_ok (p := b) hlive hfree
  have ha₁ : t₁.node a = some n := by
    have ha₀ : (t.add r₀).node a = some n := by rw [hadd, Function.update_of_ne hab, hn]
    rw [hnode₁, Nodes.adopt_some ha₀, if_neg fun hmem => (hmoved a hmem).1 rfl]
  have hb₁ : t₁.node b = some r₀ := by
    have hb₀ : (t.add r₀).node b = some r₀ := by rw [hadd, Function.update_self]
    rw [hnode₁, Nodes.adopt_some hb₀, if_neg fun hmem => (hmoved b hmem).2.1 rfl]
  obtain ⟨l, hl⟩ : ∃ l : Node K V, l =
      { n with keys := n.keys.take mid, children := n.children.take (mid + 1) } := ⟨_, rfl⟩
  have hput : (t₁.put a l).node = Function.update t₁.node a (some l) := Heap.node_put ha₁
  have hb₂ : (t₁.put a l).node b = some r₀ := by rw [hput, Function.update_of_ne hab.symm, hb₁]
  have hnode : ((t₁.put a l).put b { r₀ with parent := n.parent }).node =
      Nodes.split t.node a l b { r₀ with parent := n.parent } := by
    rw [Heap.node_put hb₂, hput, Nodes.split, hnode₁, hadd]
    funext x
    by_cases hxb : x = b
    · rw [hxb, Function.update_self, Function.update_self]
    · rw [Function.update_of_ne hxb, Function.update_of_ne hxb]
      by_cases hxa : x = a
      · rw [hxa, Function.update_self, Function.update_self]
      · rw [Function.update_of_ne hxa, Function.update_of_ne hxa, Nodes.adopt, Nodes.adopt,
          Function.update_of_ne hxb, hr₀]
  refine ⟨(t₁.put a l).put b { r₀ with parent := n.parent }, ?_, ?_, ?_, ?_⟩
  · have hafter : ((t₁.put a l).put b { r₀ with parent := n.parent }).node a = some l := by
      rw [hnode, Nodes.split_left hab]
    rw [splitInternal]
    refine (bind_ok (locked_ok (r := (key, b)) (hheld a) hn ?_ hafter)).trans rfl
    rw [bind_ok (read_ok hn), hmid, ← hr₀]
    refine (bind_ok (element_ok hkey)).trans ?_
    refine (bind_ok ((new_ok r₀).trans (by rw [hb]))).trans ?_
    refine (bind_ok heach).trans ?_
    refine (bind_ok (read_ok ha₁)).trans ?_
    rw [← hl]
    refine (bind_ok (write_ok ha₁)).trans ?_
    refine (bind_ok (read_ok hb₂)).trans ?_
    exact (bind_ok (write_ok hb₂)).trans rfl
  · rw [hnode, hl, hr₀]
  · exact hroot₁
  · rw [Heap.put_length, Heap.put_length, hlength₁, Heap.add_length, hb]

/-! ### insert_into_parent -/

/-- The root has been split, and gets a parent. -/
theorem insertIntoParent_root (h : Pending t.node t.root due height t.root key right) (fuel : Nat)
    (held : List Mutex) :
    ∃ t', insertIntoParent (fuel + 1) t.root key right held t = .ok ((), t') ∧
      t'.node = Nodes.grow t.node t.root key right t.cells.length ∧ t'.root = t.cells.length := by
  generalize hb : t.cells.length = b
  have hfresh : t.node b = none := hb ▸ t.node_fresh
  obtain ⟨l, hl⟩ := h.live_left
  obtain ⟨r, hr⟩ := h.live_right
  have hne := h.right_ne_left
  have hlb : t.root ≠ b := fun heq => by cases (heq ▸ hl).symm.trans hfresh
  have hrb : right ≠ b := fun heq => by cases (heq ▸ hr).symm.trans hfresh
  obtain ⟨n, hn⟩ : ∃ n : Node K V, n =
      { keys := [key], children := [t.root, right], isLeaf := false } := ⟨_, rfl⟩
  have hadd : (t.add n).node = Function.update t.node b (some n) := hb ▸ t.node_add n
  have hl₁ : (t.add n).node t.root = some l := by rw [hadd, Function.update_of_ne hlb, hl]
  have hput := Heap.node_put (n := { l with parent := some b }) hl₁
  have hr₁ : ((t.add n).put t.root { l with parent := some b }).node right = some r := by
    rw [hput, Function.update_of_ne hne, hadd, Function.update_of_ne hrb, hr]
  refine ⟨{ ((t.add n).put t.root { l with parent := some b }).put right
    { r with parent := some b } with root := b }, ?_, ?_, rfl⟩
  · rw [insertIntoParent]
    refine (bind_ok rfl).trans ?_
    rw [if_pos rfl, ← hn]
    refine (bind_ok ((new_ok n).trans (by rw [hb]))).trans ?_
    refine (bind_ok (read_ok hl₁)).trans ?_
    refine (bind_ok (write_ok hl₁)).trans ?_
    refine (bind_ok (read_ok hr₁)).trans ?_
    exact (bind_ok (write_ok hr₁)).trans rfl
  · have hmem : b ∉ [t.root, right] := by simp [hlb.symm, hrb.symm]
    rw [Nodes.grow, ← hn, ← Nodes.adopt_update hmem, ← hadd, ← Nodes.adopt_cons hl₁, ← hput,
      ← Nodes.adopt_cons hr₁, Nodes.adopt_nil, ← Heap.node_put hr₁]
    rfl

/-- The right half is entered in the parent of the left one, which may be split then. -/
theorem insertIntoParent_link (hheld : ∀ x, .node x ∉ held) (hne : left ≠ t.root)
    (hl : t.node left = some l) (hparent : l.parent = some p) (hp : t.node p = some m)
    (hr : t.node right = some r) (hpright : p ≠ right) (hplace : lowerBound m.keys key = i)
    (fuel : Nat) :
    ∃ t', insertIntoParent (fuel + 1) left key right held t =
        (if maxKeys < (m.keys.insertIdx i key).length then
          splitInternal (insertIntoParent fuel) p else pure ()) held t' ∧
      t'.node = Nodes.link t.node p m i key right ∧ t'.root = t.root := by
  obtain ⟨m', hm'⟩ : ∃ m' : Node K V, m' = { m with
      keys := m.keys.insertIdx i key
      children := m.children.insertIdx (i + 1) right } := ⟨_, rfl⟩
  have hput := Heap.node_put (n := m') hp
  have hr₁ : (t.put p m').node right = some r := by
    rw [hput, Function.update_of_ne hpright.symm, hr]
  have hput' := Heap.node_put (n := { r with parent := some p }) hr₁
  refine ⟨(t.put p m').put right { r with parent := some p }, ?_, ?_, rfl⟩
  · have hafter : ((t.put p m').put right { r with parent := some p }).node p = some m' := by
      rw [hput', Function.update_of_ne hpright, hput, Function.update_self]
    rw [insertIntoParent]
    refine (bind_ok rfl).trans ?_
    rw [if_neg hne]
    refine (bind_ok (read_ok hl)).trans ?_
    rw [hparent]
    refine (bind_ok (pointee_ok p)).trans ?_
    refine (bind_ok (locked_ok (r := decide (maxKeys < (m.keys.insertIdx i key).length))
      (hheld p) hp ?_ hafter)).trans ?_
    · rw [bind_ok (read_ok hp), hplace, ← hm']
      refine (bind_ok (write_ok hp)).trans ?_
      refine (bind_ok (read_ok hr₁)).trans ?_
      exact (bind_ok (write_ok hr₁)).trans rfl
    · simp only [decide_eq_true_eq]
  · rw [Nodes.link, ← hm', ← Nodes.adopt_update (by simpa using hpright), ← hput,
      ← Nodes.adopt_cons hr₁, Nodes.adopt_nil, ← hput']

/-! ### What the leaves hold -/

omit [LinearOrder K] in
theorem leafAt_adopt (N : Nodes K V) (cs : List Addr) (p : Addr) :
    Nodes.leafAt (N.adopt cs p) = N.leafAt := by
  funext c
  cases hc : N c with
  | none => rw [Nodes.leafAt, Nodes.leafAt, Nodes.adopt, hc, Option.map_none]
  | some m => rw [Nodes.leafAt, Nodes.leafAt, Nodes.adopt_some hc, hc]; rfl

omit [LinearOrder K] in
/-- An inner node is written where no leaf is. -/
theorem leafAt_update (hn : n.isLeaf = false) (ha : N.leafAt a = none) :
    Nodes.leafAt (Function.update N a (some n)) = N.leafAt := by
  funext c
  by_cases hc : c = a
  · rw [hc, ha, Nodes.leafAt, Function.update_self, Option.bind_some, if_neg (by simp [hn])]
  · rw [Nodes.leafAt, Nodes.leafAt, Function.update_of_ne hc]

omit [LinearOrder K] in
theorem leafAt_inner (ha : N a = some n) (hn : n.isLeaf = false) : N.leafAt a = none := by
  rw [Nodes.leafAt, ha, Option.bind_some, if_neg (by simp [hn])]

omit [LinearOrder K] in
theorem leafAt_link (hp : N p = some m) (hm : m.isLeaf = false) :
    Nodes.leafAt (N.link p m i key right) = N.leafAt := by
  have hnone : Nodes.leafAt (N.adopt [right] p) p = none := by
    rw [leafAt_adopt, leafAt_inner hp hm]
  have hm' : ({ m with
      keys := m.keys.insertIdx i key
      children := m.children.insertIdx (i + 1) right } : Node K V).isLeaf = false := hm
  exact (leafAt_update hm' hnone).trans (leafAt_adopt _ _ _)

omit [LinearOrder K] in
theorem leafAt_grow (hb : N b = none) :
    Nodes.leafAt (N.grow left key right b) = N.leafAt := by
  have hnone : Nodes.leafAt (N.adopt [left, right] b) b = none := by
    rw [leafAt_adopt, Nodes.leafAt, hb, Option.bind_none]
  rw [Nodes.grow, leafAt_update rfl hnone, leafAt_adopt]

omit [LinearOrder K] in
theorem leafAt_split (ha : N a = some n) (hn : n.isLeaf = false) (hb : N b = none)
    (hl : l.isLeaf = false) (hr : r.isLeaf = false) :
    Nodes.leafAt (N.split a l b r) = N.leafAt := by
  have hleft : Nodes.leafAt (Function.update (N.adopt r.children b) a (some l)) = N.leafAt := by
    rw [leafAt_update hl, leafAt_adopt]
    rw [leafAt_adopt, leafAt_inner ha hn]
  have hnone : N.leafAt b = none := by rw [Nodes.leafAt, hb, Option.bind_none]
  rw [Nodes.split, leafAt_update hr (by rw [hleft, hnone]), hleft]

/-! ### Numbers of keys -/

/-- No node has more than `maxKeys` keys, and none but the root less than `minKeys`. -/
def Sized (N : Nodes K V) (root : Addr) : Prop :=
  ∀ a n, N a = some n → n.keys.length ≤ maxKeys ∧ (a ≠ root → minKeys ≤ n.keys.length)

/-- The same, where the root may be a half of a node, and is to be no root then. -/
def SizedHalves (N : Nodes K V) (root left : Addr) : Prop :=
  ∀ a n, N a = some n →
    n.keys.length ≤ maxKeys ∧ (a ≠ root ∨ a = left → minKeys ≤ n.keys.length)

omit [LinearOrder K] in
theorem sizedHalves_split (hab : a ≠ b)
    (hothers : ∀ x m, N x = some m → x ≠ a →
      m.keys.length ≤ maxKeys ∧ (x ≠ root → minKeys ≤ m.keys.length))
    (hl : minKeys ≤ l.keys.length ∧ l.keys.length ≤ maxKeys)
    (hr : minKeys ≤ r.keys.length ∧ r.keys.length ≤ maxKeys) :
    SizedHalves (N.split a l b r) root a := by
  intro x m' hx
  rcases Nodes.split_cases hab hx with ⟨-, rfl⟩ | ⟨-, rfl⟩ | ⟨-, hxa, m, hm, rfl⟩
  · exact ⟨hr.2, fun _ => hr.1⟩
  · exact ⟨hl.2, fun _ => hl.1⟩
  · obtain ⟨hmax, hmin⟩ := hothers x m hm hxa
    exact ⟨hmax, fun h => hmin (h.resolve_right hxa)⟩

omit [LinearOrder K] in
theorem sized_link (h : SizedHalves N root left) (hp : N p = some m) (i : Nat) (key : K)
    (right : Addr) :
    (∀ x n, N.link p m i key right x = some n → x ≠ p →
      n.keys.length ≤ maxKeys ∧ (x ≠ root → minKeys ≤ n.keys.length)) ∧
    (m.keys.length + 1 ≤ maxKeys → i ≤ m.keys.length → Sized (N.link p m i key right) root) := by
  have hothers : ∀ x n, N.link p m i key right x = some n → x ≠ p →
      n.keys.length ≤ maxKeys ∧ (x ≠ root → minKeys ≤ n.keys.length) := by
    intro x n' hx hxp
    obtain ⟨hxp', -⟩ | ⟨-, n, hn, rfl⟩ := Nodes.adopt_cases hx
    · exact absurd hxp' hxp
    · obtain ⟨hmax, hmin⟩ := h x n hn
      exact ⟨hmax, fun hne => hmin (.inl hne)⟩
  refine ⟨hothers, fun hroom hi x n' hx => ?_⟩
  by_cases hxp : x = p
  · subst hxp
    obtain ⟨-, hmin⟩ := h x m hp
    obtain ⟨-, rfl⟩ | ⟨hne, -⟩ := Nodes.adopt_cases hx
    · have hlength : (m.keys.insertIdx i key).length = m.keys.length + 1 :=
        List.length_insertIdx_of_le_length hi key
      exact ⟨hlength.trans_le hroom, fun hne =>
        (hmin (.inl hne)).trans (hlength.symm ▸ Nat.le_succ _)⟩
    · exact absurd rfl hne
  · exact hothers x n' hx hxp

omit [LinearOrder K] in
theorem sized_grow (h : SizedHalves N root root) : Sized (N.grow root key right b) b := by
  intro x n' hx
  obtain ⟨hxb, rfl⟩ | ⟨-, n, hn, rfl⟩ := Nodes.adopt_cases hx
  · exact ⟨by simp [maxKeys], fun hne => absurd hxb hne⟩
  · obtain ⟨hmax, hmin⟩ := h x n hn
    exact ⟨hmax, fun _ => hmin (by by_cases hxr : x = root; exacts [.inr hxr, .inl hxr])⟩

/-! ### The root -/

/-- A root that is no leaf has a key. -/
def Keyed (N : Nodes K V) (root : Addr) : Prop :=
  ∀ n, N root = some n → n.isLeaf = false → n.keys ≠ []

omit [LinearOrder K] in
theorem keyed_grow : Keyed (N.grow left key right b) b := by
  intro n hn _
  rw [Nodes.grow, Function.update_self] at hn
  rw [← Option.some.inj hn]
  exact List.cons_ne_nil key []

omit [LinearOrder K] in
theorem keyed_link (h : Keyed N root) (hi : i ≤ m.keys.length) :
    Keyed (N.link p m i key right) root := by
  intro n hn hkind
  obtain ⟨-, rfl⟩ | ⟨-, n', hn', rfl⟩ := Nodes.adopt_cases hn
  · intro hnil
    have hlength := List.length_insertIdx_of_le_length hi key
    have hzero := hlength.symm.trans (congrArg List.length hnil)
    cases hzero
  · exact h n' hn' hkind

omit [LinearOrder K] in
/-- A root that is split keeps a key, if it is no leaf. -/
theorem keyed_split (h : Keyed N root) (hab : a ≠ b) (hroot : root ≠ b)
    (hl : l.isLeaf = false → l.keys ≠ []) : Keyed (N.split a l b r) root := by
  intro n hn hkind
  obtain ⟨hb, -⟩ | ⟨-, rfl⟩ | ⟨-, -, n', hn', rfl⟩ := Nodes.split_cases hab hn
  · exact absurd hb hroot
  · exact hl hkind
  · exact h n' hn' hkind

/-- A node with a key too many is split, and its right half is to be entered above. -/
theorem splitInternal_pending (h : Sound t.node t.root own height) (hheld : ∀ x, .node x ∉ held)
    (hn : t.node a = some n) (hkind : n.isLeaf = false) (hmany : maxKeys < n.keys.length)
    (f : Addr → K → Addr → Op K V Unit) :
    ∃ t' key b due height', splitInternal f a held t = f a key b held t' ∧
      Pending t'.node t'.root due height' a key b ∧
      height' a = height a ∧ height' t'.root = height t.root ∧
      Nodes.leafAt t'.node = Nodes.leafAt t.node ∧
      (Keyed t.node t.root → Keyed t'.node t'.root) ∧
      (n.keys.length = maxKeys + 1 →
        (∀ x m, t.node x = some m → x ≠ a →
          m.keys.length ≤ maxKeys ∧ (x ≠ t.root → minKeys ≤ m.keys.length)) →
        SizedHalves t'.node t'.root a) := by
  have hlength : 200 ≤ n.keys.length := hmany
  have hmid : n.keys.length / 2 < n.keys.length := by omega
  obtain ⟨t', hop, hnode, hroot, -⟩ :=
    splitInternal_ok h hheld hn hkind (List.getElem?_eq_getElem hmid) f
  have hpending := h.split_inner hn hkind t.node_fresh (List.getElem?_eq_getElem hmid)
    (by omega) (by omega)
  have hne : a ≠ t.cells.length := (Heap.lt_of_node hn).ne
  have hrootne : t.root ≠ t.cells.length := by
    obtain ⟨n₀, hn₀, -⟩ := h.root_live
    exact (Heap.lt_of_node hn₀).ne
  rw [← hnode, ← hroot] at hpending
  refine ⟨t', _, _, _, _, hop, hpending, Function.update_of_ne hne .., ?_, ?_, ?_, ?_⟩
  · rw [hroot, Function.update_of_ne hrootne]
  · rw [hnode]
    exact leafAt_split hn hkind t.node_fresh hkind rfl
  · intro hkeyed
    rw [hnode, hroot]
    refine keyed_split hkeyed hne hrootne fun _ hnil => ?_
    have hzero := congrArg List.length hnil
    rw [List.length_take, List.length_nil] at hzero
    omega
  · intro hexact hothers
    rw [hnode, hroot]
    refine sizedHalves_split hne hothers ?_ ?_
    · simp [minKeys, maxKeys, hexact]
    · simp [minKeys, maxKeys, hexact]

/-- The right half is entered, and every node above that is too large for it is split. -/
theorem insertIntoParent_ok (hheld : ∀ x, .node x ∉ held) {fuel : Nat}
    (h : Pending t.node t.root due height left key right)
    (hfuel : height t.root < height left + fuel) :
    ∃ t' own' height', insertIntoParent fuel left key right held t = .ok ((), t') ∧
      Sound t'.node t'.root own' height' ∧ Nodes.leafAt t'.node = Nodes.leafAt t.node ∧
      (SizedHalves t.node t.root left → Sized t'.node t'.root) ∧
      (Keyed t.node t.root → Keyed t'.node t'.root) := by
  induction fuel generalizing t due height left key right with
  | zero =>
      obtain ⟨n, hn⟩ := h.live_left
      exact absurd (h.shape.height_le left n hn) (Nat.not_le.mpr hfuel)
  | succ fuel ih =>
      by_cases hne : left = t.root
      · subst hne
        obtain ⟨t', hop, hnode, hroot⟩ := insertIntoParent_root h fuel held
        have hsound := h.grow t.node_fresh
        rw [← hnode, ← hroot] at hsound
        refine ⟨t', _, _, hop, hsound, ?_, fun hsized => ?_, fun _ => ?_⟩
        · rw [hnode, leafAt_grow t.node_fresh]
        · rw [hnode, hroot]
          exact sized_grow hsized
        · rw [hnode, hroot]
          exact keyed_grow
      · obtain ⟨l, hl⟩ := h.live_left
        obtain ⟨r, hr⟩ := h.live_right
        obtain ⟨p, m, i, hparent, hm, hkind, hi, hplace, hpleft, hpright⟩ := h.exists_parent hl hne
        obtain ⟨t₁, hop, hnode, hroot⟩ :=
          insertIntoParent_link hheld hne hl hparent hm hr hpright hplace fuel
        have hsound := h.link hne hm hkind hi hpright
        have hle := (h.shape.inner p m hm hkind).index_le hi
        have hlength : (m.keys.insertIdx i key).length = m.keys.length + 1 :=
          List.length_insertIdx_of_le_length hle key
        have hleaves₁ : Nodes.leafAt t₁.node = Nodes.leafAt t.node := by
          rw [hnode, leafAt_link hm hkind]
        have hkeyed₁ : Keyed t.node t.root → Keyed t₁.node t₁.root := by
          intro hkeyed
          rw [hnode, hroot]
          exact keyed_link hkeyed hle
        rw [← hnode, ← hroot] at hsound
        rw [hop, hlength]
        by_cases hfull : maxKeys < m.keys.length + 1
        · obtain ⟨n, hn⟩ : ∃ n : Node K V, n = { m with
              keys := m.keys.insertIdx i key
              children := m.children.insertIdx (i + 1) right } := ⟨_, rfl⟩
          have hself : t₁.node p = some n := by
            rw [hnode, Nodes.link, ← hn, Function.update_self]
          have hnlength : n.keys.length = m.keys.length + 1 := hn ▸ hlength
          obtain ⟨t₂, key₂, b, due₂, height₂, hop₂, hpending, hsame, hrootsame, hleaves₂, hkeyed₂,
            hsized₂⟩ := splitInternal_pending hsound hheld hself (hn ▸ hkind)
              (hnlength ▸ hfull) (insertIntoParent fuel)
          rw [if_pos hfull, hop₂]
          -- the node that has been split is one level nearer to the root
          have hlevel : height₂ t₂.root < height₂ p + fuel := by
            have hbelow := ((h.shape.inner p m hm hkind).child i left hi).2.1
            rw [hrootsame, hsame, hroot]
            omega
          obtain ⟨t', own', height', hop', hsound', hleaves, hsized', hkeyed'⟩ :=
            ih hpending hlevel
          refine ⟨t', own', height', hop', hsound', ?_, fun hsized => hsized' (hsized₂ ?_ ?_),
            fun hkeyed => hkeyed' (hkeyed₂ (hkeyed₁ hkeyed))⟩
          · rw [hleaves, hleaves₂, hleaves₁]
          · have hmax := (hsized p m hm).1
            omega
          · intro x nx hx hxp
            rw [hroot]
            exact (sized_link hsized hm i key right).1 x nx (hnode ▸ hx) hxp
        · rw [if_neg hfull]
          refine ⟨t₁, _, _, rfl, hsound, hleaves₁, fun hsized => ?_, hkeyed₁⟩
          rw [hnode, hroot]
          exact (sized_link hsized hm i key right).2 (Nat.not_lt.mp hfull) hle

end NanoVault.Index
