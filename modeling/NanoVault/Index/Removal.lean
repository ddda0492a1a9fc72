/-
`remove` of the B+ tree.

A leaf with a key too few borrows one from a leaf next to it, or is merged with one; the parent
has a key less then. The parent stays locked meanwhile. Where it has too few keys itself, the
calls that follow lock it again, and where it is a root without keys it is deleted.
-/
import NanoVault.Index.Neighbours

namespace NanoVault.Index

open Lib Lib.KeyRange Op

variable {K V : Type} [LinearOrder K]

variable {t t' : Heap K V} {own : Addr → KeyRange K} {height : Addr → Nat}
  {a b c p x y : Addr} {n n' m m' l r : Node K V} {i fuel : Nat} {key s : K} {value : V}
  {held : List Mutex} {e : Fault}

/-! ### Two leaves side by side -/

section

variable (h : Sound t.node t.root own height) (ha : Adjacent t.node p m i x l y r)
include h ha

/-- `borrow_from_left` for a leaf. -/
theorem Adjacent.borrowFromLeft (hfree : Mutex.node y ∉ held)
    (hkey : l.keys[l.keys.length - 1]? = some key)
    (hvalue : l.values[l.values.length - 1]? = some value) :
    ∃ t', borrowFromLeft y x i held t = .ok ((), t') ∧ t'.root = t.root ∧
      t'.node = Nodes.rotate t.node p m i key
        x { l with keys := l.keys.dropLast, values := l.values.dropLast }
        y { r with keys := key :: r.keys, values := value :: r.values } := by
  obtain ⟨hxp, hyp, hxy, -, -⟩ := ha.ne h
  obtain ⟨-, hparent⟩ := ha.parents h
  obtain ⟨s, hs⟩ := ha.exists_separator h
  generalize hl : ({ l with keys := l.keys.dropLast, values := l.values.dropLast } : Node K V) = l'
  generalize hr : ({ r with keys := key :: r.keys, values := value :: r.values } : Node K V) = r'
  have hput₁ := Heap.node_put (n := l') ha.left
  have hy₁ : (t.put x l').node y = some r := by
    rw [hput₁, Function.update_of_ne hxy.symm, ha.right]
  have hput₂ := Heap.node_put (n := r') hy₁
  have hp₂ : ((t.put x l').put y r').node p = some m := by
    rw [hput₂, Function.update_of_ne hyp.symm, hput₁, Function.update_of_ne hxp.symm, ha.parent]
  have hput₃ := Heap.node_put (n := { m with keys := m.keys.set i key }) hp₂
  refine ⟨((t.put x l').put y r').put p { m with keys := m.keys.set i key }, ?_, rfl, ?_⟩
  · rw [Index.borrowFromLeft, bind_ok (read_ok ha.right), hparent]
    refine (bind_ok (pointee_ok p)).trans ?_
    refine locked_ok hfree ha.right ?_ (m := r') ?_
    · refine (bind_ok (read_ok ha.right)).trans ((bind_ok (read_ok ha.left)).trans ?_)
      rw [if_pos ha.right_leaf]
      refine (bind_ok (element_ok hkey)).trans ((bind_ok (element_ok hvalue)).trans ?_)
      rw [hl, hr]
      refine (bind_ok (write_ok ha.left)).trans ((bind_ok (write_ok hy₁)).trans ?_)
      refine (bind_ok (read_ok hp₂)).trans ((bind_ok (element_ok hs)).trans ?_)
      exact write_ok hp₂
    · rw [hput₃, Function.update_of_ne hyp, hput₂, Function.update_self]
  · rw [Nodes.rotate, hput₃, hput₂, hput₁]

/-- `borrow_from_right` for a leaf. -/
theorem Adjacent.borrowFromRight (hfree : Mutex.node x ∉ held) (hkey : r.keys[0]? = some key)
    (hvalue : r.values[0]? = some value) (hfront : r.keys.tail[0]? = some s) :
    ∃ t', borrowFromRight x y i held t = .ok ((), t') ∧ t'.root = t.root ∧
      t'.node = Nodes.rotate t.node p m i s
        x { l with keys := l.keys ++ [key], values := l.values ++ [value] }
        y { r with keys := r.keys.tail, values := r.values.tail } := by
  obtain ⟨hxp, hyp, hxy, -, -⟩ := ha.ne h
  obtain ⟨hparent, -⟩ := ha.parents h
  obtain ⟨s₀, hs⟩ := ha.exists_separator h
  generalize hl : ({ l with keys := l.keys ++ [key], values := l.values ++ [value] } : Node K V) = l'
  generalize hr : ({ r with keys := r.keys.tail, values := r.values.tail } : Node K V) = r'
  have hput₁ := Heap.node_put (n := r') ha.right
  have hx₁ : (t.put y r').node x = some l := by
    rw [hput₁, Function.update_of_ne hxy, ha.left]
  have hput₂ := Heap.node_put (n := l') hx₁
  have hp₂ : ((t.put y r').put x l').node p = some m := by
    rw [hput₂, Function.update_of_ne hxp.symm, hput₁, Function.update_of_ne hyp.symm, ha.parent]
  have hput₃ := Heap.node_put (n := { m with keys := m.keys.set i s }) hp₂
  refine ⟨((t.put y r').put x l').put p { m with keys := m.keys.set i s }, ?_, rfl, ?_⟩
  · rw [Index.borrowFromRight, bind_ok (read_ok ha.left), hparent]
    refine (bind_ok (pointee_ok p)).trans ?_
    refine locked_ok hfree ha.left ?_ (m := l') ?_
    · refine (bind_ok (read_ok ha.left)).trans ((bind_ok (read_ok ha.right)).trans ?_)
      rw [if_pos ha.left_leaf]
      refine (bind_ok (element_ok hkey)).trans ((bind_ok (element_ok hvalue)).trans ?_)
      rw [hl, hr]
      refine (bind_ok (write_ok ha.right)).trans ((bind_ok (write_ok hx₁)).trans ?_)
      refine (bind_ok (read_ok hp₂)).trans ((bind_ok (element_ok hs)).trans ?_)
      exact (bind_ok (element_ok hfront)).trans (write_ok hp₂)
    · rw [hput₃, Function.update_of_ne hxp, hput₂, Function.update_self]
  · rw [Nodes.rotate, hput₃, hput₂, hput₁, Function.update_comm hxy]

/-- What is common to the merges, for leaves. -/
theorem Adjacent.mergeInto : ∃ t', (∀ held, Index.mergeInto x y p i held t = .ok ((), t')) ∧
    t'.root = t.root ∧ t'.cells.length = t.cells.length ∧
    t'.node = Function.update (Function.update t.node x (some { l with
      keys := l.keys ++ r.keys, values := l.values ++ r.values, next := r.next }))
      p (some { m with
        keys := m.keys.eraseIdx i, children := m.children.eraseIdx (i + 1) }) := by
  obtain ⟨hxp, -, -, -, -⟩ := ha.ne h
  obtain ⟨s, hs⟩ := ha.exists_separator h
  generalize hl : ({ l with
    keys := l.keys ++ r.keys, values := l.values ++ r.values, next := r.next } : Node K V) = l'
  generalize hm : ({ m with
    keys := m.keys.eraseIdx i, children := m.children.eraseIdx (i + 1) } : Node K V) = m'
  have hput₁ := Heap.node_put (n := l') ha.left
  have hp₁ : (t.put x l').node p = some m := by
    rw [hput₁, Function.update_of_ne hxp.symm, ha.parent]
  refine ⟨(t.put x l').put p m', fun held => ?_, rfl, by simp, ?_⟩
  · rw [Index.mergeInto, bind_ok (read_ok ha.right)]
    refine (bind_ok (read_ok ha.left)).trans ((bind_ok (read_ok ha.parent)).trans ?_)
    refine (bind_ok (element_ok hs)).trans ?_
    rw [if_pos ha.right_leaf, hl]
    refine (bind_ok (write_ok ha.left)).trans ((bind_ok (read_ok hp₁)).trans ?_)
    rw [hm]
    exact write_ok hp₁
  · rw [Heap.node_put hp₁, hput₁]

/-- The right leaf moves into the left one, and is deleted. -/
theorem Adjacent.exists_merged : ∃ t' t'', (∀ held, Index.mergeInto x y p i held t = .ok ((), t')) ∧
    (∃ n, t'.node x = some n) ∧ (∃ n, t'.node y = some n) ∧
    (∀ held, delete t'.cells.length y held t' = .ok ((), t'')) ∧ t''.root = t.root ∧
    t''.node = Nodes.merge t.node p m i x { l with
      keys := l.keys ++ r.keys, values := l.values ++ r.values, next := r.next } y := by
  obtain ⟨hxp, hyp, hxy, -, -⟩ := ha.ne h
  obtain ⟨t', hop, hroot, hlength, hnode⟩ := ha.mergeInto h
  have hx : t'.node x = some { l with
      keys := l.keys ++ r.keys, values := l.values ++ r.values, next := r.next } := by
    rw [hnode, Function.update_of_ne hxp, Function.update_self]
  have hy : t'.node y = some r := by
    rw [hnode, Function.update_of_ne hyp, Function.update_of_ne hxy.symm, ha.right]
  obtain ⟨d, hd⟩ : ∃ d, t'.cells.length = d + 1 :=
    ⟨_, (Nat.sub_add_cancel (Nat.one_le_of_lt (Heap.lt_of_node hy))).symm⟩
  refine ⟨t', t'.drop y, hop, ⟨_, hx⟩, ⟨_, hy⟩, fun held => ?_, hroot, ?_⟩
  · rw [hd]
    exact delete_leaf hy ha.right_leaf d
  · rw [Heap.node_drop hy, hnode]
    rfl

/-- `merge_with_left` for a leaf, up to what follows for the parent. -/
theorem Adjacent.mergeWithLeft (hx : Mutex.node x ∉ held) (hy : Mutex.node y ∉ held)
    (f : Addr → Op K V Unit) :
    ∃ t', mergeWithLeft f y x i held t = afterMerge f p x held t' ∧ t'.root = t.root ∧
      t'.node = Nodes.merge t.node p m i x { l with
        keys := l.keys ++ r.keys, values := l.values ++ r.values, next := r.next } y := by
  obtain ⟨-, -, hxy, -, -⟩ := ha.ne h
  obtain ⟨-, hparent⟩ := ha.parents h
  obtain ⟨t', t'', hmerge, ⟨nx, hnx⟩, ⟨ny, hny⟩, hdelete, hroot, hnode⟩ := ha.exists_merged h
  refine ⟨t'', ?_, hroot, hnode⟩
  have hx' : Mutex.node x ∉ Mutex.node y :: held := by
    intro hmem
    rcases List.mem_cons.mp hmem with heq | hmem
    · exact hxy (Mutex.node.inj heq)
    · exact hx hmem
  rw [Index.mergeWithLeft, bind_ok (read_ok ha.right), hparent]
  refine (bind_ok (pointee_ok p)).trans ?_
  refine (bind_ok (locked_ok hy ha.right (locked_ok hx' ha.left (hmerge _) hnx) hny)).trans ?_
  exact (bind_ok rfl).trans (bind_ok (hdelete held))

/-- `merge_with_right` for a leaf, up to what follows for the parent. -/
theorem Adjacent.mergeWithRight (hx : Mutex.node x ∉ held) (hy : Mutex.node y ∉ held)
    (f : Addr → Op K V Unit) :
    ∃ t', mergeWithRight f x y i held t = afterMerge f p x held t' ∧ t'.root = t.root ∧
      t'.node = Nodes.merge t.node p m i x { l with
        keys := l.keys ++ r.keys, values := l.values ++ r.values, next := r.next } y := by
  obtain ⟨-, -, hxy, -, -⟩ := ha.ne h
  obtain ⟨hparent, -⟩ := ha.parents h
  obtain ⟨t', t'', hmerge, ⟨nx, hnx⟩, ⟨ny, hny⟩, hdelete, hroot, hnode⟩ := ha.exists_merged h
  refine ⟨t'', ?_, hroot, hnode⟩
  have hy' : Mutex.node y ∉ Mutex.node x :: held := by
    intro hmem
    rcases List.mem_cons.mp hmem with heq | hmem
    · exact hxy (Mutex.node.inj heq).symm
    · exact hy hmem
  rw [Index.mergeWithRight, bind_ok (read_ok ha.left), hparent]
  refine (bind_ok (pointee_ok p)).trans ?_
  refine (bind_ok (locked_ok hx ha.left (locked_ok hy' ha.right (hmerge _) hny) hnx)).trans ?_
  exact (bind_ok rfl).trans (bind_ok (hdelete held))

/-- The separator of the leaves is above the left one and below the end of the right one. -/
theorem Adjacent.bounds : ∃ s : K, (own x).lo < s ∧ (own x).hi = s ∧ (own y).lo = s ∧
    s < (own y).hi := by
  obtain ⟨s, hs⟩ := ha.exists_separator h
  obtain ⟨hhi, hlo⟩ := ha.meet h hs
  refine ⟨s, ?_, hhi, hlo, (h.proper ha.right hlo).2⟩
  cases hbot : (own x).lo with
  | bot => exact WithBot.bot_lt_coe s
  | coe z =>
      have hz := (h.proper ha.left hbot).2
      rw [hhi] at hz
      exact WithBot.coe_lt_coe.mpr (WithTop.coe_lt_coe.mp hz)

/-- The tree after the left leaf has lent its last key. -/
theorem Adjacent.lend_left {ks : List K} {vs : List V} (hks : l.keys = ks ++ [key])
    (hvs : l.values = vs ++ [value]) (hne : ks ≠ []) {N' : Nodes K V}
    (hN : N' = Nodes.rotate t.node p m i key x { l with keys := ks, values := vs }
      y { r with keys := key :: r.keys, values := value :: r.values }) :
    (∃ own', Sound N' t.root own' height) ∧ ∀ k v, Holds N' k v ↔ Holds t.node k v := by
  obtain ⟨s, hxs, hhi, hlo, hys⟩ := ha.bounds h
  obtain ⟨hl, hr⟩ := ha.filled h
  have hsorted := hl.sorted
  have hvalues := hl.values
  rw [hks, List.pairwise_append] at hsorted
  rw [hks, hvs, List.length_append, List.length_append] at hvalues
  have hkeyin := hl.inside key (by rw [hks]; simp)
  have hkeys : key < s := by
    have hbelow := hkeyin.2
    rw [hhi] at hbelow
    exact WithTop.coe_lt_coe.mp hbelow
  have hbelow : ∀ k ∈ ks, k < key := fun k hk => hsorted.2.2 k hk key (List.mem_singleton_self key)
  have habove : ∀ k ∈ r.keys, key < k := by
    intro k hk
    have hk' := (hr.inside k hk).1
    rw [hlo] at hk'
    exact hkeys.trans_le (WithBot.coe_le_coe.mp hk')
  have hlength : vs.length = ks.length := by simpa using hvalues
  subst hN
  constructor
  · refine ⟨_, ha.rotate h rfl rfl rfl rfl ⟨ha.left_leaf, hsorted.1, ?_, hlength⟩
      ⟨ha.right_leaf, ?_, ?_, ?_⟩ ?_ ?_⟩
    · intro k hk
      have hk' := hl.inside k (by rw [hks]; exact List.mem_append_left _ hk)
      exact ⟨hk'.1, WithTop.coe_lt_coe.mpr (hbelow k hk)⟩
    · exact List.pairwise_cons.mpr ⟨habove, hr.sorted⟩
    · intro k hk
      rcases List.mem_cons.mp hk with rfl | hk
      · exact ⟨le_rfl, (WithTop.coe_lt_coe.mpr hkeys).trans hys⟩
      · exact ⟨WithBot.coe_le_coe.mpr (habove k hk).le, (hr.inside k hk).2⟩
    · simp [hr.values]
    · obtain ⟨k, hk⟩ := List.exists_mem_of_ne_nil ks hne
      have hk' := hl.inside k (by rw [hks]; exact List.mem_append_left _ hk)
      exact hk'.1.trans_lt (WithBot.coe_lt_coe.mpr (hbelow k hk))
    · exact (WithTop.coe_lt_coe.mpr hkeys).trans hys
  · intro k v
    refine ha.holds_rotate h ha.left_leaf ha.right_leaf fun e => ?_
    have hpairs : l.pairs = ks.zip vs ++ [(key, value)] := by
      rw [Node.pairs, hks, hvs, List.zip_append hlength.symm]
      rfl
    have hright : Node.pairs { r with keys := key :: r.keys, values := value :: r.values } =
        (key, value) :: r.pairs := rfl
    rw [hpairs, hright, List.mem_append, List.mem_singleton, List.mem_cons, or_assoc]
    exact Iff.rfl

/-- The tree after the right leaf has lent its first key. -/
theorem Adjacent.lend_right {ks : List K} {vs : List V} (hks : r.keys = key :: s :: ks)
    (hvs : r.values = value :: vs) {N' : Nodes K V}
    (hN : N' = Nodes.rotate t.node p m i s
      x { l with keys := l.keys ++ [key], values := l.values ++ [value] }
      y { r with keys := s :: ks, values := vs }) :
    (∃ own', Sound N' t.root own' height) ∧ ∀ k v, Holds N' k v ↔ Holds t.node k v := by
  obtain ⟨s₀, hxs, hhi, hlo, hys⟩ := ha.bounds h
  obtain ⟨hl, hr⟩ := ha.filled h
  have hsorted := hr.sorted
  have hvalues := hr.values
  rw [hks, List.pairwise_cons] at hsorted
  rw [hks, hvs, List.length_cons, List.length_cons] at hvalues
  have hkeyin := hr.inside key (by rw [hks]; simp)
  have hsin := hr.inside s (by rw [hks]; simp)
  have hkeys : key < s := hsorted.1 s List.mem_cons_self
  have hkeylo : s₀ ≤ key := by
    have habove := hkeyin.1
    rw [hlo] at habove
    exact WithBot.coe_le_coe.mp habove
  have hbelow : ∀ k ∈ l.keys, k < key := by
    intro k hk
    have hk' := (hl.inside k hk).2
    rw [hhi] at hk'
    exact (WithTop.coe_lt_coe.mp hk').trans_le hkeylo
  subst hN
  constructor
  · refine ⟨_, ha.rotate h rfl rfl rfl rfl ⟨ha.left_leaf, ?_, ?_, ?_⟩
      ⟨ha.right_leaf, hsorted.2, ?_, by simpa using hvalues⟩ ?_ hsin.2⟩
    · refine List.pairwise_append.mpr ⟨hl.sorted, List.pairwise_singleton _ _, ?_⟩
      intro k hk k' hk'
      rw [List.mem_singleton.mp hk']
      exact hbelow k hk
    · intro k hk
      rcases List.mem_append.mp hk with hk | hk
      · exact ⟨(hl.inside k hk).1, WithTop.coe_lt_coe.mpr ((hbelow k hk).trans hkeys)⟩
      · rw [List.mem_singleton.mp hk]
        exact ⟨hxs.le.trans (WithBot.coe_le_coe.mpr hkeylo), WithTop.coe_lt_coe.mpr hkeys⟩
    · simp [hl.values]
    · intro k hk
      refine ⟨?_, (hr.inside k (by rw [hks]; exact List.mem_cons_of_mem _ hk)).2⟩
      rcases List.mem_cons.mp hk with rfl | hk
      · exact le_rfl
      · exact WithBot.coe_le_coe.mpr ((List.pairwise_cons.mp hsorted.2).1 k hk).le
    · exact hxs.trans_le (WithBot.coe_le_coe.mpr (hkeylo.trans hkeys.le))
  · intro k v
    refine ha.holds_rotate h ha.left_leaf ha.right_leaf fun e => ?_
    have hleft : Node.pairs { l with
        keys := l.keys ++ [key], values := l.values ++ [value] } = l.pairs ++ [(key, value)] := by
      rw [Node.pairs, List.zip_append hl.values.symm]
      rfl
    have hpairs : r.pairs = (key, value) :: (s :: ks).zip vs := by
      rw [Node.pairs, hks, hvs]
      rfl
    rw [hpairs, hleft, List.mem_append, List.mem_singleton, List.mem_cons, or_assoc]
    exact Iff.rfl

/-- The tree after two leaves have become one. -/
theorem Adjacent.unite (hkeys : ∀ s : K, (own p).lo = s → m.keys.length ≠ 1) {N' : Nodes K V}
    (hN : N' = Nodes.merge t.node p m i x { l with
      keys := l.keys ++ r.keys, values := l.values ++ r.values, next := r.next } y) :
    (∃ own', Sound N' t.root own' height) ∧ ∀ k v, Holds N' k v ↔ Holds t.node k v := by
  obtain ⟨s, hxs, hhi, hlo, hys⟩ := ha.bounds h
  obtain ⟨hl, hr⟩ := ha.filled h
  have hbelow : ∀ k ∈ l.keys, k < s := by
    intro k hk
    have hk' := (hl.inside k hk).2
    rw [hhi] at hk'
    exact WithTop.coe_lt_coe.mp hk'
  have habove : ∀ k ∈ r.keys, s ≤ k := by
    intro k hk
    have hk' := (hr.inside k hk).1
    rw [hlo] at hk'
    exact WithBot.coe_le_coe.mp hk'
  subst hN
  constructor
  · refine ⟨_, ha.merge h rfl rfl ⟨ha.left_leaf, ?_, ?_, ?_⟩ hkeys⟩
    · refine List.pairwise_append.mpr ⟨hl.sorted, hr.sorted, ?_⟩
      intro k hk k' hk'
      exact (hbelow k hk).trans_le (habove k' hk')
    · intro k hk
      rcases List.mem_append.mp hk with hk | hk
      · exact ⟨(hl.inside k hk).1, (WithTop.coe_lt_coe.mpr (hbelow k hk)).trans hys⟩
      · exact ⟨hxs.le.trans (WithBot.coe_le_coe.mpr (habove k hk)), (hr.inside k hk).2⟩
    · simp [hl.values, hr.values]
  · intro k v
    refine ha.holds_merge h ha.left_leaf fun e => ?_
    have hpairs : Node.pairs { l with
        keys := l.keys ++ r.keys, values := l.values ++ r.values, next := r.next } =
        l.pairs ++ r.pairs := List.zip_append hl.values.symm
    rw [hpairs, List.mem_append]

end

/-! ### The parts of handle_underflow -/

/-- The attempt to borrow from the left. -/
def borrowLeft (a : Addr) (above : Node K V) (pos : Nat) : Op K V Bool :=
  if 0 < pos then do
    let left ← element above.children (pos - 1)
    tryBorrow left (borrowFromLeft a left (pos - 1))
  else pure false

/-- The attempt to borrow from the right. -/
def borrowRight (a : Addr) (above : Node K V) (pos : Nat) : Op K V Bool :=
  if pos + 1 < above.children.length then do
    let right ← element above.children (pos + 1)
    tryBorrow right (borrowFromRight a right pos)
  else pure false

/-- The merge with a sibling. -/
def mergeAside (fuel : Nat) (a : Addr) (above : Node K V) (pos : Nat) : Op K V Unit :=
  if 0 < pos then do
    let left ← element above.children (pos - 1)
    mergeWithLeft (handleUnderflow fuel) a left (pos - 1)
  else do
    let right ← element above.children (pos + 1)
    mergeWithRight (handleUnderflow fuel) a right pos

/-- What is done under the lock of the parent. -/
def relieve (fuel : Nat) (a : Addr) (above : Node K V) (pos : Nat) : Op K V Unit := do
  let borrowedLeft ← borrowLeft a above pos
  if borrowedLeft then return ()
  else do
    let borrowedRight ← borrowRight a above pos
    if borrowedRight then return ()
    else mergeAside fuel a above pos

section

omit [LinearOrder K]

theorem handleUnderflow_eq (hn : t.node a = some n) (hparent : n.parent = some p) :
    handleUnderflow (fuel + 1) a held t = locked (.node p) (do
      let above ← read p
      relieve fuel a above (above.children.idxOf a)) held t := by
  rw [handleUnderflow, bind_ok (read_ok hn), hparent]
  refine congrFun (congrFun (congrArg (locked (.node p)) (congrArg (bind (read p)) ?_)) held) t
  funext above
  simp only [relieve, borrowLeft, borrowRight]
  by_cases hleft : 0 < above.children.idxOf a <;>
    by_cases hright : above.children.idxOf a + 1 < above.children.length <;>
    simp only [hleft, hright, if_true, if_false, bind_assoc, pure_bind, mergeAside]

/-- The parent is locked while its child is relieved. -/
theorem handleUnderflow_ok (hn : t.node a = some n) (hparent : n.parent = some p)
    (hfree : Mutex.node p ∉ held) (hm : t.node p = some m) (hi : m.children.idxOf a = i)
    (hrelieve : relieve fuel a m i (.node p :: held) t = .ok ((), t'))
    (hm' : t'.node p = some m') : handleUnderflow (fuel + 1) a held t = .ok ((), t') := by
  rw [handleUnderflow_eq hn hparent]
  refine locked_ok hfree hm ?_ hm'
  rw [bind_ok (read_ok hm), hi, hrelieve]

/-- A fault under the lock. -/
theorem handleUnderflow_error (hn : t.node a = some n) (hparent : n.parent = some p)
    (hfree : Mutex.node p ∉ held) (hm : t.node p = some m) (hi : m.children.idxOf a = i)
    (hrelieve : relieve fuel a m i (.node p :: held) t = .error e) :
    handleUnderflow (fuel + 1) a held t = .error e := by
  rw [handleUnderflow_eq hn hparent]
  refine locked_error hfree hm ?_
  rw [bind_ok (read_ok hm), hi, hrelieve]

/-- A node that is destroyed while its mutex is held is used when the mutex is unlocked. -/
theorem handleUnderflow_removed (hn : t.node a = some n) (hparent : n.parent = some p)
    (hfree : Mutex.node p ∉ held) (hm : t.node p = some m) (hi : m.children.idxOf a = i)
    (hrelieve : relieve fuel a m i (.node p :: held) t = .ok ((), t'))
    (hm' : t'.node p = none) : handleUnderflow (fuel + 1) a held t = .error .removed := by
  rw [handleUnderflow_eq hn hparent]
  refine locked_removed (r := ()) hfree hm ?_ hm'
  rw [bind_ok (read_ok hm), hi, hrelieve]

theorem tryBorrow_no (hx : t.node x = some l) (hfree : Mutex.node x ∉ held)
    (hfew : l.keys.length ≤ minKeys) (borrow : Op K V Unit) :
    tryBorrow x borrow held t = .ok (false, t) := by
  refine locked_ok hfree hx ?_ hx
  rw [bind_ok (read_ok hx), if_neg (Nat.not_lt.mpr hfew)]
  rfl

theorem tryBorrow_yes (hx : t.node x = some l) (hfree : Mutex.node x ∉ held)
    (hspare : minKeys < l.keys.length) {borrow : Op K V Unit}
    (hborrow : borrow (.node x :: held) t = .ok ((), t')) (hx' : t'.node x = some n') :
    tryBorrow x borrow held t = .ok (true, t') := by
  refine locked_ok hfree hx ?_ hx'
  rw [bind_ok (read_ok hx), if_pos hspare, bind_ok hborrow]
  rfl

end

/-! ### A leaf with a key too few -/

/-- A tree of the right shape and sizes. -/
structure Healthy (t : Heap K V) : Prop where
  shape : ∃ own height, Sound t.node t.root own height
  sized : Sized t.node t.root
  keyed : Keyed t.node t.root

/-- A tree of the right shape in which the leaf at `a` has a key too few; it hangs on `p` in
place `i`. -/
structure Lacking (t : Heap K V) (own : Addr → KeyRange K) (height : Addr → Nat) (p : Addr)
    (m : Node K V) (i : Nat) (a : Addr) (n : Node K V) : Prop where
  sound : Sound t.node t.root own height
  leaf : t.node a = some n
  kind : n.isLeaf = true
  parent : t.node p = some m
  inner : m.isLeaf = false
  child : m.children[i]? = some a
  short : n.keys.length + 1 = minKeys
  others : ∀ x b, t.node x = some b → x ≠ a →
    b.keys.length ≤ maxKeys ∧ (x ≠ t.root → minKeys ≤ b.keys.length)
  keyed : Keyed t.node t.root

/-- The tree is right again, and the leaves hold what they have held. -/
structure Relieved (t t' : Heap K V) (p : Addr) : Prop where
  healthy : Healthy t'
  holds : ∀ k v, Holds t'.node k v ↔ Holds t.node k v
  parent : ∃ m, t'.node p = some m

/-- The place that is looked for is the one place. -/
theorem InnerShape.idxOf {N : Nodes K V} (h : InnerShape N own own height p m)
    (hi : m.children[i]? = some a) : m.children.idxOf a = i := by
  have hlt := List.idxOf_lt_length_of_mem (List.mem_of_getElem? hi)
  have hplace : m.children[m.children.idxOf a]? = some a := by
    rw [List.getElem?_eq_getElem hlt, List.getElem_idxOf hlt]
  exact h.index_inj hplace hi

section

variable (h : Lacking t own height p m i a n)
include h

theorem Lacking.shape : InnerShape t.node own own height p m := h.sound.inner p m h.parent h.inner

theorem Lacking.idxOf : m.children.idxOf a = i := h.shape.idxOf h.child

/-- The children next to a leaf are leaves. -/
theorem Lacking.sibling {j : Nat} (hj : m.children[j]? = some c) :
    ∃ b, t.node c = some b ∧ b.isLeaf = true := by
  obtain ⟨-, hheight, b, hb, -⟩ := h.shape.child j c hj
  obtain ⟨-, hbelow, -⟩ := h.shape.child i a h.child
  have hzero := (h.sound.leaf a n h.leaf h.kind).1
  refine ⟨b, hb, ?_⟩
  cases hkind : b.isLeaf with
  | true => rfl
  | false =>
      have hne := (h.sound.inner c b hb hkind).height_ne
      omega

/-- The leaf on the left, if the place is not the first. -/
theorem Lacking.left (hi : 0 < i) : ∃ x l, m.children[i - 1]? = some x ∧
    Adjacent t.node p m (i - 1) x l a n := by
  have hlt := (List.getElem?_eq_some_iff.mp h.child).1
  have hx := List.getElem?_eq_getElem (show i - 1 < m.children.length by omega)
  obtain ⟨l, hl, hkind⟩ := h.sibling hx
  refine ⟨_, l, hx, h.parent, h.inner, hx, ?_, hl, h.leaf, hkind, h.kind⟩
  rw [Nat.sub_add_cancel hi]
  exact h.child

/-- The leaf on the right, if the place is not the last. -/
theorem Lacking.right (hi : i + 1 < m.children.length) : ∃ y r, m.children[i + 1]? = some y ∧
    Adjacent t.node p m i a n y r := by
  have hy := List.getElem?_eq_getElem hi
  obtain ⟨r, hr, hkind⟩ := h.sibling hy
  exact ⟨_, r, hy, h.parent, h.inner, h.child, hy, h.leaf, hr, h.kind, hkind⟩

/-- The parent has at least two children. -/
theorem Lacking.siblings : 2 ≤ m.children.length := by
  have hchildren := h.shape.children
  have hkeys : m.keys ≠ [] := by
    by_cases hroot : p = t.root
    · exact h.keyed m (hroot ▸ h.parent) h.inner
    · have hpa : p ≠ a := by
        rintro rfl
        obtain rfl := Option.some.inj (h.leaf.symm.trans h.parent)
        cases h.kind.symm.trans h.inner
      have hmin := (h.others p m h.parent hpa).2 hroot
      intro hnil
      rw [hnil] at hmin
      cases hmin
  have hpos := List.length_pos_of_ne_nil hkeys
  omega

end

/-! ### Sizes -/

/-- The number of keys a node has where it may lose one. -/
def needed (root p : Addr) : Nat := if p = root then 1 else minKeys

section

variable {l' r' : Node K V}
  (hothers : ∀ z b, t.node z = some b → z ≠ x → z ≠ y →
    b.keys.length ≤ maxKeys ∧ (z ≠ t.root → minKeys ≤ b.keys.length))
  (hl : minKeys ≤ l'.keys.length ∧ l'.keys.length ≤ maxKeys) (hkeyed : Keyed t.node t.root)
  (hroot : t'.root = t.root)
include hothers hl hkeyed hroot

theorem Adjacent.healthy_rotate (h : Sound t.node t.root own height)
    (ha : Adjacent t.node p m i x l y r)
    (hsound : ∃ own', Sound t'.node t.root own' height)
    (hnode : t'.node = Nodes.rotate t.node p m i s x l' y r')
    (hr : minKeys ≤ r'.keys.length ∧ r'.keys.length ≤ maxKeys) : Healthy t' := by
  obtain ⟨hxp, hyp, -, hxroot, hyroot⟩ := ha.ne h
  obtain ⟨own', hsound⟩ := hsound
  refine ⟨⟨own', height, hroot ▸ hsound⟩, ?_, ?_⟩
  · intro z b hb
    rw [hnode] at hb
    rw [hroot]
    rcases Nodes.rotate_cases hb with ⟨rfl, rfl⟩ | ⟨-, -, rfl⟩ | ⟨-, -, -, rfl⟩ |
      ⟨-, hzy, hzx, hold⟩
    · obtain ⟨hmax, hmin⟩ := hothers z m ha.parent hxp.symm hyp.symm
      rw [List.length_set]
      exact ⟨hmax, hmin⟩
    · exact ⟨hr.2, fun _ => hr.1⟩
    · exact ⟨hl.2, fun _ => hl.1⟩
    · exact hothers z b hold hzx hzy
  · intro b hb hkind
    rw [hnode, hroot] at hb
    rcases Nodes.rotate_cases hb with ⟨hp, rfl⟩ | ⟨-, hy, -⟩ | ⟨-, -, hx, -⟩ | ⟨-, -, -, hold⟩
    · intro hnil
      have hzero := (List.length_set).symm.trans (congrArg List.length hnil)
      exact hkeyed m (hp ▸ ha.parent) hkind (List.length_eq_zero_iff.mp hzero)
    · exact absurd hy.symm hyroot
    · exact absurd hx.symm hxroot
    · exact hkeyed b hold hkind

theorem Adjacent.healthy_merge (h : Sound t.node t.root own height)
    (ha : Adjacent t.node p m i x l y r)
    (hsound : ∃ own', Sound t'.node t.root own' height)
    (hnode : t'.node = Nodes.merge t.node p m i x l' y)
    (hspare : needed t.root p < m.keys.length) : Healthy t' := by
  obtain ⟨hxp, hyp, -, hxroot, hyroot⟩ := ha.ne h
  obtain ⟨own', hsound⟩ := hsound
  have hlength : (m.keys.eraseIdx i).length = m.keys.length - 1 :=
    List.length_eraseIdx_of_lt ((ha.shape h).index_le ha.right_child)
  rw [needed] at hspare
  refine ⟨⟨own', height, hroot ▸ hsound⟩, ?_, ?_⟩
  · intro z b hb
    rw [hnode] at hb
    rw [hroot]
    obtain ⟨hzy, ⟨rfl, rfl⟩ | ⟨-, -, rfl⟩ | ⟨-, hzx, hold⟩⟩ := Nodes.merge_cases hb
    · obtain ⟨hmax, -⟩ := hothers z m ha.parent hxp.symm hyp.symm
      refine ⟨hlength.trans_le (by omega), fun hne => ?_⟩
      rw [if_neg hne] at hspare
      exact (Nat.le_sub_one_of_lt hspare).trans_eq hlength.symm
    · exact ⟨hl.2, fun _ => hl.1⟩
    · exact hothers z b hold hzx hzy
  · intro b hb hkind
    rw [hnode, hroot] at hb
    obtain ⟨-, ⟨hp, rfl⟩ | ⟨-, hx, -⟩ | ⟨-, -, hold⟩⟩ := Nodes.merge_cases hb
    · intro hnil
      have hzero := hlength.symm.trans (congrArg List.length hnil)
      rw [if_pos hp.symm] at hspare
      rw [List.length_nil] at hzero
      omega
    · exact absurd hx.symm hxroot
    · exact hkeyed b hold hkind

end

/-! ### Borrowing -/

section

variable (h : Lacking t own height p m i a n) (hheld : ∀ z, Mutex.node z ∈ held → z = p)
include h hheld

theorem Lacking.borrowLeft_yes (hi : 0 < i) (hx : m.children[i - 1]? = some x)
    (hl : t.node x = some l) (hspare : minKeys < l.keys.length) :
    ∃ t', borrowLeft a m i held t = .ok (true, t') ∧ Relieved t t' p := by
  obtain ⟨x', l', hx', ha⟩ := h.left hi
  obtain rfl := Option.some.inj (hx.symm.trans hx')
  obtain rfl := Option.some.inj (hl.symm.trans ha.left)
  obtain ⟨hxp, hap, hxa, hxroot, -⟩ := ha.ne h.sound
  obtain ⟨hfilled, -⟩ := ha.filled h.sound
  have hshort := h.short
  have hvalues := hfilled.values
  obtain hnil | ⟨ks, key, hks⟩ := List.eq_nil_or_concat' l.keys
  · rw [hnil] at hspare
    cases hspare
  obtain hnil | ⟨vs, value, hvs⟩ := List.eq_nil_or_concat' l.values
  · rw [hnil, hks] at hvalues
    cases hvalues.trans List.length_append
  have hlength := congrArg List.length hks
  rw [List.length_append, List.length_singleton] at hlength
  have hfree : Mutex.node a ∉ Mutex.node x :: held := by
    intro hmem
    rcases List.mem_cons.mp hmem with heq | hmem
    · exact hxa (Mutex.node.inj heq).symm
    · exact hap (hheld a hmem)
  have hkey : l.keys[l.keys.length - 1]? = some key := by
    rw [hks]
    simp
  have hvalue : l.values[l.values.length - 1]? = some value := by
    rw [hvs]
    simp
  obtain ⟨t', hop, hroot, hnode⟩ := ha.borrowFromLeft h.sound hfree hkey hvalue
  have hdrop : l.keys.dropLast = ks ∧ l.values.dropLast = vs := by
    rw [hks, hvs, List.dropLast_concat, List.dropLast_concat]
    exact ⟨rfl, rfl⟩
  rw [hdrop.1, hdrop.2] at hnode
  have hne : ks ≠ [] := by
    rintro rfl
    rw [hlength, List.length_nil, minKeys] at hspare
    omega
  obtain ⟨hsound, hholds⟩ := ha.lend_left h.sound hks hvs hne hnode
  have hmax := (h.others x l hl hxa).1
  refine ⟨t', ?_, ⟨?_, hholds, ?_⟩⟩
  · rw [borrowLeft, if_pos hi]
    have hself := (congrFun hnode x).trans (Nodes.rotate_left hxp hxa)
    exact (bind_ok (element_ok hx)).trans
      (tryBorrow_yes hl (fun hmem => hxp (hheld x hmem)) hspare hop hself)
  · refine ha.healthy_rotate ?_ ?_ h.keyed hroot h.sound hsound hnode ?_
    · exact fun z b hb _ hza => h.others z b hb hza
    · show minKeys ≤ ks.length ∧ ks.length ≤ maxKeys
      omega
    · simp only [List.length_cons, minKeys, maxKeys] at hshort ⊢
      omega
  · rw [hnode]
    exact ⟨_, Function.update_self _ _ _⟩

theorem Lacking.borrowLeft_no
    (hfew : ∀ x l, 0 < i → m.children[i - 1]? = some x → t.node x = some l →
      l.keys.length ≤ minKeys) : borrowLeft a m i held t = .ok (false, t) := by
  rw [borrowLeft]
  by_cases hi : 0 < i
  · obtain ⟨x, l, hx, ha⟩ := h.left hi
    have hxp := (ha.ne h.sound).1
    rw [if_pos hi]
    exact (bind_ok (element_ok hx)).trans
      (tryBorrow_no ha.left (fun hmem => hxp (hheld x hmem)) (hfew x l hi hx ha.left) _)
  · rw [if_neg hi]
    rfl

theorem Lacking.borrowRight_yes (hy : m.children[i + 1]? = some y) (hr : t.node y = some r)
    (hspare : minKeys < r.keys.length) :
    ∃ t', borrowRight a m i held t = .ok (true, t') ∧ Relieved t t' p := by
  have hi := (List.getElem?_eq_some_iff.mp hy).1
  obtain ⟨y', r', hy', ha⟩ := h.right hi
  obtain rfl := Option.some.inj (hy.symm.trans hy')
  obtain rfl := Option.some.inj (hr.symm.trans ha.right)
  obtain ⟨hap, hyp, hay, -, hyroot⟩ := ha.ne h.sound
  obtain ⟨-, hfilled⟩ := ha.filled h.sound
  have hshort := h.short
  have hvalues := hfilled.values
  obtain ⟨key, s, ks, hks⟩ : ∃ key s ks, r.keys = key :: s :: ks := by
    rcases hkeys : r.keys with _ | ⟨key, _ | ⟨s, ks⟩⟩
    · rw [hkeys] at hspare
      cases hspare
    · rw [hkeys, List.length_singleton, minKeys] at hspare
      omega
    · exact ⟨key, s, ks, rfl⟩
  obtain ⟨value, vs, hvs⟩ : ∃ value vs, r.values = value :: vs := by
    rcases hvals : r.values with _ | ⟨value, vs⟩
    · rw [hvals, hks] at hvalues
      cases hvalues
    · exact ⟨value, vs, rfl⟩
  have hlength := congrArg List.length hks
  rw [List.length_cons] at hlength
  have hfree : Mutex.node a ∉ Mutex.node y :: held := by
    intro hmem
    rcases List.mem_cons.mp hmem with heq | hmem
    · exact hay (Mutex.node.inj heq)
    · exact hap (hheld a hmem)
  have hkey : r.keys[0]? = some key := by
    rw [hks]
    rfl
  have hvalue : r.values[0]? = some value := by
    rw [hvs]
    rfl
  have hfront : r.keys.tail[0]? = some s := by
    rw [hks]
    rfl
  obtain ⟨t', hop, hroot, hnode⟩ := ha.borrowFromRight h.sound hfree hkey hvalue hfront
  have htail : r.keys.tail = s :: ks ∧ r.values.tail = vs := by
    rw [hks, hvs]
    exact ⟨rfl, rfl⟩
  rw [htail.1, htail.2] at hnode
  obtain ⟨hsound, hholds⟩ := ha.lend_right h.sound hks hvs hnode
  have hmax := (h.others y r hr hay.symm).1
  refine ⟨t', ?_, ⟨?_, hholds, ?_⟩⟩
  · rw [borrowRight, if_pos hi]
    have hself := (congrFun hnode y).trans (Nodes.rotate_right hyp)
    exact (bind_ok (element_ok hy)).trans
      (tryBorrow_yes hr (fun hmem => hyp (hheld y hmem)) hspare hop hself)
  · refine ha.healthy_rotate ?_ ?_ h.keyed hroot h.sound hsound hnode ?_
    · exact fun z b hb hza _ => h.others z b hb hza
    · simp only [List.length_append, List.length_singleton, minKeys, maxKeys] at hshort ⊢
      omega
    · show minKeys ≤ (s :: ks).length ∧ (s :: ks).length ≤ maxKeys
      omega
  · rw [hnode]
    exact ⟨_, Function.update_self _ _ _⟩

theorem Lacking.borrowRight_no
    (hfew : ∀ y r, m.children[i + 1]? = some y → t.node y = some r → r.keys.length ≤ minKeys) :
    borrowRight a m i held t = .ok (false, t) := by
  rw [borrowRight]
  by_cases hi : i + 1 < m.children.length
  · obtain ⟨y, r, hy, ha⟩ := h.right hi
    have hyp := (ha.ne h.sound).2.1
    rw [if_pos hi]
    exact (bind_ok (element_ok hy)).trans
      (tryBorrow_no ha.right (fun hmem => hyp (hheld y hmem)) (hfew y r hy ha.right) _)
  · rw [if_neg hi]
    rfl

end

end NanoVault.Index
