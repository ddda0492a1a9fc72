/-
Insertions by several threads.

`insert` locks the tree to find the leaf of its key, the leaf to place the key, the leaf again to
see whether it has too many keys, and the tree to split it: each of these sections is one step.
Between them other threads may split the leaf. A thread that places its key where its leaf has
been may place it where no search looks for it.
-/
import NanoVault.Index.Calls

namespace NanoVault.Index

open Lib Op

variable {K V : Type} [LinearOrder K]

/-- How far a call of `insert` has come. -/
inductive Stage where
  | called
  | found (leaf : Addr)
  | placed (leaf : Addr)
  | full (leaf : Addr)
  | returned
deriving DecidableEq, Repr

def Stage.leaf? : Stage → Option Addr
  | .found leaf | .placed leaf | .full leaf => some leaf
  | .called | .returned => none

def Stage.HasPlaced : Stage → Prop
  | .called | .found _ => False
  | .placed _ | .full _ | .returned => True

/-- A thread that inserts one key. -/
structure Thread (K V : Type) where
  key : K
  value : V
  stage : Stage

/-- The check behind `insert_into_leaf`. -/
def isFull (leaf : Addr) : Op K V Bool :=
  locked (.node leaf) do
    let node ← read leaf
    return decide (maxKeys < node.keys.length)

def Thread.next (thread : Thread K V) : Op K V Stage :=
  match thread.stage with
  | .called => do return .found (← findLeaf thread.key)
  | .found leaf => do
      insertIntoLeaf leaf thread.key thread.value
      return .placed leaf
  | .placed leaf => do
      let full ← isFull leaf
      if full then return .full leaf
      else return .returned
  | .full leaf => do
      splitLeaf leaf
      return .returned
  | .returned => return .returned

/-- The sections of a thread, without those of others between them, are `insert`. -/
theorem insert_eq_sections (key : K) (value : V) : (insert key value : Op K V Unit) = (do
    let stage ← Thread.next ⟨key, value, .called⟩
    let stage ← Thread.next ⟨key, value, stage⟩
    let stage ← Thread.next ⟨key, value, stage⟩
    let _ ← Thread.next ⟨key, value, stage⟩
    return ()) := by
  simp only [insert, Thread.next, bind_assoc, pure_bind]
  refine bind_congr fun leaf => bind_congr fun _ => ?_
  rw [isFull]
  refine bind_congr fun full => ?_
  cases full with
  | true => simp only [if_true, pure_bind, bind_assoc, bind_pure_unit]
  | false => rfl

structure Pool (K V : Type) where
  tree : Heap K V
  threads : List (Thread K V)

/-- One section of one thread. -/
def Pool.run (s : Pool K V) (i : Nat) : Except Fault (Pool K V) :=
  match s.threads[i]? with
  | none => .ok s
  | some thread => (thread.next [] s.tree).map fun r =>
      { tree := r.2, threads := s.threads.set i { thread with stage := r.1 } }

/-- A tree with threads that have just called `insert` with these keys and values. -/
def Pool.start (t : Heap K V) (calls : List (K × V)) : Pool K V where
  tree := t
  threads := calls.map fun call => ⟨call.1, call.2, .called⟩

/-- The threads take turns in any order. -/
def threads (t : Heap K V) (calls : List (K × V)) : Machine (Pool K V) Nat :=
  .ofFun (.start t calls) fun s i => (s.run i).toOption

/-- A section that does not come too late: the key is placed in a leaf that is still the one
`find_leaf` ends at, and a leaf that is split has keys for two. -/
def InTime (s : Pool K V) (i : Nat) : Prop :=
  ∀ thread, s.threads[i]? = some thread →
    (∀ leaf, thread.stage = .found leaf → findLeaf thread.key [] s.tree = .ok (leaf, s.tree)) ∧
    ∀ leaf n, thread.stage = .full leaf → s.tree.node leaf = some n → 2 ≤ n.keys.length

/-- The tree has been made by these insertions, one after the other. -/
def Built (pairs : List (K × V)) (t : Heap K V) : Prop :=
  ∃ answers, runAll BPlusTree.empty (pairs.map fun pair => .insert pair.1 pair.2) =
    .ok (answers, t)

/-- Every key is found, with one of its values, and `forEachKey` visits every key once. -/
def Kept (pairs : List (K × V)) (t : Heap K V) : Prop :=
  (∀ k v, (k, v) ∈ pairs → ∃ w, search k [] t = .ok (some w, t) ∧ (k, w) ∈ pairs) ∧
    ∃ ks, forEachKey [] t = .ok (ks, t) ∧ ks.Pairwise (· < ·) ∧
      ∀ k, k ∈ ks ↔ ∃ v, (k, v) ∈ pairs

/-! ### One section -/

variable {t t' : Heap K V} {s s' : Pool K V} {thread : Thread K V} {stage : Stage}
  {built calls pairs : List (K × V)} {entries : K → Option V} {a b : Addr} {n n' : Node K V}

/-- What a section leaves: a tree of the right shape in which no leaf has become anything else,
and the entries, with that of the thread when it has placed its key. -/
structure Section (t t' : Heap K V) (thread : Thread K V) (stage : Stage)
    (entries entries' : K → Option V) : Prop where
  shape : ∃ own height, Sound t'.node t'.root own height
  leaves : ∀ b, IsLeaf t.node b → IsLeaf t'.node b
  leaf : ∀ b, stage.leaf? = some b → IsLeaf t'.node b
  represents : Represents t' entries'
  grown : entries' = entries ∨ entries' = Function.update entries thread.key (some thread.value)
  placed : stage.HasPlaced → thread.stage.HasPlaced ∨ (entries' thread.key).isSome

omit [LinearOrder K] in
theorem isFull_ok (hn : t.node a = some n) :
    isFull a [] t = .ok (decide (maxKeys < n.keys.length), t) := by
  refine locked_ok List.not_mem_nil hn ?_ hn
  rw [bind_ok (read_ok hn)]
  rfl

omit [LinearOrder K] in
theorem isLeaf_put (hn : t.node a = some n) (hleaf : n'.isLeaf = true) (h : IsLeaf t.node b) :
    IsLeaf (t.put a n').node b := by
  rw [Heap.node_put hn]
  by_cases hba : b = a
  · rw [hba]
    exact ⟨n', Function.update_self _ _ _, hleaf⟩
  · obtain ⟨m, hm, hkind⟩ := h
    exact ⟨m, (Function.update_of_ne hba _ _).trans hm, hkind⟩

/-- Every section that is in time goes through. -/
theorem Thread.next_ok {own : Addr → KeyRange K} {height : Addr → Nat}
    (h : Sound t.node t.root own height) (hentries : Represents t entries)
    (hleaf : ∀ b, thread.stage.leaf? = some b → IsLeaf t.node b)
    (hfound : ∀ leaf, thread.stage = .found leaf → findLeaf thread.key [] t = .ok (leaf, t))
    (hfull : ∀ leaf n, thread.stage = .full leaf → t.node leaf = some n → 2 ≤ n.keys.length) :
    ∃ stage t' entries', thread.next [] t = .ok (stage, t') ∧
      Section t t' thread stage entries entries' := by
  obtain ⟨key, value, stage⟩ := thread
  cases stage with
  | called =>
      obtain ⟨leaf, n, hfind, hn, hkind, -⟩ := h.findLeaf_ok key
      refine ⟨.found leaf, t, entries, (bind_ok hfind).trans rfl,
        ⟨own, height, h⟩, fun b hb => hb, ?_, hentries, .inl rfl, nofun⟩
      rintro b hb
      obtain rfl := Option.some.inj hb
      exact ⟨n, hn, hkind⟩
  | found leaf =>
      obtain ⟨leaf', n, hfind, hn, hkind, hkey⟩ := h.findLeaf_ok key
      cases hfind.symm.trans (hfound leaf rfl)
      obtain ⟨n', hinsert, hkind', -, -, hsound, hentered⟩ :=
        insertIntoLeaf_ok h hn hkind hkey List.not_mem_nil value
      refine ⟨.placed leaf, t.put leaf n', Function.update entries key (some value),
        (bind_ok hinsert).trans rfl, ⟨own, height, hsound⟩, ?_, ?_,
        hentered.represents hentries, .inr rfl, fun _ => .inr ?_⟩
      · exact fun b hb => isLeaf_put hn hkind' hb
      · rintro b hb
        obtain rfl := Option.some.inj hb
        exact isLeaf_put hn hkind' ⟨n, hn, hkind⟩
      · rw [Function.update_self]
        rfl
  | placed leaf =>
      obtain ⟨n, hn, hkind⟩ := hleaf leaf rfl
      refine ⟨if maxKeys < n.keys.length then .full leaf else .returned, t, entries, ?_,
        ⟨own, height, h⟩, fun b hb => hb, ?_, hentries, .inl rfl, fun _ => .inl trivial⟩
      · refine (bind_ok (isFull_ok hn)).trans ?_
        by_cases hmany : maxKeys < n.keys.length
        · rw [if_pos hmany, decide_eq_true hmany]
          rfl
        · rw [if_neg hmany, decide_eq_false hmany]
          rfl
      · intro b hb
        split at hb
        · obtain rfl := Option.some.inj hb
          exact ⟨n, hn, hkind⟩
        · cases hb
  | full leaf =>
      obtain ⟨n, hn, hkind⟩ := hleaf leaf rfl
      obtain ⟨t', own', height', hop, hsound, hholds, hleaves, -⟩ :=
        splitLeaf_ok h hn hkind (hfull leaf n rfl hn)
      refine ⟨.returned, t', entries, (bind_ok hop).trans rfl, ⟨own', height', hsound⟩, hleaves,
        nofun, fun k v => ?_, .inl rfl, fun _ => .inl trivial⟩
      rw [hholds, hentries]
  | returned =>
      exact ⟨.returned, t, entries, rfl, ⟨own, height, h⟩, fun b hb => hb, nofun, hentries,
        .inl rfl, fun _ => .inl trivial⟩

/-! ### Any interleaving -/

/-- The tree between the sections, built by insertions and worked on by the threads. -/
structure Gathered (built calls : List (K × V)) (s : Pool K V) : Prop where
  made : s.threads.map (fun thread => (thread.key, thread.value)) = calls
  shape : ∃ own height, Sound s.tree.node s.tree.root own height
  leaves : ∀ thread ∈ s.threads, ∀ b, thread.stage.leaf? = some b → IsLeaf s.tree.node b
  entries : ∃ entries, Represents s.tree entries ∧
    (∀ k v, entries k = some v → (k, v) ∈ built ++ calls) ∧
    (∀ k v, (k, v) ∈ built → (entries k).isSome) ∧
    ∀ thread ∈ s.threads, thread.stage.HasPlaced → (entries thread.key).isSome

/-- A section in time keeps what is known of the tree. -/
theorem Gathered.run (h : Gathered built calls s) {i : Nat} (hok : InTime s i) :
    ∃ s', s.run i = .ok s' ∧ Gathered built calls s' := by
  obtain ⟨hcalls, ⟨own, height, hsound⟩, hleaves, entries, hentries, hfrom, hbuilt, hplaced⟩ := h
  cases hi : s.threads[i]? with
  | none =>
      refine ⟨s, ?_, hcalls, ⟨own, height, hsound⟩, hleaves, entries, hentries, hfrom, hbuilt,
        hplaced⟩
      rw [Pool.run, hi]
  | some thread =>
      have hmem := List.mem_of_getElem? hi
      obtain ⟨hfound, hfull⟩ := hok thread hi
      obtain ⟨stage, t', entries', hnext, hsection⟩ :=
        Thread.next_ok hsound hentries (hleaves thread hmem) hfound hfull
      have hgrown : ∀ k, (entries k).isSome → (entries' k).isSome := by
        intro k hk
        rcases hsection.grown with rfl | rfl
        · exact hk
        · by_cases hkey : k = thread.key
          · rw [hkey, Function.update_self]
            rfl
          · rw [Function.update_of_ne hkey]
            exact hk
      refine ⟨⟨t', s.threads.set i { thread with stage := stage }⟩, ?_, ?_, hsection.shape, ?_,
        entries', hsection.represents, ?_, fun k v hkv => hgrown k (hbuilt k v hkv), ?_⟩
      · rw [Pool.run, hi]
        simp only [hnext]
        rfl
      · obtain ⟨hlt, hget⟩ := List.getElem?_eq_some_iff.mp hi
        rw [List.map_set, ← hcalls]
        refine (congrArg _ ?_).trans (List.set_getElem_self (h := by rwa [List.length_map]))
        rw [List.getElem_map, hget]
      · intro th hth b hb
        rcases List.mem_or_eq_of_mem_set hth with hth | rfl
        · exact hsection.leaves b (hleaves th hth b hb)
        · exact hsection.leaf b hb
      · intro k v hkv
        rcases hsection.grown with rfl | rfl
        · exact hfrom k v hkv
        · by_cases hkey : k = thread.key
          · rw [hkey, Function.update_self] at hkv
            obtain rfl := Option.some.inj hkv
            rw [hkey, ← hcalls]
            exact List.mem_append_right _ (List.mem_map_of_mem hmem)
          · rw [Function.update_of_ne hkey] at hkv
            exact hfrom k v hkv
      · intro th hth hth'
        rcases List.mem_or_eq_of_mem_set hth with hth | rfl
        · exact hgrown _ (hplaced th hth hth')
        · rcases hsection.placed hth' with hbefore | hafter
          · exact hgrown _ (hplaced thread hmem hbefore)
          · exact hafter

/-! ### The tree at the start -/

theorem harmlessFrom_inserts (t : Heap K V) (pairs : List (K × V)) :
    HarmlessFrom t (pairs.map fun pair => .insert pair.1 pair.2) := by
  induction pairs generalizing t with
  | nil => trivial
  | cons pair pairs ih => exact ⟨trivial, fun _ t' _ => ih t'⟩

/-- Insertions leave no other entries than theirs. -/
theorem mem_of_applyAll {k : K} {v : V}
    (h : applyAll entries (pairs.map fun pair => .insert pair.1 pair.2) k = some v) :
    (k, v) ∈ pairs ∨ entries k = some v := by
  induction pairs generalizing entries with
  | nil => exact .inr h
  | cons pair pairs ih =>
      rcases ih h with hmem | hentry
      · exact .inl (List.mem_cons_of_mem _ hmem)
      · by_cases hk : k = pair.1
        · rw [Call.apply, hk, Function.update_self] at hentry
          obtain rfl := Option.some.inj hentry
          rw [hk]
          exact .inl List.mem_cons_self
        · rw [Call.apply, Function.update_of_ne hk] at hentry
          exact .inr hentry

/-- Every key that has been inserted has an entry. -/
theorem applyAll_isSome {k : K} (h : (∃ v, (k, v) ∈ pairs) ∨ (entries k).isSome) :
    (applyAll entries (pairs.map fun pair => .insert pair.1 pair.2) k).isSome := by
  induction pairs generalizing entries with
  | nil =>
      rcases h with ⟨v, hv⟩ | h
      · cases hv
      · exact h
  | cons pair pairs ih =>
      refine ih ?_
      by_cases hk : k = pair.1
      · right
        rw [Call.apply, hk, Function.update_self]
        rfl
      · rcases h with ⟨v, hv⟩ | h
        · rcases List.mem_cons.mp hv with heq | hv
          · exact absurd (congrArg Prod.fst heq) hk
          · exact .inl ⟨v, hv⟩
        · right
          rw [Call.apply, Function.update_of_ne hk]
          exact h

theorem gathered_start (hbuilt : Built built t) (calls : List (K × V)) :
    Gathered built calls (.start t calls) := by
  obtain ⟨answers, hruns⟩ := hbuilt
  obtain ⟨hempty, hnone⟩ := Healthy.empty (K := K) (V := V)
  obtain ⟨answers', t', hruns', -, hhealthy, hentries⟩ :=
    hempty.runAll_ok hnone (harmlessFrom_inserts _ built)
  cases hruns.symm.trans hruns'
  have hcalled : ∀ thread ∈ (Pool.start t calls).threads, thread.stage = .called := by
    intro thread hthread
    obtain ⟨call, -, rfl⟩ := List.mem_map.mp hthread
    rfl
  refine ⟨?_, hhealthy.shape, ?_, _, hentries, ?_, ?_, ?_⟩
  · rw [Pool.start, List.map_map]
    exact List.map_id _
  · intro thread hthread b hb
    rw [hcalled thread hthread] at hb
    cases hb
  · intro k v hkv
    rcases mem_of_applyAll hkv with hmem | hentry
    · exact List.mem_append_left _ hmem
    · cases hentry
  · exact fun k v hkv => applyAll_isSome (.inl ⟨v, hkv⟩)
  · intro thread hthread hplaced
    rw [hcalled thread hthread] at hplaced
    exact hplaced.elim

/-! ### Once all have returned -/

/-- As long as every section is in time, the next one that is goes through, and when all threads
have returned, all keys are in the tree. -/
theorem inserts_kept (hbuilt : Built built t) (h : (threads t calls).Reach InTime s) :
    (∀ i, InTime s i → ∃ s', s.run i = .ok s') ∧
      ((∀ thread ∈ s.threads, thread.stage = .returned) → Kept (built ++ calls) s.tree) := by
  have hgathered : Gathered built calls s := by
    refine h.invariant ?_ ?_
    · rintro s rfl
      exact gathered_start hbuilt calls
    · intro s i s' hs hok hstep
      obtain ⟨s'', hrun, hs'⟩ := hs.run hok
      have hstep' : (s.run i).toOption = some s' := hstep
      rw [hrun] at hstep'
      cases hstep'
      exact hs'
  refine ⟨fun i hok => ?_, fun hreturned => ?_⟩
  · obtain ⟨s', hrun, -⟩ := hgathered.run hok
    exact ⟨s', hrun⟩
  · obtain ⟨hmade, ⟨own, height, hsound⟩, -, entries, hentries, hfrom, hkeys, hplaced⟩ := hgathered
    have hsome : ∀ k, (∃ v, (k, v) ∈ built ++ calls) → (entries k).isSome := by
      rintro k ⟨v, hkv⟩
      rcases List.mem_append.mp hkv with hkv | hkv
      · exact hkeys k v hkv
      · rw [← hmade] at hkv
        obtain ⟨thread, hthread, heq⟩ := List.mem_map.mp hkv
        obtain rfl : thread.key = k := congrArg Prod.fst heq
        refine hplaced thread hthread ?_
        rw [hreturned thread hthread]
        trivial
    refine ⟨fun k v hkv => ?_, ?_⟩
    · obtain ⟨w, hw⟩ := Option.isSome_iff_exists.mp (hsome k ⟨v, hkv⟩)
      refine ⟨w, ?_, hfrom k w hw⟩
      rw [hsound.search_ok hentries k, hw]
    · obtain ⟨ks, hop, hsorted, hmem⟩ := hsound.forEachKey_ok hentries
      refine ⟨ks, hop, hsorted, fun k => ?_⟩
      rw [hmem]
      refine ⟨fun hk => ?_, hsome k⟩
      obtain ⟨w, hw⟩ := Option.isSome_iff_exists.mp hk
      exact ⟨w, hfrom k w hw⟩

/-- The section comes in time, where keys and values can be compared. -/
def Pool.inTime [DecidableEq V] (s : Pool K V) (i : Nat) : Bool :=
  match s.threads[i]? with
  | none => true
  | some thread =>
      match thread.stage with
      | .found leaf => (findLeaf thread.key [] s.tree).toOption.any (decide <| · = (leaf, s.tree))
      | .full leaf => (s.tree.node leaf).all fun n => decide (2 ≤ n.keys.length)
      | _ => true

theorem inTime_of_test [DecidableEq V] (s : Pool K V) (i : Nat) (h : s.inTime i = true) :
    InTime s i := by
  intro thread hthread
  rw [Pool.inTime, hthread] at h
  constructor
  · intro leaf hstage
    simp only [hstage] at h
    obtain ⟨r, hfind, hr⟩ := (Option.any_eq_true _ _).mp h
    rw [ok_of_toOption hfind, of_decide_eq_true hr]
  · intro leaf n hstage hn
    simp only [hstage, hn, Option.all_some] at h
    exact of_decide_eq_true h

/-- Two threads find the same leaf, which has no room for both of their keys; both place them
before the first one splits it. -/
theorem inserts_kept_interleaved : ∃ (built calls : List (Nat × Unit)) (t : Heap Nat Unit)
    (s : Pool Nat Unit), Built built t ∧ built.length = 199 ∧ calls = [(300, ()), (199, ())] ∧
      (threads t calls).Reach InTime s ∧ (∀ thread ∈ s.threads, thread.stage = .returned) ∧
      1 < s.tree.cells.length ∧ Kept (built ++ calls) s.tree := by
  have hrun : ((runAll BPlusTree.empty (((List.range 199).map (·, ())).map fun pair =>
        .insert pair.1 pair.2)).toOption.any fun r =>
      (Machine.replay (fun s i => (Pool.run s i).toOption) Pool.inTime
        (.start r.2 [(300, ()), (199, ())]) [0, 1, 0, 1, 0, 0, 1]).any fun s =>
          s.threads.all (fun thread => decide (thread.stage = .returned)) &&
            decide (1 < s.tree.cells.length)) = true := by
    decide +kernel
  rw [Option.any_eq_true] at hrun
  obtain ⟨r, hbuilt, hrun⟩ := hrun
  rw [Option.any_eq_true] at hrun
  obtain ⟨s, hreplay, hrun⟩ := hrun
  rw [Bool.and_eq_true, List.all_eq_true] at hrun
  have hreturned : ∀ thread ∈ s.threads, thread.stage = .returned := fun thread hthread =>
    of_decide_eq_true (hrun.1 thread hthread)
  have hreached : (threads r.2 [(300, ()), (199, ())]).Reach InTime s :=
    .of_replay inTime_of_test (.init rfl) hreplay
  refine ⟨(List.range 199).map (·, ()), [(300, ()), (199, ())], r.2, s,
    ⟨r.1, ok_of_toOption hbuilt⟩, List.length_map .., rfl, hreached, hreturned,
    of_decide_eq_true hrun.2, ?_⟩
  exact (inserts_kept ⟨r.1, ok_of_toOption hbuilt⟩ hreached).2 hreturned

/-- One thread finds the leaf for the key 300; another one places the key 199 and splits the leaf;
then the first one places its key in the left half, where it is not found. -/
theorem insert_lost : ∃ (built calls : List (Nat × Unit)) (t : Heap Nat Unit)
    (s : Pool Nat Unit), Built built t ∧ (threads t calls).Reach Machine.Any s ∧
      (∀ thread ∈ s.threads, thread.stage = .returned) ∧ ¬ Kept (built ++ calls) s.tree := by
  have hrun : ((runAll BPlusTree.empty (((List.range 199).reverse.map (·, ())).map fun pair =>
        .insert pair.1 pair.2)).toOption.any fun r =>
      (Machine.replay (fun s i => (Pool.run s i).toOption) (fun _ _ => true)
        (.start r.2 [(300, ()), (199, ())]) [0, 1, 1, 1, 1, 0, 0]).any fun s =>
          s.threads.all (fun thread => decide (thread.stage = .returned)) &&
            (search 300 [] s.tree).toOption.any fun r => r.1.isNone) = true := by
    decide +kernel
  rw [Option.any_eq_true] at hrun
  obtain ⟨r, hbuilt, hrun⟩ := hrun
  rw [Option.any_eq_true] at hrun
  obtain ⟨s, hreplay, hrun⟩ := hrun
  rw [Bool.and_eq_true, List.all_eq_true, Option.any_eq_true] at hrun
  obtain ⟨hreturned, r', hsearch, hnone⟩ := hrun
  refine ⟨(List.range 199).reverse.map (·, ()), [(300, ()), (199, ())], r.2, s,
    ⟨r.1, ok_of_toOption hbuilt⟩,
    .of_replay (fun _ _ _ => trivial) (.init rfl) hreplay,
    fun thread hthread => of_decide_eq_true (hreturned thread hthread), ?_⟩
  rintro ⟨hfound, -⟩
  obtain ⟨w, hw, -⟩ := hfound 300 () (List.mem_append_right _ List.mem_cons_self)
  rw [hw] at hsearch
  cases hsearch
  cases hnone

end NanoVault.Index
