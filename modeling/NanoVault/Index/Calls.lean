/-
Calls of one thread on a B+ tree, one after the other.

A call locks no mutex twice and destroys no node that it has locked, unless it removes a key from
a leaf that can neither borrow nor be merged with what is left of its parent. As long as no call
does, the calls answer as a finite map would, and the tree keeps its shape.
-/
import NanoVault.Index.Underflow
import NanoVault.Lib.Machine

namespace NanoVault.Index

open Lib Op

variable {K V : Type} [LinearOrder K]

inductive Call (K V : Type) where
  | insert (key : K) (value : V)
  | remove (key : K)
  | search (key : K)
  | forEachKey

inductive Answer (K V : Type) where
  | done
  | removed (was : Bool)
  | found (value : Option V)
  | visited (keys : List K)

/-- The thread holds no lock when it calls. -/
def Call.run (t : Heap K V) : Call K V → Except Fault (Answer K V × Heap K V)
  | .insert key value => (Index.insert key value [] t).map fun r => (.done, r.2)
  | .remove key => (Index.remove key [] t).map fun r => (.removed r.1, r.2)
  | .search key => (Index.search key [] t).map fun r => (.found r.1, r.2)
  | .forEachKey => (Index.forEachKey [] t).map fun r => (.visited r.1, r.2)

/-- The tree is what the calls before have left. -/
def calls (K V : Type) [LinearOrder K] : Machine (Heap K V) (Call K V) where
  init t := t = BPlusTree.empty
  step t c t' := ∃ answer, c.run t = .ok (answer, t')

/-- A call that does not take a key from a leaf that cannot be relieved. -/
def Call.Harmless (t : Heap K V) : Call K V → Prop
  | .remove key => Index.Harmless t key
  | _ => True

/-! ### The map -/

def Call.apply (entries : K → Option V) : Call K V → K → Option V
  | .insert key value => Function.update entries key (some value)
  | .remove key => Function.update entries key none
  | _ => entries

inductive Answers (entries : K → Option V) : Call K V → Answer K V → Prop where
  | insert (key : K) (value : V) : Answers entries (.insert key value) .done
  | remove (key : K) : Answers entries (.remove key) (.removed (entries key).isSome)
  | search (key : K) : Answers entries (.search key) (.found (entries key))
  | forEachKey (keys : List K) : keys.Pairwise (· < ·) →
      (∀ k, k ∈ keys ↔ (entries k).isSome) → Answers entries .forEachKey (.visited keys)

variable {t t' : Heap K V} {entries : K → Option V} {c : Call K V} {cs : List (Call K V)}

theorem Healthy.empty : Healthy (BPlusTree.empty : Heap K V) ∧
    Represents (BPlusTree.empty : Heap K V) fun _ => none := by
  have hzero : ∀ {a n}, (BPlusTree.empty : Heap K V).node a = some n →
      a = 0 ∧ n = { isLeaf := true } := by
    intro a n hn
    obtain rfl := Nat.lt_one_iff.mp (Heap.lt_of_node hn)
    exact ⟨rfl, (Option.some.inj hn).symm⟩
  have hwell : WellFormed (BPlusTree.empty : Heap K V) :=
    wellFormed_single List.Pairwise.nil rfl
  obtain ⟨hshape, -⟩ := wellFormed_iff.mp hwell
  refine ⟨⟨hshape, ?_, ?_⟩, ?_⟩
  · intro a n hn
    obtain ⟨rfl, rfl⟩ := hzero hn
    exact ⟨Nat.zero_le _, fun hne => absurd rfl hne⟩
  · intro n hn hkind
    obtain ⟨-, rfl⟩ := hzero hn
    cases hkind
  · intro k v
    constructor
    · rintro ⟨a, n, i, hn, -, hk, -⟩
      obtain ⟨-, rfl⟩ := hzero hn
      cases hk
    · exact fun h => nomatch h

/-- A harmless call ends, answers as the map does, and keeps the tree. -/
theorem Healthy.call_ok (h : Healthy t) (hentries : Represents t entries) (hc : c.Harmless t) :
    ∃ answer t', c.run t = .ok (answer, t') ∧ Answers entries c answer ∧ Healthy t' ∧
      Represents t' (c.apply entries) := by
  obtain ⟨own, height, hsound⟩ := h.shape
  cases c with
  | insert key value =>
      obtain ⟨t', own', height', hop, hsound', hsized, hentered, hkeyed⟩ :=
        insert_ok hsound h.sized key value
      refine ⟨.done, t', ?_, .insert key value, ⟨⟨own', height', hsound'⟩, hsized,
        hkeyed h.keyed⟩, hentered.represents hentries⟩
      rw [Call.run, hop]
      rfl
  | remove key =>
      obtain ⟨t', hop, hhealthy, hremoved⟩ := h.remove_ok hentries hc
      refine ⟨.removed (entries key).isSome, t', ?_, .remove key, hhealthy, hremoved⟩
      rw [Call.run, hop]
      rfl
  | search key =>
      refine ⟨.found (entries key), t, ?_, .search key, h, hentries⟩
      rw [Call.run, hsound.search_ok hentries key]
      rfl
  | forEachKey =>
      obtain ⟨ks, hop, hsorted, hmem⟩ := hsound.forEachKey_ok hentries
      refine ⟨.visited ks, t, ?_, .forEachKey ks hsorted hmem, h, hentries⟩
      rw [Call.run, hop]
      rfl

/-- A call that is not harmless locks a mutex twice, or destroys a node that it has locked. -/
theorem Healthy.call_fault (h : Healthy t) (hc : ¬ c.Harmless t) :
    c.run t = .error .relocked ∨ c.run t = .error .removed := by
  cases c with
  | remove key =>
      simp only [Call.Harmless, Index.Harmless, not_forall] at hc
      obtain ⟨a, n, p, m, i, hn, hleaf, hkey, hfew, hm, hinner, hi, hspare⟩ := hc
      have hop := h.remove_fault hn hleaf hkey hfew hm hinner hi hspare
      rw [Call.run, hop]
      by_cases hroot : p = t.root
      · rw [if_pos hroot]
        exact .inr rfl
      · rw [if_neg hroot]
        exact .inl rfl
  | _ => exact absurd trivial hc

/-- A call that goes through is harmless. -/
theorem Healthy.harmless_of_ok {r : Answer K V × Heap K V} (h : Healthy t)
    (hrun : c.run t = .ok r) : c.Harmless t := by
  by_contra hc
  rcases h.call_fault hc with hfault | hfault <;> cases hrun.symm.trans hfault

/-! ### Runs -/

/-- Calls one after the other, and what they return. -/
def runAll (t : Heap K V) : List (Call K V) → Except Fault (List (Answer K V) × Heap K V)
  | [] => .ok ([], t)
  | c :: cs =>
      match c.run t with
      | .error e => .error e
      | .ok (answer, t') => (runAll t' cs).map fun r => (answer :: r.1, r.2)

/-- The fault at the end, if there is one. -/
def faultOf {α : Type} : Except Fault α → Option Fault
  | .ok _ => none
  | .error e => some e

theorem error_of_faultOf {α : Type} {result : Except Fault α} {e : Fault}
    (h : faultOf result = some e) : result = .error e := by
  cases result with
  | ok r => cases h
  | error e' => rw [Option.some.inj h]

theorem ok_of_toOption {α : Type} {result : Except Fault α} {r : α}
    (h : result.toOption = some r) : result = .ok r := by
  cases result with
  | error e => cases h
  | ok r' => rw [Option.some.inj h]

/-- 200 keys in two leaves, and one of them is removed: its leaf has no key to spare then. -/
def filling : List (Call Nat Unit) :=
  (List.range 200).reverse.map (Call.insert · ()) ++ [.remove 0]

/-- The next removal borrows from the other leaf, which then has none either. -/
def thinning : List (Call Nat Unit) := filling ++ [.remove 1]

/-! ### Locks -/

omit [LinearOrder K] in
/-- A scope that ends has locked a mutex that was free, and the node is still there. -/
theorem locked_scope {α : Type} {a : Addr} {body : Op K V α} {held : List Mutex} {r : α}
    (h : locked (.node a) body held t = .ok (r, t')) :
    Mutex.node a ∉ held ∧ ∃ n, t'.node a = some n := by
  rw [locked] at h
  split at h
  · cases h
  · next hfree =>
      refine ⟨hfree, ?_⟩
      split at h
      · cases h
      · split at h
        · cases h
        · split at h
          · cases h
          · next n hn =>
              cases h
              exact ⟨n, hn⟩

/-- No mutex is locked that the thread holds, and no node is destroyed while its mutex is held:
it would be used at the end of the scope. -/
def Disciplined (t : Heap K V) (c : Call K V) : Prop :=
  c.run t ≠ .error .relocked ∧ c.run t ≠ .error .removed

/-- The tree stays right through harmless calls. -/
theorem healthy_of_reach (h : (calls K V).Reach Call.Harmless t) : Healthy t := by
  refine h.invariant (I := Healthy) ?_ ?_
  · rintro t rfl
    exact Healthy.empty.1
  · rintro t c t' hhealthy hc ⟨answer, hrun⟩
    obtain ⟨own, height, hsound⟩ := hhealthy.shape
    obtain ⟨entries, hentries⟩ := hsound.exists_entries
    obtain ⟨answer', t'', hrun', -, hhealthy', -⟩ := hhealthy.call_ok hentries hc
    cases hrun.symm.trans hrun'
    exact hhealthy'

/-- Calls that go through are harmless. -/
theorem reach_runAll {answers : List (Answer K V)} (h : (calls K V).Reach Call.Harmless t)
    (hruns : runAll t cs = .ok (answers, t')) : (calls K V).Reach Call.Harmless t' := by
  induction cs generalizing t answers with
  | nil =>
      cases hruns
      exact h
  | cons c cs ih =>
      rw [runAll] at hruns
      cases hrun : c.run t with
      | error e =>
          rw [hrun] at hruns
          cases hruns
      | ok r =>
          rw [hrun] at hruns
          obtain ⟨answer, t₁⟩ := r
          cases hrest : runAll t₁ cs with
          | error e =>
              simp only [hrest] at hruns
              cases hruns
          | ok r =>
              simp only [hrest] at hruns
              cases hruns
              exact ih (.step h ((healthy_of_reach h).harmless_of_ok hrun) ⟨answer, hrun⟩) hrest

/-- After any harmless calls, the locks of a call are disciplined where the call is harmless. -/
theorem disciplined_iff (h : (calls K V).Reach Call.Harmless t) (c : Call K V) :
    Disciplined t c ↔ c.Harmless t := by
  have hhealthy := healthy_of_reach h
  obtain ⟨own, height, hsound⟩ := hhealthy.shape
  obtain ⟨entries, hentries⟩ := hsound.exists_entries
  constructor
  · rintro ⟨hrelocked, hremoved⟩
    by_contra hc
    rcases hhealthy.call_fault hc with hrun | hrun
    · exact hrelocked hrun
    · exact hremoved hrun
  · intro hc
    obtain ⟨answer, t', hrun, -⟩ := hhealthy.call_ok hentries hc
    rw [Disciplined, hrun]
    exact ⟨nofun, nofun⟩

/-- With two leaves, a key is removed from one that has to borrow. -/
theorem disciplined_iff_borrowing : ∃ t : Heap Nat Unit, (calls Nat Unit).Reach Call.Harmless t ∧
    (t.node t.root).any (fun n => !n.isLeaf) = true ∧ Disciplined t (.remove 1) := by
  have hfilled : ((runAll BPlusTree.empty filling).toOption.any fun r =>
      (r.2.node r.2.root).any (fun n => !n.isLeaf) &&
        ((Call.remove 1).run r.2).isOk) = true := by decide +kernel
  rw [Option.any_eq_true] at hfilled
  obtain ⟨r, hruns, hfilled⟩ := hfilled
  obtain ⟨hroot, hok⟩ := Bool.and_eq_true_iff.mp hfilled
  have h := reach_runAll (.init rfl) (ok_of_toOption hruns)
  cases hrun : (Call.remove 1).run r.2 with
  | error e =>
      rw [hrun] at hok
      cases hok
  | ok s =>
      have hharmless := (healthy_of_reach h).harmless_of_ok hrun
      exact ⟨r.2, h, hroot, (disciplined_iff h (.remove 1)).mpr hharmless⟩

/-- The next removal merges the leaves, and the root is deleted while it is locked. -/
theorem root_destroyed : ∃ (t : Heap Nat Unit) (c : Call Nat Unit),
    (calls Nat Unit).Reach Machine.Any t ∧ ¬ Disciplined t c := by
  have hfault : ((runAll BPlusTree.empty thinning).toOption.any fun r =>
      decide (faultOf ((Call.remove 2).run r.2) = some .removed)) = true := by decide +kernel
  rw [Option.any_eq_true] at hfault
  obtain ⟨r, hruns, hremoved⟩ := hfault
  have hrun := error_of_faultOf (of_decide_eq_true hremoved)
  have hreach := reach_runAll (.init rfl) (ok_of_toOption hruns)
  exact ⟨r.2, .remove 2, hreach.mono fun _ _ _ => trivial, fun h => h.2 hrun⟩

/-! ### The finite map -/

/-- Every call is harmless in the tree it is made on. -/
def HarmlessFrom (t : Heap K V) : List (Call K V) → Prop
  | [] => True
  | c :: cs => c.Harmless t ∧ ∀ answer t', c.run t = .ok (answer, t') → HarmlessFrom t' cs

/-- The entries after calls: a key has the value of the last insertion that no removal of it
follows. -/
def applyAll (entries : K → Option V) (cs : List (Call K V)) : K → Option V :=
  cs.foldl Call.apply entries

/-- Every call answers as the map does that the calls before it have left. -/
def AnswersAll (entries : K → Option V) : List (Call K V) → List (Answer K V) → Prop
  | [], answers => answers = []
  | c :: cs, answers => ∃ answer rest, answers = answer :: rest ∧ Answers entries c answer ∧
      AnswersAll (c.apply entries) cs rest

theorem Healthy.runAll_ok (h : Healthy t) (hentries : Represents t entries)
    (hcs : HarmlessFrom t cs) : ∃ answers t', runAll t cs = .ok (answers, t') ∧
      AnswersAll entries cs answers ∧ Healthy t' ∧ Represents t' (applyAll entries cs) := by
  induction cs generalizing t entries with
  | nil => exact ⟨[], t, rfl, rfl, h, hentries⟩
  | cons c cs ih =>
      obtain ⟨hc, hrest⟩ := hcs
      obtain ⟨answer, t₁, hrun, hanswer, h₁, hentries₁⟩ := h.call_ok hentries hc
      obtain ⟨answers, t', hruns, hanswers, h', hentries'⟩ :=
        ih h₁ hentries₁ (hrest answer t₁ hrun)
      refine ⟨answer :: answers, t', ?_, ⟨answer, answers, rfl, hanswer, hanswers⟩, h', hentries'⟩
      rw [runAll, hrun]
      simp only [hruns]
      rfl

theorem Healthy.runAll_fault (h : Healthy t) (hcs : ¬ HarmlessFrom t cs) :
    ∃ e, runAll t cs = .error e := by
  induction cs generalizing t with
  | nil => exact absurd trivial hcs
  | cons c cs ih =>
      by_cases hc : c.Harmless t
      · obtain ⟨own, height, hsound⟩ := h.shape
        obtain ⟨entries, hentries⟩ := hsound.exists_entries
        obtain ⟨answer, t₁, hrun, -, h₁, -⟩ := h.call_ok hentries hc
        have hrest : ¬ HarmlessFrom t₁ cs := by
          intro hrest
          refine hcs ⟨hc, fun answer' t' hrun' => ?_⟩
          cases hrun.symm.trans hrun'
          exact hrest
        obtain ⟨e, he⟩ := ih h₁ hrest
        refine ⟨e, ?_⟩
        rw [runAll, hrun]
        simp only [he]
        rfl
      · rcases h.call_fault hc with hrun | hrun
        · exact ⟨.relocked, by rw [runAll, hrun]⟩
        · exact ⟨.removed, by rw [runAll, hrun]⟩

/-- The calls go through and answer as a finite map, and then `search` finds the entries of the
map, and `forEachKey` passes its keys once, in ascending order. -/
def RefinesMap (cs : List (Call K V)) : Prop :=
  ∃ answers t, runAll BPlusTree.empty cs = .ok (answers, t) ∧
    AnswersAll (fun _ => none) cs answers ∧
    (∀ k, search k [] t = .ok (applyAll (fun _ => none) cs k, t)) ∧
    ∃ ks, forEachKey [] t = .ok (ks, t) ∧ ks.Pairwise (· < ·) ∧
      ∀ k, k ∈ ks ↔ (applyAll (fun _ => none) cs k).isSome

/-- The tree is a finite map as long as every call is harmless, and no longer. -/
theorem refinesMap_iff (cs : List (Call K V)) :
    RefinesMap cs ↔ HarmlessFrom BPlusTree.empty cs := by
  obtain ⟨hempty, hnone⟩ := Healthy.empty (K := K) (V := V)
  constructor
  · rintro ⟨answers, t, hruns, -⟩
    by_contra hcs
    obtain ⟨e, he⟩ := hempty.runAll_fault hcs
    cases hruns.symm.trans he
  · intro hcs
    obtain ⟨answers, t, hruns, hanswers, h, hentries⟩ := hempty.runAll_ok hnone hcs
    obtain ⟨own, height, hsound⟩ := h.shape
    exact ⟨answers, t, hruns, hanswers, fun k => hsound.search_ok hentries k,
      hsound.forEachKey_ok hentries⟩

/-- The merged leaf, which is to be the new root, is deleted with the old one. -/
theorem merged_root_removed : ¬ RefinesMap (thinning ++ [.remove 2]) := by
  have hfault : (runAll BPlusTree.empty (thinning ++ [.remove 2])).isOk = false := by
    decide +kernel
  rintro ⟨answers, t, hruns, -⟩
  rw [hruns] at hfault
  cases hfault

end NanoVault.Index
