/-
Separators.

Keys in ascending order divide an interval into slots: the first slot ends at the first
separator, each further one goes from one separator to the next, and the last one reaches up to the
end of the interval. A separator belongs to the slot it opens. `index_eq_iff` says which slot a key
is found in; the edits of the separators (insert, replace, erase, cut in two) each have a rule
that says what the slots are afterwards.
-/
import Mathlib.Order.WithBot
import Mathlib.Data.List.InsertIdx

namespace Lib

variable {K : Type*}

/-- The keys from `lo` on, below `hi`. -/
@[ext] structure KeyRange (K : Type*) where
  lo : WithBot K
  hi : WithTop K

namespace KeyRange

def whole : KeyRange K := ⟨⊥, ⊤⟩

/-- Where a slot starts: at the separator in front of it. -/
def start (I : KeyRange K) (ks : List K) : Nat → WithBot K
  | 0 => I.lo
  | i + 1 => (ks[i]?).elim I.lo fun k => k

/-- Where a slot ends: at the separator behind it. -/
def stop (I : KeyRange K) (ks : List K) (i : Nat) : WithTop K := (ks[i]?).elim I.hi fun k => k

def slot (I : KeyRange K) (ks : List K) (i : Nat) : KeyRange K := ⟨start I ks i, stop I ks i⟩

variable {I : KeyRange K} {ks : List K} {i j : Nat} {k s : K}

/-! ### Ends of the slots -/

@[simp] theorem slot_lo (I : KeyRange K) (ks : List K) (i : Nat) :
    (slot I ks i).lo = start I ks i := rfl

@[simp] theorem slot_hi (I : KeyRange K) (ks : List K) (i : Nat) :
    (slot I ks i).hi = stop I ks i := rfl

@[simp] theorem start_zero (I : KeyRange K) (ks : List K) : start I ks 0 = I.lo := rfl

theorem start_succ (h : ks[i]? = some s) : start I ks (i + 1) = s := by
  rw [start, h]
  rfl

theorem stop_some (h : ks[i]? = some s) : stop I ks i = s := by
  rw [stop, h]
  rfl

theorem stop_none (h : ks[i]? = none) : stop I ks i = I.hi := by
  rw [stop, h]
  rfl

variable [LinearOrder K]

instance : Membership K (KeyRange K) := ⟨fun I k => I.lo ≤ k ∧ (k : WithTop K) < I.hi⟩

/-- The keys ascend inside of the interval. -/
structure Separates (I : KeyRange K) (ks : List K) : Prop where
  sorted : ks.Pairwise (· < ·)
  above : ∀ k ∈ ks, I.lo < k
  below : ∀ k ∈ ks, (k : WithTop K) < I.hi

/-- The number of separators up to a key, from the left. -/
def index (ks : List K) (key : K) : Nat := ks.findIdx fun k => !decide (k ≤ key)

/-- The number of separators below a key, from the left. -/
def lowerBound (ks : List K) (key : K) : Nat := ks.findIdx fun k => !decide (k < key)

theorem mem_def : k ∈ I ↔ I.lo ≤ k ∧ (k : WithTop K) < I.hi := Iff.rfl

/-- Every key is in the whole range. -/
theorem mem_whole (k : K) : k ∈ (whole : KeyRange K) := ⟨bot_le, WithTop.coe_lt_top k⟩

/-- Separators ascend. -/
theorem Separates.lt (h : Separates I ks) {a b : K} (hij : i < j) (ha : ks[i]? = some a)
    (hb : ks[j]? = some b) : a < b := by
  obtain ⟨hi, rfl⟩ := List.getElem?_eq_some_iff.mp ha
  obtain ⟨hj, rfl⟩ := List.getElem?_eq_some_iff.mp hb
  exact List.pairwise_iff_getElem.mp h.sorted i j hi hj hij

/-- A slot does not reach below the interval. -/
theorem Separates.lo_le_start (h : Separates I ks) : I.lo ≤ start I ks i := by
  cases i with
  | zero => exact le_rfl
  | succ i =>
      cases hs : ks[i]? with
      | none =>
          rw [start, hs]
          exact le_rfl
      | some s =>
          rw [start_succ hs]
          exact le_of_lt (h.above s (List.mem_of_getElem? hs))

/-- No slot reaches beyond the range. -/
theorem Separates.stop_le_hi (h : Separates I ks) : stop I ks i ≤ I.hi := by
  cases hs : ks[i]? with
  | none => exact le_of_eq (stop_none hs)
  | some s =>
      rw [stop_some hs]
      exact le_of_lt (h.below s (List.mem_of_getElem? hs))

/-- A key in a slot is in the range. -/
theorem Separates.mem_of_slot (h : Separates I ks) (hk : k ∈ slot I ks i) : k ∈ I :=
  ⟨h.lo_le_start.trans hk.1, hk.2.trans_le h.stop_le_hi⟩

/-- The slots are not empty: what opens one belongs to it. -/
theorem Separates.slot_proper (h : Separates I ks) (hks : ks ≠ []) (hi : i ≤ ks.length)
    (hs : start I ks i = s) : s ∈ slot I ks i := by
  refine ⟨le_of_eq hs, ?_⟩
  cases hnext : ks[i]? with
  | some b =>
      rw [slot_hi, stop_some hnext]
      refine WithTop.coe_lt_coe.mpr ?_
      cases i with
      | zero =>
          have habove := h.above b (List.mem_of_getElem? hnext)
          rw [start_zero] at hs
          rw [hs] at habove
          exact WithBot.coe_lt_coe.mp habove
      | succ i =>
          obtain ⟨a, ha⟩ : ∃ a, ks[i]? = some a := ⟨_, List.getElem?_eq_getElem hi⟩
          rw [start_succ ha] at hs
          rw [← WithBot.coe_injective hs]
          exact h.lt (Nat.lt_succ_self i) ha hnext
  | none =>
      obtain rfl : i = ks.length :=
        Nat.le_antisymm hi (List.getElem?_eq_none_iff.mp hnext)
      obtain ⟨m, hm⟩ : ∃ m, ks.length = m + 1 :=
        Nat.exists_eq_succ_of_ne_zero (List.length_pos_iff.mpr hks).ne'
      rw [slot_hi, stop_none hnext]
      rw [hm] at hs
      obtain ⟨a, ha⟩ : ∃ a, ks[m]? = some a :=
        ⟨_, List.getElem?_eq_getElem (by omega : m < ks.length)⟩
      rw [start_succ ha] at hs
      rw [← WithBot.coe_injective hs]
      exact h.below a (List.mem_of_getElem? ha)

/-! ### Search -/

omit [LinearOrder K] in
/-- The first place where a predicate holds. -/
theorem findIdx_eq_of {p : K → Bool} (hi : i ≤ ks.length)
    (hbefore : ∀ j a, j < i → ks[j]? = some a → p a = false)
    (hat : ∀ a, ks[i]? = some a → p a = true) : ks.findIdx p = i := by
  rcases Nat.lt_or_eq_of_le hi with hlt | rfl
  · refine (List.findIdx_eq hlt).mpr ⟨hat _ (List.getElem?_eq_getElem hlt), ?_⟩
    intro j hj
    exact hbefore j _ hj (List.getElem?_eq_getElem (hj.trans hlt))
  · refine List.findIdx_eq_length.mpr fun a ha => ?_
    obtain ⟨j, hj⟩ := List.getElem?_of_mem ha
    exact hbefore j a (List.getElem?_eq_some_iff.mp hj).1 hj

/-- A key's slot is one of those there are. -/
theorem index_le_length (ks : List K) (k : K) : index ks k ≤ ks.length :=
  List.findIdx_le_length

/-- The search ends at the slot of the key. -/
theorem mem_slot_index (hk : k ∈ I) : k ∈ slot I ks (index ks k) := by
  constructor
  · cases hindex : index ks k with
    | zero => exact hk.1
    | succ i =>
        have hlt : i < ks.findIdx fun a => !decide (a ≤ k) := by
          rw [index] at hindex
          omega
        have hbefore := List.not_of_lt_findIdx hlt
        have hi : i < ks.length := hlt.trans_le List.findIdx_le_length
        rw [slot_lo, start_succ (List.getElem?_eq_getElem hi)]
        exact WithBot.coe_le_coe.mpr (by simpa using hbefore)
  · cases hs : ks[index ks k]? with
    | none =>
        rw [slot_hi, stop_none hs]
        exact hk.2
    | some s =>
        have hstop := List.findIdx_of_getElem?_eq_some hs
        rw [slot_hi, stop_some hs]
        exact WithTop.coe_lt_coe.mpr (by simpa using hstop)

/-- The slots are disjoint. -/
theorem Separates.index_eq (h : Separates I ks) (hi : i ≤ ks.length) (hk : k ∈ slot I ks i) :
    index ks k = i := by
  refine findIdx_eq_of hi ?_ ?_
  · intro j a hj ha
    cases i with
    | zero => exact absurd hj (Nat.not_lt_zero j)
    | succ i =>
        obtain ⟨b, hb⟩ : ∃ b, ks[i]? = some b := ⟨_, List.getElem?_eq_getElem hi⟩
        have hbk := hk.1
        rw [slot_lo, start_succ hb] at hbk
        have hab : a ≤ b := by
          rcases Nat.lt_or_eq_of_le (Nat.le_of_lt_succ hj) with hlt | rfl
          · exact le_of_lt (h.lt hlt ha hb)
          · exact le_of_eq (Option.some.inj (ha.symm.trans hb))
        simpa using hab.trans (WithBot.coe_le_coe.mp hbk)
  · intro a ha
    have hka := hk.2
    rw [slot_hi, stop_some ha] at hka
    simpa using WithTop.coe_lt_coe.mp hka

/-- What stands before a slot is at most where it starts. -/
theorem Separates.le_start (h : Separates I ks) {a : K} (hi : i ≤ ks.length) (hj : j < i)
    (ha : ks[j]? = some a) : (a : WithBot K) ≤ start I ks i := by
  cases i with
  | zero => exact absurd hj (Nat.not_lt_zero j)
  | succ i =>
      obtain ⟨b, hb⟩ : ∃ b, ks[i]? = some b := ⟨_, List.getElem?_eq_getElem hi⟩
      rw [start_succ hb, WithBot.coe_le_coe]
      rcases Nat.lt_or_eq_of_le (Nat.le_of_lt_succ hj) with hlt | rfl
      · exact le_of_lt (h.lt hlt ha hb)
      · exact le_of_eq (Option.some.inj (ha.symm.trans hb))

/-- A slot ends at or below the separators behind it. -/
theorem Separates.stop_le (h : Separates I ks) {a : K} (hj : i ≤ j) (ha : ks[j]? = some a) :
    stop I ks i ≤ a := by
  obtain ⟨b, hb⟩ : ∃ b, ks[i]? = some b :=
    ⟨_, List.getElem?_eq_getElem (hj.trans_lt (List.getElem?_eq_some_iff.mp ha).1)⟩
  rw [stop_some hb, WithTop.coe_le_coe]
  rcases Nat.lt_or_eq_of_le hj with hlt | rfl
  · exact le_of_lt (h.lt hlt hb ha)
  · exact le_of_eq (Option.some.inj (hb.symm.trans ha))

/-- Slots start at different places. -/
theorem Separates.start_inj (h : Separates I ks) (hi : i ≤ ks.length) (hj : j ≤ ks.length)
    (heq : start I ks i = start I ks j) : i = j := by
  have hlt : ∀ {i j : Nat}, i < j → j ≤ ks.length → start I ks i < start I ks j := by
    intro i j hij hj
    obtain ⟨j, rfl⟩ : ∃ m, j = m + 1 := ⟨j - 1, by omega⟩
    obtain ⟨b, hb⟩ : ∃ b, ks[j]? = some b := ⟨_, List.getElem?_eq_getElem hj⟩
    rw [start_succ hb]
    cases i with
    | zero => exact h.above b (List.mem_of_getElem? hb)
    | succ i =>
        have hlt : i < j := Nat.lt_of_succ_lt_succ hij
        obtain ⟨a, ha⟩ : ∃ a, ks[i]? = some a := ⟨_, List.getElem?_eq_getElem (by omega)⟩
        rw [start_succ ha]
        exact WithBot.coe_lt_coe.mpr (h.lt hlt ha hb)
  rcases lt_trichotomy i j with hij | hij | hij
  · exact absurd heq (hlt hij hj).ne
  · exact hij
  · exact absurd heq.symm (hlt hij hi).ne

/-- A key inside of a slot, above its start, has the slot's place. -/
theorem Separates.lowerBound_eq (h : Separates I ks) (hi : i ≤ ks.length)
    (hlo : start I ks i < s) (hhi : s < stop I ks i) : lowerBound ks s = i := by
  refine findIdx_eq_of hi ?_ ?_
  · intro j a hj ha
    have hlt := WithBot.coe_lt_coe.mp ((h.le_start hi hj ha).trans_lt hlo)
    simpa using hlt
  · intro a ha
    rw [stop_some ha] at hhi
    simpa using le_of_lt (WithTop.coe_lt_coe.mp hhi)

/-- A separator inserted in its place leaves them sorted. -/
theorem sorted_insertIdx (hsorted : ks.Pairwise (· < ·)) (hbefore : ∀ a ∈ ks.take i, a < s)
    (hafter : ∀ a ∈ ks.drop i, s < a) : (ks.insertIdx i s).Pairwise (· < ·) := by
  induction ks generalizing i with
  | nil =>
      cases i with
      | zero => exact List.pairwise_singleton _ _
      | succ i => exact List.Pairwise.nil
  | cons a ks ih =>
      cases i with
      | zero => exact List.pairwise_cons.mpr ⟨hafter, hsorted⟩
      | succ i =>
          obtain ⟨ha, hsorted⟩ := List.pairwise_cons.mp hsorted
          rw [List.insertIdx_succ_cons, List.pairwise_cons]
          refine ⟨?_, ih hsorted (fun b hb => hbefore b (List.mem_cons_of_mem _ hb)) hafter⟩
          intro b hb
          rcases List.eq_or_mem_of_mem_insertIdx hb with rfl | hb
          · exact hbefore a List.mem_cons_self
          · exact ha b hb

/-- What stands before the lower bound is less. -/
theorem lt_of_lt_lowerBound {a : K} (hj : j < lowerBound ks k) (ha : ks[j]? = some a) :
    a < k := by
  have hbefore := List.not_of_lt_findIdx hj
  have heq := (List.getElem?_eq_some_iff.mp ha).2
  simpa [heq] using hbefore

/-- What stands at the lower bound is not less. -/
theorem le_of_lowerBound {a : K} (ha : ks[lowerBound ks k]? = some a) : k ≤ a := by
  have hat := List.findIdx_of_getElem?_eq_some ha
  simpa using hat

theorem lowerBound_le_length (ks : List K) (k : K) : lowerBound ks k ≤ ks.length :=
  List.findIdx_le_length

/-- A key that does not stand at its place does not stand anywhere. -/
theorem getElem?_ne_of_lowerBound {a : K} (hsorted : ks.Pairwise (· < ·))
    (hk : ks[lowerBound ks k]? ≠ some k) (ha : ks[j]? = some a) : a ≠ k := by
  rintro rfl
  obtain ⟨hj, hget⟩ := List.getElem?_eq_some_iff.mp ha
  rcases lt_trichotomy j (lowerBound ks a) with hlt | heq | hgt
  · exact lt_irrefl a (lt_of_lt_lowerBound hlt ha)
  · exact hk (heq ▸ ha)
  · have hplace := List.getElem?_eq_getElem (hgt.trans hj)
    have hlt := List.pairwise_iff_getElem.mp hsorted _ j (hgt.trans hj) hj hgt
    rw [hget] at hlt
    exact lt_irrefl a ((le_of_lowerBound hplace).trans_lt hlt)

/-- A key enters a list at its place. -/
theorem sorted_insert_lowerBound (hsorted : ks.Pairwise (· < ·))
    (hk : ks[lowerBound ks k]? ≠ some k) :
    (ks.insertIdx (lowerBound ks k) k).Pairwise (· < ·) := by
  refine sorted_insertIdx hsorted ?_ ?_
  · intro a ha
    obtain ⟨j, hj⟩ := List.getElem?_of_mem ha
    rw [List.getElem?_take] at hj
    split at hj
    · next hlt => exact lt_of_lt_lowerBound hlt hj
    · cases hj
  · intro a ha
    obtain ⟨j, hj⟩ := List.getElem?_of_mem ha
    rw [List.getElem?_drop] at hj
    obtain ⟨hlt, hget⟩ := List.getElem?_eq_some_iff.mp hj
    have hplace := List.getElem?_eq_getElem (l := ks) (i := lowerBound ks k) (by omega)
    have hle := le_of_lowerBound hplace
    have hne := getElem?_ne_of_lowerBound hsorted hk hj
    refine lt_of_le_of_ne (hle.trans ?_) hne.symm
    rcases Nat.eq_zero_or_pos j with rfl | hpos
    · exact hget.le
    · have hless := List.pairwise_iff_getElem.mp hsorted (lowerBound ks k) _ (by omega) hlt
        (Nat.lt_add_of_pos_right hpos)
      rw [hget] at hless
      exact hless.le

/-! ### A new separator -/

omit [LinearOrder K] in
/-- A new separator leaves the slots before it. -/
theorem slot_insertIdx_lt (I : KeyRange K) (ks : List K) (s : K) (hj : j < i) :
    slot I (ks.insertIdx i s) j = slot I ks j := by
  cases j with
  | zero => simp only [slot, start, stop, List.getElem?_insertIdx_of_lt hj]
  | succ j =>
      simp only [slot, start, stop, List.getElem?_insertIdx_of_lt hj,
        List.getElem?_insertIdx_of_lt (Nat.lt_of_succ_lt hj)]

omit [LinearOrder K] in
/-- A new separator ends the slot it is put into. -/
theorem slot_insertIdx_left (I : KeyRange K) (s : K) (hi : i ≤ ks.length) :
    slot I (ks.insertIdx i s) i = ⟨start I ks i, s⟩ := by
  have hself : (ks.insertIdx i s)[i]? = some s := by
    rw [List.getElem?_insertIdx_self, if_pos hi]
  cases i with
  | zero => simp only [slot, start, stop, hself, Option.elim_some]
  | succ i =>
      simp only [slot, start, stop, hself, Option.elim_some,
        List.getElem?_insertIdx_of_lt (Nat.lt_succ_self i)]

omit [LinearOrder K] in
/-- A new separator begins the other half of that slot. -/
theorem slot_insertIdx_right (I : KeyRange K) (s : K) (hi : i ≤ ks.length) :
    slot I (ks.insertIdx i s) (i + 1) = ⟨s, stop I ks i⟩ := by
  have hself : (ks.insertIdx i s)[i]? = some s := by
    rw [List.getElem?_insertIdx_self, if_pos hi]
  simp only [slot, start, stop, hself, Option.elim_some,
    List.getElem?_insertIdx_of_gt (Nat.lt_succ_self i)]
  rfl

omit [LinearOrder K] in
/-- The slots behind a new separator move by one. -/
theorem slot_insertIdx_gt (I : KeyRange K) (ks : List K) (s : K) (hj : i < j) :
    slot I (ks.insertIdx i s) (j + 1) = slot I ks j := by
  cases j with
  | zero => exact absurd hj (Nat.not_lt_zero i)
  | succ j =>
      simp only [slot, start, stop, List.getElem?_insertIdx_of_gt hj,
        List.getElem?_insertIdx_of_gt (Nat.lt_succ_of_lt hj), Nat.add_sub_cancel]
      rfl

/-- A separator from inside a slot may be put there. -/
theorem Separates.insertIdx (h : Separates I ks) (hi : i ≤ ks.length)
    (hlo : start I ks i < s) (hhi : s < stop I ks i) : Separates I (ks.insertIdx i s) := by
  refine ⟨sorted_insertIdx h.sorted ?_ ?_, ?_, ?_⟩
  · intro a ha
    obtain ⟨j, hj⟩ := List.getElem?_of_mem ha
    rw [List.getElem?_take] at hj
    split at hj
    · next hji => exact WithBot.coe_lt_coe.mp ((h.le_start hi hji hj).trans_lt hlo)
    · cases hj
  · intro a ha
    obtain ⟨j, hj⟩ := List.getElem?_of_mem ha
    rw [List.getElem?_drop] at hj
    exact WithTop.coe_lt_coe.mp (hhi.trans_le (h.stop_le (Nat.le_add_right i j) hj))
  · intro a ha
    rcases List.eq_or_mem_of_mem_insertIdx ha with rfl | ha
    · exact h.lo_le_start.trans_lt hlo
    · exact h.above a ha
  · intro a ha
    rcases List.eq_or_mem_of_mem_insertIdx ha with rfl | ha
    · exact hhi.trans_le h.stop_le_hi
    · exact h.below a ha

/-! ### Cutting in two -/

omit [LinearOrder K] in
/-- The slots before a separator, in the half below it. -/
theorem slot_take (hs : ks[i]? = some s) (hj : j ≤ i) :
    slot ⟨I.lo, s⟩ (ks.take i) j = slot I ks j := by
  have hstop : stop ⟨I.lo, s⟩ (ks.take i) j = stop I ks j := by
    rw [stop, stop, List.getElem?_take]
    split
    · next hlt =>
        have hi := (List.getElem?_eq_some_iff.mp hs).1
        rw [List.getElem?_eq_getElem (hlt.trans hi)]
        rfl
    · next hle =>
        obtain rfl : j = i := Nat.le_antisymm hj (Nat.not_lt.mp hle)
        rw [hs]
        rfl
  cases j with
  | zero => rw [slot, slot, hstop, start, start]
  | succ j =>
      rw [slot, slot, hstop, start, start, List.getElem?_take, if_pos (Nat.lt_of_succ_le hj)]

omit [LinearOrder K] in
/-- The slots behind a separator, in the half above it. -/
theorem slot_drop (hs : ks[i]? = some s) (hj : i + 1 + j ≤ ks.length) :
    slot ⟨s, I.hi⟩ (ks.drop (i + 1)) j = slot I ks (i + 1 + j) := by
  have hstop : stop ⟨s, I.hi⟩ (ks.drop (i + 1)) j = stop I ks (i + 1 + j) := by
    rw [stop, stop, List.getElem?_drop]
  cases j with
  | zero => rw [slot, slot, hstop, start, Nat.add_zero, start_succ hs]
  | succ j =>
      have hplace : i + 1 + (j + 1) = i + 1 + j + 1 := rfl
      have hsome := List.getElem?_eq_getElem (l := ks) (i := i + 1 + j) (by omega)
      rw [slot, slot, hstop, hplace, start, start_succ hsome, List.getElem?_drop, hsome]
      rfl

/-- The separators before one separate the range below it. -/
theorem Separates.take (h : Separates I ks) (hs : ks[i]? = some s) :
    Separates ⟨I.lo, s⟩ (ks.take i) := by
  refine ⟨h.sorted.sublist (List.take_sublist _ _), ?_, ?_⟩
  · intro a ha
    exact h.above a (List.mem_of_mem_take ha)
  · intro a ha
    obtain ⟨j, hj⟩ := List.getElem?_of_mem ha
    rw [List.getElem?_take] at hj
    split at hj
    · next hji => exact WithTop.coe_lt_coe.mpr (h.lt hji hj hs)
    · cases hj

/-- The separators behind one separate the range above it. -/
theorem Separates.drop (h : Separates I ks) (hs : ks[i]? = some s) :
    Separates ⟨s, I.hi⟩ (ks.drop (i + 1)) := by
  refine ⟨h.sorted.sublist (List.drop_sublist _ _), ?_, ?_⟩
  · intro a ha
    obtain ⟨j, hj⟩ := List.getElem?_of_mem ha
    rw [List.getElem?_drop] at hj
    exact WithBot.coe_lt_coe.mpr (h.lt (by omega) hs hj)
  · intro a ha
    exact h.below a (List.mem_of_mem_drop ha)

/-! ### A separator less -/

omit [LinearOrder K] in
/-- Without a separator the slots before it stay. -/
theorem slot_eraseIdx_lt (I : KeyRange K) (ks : List K) (hj : j < i) :
    slot I (ks.eraseIdx i) j = slot I ks j := by
  cases j with
  | zero => simp only [slot, start, stop, List.getElem?_eraseIdx_of_lt hj]
  | succ j =>
      simp only [slot, start, stop, List.getElem?_eraseIdx_of_lt hj,
        List.getElem?_eraseIdx_of_lt (Nat.lt_of_succ_lt hj)]

omit [LinearOrder K] in
/-- Without a separator its two slots are one. -/
theorem slot_eraseIdx_self (I : KeyRange K) (ks : List K) (i : Nat) :
    slot I (ks.eraseIdx i) i = ⟨start I ks i, stop I ks (i + 1)⟩ := by
  cases i with
  | zero => simp only [slot, start, stop, List.getElem?_eraseIdx_of_ge (Nat.le_refl _)]
  | succ i =>
      simp only [slot, start, stop, List.getElem?_eraseIdx_of_ge (Nat.le_refl _),
        List.getElem?_eraseIdx_of_lt (Nat.lt_succ_self i)]

omit [LinearOrder K] in
/-- Without a separator the slots behind move by one. -/
theorem slot_eraseIdx_gt (I : KeyRange K) (ks : List K) (hj : i < j) :
    slot I (ks.eraseIdx i) j = slot I ks (j + 1) := by
  cases j with
  | zero => exact absurd hj (Nat.not_lt_zero i)
  | succ j =>
      simp only [slot, start, stop, List.getElem?_eraseIdx_of_ge (Nat.le_of_lt_succ hj),
        List.getElem?_eraseIdx_of_ge (Nat.le_of_lt hj)]

/-- Separators stay so when one is taken out. -/
theorem Separates.eraseIdx (h : Separates I ks) (i : Nat) : Separates I (ks.eraseIdx i) := by
  refine ⟨h.sorted.eraseIdx i, ?_, ?_⟩
  · intro a ha
    exact h.above a (List.mem_of_mem_eraseIdx ha)
  · intro a ha
    exact h.below a (List.mem_of_mem_eraseIdx ha)

/-! ### Another separator -/

omit [LinearOrder K] in
/-- Another separator in a place leaves the slots before it. -/
theorem slot_set_lt (I : KeyRange K) (ks : List K) (s : K) (hj : j < i) :
    slot I (ks.set i s) j = slot I ks j := by
  cases j with
  | zero => simp only [slot, start, stop, List.getElem?_set_ne hj.ne']
  | succ j =>
      simp only [slot, start, stop, List.getElem?_set_ne hj.ne',
        List.getElem?_set_ne (Nat.lt_of_succ_lt hj).ne']

omit [LinearOrder K] in
/-- Another separator ends the slot before it. -/
theorem slot_set_left (I : KeyRange K) (s : K) (hi : i < ks.length) :
    slot I (ks.set i s) i = ⟨start I ks i, s⟩ := by
  cases i with
  | zero => simp only [slot, start, stop, List.getElem?_set_self hi, Option.elim_some]
  | succ i =>
      simp only [slot, start, stop, List.getElem?_set_self hi, Option.elim_some,
        List.getElem?_set_ne (Nat.lt_succ_self i).ne']

omit [LinearOrder K] in
/-- Another separator begins the slot behind it. -/
theorem slot_set_right (I : KeyRange K) (s : K) (hi : i < ks.length) :
    slot I (ks.set i s) (i + 1) = ⟨s, stop I ks (i + 1)⟩ := by
  simp only [slot, start, stop, List.getElem?_set_self hi, Option.elim_some,
    List.getElem?_set_ne (Nat.lt_succ_self i).ne]

omit [LinearOrder K] in
/-- Another separator in a place leaves the slots further behind. -/
theorem slot_set_gt (I : KeyRange K) (ks : List K) (s : K) (hj : i + 1 < j) :
    slot I (ks.set i s) j = slot I ks j := by
  cases j with
  | zero => exact absurd hj (Nat.not_lt_zero _)
  | succ j =>
      simp only [slot, start, stop, List.getElem?_set_ne (Nat.lt_of_succ_lt hj).ne,
        List.getElem?_set_ne (Nat.lt_of_succ_lt_succ hj).ne]

/-- A separator may move up to its neighbours. -/
theorem Separates.set (h : Separates I ks) (hi : i < ks.length) (hlo : start I ks i < s)
    (hhi : s < stop I ks (i + 1)) : Separates I (ks.set i s) := by
  have herased := h.eraseIdx i
  have hplace : i ≤ (ks.eraseIdx i).length := by
    rw [List.length_eraseIdx_of_lt hi]
    omega
  have hself := slot_eraseIdx_self I ks i
  have hset : ks.set i s = (ks.eraseIdx i).insertIdx i s := by
    refine List.ext_getElem? fun j => ?_
    rcases lt_trichotomy j i with hj | rfl | hj
    · rw [List.getElem?_set_ne hj.ne', List.getElem?_insertIdx_of_lt hj,
        List.getElem?_eraseIdx_of_lt hj]
    · rw [List.getElem?_set_self hi, List.getElem?_insertIdx_self, if_pos hplace]
    · rw [List.getElem?_set_ne hj.ne, List.getElem?_insertIdx_of_gt hj,
        List.getElem?_eraseIdx_of_ge (Nat.le_sub_one_of_lt hj), Nat.sub_add_cancel (by omega)]
  rw [hset]
  refine herased.insertIdx hplace ?_ ?_
  · rwa [← slot_lo, hself]
  · rwa [← slot_hi, hself]

end KeyRange

end Lib
