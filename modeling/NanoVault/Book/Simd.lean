/-
The search for the largest price (`hft_clean/include/simd_utils.hpp`).

`find_max_price_idx` is compiled either as one scan or, with AVX-512, as a scan of whole blocks
of eight prices in which every lane keeps its own maximum and the place of it, followed by a
reduction of the lanes and a scan of the prices behind the last block. Both end at a largest
price. The one scan ends at the first of them; the lanes are compared in their own order, so
the other ends at the first one of the lowest lane (`avx512_eq_scalar_iff`).

An array is the function from its indices to its prices. The indices of an `int` length are
natural numbers, which the lanes and the `int` of the result both hold.
-/
import NanoVault.Lib.FirstMax
import NanoVault.Book.Types

namespace NanoVault.Book

open Lib.FirstMax

/-! ### The lane operations -/

/-- A vector of eight 64-bit lanes, lane 0 at the lowest address. -/
abbrev M512 (α : Type) := Fin 8 → α

namespace M512

/-- `_mm512_loadu_si512`. -/
def loadu (prices : Nat → Price) (i : Nat) : M512 Price := fun k => prices (i + k)

/-- `_mm512_set_epi64(7,6,5,4,3,2,1,0)`. -/
def laneIndices : M512 Nat := fun k => k

/-- `_mm512_add_epi64`, with the lanes of `_mm512_set1_epi64(step)`. -/
def add (v : M512 Nat) (step : Nat) : M512 Nat := fun k => v k + step

/-- `_mm512_cmpgt_epi64_mask`. -/
def cmpgtMask (a b : M512 Price) : M512 Bool := fun k => decide (b k < a k)

/-- `_mm512_mask_blend_epi64`: the lanes of `b` that `mask` selects, the others of `a`. -/
def maskBlend {α : Type} (mask : M512 Bool) (a b : M512 α) : M512 α :=
  fun k => if mask k then b k else a k

end M512

/-! ### The two scans -/

/-- The scalar loop: `best` moves to `i` when the price there is larger. -/
def scalarScan (prices : Nat → Price) (best : Nat) (indices : List Nat) : Nat :=
  indices.foldl (fun best i => if prices i > prices best then i else best) best

/-- The vectors the block loop carries. -/
structure BlockScan where
  vmax : M512 Price
  vidxMax : M512 Nat
  vcur : M512 Nat

/-- The vectors before the loop. -/
def BlockScan.init (prices : Nat → Price) : BlockScan where
  vmax := M512.loadu prices 0
  vidxMax := M512.laneIndices
  vcur := M512.laneIndices

/-- One turn of the block loop. -/
def BlockScan.step (prices : Nat → Price) (s : BlockScan) (i : Nat) : BlockScan :=
  let v := M512.loadu prices i
  let vcur := M512.add s.vcur 8
  let mask := M512.cmpgtMask v s.vmax
  { vmax := M512.maskBlend mask s.vmax v
    vidxMax := M512.maskBlend mask s.vidxMax vcur
    vcur := vcur }

/-- `for (int i = 8; i <= n - 8; i += 8)`. -/
def blockLoop (prices : Nat → Price) (n : Nat) : BlockScan :=
  (List.range' 8 ((n - 8) / 8) 8).foldl (BlockScan.step prices) (.init prices)

/-- The reduction of the lanes. -/
def bestLane (vals : M512 Price) : Fin 8 :=
  [1, 2, 3, 4, 5, 6, 7].foldl (fun best k => if vals k > vals best then k else best) 0

/-- The scalar tail, which carries the result and its price. -/
def tailScan (prices : Nat → Price) (result : Nat) (curMax : Price) (n : Nat) : Nat :=
  ((List.range' (n / 8 * 8) (n - n / 8 * 8)).foldl
    (fun (s : Nat × Price) i => if prices i > s.2 then (i, prices i) else s) (result, curMax)).1

/-- The AVX-512 branch, for `n >= 8`. -/
def simdScan (prices : Nat → Price) (n : Nat) : Nat :=
  let s := blockLoop prices n
  let best := bestLane s.vmax
  tailScan prices (s.vidxMax best) (s.vmax best) n

/-- `find_max_price_idx` without AVX-512. -/
def findMaxPriceIdxScalar (prices : Nat → Price) (n : Int) : Int :=
  if n ≤ 0 then -1
  else scalarScan prices 0 (List.range' 1 (n.toNat - 1))

/-- `find_max_price_idx` with AVX-512. -/
def findMaxPriceIdxAvx512 (prices : Nat → Price) (n : Int) : Int :=
  if n ≤ 0 then -1
  else if n ≥ 8 then simdScan prices n.toNat
  else scalarScan prices 0 (List.range' 1 (n.toNat - 1))

/-! ### Both are scans for a maximum -/

/-- The price at an index, as the number it is compared by. -/
def score (prices : Nat → Price) (i : Nat) : Int := (prices i).toInt

theorem score_lt_iff {prices : Nat → Price} {i j : Nat} :
    score prices i < score prices j ↔ prices i < prices j :=
  Int64.lt_iff_toInt_lt.symm

theorem score_le_iff {prices : Nat → Price} {i j : Nat} :
    score prices i ≤ score prices j ↔ prices i ≤ prices j :=
  Int64.le_iff_toInt_le.symm

theorem pick_score (prices : Nat → Price) (best i : Nat) :
    pick (score prices) best i = if prices i > prices best then i else best := by
  simp [pick, score_lt_iff]

theorem scalarScan_eq (prices : Nat → Price) (best : Nat) (indices : List Nat) :
    scalarScan prices best indices = scan (score prices) best indices := by
  induction indices generalizing best with
  | nil => rfl
  | cons i indices ih =>
      rw [scan_cons, ← ih, pick_score]
      rfl

theorem tailScan_eq (prices : Nat → Price) (result n : Nat) :
    tailScan prices result (prices result) n =
      scan (score prices) result (List.range' (n / 8 * 8) (n - n / 8 * 8)) := by
  unfold tailScan
  generalize List.range' (n / 8 * 8) (n - n / 8 * 8) = indices
  induction indices generalizing result with
  | nil => rfl
  | cons i indices ih =>
      rw [scan_cons, List.foldl_cons, pick_score]
      split
      · exact ih i
      · exact ih result

/-- What a lane has after the block loop: the scan of the prices it has seen. -/
theorem blockLoop_lane (prices : Nat → Price) (blocks : Nat) (k : Fin 8) :
    let s := (List.range' 8 blocks 8).foldl (BlockScan.step prices) (.init prices)
    s.vcur k = 8 * blocks + k ∧ s.vmax k = prices (s.vidxMax k) ∧
      s.vidxMax k = scan (score prices) k ((List.range' 1 blocks).map fun b => 8 * b + k) := by
  induction blocks with
  | zero =>
      refine ⟨by simp [BlockScan.init, M512.laneIndices], ?_, rfl⟩
      simp [BlockScan.init, M512.laneIndices, M512.loadu]
  | succ b ih =>
      obtain ⟨hcur, hmax, hidx⟩ := ih
      rw [List.range'_concat, List.foldl_append, List.range'_concat, List.map_append, scan_append,
        ← hidx]
      generalize (List.range' 8 b 8).foldl (BlockScan.step prices) (.init prices) = s at hcur hmax
      have hnext : s.vcur k + 8 = 8 * (1 + 1 * b) + k := by omega
      have hload : 8 + 8 * b + k.val = 8 * (1 + 1 * b) + k := by omega
      simp only [List.foldl_cons, List.foldl_nil, BlockScan.step, M512.add, M512.maskBlend,
        M512.cmpgtMask, M512.loadu, hnext, hload, hmax, List.map_cons, List.map_nil, scan_cons,
        scan_nil, pick_score, decide_eq_true_eq, and_true]
      constructor
      · omega
      · split <;> rfl

/-! ### The order of the lanes -/

/-- The prices of lane `k` behind its first one, in a loop of `blocks` turns. -/
def column (blocks : Nat) (k : Fin 8) : List Nat := (List.range' 1 blocks).map fun b => 8 * b + k

/-- All indices, lane after lane, and the tail at the end. -/
def laneOrder (n : Nat) : List Nat :=
  (List.finRange 8).flatMap (fun k => k.val :: column ((n - 8) / 8) k) ++
    List.range' (n / 8 * 8) (n - n / 8 * 8)

theorem bestLane_eq (prices : Nat → Price) (idxs : M512 Nat) :
    bestLane (fun k => prices (idxs k)) =
      scan (fun k => score prices (idxs k)) 0 [1, 2, 3, 4, 5, 6, 7] := by
  unfold bestLane scan
  congr 1
  funext best k
  simp [pick, score_lt_iff]

/-- The AVX-512 branch is a scan in the order of the lanes. -/
theorem simdScan_eq (prices : Nat → Price) (n : Nat) :
    simdScan prices n = scan (score prices) 0 (laneOrder n).tail := by
  have hlane := blockLoop_lane prices ((n - 8) / 8)
  have hmax : (blockLoop prices n).vmax = fun k => prices ((blockLoop prices n).vidxMax k) :=
    funext fun k => (hlane k).2.1
  have hidx : (blockLoop prices n).vidxMax =
      fun k => scan (score prices) k.val (column ((n - 8) / 8) k) :=
    funext fun k => (hlane k).2.2
  simp only [simdScan]
  rw [hmax, tailScan_eq, bestLane_eq,
    scan_map (score prices) (blockLoop prices n).vidxMax]
  rw [hidx, scan_parts (score prices) Fin.val (column ((n - 8) / 8)), ← scan_append, ← scan_append,
    ← List.append_assoc]
  rfl

theorem mem_column {blocks i : Nat} {k : Fin 8} :
    i ∈ k.val :: column blocks k ↔ i % 8 = k ∧ i < 8 * (blocks + 1) := by
  have hk := k.isLt
  rw [List.mem_cons, column, List.mem_map]
  constructor
  · rintro (rfl | ⟨b, hb, rfl⟩)
    · omega
    · have := List.mem_range'_1.mp hb
      omega
  · intro ⟨hmod, hlt⟩
    by_cases hfirst : i = k.val
    · exact .inl hfirst
    · refine .inr ⟨i / 8, List.mem_range'_1.mpr ?_, ?_⟩ <;> omega

theorem mem_laneOrder {n i : Nat} (hn : 8 ≤ n) : i ∈ laneOrder n ↔ i < n := by
  rw [laneOrder, List.mem_append, List.mem_flatMap, List.mem_range'_1]
  constructor
  · rintro (⟨k, -, hi⟩ | hi)
    · have := (mem_column.mp hi).2
      omega
    · omega
  · intro hi
    by_cases htail : n / 8 * 8 ≤ i
    · exact .inr (by omega)
    · have hlt : i % 8 < 8 := Nat.mod_lt _ (by omega)
      exact .inl ⟨⟨i % 8, hlt⟩, List.mem_finRange _, mem_column.mpr ⟨rfl, by omega⟩⟩

/-- Among the first `whole` indices the lower lane comes first, and within a lane the lower
index; the others follow in their own order. -/
def Earlier (whole i j : Nat) : Prop :=
  if j < whole then i < whole ∧ (i % 8 < j % 8 ∨ i % 8 = j % 8 ∧ i < j) else i < j

theorem laneOrder_pairwise {n : Nat} (hn : 8 ≤ n) :
    (laneOrder n).Pairwise (Earlier (n / 8 * 8)) := by
  have hblocks : 8 * ((n - 8) / 8 + 1) = n / 8 * 8 := by omega
  rw [laneOrder, List.pairwise_append, List.pairwise_flatMap]
  refine ⟨⟨?_, ?_⟩, ?_, ?_⟩
  · intro k _
    have hk := k.isLt
    rw [List.pairwise_cons, column, List.pairwise_map]
    constructor
    · intro j hj
      obtain ⟨b, hb, rfl⟩ := List.mem_map.mp hj
      have := List.mem_range'_1.mp hb
      rw [Earlier, if_pos (by omega)]
      omega
    · apply (List.pairwise_lt_range' (s := 1) (n := (n - 8) / 8)).imp_of_mem
      intro b c _ hc hbc
      have := List.mem_range'_1.mp hc
      rw [Earlier, if_pos (by omega)]
      omega
  · apply (List.pairwise_lt_finRange 8).imp
    intro k l hkl i hi j hj
    obtain ⟨hik, hilt⟩ := mem_column.mp hi
    obtain ⟨hjl, hjlt⟩ := mem_column.mp hj
    have hlanes : k.val < l.val := hkl
    rw [Earlier, if_pos (by omega)]
    omega
  · apply (List.pairwise_lt_range' (s := n / 8 * 8) (n := n - n / 8 * 8)).imp_of_mem
    intro i j _ hj hij
    have := List.mem_range'_1.mp hj
    rw [Earlier, if_neg (by omega)]
    exact hij
  · intro i hi j hj
    obtain ⟨k, -, hi⟩ := List.mem_flatMap.mp hi
    have hwhole := (mem_column.mp hi).2
    have htail := List.mem_range'_1.mp hj
    rw [Earlier, if_neg (by omega)]
    omega

/-! ### When they agree -/

/-- The first of the largest prices; among the prices of the whole blocks no other of the
largest is in a lower lane. -/
def FirstInLowestLane (prices : Nat → Price) (n : Nat) : Prop :=
  ∃ j < n, (∀ i < n, prices i ≤ prices j) ∧ (∀ i < j, prices i < prices j) ∧
    ∀ i < n / 8 * 8, prices i = prices j → j % 8 ≤ i % 8

theorem mem_indices {n i : Nat} (hn : 1 ≤ n) : i ∈ 0 :: List.range' 1 (n - 1) ↔ i < n := by
  rw [List.mem_cons, List.mem_range'_1]
  omega

/-- The one scan ends at the first of the largest prices. -/
theorem scalarScan_first (prices : Nat → Price) {n : Nat} (hn : 1 ≤ n) :
    let best := scalarScan prices 0 (List.range' 1 (n - 1))
    best < n ∧ (∀ i < n, prices i ≤ prices best) ∧ ∀ i < best, prices i < prices best := by
  rw [scalarScan_eq]
  intro best
  have hlt : best < n := (mem_indices hn).mp (scan_mem 0 _)
  have hmax : ∀ i < n, prices i ≤ prices best := fun i hi =>
    score_le_iff.mp (le_scan ((mem_indices hn).mpr hi))
  refine ⟨hlt, hmax, ?_⟩
  intro i hi
  by_contra hle
  have hge : score prices best ≤ score prices i := not_lt.mp fun h => hle (score_lt_iff.mp h)
  have hord : (0 :: List.range' 1 (n - 1)).Pairwise (· < ·) := by
    have := List.pairwise_lt_range' (s := 0) (n := n)
    rwa [show n = n - 1 + 1 by omega, List.range'_succ] at this
  rcases scan_first hord ((mem_indices hn).mpr (hi.trans hlt)) hge with heq | hafter
  · exact absurd heq (Nat.ne_of_gt hi)
  · exact absurd hi (Nat.lt_asymm hafter)

theorem laneOrder_cons (n : Nat) : laneOrder n = 0 :: (laneOrder n).tail := rfl

/-- The scan of the lanes ends at the first of the largest prices in the order of the lanes. -/
theorem simdScan_first (prices : Nat → Price) {n : Nat} (hn : 8 ≤ n) :
    let best := simdScan prices n
    best < n ∧ (∀ i < n, prices i ≤ prices best) ∧
      ∀ i < n, prices best ≤ prices i → best = i ∨ Earlier (n / 8 * 8) best i := by
  rw [simdScan_eq]
  intro best
  have hmem : ∀ i, i ∈ 0 :: (laneOrder n).tail ↔ i < n := by
    intro i
    rw [← laneOrder_cons]
    exact mem_laneOrder hn
  have hord : (0 :: (laneOrder n).tail).Pairwise (Earlier (n / 8 * 8)) := by
    rw [← laneOrder_cons]
    exact laneOrder_pairwise hn
  refine ⟨(hmem best).mp (scan_mem 0 _), ?_, ?_⟩
  · intro i hi
    exact score_le_iff.mp (le_scan ((hmem i).mpr hi))
  · intro i hi hge
    exact scan_first hord ((hmem i).mpr hi) (score_le_iff.mpr hge)

theorem simdScan_eq_scalar_iff (prices : Nat → Price) {n : Nat} (hn : 8 ≤ n) :
    simdScan prices n = scalarScan prices 0 (List.range' 1 (n - 1)) ↔
      FirstInLowestLane prices n := by
  obtain ⟨hlt, hmax, hfirst⟩ := simdScan_first prices hn
  obtain ⟨slt, smax, sfirst⟩ := scalarScan_first prices (n := n) (by omega)
  generalize simdScan prices n = v at *
  generalize scalarScan prices 0 (List.range' 1 (n - 1)) = s at *
  constructor
  · intro heq
    subst heq
    refine ⟨v, hlt, hmax, sfirst, ?_⟩
    intro i hi htie
    rcases hfirst i (by omega) (htie ▸ Int64.le_refl _) with rfl | hearlier
    · exact le_rfl
    · rw [Earlier, if_pos hi] at hearlier
      omega
  · intro ⟨j, hj, jmax, jfirst, hlane⟩
    have hsj : s = j := by
      rcases Nat.lt_trichotomy s j with hsj | rfl | hjs
      · exact absurd (Int64.lt_of_lt_of_le (jfirst s hsj) (smax j hj)) Int64.lt_irrefl
      · rfl
      · exact absurd (Int64.lt_of_lt_of_le (sfirst j hjs) (jmax s slt)) Int64.lt_irrefl
    have htie : prices v = prices j := Int64.le_antisymm (jmax v hlt) (hmax j hj)
    have hnotBefore : ¬ v < j := by
      intro hvj
      exact Int64.lt_irrefl (htie ▸ jfirst v hvj)
    rw [hsj]
    rcases hfirst j hj (jmax v hlt) with rfl | hearlier
    · rfl
    · exfalso
      unfold Earlier at hearlier
      split at hearlier
      · have := hlane v hearlier.1 htie
        omega
      · exact hnotBefore hearlier

/-- The two compilations of `find_max_price_idx` return the same index exactly when the first
of the largest prices lies in the lowest lane that has one of them. -/
theorem avx512_eq_scalar_iff (prices : Nat → Price) (n : Int) (hn : 1 ≤ n) :
    findMaxPriceIdxAvx512 prices n = findMaxPriceIdxScalar prices n ↔
      FirstInLowestLane prices n.toNat := by
  have hpos : ¬ n ≤ 0 := by omega
  rw [findMaxPriceIdxAvx512, findMaxPriceIdxScalar, if_neg hpos, if_neg hpos]
  by_cases hblock : n ≥ 8
  · rw [if_pos hblock, Int.natCast_inj]
    exact simdScan_eq_scalar_iff prices (by omega)
  · rw [if_neg hblock]
    apply iff_of_true rfl
    obtain ⟨hlt, hmax, hfirst⟩ := scalarScan_first prices (n := n.toNat) (by omega)
    refine ⟨_, hlt, hmax, hfirst, ?_⟩
    intro i hi
    omega

/-- Sixteen prices with the largest one at indices 2 and 9. -/
def tiedPrices (i : Nat) : Price := if i = 2 ∨ i = 9 then 800 else 100

theorem avx512_eq_scalar_iff_tied :
    (1 : Int) ≤ 16 ∧ (findMaxPriceIdxAvx512 tiedPrices 16 = findMaxPriceIdxScalar tiedPrices 16 ↔
      FirstInLowestLane tiedPrices 16) :=
  ⟨by decide, avx512_eq_scalar_iff tiedPrices 16 (by decide)⟩

/-- Lane 1 holds the maximum of index 9 and is compared before lane 2. -/
theorem avx512_tied :
    findMaxPriceIdxAvx512 tiedPrices 16 = 9 ∧ findMaxPriceIdxScalar tiedPrices 16 = 2 := by
  decide +kernel

end NanoVault.Book
