/-
The mean an SMA reports (`fastindicator/sma.hpp`).

Behind every push to its column the indicator is called, and samples the latest value at every
`tick`-th call. Once its window is full, it takes one value out of its sum for each it puts in:
the one that was pushed `window` pushes before, as far as the ring goes back. This is the value
that leaves the window exactly if every push is sampled and the window is smaller than the ring
(`evicted`); otherwise the first value to leave can stay in the sum for good (`sma_mean_iff`).
-/
import NanoVault.Hft.Slot
import NanoVault.Lib.Ring

namespace NanoVault.Hft

open Lib NanoVault.Table

/-! ### Calls -/

/-- A ring these values have been pushed to. -/
def ColumnRing.ofPushes (values : List Int64) : ColumnRing := values.foldl ColumnRing.push {}

/-- A push to the column, and the `on_tick` behind it. -/
def SMA.call (column : Nat) (s : (Nat → ColumnRing) × SMA) (v : Int64) :
    (Nat → ColumnRing) × SMA :=
  let history := Function.update s.1 column ((s.1 column).push v)
  (history, s.2.onTick history)

/-- The indicator after these pushes. -/
def SMA.after (column : Nat) (history : Nat → ColumnRing) (sma : SMA) (values : List Int64) : SMA :=
  (values.foldl (SMA.call column) (history, sma)).2

/-- The values at every `tick`-th call. -/
def sampled (tick : Nat) (values : List Int64) : List Int64 :=
  (List.range (values.length / tick)).map fun j => values.getD ((j + 1) * tick - 1) 0

/-- The last values, as many as the window has. -/
def lastValues (window : Nat) (values : List Int64) : List Int64 :=
  values.drop (values.length - window)

/-- The sum without any overflow. -/
def exactSum (values : List Int64) : Int := (values.map Int64.toInt).sum

/-- The mean of the last values, truncated. -/
def windowMean (window : Nat) (values : List Int64) : Int :=
  if values = [] then 0
  else (exactSum (lastValues window values)).tdiv (min values.length window : Nat)

/-- The sums of all windows are numbers of 64 bits. -/
def SumsFit (tick window : Nat) (values : List Int64) : Prop :=
  ∀ m, Int64.minValue.toInt ≤ exactSum (lastValues window (sampled tick (values.take m))) ∧
    exactSum (lastValues window (sampled tick (values.take m))) ≤ Int64.maxValue.toInt

/-- After every call the indicator reports the mean of its window. -/
def MeanReported (column : Nat) (history : Nat → ColumnRing) (sma : SMA) (values : List Int64) :
    Prop :=
  ∀ m, (sma.after column history (values.take m)).result.toInt =
    windowMean sma.window.toInt.toNat (sampled sma.tick.toInt.toNat (values.take m))

variable {tick window column n : Nat} {v : Int64} {values earlier : List Int64}
  {history : Nat → ColumnRing} {sma sma' : SMA}

/-! ### Rings -/

/-- Further values are pushed behind the earlier ones. -/
theorem ColumnRing.ofPushes_append (earlier values : List Int64) :
    ofPushes (earlier ++ values) = values.foldl push (ofPushes earlier) := List.foldl_append

theorem ColumnRing.ofPushes_concat (values : List Int64) (v : Int64) :
    ofPushes (values ++ [v]) = (ofPushes values).push v := ofPushes_append values [v]

/-- The head counts the pushes modulo the size of the ring. -/
theorem ColumnRing.head_ofPushes (values : List Int64) :
    (ofPushes values).head = values.length % maxRingSize := by
  induction values using List.reverseRecOn with
  | nil => rfl
  | append_singleton values v ih =>
      rw [ofPushes_concat, push, ih, List.length_append, List.length_singleton]
      exact Nat.mod_add_mod ..

/-- The ring holds the latest values pushed. -/
theorem ColumnRing.latest_ofPushes (values : List Int64) :
    Ring.Latest (ofPushes values).data maxRingSize values := by
  induction values using List.reverseRecOn with
  | nil => exact Ring.Latest.nil _ _
  | append_singleton values v ih =>
      rw [ofPushes_concat, push, head_ofPushes]
      exact ih.concat v

/-- The slot `back` places before the latest value holds the one that was pushed so many pushes
before it, within one lap of the ring. -/
theorem ColumnRing.get_ofPushes {values : List Int64} {i back : Nat} {v : Int64}
    (hv : values[i]? = some v) (hback : i + 1 + back % maxRingSize = values.length) :
    (ofPushes values).get ((ofPushes values).head - 1 - back) = v := by
  have hlap : back % maxRingSize < maxRingSize := Nat.mod_lt _ (by decide)
  have hslot : (((ofPushes values).head : Int) - 1 - back) % (maxRingSize : Nat) =
      (i % maxRingSize : Nat) := by
    rw [head_ofPushes, ← hback]
    unfold maxRingSize
    omega
  rw [get, hslot, Int.toNat_natCast]
  exact latest_ofPushes values i v hv (by omega)

/-! ### Samples -/

/-- One value in `tick` is sampled. -/
theorem length_sampled (tick : Nat) (values : List Int64) :
    (sampled tick values).length = values.length / tick := by
  rw [sampled, List.length_map, List.length_range]

/-- One more call samples its value, or does not. -/
theorem sampled_concat (htick : 0 < tick) (values : List Int64) (v : Int64) :
    sampled tick (values ++ [v]) =
      if tick ∣ values.length + 1 then sampled tick values ++ [v] else sampled tick values := by
  have hlength : (values ++ [v]).length = values.length + 1 := by
    rw [List.length_append, List.length_singleton]
  have hold : ∀ j ∈ List.range (values.length / tick),
      (values ++ [v]).getD ((j + 1) * tick - 1) 0 = values.getD ((j + 1) * tick - 1) 0 := by
    intro j hj
    have hfew : (j + 1) * tick ≤ values.length :=
      (Nat.le_div_iff_mul_le htick).mp (List.mem_range.mp hj)
    have hpos : 0 < (j + 1) * tick := Nat.mul_pos (Nat.succ_pos j) htick
    rw [List.getD_append _ _ _ _ (by omega)]
  rw [sampled, hlength, Nat.succ_div]
  split
  · next hdvd =>
      have hlast : (values.length / tick + 1) * tick - 1 = values.length := by
        obtain ⟨q, hq⟩ := hdvd
        have hquot : values.length / tick + 1 = q := by
          have hdiv := Nat.succ_div_of_dvd (Dvd.intro q hq.symm)
          rw [hq, Nat.mul_div_cancel_left q htick] at hdiv
          exact hdiv.symm
        rw [hquot, Nat.mul_comm, ← hq, Nat.add_sub_cancel]
      rw [List.range_succ, List.map_append, List.map_congr_left hold, List.map_singleton, hlast]
      simp [sampled]
  · rw [Nat.add_zero, List.map_congr_left hold, sampled]

/-- Where there are few values the last ones are all. -/
theorem lastValues_of_le (h : values.length ≤ window) : lastValues window values = values := by
  rw [lastValues, Nat.sub_eq_zero_of_le h, List.drop_zero]

/-- The sum with one value more. -/
theorem exactSum_concat (values : List Int64) (v : Int64) :
    exactSum (values ++ [v]) = exactSum values + v.toInt := by
  simp [exactSum]

/-- A full window loses its first value. -/
theorem exactSum_lastValues_concat {old : Int64} (hold : values[values.length - window]? = some old)
    (hfull : window ≤ values.length) (v : Int64) :
    exactSum (lastValues window (values ++ [v])) =
      exactSum (lastValues window values) + v.toInt - old.toInt := by
  obtain ⟨hlt, hget⟩ := List.getElem?_eq_some_iff.mp hold
  have hcut : lastValues window values = old :: values.drop (values.length - window + 1) := by
    rw [lastValues, List.drop_eq_getElem_cons hlt, hget]
  have hnext : lastValues window (values ++ [v]) =
      values.drop (values.length - window + 1) ++ [v] := by
    rw [lastValues, List.length_append, List.length_singleton, Nat.sub_add_comm hfull,
      List.drop_append_of_le_length (by omega)]
  rw [hnext, exactSum_concat, hcut]
  simp only [exactSum, List.map_cons, List.sum_cons]
  omega

/-! ### The invariant -/

/-- The fields of the indicator after these calls, as long as its sum is that of its window. -/
structure Tracks (tick window column : Nat) (sma : SMA) (values : List Int64) : Prop where
  ring : sma.columnRing = some column
  period : sma.tick = Int64.ofNat tick
  size : sma.window = Int64.ofNat window
  count : sma.count = Int64.ofNat (values.length % tick)
  filled : sma.filled = Int64.ofNat (min (values.length / tick) window)
  sum : sma.runningSum = Int64.ofInt (exactSum (lastValues window (sampled tick values)))

theorem ofNat_inj {a b : Nat} (ha : a < 2 ^ 63) (hb : b < 2 ^ 63) :
    Int64.ofNat a = Int64.ofNat b ↔ a = b := by
  constructor
  · intro h
    have hint := congrArg Int64.toInt h
    rw [Int64.toInt_ofNat_of_lt ha, Int64.toInt_ofNat_of_lt hb] at hint
    exact Int.natCast_inj.mp hint
  · exact congrArg Int64.ofNat

theorem ofNat_lt {a b : Nat} (ha : a < 2 ^ 63) (hb : b < 2 ^ 63) :
    Int64.ofNat a < Int64.ofNat b ↔ a < b := by
  rw [Int64.lt_iff_toInt_lt, Int64.toInt_ofNat_of_lt ha, Int64.toInt_ofNat_of_lt hb]
  exact Int.ofNat_lt

theorem ofNat_ne_neg_one (hn : n < 2 ^ 63) : Int64.ofNat n ≠ -1 := by
  intro hneg
  have hint := Int64.toInt_ofNat_of_lt hn
  have hminus : (-1 : Int64).toInt = -1 := rfl
  rw [hneg, hminus] at hint
  omega

theorem ofInt_add_toInt (n : Int) (v : Int64) : Int64.ofInt n + v = Int64.ofInt (n + v.toInt) := by
  rw [Int64.ofInt_add, Int64.ofInt_toInt]

theorem ofInt_sub_toInt (n : Int) (v : Int64) : Int64.ofInt n - v = Int64.ofInt (n - v.toInt) := by
  rw [Int64.ofInt_sub, Int64.ofInt_toInt]

section

variable (h : Tracks tick window column sma values) (htick : 0 < tick) (hticks : tick < 2 ^ 63)
  (hwindows : window < 2 ^ 63)

include h htick hticks

/-- The average takes a sample with every `tick`th value. -/
theorem Tracks.due_iff : sma.count + 1 = sma.tick ↔ tick ∣ values.length + 1 := by
  have hbelow : values.length % tick < tick := Nat.mod_lt _ htick
  have hcount : sma.count + 1 = Int64.ofNat (values.length % tick + 1) := by
    rw [h.count, Int64.ofNat_add]
    rfl
  rw [hcount, h.period, ofNat_inj (by omega) hticks, Ring.reaches_iff htick]

/-- A call between two samples. -/
theorem Tracks.skip (hdue : ¬ tick ∣ values.length + 1) (v : Int64) :
    Tracks tick window column (sma.onTick history) (values ++ [v]) := by
  have hbelow : values.length % tick < tick := Nat.mod_lt _ htick
  have hnext := Ring.succ_mod_of_lt
    (Nat.lt_of_le_of_ne hbelow ((Ring.reaches_iff htick).not.mpr hdue))
  have hsampled := sampled_concat htick values v
  rw [if_neg hdue] at hsampled
  rw [SMA.onTick, h.ring]
  dsimp only
  rw [if_pos ((h.due_iff htick hticks).not.mpr hdue)]
  refine ⟨h.ring, h.period, h.size, ?_, ?_, ?_⟩
  · rw [List.length_append, List.length_singleton, hnext, Int64.ofNat_add, ← h.count]
    rfl
  · rw [List.length_append, List.length_singleton, Nat.succ_div_of_not_dvd hdue]
    exact h.filled
  · rw [hsampled]
    exact h.sum

include hwindows

omit htick hticks in
/-- The window is not full while fewer samples than it holds were taken. -/
theorem Tracks.warm_iff : sma.filled < sma.window ↔ values.length / tick < window := by
  rw [h.filled, h.size, ofNat_lt (by omega) hwindows]
  omega

/-- A sample while the window is being filled. -/
theorem Tracks.warm (hlatest : (history column).latest = v) (hdue : tick ∣ values.length + 1)
    (hwarm : values.length / tick < window) :
    Tracks tick window column (sma.onTick history) (values ++ [v]) := by
  have hdiv : (values.length + 1) / tick = values.length / tick + 1 := Nat.succ_div_of_dvd hdue
  have hsampled := sampled_concat htick values v
  rw [if_pos hdue] at hsampled
  rw [SMA.onTick, h.ring]
  dsimp only
  rw [if_neg (not_not_intro ((h.due_iff htick hticks).mpr hdue)), hlatest,
    if_pos ((h.warm_iff hwindows).mpr hwarm)]
  refine ⟨h.ring, h.period, h.size, ?_, ?_, ?_⟩
  · rw [List.length_append, List.length_singleton, Nat.mod_eq_zero_of_dvd hdue]
    rfl
  · have hfilled : min ((values ++ [v]).length / tick) window =
        min (values.length / tick) window + 1 := by
      rw [List.length_append, List.length_singleton, hdiv]
      omega
    rw [hfilled, Int64.ofNat_add, ← h.filled]
    rfl
  · have hfew : (sampled tick values).length < window := by rwa [length_sampled]
    have hfew' : (sampled tick values ++ [v]).length ≤ window := by
      rwa [List.length_append, List.length_singleton]
    dsimp only
    rw [h.sum, hsampled, ofInt_add_toInt, lastValues_of_le hfew.le, lastValues_of_le hfew',
      exactSum_concat]

/-- A sample when the window is full. -/
theorem Tracks.onTick_full (hlatest : (history column).latest = v)
    (hdue : tick ∣ values.length + 1) (hfull : window ≤ values.length / tick) :
    sma.onTick history = { sma with
      count := 0
      runningSum := Int64.ofInt (exactSum (lastValues window (sampled tick values)) + v.toInt -
        ((history column).get ((history column).head - window - 1)).toInt) } := by
  have hwindow : sma.window.toInt = window := by
    rw [h.size, Int64.toInt_ofNat_of_lt hwindows]
  rw [SMA.onTick, h.ring]
  dsimp only
  rw [if_neg (not_not_intro ((h.due_iff htick hticks).mpr hdue)), hlatest,
    if_neg ((h.warm_iff hwindows).not.mpr (Nat.not_lt.mpr hfull)), hwindow, h.sum,
    ofInt_add_toInt, ofInt_sub_toInt]

/-- The sum stays right if the value that is taken out is the first of the window. -/
theorem Tracks.slide (hlatest : (history column).latest = v) (hdue : tick ∣ values.length + 1)
    (hfull : window ≤ values.length / tick)
    (hold : (sampled tick values)[values.length / tick - window]? =
      some ((history column).get ((history column).head - window - 1))) :
    Tracks tick window column (sma.onTick history) (values ++ [v]) := by
  have hsampled := sampled_concat htick values v
  rw [if_pos hdue] at hsampled
  rw [h.onTick_full htick hticks hwindows hlatest hdue hfull]
  refine ⟨h.ring, h.period, h.size, ?_, ?_, ?_⟩
  · rw [List.length_append, List.length_singleton, Nat.mod_eq_zero_of_dvd hdue]
    rfl
  · have hfilled : min ((values ++ [v]).length / tick) window =
        min (values.length / tick) window := by
      rw [List.length_append, List.length_singleton, Nat.succ_div_of_dvd hdue]
      omega
    rw [hfilled]
    exact h.filled
  · have hmany : window ≤ (sampled tick values).length := by rwa [length_sampled]
    rw [← length_sampled] at hold
    rw [hsampled, exactSum_lastValues_concat hold hmany]

end

/-! ### Runs -/

/-- The indicator's calls push their values into the ring. -/
theorem SMA.calls_history (column : Nat) (history : Nat → ColumnRing) (sma : SMA)
    (values : List Int64) :
    (values.foldl (SMA.call column) (history, sma)).1 column =
      values.foldl ColumnRing.push (history column) := by
  induction values generalizing history sma with
  | nil => rfl
  | cons v values ih =>
      rw [List.foldl_cons, List.foldl_cons, SMA.call, ih, Function.update_self]

/-- The last call finds the column as all pushes have left it. -/
theorem SMA.after_concat (hring : history column = .ofPushes earlier) (sma : SMA)
    (values : List Int64) (v : Int64) : ∃ history',
      sma.after column history (values ++ [v]) =
        (sma.after column history values).onTick history' ∧
      history' column = .ofPushes (earlier ++ (values ++ [v])) := by
  refine ⟨_, by rw [SMA.after, List.foldl_append]; rfl, ?_⟩
  rw [Function.update_self, SMA.calls_history, hring, ← ColumnRing.ofPushes_append,
    ← ColumnRing.ofPushes_concat, List.append_assoc]

/-- The value `on_tick` takes out of a full window. -/
theorem evicted {ring : ColumnRing} (hring : ring = .ofPushes (earlier ++ values)) {i : Nat}
    (hv : values[i]? = some v) (hback : i + 1 + window % maxRingSize = values.length) :
    ring.get (ring.head - window - 1) = v := by
  have hat : (earlier ++ values)[earlier.length + i]? = some v := by
    rw [List.getElem?_append_right (Nat.le_add_right ..), Nat.add_sub_cancel_left, hv]
  have hlap : earlier.length + i + 1 + window % maxRingSize = (earlier ++ values).length := by
    rw [List.length_append]
    omega
  rw [hring, sub_right_comm]
  exact ColumnRing.get_ofPushes hat hlap

/-- The latest value is the one just pushed. -/
theorem latest_pushed {ring : ColumnRing} (hring : ring = .ofPushes (earlier ++ (values ++ [v]))) :
    ring.latest = v := by
  have hv : (values ++ [v])[values.length]? = some v := by simp
  have hget : ring.get (ring.head - (0 : Nat) - 1) = v := evicted hring hv (by simp)
  rwa [Int.natCast_zero, Int.sub_zero] at hget

theorem sampled_one (values : List Int64) : sampled 1 values = values := by
  induction values using List.reverseRecOn with
  | nil => rfl
  | append_singleton values v ih =>
      rw [sampled_concat Nat.one_pos, if_pos (one_dvd _), ih]

/-- While the window has not been full, or every push is sampled and the window is smaller than
the ring, the sum is that of the window. -/
theorem Tracks.run (h : Tracks tick window column sma []) (htick : 0 < tick)
    (hticks : tick < 2 ^ 63) (hwindow : 0 < window) (hwindows : window < 2 ^ 63)
    (hring : history column = .ofPushes earlier)
    (hgood : tick = 1 ∧ window < maxRingSize ∨ values.length / tick ≤ window) :
    Tracks tick window column (sma.after column history values) values := by
  induction values using List.reverseRecOn with
  | nil => exact h
  | append_singleton values v ih =>
      rw [List.length_append, List.length_singleton] at hgood
      have hbefore := ih (hgood.imp_right
        (Nat.div_le_div_right (Nat.le_succ values.length)).trans)
      obtain ⟨history', hafter, hring'⟩ := SMA.after_concat hring sma values v
      rw [hafter]
      have hlatest := latest_pushed hring'
      by_cases hdue : tick ∣ values.length + 1
      · rcases Nat.lt_or_ge (values.length / tick) window with hwarm | hfull
        · exact hbefore.warm htick hticks hwindows hlatest hdue hwarm
        apply hbefore.slide htick hticks hwindows hlatest hdue hfull
        obtain ⟨rfl, hsmall⟩ : tick = 1 ∧ window < maxRingSize := by
          rw [Nat.succ_div_of_dvd hdue] at hgood
          exact hgood.resolve_right (by omega)
        rw [Nat.div_one] at hfull ⊢
        rw [sampled_one]
        have hfirst : values.length - window < values.length := by omega
        have hat := List.getElem?_eq_getElem hfirst
        have hout : (history' column).get ((history' column).head - window - 1) =
            values[values.length - window] := by
          apply evicted (i := values.length - window) hring'
          · rw [List.getElem?_append_left hfirst, hat]
          · rw [List.length_append, List.length_singleton, Nat.mod_eq_of_lt hsmall]
            omega
        rw [hat, hout]
      · exact hbefore.skip htick hticks hdue v

/-- While the sum is right and a number of 64 bits, so is the mean. -/
theorem Tracks.result (h : Tracks tick window column sma values) (hwindow : 0 < window)
    (hwindows : window < 2 ^ 63)
    (hlow : Int64.minValue.toInt ≤ exactSum (lastValues window (sampled tick values)))
    (hhigh : exactSum (lastValues window (sampled tick values)) ≤ Int64.maxValue.toInt) :
    sma.result.toInt = windowMean window (sampled tick values) := by
  have hdenom : (if sma.filled < sma.window then sma.filled else sma.window) =
      Int64.ofNat (min (values.length / tick) window) := by
    split
    · exact h.filled
    · next hfull =>
        rw [h.warm_iff hwindows, Nat.not_lt] at hfull
        rw [h.size, Nat.min_eq_right hfull]
  have hzero : Int64.ofNat (min (values.length / tick) window) = 0 ↔
      sampled tick values = [] := by
    rw [← List.length_eq_zero_iff, length_sampled]
    refine (ofNat_inj (b := 0) (by omega) (by decide)).trans ?_
    omega
  rw [SMA.result, windowMean, hdenom]
  by_cases hnone : sampled tick values = []
  · rw [if_pos (hzero.mpr hnone), if_pos hnone]
    rfl
  · have hfits : Int64.toInt (Int64.ofNat (min (values.length / tick) window)) =
        (min (values.length / tick) window : Nat) := Int64.toInt_ofNat_of_lt (by omega)
    have hpositive := ofNat_ne_neg_one (n := min (values.length / tick) window) (by omega)
    have hmax : Int64.maxValue.toInt = 2 ^ 63 - 1 := rfl
    rw [if_neg (hzero.not.mpr hnone), if_neg hnone, Int64.toInt_div_of_ne_right _ _ hpositive,
      hfits, h.sum, Int64.toInt_ofInt_of_le hlow (by omega), length_sampled]

/-! ### A value that never leaves -/

/-- As many values, zeros but for the first that is sampled. -/
def pulse (tick : Nat) (v : Int64) (n : Nat) : List Int64 :=
  (List.range n).map fun i => if i + 1 = tick then v else 0

/-- The samples of a pulse. -/
def beats (v : Int64) (k : Nat) : List Int64 :=
  (List.range k).map fun j => if j = 0 then v else 0

theorem length_pulse (tick : Nat) (v : Int64) (n : Nat) : (pulse tick v n).length = n := by
  rw [pulse, List.length_map, List.length_range]

theorem pulse_getElem? {i : Nat} (hi : i < n) (tick : Nat) (v : Int64) :
    (pulse tick v n)[i]? = some (if i + 1 = tick then v else 0) := by
  rw [pulse, List.getElem?_map, List.getElem?_range hi]
  rfl

theorem take_pulse (tick : Nat) (v : Int64) (m n : Nat) :
    (pulse tick v n).take m = pulse tick v (min m n) := by
  rw [pulse, ← List.map_take, List.take_range, pulse]

/-- Of a pulse every `tick`th value is sampled. -/
theorem sampled_pulse (htick : 0 < tick) (v : Int64) (n : Nat) :
    sampled tick (pulse tick v n) = beats v (n / tick) := by
  rw [sampled, beats, length_pulse]
  apply List.map_congr_left
  intro j hj
  have hfew : (j + 1) * tick ≤ n := (Nat.le_div_iff_mul_le htick).mp (List.mem_range.mp hj)
  have hpos : 0 < (j + 1) * tick := Nat.mul_pos (Nat.succ_pos j) htick
  have hfirst : (j + 1) * tick - 1 + 1 = tick ↔ j = 0 := by
    rw [Nat.sub_add_cancel hpos, Nat.mul_eq_right htick.ne']
    omega
  rw [List.getD_eq_getElem?_getD, pulse_getElem? (by omega)]
  simp only [Option.getD_some, hfirst]

/-- The sum of the later beats counts the first value only if none is dropped. -/
theorem exactSum_drop_beats (v : Int64) (d k : Nat) :
    exactSum ((beats v k).drop d) = if d = 0 ∧ 0 < k then v.toInt else 0 := by
  have hzeros : ∀ n, exactSum (List.replicate n 0) = 0 := by
    intro n
    simp [exactSum]
  cases k with
  | zero => simp [beats, exactSum]
  | succ k =>
      have hbeats : beats v (k + 1) = v :: List.replicate k 0 := by
        rw [beats, List.range_succ_eq_map, List.map_cons, List.map_map]
        congr 1
        exact List.eq_replicate_iff.mpr ⟨by simp, by simp⟩
      rw [hbeats]
      cases d with
      | zero =>
          simp [exactSum]
      | succ d => rw [List.drop_succ_cons, List.drop_replicate, hzeros, if_neg (by omega)]

/-- A pulse is a sequence without overflows. -/
theorem sumsFit_pulse (htick : 0 < tick) (hwindows : window < 2 ^ 63) (n : Nat) :
    SumsFit tick window (pulse tick (Int64.ofNat window) n) := by
  intro m
  have hmin : Int64.minValue.toInt = -2 ^ 63 := rfl
  have hmax : Int64.maxValue.toInt = 2 ^ 63 - 1 := rfl
  rw [take_pulse, sampled_pulse htick, lastValues, exactSum_drop_beats,
    Int64.toInt_ofNat_of_lt hwindows]
  split <;> omega

/-- Where a push is left out, or the window is as large as the ring, the value of a pulse is still
in the sum when it has left the window. -/
theorem Tracks.stuck (h : Tracks tick window column sma []) (htick : 0 < tick)
    (hticks : tick < 2 ^ 63) (hwindow : 0 < window) (hwindows : window < 2 ^ 63)
    (hring : history column = .ofPushes earlier)
    (hbad : ¬ (tick = 1 ∧ window < maxRingSize)) :
    (sma.after column history
        (pulse tick (Int64.ofNat window) ((window + 1) * tick))).result = 1 ∧
      windowMean window (sampled tick (pulse tick (Int64.ofNat window) ((window + 1) * tick))) =
        0 := by
  have hlength : 0 < (window + 1) * tick := Nat.mul_pos (Nat.succ_pos window) htick
  obtain ⟨n, hn⟩ : ∃ n, (window + 1) * tick = n + 1 := ⟨_, (Nat.succ_pred hlength.ne').symm⟩
  have hexpand : (window + 1) * tick = window * tick + tick := Nat.succ_mul window tick
  have hdue : tick ∣ n + 1 := Dvd.intro_left _ hn
  have hquot : n / tick = window := by
    have hdiv := Nat.succ_div_of_dvd hdue
    rw [← hn, Nat.mul_div_cancel _ htick] at hdiv
    omega
  have hpast : tick < n + 1 := by
    have hmore := Nat.mul_pos hwindow htick
    omega
  -- the slot that is read lies behind the pulse
  have hmissed : n + 1 - window % maxRingSize ≠ tick := by
    have hlap : window % maxRingSize < maxRingSize := Nat.mod_lt _ (by decide)
    have hless : window % maxRingSize < window * tick := by
      rcases Nat.lt_or_ge window maxRingSize with hsmall | hlarge
      · have htwice : window * 2 ≤ window * tick := Nat.mul_le_mul_left window (by omega)
        have hle := Nat.mod_le window maxRingSize
        omega
      · have honce : window * 1 ≤ window * tick := Nat.mul_le_mul_left window htick
        omega
    omega
  have hcut : pulse tick (Int64.ofNat window) (n + 1) =
      pulse tick (Int64.ofNat window) n ++ [0] := by
    rw [pulse, List.range_succ, List.map_append, List.map_singleton, if_neg (by omega), pulse]
  have hlast : (pulse tick (Int64.ofNat window) n).length = n := length_pulse _ _ _
  rw [hn]
  constructor
  · have hwarm : (pulse tick (Int64.ofNat window) n).length / tick ≤ window := by
      rw [hlast, hquot]
    have hbefore := h.run htick hticks hwindow hwindows hring (.inr hwarm)
    obtain ⟨history', hafter, hring'⟩ := SMA.after_concat hring sma
      (pulse tick (Int64.ofNat window) n) 0
    have hout : (history' column).get ((history' column).head - window - 1) = 0 := by
      rw [← hcut] at hring'
      have hle := Nat.mod_le window maxRingSize
      have hroom : window * 1 ≤ window * tick := Nat.mul_le_mul_left window htick
      apply evicted (i := n - window % maxRingSize) hring'
      · rw [pulse_getElem? (by omega), if_neg (by omega)]
      · rw [length_pulse]
        omega
    have hsum : exactSum (lastValues window (sampled tick (pulse tick (Int64.ofNat window) n))) =
        window := by
      rw [sampled_pulse htick, hquot, lastValues, exactSum_drop_beats,
        Int64.toInt_ofNat_of_lt hwindows, if_pos (by rw [beats]; simp [hwindow])]
    have hdone := hbefore.onTick_full htick hticks hwindows (latest_pushed hring')
      (by rwa [hlast]) (by rw [hlast, hquot])
    rw [hcut, hafter, hdone, hout, hsum, SMA.result]
    have hfilled := hbefore.filled
    rw [hlast, hquot, Nat.min_self] at hfilled
    dsimp only
    rw [hfilled, hbefore.size, ite_self]
    have hfits := Int64.toInt_ofNat_of_lt hwindows
    have hzero : Int64.ofNat window ≠ 0 := (ofNat_inj (b := 0) hwindows (by decide)).not.mpr
      hwindow.ne'
    have hsame : Int64.ofInt ((window : Int) + Int64.toInt 0 - Int64.toInt 0) =
        Int64.ofNat window := by
      rw [Int64.toInt_zero, Int.add_zero, Int.sub_zero]
      rfl
    apply Int64.toInt_inj.mp
    rw [hsame, if_neg hzero, Int64.toInt_div_of_ne_right _ _ (ofNat_ne_neg_one hwindows), hfits]
    exact Int.tdiv_self (by omega)
  · rw [sampled_pulse htick, ← hn, Nat.mul_div_cancel _ htick, windowMean]
    split
    · rfl
    · rw [lastValues, exactSum_drop_beats, if_neg]
      · exact Int.zero_tdiv _
      · rw [beats]
        simp

/-! ### Registered indicators -/

theorem ofNat_toNat {n : Int64} (hn : 0 ≤ n.toInt) : Int64.ofNat n.toInt.toNat = n := by
  have hsame : Int64.ofNat n.toInt.toNat = Int64.ofInt (n.toInt.toNat : Int) := rfl
  rw [hsame, Int.toNat_of_nonneg hn, Int64.ofInt_toInt]

theorem toNat_lt (n : Int64) : n.toInt.toNat < 2 ^ 63 := by
  have hlt := n.toInt_lt
  omega

/-- A window is a positive number. -/
theorem SMA.windowOf_pos {win : List Text} {n : Int64} (h : SMA.windowOf win = .ok n) :
    0 < n.toInt := by
  cases win with
  | nil => cases h
  | cons param rest =>
      rw [windowOf] at h
      split at h
      · cases h
      · split at h
        · cases h
        · next hpos =>
            cases h
            rw [Int64.le_iff_toInt_le] at hpos
            exact Int.not_le.mp hpos

/-- `set_parameter` leaves an indicator that has sampled nothing. -/
theorem SMA.setParameter_tracks {ticks columnToUse : Int64} {win : List Text} (hticks : 1 ≤ ticks)
    (hset : SMA.setParameter { tick := ticks, columnToUse := columnToUse } win = .ok sma)
    (hcolumn : sma.columnRing = some column) :
    0 < sma.tick.toInt.toNat ∧ 0 < sma.window.toInt.toNat ∧
      Tracks sma.tick.toInt.toNat sma.window.toInt.toNat column sma [] := by
  rw [setParameter] at hset
  cases hwindow : SMA.windowOf win with
  | error e =>
      rw [hwindow] at hset
      cases hset
  | ok n =>
      rw [hwindow] at hset
      cases hset
      have hpos := SMA.windowOf_pos hwindow
      have hone : (1 : Int) ≤ ticks.toInt := Int64.le_iff_toInt_le.mp hticks
      have hnone : sampled ticks.toInt.toNat [] = [] :=
        List.length_eq_zero_iff.mp ((length_sampled _ _).trans (Nat.zero_div _))
      refine ⟨?_, ?_, hcolumn, ?_, ?_, ?_, ?_, ?_⟩
      · show 0 < ticks.toInt.toNat
        omega
      · show 0 < n.toInt.toNat
        omega
      · exact (ofNat_toNat (show 0 ≤ ticks.toInt by omega)).symm
      · exact (ofNat_toNat (show 0 ≤ n.toInt by omega)).symm
      · rw [List.length_nil, Nat.zero_mod]
        rfl
      · rw [List.length_nil, Nat.zero_div, Nat.zero_min]
        rfl
      · dsimp only
        rw [hnone, lastValues, List.drop_nil]
        rfl

/-- Whatever has been pushed before, an indicator with a window that `set_parameter` accepts
reports the mean of its window after each of `n` pushes, without overflows, for every sequence of
values exactly if it samples every push into a window smaller than the ring, or samples no more
values than its window has. -/
theorem sma_mean_iff {ticks columnToUse : Int64} {win : List Text} (hticks : 1 ≤ ticks)
    (hset : SMA.setParameter { tick := ticks, columnToUse := columnToUse } win = .ok sma)
    (hcolumn : sma.columnRing = some column) (hring : history column = .ofPushes earlier)
    (n : Nat) :
    (∀ values : List Int64, values.length = n →
      SumsFit sma.tick.toInt.toNat sma.window.toInt.toNat values →
      MeanReported column history sma values) ↔
    sma.tick = 1 ∧ sma.window.toInt < maxRingSize ∨
      n / sma.tick.toInt.toNat ≤ sma.window.toInt.toNat := by
  obtain ⟨htick, hwindow, hstart⟩ := SMA.setParameter_tracks hticks hset hcolumn
  have hticks' := toNat_lt sma.tick
  have hwindows := toNat_lt sma.window
  have hevery : sma.tick = 1 ∧ sma.window.toInt < maxRingSize ↔
      sma.tick.toInt.toNat = 1 ∧ sma.window.toInt.toNat < maxRingSize := by
    have hone : (1 : Int64).toInt = 1 := rfl
    rw [← Int64.toInt_inj, hone]
    omega
  rw [hevery]
  constructor
  · intro hall
    by_contra hbad
    obtain ⟨hbad, hmany⟩ := not_or.mp hbad
    obtain ⟨hresult, hmean⟩ := hstart.stuck htick hticks' hwindow hwindows hring hbad
    have hreached : (sma.window.toInt.toNat + 1) * sma.tick.toInt.toNat ≤ n :=
      (Nat.le_div_iff_mul_le htick).mp (Nat.not_le.mp hmany)
    have hreported := hall _ (length_pulse _ (Int64.ofNat sma.window.toInt.toNat) n)
      (sumsFit_pulse htick hwindows n) ((sma.window.toInt.toNat + 1) * sma.tick.toInt.toNat)
    rw [take_pulse, Nat.min_eq_left hreached, hresult, hmean] at hreported
    cases hreported
  · intro hgood values hlength hfits m
    have hshort : (values.take m).length ≤ n := by
      rw [List.length_take, hlength]
      exact Nat.min_le_right m n
    have hrun := hstart.run htick hticks' hwindow hwindows hring
      (hgood.imp_right (Nat.div_le_div_right hshort).trans)
    exact hrun.result hwindow hwindows (hfits m).1 (hfits m).2

/-- The indicator of a window of five values. -/
def fiveWide (ticks : Int64) : SMA := { tick := ticks, window := 5, columnToUse := 0 }

theorem sma_mean_iff_fiveWide :
    (∀ values : List Int64, values.length = 10 → SumsFit 1 5 values →
      MeanReported 0 (fun _ => {}) (fiveWide 1) values) ↔
    (fiveWide 1).tick = 1 ∧ (fiveWide 1).window.toInt < maxRingSize ∨ 10 / 1 ≤ 5 :=
  have hring : (fun _ => {} : Nat → ColumnRing) 0 = .ofPushes [] := rfl
  have hset : SMA.setParameter { tick := 1, columnToUse := 0 } [['5']] = .ok (fiveWide 1) := rfl
  sma_mean_iff (by decide) hset rfl hring 10

/-- Every second of twelve values is sampled: 5, and then five zeros. The mean is still 1. -/
theorem value_stuck :
    SMA.setParameter { tick := 2, columnToUse := 0 } [['5']] = .ok (fiveWide 2) ∧
      SumsFit 2 5 [0, 5, 0, 0, 0, 0, 0, 0, 0, 0, 0, 0] ∧
      ¬ MeanReported 0 (fun _ => {}) (fiveWide 2) [0, 5, 0, 0, 0, 0, 0, 0, 0, 0, 0, 0] := by
  refine ⟨rfl, sumsFit_pulse (by decide) (by decide) 12, fun h => ?_⟩
  have hlast := h 12
  revert hlast
  decide +kernel

end NanoVault.Hft
