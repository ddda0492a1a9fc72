/-
The imbalance of an order book (`fastindicator/obi.hpp`).

The indicator reads the quantities of the best offer and of the best bid from the top of the
book, where a packet has put them, and scales the quotient of their difference and their sum. The
difference is scaled before it is divided, so that it has to be a million times smaller than a
64-bit number may be (`imbalance_iff`).
-/
import NanoVault.Hft.Packets

namespace NanoVault.Hft

def scalingFactor : Int64 := 1000000

structure OBI where
  tick : Int64 := 1
  count : Int64 := 0
  obiValue : Int64 := 0
deriving DecidableEq, Repr

namespace OBI

/-- `on_tick`, on the table of the indicator. -/
def onTick (obi : OBI) (t : TableColumn) : OBI :=
  if t.isTopOrderBook = false then obi
  else
    let count := obi.count + 1
    if count ≠ obi.tick then { obi with count := count }
    else
      let askQty := t.topOrderBook 1
      let bidQty := t.topOrderBook 3
      let denom := askQty + bidQty
      if denom = 0 then { obi with count := 0, obiValue := 0 }
      else { obi with count := 0, obiValue := (bidQty - askQty) * scalingFactor / denom }

/-- The exact results of the operations `on_tick` makes with the quantities. -/
def intermediates (askQty bidQty : Int64) : List Int :=
  let difference := bidQty.toInt - askQty.toInt
  (askQty.toInt + bidQty.toInt) ::
    if askQty + bidQty = 0 then []
    else [difference, difference * scalingFactor.toInt,
      (difference * scalingFactor.toInt).tdiv (askQty.toInt + bidQty.toInt)]

end OBI

/-- A 64-bit number. -/
def Fits64 (n : Int) : Prop := Int64.minValue.toInt ≤ n ∧ n ≤ Int64.maxValue.toInt

instance (n : Int) : Decidable (Fits64 n) := inferInstanceAs (Decidable (_ ∧ _))

/-- The indicator holds the scaled imbalance of these quantities, and no operation has left the
64-bit numbers. -/
structure ImbalanceHeld (obi : OBI) (askQty bidQty : Int64) : Prop where
  value : obi.obiValue.toInt =
    if askQty = 0 ∧ bidQty = 0 then 0
    else ((bidQty.toInt - askQty.toInt) * 1000000).tdiv (bidQty.toInt + askQty.toInt)
  low : -1000000 ≤ obi.obiValue.toInt
  high : obi.obiValue.toInt ≤ 1000000
  exact : ∀ n ∈ OBI.intermediates askQty bidQty, Fits64 n

/-- The sum of the quantities, and a million times their difference, are 64-bit numbers. -/
def QuantitiesSmall (askQty bidQty : Int64) : Prop :=
  askQty.toInt + bidQty.toInt < 2 ^ 63 ∧
    -9223372036854 ≤ bidQty.toInt - askQty.toInt ∧ bidQty.toInt - askQty.toInt ≤ 9223372036854

variable {obi : OBI} {askQty bidQty : Int64} {t : TableColumn}

/-! ### Quotients -/

/-- A difference over the sum is at most one, in both directions. -/
theorem tdiv_bounds {a b k : Int} (ha : 0 ≤ a) (hb : 0 ≤ b) (hk : 0 ≤ k) :
    -k ≤ ((b - a) * k).tdiv (b + a) ∧ ((b - a) * k).tdiv (b + a) ≤ k := by
  rcases Int.lt_or_eq_of_le (Int.add_nonneg hb ha) with hpos | hzero
  · have habs : ((b - a) * k).natAbs ≤ ((b + a) * k).natAbs := by
      rw [Int.natAbs_mul, Int.natAbs_mul]
      exact Nat.mul_le_mul_right _ (by omega)
    have hquot : (((b - a) * k).tdiv (b + a)).natAbs ≤ k.natAbs := by
      rw [Int.natAbs_tdiv]
      calc ((b - a) * k).natAbs / (b + a).natAbs
          ≤ ((b + a) * k).natAbs / (b + a).natAbs := Nat.div_le_div_right habs
        _ = k.natAbs := by
          rw [Int.natAbs_mul]
          exact Nat.mul_div_cancel_left _ (by omega)
    omega
  · rw [← hzero, Int.tdiv_zero]
    omega

theorem toInt_scalingFactor : scalingFactor.toInt = 1000000 := rfl

/-! ### The indicator -/

/-- An indicator of every tick is between two calls as `OBI` has made it. -/
theorem OBI.ready (tables : List TableColumn) :
    (tables.foldl OBI.onTick {}).tick = 1 ∧ (tables.foldl OBI.onTick {}).count = 0 := by
  induction tables using List.reverseRecOn with
  | nil => exact ⟨rfl, rfl⟩
  | append_singleton tables t ih =>
      obtain ⟨htick, hcount⟩ := ih
      rw [List.foldl_append, List.foldl_cons, List.foldl_nil]
      generalize tables.foldl OBI.onTick {} = obi at htick hcount
      have hdue : obi.count + 1 = obi.tick := by
        rw [htick, hcount]
        rfl
      rw [onTick]
      dsimp only
      rw [if_neg (not_not_intro hdue)]
      split
      · exact ⟨htick, hcount⟩
      · split
        · exact ⟨htick, rfl⟩
        · exact ⟨htick, rfl⟩

/-- The imbalance of small quantities. -/
theorem OBI.onTick_held (hbook : t.isTopOrderBook = true) (hdue : obi.count + 1 = obi.tick)
    (hask : 0 ≤ (t.topOrderBook 1).toInt) (hbid : 0 ≤ (t.topOrderBook 3).toInt)
    (hsmall : QuantitiesSmall (t.topOrderBook 1) (t.topOrderBook 3)) :
    ImbalanceHeld (obi.onTick t) (t.topOrderBook 1) (t.topOrderBook 3) := by
  obtain ⟨hsum, hlow, hhigh⟩ := hsmall
  have hmin : Int64.minValue.toInt = -2 ^ 63 := rfl
  have hmax : Int64.maxValue.toInt = 2 ^ 63 - 1 := rfl
  have hnone : (0 : Int64).toInt = 0 := rfl
  rw [OBI.onTick]
  dsimp only
  rw [if_neg (by rw [hbook]; exact Bool.noConfusion), if_neg (not_not_intro hdue)]
  generalize t.topOrderBook 1 = ask at *
  generalize t.topOrderBook 3 = bid at *
  have hdenom : (ask + bid).toInt = ask.toInt + bid.toInt := by
    rw [Int64.toInt_add]
    exact Int.bmod_eq_of_le (by omega) (by omega)
  have hzero : ask + bid = 0 ↔ ask = 0 ∧ bid = 0 := by
    rw [← Int64.toInt_inj, ← Int64.toInt_inj, ← Int64.toInt_inj, hdenom, hnone]
    omega
  have hbounds := tdiv_bounds hask hbid (by decide : (0 : Int) ≤ 1000000)
  by_cases hempty : ask + bid = 0
  · rw [if_pos hempty]
    refine ⟨?_, ?_, ?_, ?_⟩
    · rw [if_pos (hzero.mp hempty)]
      rfl
    · show (-1000000 : Int) ≤ (0 : Int64).toInt
      decide
    · show (0 : Int64).toInt ≤ 1000000
      decide
    · intro n hn
      rw [OBI.intermediates, if_pos hempty, List.mem_singleton] at hn
      rw [hn, Fits64]
      omega
  · have hdifference : (bid - ask).toInt = bid.toInt - ask.toInt := by
      rw [Int64.toInt_sub]
      exact Int.bmod_eq_of_le (by omega) (by omega)
    have hscaled : ((bid - ask) * scalingFactor).toInt = (bid.toInt - ask.toInt) * 1000000 := by
      rw [Int64.toInt_mul, hdifference, toInt_scalingFactor]
      exact Int.bmod_eq_of_le (by omega) (by omega)
    have hright : ask + bid ≠ -1 := by
      intro hneg
      have hminus : (-1 : Int64).toInt = -1 := rfl
      rw [hneg, hminus] at hdenom
      omega
    have hquot : ((bid - ask) * scalingFactor / (ask + bid)).toInt =
        ((bid.toInt - ask.toInt) * 1000000).tdiv (bid.toInt + ask.toInt) := by
      rw [Int64.toInt_div_of_ne_right _ _ hright, hscaled, hdenom, Int.add_comm]
    rw [if_neg hempty]
    refine ⟨?_, ?_, ?_, ?_⟩
    · rw [if_neg (hzero.not.mp hempty)]
      exact hquot
    · exact hquot ▸ hbounds.1
    · exact hquot ▸ hbounds.2
    · intro n hn
      rw [OBI.intermediates, if_neg hempty, toInt_scalingFactor,
        Int.add_comm ask.toInt] at hn
      simp only [List.mem_cons, List.not_mem_nil, or_false] at hn
      rw [Fits64]
      rcases hn with rfl | rfl | rfl | rfl <;> omega

/-- Where no operation overflows the quantities are small. -/
theorem ImbalanceHeld.small (h : ImbalanceHeld obi askQty bidQty) (hask : 0 ≤ askQty.toInt)
    (hbid : 0 ≤ bidQty.toInt) : QuantitiesSmall askQty bidQty := by
  have hmin : Int64.minValue.toInt = -2 ^ 63 := rfl
  have hmax : Int64.maxValue.toInt = 2 ^ 63 - 1 := rfl
  have hsum := h.exact _ List.mem_cons_self
  rw [Fits64] at hsum
  have hdenom : (askQty + bidQty).toInt = askQty.toInt + bidQty.toInt := by
    rw [Int64.toInt_add]
    exact Int.bmod_eq_of_le (by omega) (by omega)
  refine ⟨by omega, ?_⟩
  by_cases hempty : askQty + bidQty = 0
  · have hnone : (0 : Int64).toInt = 0 := rfl
    rw [hempty, hnone] at hdenom
    omega
  · have hscaled := h.exact ((bidQty.toInt - askQty.toInt) * scalingFactor.toInt) (by
      rw [OBI.intermediates, if_neg hempty]
      simp)
    rw [Fits64, toInt_scalingFactor] at hscaled
    omega

/-! ### Packets -/

variable {slots : SymbolAccessArray} {i : Nat}

/-- No packet gives a table a top of the book, or takes it away. -/
theorem RawPacket.process_isTopOrderBook (p : RawPacket) (slots : SymbolAccessArray) (i : Nat) :
    ((p.process slots).1 i).isTopOrderBook = (slots i).isTopOrderBook := by
  rw [process]
  cases place (readBe64 p.data 0).toInt with
  | none => rfl
  | some j =>
      dsimp only
      split
      · rfl
      · split
        · rfl
        · split
          · rfl
          · next history ptr _ =>
              obtain ⟨indicators, strategys, hslots⟩ := callBack_slots slots j
                (readBe64 p.data 0) { slots j with
                  history := history
                  topOrderBook :=
                    if (slots j).isTopOrderBook then readTop p.data ptr (slots j).topOrderBook
                    else (slots j).topOrderBook }
              rw [hslots, Function.update_apply]
              split
              · next hj => rw [hj]
              · rfl

/-- Whatever an indicator of every tick has seen before: behind a packet with the top of a book it
holds the exact imbalance of its quantities, between -1000000 and 1000000, without an overflow on
the way, exactly if these quantities are small. -/
theorem imbalance_iff {s askPrice askQty bidPrice bidQty : Int64} {values : List Int64}
    (hplace : place s.toInt = some i) (hsymbol : (slots i).symbol ≠ -1)
    (hcolumns : (slots i).columnCount ≤ maxColumn) (hbook : (slots i).isTopOrderBook = true)
    (hvalues : values.length = (slots i).columnCount) (hask : 0 ≤ askQty) (hbid : 0 ≤ bidQty)
    (rest : Bytes) (before : List TableColumn) :
    ImbalanceHeld ((before.foldl OBI.onTick {}).onTick
      (((packetOf (s :: (values ++ [askPrice, askQty, bidPrice, bidQty])) rest).process slots).1 i))
      askQty bidQty ↔ QuantitiesSmall askQty bidQty := by
  rw [Int64.le_iff_toInt_le] at hask hbid
  have htop : [askPrice, askQty, bidPrice, bidQty].length =
      if (slots i).isTopOrderBook then orderBookSize else 0 := by
    rw [hbook]
    rfl
  have hreceived := received hplace hsymbol hcolumns hvalues htop rest
  have hone := hreceived.stored 1 askQty rfl
  have hthree := hreceived.stored 3 bidQty rfl
  have hbook' := RawPacket.process_isTopOrderBook
    (packetOf (s :: (values ++ [askPrice, askQty, bidPrice, bidQty])) rest) slots i
  rw [hbook] at hbook'
  generalize ((packetOf (s :: (values ++ [askPrice, askQty, bidPrice, bidQty])) rest).process
    slots).1 i = t at hone hthree hbook'
  obtain ⟨htick, hcount⟩ := OBI.ready before
  have hdue : (before.foldl OBI.onTick {}).count + 1 = (before.foldl OBI.onTick {}).tick := by
    rw [htick, hcount]
    rfl
  constructor
  · intro h
    exact h.small hask hbid
  · intro hsmall
    subst hone hthree
    exact OBI.onTick_held hbook' hdue hask hbid hsmall

/-- A table with the top of its book. -/
def bookSlots : SymbolAccessArray :=
  Function.update (fun _ => {}) 3 { symbol := 3, columnCount := 0, isTopOrderBook := true }

theorem imbalance_iff_third :
    ImbalanceHeld (([] : List TableColumn).foldl OBI.onTick {} |>.onTick
      (((packetOf (3 :: ([] ++ [1, 100, 1, 200])) []).process bookSlots).1 3)) 100 200 ↔
      QuantitiesSmall 100 200 :=
  imbalance_iff (by decide) (by decide) (by decide) rfl rfl (by decide) (by decide) [] []

/-- A bid for 922.3372036855 coins, at ten places behind the point, and no offer. -/
theorem imbalance_wraps :
    ¬ ImbalanceHeld (OBI.onTick {}
      (((packetOf (3 :: [1, 0, 1, 9223372036855]) []).process bookSlots).1 3)) 0 9223372036855 := by
  intro h
  have hlow := h.value
  revert hlow
  decide +kernel

end NanoVault.Hft
