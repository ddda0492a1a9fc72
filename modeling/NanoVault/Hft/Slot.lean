/-
The slots of `symbolAccessArray` (`hft.hpp`) and what is registered on them
(`fastindicator/sma.hpp`, `faststrategy/basic.hpp`, `faststrategy/again.hpp`).

Every HFT table has a slot: its columns' histories, the top of its order book, and the
indicators and strategies that are called for each packet. Arrays are functions from the
index. An entry of `indicators` or `strategys` that has not been written holds no object and
no callback; a written one holds the object its callbacks are called on.
-/
import NanoVault.Table.Value

namespace NanoVault.Hft

open NanoVault.Table

def maxHftSymbol : Nat := 100

def maxColumn : Nat := 16

def maxRingSize : Nat := 256

def orderBookSize : Nat := 4

/-- `MAX_NO_OF_INDICATORS`; the number of strategies is the same. -/
def maxNoOfIndicators : Nat := 128

/-- `std::from_chars` into an `int64_t`. -/
def fromChars (s : Text) : Option Int64 :=
  let signed := if s.head? = some '-' then (true, s.tail) else (false, s)
  let ds := signed.2.takeWhile Char.isDigit
  let n : Int := Nat.ofDigitChars 10 ds 0
  let v := if signed.1 then -n else n
  if ds = [] ∨ v < Int64.minValue.toInt ∨ Int64.maxValue.toInt < v then none
  else some (Int64.ofInt v)

/-- How a call ends that does not return. -/
inductive Failure where
  | thrown (e : Fault)
  | aborted
  /-- An index outside an array. -/
  | outOfBounds
  /-- A call through a pointer that has never been set. -/
  | uninitialised
deriving DecidableEq, Repr

/-- `throw std::runtime_error(what)`. -/
def Failure.error (what : Text) : Failure := .thrown (.runtimeError what)

/-! ### Histories -/

/-- The last values of a column. -/
structure ColumnRing where
  head : Nat := 0
  data : Nat → Int64 := fun _ => 0

def ColumnRing.push (r : ColumnRing) (v : Int64) : ColumnRing where
  head := (r.head + 1) % maxRingSize
  data := Function.update r.data r.head v

def ColumnRing.get (r : ColumnRing) (idx : Int) : Int64 := r.data (idx % maxRingSize).toNat

/-- `*latest_ptr()`. -/
def ColumnRing.latest (r : ColumnRing) : Int64 := r.get (r.head - 1)

/-! ### Indicators -/

structure SMA where
  runningSum : Int64 := 0
  tick : Int64
  count : Int64 := 0
  window : Int64 := 1
  filled : Int64 := 0
  columnToUse : Int64
deriving DecidableEq, Repr

namespace SMA

def columnRing (sma : SMA) : Option Nat :=
  if 0 ≤ sma.columnToUse.toInt ∧ sma.columnToUse.toInt < maxColumn then
    some sma.columnToUse.toInt.toNat
  else none

/-- The window `set_parameter` reads, of an indicator or a strategy. -/
def windowOf (win : List Text) : Except Failure Int64 :=
  match win with
  | [] => throw .outOfBounds
  | param :: _ =>
      match fromChars param with
      | none => throw (.error "Invalid SMA parameter".toList)
      | some window =>
          if window ≤ 0 then throw (.error "Invalid SMA parameter".toList) else return window

def setParameter (sma : SMA) (win : List Text) : Except Failure SMA := do
  let window ← windowOf win
  return { sma with window := window, runningSum := 0, filled := 0 }

def result (sma : SMA) : Int64 :=
  let denom := if sma.filled < sma.window then sma.filled else sma.window
  if denom = 0 then 0 else sma.runningSum / denom

/-- `on_tick`, on the histories of the table. -/
def onTick (sma : SMA) (history : Nat → ColumnRing) : SMA :=
  match sma.columnRing with
  | none => sma
  | some column =>
      let count := sma.count + 1
      if count ≠ sma.tick then { sma with count := count }
      else
        let ring := history column
        let runningSum := sma.runningSum + ring.latest
        if sma.filled < sma.window then
          { sma with count := 0, runningSum := runningSum, filled := sma.filled + 1 }
        else
          let oldVal := ring.get (ring.head - sma.window.toInt - 1)
          { sma with count := 0, runningSum := runningSum - oldVal }

end SMA

/-! ### Strategies -/

/-- A `BASIC` or an `AGAIN`; the two classes are the same but for their names. -/
structure Strategy where
  tick : Int64
  count : Int64 := 0
  window : Int64 := 1
deriving DecidableEq, Repr

namespace Strategy

def setParameter (strategy : Strategy) (win : List Text) : Except Failure Strategy := do
  let window ← SMA.windowOf win
  return { strategy with window := window }

/-- The next call of `result` asks the indicator. -/
def Due (strategy : Strategy) : Prop := strategy.count + 1 = strategy.tick

instance (strategy : Strategy) : Decidable strategy.Due :=
  inferInstanceAs (Decidable (_ = _))

/-- `result`, on the first entry of the table's indicators. -/
def result (strategy : Strategy) (first : Option SMA) : Except Failure (Bool × Strategy) :=
  if strategy.count + 1 ≠ strategy.tick then
    return (false, { strategy with count := strategy.count + 1 })
  else
    match first with
    | none => throw .uninitialised
    | some sma => return (strategy.window < sma.result, { strategy with count := 0 })

end Strategy

/-! ### Slots -/

/-- The registrations of one kind: `indicatorIndex`, `indicatorsIndexStorage` and `indicators`,
or `strategyIndex`, `strategysIndexStorage` and `strategys`. -/
structure Registrations (Entry : Type) where
  index : Nat := 0
  storage : List (Text × Nat) := []
  entries : Nat → Option Entry := fun _ => none

structure TableColumn where
  precisions : Nat → Int := fun _ => 0
  topOrderBook : Nat → Int64 := fun _ => 0
  isTopOrderBook : Bool := false
  columnCount : Nat := 0
  symbol : Int := -1
  indicators : Registrations SMA := {}
  strategys : Registrations Strategy := {}
  indexToStrategy : Nat → Option Text := fun _ => none
  history : Nat → ColumnRing := fun _ => {}

/-- `init`, with room for the columns. -/
def TableColumn.init (t : TableColumn) (precisions : List Int) (isBook : Bool) (sym : Int) :
    TableColumn :=
  { t with
    columnCount := precisions.length
    symbol := sym
    isTopOrderBook := isBook
    precisions := fun i => precisions[i]?.getD (t.precisions i)
    topOrderBook := fun _ => -1 }

abbrev SymbolAccessArray := Nat → TableColumn

/-- The place of a symbol in `symbolAccessArray`, if it has one. -/
def place (symbol : Int) : Option Nat :=
  if 0 ≤ symbol ∧ symbol < maxHftSymbol then some symbol.toNat else none

theorem place_eq_some {symbol : Int} {i : Nat} :
    place symbol = some i ↔ (i : Int) = symbol ∧ i < maxHftSymbol := by
  rw [place]
  split
  · next h =>
      rw [Option.some.injEq]
      omega
  · next h =>
      simp only [reduceCtorEq, false_iff]
      omega

end NanoVault.Hft
