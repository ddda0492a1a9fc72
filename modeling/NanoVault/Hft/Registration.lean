/-
ADD INDICATOR and ENABLE STRATEGY (`IndicatorHandler.hpp`, `strategyHandler.hpp`,
`pool.hpp`, `strategyPool.hpp`).

A registration stores its name, raises the slot's index, makes an object from the pool of its
class, and puts it into the entry under the old index. Whatever goes wrong behind the second
of these steps leaves an entry below the index that has never been written. The names that are
accepted are those of the files in `./fastindicator` and `./faststrategy` when the program was
started; the registry has fewer.
-/
import NanoVault.Hft.Slot

namespace NanoVault.Hft

open NanoVault.Table

/-- The base names `initialIndicatorLoad` and `initialStrategyLoad` have found. -/
structure Stems where
  indicators : List Text
  strategies : List Text
deriving DecidableEq, Repr

/-- How many objects `smaPool`, `basicPool` and `againPool` have handed out. -/
structure Pools where
  sma : Nat := 0
  basic : Nat := 0
  again : Nat := 0
deriving DecidableEq, Repr

/-- `AddIndicatorOnTableStatement`. -/
structure AddIndicatorStatement where
  indicator : Text
  paramas : List Text
  symbol : Int64
  columnNo : Int64
  ticks : Int64
deriving DecidableEq, Repr

/-- `AddStrategyOnTableStatement`. -/
structure AddStrategyStatement where
  strategy : Text
  paramas : List Text
  symbol : Int64
  ticks : Int64
deriving DecidableEq, Repr

/-- A factory: the entry it makes, and the pools afterwards. -/
abbrev Factory (Entry : Type) := Pools → Except Failure Entry × Pools

def indicatorRegistry (ticks columnNo : Int64) (params : List Text) (name : Text) :
    Option (Factory SMA) :=
  if name = "sma".toList then
    some fun pools =>
      if maxHftSymbol ≤ pools.sma then (throw .aborted, pools)
      else
        (({ tick := ticks, columnToUse := columnNo } : SMA).setParameter params,
          { pools with sma := pools.sma + 1 })
  else none

def strategyRegistry (ticks : Int64) (params : List Text) (name : Text) :
    Option (Factory Strategy) :=
  if name = "basic".toList then
    some fun pools =>
      if maxHftSymbol ≤ pools.basic then (throw .aborted, pools)
      else (({ tick := ticks } : Strategy).setParameter params, { pools with basic := pools.basic + 1 })
  else if name = "again".toList then
    some fun pools =>
      if maxHftSymbol ≤ pools.again then (throw .aborted, pools)
      else (({ tick := ticks } : Strategy).setParameter params, { pools with again := pools.again + 1 })
  else none

/-- `MyUtility::to_lower`. -/
def toLower (s : Text) : Text := s.map Char.toLower

/-- The name under the next index, which is raised. -/
def Registrations.claim {Entry : Type} (r : Registrations Entry) (name : Text) :
    Registrations Entry :=
  { r with storage := (name, r.index) :: r.storage, index := r.index + 1 }

/-- What both handlers do once they have found the table: the registrations, the pools, and how
the handler ends if it does not return. -/
def Registrations.add {Entry : Type} (r : Registrations Entry) (pools : Pools) (name : Text)
    (unregistered : Text) (factory : Option (Factory Entry)) :
    Registrations Entry × Pools × Option Failure :=
  if (r.storage.lookup name).isSome then
    (r, pools, some (.error ("the indiator with name ".toList ++ name ++ " already exist".toList)))
  else
    let claimed := r.claim name
    if maxNoOfIndicators ≤ claimed.index then
      (claimed, pools, some (.error "no of indicator exceeds the limit".toList))
    else
      match factory with
      | none => (claimed, pools, some (.error (unregistered ++ name)))
      | some factory =>
          match factory pools with
          | (.error e, pools) => (claimed, pools, some e)
          | (.ok entry, pools) =>
              ({ claimed with entries := Function.update claimed.entries r.index (some entry) },
                pools, none)

/-- The checks of `parsingAddIndicator`: the place of the table. -/
def indicatorPlace (stems : Stems) (stmt : AddIndicatorStatement) (slots : SymbolAccessArray) :
    Except Failure Nat :=
  let name := toLower stmt.indicator
  if name ∉ stems.indicators then
    throw (.error ("the indicator with name ".toList ++ name ++ " does not exist".toList))
  else
    match place stmt.symbol.toInt with
    | none => throw .outOfBounds
    | some i =>
        if (slots i).symbol = -1 then throw (.error "no table with this symbol exist\n".toList)
        else if ((slots i).columnCount : Int) < stmt.columnNo.toInt then
          throw (.error ("there is only ".toList ++ digits (slots i).columnCount ++
            " columns but you give the no ".toList ++ toText stmt.columnNo))
        else return i

/-- The checks of `parsingAddStrategy`. -/
def strategyPlace (stems : Stems) (stmt : AddStrategyStatement) (slots : SymbolAccessArray) :
    Except Failure Nat :=
  let name := toLower stmt.strategy
  if name ∉ stems.strategies then
    throw (.error ("the strategy with name ".toList ++ name ++ " does not exist".toList))
  else
    match place stmt.symbol.toInt with
    | none => throw .outOfBounds
    | some i =>
        if (slots i).symbol = -1 then throw (.error "no table with this symbol exist\n".toList)
        else return i

def parsingAddIndicator (stems : Stems) (stmt : AddIndicatorStatement) (slots : SymbolAccessArray)
    (pools : Pools) : SymbolAccessArray × Pools × Option Failure :=
  match indicatorPlace stems stmt slots with
  | .error e => (slots, pools, some e)
  | .ok i =>
      let name := toLower stmt.indicator
      let r := (slots i).indicators.add pools name "Indicator not registered: ".toList
        (indicatorRegistry stmt.ticks stmt.columnNo stmt.paramas name)
      (Function.update slots i { slots i with indicators := r.1 }, r.2)

def parsingAddStrategy (stems : Stems) (stmt : AddStrategyStatement) (slots : SymbolAccessArray)
    (pools : Pools) : SymbolAccessArray × Pools × Option Failure :=
  match strategyPlace stems stmt slots with
  | .error e => (slots, pools, some e)
  | .ok i =>
      let name := toLower stmt.strategy
      let r := (slots i).strategys.add pools name "strategy not registered: ".toList
        (strategyRegistry stmt.ticks stmt.paramas name)
      let indexToStrategy :=
        if ((slots i).strategys.storage.lookup name).isSome then (slots i).indexToStrategy
        else Function.update (slots i).indexToStrategy (slots i).strategys.index (some name)
      (Function.update slots i
        { slots i with strategys := r.1, indexToStrategy := indexToStrategy }, r.2)

end NanoVault.Hft
