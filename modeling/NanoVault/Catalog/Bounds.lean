/-
The indices of `symbolAccessArray` and of its columns (`generator.hpp`, `hft.hpp`,
`IndicatorHandler.hpp`, `strategyHandler.hpp`, `initialLoad.hpp`).

A statement that has been parsed is carried out (`perform`), using elements of the arrays
(`accesses`). A variable that the parser has not set has any value. Where an index is out of range
nothing is said about what the handler does.
-/
import NanoVault.Catalog.Slots
import NanoVault.Sql.HftStatements

namespace NanoVault.Catalog

open NanoVault.Table NanoVault.Hft NanoVault.Sql

/-! ### Handlers -/

/-- `parsingFetchIndicatorStatement`; the names and their indices, in the order of the map. -/
def parsingFetchIndicatorStatement (symbol : Int64) (slots : SymbolAccessArray) :
    Except Failure (List (Text × Nat)) :=
  if (maxHftSymbol : Int) ≤ symbol.toInt then
    throw (.error ("the symbol ".toList ++ toText symbol ++
      " is greater than the max limit \n".toList))
  else
    match place symbol.toInt with
    | none => throw .outOfBounds
    | some i =>
        if (slots i).symbol = -1 then
          throw (.error ("there is no table registerd with symbol ".toList ++ toText symbol ++
            " \n".toList))
        else return (slots i).indicators.storage

/-- What is handed to `HFTStorage::pool`. -/
inductive Job where
  | liveOrders (tableSymbol : Int64) (tradeSymbol : Text)
  | ohlc (tableSymbol : Int64) (tradeSymbol time : Text)
  | orderBook (tableSymbol : Int64) (binanceSymbol : Text)
deriving DecidableEq, Repr

/-- What the handlers of SET BINANCE do: the job, if there is a table. -/
def binanceJob (tableSymbol : Int64) (job : Job) (slots : SymbolAccessArray) : Except Failure Job :=
  if tableSymbol.toInt < 0 then throw (.error "the symbol cannot be less than 0".toList)
  else
    match place tableSymbol.toInt with
    | none => throw .outOfBounds
    | some i =>
        if (slots i).symbol = -1 then
          throw (.error ("no table with symbol ".toList ++ toText tableSymbol ++ " exist".toList))
        else return job

def handleBinanceLiveOrders (tableSymbol : Int64) (tradeSymbol : Text) :
    SymbolAccessArray → Except Failure Job :=
  binanceJob tableSymbol (.liveOrders tableSymbol tradeSymbol)

def handleBinanceOhlc (tableSymbol : Int64) (time tradeSymbol : Text) :
    SymbolAccessArray → Except Failure Job :=
  binanceJob tableSymbol (.ohlc tableSymbol tradeSymbol time)

/-- `handle_binance_order_book_parsing`, up to `binanceExchange` of the slot. -/
def handleBinanceOrderBookParsing (tableSymbol : Int64) (binanceSymbol : Text) :
    SymbolAccessArray → Except Failure Job :=
  binanceJob tableSymbol (.orderBook tableSymbol binanceSymbol)

/-- The values of the variables that `from_chars` has left as they were. -/
structure Unset where
  symbol : Int64
  columnNo : Int64
  ticks : Int64

/-- How a call ended that changes nothing of the state. -/
def State.ended {α : Type} (s : State) : Except Failure α → Outcome
  | .ok _ => (s, none)
  | .error e => (s, some e)

def perform (stems : Stems) (unset : Unset) (s : State) : HftStatement → Outcome
  | .createHft name columns symbol top => execute stems s (.createHft name columns symbol top)
  | .addIndicator indicator paramas symbol columnNo ticks =>
      execute stems s (.addIndicator ⟨indicator, paramas, symbol.getD unset.symbol,
        columnNo.getD unset.columnNo, ticks.getD unset.ticks⟩)
  | .enableStrategy strategy paramas symbol ticks =>
      execute stems s (.enableStrategy ⟨strategy, paramas, symbol.getD unset.symbol,
        ticks.getD unset.ticks⟩)
  | .fetchIndicator symbol =>
      s.ended (parsingFetchIndicatorStatement (symbol.getD unset.symbol) s.symbolAccessArray)
  | .binanceApiKey _ => (s, none)
  | .binanceOrderBook tableSymbol binanceSymbol => s.ended
      (handleBinanceOrderBookParsing (tableSymbol.getD unset.symbol) binanceSymbol
        s.symbolAccessArray)
  | .binanceLiveOrders tableSymbol tradeSymbol => s.ended
      (handleBinanceLiveOrders (tableSymbol.getD unset.symbol) tradeSymbol s.symbolAccessArray)
  | .binanceOhlc tableSymbol time tradeSymbol => s.ended
      (handleBinanceOhlc (tableSymbol.getD unset.symbol) time tradeSymbol s.symbolAccessArray)

/-! ### Indices -/

/-- An element of an array that is used. -/
inductive Access where
  | symbolAccessArray (i : Int)
  | precisions (i : Int)
  | history (i : Int)
deriving DecidableEq, Repr

def Access.InRange : Access → Prop
  | .symbolAccessArray i => 0 ≤ i ∧ i < maxHftSymbol
  | .precisions i | .history i => 0 ≤ i ∧ i < maxColumn

/-- What `init` of a slot uses. -/
def initAccesses (symbol : Int) (columns : Nat) : List Access :=
  .symbolAccessArray symbol :: (List.range columns).map fun i : Nat => Access.precisions i

/-- CREATE HFT TABLE gets as far as the slot. -/
def reachesSlot (name : Text) (columns : List ColumnDefinition) (symbol : Int) (top : Bool)
    (s : State) : Bool :=
  (s.withDb fun db s => addTable { name := name, symbol := symbol, top := top, columns := columns }
    (.int (if top then 1 else 0)) (columns.map createHftColumn) db s fun s => (s, none)).2.isNone

/-- The elements the handler of a statement uses. The constructor of `SMA` looks at its column
before it takes the ring. -/
def accesses (stems : Stems) (unset : Unset) (s : State) : HftStatement → List Access
  | .createHft name columns symbol top =>
      if reachesSlot name columns symbol top s then initAccesses symbol columns.length else []
  | .addIndicator indicator _ symbol columnNo ticks =>
      if stems.indicators.contains (toLower indicator) then
        let sma : SMA :=
          { tick := ticks.getD unset.ticks, columnToUse := columnNo.getD unset.columnNo }
        .symbolAccessArray (symbol.getD unset.symbol).toInt ::
          sma.columnRing.toList.map fun column : Nat => Access.history column
      else []
  | .enableStrategy strategy _ symbol _ =>
      if stems.strategies.contains (toLower strategy) then
        [.symbolAccessArray (symbol.getD unset.symbol).toInt]
      else []
  | .fetchIndicator symbol =>
      if (maxHftSymbol : Int) ≤ (symbol.getD unset.symbol).toInt then []
      else [.symbolAccessArray (symbol.getD unset.symbol).toInt]
  | .binanceApiKey _ => []
  | .binanceOrderBook tableSymbol _ | .binanceLiveOrders tableSymbol _
  | .binanceOhlc tableSymbol _ _ =>
      if (tableSymbol.getD unset.symbol).toInt < 0 then []
      else [.symbolAccessArray (tableSymbol.getD unset.symbol).toInt]

/-- What `initialDatabseLoad` uses for a table of the file. -/
def loadAccesses (t : LoadedTable) : List Access :=
  if t.symbol = -1 then [] else initAccesses t.symbol t.columns.length

/-- The symbol has no slot, or the slot no room for the columns. -/
def OutOfRange (unset : Unset) : HftStatement → Prop
  | .createHft _ columns symbol _ => ¬ SlotFits symbol columns.length
  | .addIndicator _ _ symbol _ _ | .enableStrategy _ _ symbol _ | .fetchIndicator symbol
  | .binanceOrderBook symbol _ | .binanceLiveOrders symbol _ | .binanceOhlc symbol _ _ =>
      place (symbol.getD unset.symbol).toInt = none
  | .binanceApiKey _ => False

/-- The statement uses elements of the arrays only, and is refused before it changes anything
where its symbol or its columns are out of range. -/
structure InBounds (stems : Stems) (s : State) (stmt : HftStatement) (unset : Unset) : Prop where
  inRange : ∀ a ∈ accesses stems unset s stmt, a.InRange
  refused : OutOfRange unset stmt →
    ∃ s' e, perform stems unset s stmt = (s', some (.thrown e)) ∧ Unchanged s s'

/-- What a statement has to look like. Symbols are checked from one side only, or not at all. -/
def Permitted (stems : Stems) (s : State) : HftStatement → Prop
  | .createHft name columns symbol _ => ∀ db, s.currentDb = some db →
      (s.find? db name).isSome ∨ SlotFits symbol columns.length
  | .addIndicator indicator _ symbol _ _ => toLower indicator ∈ stems.indicators →
      ∃ v, symbol = some v ∧ 0 ≤ v.toInt ∧ v.toInt < maxHftSymbol
  | .enableStrategy strategy _ symbol _ => toLower strategy ∈ stems.strategies →
      ∃ v, symbol = some v ∧ 0 ≤ v.toInt ∧ v.toInt < maxHftSymbol
  | .fetchIndicator symbol => ∃ v, symbol = some v ∧ 0 ≤ v.toInt
  | .binanceApiKey _ => True
  | .binanceOrderBook symbol _ | .binanceLiveOrders symbol _ | .binanceOhlc symbol _ _ =>
      ∃ v, symbol = some v ∧ v.toInt < maxHftSymbol

variable {stems : Stems} {s : State} {unset : Unset} {stmt : HftStatement} {sym : Option Int64}
  {symbol : Int} {columns : Nat} {name db : Text}

/-! ### Slots -/

theorem place_eq_none : place symbol = none ↔ ¬ (0 ≤ symbol ∧ symbol < maxHftSymbol) := by
  rw [place]
  split
  · next h => exact iff_of_false (by rintro ⟨⟩) (not_not_intro h)
  · next h => exact iff_of_true rfl h

theorem slotFits_iff : SlotFits symbol columns ↔
    (0 ≤ symbol ∧ symbol < maxHftSymbol) ∧ columns ≤ maxColumn := by
  rw [SlotFits, ← Option.isSome_iff_exists, ← Option.ne_none_iff_isSome, Ne, place_eq_none, not_not]

/-- The array and the columns are used inside of their bounds exactly if the slot fits. -/
theorem initAccesses_inRange : (∀ a ∈ initAccesses symbol columns, a.InRange) ↔
    SlotFits symbol columns := by
  rw [slotFits_iff]
  constructor
  · intro h
    refine ⟨h _ List.mem_cons_self, ?_⟩
    by_contra hwide
    have hlast : Access.precisions maxColumn ∈ initAccesses symbol columns :=
      List.mem_cons_of_mem _
        (List.mem_map.mpr ⟨maxColumn, List.mem_range.mpr (not_le.mp hwide), rfl⟩)
    exact lt_irrefl _ (h _ hlast).2
  · rintro ⟨hsymbol, hcolumns⟩ a ha
    rcases List.mem_cons.mp ha with rfl | ha
    · exact hsymbol
    · obtain ⟨i, hi, rfl⟩ := List.mem_map.mp ha
      have hi := List.mem_range.mp hi
      exact ⟨Int.natCast_nonneg i, Int.ofNat_lt.mpr (lt_of_lt_of_le hi hcolumns)⟩

/-- The ring of a column is one of the array. -/
theorem columnRing_inRange (sma : SMA) :
    ∀ a ∈ sma.columnRing.toList.map fun column : Nat => Access.history column, a.InRange := by
  intro a ha
  obtain ⟨column, hcolumn, rfl⟩ := List.mem_map.mp ha
  rw [Option.mem_toList, SMA.columnRing] at hcolumn
  split at hcolumn
  · next hrange =>
      obtain rfl := Option.some.inj hcolumn
      rw [Access.InRange, Int.toNat_of_nonneg hrange.1]
      exact hrange
  · cases hcolumn

/-! ### Statements -/

/-- The slot is reached by a table that is new. -/
theorem reachesSlot_eq (h : Sound s) (hdb : s.currentDb = some db) (name : Text)
    (columns : List ColumnDefinition) (symbol : Int) (top : Bool) :
    reachesSlot name columns symbol top s = (s.find? db name).isNone := by
  have hcases := addTable_cases h hdb
    { name := name, symbol := symbol, top := top, columns := columns }
    (.int (if top then 1 else 0)) (columns.map createHftColumn) (mapM_loadColumn_hft columns)
    fun s => (s, none)
  rw [reachesSlot, State.withDb, hdb]
  rcases hcases with ⟨s', e, hsome, hadd, -⟩ | ⟨root, root', ts, hfresh, -, -, -, hadd⟩
  · dsimp only
    rw [hadd]
    obtain ⟨entry, hentry⟩ := Option.isSome_iff_exists.mp hsome
    rw [hentry]
    rfl
  · dsimp only
    rw [hadd, hfresh]
    rfl

theorem createHft_inBounds (h : Sound s) (name : Text) (columns : List ColumnDefinition)
    (symbol : Int) (top : Bool) :
    InBounds stems s (.createHft name columns symbol top) unset ↔
      Permitted stems s (.createHft name columns symbol top) := by
  cases hdb : s.currentDb with
  | none =>
      have hreaches : reachesSlot name columns symbol top s = false := by
        rw [reachesSlot, State.withDb, hdb]
        rfl
      have hrefused : perform stems unset s (.createHft name columns symbol top) =
          (s, some (.thrown (.runtimeError "No database selected. Use USE <db_name>;".toList))) := by
        rw [perform, execute, State.withDb, hdb]
        rfl
      refine iff_of_true ⟨?_, fun _ => ⟨s, _, hrefused, .refl s⟩⟩ ?_
      · rw [accesses, hreaches]
        rintro a ⟨⟩
      · intro db hsome
        rw [hdb] at hsome
        cases hsome
  | some db =>
      have hreaches := reachesSlot_eq h hdb name columns symbol top
      have hpermitted : Permitted stems s (.createHft name columns symbol top) ↔
          (s.find? db name).isSome ∨ SlotFits symbol columns.length := by
        constructor
        · intro hpermitted
          exact hpermitted db hdb
        · intro hfits db' hdb'
          obtain rfl := Option.some.inj (hdb.symm.trans hdb')
          exact hfits
      have hperform : perform stems unset s (.createHft name columns symbol top) =
          generateHFTCreateStatement
            { name := name, symbol := symbol, top := top, columns := columns } db s := by
        rw [perform, execute, State.withDb, hdb]
      rw [hpermitted]
      rcases createHft_cases h hdb name columns symbol top with
        ⟨s', e, hsome, heq, hsame⟩ | ⟨root', hadds, -⟩
      · refine iff_of_true ⟨?_, fun _ => ⟨s', e, hperform.trans heq, hsame⟩⟩ (.inl hsome)
        rw [accesses, hreaches, Option.isNone_eq_false_iff.mpr hsome]
        rintro a ⟨⟩
      · have hfresh : s.find? db name = none := hadds.fresh
        rw [hfresh] at hreaches ⊢
        constructor
        · intro hbounds
          have hrange := hbounds.inRange
          rw [accesses, hreaches] at hrange
          exact .inr (initAccesses_inRange.mp hrange)
        · rintro (⟨⟨⟩⟩ | hfits)
          refine ⟨?_, fun hout => absurd hfits hout⟩
          rw [accesses, hreaches]
          exact initAccesses_inRange.mpr hfits

/-- CREATE HFT TABLE leaves the arrays of its handler where it uses an element out of range. -/
theorem createHft_outOfBounds (h : Sound s) {columns : List ColumnDefinition} {top : Bool}
    (hout : ¬ ∀ a ∈ accesses stems unset s (.createHft name columns symbol top), a.InRange) :
    (perform stems unset s (.createHft name columns symbol top)).2 = some .outOfBounds := by
  rw [accesses] at hout
  cases hdb : s.currentDb with
  | none =>
      have hreaches : reachesSlot name columns symbol top s = false := by
        rw [reachesSlot, State.withDb, hdb]
        rfl
      rw [hreaches] at hout
      exact absurd (by rintro a ⟨⟩) hout
  | some db =>
      rw [reachesSlot_eq h hdb] at hout
      rw [perform, execute, State.withDb, hdb]
      rcases createHft_cases h hdb name columns symbol top with
        ⟨s', e, hsome, -, -⟩ | ⟨root', hadds, ⟨-, hbehind⟩ | ⟨hfits, -⟩⟩
      · rw [Option.isNone_eq_false_iff.mpr hsome] at hout
        exact absurd (by rintro a ⟨⟩) hout
      · exact hbehind
      · have hfresh : s.find? db name = none := hadds.fresh
        rw [hfresh] at hout
        exact absurd (initAccesses_inRange.mpr hfits) hout

/-- An element that is out of range is one of `symbolAccessArray`, where the others are not. -/
theorem place_of_not_inRange {a : Int} {others : List Access}
    (hothers : ∀ a ∈ others, a.InRange)
    (hout : ¬ ∀ x ∈ Access.symbolAccessArray a :: others, x.InRange) : place a = none := by
  rw [place_eq_none]
  intro hrange
  refine hout fun x hx => ?_
  rcases List.mem_cons.mp hx with rfl | hx
  · exact hrange
  · exact hothers x hx

/-- A handler leaves the arrays where it uses an element out of range. -/
theorem perform_outOfBounds (h : Sound s) :
    (¬ ∀ a ∈ accesses stems unset s stmt, a.InRange) →
      (perform stems unset s stmt).2 = some .outOfBounds := by
  have hempty : ∀ a ∈ ([] : List Access), a.InRange := by
    rintro a ⟨⟩
  have hbinance (sym : Option Int64) (job : Job)
      (hout : ¬ ∀ a ∈ (if (sym.getD unset.symbol).toInt < 0 then []
        else [Access.symbolAccessArray (sym.getD unset.symbol).toInt]), a.InRange) :
      (s.ended (binanceJob (sym.getD unset.symbol) job s.symbolAccessArray)).2 =
        some .outOfBounds := by
    rw [binanceJob]
    split_ifs at hout ⊢ with hnegative
    · exact absurd hempty hout
    · rw [place_of_not_inRange hempty hout]
      rfl
  intro hout
  cases stmt with
  | createHft name columns symbol top => exact createHft_outOfBounds h hout
  | addIndicator indicator paramas symbol columnNo ticks =>
      rw [accesses] at hout
      split_ifs at hout with hstem
      · rw [perform, execute, parsingAddIndicator, indicatorPlace]
        simp only [if_neg (not_not_intro (List.contains_iff_mem.mp hstem)),
          place_of_not_inRange (columnRing_inRange _) hout]
        rfl
      · exact absurd hempty hout
  | enableStrategy strategy paramas symbol ticks =>
      rw [accesses] at hout
      split_ifs at hout with hstem
      · rw [perform, execute, parsingAddStrategy, strategyPlace]
        simp only [if_neg (not_not_intro (List.contains_iff_mem.mp hstem)),
          place_of_not_inRange hempty hout]
        rfl
      · exact absurd hempty hout
  | fetchIndicator symbol =>
      rw [accesses] at hout
      rw [perform, parsingFetchIndicatorStatement]
      split_ifs at hout ⊢ with hlarge
      · exact absurd hempty hout
      · rw [place_of_not_inRange hempty hout]
        rfl
  | binanceApiKey key => exact absurd hempty hout
  | binanceOrderBook symbol binanceSymbol => exact hbinance symbol _ hout
  | binanceLiveOrders symbol tradeSymbol => exact hbinance symbol _ hout
  | binanceOhlc symbol time tradeSymbol => exact hbinance symbol _ hout

/-- What a handler refuses before it looks at the arrays. -/
theorem inBounds_of_refused {e : Fault} (haccesses : accesses stems unset s stmt = [])
    (hperform : perform stems unset s stmt = (s, some (.thrown e))) :
    InBounds stems s stmt unset := by
  refine ⟨?_, fun _ => ⟨s, e, hperform, .refl s⟩⟩
  rw [haccesses]
  rintro a ⟨⟩

theorem addIndicator_inBounds (indicator : Text) (paramas : List Text)
    (sym columnNo ticks : Option Int64) :
    InBounds stems s (.addIndicator indicator paramas sym columnNo ticks) unset ↔
      (toLower indicator ∈ stems.indicators →
        0 ≤ (sym.getD unset.symbol).toInt ∧ (sym.getD unset.symbol).toInt < maxHftSymbol) := by
  by_cases hstem : toLower indicator ∈ stems.indicators
  · constructor
    · intro hbounds _
      have hrange := hbounds.inRange
      rw [accesses, if_pos (List.contains_iff_mem.mpr hstem)] at hrange
      exact hrange _ List.mem_cons_self
    · intro hsymbol
      refine ⟨?_, fun hout => absurd (hsymbol hstem) (place_eq_none.mp hout)⟩
      rw [accesses, if_pos (List.contains_iff_mem.mpr hstem)]
      intro a ha
      rcases List.mem_cons.mp ha with rfl | ha
      · exact hsymbol hstem
      · exact columnRing_inRange _ a ha
  · refine iff_of_true ?_ fun hmem => absurd hmem hstem
    refine inBounds_of_refused (e := .runtimeError ("the indicator with name ".toList ++
      toLower indicator ++ " does not exist".toList)) ?_ ?_
    · rw [accesses, if_neg (mt List.contains_iff_mem.mp hstem)]
    · rw [perform, execute, parsingAddIndicator, indicatorPlace]
      simp only [if_pos hstem]
      rfl

theorem enableStrategy_inBounds (strategy : Text) (paramas : List Text)
    (sym ticks : Option Int64) :
    InBounds stems s (.enableStrategy strategy paramas sym ticks) unset ↔
      (toLower strategy ∈ stems.strategies →
        0 ≤ (sym.getD unset.symbol).toInt ∧ (sym.getD unset.symbol).toInt < maxHftSymbol) := by
  by_cases hstem : toLower strategy ∈ stems.strategies
  · constructor
    · intro hbounds _
      have hrange := hbounds.inRange
      rw [accesses, if_pos (List.contains_iff_mem.mpr hstem)] at hrange
      exact hrange _ List.mem_cons_self
    · intro hsymbol
      refine ⟨?_, fun hout => absurd (hsymbol hstem) (place_eq_none.mp hout)⟩
      rw [accesses, if_pos (List.contains_iff_mem.mpr hstem)]
      intro a ha
      rw [List.mem_singleton.mp ha]
      exact hsymbol hstem
  · refine iff_of_true ?_ fun hmem => absurd hmem hstem
    refine inBounds_of_refused (e := .runtimeError ("the strategy with name ".toList ++
      toLower strategy ++ " does not exist".toList)) ?_ ?_
    · rw [accesses, if_neg (mt List.contains_iff_mem.mp hstem)]
    · rw [perform, execute, parsingAddStrategy, strategyPlace]
      simp only [if_pos hstem]
      rfl

theorem fetchIndicator_inBounds (sym : Option Int64) :
    InBounds stems s (.fetchIndicator sym) unset ↔ 0 ≤ (sym.getD unset.symbol).toInt := by
  by_cases hlarge : (maxHftSymbol : Int) ≤ (sym.getD unset.symbol).toInt
  · have hpositive : (0 : Int) ≤ maxHftSymbol := Int.natCast_nonneg _
    refine iff_of_true ?_ (hpositive.trans hlarge)
    refine inBounds_of_refused (e := .runtimeError ("the symbol ".toList ++
      toText (sym.getD unset.symbol) ++ " is greater than the max limit \n".toList)) ?_ ?_
    · rw [accesses, if_pos hlarge]
    · rw [perform, parsingFetchIndicatorStatement, if_pos hlarge]
      rfl
  · constructor
    · intro hbounds
      have hrange := hbounds.inRange
      rw [accesses, if_neg hlarge] at hrange
      exact (hrange _ List.mem_cons_self).1
    · intro hsymbol
      refine ⟨?_, fun hout => absurd ⟨hsymbol, not_le.mp hlarge⟩ (place_eq_none.mp hout)⟩
      rw [accesses, if_neg hlarge]
      intro a ha
      rw [List.mem_singleton.mp ha]
      exact ⟨hsymbol, not_le.mp hlarge⟩

/-- The three handlers of SET BINANCE with a symbol. -/
theorem binance_inBounds (sym : Option Int64) (job : Job)
    (haccesses : accesses stems unset s stmt =
      if (sym.getD unset.symbol).toInt < 0 then []
      else [.symbolAccessArray (sym.getD unset.symbol).toInt])
    (hout : OutOfRange unset stmt ↔ place (sym.getD unset.symbol).toInt = none)
    (hperform : perform stems unset s stmt =
      s.ended (binanceJob (sym.getD unset.symbol) job s.symbolAccessArray)) :
    InBounds stems s stmt unset ↔ (sym.getD unset.symbol).toInt < maxHftSymbol := by
  by_cases hnegative : (sym.getD unset.symbol).toInt < 0
  · have hpositive : (0 : Int) ≤ maxHftSymbol := Int.natCast_nonneg _
    refine iff_of_true ?_ (hnegative.trans_le hpositive)
    refine inBounds_of_refused
      (e := .runtimeError "the symbol cannot be less than 0".toList) ?_ ?_
    · rw [haccesses, if_pos hnegative]
    · rw [hperform, binanceJob, if_pos hnegative]
      rfl
  · rw [if_neg hnegative] at haccesses
    constructor
    · intro hbounds
      have hrange := hbounds.inRange
      rw [haccesses] at hrange
      exact (hrange _ List.mem_cons_self).2
    · intro hsymbol
      refine ⟨?_, fun h => absurd ⟨not_lt.mp hnegative, hsymbol⟩ (place_eq_none.mp (hout.mp h))⟩
      rw [haccesses]
      intro a ha
      rw [List.mem_singleton.mp ha]
      exact ⟨not_lt.mp hnegative, hsymbol⟩

/-- A property of a symbol that some number does not have holds whatever the variable is left at
exactly if the symbol has been read and has the property. -/
theorem forall_unset_iff {P : Int64 → Prop} {w : Int64} (hw : ¬ P w) :
    (∀ unset : Unset, P (sym.getD unset.symbol)) ↔ ∃ v, sym = some v ∧ P v := by
  cases sym with
  | none =>
      refine iff_of_false ?_ ?_
      · intro h
        exact hw (h ⟨w, 0, 0⟩)
      · rintro ⟨v, hv, -⟩
        cases hv
  | some v =>
      constructor
      · intro h
        exact ⟨v, rfl, h ⟨0, 0, 0⟩⟩
      · rintro ⟨v', hv', h⟩ -
        obtain rfl := Option.some.inj hv'
        exact h

/-- The statement stays inside of the arrays, whatever the unset variables are left at, exactly if
it is permitted. -/
theorem inBounds_iff (h : Sound s) (stmt : HftStatement) :
    (∀ unset, InBounds stems s stmt unset) ↔ Permitted stems s stmt := by
  cases stmt with
  | createHft name columns symbol top =>
      constructor
      · intro hbounds
        exact (createHft_inBounds h name columns symbol top).mp (hbounds ⟨0, 0, 0⟩)
      · intro hpermitted unset
        exact (createHft_inBounds h name columns symbol top).mpr hpermitted
  | addIndicator indicator paramas symbol columnNo ticks =>
      refine (forall_congr' fun unset =>
        addIndicator_inBounds indicator paramas symbol columnNo ticks).trans ?_
      rw [forall_comm]
      exact forall_congr' fun _ => forall_unset_iff
        (P := fun v => 0 ≤ v.toInt ∧ v.toInt < maxHftSymbol) (w := 100) (by decide)
  | enableStrategy strategy paramas symbol ticks =>
      refine (forall_congr' fun unset =>
        enableStrategy_inBounds strategy paramas symbol ticks).trans ?_
      rw [forall_comm]
      exact forall_congr' fun _ => forall_unset_iff
        (P := fun v => 0 ≤ v.toInt ∧ v.toInt < maxHftSymbol) (w := 100) (by decide)
  | fetchIndicator symbol =>
      refine (forall_congr' fun unset => fetchIndicator_inBounds symbol).trans ?_
      exact forall_unset_iff (P := fun v => 0 ≤ v.toInt) (w := -1) (by decide)
  | binanceApiKey key =>
      refine iff_of_true (fun unset => ⟨?_, False.elim⟩) trivial
      rintro a ⟨⟩
  | binanceOrderBook symbol binanceSymbol =>
      refine (forall_congr' fun unset => binance_inBounds symbol
        (.orderBook (symbol.getD unset.symbol) binanceSymbol) rfl Iff.rfl rfl).trans ?_
      exact forall_unset_iff (P := fun v => v.toInt < maxHftSymbol) (w := 100) (by decide)
  | binanceLiveOrders symbol tradeSymbol =>
      refine (forall_congr' fun unset => binance_inBounds symbol
        (.liveOrders (symbol.getD unset.symbol) tradeSymbol) rfl Iff.rfl rfl).trans ?_
      exact forall_unset_iff (P := fun v => v.toInt < maxHftSymbol) (w := 100) (by decide)
  | binanceOhlc symbol time tradeSymbol =>
      refine (forall_congr' fun unset => binance_inBounds symbol
        (.ohlc (symbol.getD unset.symbol) tradeSymbol time) rfl Iff.rfl rfl).trans ?_
      exact forall_unset_iff (P := fun v => v.toInt < maxHftSymbol) (w := 100) (by decide)

/-! ### Runs -/

/-- The events of a run leave no array, and call nothing that has not been set. -/
def StaysInside (stems : Stems) (s : State) (e : Event) : Prop := Ends (execute stems s e).2

theorem sound_of_reach (h : (engine stems).Reach (StaysInside stems) s) : Sound s := by
  refine h.invariant (I := Sound) (fun s hs => ?_) fun s e s' hinv hends hstep => ?_
  · obtain rfl : s = {} := hs
    exact .init
  · obtain rfl := follows_ends hstep hends
    exact hinv.step hends

/-- In every state of a run that has stayed inside of the arrays, so does loading any database, and
so does a statement exactly if it is permitted. -/
theorem indices_inBounds (h : (engine stems).Reach (StaysInside stems) s) :
    (∀ db, ∀ t ∈ s.tablesIn db, ∀ a ∈ loadAccesses t, a.InRange) ∧
      ∀ tokens stmt, Sql.parse s.currentDb tokens = .ok (some stmt) →
        ((∀ unset, InBounds stems s stmt unset) ↔ Permitted stems s stmt) := by
  have hsound := sound_of_reach h
  refine ⟨?_, fun tokens stmt _ => inBounds_iff hsound stmt⟩
  intro db t ht
  cases hroot : s.metadata db with
  | none =>
      rw [State.tablesIn, hroot] at ht
      cases ht
  | some root =>
      obtain ⟨ts, hwritten, hstored⟩ := hsound.stored db root hroot
      rw [hwritten.tablesIn hroot] at ht
      rw [loadAccesses]
      split
      · rintro a ⟨⟩
      · next hsymbol => exact initAccesses_inRange.mpr ((hstored.fits t ht).resolve_left hsymbol)

/-- The state behind CREATE DATABASE d. -/
def oneDatabase : State := after noStems [.createDatabase ['d']]

theorem reach_oneDatabase : (engine noStems).Reach (StaysInside noStems) oneDatabase :=
  reach_execute (.init rfl) (.createDatabase ['d']) .none rfl

theorem indices_inBounds_oneColumn :
    ∃ tokens stmt, tokenize "create hft table t (a double precision 2) symbol 1;".toList =
        .ok tokens ∧ Sql.parse oneDatabase.currentDb tokens = .ok (some stmt) ∧
      ∀ unset, InBounds noStems oneDatabase stmt unset := by
  obtain ⟨tokens, stmt, htokens, hparse, hpermitted⟩ : ∃ tokens stmt,
      tokenize "create hft table t (a double precision 2) symbol 1;".toList = .ok tokens ∧
        Sql.parse oneDatabase.currentDb tokens = .ok (some stmt) ∧
        Permitted noStems oneDatabase stmt := by
    refine ⟨_, .createHft ['t'] [{ name := ['a'], type := "double".toList, precision := 2 }] 1
      false, rfl, rfl, ?_⟩
    intro db _
    exact .inr (slotFits_iff.mpr (by decide))
  exact ⟨tokens, stmt, htokens, hparse,
    ((indices_inBounds reach_oneDatabase).2 tokens stmt hparse).mpr hpermitted⟩

/-- The exception for the symbol 100 is made and not thrown: the slot behind the last is written. -/
theorem symbol_behind_array :
    (engine noStems).Reach (StaysInside noStems) oneDatabase ∧
      ∃ tokens stmt, tokenize "create hft table t (a double precision 2) symbol 100;".toList =
          .ok tokens ∧ Sql.parse oneDatabase.currentDb tokens = .ok (some stmt) ∧
        ∀ unset, .symbolAccessArray 100 ∈ accesses noStems unset oneDatabase stmt ∧
          ¬ InBounds noStems oneDatabase stmt unset := by
  refine ⟨reach_oneDatabase, _,
    .createHft ['t'] [{ name := ['a'], type := "double".toList, precision := 2 }] 100 false,
    rfl, rfl, ?_⟩
  intro unset
  have haccess : Access.symbolAccessArray 100 ∈ accesses noStems unset oneDatabase
      (.createHft ['t'] [{ name := ['a'], type := "double".toList, precision := 2 }] 100 false) :=
    List.mem_cons_self
  refine ⟨haccess, ?_⟩
  intro hbounds
  exact absurd (hbounds.inRange _ haccess).2 (by decide)

end NanoVault.Catalog
