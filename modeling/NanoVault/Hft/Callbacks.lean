/-
Which callbacks `process_packet` may call.

While every entry below an index has been written, a packet calls nothing that has not been set
but through a strategy that is due and asks the first indicator of a table that has none
(`processPacket_error_iff`). ADD INDICATOR and ENABLE STRATEGY keep the entries so exactly if
they do not fail behind raising the index (`Registrations.add_complete`, `unset_called`): the
name is registered, the first parameter is a positive number, and there is room.
-/
import NanoVault.Hft.Dispatch

namespace NanoVault.Hft

open NanoVault.Table

variable {Entry : Type} {r : Registrations Entry} {slots : SymbolAccessArray} {p : Packet}
  {stems : Stems} {pools : Pools} {name : Text} {i : Nat}

/-- The entries below the index have been written, and no others. -/
def Registrations.Complete (r : Registrations Entry) : Prop :=
  ∀ j, (r.entries j).isSome = true ↔ j < r.index

structure TableColumn.Complete (t : TableColumn) : Prop where
  indicators : t.indicators.Complete
  strategys : t.strategys.Complete

/-- One of the strategies a packet calls is going to ask the first indicator. -/
def TableColumn.Asks (t : TableColumn) : Prop :=
  ∃ j strategy, j < t.strategys.index ∧ t.strategys.entries j = some strategy ∧ strategy.Due

/-- A packet that is received by a table where a strategy asks the first indicator finds one. -/
def PacketSafe (slots : SymbolAccessArray) (p : Packet) : Prop :=
  ∀ i, place p.tick.toInt = some i → (slots i).symbol ≠ -1 → p.size = (slots i).expected →
    (slots i).Asks → 0 < (slots i).indicators.index

/-- The name is taken, or the entry under the next index is going to be written: there is room,
the name is in the registry and the first parameter is a positive number. -/
def RegistrationSafe (r : Registrations Entry) (name : Text) (registry : List Text)
    (params : List Text) : Prop :=
  (r.storage.lookup name).isSome ∨
    r.index + 1 < maxNoOfIndicators ∧ name ∈ registry ∧ ∃ window, SMA.windowOf params = .ok window

/-- ADD INDICATOR is refused before it changes anything, or its registration is safe. -/
def IndicatorSafe (stems : Stems) (stmt : AddIndicatorStatement) (slots : SymbolAccessArray) :
    Prop :=
  toLower stmt.indicator ∈ stems.indicators → ∃ i, place stmt.symbol.toInt = some i ∧
    ((slots i).symbol ≠ -1 → stmt.columnNo.toInt ≤ (slots i).columnCount →
      RegistrationSafe (slots i).indicators (toLower stmt.indicator) ["sma".toList] stmt.paramas)

/-- ENABLE STRATEGY is refused before it changes anything, or its registration is safe. -/
def StrategySafe (stems : Stems) (stmt : AddStrategyStatement) (slots : SymbolAccessArray) : Prop :=
  toLower stmt.strategy ∈ stems.strategies → ∃ i, place stmt.symbol.toInt = some i ∧
    ((slots i).symbol ≠ -1 →
      RegistrationSafe (slots i).strategys (toLower stmt.strategy)
        ["basic".toList, "again".toList] stmt.paramas)

/-! ### Calls -/

theorem callIndicators_cases (history : Nat → ColumnRing) (l : List Nat) (r : Registrations SMA) :
    (callIndicators history l r = .error .uninitialised ∧ ∃ i ∈ l, r.entries i = none) ∨
      ∃ r', callIndicators history l r = .ok r' ∧ (∀ i ∈ l, (r.entries i).isSome) ∧
        r'.index = r.index ∧ ∀ j, (r'.entries j).isSome = (r.entries j).isSome := by
  induction l generalizing r with
  | nil => exact .inr ⟨r, rfl, nofun, rfl, fun _ => rfl⟩
  | cons i l ih =>
      rw [callIndicators]
      cases hentry : r.entries i with
      | none => exact .inl ⟨rfl, i, List.mem_cons_self, hentry⟩
      | some sma =>
          dsimp only
          have hsame : ∀ j, ((Function.update r.entries i (some (sma.onTick history))) j).isSome =
              (r.entries j).isSome := by
            intro j
            rw [Function.update_apply]
            split
            · next hj => rw [hj, hentry]; rfl
            · rfl
          rcases ih { r with
            entries := Function.update r.entries i (some (sma.onTick history)) } with
            ⟨hcall, j, hj, hnone⟩ | ⟨r', hcall, hall, hindex, hsame'⟩
          · refine .inl ⟨hcall, j, List.mem_cons_of_mem _ hj, ?_⟩
            have hnone := congrArg Option.isSome hnone
            rw [hsame j] at hnone
            exact Option.not_isSome_iff_eq_none.mp (by rw [hnone]; exact Bool.false_ne_true)
          · refine .inr ⟨r', hcall, fun j hj => ?_, hindex, fun j => (hsame' j).trans (hsame j)⟩
            rcases List.mem_cons.mp hj with rfl | hj
            · rw [hentry]
              rfl
            · rw [← hsame j]
              exact hall j hj

/-- A strategy that is due asks the first indicator; else it counts. -/
theorem Strategy.result_cases (strategy : Strategy) (first : Option SMA) :
    (strategy.result first = .error .uninitialised ∧ strategy.Due ∧ first = none) ∨
      ∃ called, strategy.result first = .ok called ∧ ¬ (strategy.Due ∧ first = none) := by
  by_cases hdue : strategy.Due
  · cases first with
    | none => exact .inl ⟨if_neg (not_not_intro hdue), hdue, rfl⟩
    | some sma => exact .inr ⟨_, if_neg (not_not_intro hdue), fun h => nomatch h.2⟩
  · exact .inr ⟨_, if_pos hdue, fun h => hdue h.1⟩

theorem callStrategys_cases (tick : Int64) (first : Option SMA) (r : Registrations Strategy)
    {l : List Nat} (hnodup : l.Nodup) :
    (callStrategys tick first l r = .error .uninitialised ∧ ((∃ i ∈ l, r.entries i = none) ∨
        first = none ∧ ∃ i ∈ l, ∃ strategy, r.entries i = some strategy ∧ strategy.Due)) ∨
      ∃ r', callStrategys tick first l r = .ok r' ∧ (∀ i ∈ l, (r.entries i).isSome) ∧
        ¬ (first = none ∧ ∃ i ∈ l, ∃ strategy, r.entries i = some strategy ∧ strategy.Due) ∧
        r'.1.index = r.index ∧ ∀ j, (r'.1.entries j).isSome = (r.entries j).isSome := by
  induction l generalizing r with
  | nil =>
      refine .inr ⟨(r, []), rfl, nofun, ?_, rfl, fun _ => rfl⟩
      rintro ⟨-, i, hi, -⟩
      cases hi
  | cons i l ih =>
      obtain ⟨hi, hnodup⟩ := List.nodup_cons.mp hnodup
      rw [callStrategys]
      cases hentry : r.entries i with
      | none => exact .inl ⟨rfl, .inl ⟨i, List.mem_cons_self, hentry⟩⟩
      | some strategy =>
          dsimp only
          rcases strategy.result_cases first with ⟨hresult, hdue, hfirst⟩ | ⟨called, hresult, hready⟩
          · rw [hresult]
            exact .inl ⟨rfl, .inr ⟨hfirst, i, List.mem_cons_self, strategy, hentry, hdue⟩⟩
          · rw [hresult]
            -- the entries behind this one are as before
            have hothers : ∀ j ∈ l, Function.update r.entries i (some called.2) j = r.entries j :=
              fun j hj => Function.update_of_ne (ne_of_mem_of_not_mem hj hi) _ _
            rcases ih { r with entries := Function.update r.entries i (some called.2) } hnodup with
                ⟨hcall, hcause⟩ | ⟨r', hcall, hall, hnone, hindex, hsame⟩
            · refine .inl ⟨by simp only [bind, Except.bind, hcall], ?_⟩
              rcases hcause with ⟨j, hj, hcause⟩ | ⟨hfirst, j, hj, due, hcause, hdue⟩
              · exact .inl ⟨j, List.mem_cons_of_mem _ hj, (hothers j hj).symm.trans hcause⟩
              · exact .inr ⟨hfirst, j, List.mem_cons_of_mem _ hj, due,
                  (hothers j hj).symm.trans hcause, hdue⟩
            · refine .inr ⟨(r'.1, ⟨called.1, tick, i⟩ :: r'.2),
                by simp only [bind, Except.bind, hcall]; rfl, fun j hj => ?_, ?_, hindex,
                fun j => (hsame j).trans ?_⟩
              · rcases List.mem_cons.mp hj with rfl | hj
                · rw [hentry]
                  rfl
                · rw [← hothers j hj]
                  exact hall j hj
              · rintro ⟨hfirst, j, hj, due, hcause, hdue⟩
                rcases List.mem_cons.mp hj with rfl | hj
                · obtain rfl := Option.some.inj (hentry.symm.trans hcause)
                  exact hready ⟨hdue, hfirst⟩
                · exact hnone ⟨hfirst, j, hj, due, (hothers j hj).trans hcause, hdue⟩
              · show ((Function.update r.entries i (some called.2)) j).isSome = _
                rw [Function.update_apply]
                split
                · next hj => rw [hj, hentry]; rfl
                · rfl

/-! ### Packets -/

/-- A packet with nothing to do. -/
theorem processPacket_ignored (h : ∀ i, place p.tick.toInt = some i → (slots i).symbol ≠ -1 →
    p.size ≠ (slots i).expected) : processPacket slots p = .ok (slots, []) := by
  rw [processPacket]
  cases hplace : place p.tick.toInt with
  | none => rfl
  | some i =>
      refine if_pos ?_
      by_cases hsymbol : (slots i).symbol = -1
      · exact .inl hsymbol
      · exact .inr (h i hplace hsymbol)

/-- A packet that is received. -/
theorem processPacket_received (hplace : place p.tick.toInt = some i)
    (hsymbol : (slots i).symbol ≠ -1) (hsize : p.size = (slots i).expected) :
    processPacket slots p = (do
      let indicators ← callIndicators ((slots i).receive p.word).history
        (List.range (slots i).indicators.index) (slots i).indicators
      let strategys ← callStrategys p.tick (indicators.entries 0)
        (List.range (slots i).strategys.index) (slots i).strategys
      return (Function.update slots i { (slots i).receive p.word with
        indicators := indicators, strategys := strategys.1 }, strategys.2)) := by
  rw [processPacket, hplace]
  exact if_neg (not_or.mpr ⟨hsymbol, not_not_intro hsize⟩)

/-- An entry below the index that has not been written is called by the next packet. -/
theorem unset_called (hplace : place p.tick.toInt = some i) (hsymbol : (slots i).symbol ≠ -1)
    (hsize : p.size = (slots i).expected)
    (hunset : (∃ j < (slots i).indicators.index, (slots i).indicators.entries j = none) ∨
      ∃ j < (slots i).strategys.index, (slots i).strategys.entries j = none) :
    processPacket slots p = .error .uninitialised := by
  rw [processPacket_received hplace hsymbol hsize]
  rcases callIndicators_cases ((slots i).receive p.word).history
    (List.range (slots i).indicators.index) (slots i).indicators with
    ⟨hcall, -⟩ | ⟨indicators, hcall, hall, -, -⟩
  · rw [hcall]
    rfl
  · rw [hcall]
    rcases hunset with ⟨j, hj, hnone⟩ | ⟨j, hj, hnone⟩
    · have hsome := hall j (List.mem_range.mpr hj)
      rw [hnone] at hsome
      cases hsome
    · simp only [bind, Except.bind]
      rcases callStrategys_cases p.tick (indicators.entries 0) (slots i).strategys
        (List.nodup_range (n := (slots i).strategys.index)) with
        ⟨hcall', -⟩ | ⟨strategys, -, hall', -⟩
      · rw [hcall']
      · have hsome := hall' j (List.mem_range.mpr hj)
        rw [hnone] at hsome
        cases hsome

/-- Where all entries below the indices have been written, a packet calls only what has been set,
and keeps them so, exactly if it is safe. -/
theorem processPacket_cases (h : ∀ i, (slots i).Complete) (p : Packet) :
    (processPacket slots p = .error .uninitialised ∧ ¬ PacketSafe slots p) ∨
      ∃ r, processPacket slots p = .ok r ∧ PacketSafe slots p ∧ ∀ i, (r.1 i).Complete := by
  by_cases hreceived : ∃ i, place p.tick.toInt = some i ∧ (slots i).symbol ≠ -1 ∧
      p.size = (slots i).expected
  · obtain ⟨i, hplace, hsymbol, hsize⟩ := hreceived
    obtain ⟨hindicators, hstrategys⟩ := h i
    rw [processPacket_received hplace hsymbol hsize]
    rcases callIndicators_cases ((slots i).receive p.word).history
      (List.range (slots i).indicators.index) (slots i).indicators with
      ⟨-, j, hj, hnone⟩ | ⟨indicators, hcall, -, hindex, hsame⟩
    · have hsome := (hindicators j).mpr (List.mem_range.mp hj)
      rw [hnone] at hsome
      cases hsome
    · have hfirst : indicators.entries 0 = none ↔ (slots i).indicators.index = 0 := by
        rw [← Option.not_isSome_iff_eq_none, hsame, hindicators, Nat.not_lt, Nat.le_zero]
      rw [hcall]
      simp only [bind, Except.bind]
      rcases callStrategys_cases p.tick (indicators.entries 0) (slots i).strategys
        (List.nodup_range (n := (slots i).strategys.index)) with
        ⟨hcall', hcause⟩ | ⟨strategys, hcall', -, hready, hindex', hsame'⟩
      · rw [hcall']
        refine .inl ⟨rfl, fun hsafe => ?_⟩
        rcases hcause with ⟨j, hj, hnone⟩ | ⟨hnone, j, hj, strategy, hentry, hdue⟩
        · have hsome := (hstrategys j).mpr (List.mem_range.mp hj)
          rw [hnone] at hsome
          cases hsome
        · have hpos := hsafe i hplace hsymbol hsize
            ⟨j, strategy, List.mem_range.mp hj, hentry, hdue⟩
          exact absurd (hfirst.mp hnone) (Nat.pos_iff_ne_zero.mp hpos)
      · rw [hcall']
        refine .inr ⟨_, rfl, fun i' hplace' _ _ hasks => ?_, fun j => ?_⟩
        · obtain rfl := Option.some.inj (hplace.symm.trans hplace')
          obtain ⟨j, strategy, hj, hentry, hdue⟩ := hasks
          refine Nat.pos_of_ne_zero fun hzero => hready ⟨hfirst.mpr hzero, j, ?_⟩
          exact ⟨List.mem_range.mpr hj, strategy, hentry, hdue⟩
        · dsimp only
          rw [Function.update_apply]
          split
          · exact ⟨fun k => by rw [hsame, hindex]; exact hindicators k,
              fun k => by rw [hsame', hindex']; exact hstrategys k⟩
          · exact h j
  · refine .inr ⟨(slots, []), processPacket_ignored fun i hplace hsymbol hsize => ?_,
      fun i hplace hsymbol hsize => ?_, h⟩
    · exact hreceived ⟨i, hplace, hsymbol, hsize⟩
    · exact absurd ⟨i, hplace, hsymbol, hsize⟩ hreceived

theorem processPacket_error_iff (h : ∀ i, (slots i).Complete) (p : Packet) :
    processPacket slots p = .error .uninitialised ↔ ¬ PacketSafe slots p := by
  rcases processPacket_cases h p with ⟨hcall, hbad⟩ | ⟨r, hcall, hsafe, -⟩
  · exact ⟨fun _ => hbad, fun _ => hcall⟩
  · refine ⟨fun herror => ?_, fun hbad => absurd hsafe hbad⟩
    rw [hcall] at herror
    cases herror

/-! ### Registrations -/

/-- The call returned, or threw something that is caught. -/
def Answered (f : Option Failure) : Prop := f = none ∨ ∃ e, f = some (.thrown e)

/-- A safe registration writes its entry, unless the pool is empty and the process ends. -/
theorem Registrations.add_complete {registry params : List Text} (pools : Pools)
    (unregistered : Text) {factory : Option (Factory Entry)} (h : r.Complete)
    (hsafe : RegistrationSafe r name registry params)
    (hfactory : name ∈ registry → (∃ window, SMA.windowOf params = .ok window) →
      ∃ f, factory = some f ∧
        ∀ pools, (f pools).1 = .error .aborted ∨ ∃ entry, (f pools).1 = .ok entry) :
    (r.add pools name unregistered factory).1.Complete ∧
        Answered (r.add pools name unregistered factory).2.2 ∨
      (r.add pools name unregistered factory).2.2 = some .aborted := by
  rw [Registrations.add]
  split
  · exact .inl ⟨h, .inr ⟨_, rfl⟩⟩
  · next hname =>
      obtain ⟨hroom, hregistered, hwindow⟩ := hsafe.resolve_left hname
      have hclaimed : (r.claim name).index = r.index + 1 := rfl
      obtain ⟨f, rfl, hmade⟩ := hfactory hregistered hwindow
      dsimp only
      rw [hclaimed, if_neg (Nat.not_le.mpr hroom)]
      have hmade := hmade pools
      generalize f pools = made at hmade
      obtain ⟨made, pools'⟩ := made
      rcases hmade with rfl | ⟨entry, rfl⟩
      · exact .inr rfl
      · refine .inl ⟨fun j => ?_, .inl rfl⟩
        show (Function.update r.entries r.index (some entry) j).isSome = true ↔ j < r.index + 1
        rw [Function.update_apply]
        split
        · next hj => simp [hj]
        · next hj =>
            rw [h j]
            omega

/-- An unsafe registration raises the index and leaves the entry, unless the process ends. -/
theorem Registrations.add_unset {registry params : List Text} (pools : Pools)
    (unregistered : Text) {factory : Option (Factory Entry)} (h : r.Complete)
    (hbad : ¬ RegistrationSafe r name registry params)
    (hfactory : ∀ f, factory = some f → name ∈ registry ∧
      ∀ pools entry, (f pools).1 = .ok entry → ∃ window, SMA.windowOf params = .ok window) :
    (∃ j < (r.add pools name unregistered factory).1.index,
        (r.add pools name unregistered factory).1.entries j = none) ∧
      (r.add pools name unregistered factory).2.2 ≠ none := by
  obtain ⟨hname, hfails⟩ := not_or.mp hbad
  have hunset : ∃ j < (r.claim name).index, (r.claim name).entries j = none :=
    ⟨r.index, Nat.lt_succ_self _, Option.not_isSome_iff_eq_none.mp fun hsome =>
      absurd ((h r.index).mp hsome) (Nat.lt_irrefl _)⟩
  have hclaimed : (r.claim name).index = r.index + 1 := rfl
  rw [Registrations.add, if_neg hname]
  dsimp only
  split
  · exact ⟨hunset, nofun⟩
  · next hroom =>
      rw [hclaimed, Nat.not_le] at hroom
      cases factory with
      | none => exact ⟨hunset, nofun⟩
      | some f =>
          obtain ⟨hregistered, hmade⟩ := hfactory f rfl
          have hmade := hmade pools
          dsimp only
          generalize f pools = made at hmade
          obtain ⟨made, pools'⟩ := made
          cases made with
          | error e => exact ⟨hunset, nofun⟩
          | ok entry => exact absurd ⟨hroom, hregistered, hmade entry rfl⟩ hfails

/-- A factory of one of the classes: the pool, and then the parameter. -/
def pooled {β : Type} (used : Pools → Nat) (hand : Pools → Pools) (params : List Text)
    (make : Int64 → β) : Factory β :=
  fun pools =>
    if maxHftSymbol ≤ used pools then (throw .aborted, pools)
    else (do let window ← SMA.windowOf params; return make window, hand pools)

theorem pooled_returns {β : Type} {used : Pools → Nat} {hand : Pools → Pools} {params : List Text}
    {make : Int64 → β} (hwindow : ∃ window, SMA.windowOf params = .ok window) (pools : Pools) :
    (pooled used hand params make pools).1 = .error .aborted ∨
      ∃ entry, (pooled used hand params make pools).1 = .ok entry := by
  obtain ⟨window, hwindow⟩ := hwindow
  rw [pooled]
  split
  · exact .inl rfl
  · rw [hwindow]
    exact .inr ⟨make window, rfl⟩

theorem pooled_window {β : Type} {used : Pools → Nat} {hand : Pools → Pools} {params : List Text}
    {make : Int64 → β} {entry : β} (h : (pooled used hand params make pools).1 = .ok entry) :
    ∃ window, SMA.windowOf params = .ok window := by
  rw [pooled] at h
  split at h
  · cases h
  · cases hwindow : SMA.windowOf params with
    | error e =>
        rw [hwindow] at h
        cases h
    | ok window => exact ⟨window, rfl⟩

theorem indicatorRegistry_eq (ticks columnNo : Int64) (params : List Text) (name : Text) :
    indicatorRegistry ticks columnNo params name =
      if name = "sma".toList then
        some (pooled Pools.sma (fun pools => { pools with sma := pools.sma + 1 }) params
          fun window => { tick := ticks, columnToUse := columnNo, window := window })
      else none := rfl

theorem strategyRegistry_eq (ticks : Int64) (params : List Text) (name : Text) :
    strategyRegistry ticks params name =
      if name = "basic".toList then
        some (pooled Pools.basic (fun pools => { pools with basic := pools.basic + 1 }) params
          fun window => { tick := ticks, window := window })
      else if name = "again".toList then
        some (pooled Pools.again (fun pools => { pools with again := pools.again + 1 }) params
          fun window => { tick := ticks, window := window })
      else none := rfl

theorem indicatorPlace_eq {stmt : AddIndicatorStatement}
    (hstem : toLower stmt.indicator ∈ stems.indicators) (hplace : place stmt.symbol.toInt = some i)
    (hsymbol : (slots i).symbol ≠ -1) (hcolumn : stmt.columnNo.toInt ≤ (slots i).columnCount) :
    indicatorPlace stems stmt slots = .ok i := by
  rw [indicatorPlace, if_neg (not_not_intro hstem), hplace]
  exact (if_neg hsymbol).trans (if_neg (Int.not_lt.mpr hcolumn))

theorem strategyPlace_eq {stmt : AddStrategyStatement}
    (hstem : toLower stmt.strategy ∈ stems.strategies) (hplace : place stmt.symbol.toInt = some i)
    (hsymbol : (slots i).symbol ≠ -1) : strategyPlace stems stmt slots = .ok i := by
  rw [strategyPlace, if_neg (not_not_intro hstem), hplace]
  exact if_neg hsymbol

/-- `parsingAddIndicator` is refused by its checks, or registers. -/
theorem parsingAddIndicator_cases (stems : Stems) (stmt : AddIndicatorStatement)
    (slots : SymbolAccessArray) (pools : Pools) :
    (∃ e, parsingAddIndicator stems stmt slots pools = (slots, pools, some (.thrown e))) ∨
      (toLower stmt.indicator ∈ stems.indicators ∧ place stmt.symbol.toInt = none) ∨
      ∃ i, toLower stmt.indicator ∈ stems.indicators ∧ place stmt.symbol.toInt = some i ∧
        (slots i).symbol ≠ -1 ∧ stmt.columnNo.toInt ≤ (slots i).columnCount ∧
        indicatorPlace stems stmt slots = .ok i := by
  rw [parsingAddIndicator, indicatorPlace]
  dsimp only
  by_cases hstem : toLower stmt.indicator ∈ stems.indicators
  · rw [if_neg (not_not_intro hstem)]
    cases hplace : place stmt.symbol.toInt with
    | none => exact .inr (.inl ⟨hstem, rfl⟩)
    | some i =>
        dsimp only
        by_cases hsymbol : (slots i).symbol = -1
        · rw [if_pos hsymbol]
          exact .inl ⟨_, rfl⟩
        · rw [if_neg hsymbol]
          by_cases hcolumn : ((slots i).columnCount : Int) < stmt.columnNo.toInt
          · rw [if_pos hcolumn]
            exact .inl ⟨_, rfl⟩
          · rw [if_neg hcolumn]
            exact .inr (.inr ⟨i, hstem, rfl, hsymbol, Int.not_lt.mp hcolumn, rfl⟩)
  · rw [if_pos hstem]
    exact .inl ⟨_, rfl⟩

theorem parsingAddStrategy_cases (stems : Stems) (stmt : AddStrategyStatement)
    (slots : SymbolAccessArray) (pools : Pools) :
    (∃ e, parsingAddStrategy stems stmt slots pools = (slots, pools, some (.thrown e))) ∨
      (toLower stmt.strategy ∈ stems.strategies ∧ place stmt.symbol.toInt = none) ∨
      ∃ i, toLower stmt.strategy ∈ stems.strategies ∧ place stmt.symbol.toInt = some i ∧
        (slots i).symbol ≠ -1 ∧ strategyPlace stems stmt slots = .ok i := by
  rw [parsingAddStrategy, strategyPlace]
  dsimp only
  by_cases hstem : toLower stmt.strategy ∈ stems.strategies
  · rw [if_neg (not_not_intro hstem)]
    cases hplace : place stmt.symbol.toInt with
    | none => exact .inr (.inl ⟨hstem, rfl⟩)
    | some i =>
        dsimp only
        by_cases hsymbol : (slots i).symbol = -1
        · rw [if_pos hsymbol]
          exact .inl ⟨_, rfl⟩
        · rw [if_neg hsymbol]
          exact .inr (.inr ⟨i, hstem, rfl, hsymbol, rfl⟩)
  · rw [if_pos hstem]
    exact .inl ⟨_, rfl⟩

theorem indicatorRegistry_safe (ticks columnNo : Int64) {params : List Text}
    (hname : name ∈ ["sma".toList]) (hwindow : ∃ window, SMA.windowOf params = .ok window) :
    ∃ f, indicatorRegistry ticks columnNo params name = some f ∧
      ∀ pools, (f pools).1 = .error .aborted ∨ ∃ entry, (f pools).1 = .ok entry := by
  rw [indicatorRegistry_eq, if_pos (List.mem_singleton.mp hname)]
  exact ⟨_, rfl, pooled_returns hwindow⟩

theorem indicatorRegistry_some {ticks columnNo : Int64} {params : List Text} {f : Factory SMA}
    (h : indicatorRegistry ticks columnNo params name = some f) : name ∈ ["sma".toList] ∧
      ∀ pools entry, (f pools).1 = .ok entry → ∃ window, SMA.windowOf params = .ok window := by
  rw [indicatorRegistry_eq] at h
  split at h
  · next hname =>
      obtain rfl := Option.some.inj h
      exact ⟨List.mem_singleton.mpr hname, fun pools entry => pooled_window⟩
  · cases h

theorem strategyRegistry_safe (ticks : Int64) {params : List Text}
    (hname : name ∈ ["basic".toList, "again".toList])
    (hwindow : ∃ window, SMA.windowOf params = .ok window) :
    ∃ f, strategyRegistry ticks params name = some f ∧
      ∀ pools, (f pools).1 = .error .aborted ∨ ∃ entry, (f pools).1 = .ok entry := by
  rw [strategyRegistry_eq]
  split
  · exact ⟨_, rfl, pooled_returns hwindow⟩
  · next hbasic =>
      have hagain := List.mem_singleton.mp ((List.mem_cons.mp hname).resolve_left hbasic)
      rw [if_pos hagain]
      exact ⟨_, rfl, pooled_returns hwindow⟩

theorem strategyRegistry_some {ticks : Int64} {params : List Text} {f : Factory Strategy}
    (h : strategyRegistry ticks params name = some f) :
    name ∈ ["basic".toList, "again".toList] ∧
      ∀ pools entry, (f pools).1 = .ok entry → ∃ window, SMA.windowOf params = .ok window := by
  rw [strategyRegistry_eq] at h
  split at h
  · next hname =>
      obtain rfl := Option.some.inj h
      exact ⟨hname ▸ List.mem_cons_self, fun pools entry => pooled_window⟩
  · split at h
    · next hname =>
        obtain rfl := Option.some.inj h
        exact ⟨List.mem_cons_of_mem _ (List.mem_singleton.mpr hname),
          fun pools entry => pooled_window⟩
    · cases h

/-- ADD INDICATOR. -/
theorem parsingAddIndicator_complete (h : ∀ i, (slots i).Complete) {stmt : AddIndicatorStatement}
    (hsafe : IndicatorSafe stems stmt slots) (pools : Pools) :
    (∀ i, ((parsingAddIndicator stems stmt slots pools).1 i).Complete) ∧
        Answered (parsingAddIndicator stems stmt slots pools).2.2 ∨
      (parsingAddIndicator stems stmt slots pools).2.2 = some .aborted := by
  rcases parsingAddIndicator_cases stems stmt slots pools with
    ⟨e, heq⟩ | ⟨hstem, hplace⟩ | ⟨i, hstem, hplace, hsymbol, hcolumn, hchecks⟩
  · rw [heq]
    exact .inl ⟨h, .inr ⟨e, rfl⟩⟩
  · obtain ⟨i, hplace', -⟩ := hsafe hstem
    cases hplace.symm.trans hplace'
  · obtain ⟨i', hplace', hregistration⟩ := hsafe hstem
    obtain rfl := Option.some.inj (hplace.symm.trans hplace')
    have hadd := Registrations.add_complete pools
      "Indicator not registered: ".toList (h i).indicators
      (hregistration hsymbol hcolumn)
      fun hname hwindow => indicatorRegistry_safe stmt.ticks stmt.columnNo hname hwindow
    rw [parsingAddIndicator, hchecks]
    dsimp only
    refine hadd.imp_left fun hadded => ⟨fun j => ?_, hadded.2⟩
    rw [Function.update_apply]
    split
    · exact ⟨hadded.1, (h i).strategys⟩
    · exact h j

/-- ENABLE STRATEGY. -/
theorem parsingAddStrategy_complete (h : ∀ i, (slots i).Complete) {stmt : AddStrategyStatement}
    (hsafe : StrategySafe stems stmt slots) (pools : Pools) :
    (∀ i, ((parsingAddStrategy stems stmt slots pools).1 i).Complete) ∧
        Answered (parsingAddStrategy stems stmt slots pools).2.2 ∨
      (parsingAddStrategy stems stmt slots pools).2.2 = some .aborted := by
  rcases parsingAddStrategy_cases stems stmt slots pools with
    ⟨e, heq⟩ | ⟨hstem, hplace⟩ | ⟨i, hstem, hplace, hsymbol, hchecks⟩
  · rw [heq]
    exact .inl ⟨h, .inr ⟨e, rfl⟩⟩
  · obtain ⟨i, hplace', -⟩ := hsafe hstem
    cases hplace.symm.trans hplace'
  · obtain ⟨i', hplace', hregistration⟩ := hsafe hstem
    obtain rfl := Option.some.inj (hplace.symm.trans hplace')
    have hadd := Registrations.add_complete pools
      "strategy not registered: ".toList (h i).strategys (hregistration hsymbol)
      fun hname hwindow => strategyRegistry_safe stmt.ticks hname hwindow
    rw [parsingAddStrategy, hchecks]
    dsimp only
    refine hadd.imp_left fun hadded => ⟨fun j => ?_, hadded.2⟩
    rw [Function.update_apply]
    split
    · exact ⟨(h i).indicators, hadded.1⟩
    · exact h j

/-! ### The conditions on the statements are exact -/

/-- After an ADD INDICATOR that found its table and is not safe, the next packet for the table
calls a callback that has not been set. -/
theorem unsafe_indicator_called (h : ∀ i, (slots i).Complete) {stmt : AddIndicatorStatement}
    (hstem : toLower stmt.indicator ∈ stems.indicators)
    (hplace : place stmt.symbol.toInt = some i)
    (hbad : ¬ IndicatorSafe stems stmt slots) (pools : Pools)
    (htick : place p.tick.toInt = some i) (hsize : p.size = (slots i).expected) :
    (parsingAddIndicator stems stmt slots pools).2.2 ≠ none ∧
      processPacket (parsingAddIndicator stems stmt slots pools).1 p = .error .uninitialised := by
  have hregistration : ¬ ((slots i).symbol ≠ -1 → stmt.columnNo.toInt ≤ (slots i).columnCount →
      RegistrationSafe (slots i).indicators (toLower stmt.indicator) ["sma".toList]
        stmt.paramas) := fun hsafe => hbad fun _ => ⟨i, hplace, hsafe⟩
  push Not at hregistration
  obtain ⟨hsymbol, hcolumn, hregistration⟩ := hregistration
  obtain ⟨hunset, hfails⟩ := Registrations.add_unset pools "Indicator not registered: ".toList
    (h i).indicators hregistration
    fun f (hf : indicatorRegistry stmt.ticks stmt.columnNo _ _ = some f) => indicatorRegistry_some hf
  rw [parsingAddIndicator, indicatorPlace_eq hstem hplace hsymbol hcolumn]
  dsimp only
  refine ⟨hfails, unset_called htick ?_ ?_ (.inl ?_)⟩
  · rwa [Function.update_self]
  · rwa [Function.update_self]
  · rwa [Function.update_self]

theorem unsafe_strategy_called (h : ∀ i, (slots i).Complete) {stmt : AddStrategyStatement}
    (hstem : toLower stmt.strategy ∈ stems.strategies)
    (hplace : place stmt.symbol.toInt = some i)
    (hbad : ¬ StrategySafe stems stmt slots) (pools : Pools)
    (htick : place p.tick.toInt = some i) (hsize : p.size = (slots i).expected) :
    (parsingAddStrategy stems stmt slots pools).2.2 ≠ none ∧
      processPacket (parsingAddStrategy stems stmt slots pools).1 p = .error .uninitialised := by
  have hregistration : ¬ ((slots i).symbol ≠ -1 → RegistrationSafe (slots i).strategys
      (toLower stmt.strategy) ["basic".toList, "again".toList] stmt.paramas) :=
    fun hsafe => hbad fun _ => ⟨i, hplace, hsafe⟩
  push Not at hregistration
  obtain ⟨hsymbol, hregistration⟩ := hregistration
  obtain ⟨hunset, hfails⟩ := Registrations.add_unset pools "strategy not registered: ".toList
    (h i).strategys hregistration
    fun f (hf : strategyRegistry stmt.ticks _ _ = some f) => strategyRegistry_some hf
  rw [parsingAddStrategy, strategyPlace_eq hstem hplace hsymbol]
  dsimp only
  refine ⟨hfails, unset_called htick ?_ ?_ (.inr ?_)⟩
  · rwa [Function.update_self]
  · rwa [Function.update_self]
  · rwa [Function.update_self]

end NanoVault.Hft
