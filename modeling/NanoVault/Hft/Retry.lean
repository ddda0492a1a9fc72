/-
What a failed ADD INDICATOR or ENABLE STRATEGY leaves behind.

A handler that fails before it claims the next index has changed nothing, and the statement can
be given again. One that fails behind it (there is no room, the name is not in the registry, or
its first parameter is missing or no positive number) leaves its name stored and the index
raised; given again, the statement finds its name taken (`failed_registration`,
`failed_name_taken`).
-/
import NanoVault.Hft.Callbacks

namespace NanoVault.Hft

open NanoVault.Table

variable {Entry : Type} {r : Registrations Entry} {slots : SymbolAccessArray} {stems : Stems}
  {pools : Pools} {name : Text} {registry params : List Text}

/-- The objects the pool of a class has handed out. -/
def Pools.used (pools : Pools) (name : Text) : Nat :=
  if name = "sma".toList then pools.sma
  else if name = "basic".toList then pools.basic
  else if name = "again".toList then pools.again
  else 0

/-- The name is taken, or the entry is going to be written, or the pool is empty and the process
is going to end. -/
def Retriable (r : Registrations Entry) (name : Text) (registry params : List Text)
    (pools : Pools) : Prop :=
  RegistrationSafe r name registry params ∨
    r.index + 1 < maxNoOfIndicators ∧ name ∈ registry ∧ maxHftSymbol ≤ pools.used name

/-- ADD INDICATOR is refused before it changes anything, or its registration does not fail. -/
def IndicatorRetriable (stems : Stems) (stmt : AddIndicatorStatement) (slots : SymbolAccessArray)
    (pools : Pools) : Prop :=
  toLower stmt.indicator ∈ stems.indicators → ∃ i, place stmt.symbol.toInt = some i ∧
    ((slots i).symbol ≠ -1 → stmt.columnNo.toInt ≤ (slots i).columnCount →
      Retriable (slots i).indicators (toLower stmt.indicator) ["sma".toList] stmt.paramas pools)

/-- ENABLE STRATEGY is refused before it changes anything, or its registration does not fail. -/
def StrategyRetriable (stems : Stems) (stmt : AddStrategyStatement) (slots : SymbolAccessArray)
    (pools : Pools) : Prop :=
  toLower stmt.strategy ∈ stems.strategies → ∃ i, place stmt.symbol.toInt = some i ∧
    ((slots i).symbol ≠ -1 →
      Retriable (slots i).strategys (toLower stmt.strategy) ["basic".toList, "again".toList]
        stmt.paramas pools)

/-- A call that does not return has thrown and left the slots as they were, or the process has
ended. -/
def Unaffected (slots : SymbolAccessArray) (call : SymbolAccessArray × Pools × Option Failure) :
    Prop :=
  ∀ e, call.2.2 = some e → e = .aborted ∨ (∃ f, e = .thrown f) ∧ call.1 = slots

/-! ### One registration -/

theorem Registrations.claim_ne (r : Registrations Entry) (name : Text) : r.claim name ≠ r := by
  intro h
  have hindex : r.index + 1 = r.index := congrArg Registrations.index h
  omega

/-- The window that is missing or wrong does not end the process. -/
theorem SMA.windowOf_error {e : Failure} (h : SMA.windowOf params = .error e) : e ≠ .aborted := by
  rintro rfl
  rw [SMA.windowOf.eq_def] at h
  cases params with
  | nil => cases h
  | cons param params =>
      dsimp only at h
      cases hwindow : fromChars param with
      | none =>
          rw [hwindow] at h
          cases h
      | some window =>
          rw [hwindow] at h
          dsimp only at h
          split at h <;> cases h

/-- A registration under a name that is not taken: it fails exactly if it is not retriable, and
then it has claimed the next index. -/
theorem Registrations.add_claimed {β : Type} {r : Registrations β} (unregistered : Text)
    {factory : Option (Factory β)} (hname : ¬ (r.storage.lookup name).isSome)
    (hnone : name ∉ registry → factory = none)
    (hsome : name ∈ registry → ∃ hand make,
      factory = some (pooled (fun pools => pools.used name) hand params make)) :
    Retriable r name registry params pools ∧
        ((r.add pools name unregistered factory).2.2 = none ∨
          (r.add pools name unregistered factory).2.2 = some .aborted) ∨
      ¬ Retriable r name registry params pools ∧
        (∃ e, (r.add pools name unregistered factory).2.2 = some e ∧ e ≠ .aborted) ∧
        (r.add pools name unregistered factory).1 = r.claim name := by
  have hretriable : Retriable r name registry params pools ↔
      r.index + 1 < maxNoOfIndicators ∧ name ∈ registry ∧
        ((∃ window, SMA.windowOf params = .ok window) ∨ maxHftSymbol ≤ pools.used name) := by
    rw [Retriable, RegistrationSafe]
    tauto
  have hclaimed : (r.claim name).index = r.index + 1 := rfl
  rw [hretriable, Registrations.add, if_neg hname]
  dsimp only
  rw [hclaimed]
  by_cases hroom : maxNoOfIndicators ≤ r.index + 1
  · rw [if_pos hroom]
    exact .inr ⟨fun h => absurd h.1 (Nat.not_lt.mpr hroom), ⟨_, rfl, fun h => by cases h⟩, rfl⟩
  · rw [if_neg hroom]
    by_cases hregistered : name ∈ registry
    · obtain ⟨hand, make, rfl⟩ := hsome hregistered
      dsimp only
      rw [pooled]
      by_cases hpool : maxHftSymbol ≤ pools.used name
      · rw [if_pos hpool]
        exact .inl ⟨⟨Nat.not_le.mp hroom, hregistered, .inr hpool⟩, .inr rfl⟩
      · rw [if_neg hpool]
        cases hwindow : SMA.windowOf params with
        | ok window =>
            exact .inl ⟨⟨Nat.not_le.mp hroom, hregistered, .inl ⟨window, rfl⟩⟩, .inl rfl⟩
        | error e =>
            refine .inr ⟨?_, ⟨e, rfl, SMA.windowOf_error hwindow⟩, rfl⟩
            rintro ⟨-, -, ⟨window, h⟩ | h⟩
            · cases h
            · exact hpool h
    · obtain rfl := hnone hregistered
      exact .inr ⟨fun h => hregistered h.2.1, ⟨_, rfl, fun h => by cases h⟩, rfl⟩

/-- A registration under a name that is taken. -/
theorem Registrations.add_taken (pools : Pools) (unregistered : Text)
    (factory : Option (Factory Entry)) (hname : (r.storage.lookup name).isSome) :
    r.add pools name unregistered factory =
      (r, pools, some (.error ("the indiator with name ".toList ++ name ++
        " already exist".toList))) :=
  if_pos hname

/-! ### The registries -/

theorem indicatorRegistry_none {ticks columnNo : Int64} (h : name ∉ ["sma".toList]) :
    indicatorRegistry ticks columnNo params name = none :=
  if_neg fun hname => h (List.mem_singleton.mpr hname)

theorem indicatorRegistry_pooled (ticks columnNo : Int64) (params : List Text)
    (h : name ∈ ["sma".toList]) :
    ∃ hand make, indicatorRegistry ticks columnNo params name =
      some (pooled (fun pools => pools.used name) hand params make) := by
  obtain rfl := List.mem_singleton.mp h
  rw [indicatorRegistry_eq, if_pos rfl]
  exact ⟨_, _, rfl⟩

theorem strategyRegistry_none {ticks : Int64} (h : name ∉ ["basic".toList, "again".toList]) :
    strategyRegistry ticks params name = none := by
  simp only [List.mem_cons, List.not_mem_nil, or_false, not_or] at h
  rw [strategyRegistry, if_neg h.1, if_neg h.2]

theorem strategyRegistry_pooled (ticks : Int64) (params : List Text)
    (h : name ∈ ["basic".toList, "again".toList]) :
    ∃ hand make, strategyRegistry ticks params name =
      some (pooled (fun pools => pools.used name) hand params make) := by
  rw [strategyRegistry_eq]
  rcases List.mem_pair.mp h with rfl | rfl
  · rw [if_pos rfl]
    exact ⟨_, _, rfl⟩
  · rw [if_neg (by decide), if_pos rfl]
    exact ⟨_, _, rfl⟩

/-! ### The handlers -/

/-- What a handler does once it has found its table. -/
theorem registered_unaffected_iff {β : Type} {r : Registrations β} {unregistered : Text}
    {factory : Option (Factory β)} {i : Nat} {t : TableColumn}
    (hnone : name ∉ registry → factory = none)
    (hsome : name ∈ registry → ∃ hand make,
      factory = some (pooled (fun pools => pools.used name) hand params make))
    (htaken : (r.storage.lookup name).isSome → t = slots i)
    (hadded : t = slots i → (r.add pools name unregistered factory).1 = r) :
    Unaffected slots (Function.update slots i t, (r.add pools name unregistered factory).2) ↔
      Retriable r name registry params pools := by
  by_cases hname : (r.storage.lookup name).isSome
  · refine iff_of_true (fun e he => .inr ⟨?_, ?_⟩) (.inl (.inl hname))
    · rw [Registrations.add_taken pools unregistered factory hname] at he
      exact ⟨_, (Option.some.inj he).symm⟩
    · dsimp only
      rw [htaken hname, Function.update_eq_self]
  · rcases Registrations.add_claimed unregistered hname hnone hsome with
      ⟨hretriable, hends⟩ | ⟨hbad, ⟨e, hfails, he⟩, hclaim⟩
    · refine iff_of_true (fun e he => ?_) hretriable
      rcases hends with hends | hends
      · cases hends.symm.trans he
      · exact .inl (Option.some.inj (hends.symm.trans he)).symm
    · refine iff_of_false (fun h => ?_) hbad
      obtain ⟨-, hsame⟩ := (h e hfails).resolve_left he
      have hslot := (Function.update_eq_self_iff).mp hsame
      exact r.claim_ne name (hclaim.symm.trans (hadded hslot))

theorem indicator_unaffected_iff (stmt : AddIndicatorStatement) :
    Unaffected slots (parsingAddIndicator stems stmt slots pools) ↔
      IndicatorRetriable stems stmt slots pools := by
  have hregistered : ∀ i, indicatorPlace stems stmt slots = .ok i →
      (Unaffected slots (parsingAddIndicator stems stmt slots pools) ↔
        Retriable (slots i).indicators (toLower stmt.indicator) ["sma".toList] stmt.paramas
          pools) := by
    intro i hchecks
    rw [parsingAddIndicator, hchecks]
    refine registered_unaffected_iff indicatorRegistry_none
      (indicatorRegistry_pooled stmt.ticks stmt.columnNo stmt.paramas) (fun htaken => ?_)
      fun hslot => congrArg TableColumn.indicators hslot
    rw [Registrations.add_taken pools _ _ htaken]
  constructor
  · intro h hstem
    cases hplace : place stmt.symbol.toInt with
    | none =>
        rw [parsingAddIndicator, indicatorPlace, if_neg (not_not_intro hstem), hplace] at h
        rcases h .outOfBounds rfl with hends | ⟨⟨f, hthrown⟩, -⟩
        · cases hends
        · cases hthrown
    | some i =>
        refine ⟨i, rfl, fun hsymbol hcolumn => ?_⟩
        exact (hregistered i (indicatorPlace_eq hstem hplace hsymbol hcolumn)).mp h
  · intro h
    rcases parsingAddIndicator_cases stems stmt slots pools with
      ⟨f, heq⟩ | ⟨hstem, hplace⟩ | ⟨i, hstem, hplace, hsymbol, hcolumn, hchecks⟩
    · rw [heq]
      exact fun e he => .inr ⟨⟨f, (Option.some.inj he).symm⟩, rfl⟩
    · obtain ⟨i, hplace', -⟩ := h hstem
      cases hplace.symm.trans hplace'
    · obtain ⟨i', hplace', hretriable⟩ := h hstem
      obtain rfl := Option.some.inj (hplace.symm.trans hplace')
      exact (hregistered i hchecks).mpr (hretriable hsymbol hcolumn)

theorem strategy_unaffected_iff (stmt : AddStrategyStatement) :
    Unaffected slots (parsingAddStrategy stems stmt slots pools) ↔
      StrategyRetriable stems stmt slots pools := by
  have hregistered : ∀ i, strategyPlace stems stmt slots = .ok i →
      (Unaffected slots (parsingAddStrategy stems stmt slots pools) ↔
        Retriable (slots i).strategys (toLower stmt.strategy) ["basic".toList, "again".toList]
          stmt.paramas pools) := by
    intro i hchecks
    rw [parsingAddStrategy, hchecks]
    refine registered_unaffected_iff strategyRegistry_none
      (strategyRegistry_pooled stmt.ticks stmt.paramas) (fun htaken => ?_)
      fun hslot => congrArg TableColumn.strategys hslot
    rw [Registrations.add_taken pools _ _ htaken, if_pos htaken]
  constructor
  · intro h hstem
    cases hplace : place stmt.symbol.toInt with
    | none =>
        rw [parsingAddStrategy, strategyPlace, if_neg (not_not_intro hstem), hplace] at h
        rcases h .outOfBounds rfl with hends | ⟨⟨f, hthrown⟩, -⟩
        · cases hends
        · cases hthrown
    | some i =>
        refine ⟨i, rfl, fun hsymbol => ?_⟩
        exact (hregistered i (strategyPlace_eq hstem hplace hsymbol)).mp h
  · intro h
    rcases parsingAddStrategy_cases stems stmt slots pools with
      ⟨f, heq⟩ | ⟨hstem, hplace⟩ | ⟨i, hstem, hplace, hsymbol, hchecks⟩
    · rw [heq]
      exact fun e he => .inr ⟨⟨f, (Option.some.inj he).symm⟩, rfl⟩
    · obtain ⟨i, hplace', -⟩ := h hstem
      cases hplace.symm.trans hplace'
    · obtain ⟨i', hplace', hretriable⟩ := h hstem
      obtain rfl := Option.some.inj (hplace.symm.trans hplace')
      exact (hregistered i hchecks).mpr (hretriable hsymbol)

/-- A failed registration leaves everything as it was exactly if the statement is refused by the
checks, or its name is taken. -/
theorem failed_registration (stems : Stems) (slots : SymbolAccessArray) (pools : Pools)
    (indicator : AddIndicatorStatement) (strategy : AddStrategyStatement) :
    (Unaffected slots (parsingAddIndicator stems indicator slots pools) ↔
        IndicatorRetriable stems indicator slots pools) ∧
      (Unaffected slots (parsingAddStrategy stems strategy slots pools) ↔
        StrategyRetriable stems strategy slots pools) :=
  ⟨indicator_unaffected_iff indicator, strategy_unaffected_iff strategy⟩

/-- A name that has been claimed is taken. -/
theorem Registrations.lookup_claim (r : Registrations Entry) (name : Text) :
    ((r.claim name).storage.lookup name).isSome := by
  show (List.lookup name ((name, r.index) :: r.storage)).isSome
  rw [List.lookup_cons_self]
  rfl

/-- Given again, an ADD INDICATOR that has failed behind its claim finds its name taken, whatever
its parameters are now. -/
theorem failed_name_taken {stmt again : AddIndicatorStatement} {i : Nat}
    (hchecks : indicatorPlace stems stmt slots = .ok i)
    (hbad : ¬ Retriable (slots i).indicators (toLower stmt.indicator) ["sma".toList] stmt.paramas
      pools)
    (hname : toLower again.indicator = toLower stmt.indicator)
    (hagain : indicatorPlace stems again (parsingAddIndicator stems stmt slots pools).1 = .ok i)
    (pools' : Pools) :
    parsingAddIndicator stems again (parsingAddIndicator stems stmt slots pools).1 pools' =
      ((parsingAddIndicator stems stmt slots pools).1, pools',
        some (.error ("the indiator with name ".toList ++ toLower stmt.indicator ++
          " already exist".toList))) := by
  have hclaimed : ((parsingAddIndicator stems stmt slots pools).1 i).indicators =
      (slots i).indicators.claim (toLower stmt.indicator) := by
    rw [parsingAddIndicator, hchecks]
    dsimp only
    rw [Function.update_self]
    rcases Registrations.add_claimed "Indicator not registered: ".toList
      (fun htaken => hbad (.inl (.inl htaken))) indicatorRegistry_none
      (indicatorRegistry_pooled stmt.ticks stmt.columnNo stmt.paramas) with
      ⟨hretriable, -⟩ | ⟨-, -, hclaim⟩
    · exact absurd hretriable hbad
    · exact hclaim
  generalize (parsingAddIndicator stems stmt slots pools).1 = slots' at hagain hclaimed ⊢
  rw [parsingAddIndicator, hagain]
  dsimp only
  rw [hname, hclaimed, Registrations.add_taken _ _ _ (Registrations.lookup_claim _ _), ← hclaimed,
    Function.update_eq_self]

/-- An HFT table with one column and the symbol 0. -/
def oneColumn : SymbolAccessArray :=
  Function.update (fun _ => {}) 0 { symbol := 0, columnCount := 1 }

/-- ADD INDICATOR "sma" (...) ON SYMBOL 0 COLUMN_NO 0 ticks 1. -/
def addSmaWith (params : List Text) : AddIndicatorStatement :=
  { indicator := "sma".toList, paramas := params, symbol := 0, columnNo := 0, ticks := 1 }

/-- The window "x" is no number: the statement fails, its index has been raised, and with a right
window it fails too. -/
theorem failed_indicator_kept :
    ¬ Unaffected oneColumn
        (parsingAddIndicator ⟨["sma".toList], []⟩ (addSmaWith [['x']]) oneColumn {}) ∧
      (parsingAddIndicator ⟨["sma".toList], []⟩ (addSmaWith [['1']]) (parsingAddIndicator
          ⟨["sma".toList], []⟩ (addSmaWith [['x']]) oneColumn {}).1 {}).2.2 =
        some (.error "the indiator with name sma already exist".toList) := by
  refine ⟨fun h => ?_, by decide⟩
  rcases h (.error "Invalid SMA parameter".toList) (by decide) with hends | ⟨-, hsame⟩
  · cases hends
  · have hindex : 1 = 0 := congrArg (fun slots => (slots 0).indicators.index) hsame
    cases hindex

end NanoVault.Hft
