/-
The callbacks a packet calls, over whole runs.

Statements on tables and loading leave the registrations of every slot alone. Where every ADD
INDICATOR and ENABLE STRATEGY that gets past its checks also completes, all entries below the
indices have been written in every state, so that a packet calls only what has been set unless a
strategy asks the first indicator of a table that has none (`callbacks_set`). A registration that
fails leaves an entry that the next packet calls (`failed_registration_called`).
-/
import NanoVault.Hft.Callbacks
import NanoVault.Catalog.Consistency

namespace NanoVault.Catalog

open Lib NanoVault.Table NanoVault.Hft

/-- A new HFT table fits into a slot, a registration that gets past its checks completes, and a
packet finds the indicator that its strategies ask for. -/
def CallbackSafe (stems : Stems) (s : State) : Event → Prop
  | .createHft name columns symbol _ => ∀ db, s.currentDb = some db → s.find? db name = none →
      SlotFits symbol columns.length
  | .addIndicator stmt => IndicatorSafe stems stmt s.symbolAccessArray
  | .enableStrategy stmt => StrategySafe stems stmt s.symbolAccessArray
  | .packet p => PacketSafe s.symbolAccessArray p
  | _ => True

variable {s s' : State} {db name : Text} {stems : Stems} {e : Event} {t : LoadedTable}

/-! ### Statements on tables -/

theorem LoadedTable.initIn_complete {slot : TableColumn} (t : LoadedTable) (h : slot.Complete) :
    (t.initIn slot).Complete :=
  ⟨h.indicators, h.strategys⟩

/-- Loading keeps the registrations. -/
theorem initialDatabseLoad_complete (h : Sound s) (s' : State) (hmetadata : s'.metadata = s.metadata)
    (hcurrent : ∀ db, s'.currentDb = some db → (s.metadata db).isSome)
    (hcomplete : ∀ i, (s'.symbolAccessArray i).Complete) (i : Nat) :
    ((initialDatabseLoad s').1.symbolAccessArray i).Complete := by
  cases hdb : s'.currentDb with
  | none =>
      rw [initialDatabseLoad, hdb]
      exact hcomplete i
  | some db =>
      obtain ⟨root, hroot⟩ := Option.isSome_iff_exists.mp (hcurrent db hdb)
      obtain ⟨ts, hwritten, hstored⟩ := h.stored db root hroot
      rw [initialDatabseLoad_eq hdb (hmetadata ▸ hroot) hwritten hstored.fits, slots_foldl_put]
      exact rewriteAll_keeps (fun t slot => t.initIn_complete) hcomplete i

theorem complete_default : ∀ i, ((({} : State).symbolAccessArray) i).Complete := by
  have hempty : ∀ {Entry : Type}, ({} : Registrations Entry).Complete :=
    fun j => ⟨nofun, nofun⟩
  exact fun _ => ⟨hempty, hempty⟩

/-- A statement on tables keeps the registrations; a new process has none. -/
theorem Sound.complete (h : Sound s) (htables : e.onTables = true)
    (hends : Ends (execute stems s e).2) (hcomplete : ∀ i, (s.symbolAccessArray i).Complete)
    (i : Nat) : ((execute stems s e).1.symbolAccessArray i).Complete := by
  have hkept : ∀ {s' : State}, s'.symbolAccessArray = s.symbolAccessArray →
      (s'.symbolAccessArray i).Complete := fun hslots => by rw [hslots]; exact hcomplete i
  cases e with
  | createDatabase name =>
      rw [execute, Catalog.createDatabase]
      split
      · exact hcomplete i
      · exact hcomplete i
  | use name =>
      rw [execute]
      rcases parseUseStatement_cases name s with ⟨e, -, heq⟩ | ⟨hname, heq⟩
      · rw [heq]
        exact hcomplete i
      · rw [heq]
        refine initialDatabseLoad_complete h (s.opening name) rfl (fun db hdb => ?_)
          hcomplete i
        obtain rfl := Option.some.inj hdb
        exact hname
  | createTable name columns =>
      refine State.withDb_spec (P := fun o => (o.1.symbolAccessArray i).Complete)
        (fun _ => hcomplete i) fun db hdb => ?_
      rcases createTable_cases h hdb name columns with
        ⟨s', e, heq, hsame⟩ | ⟨t, root', hadds, heq⟩
      · rw [heq]
        exact hkept hsame.slots
      · obtain ⟨b, hb⟩ := initializeTables_trees
          ((s.create db t root').tables.filter fun x => x.2.1 = name) (s.create db t root')
        rw [heq, hb]
        exact hcomplete i
  | createHft name columns symbol top =>
      refine State.withDb_spec (P := fun o => Ends o.2 → (o.1.symbolAccessArray i).Complete)
        (fun _ _ => hcomplete i) (fun db hdb hends => ?_) hends
      rcases createHft_cases h hdb name columns symbol top with
        ⟨s', e, -, heq, hsame⟩ | ⟨root', hadds, ⟨-, hbounds⟩ | ⟨-, heq⟩⟩
      · rw [heq]
        exact hkept hsame.slots
      -- A symbol without a slot has `init` leave the array, and the call does not end.
      · exact absurd hbounds hends.1
      · rw [heq]
        dsimp only
        rw [Function.update_apply]
        split
        · exact LoadedTable.initIn_complete _ (hcomplete _)
        · exact hcomplete i
  | dropTable name =>
      refine State.withDb_spec (P := fun o => (o.1.symbolAccessArray i).Complete)
        (fun _ => hcomplete i) fun db hdb => ?_
      cases hfind : s.find? db name with
      | none =>
          rw [dropTable_missing hfind]
          exact hcomplete i
      | some entry =>
          obtain ⟨root, hroot⟩ := Option.isSome_iff_exists.mp (h.current db hdb)
          obtain ⟨ts, hwritten, hstored⟩ := h.stored db root hroot
          obtain ⟨root', hdrop, -⟩ :=
            dropTable_eq (by rw [hfind]; rfl) hroot hwritten hstored.names
          rw [hdrop]
          exact hcomplete i
  | dropDatabase name =>
      refine State.withDb_spec (P := fun o => (o.1.symbolAccessArray i).Complete)
        (fun _ => hcomplete i) fun db hdb => ?_
      rw [Catalog.dropDatabase]
      split
      · exact hcomplete i
      · exact hcomplete i
  | insert table stmt =>
      exact State.withDb_spec (P := fun o => (o.1.symbolAccessArray i).Complete)
        (fun _ => hcomplete i) fun db _ => hkept (insertRows_rowsOnly table stmt db s).slots
  | select table whereClause =>
      exact State.withDb_spec (P := fun o => (o.1.symbolAccessArray i).Complete)
        (fun _ => hcomplete i) fun db _ => hkept (selectRows_rowsOnly table whereClause db s).slots
  | update table assignments whereClause =>
      exact State.withDb_spec (P := fun o => (o.1.symbolAccessArray i).Complete)
        (fun _ => hcomplete i)
        fun db _ => hkept (updateRows_rowsOnly table assignments whereClause db s).slots
  | delete table whereClause =>
      exact State.withDb_spec (P := fun o => (o.1.symbolAccessArray i).Complete)
        (fun _ => hcomplete i) fun db _ => hkept (deleteRows_rowsOnly table whereClause db s).slots
  | addIndicator stmt => cases htables
  | enableStrategy stmt => cases htables
  | packet p => cases htables
  | restart vacuums =>
      obtain ⟨files, b, f, -, -, heq⟩ := h.restart_cases vacuums
      rw [execute, heq]
      exact initialDatabseLoad_complete h s.starting rfl h.current complete_default i

/-! ### Runs -/

theorem ends_of_answered {f : Option Failure} (h : Answered f) : Ends f := by
  rcases h with rfl | ⟨e, rfl⟩
  · exact .none
  · exact .thrown e

/-- Nothing follows an event that ends the process. -/
theorem not_follows_aborted {o : Outcome} (h : Follows o s') : o.2 ≠ some .aborted := by
  obtain ⟨s, f⟩ := o
  rintro rfl
  exact h

/-- One step of a run of safe events. -/
theorem CallbackSafe.step (hsound : Sound s) (hcomplete : ∀ i, (s.symbolAccessArray i).Complete)
    (hsafe : CallbackSafe stems s e) (hstep : Follows (execute stems s e) s') :
    Ends (execute stems s e).2 ∧ s' = (execute stems s e).1 ∧
      ∀ i, (s'.symbolAccessArray i).Complete := by
  by_cases htables : e.onTables = true
  · have hends : Ends (execute stems s e).2 := by
      refine hsound.ends htables fun db name columns symbol top hdb he hfresh => ?_
      subst he
      exact hsafe db hdb hfresh
    obtain rfl := follows_ends hstep hends
    exact ⟨hends, rfl, hsound.complete htables hends hcomplete⟩
  · cases e with
    | addIndicator stmt =>
        rcases parsingAddIndicator_complete hcomplete hsafe s.pools with
          ⟨hall, hanswered⟩ | haborted
        · have hends : Ends (execute stems s (.addIndicator stmt)).2 := ends_of_answered hanswered
          obtain rfl := follows_ends hstep hends
          exact ⟨hends, rfl, hall⟩
        · exact absurd haborted (not_follows_aborted hstep)
    | enableStrategy stmt =>
        rcases parsingAddStrategy_complete hcomplete hsafe s.pools with
          ⟨hall, hanswered⟩ | haborted
        · have hends : Ends (execute stems s (.enableStrategy stmt)).2 :=
            ends_of_answered hanswered
          obtain rfl := follows_ends hstep hends
          exact ⟨hends, rfl, hall⟩
        · exact absurd haborted (not_follows_aborted hstep)
    | packet p =>
        rcases processPacket_cases hcomplete p with ⟨-, hbad⟩ | ⟨r, hcall, -, hafter⟩
        · exact absurd hsafe hbad
        · rw [execute, hcall] at hstep ⊢
          obtain rfl : s' = _ := hstep
          exact ⟨.none, rfl, hafter⟩
    | _ => exact absurd rfl htables

/-- In a run of safe events every entry below an index has been written in every state, and the
packets that call what has not been set are those that are not safe. -/
theorem callbacks_set (h : (engine stems).Reach (CallbackSafe stems) s) :
    (∀ i, (s.symbolAccessArray i).Complete) ∧ ∀ p : Packet,
      processPacket s.symbolAccessArray p = .error .uninitialised ↔
        ¬ PacketSafe s.symbolAccessArray p := by
  suffices hinv : Sound s ∧ ∀ i, (s.symbolAccessArray i).Complete from
    ⟨hinv.2, processPacket_error_iff hinv.2⟩
  refine h.invariant (I := fun s => Sound s ∧ ∀ i, (s.symbolAccessArray i).Complete)
    (fun s hs => ?_) fun s e s' hinv hsafe hstep => ?_
  · obtain rfl : s = {} := hs
    exact ⟨.init, complete_default⟩
  · obtain ⟨hends, rfl, hcomplete⟩ := hsafe.step hinv.1 hinv.2 hstep
    exact ⟨hinv.1.step hends, hcomplete⟩

/-- `sma`, `basic` and `again` were found. -/
def allStems : Stems := ⟨["sma".toList], ["basic".toList, "again".toList]⟩

/-- CREATE HFT TABLE t with one column and the symbol 1. -/
def createPrices : Event :=
  .createHft ['t'] [{ name := ['p'], type := [], precision := 2 }] 1 false

/-- ADD INDICATOR "sma" (param) ON SYMBOL 1 COLUMN_NO 1 TICKS 1. -/
def addSma (param : Text) : Event := .addIndicator ⟨"sma".toList, [param], 1, 1, 1⟩

/-- A packet for the table. -/
def price : Packet := ⟨1, 16, fun _ => 0⟩

/-- An indicator that has been registered. -/
theorem callbacks_set_sma : processPacket
    (after allStems [.createDatabase ['d'], createPrices, addSma ['5']]).symbolAccessArray price ≠
      .error .uninitialised := by
  have hstart : (engine allStems).Reach (CallbackSafe allStems) {} := .init rfl
  have hreach := reach_execute (reach_execute (reach_execute hstart (.createDatabase ['d']) trivial
    (by decide))
    createPrices (fun _ _ _ => ⟨⟨1, rfl⟩, by decide⟩) (by decide)) (addSma ['5'])
    (fun _ => ⟨1, by decide, fun _ _ => .inr ⟨by decide, by decide, 5, by decide⟩⟩) (by decide)
  refine fun herror => ((callbacks_set hreach).2 price).mp herror ?_
  rintro i hplace - - ⟨j, strategy, hj, -, -⟩
  obtain rfl : i = 1 := by
    rw [show place price.tick.toInt = some 1 from by decide] at hplace
    exact (Option.some.inj hplace).symm
  exact absurd hj (Nat.not_lt_zero j)

/-- ADD INDICATOR with a parameter that is no number fails, and the next packet calls the callback
of the entry that has not been written. -/
theorem failed_registration_called : ¬ ∀ s, (engine allStems).Reach Machine.Any s →
    ∀ p, processPacket s.symbolAccessArray p ≠ .error .uninitialised := by
  intro h
  have hstart : (engine allStems).Reach Machine.Any {} := .init rfl
  have hreach := reach_execute (reach_execute hstart (.createDatabase ['d']) trivial (by decide))
    createPrices trivial (by decide)
  refine h (after allStems [.createDatabase ['d'], createPrices, addSma ['x']])
    (hreach.step (i := addSma ['x']) trivial ?_) price (unset_called (i := 1) ?_ ?_ ?_ ?_)
  · rfl
  · decide
  · decide
  · decide
  · exact .inl ⟨0, by decide, rfl⟩

end NanoVault.Catalog
