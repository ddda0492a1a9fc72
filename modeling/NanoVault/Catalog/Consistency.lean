/-
The catalog against the metadata file.

`globalTableCache` should have the tables of the current database as `initialDatabseLoad` would
read them from its file. CREATE, DROP and USE keep it so, INSERT looks a table up, and DELETE
opens its files first. SELECT and UPDATE read the map with `operator[]`, which adds an empty
entry for a table that is not there (`phantom_table`). With them on tables of the catalog only,
it has in every state exactly the tables of the file (`catalog_consistent`).
-/
import NanoVault.Catalog.Sound

namespace NanoVault.Catalog

open Lib NanoVault.Table NanoVault.Hft

/-- A process that has loaded the current database. -/
def reloaded (s : State) : State :=
  (initialDatabseLoad { currentDb := s.currentDb, metadata := s.metadata }).1

/-- The catalog has what would be read from the metadata file of the current database. -/
def CatalogConsistent (s : State) : Prop :=
  ∀ db, s.currentDb = some db → ∀ name, s.find? db name = (reloaded s).find? db name

/-- The statements on databases, tables and rows. -/
def Event.onTables : Event → Bool
  | .addIndicator _ | .enableStrategy _ | .packet _ => false
  | _ => true

/-- SELECT and UPDATE name a table of the catalog, and an HFT table that is created fits into a
slot. -/
def CatalogSafe (s : State) (e : Event) : Prop :=
  e.onTables = true ∧ ∀ db, s.currentDb = some db →
    match e with
    | .select table _ | .update table _ _ => (s.find? db table).isSome
    | .createHft name columns symbol _ =>
        s.find? db name = none → (∃ i, place symbol = some i) ∧ columns.length ≤ maxColumn
    | _ => True

variable {s s' : State} {db d name n : Text} {root : JSONValue} {ts : List LoadedTable}
  {stems : Stems} {e : Event}

/-- No other tables are in the catalog than those of the metadata file. -/
def NoPhantoms (s : State) : Prop :=
  ∀ db root ts, s.currentDb = some db → s.metadata db = some root → Written root ts →
    ∀ n, n ∉ ts.map LoadedTable.name → s.find? db n = none

/-! ### What is read from the file -/

theorem find?_reloaded (hdb : s.currentDb = some db) (hroot : s.metadata db = some root)
    (hwritten : Written root ts) (hfits : ∀ t ∈ ts, t.Fits) (hnames : (ts.map LoadedTable.name).Nodup) :
    (∀ t ∈ ts, (reloaded s).find? db t.name = some t.entry) ∧
      ∀ n, n ∉ ts.map LoadedTable.name → (reloaded s).find? db n = none := by
  rw [reloaded, initialDatabseLoad_eq (s := { currentDb := s.currentDb, metadata := s.metadata })
    hdb hroot hwritten hfits]
  exact ⟨fun t ht => find?_loaded hnames ht db _, fun n hn => find?_not_loaded hn db _⟩

/-- In a sound state the tables of the file are in the catalog. -/
theorem Sound.consistent_iff (h : Sound s) : CatalogConsistent s ↔ NoPhantoms s := by
  constructor
  · intro hconsistent db root ts hdb hroot hwritten n hn
    obtain ⟨us, hus, hstored⟩ := h.stored db root hroot
    obtain rfl := hwritten.unique hus
    rw [hconsistent db hdb n]
    exact (find?_reloaded hdb hroot hwritten hstored.fits hstored.names).2 n hn
  · intro hphantoms db hdb n
    obtain ⟨root, hroot⟩ := Option.isSome_iff_exists.mp (h.current db hdb)
    obtain ⟨ts, hwritten, hstored⟩ := h.stored db root hroot
    obtain ⟨hmem, hother⟩ := find?_reloaded hdb hroot hwritten hstored.fits hstored.names
    by_cases hn : n ∈ ts.map LoadedTable.name
    · obtain ⟨t, ht, rfl⟩ := List.mem_map.mp hn
      rw [hstored.cached hdb t ht, hmem t ht]
    · rw [hphantoms db root ts hdb hroot hwritten n hn, hother n hn]

/-! ### One step -/

theorem NoPhantoms.congr (h : NoPhantoms s) (hmetadata : s'.metadata = s.metadata)
    (hcurrent : s'.currentDb = s.currentDb) (hentries : ∀ d n, s'.find? d n = s.find? d n) :
    NoPhantoms s' := by
  intro db root ts hdb hroot hwritten n hn
  rw [hentries]
  exact h db root ts (hcurrent ▸ hdb) (hmetadata ▸ hroot) hwritten n hn

theorem NoPhantoms.unchanged (h : NoPhantoms s) (hsame : Unchanged s s') : NoPhantoms s' :=
  h.congr hsame.metadata hsame.currentDb hsame.entries

/-- A statement on the rows of a table of the catalog. -/
theorem NoPhantoms.rowsOnly (h : NoPhantoms s) (hrows : RowsOnly db name s s')
    (hsome : (s.find? db name).isSome) : NoPhantoms s' := by
  refine h.congr hrows.metadata hrows.currentDb fun d n => ?_
  rcases hrows.entries d n with heq | ⟨rfl, rfl, hnone, -⟩
  · exact heq
  · rw [hnone] at hsome
    cases hsome

/-- The metadata file of the current database has been written, with these tables. -/
theorem NoPhantoms.write (hcurrent : s'.currentDb = some db)
    (hmetadata : s'.metadata db = some root) (hwritten : Written root ts)
    (hothers : ∀ n, n ∉ ts.map LoadedTable.name → s'.find? db n = none) : NoPhantoms s' := by
  intro d r us hd hr hus n hn
  obtain rfl := Option.some.inj (hcurrent.symm.trans hd)
  obtain rfl := Option.some.inj (hmetadata.symm.trans hr)
  rw [hus.unique hwritten] at hn
  exact hothers n hn

theorem NoPhantoms.create {t : LoadedTable} {root' : JSONValue} {symbol : Int} (h : NoPhantoms s)
    (hdb : s.currentDb = some db) (hadds : Adds s db t root' name symbol) :
    NoPhantoms (s.create db t root') := by
  obtain ⟨rfl, -, -, root, ts, hroot, hwritten, hwritten'⟩ := hadds
  have hself : (s.create db t root').metadata db = some root' := Function.update_self ..
  refine NoPhantoms.write hdb hself hwritten' fun n hn => ?_
  rw [List.map_append, List.mem_append, not_or] at hn
  have hne : ¬ (db = db ∧ t.name = n) := fun heq => hn.2 (List.mem_singleton.mpr heq.2.symm)
  rw [State.find?_create, if_neg hne]
  exact h db root ts hdb hroot hwritten n hn.1

theorem NoPhantoms.dropTable (hsound : Sound s) (h : NoPhantoms s) (hdb : s.currentDb = some db)
    (name : Text) : NoPhantoms (dropTable name db s).1 := by
  cases hfind : s.find? db name with
  | none =>
      rw [dropTable_missing hfind]
      exact h
  | some entry =>
      obtain ⟨root, hroot⟩ := Option.isSome_iff_exists.mp (hsound.current db hdb)
      obtain ⟨ts, hwritten, hstored⟩ := hsound.stored db root hroot
      obtain ⟨root', hdrop, hwritten'⟩ :=
        dropTable_eq (by rw [hfind]; rfl) hroot hwritten hstored.names
      rw [hdrop]
      have hself : (s.drop db name root').metadata db = some root' := Function.update_self ..
      refine NoPhantoms.write hdb hself hwritten' fun n hn => ?_
      rw [State.find?_drop]
      split
      · rfl
      · next hne =>
          refine h db root ts hdb hroot hwritten n fun hmem => hn ?_
          obtain ⟨t, ht, rfl⟩ := List.mem_map.mp hmem
          exact List.mem_map_of_mem
            (List.mem_filter.mpr ⟨ht, decide_eq_true fun heq => hne ⟨rfl, heq.symm⟩⟩)

/-- Loading from an empty catalog. -/
theorem NoPhantoms.load (hsound : Sound s) (s' : State) (hmetadata : s'.metadata = s.metadata)
    (hempty : s'.globalTableCache = SortedMap.empty)
    (hcurrent : ∀ db, s'.currentDb = some db → (s.metadata db).isSome) :
    NoPhantoms (initialDatabseLoad s').1 := by
  cases hdb : s'.currentDb with
  | none =>
      rw [initialDatabseLoad, hdb]
      intro db _ _ hdb'
      cases hdb.symm.trans hdb'
  | some db =>
      obtain ⟨root, hroot⟩ := Option.isSome_iff_exists.mp (hcurrent db hdb)
      obtain ⟨ts, hwritten, hstored⟩ := hsound.stored db root hroot
      rw [initialDatabseLoad_eq hdb (hmetadata ▸ hroot) hwritten hstored.fits]
      obtain ⟨hmeta, hcur, -, -⟩ := foldl_put_frame ts db s'
      refine NoPhantoms.write (hcur.trans hdb) (by rw [hmeta, hmetadata, hroot]) hwritten
        fun n hn => ?_
      rw [find?_not_loaded hn, State.find?, hempty]
      rfl

/-- Where a new HFT table fits into its slot, no array is left. -/
theorem Sound.ends (hsound : Sound s) (htables : e.onTables = true)
    (hfits : ∀ db name columns symbol top, s.currentDb = some db →
      e = .createHft name columns symbol top → s.find? db name = none →
        SlotFits symbol columns.length) : Ends (execute stems s e).2 := by
  cases e with
  | createDatabase name =>
      rw [execute, Catalog.createDatabase]
      split
      · exact .thrown _
      · exact .none
  | use name =>
      rw [execute]
      rcases parseUseStatement_cases name s with ⟨e, -, heq⟩ | ⟨hname, heq⟩
      · rw [heq]
        exact .thrown e
      · rw [heq, (hsound.opening hname).2]
        exact .none
  | createTable name columns =>
      exact State.withDb_spec (P := fun o => Ends o.2) .thrown fun db hdb =>
        createTable_ends hsound hdb name columns
  | createHft name columns symbol top =>
      refine State.withDb_spec (P := fun o => Ends o.2) .thrown fun db hdb => ?_
      rcases createHft_cases hsound hdb name columns symbol top with
        ⟨s', e, -, heq, -⟩ | ⟨root', hadds, ⟨hwide, -⟩ | ⟨-, heq⟩⟩
      · rw [heq]
        exact .thrown e
      · exact absurd (hfits db name columns symbol top hdb rfl hadds.fresh) hwide
      · rw [heq]
        exact .none
  | dropTable name =>
      exact State.withDb_spec (P := fun o => Ends o.2) .thrown fun db hdb =>
        dropTable_ends hsound hdb name
  | dropDatabase name =>
      refine State.withDb_spec (P := fun o => Ends o.2) .thrown fun db hdb => ?_
      rw [Catalog.dropDatabase]
      split
      · exact .thrown _
      · exact .none
  | insert table stmt =>
      exact State.withDb_spec (P := fun o => Ends o.2) .thrown fun db _ =>
        insertRows_ends table stmt db s
  | select table whereClause =>
      exact State.withDb_spec (P := fun o => Ends o.2) .thrown fun _ _ => .none
  | update table assignments whereClause =>
      exact State.withDb_spec (P := fun o => Ends o.2) .thrown fun db _ =>
        updateRows_ends table assignments whereClause db s
  | delete table whereClause =>
      exact State.withDb_spec (P := fun o => Ends o.2) .thrown fun db _ =>
        deleteRows_ends table whereClause db s
  | addIndicator stmt => cases htables
  | enableStrategy stmt => cases htables
  | packet p => cases htables
  | restart vacuums =>
      obtain ⟨files, b, f, -, hf, heq⟩ := hsound.restart_cases vacuums
      rw [execute, heq]
      refine ⟨fun hbounds => ?_, fun hunset => ?_⟩
      · cases hf _ hbounds
      · cases hf _ hunset

theorem CatalogSafe.ends (hsound : Sound s) (h : CatalogSafe s e) :
    Ends (execute stems s e).2 := by
  obtain ⟨htables, hsafe⟩ := h
  refine hsound.ends htables fun db name columns symbol top hdb he hfresh => ?_
  subst he
  exact hsafe db hdb hfresh

/-- An INSERT into a table that is not in the catalog is refused. -/
theorem insertRows_missing {table : Text} (hnone : s.find? db table = none)
    (stmt : InsertStatement) : (insertRows table stmt db s).1 = s := by
  rw [insertRows, hnone]
  split
  · rfl
  · rfl
  · split
    · rfl
    · rfl

/-- A safe event adds no phantom. -/
theorem NoPhantoms.step (hsound : Sound s) (h : NoPhantoms s) (hsafe : CatalogSafe s e) :
    NoPhantoms (execute stems s e).1 := by
  obtain ⟨htables, hsafe⟩ := hsafe
  cases e with
  | createDatabase name =>
      rw [execute, createDatabase]
      split
      · exact h
      · next hname =>
          refine NoPhantoms.write rfl (Function.update_self ..) (.nil name) fun n _ => ?_
          exact (hsound.absent name (Option.not_isSome_iff_eq_none.mp hname) n).1
  | use name =>
      rw [execute]
      rcases parseUseStatement_cases name s with ⟨e, -, heq⟩ | ⟨hname, heq⟩
      · rw [heq]
        exact h
      · rw [heq]
        refine NoPhantoms.load hsound (s.opening name) rfl rfl fun db hdb => ?_
        obtain rfl := Option.some.inj hdb
        exact hname
  | createTable name columns =>
      refine State.withDb_spec (P := fun o => NoPhantoms o.1) (fun _ => h) fun db hdb => ?_
      rcases createTable_cases hsound hdb name columns with
        ⟨s', e, heq, hsame⟩ | ⟨t, root', hadds, heq⟩
      · rw [heq]
        exact h.unchanged hsame
      · rw [heq]
        obtain ⟨b, hb⟩ := initializeTables_trees
          ((s.create db t root').tables.filter fun x => x.2.1 = name) (s.create db t root')
        rw [hb]
        exact (h.create hdb hadds).congr rfl rfl fun _ _ => rfl
  | createHft name columns symbol top =>
      refine State.withDb_spec (P := fun o => NoPhantoms o.1) (fun _ => h) fun db hdb => ?_
      rcases createHft_cases hsound hdb name columns symbol top with
        ⟨s', e, -, heq, hsame⟩ | ⟨root', hadds, ⟨hfits, -⟩ | ⟨-, heq⟩⟩
      · rw [heq]
        exact h.unchanged hsame
      · exact absurd (hsafe db hdb hadds.fresh) hfits
      · rw [heq]
        exact (h.create hdb hadds).congr rfl rfl fun _ _ => rfl
  | dropTable name =>
      exact State.withDb_spec (P := fun o => NoPhantoms o.1) (fun _ => h) fun db hdb =>
        h.dropTable hsound hdb name
  | dropDatabase name =>
      refine State.withDb_spec (P := fun o => NoPhantoms o.1) (fun _ => h) fun db hdb => ?_
      rw [dropDatabase]
      split
      · exact h
      · intro db' _ _ hdb'
        cases hdb'
  | insert table stmt =>
      refine State.withDb_spec (P := fun o => NoPhantoms o.1) (fun _ => h) fun db hdb => ?_
      cases hfind : s.find? db table with
      | none =>
          rw [insertRows_missing hfind]
          exact h
      | some entry =>
          exact h.rowsOnly (insertRows_rowsOnly table stmt db s) (by rw [hfind]; rfl)
  | select table whereClause =>
      exact State.withDb_spec (P := fun o => NoPhantoms o.1) (fun _ => h) fun db hdb =>
        h.rowsOnly (selectRows_rowsOnly table whereClause db s) (hsafe db hdb)
  | update table assignments whereClause =>
      exact State.withDb_spec (P := fun o => NoPhantoms o.1) (fun _ => h) fun db hdb =>
        h.rowsOnly (updateRows_rowsOnly table assignments whereClause db s) (hsafe db hdb)
  | delete table whereClause =>
      refine State.withDb_spec (P := fun o => NoPhantoms o.1) (fun _ => h) fun db hdb => ?_
      cases hfiles : s.files db table with
      | none =>
          rw [deleteRows, hfiles]
          exact h
      | some f =>
          -- only a table of the metadata file has files
          obtain ⟨root, hroot⟩ := Option.isSome_iff_exists.mp (hsound.current db hdb)
          obtain ⟨ts, -, hstored⟩ := hsound.stored db root hroot
          obtain ⟨t, ht, rfl⟩ := List.mem_map.mp (hstored.files table (by rw [hfiles]; rfl))
          exact h.rowsOnly (deleteRows_rowsOnly t.name whereClause db s)
            (by rw [hstored.cached hdb t ht]; rfl)
  | addIndicator stmt => cases htables
  | enableStrategy stmt => cases htables
  | packet p => cases htables
  | restart vacuums =>
      obtain ⟨files, b, f, -, -, heq⟩ := hsound.restart_cases vacuums
      rw [execute, heq]
      exact (NoPhantoms.load hsound s.starting rfl rfl hsound.current).congr rfl rfl fun _ _ => rfl

/-! ### Runs -/

/-- In a run of safe events the catalog has exactly the tables of the metadata file in every
state. -/
theorem catalog_consistent (h : (engine stems).Reach CatalogSafe s) : CatalogConsistent s := by
  suffices hinv : Sound s ∧ NoPhantoms s from hinv.1.consistent_iff.mpr hinv.2
  refine h.invariant (I := fun s => Sound s ∧ NoPhantoms s) (fun s hs => ?_)
    fun s e s' hinv hsafe hstep => ?_
  · obtain rfl : s = {} := hs
    exact ⟨.init, nofun⟩
  · have hends : Ends (execute stems s e).2 := hsafe.ends hinv.1
    obtain rfl := follows_ends hstep hends
    exact ⟨hinv.1.step hends, hinv.2.step hinv.1 hsafe⟩

/-- A statement that has looked up a table with `operator[]` keeps the catalog consistent exactly if
the table is there. -/
theorem RowsOnly.consistent_iff (hrows : RowsOnly db name s s') (hsound : Sound s)
    (hconsistent : CatalogConsistent s) (hdb : s.currentDb = some db)
    (hentry : (s'.find? db name).isSome) : CatalogConsistent s' ↔ (s.find? db name).isSome := by
  have hphantoms := hsound.consistent_iff.mp hconsistent
  have hsound' := hsound.rowsOnly hdb hrows
  rw [hsound'.consistent_iff]
  refine ⟨fun hphantoms' => ?_, hphantoms.rowsOnly hrows⟩
  obtain ⟨root, hroot⟩ := Option.isSome_iff_exists.mp (hsound.current db hdb)
  obtain ⟨ts, hwritten, hstored⟩ := hsound.stored db root hroot
  by_cases hname : name ∈ ts.map LoadedTable.name
  · obtain ⟨t, ht, rfl⟩ := List.mem_map.mp hname
    rw [hstored.cached hdb t ht]
    rfl
  · have hnone := hphantoms' db root ts (hrows.currentDb.trans hdb)
      (by rw [hrows.metadata, hroot]) hwritten name hname
    rw [hnone] at hentry
    cases hentry

theorem selectRows_consistent_iff (hsound : Sound s) (hconsistent : CatalogConsistent s)
    (hdb : s.currentDb = some db) (table : Text) (whereClause : Option Expression) :
    CatalogConsistent (selectRows table whereClause db s).1 ↔ (s.find? db table).isSome := by
  refine (selectRows_rowsOnly table whereClause db s).consistent_iff hsound hconsistent hdb ?_
  rw [selectRows_state, State.find?_touch, if_pos ⟨rfl, rfl⟩]
  rfl

theorem updateRows_consistent_iff (hsound : Sound s) (hconsistent : CatalogConsistent s)
    (hdb : s.currentDb = some db) (table : Text) (assignments : List (Text × Text))
    (whereClause : Option Expression) :
    CatalogConsistent (updateRows table assignments whereClause db s).1 ↔
      (s.find? db table).isSome := by
  refine (updateRows_rowsOnly table assignments whereClause db s).consistent_iff hsound hconsistent
    hdb ?_
  have htouch : ((s.touch db table).find? db table).isSome := by
    rw [State.find?_touch, if_pos ⟨rfl, rfl⟩]
    rfl
  rw [updateRows]
  dsimp only
  split
  · split <;> exact htouch
  · exact htouch

/-- One regular table with a number and a text of at most three characters. -/
def twoColumns : List TableColumnSpec :=
  [⟨['i', 'd'], "int".toList, [.primaryKey]⟩, ⟨['v'], "varchar(3)".toList, [.unique]⟩]

def after (stems : Stems) (events : List Event) : State :=
  events.foldl (fun s e => (execute stems s e).1) {}

def noStems : Stems := ⟨[], []⟩

/-- The catalog of a database with one table. -/
theorem catalog_consistent_twoColumns :
    CatalogConsistent (after noStems [.createDatabase ['d'], .createTable ['t'] twoColumns]) :=
  catalog_consistent (reach_execute
    (reach_execute (.init rfl) (.createDatabase ['d']) ⟨rfl, fun _ _ => trivial⟩ (by decide))
    (.createTable ['t'] twoColumns) ⟨rfl, fun _ _ => trivial⟩ (by decide))

/-- SELECT from a table that has never been created leaves an empty table in the catalog. -/
theorem phantom_table : ¬ ∀ s, (engine noStems).Reach (fun _ e => e.onTables = true) s →
    CatalogConsistent s := by
  intro h
  have hconsistent := h (after noStems [.createDatabase ['d'], .select ['t'] none])
    (reach_execute (reach_execute (.init rfl) (.createDatabase ['d']) rfl (by decide))
      (.select ['t'] none) rfl (by decide)) ['d'] (by decide) ['t']
  exact absurd hconsistent (by decide)

end NanoVault.Catalog
