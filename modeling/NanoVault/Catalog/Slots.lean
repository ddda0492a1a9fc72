/-
The slots of the HFT tables.

The slot of a symbol should be in use exactly while one HFT table of the current database has
the symbol, and then have that table's columns. CREATE HFT TABLE and loading set a slot, but
nothing ever releases one: DROP TABLE, DROP DATABASE, CREATE DATABASE and USE leave the slots of
the tables that are gone (`dropped_slot`), and a second table takes the slot of the first. In
runs where no slot would have to be released and no symbol is taken twice the slots are those of
the tables (`slots_match`).
-/
import NanoVault.Catalog.Consistency

namespace NanoVault.Catalog

open Lib NanoVault.Table NanoVault.Hft

/-- The tables a metadata file lists. -/
def tablesOf (root : JSONValue) : List LoadedTable :=
  match (root.get "tables".toList).bind JSONValue.asArray with
  | .error _ => []
  | .ok items => (items.mapM readTable).toOption.getD []

def State.tablesIn (s : State) (db : Text) : List LoadedTable :=
  ((s.metadata db).map tablesOf).getD []

/-- The tables of the current database. -/
def State.currentTables (s : State) : List LoadedTable :=
  (s.currentDb.map s.tablesIn).getD []

/-- The slot has what the table was created with. -/
structure Shows (slot : TableColumn) (t : LoadedTable) : Prop where
  symbol : slot.symbol = t.symbol
  columnCount : slot.columnCount = t.columns.length
  precisions : ∀ j (node : ColumnNode), t.columns[j]? = some node → slot.precisions j = node.precision
  isTopOrderBook : slot.isTopOrderBook = t.isTop

/-- A slot is in use exactly if one HFT table of the current database has its symbol, and has what
that table was created with. -/
def SlotsMatch (s : State) : Prop :=
  ∀ i : Nat, i < maxHftSymbol →
    ((s.symbolAccessArray i).symbol ≠ -1 ↔ ∃! t, t ∈ s.currentTables ∧ t.symbol = i) ∧
      ∀ t ∈ s.currentTables, t.symbol = i → (s.symbolAccessArray i).symbol ≠ -1 →
        Shows (s.symbolAccessArray i) t

/-- The slots of the current tables are still wanted when these are the current tables. -/
def Covered (us ts : List LoadedTable) : Prop :=
  ∀ u ∈ us, u.symbol ≠ -1 → ∃ t ∈ ts, t.symbol = u.symbol

/-- No slot would have to be released, and a new HFT table fits into a slot that is free. -/
def SlotSafe (s : State) (e : Event) : Prop :=
  e.onTables = true ∧
    match e with
    | .createDatabase name => s.metadata name = none → Covered s.currentTables []
    | .use name => (s.metadata name).isSome → Covered s.currentTables (s.tablesIn name)
    | .dropDatabase name => s.currentDb.isSome → (s.metadata name).isSome →
        Covered s.currentTables []
    | .dropTable name => ∀ t ∈ s.currentTables, t.name = name → t.symbol = -1
    | .createHft name columns symbol _ => ∀ db, s.currentDb = some db → s.find? db name = none →
        SlotFits symbol columns.length ∧ ∀ t ∈ s.currentTables, t.symbol ≠ symbol
    | _ => True

variable {s s' : State} {db d name n : Text} {root : JSONValue} {ts us : List LoadedTable}
  {t : LoadedTable} {stems : Stems} {e : Event} {slots : SymbolAccessArray}

/-! ### The tables of a metadata file -/

theorem mapM_readTable {items : List JSONValue} (h : List.Forall₂ Describes items ts) :
    items.mapM readTable = .ok ts := by
  induction h with
  | nil => rfl
  | cons ht _ ih =>
      rw [List.mapM_cons, ht.1, ih]
      rfl

theorem Written.tablesOf (h : Written root ts) : tablesOf root = ts := by
  obtain ⟨items, hitems, hdescribes⟩ := h.tables
  rw [Catalog.tablesOf, hitems]
  dsimp only
  rw [mapM_readTable hdescribes]
  rfl

theorem Written.tablesIn (h : Written root ts) (hroot : s.metadata db = some root) :
    s.tablesIn db = ts := by
  rw [State.tablesIn, hroot]
  exact h.tablesOf

theorem Written.currentTables (h : Written root ts) (hdb : s.currentDb = some db)
    (hroot : s.metadata db = some root) : s.currentTables = ts := by
  rw [State.currentTables, hdb]
  exact h.tablesIn hroot

theorem State.currentTables_none (h : s.currentDb = none) : s.currentTables = [] := by
  rw [State.currentTables, h]
  rfl

/-! ### Slots and tables -/

/-- The HFT tables have different symbols. -/
def Separate (ts : List LoadedTable) : Prop :=
  ((ts.filter fun t => t.symbol ≠ -1).map fun t => t.symbol.toNat).Nodup

/-- The slots are those of the tables. -/
def SlotsOf (slots : SymbolAccessArray) (ts : List LoadedTable) : Prop :=
  ∀ i : Nat, i < maxHftSymbol →
    (∀ t ∈ ts, t.symbol = i → Shows (slots i) t) ∧
      ((∀ t ∈ ts, t.symbol ≠ i) → (slots i).symbol = -1)

theorem LoadedTable.shows_initIn (t : LoadedTable) (slot : TableColumn) : Shows (t.initIn slot) t := by
  refine ⟨rfl, List.length_map .., fun j node hnode => ?_, rfl⟩
  rw [LoadedTable.initIn, TableColumn.init]
  simp only [List.getElem?_map, hnode, Option.map_some, Option.getD_some]

theorem LoadedTable.Fits.symbol_eq (h : t.Fits) (hft : t.symbol ≠ -1) :
    (t.symbol.toNat : Int) = t.symbol := by
  rcases h with hregular | ⟨⟨i, hi⟩, -⟩
  · exact absurd hregular hft
  · obtain ⟨heq, -⟩ := place_eq_some.mp hi
    omega

/-- Two tables with one symbol are one table. -/
theorem Separate.eq {t u : LoadedTable} (h : Separate ts) (ht : t ∈ ts) (hu : u ∈ ts)
    (hft : t.symbol ≠ -1) (hsymbol : u.symbol = t.symbol) : u = t := by
  have hmem : ∀ {v}, v ∈ ts → v.symbol ≠ -1 → v ∈ ts.filter fun t => t.symbol ≠ -1 :=
    fun hv hne => List.mem_filter.mpr ⟨hv, decide_eq_true hne⟩
  exact List.inj_on_of_nodup_map h (hmem hu (hsymbol ▸ hft)) (hmem ht hft) (by rw [hsymbol])

theorem SlotsOf.slotsMatch (h : SlotsOf s.symbolAccessArray s.currentTables)
    (hseparate : Separate s.currentTables) : SlotsMatch s := by
  intro i hi
  obtain ⟨hshows, hfree⟩ := h i hi
  refine ⟨⟨fun hused => ?_, ?_⟩, fun t ht hsymbol _ => hshows t ht hsymbol⟩
  · by_cases hnone : ∀ t ∈ s.currentTables, t.symbol ≠ i
    · exact absurd (hfree hnone) hused
    · push Not at hnone
      obtain ⟨t, ht, hsymbol⟩ := hnone
      have hft : t.symbol ≠ -1 := by omega
      refine ⟨t, ⟨ht, hsymbol⟩, ?_⟩
      rintro u ⟨hu, husymbol⟩
      exact hseparate.eq ht hu hft (husymbol.trans hsymbol.symm)
  · rintro ⟨t, ⟨ht, hsymbol⟩, -⟩
    rw [(hshows t ht hsymbol).symbol]
    omega

/-- Tables are loaded into slots that are used, at most, by symbols of theirs. -/
theorem SlotsOf.load (h : SlotsOf slots us) (hcovered : Covered us ts) (hfits : ∀ t ∈ ts, t.Fits)
    (hseparate : Separate ts) : SlotsOf (rewriteAll (fun t => t.symbol.toNat) LoadedTable.initIn
      (ts.filter fun t => t.symbol ≠ -1) slots) ts := by
  intro i hi
  constructor
  · intro t ht hsymbol
    have hmem : t ∈ ts.filter fun t => t.symbol ≠ -1 :=
      List.mem_filter.mpr ⟨ht, decide_eq_true (by omega)⟩
    have hslot := rewriteAll_of_mem (f := LoadedTable.initIn) (g := slots) hseparate hmem
    rw [hsymbol, Int.toNat_natCast] at hslot
    rw [hslot]
    exact t.shows_initIn _
  · intro hnone
    rw [rewriteAll_other fun t ht heq => ?_]
    · refine (h i hi).2 fun u hu hsymbol => ?_
      obtain ⟨t, ht, heq⟩ := hcovered u hu (by omega)
      exact hnone t ht (heq.trans hsymbol)
    · obtain ⟨ht, hft⟩ := List.mem_filter.mp ht
      have hplace := (hfits t ht).symbol_eq (of_decide_eq_true hft)
      exact hnone t ht (by omega)

/-- A new table takes its slot. -/
theorem SlotsOf.create (h : SlotsOf slots ts) {i : Nat} (hsymbol : t.symbol = i)
    (hfresh : ∀ u ∈ ts, u.symbol ≠ t.symbol) :
    SlotsOf (Function.update slots i (t.initIn (slots i))) (ts ++ [t]) := by
  intro j hj
  by_cases hji : j = i
  · subst hji
    rw [Function.update_self]
    refine ⟨fun u hu husymbol => ?_, fun hnone => ?_⟩
    · rcases List.mem_append.mp hu with hu | hu
      · exact absurd (husymbol.trans hsymbol.symm) (hfresh u hu)
      · rw [List.mem_singleton.mp hu]
        exact t.shows_initIn _
    · exact absurd hsymbol (hnone t (List.mem_append_right _ List.mem_cons_self))
  · rw [Function.update_of_ne hji]
    refine ⟨fun u hu husymbol => ?_, fun hnone => ?_⟩
    · rcases List.mem_append.mp hu with hu | hu
      · exact (h j hj).1 u hu husymbol
      · rw [List.mem_singleton.mp hu] at husymbol
        omega
    · exact (h j hj).2 fun u hu => hnone u (List.mem_append_left _ hu)

/-- Regular tables have no slots. -/
theorem SlotsOf.congr (h : SlotsOf slots us)
    (hmem : ∀ t : LoadedTable, t.symbol ≠ -1 → (t ∈ ts ↔ t ∈ us)) : SlotsOf slots ts := by
  intro i hi
  refine ⟨fun t ht hsymbol => ?_, fun hnone => ?_⟩
  · exact (h i hi).1 t ((hmem t (by omega)).mp ht) hsymbol
  · refine (h i hi).2 fun t ht hsymbol => ?_
    exact hnone t ((hmem t (by omega)).mpr ht) hsymbol

/-! ### One step -/

structure Slotted (s : State) : Prop where
  sound : Sound s
  separate : ∀ db root ts, s.metadata db = some root → Written root ts → Separate ts
  slots : SlotsOf s.symbolAccessArray s.currentTables

theorem Slotted.init : Slotted {} :=
  ⟨.init, nofun, fun _ _ => ⟨nofun, fun _ => rfl⟩⟩

theorem Slotted.congr (h : Slotted s) (hsound : Sound s') (hmetadata : s'.metadata = s.metadata)
    (hcurrent : s'.currentDb = s.currentDb)
    (hslots : s'.symbolAccessArray = s.symbolAccessArray) : Slotted s' := by
  have htables : s'.currentTables = s.currentTables := by
    rw [State.currentTables, State.currentTables, hcurrent]
    unfold State.tablesIn
    rw [hmetadata]
  refine ⟨hsound, ?_, ?_⟩
  · rw [hmetadata]
    exact h.separate
  · rw [hslots, htables]
    exact h.slots

/-- The metadata file of the current database has been written, with these tables. -/
theorem Slotted.write (h : Slotted s) (hsound : Sound s') (hcurrent : s'.currentDb = some db)
    (hmetadata : s'.metadata = Function.update s.metadata db (some root))
    (hwritten : Written root ts) (hseparate : Separate ts)
    (hslots : SlotsOf s'.symbolAccessArray ts) : Slotted s' := by
  have hself : s'.metadata db = some root := by rw [hmetadata, Function.update_self]
  refine ⟨hsound, fun d r us hr hus => ?_, ?_⟩
  · by_cases hd : d = db
    · subst hd
      obtain rfl := Option.some.inj (hself.symm.trans hr)
      rw [hus.unique hwritten]
      exact hseparate
    · rw [hmetadata, Function.update_of_ne hd] at hr
      exact h.separate d r us hr hus
  · rw [hwritten.currentTables hcurrent hself]
    exact hslots

theorem Separate.sublist (h : Separate ts) (hsub : us.Sublist ts) : Separate us :=
  List.Nodup.sublist ((hsub.filter _).map _) h

/-- A new table whose symbol, if it is an HFT table, no other has. -/
theorem Separate.append (h : Separate ts) (hfits : ∀ u ∈ ts, u.Fits) (hfit : t.Fits)
    (hfresh : t.symbol ≠ -1 → ∀ u ∈ ts, u.symbol ≠ t.symbol) : Separate (ts ++ [t]) := by
  rw [Separate, List.filter_append, List.map_append]
  by_cases hft : t.symbol = -1
  · rw [List.filter_cons_of_neg (by simpa using hft), List.filter_nil, List.map_nil,
      List.append_nil]
    exact h
  · rw [List.filter_cons_of_pos (by simpa using hft), List.filter_nil, List.map_singleton]
    refine List.nodup_append.mpr ⟨h, List.nodup_singleton _, fun x hx y hy heq => ?_⟩
    obtain ⟨u, hu, rfl⟩ := List.mem_map.mp hx
    obtain ⟨hu, hhft⟩ := List.mem_filter.mp hu
    have husymbol := (hfits u hu).symbol_eq (of_decide_eq_true hhft)
    have hsymbol := hfit.symbol_eq hft
    rw [List.mem_singleton.mp hy] at heq
    exact hfresh hft u hu (by omega)

/-- CREATE TABLE and CREATE HFT TABLE. -/
theorem Slotted.create {root' : JSONValue} {symbol : Int} (h : Slotted s)
    (hdb : s.currentDb = some db) (hadds : Adds s db t root' name symbol) (hfit : t.Fits)
    (hfresh : t.symbol ≠ -1 → ∀ u ∈ s.currentTables, u.symbol ≠ t.symbol)
    (hslots : SlotsOf slots (s.currentTables ++ [t])) :
    Slotted { s.create db t root' with symbolAccessArray := slots } := by
  have hsound : Sound { s.create db t root' with symbolAccessArray := slots } :=
    (h.sound.adds hdb hadds hfit).congr rfl rfl rfl fun _ _ => rfl
  obtain ⟨-, -, -, root, ts, hroot, hwritten, hwritten'⟩ := hadds
  obtain ⟨us, hus, hstored⟩ := h.sound.stored db root hroot
  obtain rfl := hwritten.unique hus
  rw [hwritten.currentTables hdb hroot] at hfresh hslots
  exact h.write hsound hdb rfl hwritten'
    ((h.separate db root ts hroot hwritten).append hstored.fits hfit hfresh) hslots

/-- Loading, where the slots in use are covered by the tables that are loaded. -/
theorem Slotted.load (h : Slotted s) (s' : State) (hmetadata : s'.metadata = s.metadata)
    (hcurrent : ∀ db, s'.currentDb = some db → (s.metadata db).isSome)
    (hsound : Sound (initialDatabseLoad s').1) (hslots : SlotsOf s'.symbolAccessArray us)
    (hcovered : Covered us s'.currentTables) : Slotted (initialDatabseLoad s').1 := by
  cases hdb : s'.currentDb with
  | none =>
      rw [State.currentTables_none hdb] at hcovered
      rw [initialDatabseLoad, hdb] at hsound ⊢
      refine ⟨hsound, by rw [hmetadata]; exact h.separate, ?_⟩
      rw [State.currentTables_none hdb]
      exact hslots.load hcovered (List.forall_mem_nil _) List.nodup_nil
  | some db =>
      obtain ⟨root, hroot⟩ := Option.isSome_iff_exists.mp (hcurrent db hdb)
      obtain ⟨ts, hwritten, hstored⟩ := h.sound.stored db root hroot
      rw [hwritten.currentTables hdb (hmetadata ▸ hroot)] at hcovered
      rw [initialDatabseLoad_eq hdb (hmetadata ▸ hroot) hwritten hstored.fits] at hsound ⊢
      obtain ⟨hmeta, hcur, -, -⟩ := foldl_put_frame ts db s'
      refine ⟨hsound, by rw [hmeta, hmetadata]; exact h.separate, ?_⟩
      rw [hwritten.currentTables (hcur.trans hdb) (by rw [hmeta, hmetadata, hroot]),
        slots_foldl_put]
      exact hslots.load hcovered hstored.fits (h.separate db root ts hroot hwritten)

theorem Slotted.createDatabase (h : Slotted s) (name : Text)
    (hcovered : s.metadata name = none → Covered s.currentTables []) :
    Slotted (createDatabase name s).1 := by
  have hsound := h.sound.createDatabase name
  rw [Catalog.createDatabase] at hsound ⊢
  split
  · exact h
  · next hname =>
      rw [if_neg hname] at hsound
      exact h.write hsound rfl rfl (.nil name) List.nodup_nil
        (h.slots.load (hcovered (Option.not_isSome_iff_eq_none.mp hname)) (List.forall_mem_nil _)
          List.nodup_nil)

theorem Slotted.dropDatabase (h : Slotted s) (name : Text)
    (hcovered : (s.metadata name).isSome → Covered s.currentTables []) :
    Slotted (dropDatabase name s).1 := by
  have hsound := h.sound.dropDatabase name
  rw [Catalog.dropDatabase] at hsound ⊢
  split
  · exact h
  · next hname =>
      rw [if_neg hname] at hsound
      refine ⟨hsound, fun d root ts hroot hwritten => ?_, ?_⟩
      · dsimp only at hroot
        rw [Function.update_apply] at hroot
        split at hroot
        · cases hroot
        · exact h.separate d root ts hroot hwritten
      · have hsome : (s.metadata name).isSome := by
          rwa [Option.isNone_iff_eq_none, ← ne_eq, Option.ne_none_iff_isSome] at hname
        exact h.slots.load (hcovered hsome) (List.forall_mem_nil _) List.nodup_nil

theorem Slotted.dropTable (h : Slotted s) (hdb : s.currentDb = some db) (name : Text)
    (hregular : ∀ t ∈ s.currentTables, t.name = name → t.symbol = -1) :
    Slotted (dropTable name db s).1 := by
  have hsound := h.sound.dropTable hdb name
  cases hfind : s.find? db name with
  | none =>
      rw [dropTable_missing hfind]
      exact h
  | some entry =>
      obtain ⟨root, hroot⟩ := Option.isSome_iff_exists.mp (h.sound.current db hdb)
      obtain ⟨ts, hwritten, hstored⟩ := h.sound.stored db root hroot
      obtain ⟨root', hdrop, hwritten'⟩ :=
        dropTable_eq (by rw [hfind]; rfl) hroot hwritten hstored.names
      have hslots := h.slots
      rw [hwritten.currentTables hdb hroot] at hregular hslots
      rw [hdrop] at hsound ⊢
      refine h.write hsound hdb rfl hwritten'
        ((h.separate db root ts hroot hwritten).sublist List.filter_sublist)
        (hslots.congr fun t hft => ?_)
      rw [List.mem_filter, decide_eq_true_iff, and_iff_left_iff_imp]
      exact fun ht hname => hft (hregular t ht hname)

/-- A safe event keeps the slots those of the tables. -/
theorem Slotted.step (h : Slotted s) (hsafe : SlotSafe s e)
    (hends : Ends (execute stems s e).2) : Slotted (execute stems s e).1 := by
  have hsound := h.sound.step hends
  obtain ⟨htables, hsafe⟩ := hsafe
  have hrows : ∀ {db name s'}, RowsOnly db name s s' → s.currentDb = some db → Slotted s' :=
    fun hrows hdb => h.congr (h.sound.rowsOnly hdb hrows) hrows.metadata hrows.currentDb hrows.slots
  cases e with
  | createDatabase name => exact h.createDatabase name hsafe
  | use name =>
      rw [execute] at hsound ⊢
      rcases parseUseStatement_cases name s with ⟨e, -, heq⟩ | ⟨hname, heq⟩
      · rw [heq]
        exact h
      · rw [heq] at hsound ⊢
        refine h.load (s.opening name) rfl (fun db hdb => ?_) hsound h.slots (hsafe hname)
        obtain rfl := Option.some.inj hdb
        exact hname
  | createTable name columns =>
      refine State.withDb_spec (P := fun o => Slotted o.1) (fun _ => h) fun db hdb => ?_
      rcases createTable_cases h.sound hdb name columns with
        ⟨s', e, heq, hsame⟩ | ⟨t, root', hadds, heq⟩
      · rw [heq]
        exact h.congr (h.sound.unchanged hsame) hsame.metadata hsame.currentDb hsame.slots
      · rw [heq]
        obtain ⟨b, hb⟩ := initializeTables_trees
          ((s.create db t root').tables.filter fun x => x.2.1 = name) (s.create db t root')
        rw [hb]
        have hregular := hadds.symbol_eq
        have hslots : SlotsOf s.symbolAccessArray (s.currentTables ++ [t]) := by
          refine h.slots.congr fun u hft => ?_
          -- A table of rows has no symbol, so it asks for no slot.
          rw [List.mem_append, List.mem_singleton, or_iff_left_iff_imp]
          rintro rfl
          exact absurd hregular hft
        have hcreated := h.create hdb hadds (.inl hregular)
          (fun hft => absurd hregular hft) hslots
        exact hcreated.congr (hcreated.sound.congr rfl rfl rfl fun _ _ => rfl) rfl rfl rfl
  | createHft name columns symbol top =>
      refine State.withDb_spec (P := fun o => Ends o.2 → Slotted o.1) (fun _ _ => h)
        (fun db hdb hends => ?_) hends
      rcases createHft_cases h.sound hdb name columns symbol top with
        ⟨s', e, -, heq, hsame⟩ | ⟨root', hadds, ⟨-, hbounds⟩ | ⟨hfits, heq⟩⟩
      · rw [heq]
        exact h.congr (h.sound.unchanged hsame) hsame.metadata hsame.currentDb hsame.slots
      · exact absurd hbounds hends.1
      · rw [heq]
        have hfresh := (hsafe db hdb hadds.fresh).2
        have hfit : (hftTable name columns symbol top).Fits := hfits.fits
        exact h.create hdb hadds hfit (fun _ => hfresh)
          (h.slots.create (hfit.symbol_eq hfits.ne).symm hfresh)
  | dropTable name =>
      exact State.withDb_spec (P := fun o => Slotted o.1) (fun _ => h) fun db hdb =>
        h.dropTable hdb name hsafe
  | dropDatabase name =>
      refine State.withDb_spec (P := fun o => Slotted o.1) (fun _ => h) fun db hdb => ?_
      exact h.dropDatabase name (hsafe (by rw [hdb]; rfl))
  | insert table stmt =>
      exact State.withDb_spec (P := fun o => Slotted o.1) (fun _ => h) fun db hdb =>
        hrows (insertRows_rowsOnly table stmt db s) hdb
  | select table whereClause =>
      exact State.withDb_spec (P := fun o => Slotted o.1) (fun _ => h) fun db hdb =>
        hrows (selectRows_rowsOnly table whereClause db s) hdb
  | update table assignments whereClause =>
      exact State.withDb_spec (P := fun o => Slotted o.1) (fun _ => h) fun db hdb =>
        hrows (updateRows_rowsOnly table assignments whereClause db s) hdb
  | delete table whereClause =>
      exact State.withDb_spec (P := fun o => Slotted o.1) (fun _ => h) fun db hdb =>
        hrows (deleteRows_rowsOnly table whereClause db s) hdb
  | addIndicator stmt => cases htables
  | enableStrategy stmt => cases htables
  | packet p => cases htables
  | restart vacuums =>
      obtain ⟨files, b, f, -, -, heq⟩ := h.sound.restart_cases vacuums
      rw [execute, heq] at hsound ⊢
      have hloaded := h.load s.starting rfl h.sound.current h.sound.starting.1
        (fun _ _ => ⟨List.forall_mem_nil _, fun _ => rfl⟩) (fun _ ht => (List.not_mem_nil ht).elim)
      exact hloaded.congr hsound rfl rfl rfl

/-! ### The condition is exact -/

theorem Slotted.slotsMatch (h : Slotted s) : SlotsMatch s := by
  refine h.slots.slotsMatch ?_
  cases hdb : s.currentDb with
  | none =>
      rw [State.currentTables_none hdb]
      exact List.nodup_nil
  | some db =>
      obtain ⟨root, hroot⟩ := Option.isSome_iff_exists.mp (h.sound.current db hdb)
      obtain ⟨ts, hwritten, -⟩ := h.sound.stored db root hroot
      rw [hwritten.currentTables hdb hroot]
      exact h.separate db root ts hroot hwritten

/-- Each table of the current database is one of its file. -/
theorem Sound.of_mem (h : Sound s) (ht : t ∈ s.currentTables) : ∃ db root ts,
    s.currentDb = some db ∧ s.metadata db = some root ∧ Written root ts ∧ Stored s db ts ∧
      t ∈ ts := by
  cases hdb : s.currentDb with
  | none =>
      rw [State.currentTables_none hdb] at ht
      cases ht
  | some db =>
      obtain ⟨root, hroot⟩ := Option.isSome_iff_exists.mp (h.current db hdb)
      obtain ⟨ts, hwritten, hstored⟩ := h.stored db root hroot
      rw [hwritten.currentTables hdb hroot] at ht
      exact ⟨db, root, ts, rfl, hroot, hwritten, hstored, ht⟩

/-- Where the event has set no slots but those of the tables that are there now, these have the
symbols of the tables that were there before. -/
theorem Slotted.covered (h : Slotted s) (hmatch : SlotsMatch s')
    (hslots : ∀ i : Nat, (∀ t ∈ s'.currentTables, t.symbol ≠ i) →
      s'.symbolAccessArray i = s.symbolAccessArray i) :
    Covered s.currentTables s'.currentTables := by
  intro u hu hft
  by_contra hnone
  push Not at hnone
  obtain ⟨db, root, ts, -, -, -, hstored, hmem⟩ := h.sound.of_mem hu
  have hsymbol := (hstored.fits u hmem).symbol_eq hft
  have hi : u.symbol.toNat < maxHftSymbol := by
    rcases hstored.fits u hmem with hregular | ⟨⟨i, hi⟩, -⟩
    · exact absurd hregular hft
    · obtain ⟨heq, hi⟩ := place_eq_some.mp hi
      omega
  have hfree := hslots u.symbol.toNat fun t ht => hsymbol.symm ▸ hnone t ht
  have hused : (s'.symbolAccessArray u.symbol.toNat).symbol ≠ -1 := by
    rw [hfree, ((h.slots _ hi).1 u hu hsymbol.symm).symbol]
    exact hft
  obtain ⟨t, ⟨ht, htsymbol⟩, -⟩ := (hmatch _ hi).1.mp hused
  exact hnone t ht (htsymbol.trans hsymbol)

/-- Where there are no tables now and the slots are as before, there were no HFT tables. -/
theorem Slotted.covered_nil (h : Slotted s) (hmatch : SlotsMatch s')
    (htables : s'.currentTables = []) (hslots : s'.symbolAccessArray = s.symbolAccessArray) :
    Covered s.currentTables [] :=
  htables ▸ h.covered hmatch fun i _ => by rw [hslots]

/-- A new HFT table whose slot is then its own had a symbol that no table had. -/
theorem Slotted.unused {columns : List ColumnDefinition} {symbol : Int} {top : Bool}
    {root' : JSONValue} (h : Slotted s) (hdb : s.currentDb = some db)
    (hadds : Adds s db (hftTable name columns symbol top) root' name symbol)
    (hfits : SlotFits symbol columns.length)
    (hmatch : SlotsMatch { s.create db (hftTable name columns symbol top) root' with
      symbolAccessArray := Function.update s.symbolAccessArray symbol.toNat
        ((hftTable name columns symbol top).initIn (s.symbolAccessArray symbol.toNat)) }) :
    ∀ t ∈ s.currentTables, t.symbol ≠ symbol := by
  intro u hu husymbol
  obtain ⟨-, -, hfresh, root, ts, hroot, hwritten, hwritten'⟩ := hadds
  obtain ⟨us, hus, hstored⟩ := h.sound.stored db root hroot
  obtain rfl := hwritten.unique hus
  rw [hwritten.currentTables hdb hroot] at hu
  obtain ⟨i, hi⟩ := hfits.1
  obtain ⟨rfl, hlt⟩ := place_eq_some.mp hi
  have hslot := (hmatch i hlt).1.mp (by
    dsimp only
    rw [Int.toNat_natCast, Function.update_self]
    exact hfits.ne)
  rw [hwritten'.currentTables (s := { s.create db _ root' with symbolAccessArray := _ }) hdb
    (Function.update_self ..)] at hslot
  have heq := hslot.unique ⟨List.mem_append_left _ hu, husymbol⟩
    ⟨List.mem_append_right _ List.mem_cons_self, rfl⟩
  -- the new table has a name of its own
  have hcached := hstored.cached hdb u hu
  rw [heq, show (hftTable name columns (i : Int) top).name = name from rfl, hfresh] at hcached
  cases hcached

/-- After an event that leaves no array the slots are those of the tables exactly if the event is
safe. -/
theorem Slotted.safe_iff (h : Slotted s) (htables : e.onTables = true)
    (hends : Ends (execute stems s e).2) : SlotsMatch (execute stems s e).1 ↔ SlotSafe s e := by
  refine ⟨fun hmatch => ⟨htables, ?_⟩, fun hsafe => (h.step hsafe hends).slotsMatch⟩
  cases e with
  | createDatabase name =>
      intro hnone
      rw [execute, Catalog.createDatabase, hnone] at hmatch
      exact h.covered_nil hmatch
        ((Written.nil name).currentTables rfl (Function.update_self ..)) rfl
  | use name =>
      intro hname
      rcases parseUseStatement_cases name s with ⟨e, hnone, -⟩ | ⟨-, heq⟩
      · rw [hnone] at hname
        cases hname
      · obtain ⟨root, hroot⟩ := Option.isSome_iff_exists.mp hname
        obtain ⟨ts, hwritten, hstored⟩ := h.sound.stored name root hroot
        rw [execute, heq,
          initialDatabseLoad_eq (s := s.opening name) rfl hroot hwritten hstored.fits] at hmatch
        obtain ⟨hmeta, hcur, -, -⟩ := foldl_put_frame ts name (s.opening name)
        have htables : (ts.foldl (LoadedTable.put name) (s.opening name)).currentTables = ts :=
          hwritten.currentTables hcur (by rw [hmeta]; exact hroot)
        rw [hwritten.tablesIn hroot]
        refine htables ▸ h.covered hmatch fun i hfree => ?_
        rw [htables] at hfree
        rw [slots_foldl_put]
        refine rewriteAll_other fun t ht heq => ?_
        obtain ⟨ht, hft⟩ := List.mem_filter.mp ht
        have hsymbol := (hstored.fits t ht).symbol_eq (of_decide_eq_true hft)
        exact hfree t ht (by omega)
  | createTable name columns => trivial
  | createHft name columns symbol top =>
      intro db hdb hfresh
      rw [execute, State.withDb, hdb] at hmatch hends
      dsimp only at hmatch hends
      rcases createHft_cases h.sound hdb name columns symbol top with
        ⟨s', e, hsome, -, -⟩ | ⟨root', hadds, ⟨-, hbounds⟩ | ⟨hfits, heq⟩⟩
      · rw [hfresh] at hsome
        cases hsome
      · exact absurd hbounds hends.1
      · rw [heq] at hmatch
        exact ⟨hfits, h.unused hdb hadds hfits hmatch⟩
  | dropTable name =>
      intro t ht hname
      obtain ⟨db, root, ts, hdb, hroot, hwritten, hstored, hmem⟩ := h.sound.of_mem ht
      have hsome : (s.find? db name).isSome := by
        rw [← hname, hstored.cached hdb t hmem]
        rfl
      obtain ⟨root', hdrop, hwritten'⟩ := dropTable_eq hsome hroot hwritten hstored.names
      rw [execute, State.withDb, hdb] at hmatch
      dsimp only at hmatch
      rw [hdrop] at hmatch
      have htables : (s.drop db name root').currentTables = _ :=
        hwritten'.currentTables hdb (Function.update_self ..)
      have hcovered := htables ▸ h.covered hmatch fun _ _ => rfl
      by_contra hft
      obtain ⟨u, hu, hsymbol⟩ := hcovered t ht hft
      obtain ⟨hu, hother⟩ := List.mem_filter.mp hu
      -- The slot would be that of another table that is kept, and no two share one.
      obtain rfl := (h.separate db root ts hroot hwritten).eq hmem hu hft hsymbol
      exact of_decide_eq_true hother hname
  | dropDatabase name =>
      intro hsome hname
      obtain ⟨db, hdb⟩ := Option.isSome_iff_exists.mp hsome
      obtain ⟨root, hroot⟩ := Option.isSome_iff_exists.mp hname
      rw [execute, State.withDb, hdb] at hmatch
      dsimp only at hmatch
      rw [Catalog.dropDatabase, hroot] at hmatch
      exact h.covered_nil hmatch (State.currentTables_none rfl) rfl
  | insert table stmt => trivial
  | select table whereClause => trivial
  | update table assignments whereClause => trivial
  | delete table whereClause => trivial
  | addIndicator stmt => trivial
  | enableStrategy stmt => trivial
  | packet p => trivial
  | restart vacuums => trivial

/-! ### Runs -/

theorem SlotSafe.ends (hsound : Sound s) (h : SlotSafe s e) : Ends (execute stems s e).2 := by
  obtain ⟨htables, hsafe⟩ := h
  refine hsound.ends htables fun db name columns symbol top hdb he hfresh => ?_
  subst he
  exact (hsafe db hdb hfresh).1

theorem slotted_of_reach (h : (engine stems).Reach SlotSafe s) : Slotted s := by
  refine h.invariant (I := Slotted) (fun s hs => ?_) fun s e s' hinv hsafe hstep => ?_
  · obtain rfl : s = {} := hs
    exact .init
  · have hends : Ends (execute stems s e).2 := hsafe.ends hinv.sound
    obtain rfl := follows_ends hstep hends
    exact hinv.step hsafe hends

/-- A packet whose symbol no table has. -/
theorem Slotted.packet_ignored (h : Slotted s) {p : Packet}
    (hnone : ∀ t ∈ s.currentTables, t.symbol ≠ p.tick.toInt) :
    processPacket s.symbolAccessArray p = .ok (s.symbolAccessArray, []) := by
  rw [processPacket]
  cases hplace : place p.tick.toInt with
  | none => rfl
  | some i =>
      obtain ⟨heq, hi⟩ := place_eq_some.mp hplace
      rw [← heq] at hnone
      exact if_pos (.inl ((h.slots i hi).2 hnone))

/-- In a run of safe events the slots are those of the tables in every state; packets for other
symbols change nothing, and no two tables share a slot. A further event keeps it so exactly if it
is safe. -/
theorem slots_match (h : (engine stems).Reach SlotSafe s) : SlotsMatch s ∧
    (∀ p : Packet, (∀ t ∈ s.currentTables, t.symbol ≠ p.tick.toInt) →
      processPacket s.symbolAccessArray p = .ok (s.symbolAccessArray, [])) ∧
    (∀ t ∈ s.currentTables, ∀ u ∈ s.currentTables, t.symbol ≠ -1 → u.symbol = t.symbol → u = t) ∧
    ∀ e, e.onTables = true → Ends (execute stems s e).2 →
      (SlotsMatch (execute stems s e).1 ↔ SlotSafe s e) := by
  have hinv := slotted_of_reach h
  refine ⟨hinv.slotsMatch, fun p hnone => hinv.packet_ignored hnone, ?_,
    fun e htables hends => hinv.safe_iff htables hends⟩
  intro t ht u hu hft hsymbol
  obtain ⟨db, root, ts, hdb, hroot, hwritten, -, hmem⟩ := hinv.sound.of_mem ht
  rw [hwritten.currentTables hdb hroot] at hu
  exact (hinv.separate db root ts hroot hwritten).eq hmem hu hft hsymbol

/-- CREATE HFT TABLE t with one column and the symbol 1. -/
def createTicks : Event := .createHft ['t'] [{ name := ['p'], type := [], precision := 2 }] 1 false

/-- The slot of a new HFT table. -/
theorem slots_match_ticks : SlotsMatch (after noStems [.createDatabase ['d'], createTicks]) := by
  refine (slots_match (reach_execute
    (reach_execute (.init rfl) (.createDatabase ['d']) ⟨rfl, fun _ => nofun⟩ (by decide))
    createTicks ⟨rfl, fun db _ _ => ⟨⟨⟨1, rfl⟩, by decide⟩, ?_⟩⟩ (by decide))).1
  decide

/-- DROP TABLE leaves the slot of the table in use. -/
theorem dropped_slot : ¬ ∀ s, (engine noStems).Reach (fun _ e => e.onTables = true) s →
    SlotsMatch s := by
  intro h
  have hmatch := h (after noStems [.createDatabase ['d'], createTicks, .dropTable ['t']])
    (reach_execute (reach_execute (reach_execute (.init rfl) (.createDatabase ['d']) rfl
      (by decide)) createTicks rfl (by decide)) (.dropTable ['t']) rfl (by decide))
  obtain ⟨t, ⟨ht, -⟩, -⟩ := (hmatch 1 (by decide)).1.mp (by decide)
  have hnone : (after noStems
    [.createDatabase ['d'], createTicks, .dropTable ['t']]).currentTables = [] := by decide
  rw [hnone] at ht
  cases ht

end NanoVault.Catalog
