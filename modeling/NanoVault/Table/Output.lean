/-
What SELECT prints, and what a client reads of it (`SelectQueryHandler` with `JSONParser`).

`handle` prints every row as an object of its columns, names and values between quotes as they are.
The columns come in the order in which the `unordered_map` of a row is gone through, a parameter of
everything here. Read as JSON the text gives the stored rows exactly where no name and no value has a quote or a
backslash, and every column whose name comes before that of the primary key holds the row's id
(`select_decodes`): the first of all names is given the id, and those behind it the values of the
columns in front of them, up to the primary key.
-/
import NanoVault.Json.RoundTrip
import NanoVault.Table.Deletion
import NanoVault.Table.Updates

namespace NanoVault.Table

open Lib
open NanoVault.Json (JSONValue Doubles Clean quoted listing Printed parse parseField
  appendFromString specials readCost printCost)

/-! ### The text -/

def valueToJson : Value → Text
  | .int v => toText v
  | .text s => quoted s
  | .bool b => if b then "true".toList else "false".toList

/-- What `firstRow` and `firstCol` are for: a comma in front of each text but the first. -/
def commaSeparated : List Text → Text
  | [] => []
  | t :: ts => t ++ ts.flatMap fun t => ',' :: t

/-- The order in which the `unordered_map` of a row is gone through. -/
structure HashOrder where
  entries : Row → List (Text × Value)
  perm : ∀ row, (entries row).Perm row.entries

/-- What is inserted last comes first, as long as no two names share a bucket. -/
def HashOrder.reversed : HashOrder := ⟨fun row => row.entries.reverse, fun _ => List.reverse_perm _⟩

def rowToJson (order : HashOrder) (row : Row) : Text :=
  '\x7b' :: (commaSeparated ((order.entries row).map fun e => quoted e.1 ++ ':' :: valueToJson e.2) ++
    ['\x7d'])

/-- The text `handle` returns for the rows it prints. -/
def printRows (order : HashOrder) (rows : List Row) : Text :=
  '[' :: (commaSeparated (rows.map (rowToJson order)) ++ [']'])

/-- What SELECT answers. -/
def selectText (order : HashOrder) (whereClause : Option Expression) (t : TableState) :
    Except Fault Text :=
  (handle whereClause t).map (printRows order)

/-! ### What is stored -/

/-- The names of the columns with the texts of a record, as INSERT has stored them. -/
def storedFields (columns : List Column) (r : Record) : List (Text × Text) :=
  (lastPrimary columns :: (actualColumns columns).map Column.name).zip (digits r.id :: r.values)

/-- An object that maps every name to its text, and nothing else. -/
def MapsTo {δ : Type} (stored : List (Text × Text)) (v : JSONValue δ) : Prop :=
  ∃ fields, v = .object fields ∧
    ∀ key w, (key, w) ∈ fields ↔ ∃ s, (key, s) ∈ stored ∧ w = .string s

/-- The text SELECT * answers is read as the array of the stored rows. -/
def Decodes {δ : Type} (D : Doubles δ) (order : HashOrder) (t : TableState) (rs : List Record) :
    Prop :=
  ∃ text vs, selectText order none t = .ok text ∧ appendFromString D [] text = some [.array vs] ∧
    List.Forall₂ (fun r v => MapsTo (storedFields t.columns r) v) (live rs) vs

/-- A row that SELECT prints so that it can be read: nothing that means something between quotes,
the id in all columns in front of the primary key, and columns of one name with one text. -/
structure Printable (columns : List Column) (r : Record) : Prop where
  clean : ∀ f ∈ storedFields columns r, Clean f.1 ∧ Clean f.2
  first : ∀ f ∈ storedFields columns r, f.1 < lastPrimary columns → f.2 = digits r.id
  single : ∀ f ∈ storedFields columns r, ∀ g ∈ storedFields columns r, f.1 = g.1 → f.2 = g.2

variable {δ : Type} {D : Doubles δ} {k : Nat} {t : TableState} {r : Record} {rs : List Record}
  {order : HashOrder} {row : Row} {rows : List Row} {columns : List Column} {names vs : List Text}
  {key : Text}

/-! ### Rows of texts -/

def rowObject (row : Row) : JSONValue δ :=
  .object (row.entries.map fun e => (e.1, .string (valueToStorageString e.2)))

/-- A row of texts that mean nothing between quotes. -/
def CleanRow (row : Row) : Prop :=
  ∀ e ∈ row.entries, Clean e.1 ∧ ∃ s, e.2 = .text s ∧ Clean s

theorem commaSeparated_eq (ts : List Text) : commaSeparated ts = listing [] ts := by
  cases ts <;> rfl

/-- A clean row is read back, in whatever order its columns are printed. -/
theorem printed_row (h : CleanRow row) :
    Printed (parse D) (rowToJson order row) (some (rowObject row)) := by
  have hfields : List.Forall₂ (Printed (parseField (parse D)))
      ((order.entries row).map fun e => quoted e.1 ++ ':' :: valueToJson e.2)
      (((order.entries row).map fun e =>
        (e.1, (JSONValue.string (valueToStorageString e.2) : JSONValue δ))).map some) := by
    rw [List.map_map, List.forall₂_map_left_iff, List.forall₂_map_right_iff, List.forall₂_same]
    intro e he
    obtain ⟨hkey, s, hs, hclean⟩ := h e ((order.perm row).mem_iff.mp he)
    rw [Function.comp_apply, hs]
    exact .field Json.parse_skipsBlanks hkey (Json.blank_replicate 0) (.string hclean)
  have hsorted : (row.entries.map fun e =>
      (e.1, (JSONValue.string (valueToStorageString e.2) : JSONValue δ))).Pairwise
        fun a b => a.1 < b.1 := List.pairwise_map.mpr row.sorted
  have hobject := Printed.object hfields (Json.blank_replicate 0) (Json.blank_replicate 0)
  rw [Json.mapM_map_some, Option.map_some,
    Json.assignAll_perm ((order.perm row).map _) hsorted] at hobject
  rw [rowToJson, commaSeparated_eq]
  exact hobject

/-- Clean rows are read back. -/
theorem parse_printRows (h : ∀ row ∈ rows, CleanRow row) :
    parse D (printRows order rows) = .ok (.array (rows.map rowObject), []) := by
  have hrows : List.Forall₂ (Printed (parse D)) (rows.map (rowToJson order))
      ((rows.map rowObject).map some) := by
    rw [List.map_map, List.forall₂_map_left_iff, List.forall₂_map_right_iff, List.forall₂_same]
    exact fun row hrow => printed_row (h row hrow)
  have harray := Printed.array hrows (Json.blank_replicate 0) (Json.blank_replicate 0)
  have hread := harray.answers [] (fun c hc => by cases hc)
  rw [Json.mapM_map_some, List.append_nil] at hread
  rw [printRows, commaSeparated_eq]
  exact Json.toOption_eq_some hread

/-! ### Where SELECT puts the values -/

theorem mem_fill {e : Text × Value} (h : e ∈ (fill row names vs).entries) :
    e ∈ row.entries ∨ ∃ p ∈ names.zip vs, e = (p.1, .text p.2) := by
  rw [fill] at h
  generalize names.zip vs = pairs at h ⊢
  induction pairs generalizing row with
  | nil => exact .inl h
  | cons p pairs ih =>
      rcases ih h with hrow | ⟨p', hp', heq⟩
      · have hinsert : e ∈ SortedMap.insertEntry (· < ·) p.1 (.text p.2) row.entries := hrow
        rcases SortedMap.mem_insertEntry hinsert with heq | hrow
        · exact .inr ⟨p, List.mem_cons_self, heq⟩
        · exact .inl hrow
      · exact .inr ⟨p', List.mem_cons_of_mem _ hp', heq⟩

theorem rowOf_eq (hnames : names ≠ []) (r : Record) :
    rowOf names r = fill SortedMap.empty names (digits r.id :: r.values) := by
  obtain ⟨first, rest, rfl⟩ := List.exists_cons_of_ne_nil hnames
  rfl

/-- The entries of a row are among the names and texts it is made of. -/
theorem mem_rowOf {e : Text × Value} (h : e ∈ (rowOf names r).entries) :
    ∃ p ∈ names.zip (digits r.id :: r.values), e = (p.1, .text p.2) := by
  cases names with
  | nil => cases h
  | cons first rest =>
      rw [rowOf_eq (by simp)] at h
      exact (mem_fill h).resolve_left fun hnone => by cases hnone

/-- Where each name has one text, a row shows all of them. -/
theorem rowOf_mapsTo (hlength : names.length = r.values.length + 1)
    (hsingle : ∀ p ∈ names.zip (digits r.id :: r.values),
      ∀ p' ∈ names.zip (digits r.id :: r.values), p.1 = p'.1 → p.2 = p'.2) :
    MapsTo (names.zip (digits r.id :: r.values)) (rowObject (rowOf names r) : JSONValue δ) := by
  refine ⟨_, rfl, fun key w => ?_⟩
  rw [List.mem_map]
  constructor
  · rintro ⟨e, he, heq⟩
    obtain ⟨p, hp, rfl⟩ := mem_rowOf he
    cases heq
    exact ⟨p.2, hp, rfl⟩
  · rintro ⟨s, hs, rfl⟩
    obtain ⟨s', hfind⟩ := rowOf_hasText hlength (List.of_mem_zip hs).1
    have hmem := SortedMap.find?_eq_some.mp hfind
    obtain ⟨p, hp, heq⟩ := mem_rowOf hmem
    obtain ⟨hkey, htext⟩ := Prod.mk.inj heq
    have hsame := hsingle _ hs p hp hkey
    exact ⟨_, hmem, by rw [htext]; exact congrArg (fun s => (key, JSONValue.string s)) hsame.symm⟩

/-- The id in front of the values, and the name of the primary key at its place among the others:
if the id stands in all columns in front of it too, each name has its own value. -/
theorem zip_orderedInsert_perm {name x : Text} (hlength : names.length = vs.length)
    (hfirst : ∀ p ∈ names.zip vs, p.1 < name → p.2 = x) :
    ((names.orderedInsert (· ≤ ·) name).zip (x :: vs)).Perm ((name :: names).zip (x :: vs)) := by
  induction names generalizing vs with
  | nil => exact .refl _
  | cons b names ih =>
      cases vs with
      | nil => cases hlength
      | cons v vs =>
          rw [List.orderedInsert_cons]
          split
          · exact .refl _
          · next hle =>
              obtain rfl : v = x := hfirst (b, v) List.mem_cons_self (not_le.mp hle)
              have hrest := ih (Nat.succ.inj hlength) fun p hp =>
                hfirst p (List.mem_cons_of_mem _ hp)
              exact (hrest.cons (b, v)).trans (.swap _ _ _)

/-- With different names there is no other way. -/
theorem first_of_zip {name x : Text} (hlength : names.length = vs.length)
    (hnodup : (name :: names).Nodup) (h : ∀ p ∈ (names.orderedInsert (· ≤ ·) name).zip (x :: vs),
      p ∈ (name :: names).zip (x :: vs)) (hsorted : names.Pairwise (· ≤ ·)) :
    ∀ p ∈ names.zip vs, p.1 < name → p.2 = x := by
  induction names generalizing vs with
  | nil => exact fun p hp => by cases hp
  | cons b names ih =>
      cases vs with
      | nil => cases hlength
      | cons v vs =>
          rw [List.orderedInsert_cons] at h
          split at h
          · next hle =>
              intro p hp hlt
              have hname := (List.of_mem_zip hp).1
              have hb : b ≤ p.1 := by
                rcases List.mem_cons.mp hname with heq | hmem
                · exact heq.ge
                · exact (List.pairwise_cons.mp hsorted).1 _ hmem
              exact absurd (hle.trans hb) (not_le.mpr hlt)
          · next hle =>
              obtain ⟨hname, hrest⟩ := List.nodup_cons.mp hnodup
              obtain ⟨hb, hnames⟩ := List.nodup_cons.mp hrest
              have hne : b ≠ name := fun heq => hname (heq ▸ List.mem_cons_self)
              have hfirst : (b, x) ∈ (name :: b :: names).zip (x :: v :: vs) :=
                h _ List.mem_cons_self
              rw [List.zip_cons_cons, List.zip_cons_cons, List.mem_cons, List.mem_cons] at hfirst
              have hv : v = x := by
                obtain heq | heq | hmem := hfirst
                · exact absurd (Prod.mk.inj heq).1 hne
                · exact (Prod.mk.inj heq).2.symm
                · exact absurd (List.of_mem_zip hmem).1 hb
              subst hv
              have hbehind := ih (Nat.succ.inj hlength)
                (List.nodup_cons.mpr ⟨fun hmem => hname (List.mem_cons_of_mem _ hmem), hnames⟩)
                (fun p hp => ?_) (List.pairwise_cons.mp hsorted).2
              · intro p hp hlt
                rcases List.mem_cons.mp hp with rfl | hp
                · rfl
                · exact hbehind p hp hlt
              · have hpb : p.1 ≠ b := by
                  have hmem := (List.of_mem_zip hp).1
                  rw [List.mem_orderedInsert] at hmem
                  rintro rfl
                  obtain heq | hmem := hmem
                  · exact hne heq
                  · exact hb hmem
                have hp := h p (List.mem_cons_of_mem _ hp)
                rw [List.zip_cons_cons, List.zip_cons_cons, List.mem_cons, List.mem_cons] at hp
                obtain rfl | rfl | hp := hp
                · exact List.mem_cons_self
                · exact absurd rfl hpb
                · exact List.mem_cons_of_mem _ hp

/-- Different names have one text each. -/
theorem zip_single (hnodup : names.Nodup) {p p' : Text × Text} (hp : p ∈ names.zip vs)
    (hp' : p' ∈ names.zip vs) (heq : p.1 = p'.1) : p.2 = p'.2 := by
  have hfill : ∀ p ∈ names.zip vs,
      (fill SortedMap.empty names vs).find? p.1 = some (.text p.2) :=
    fun p hp => fill_of_mem hnodup hp
  have hboth := (hfill p hp).symm.trans ((congrArg _ heq).trans (hfill p' hp'))
  exact Value.text.inj (Option.some.inj hboth)

theorem zip_nodup (h : names.Nodup) : (names.zip vs).Nodup := by
  induction names generalizing vs with
  | nil => exact List.nodup_nil
  | cons name names ih =>
      cases vs with
      | nil => exact List.nodup_nil
      | cons v vs =>
          obtain ⟨hname, hnames⟩ := List.nodup_cons.mp h
          exact List.nodup_cons.mpr ⟨fun hmem => hname (List.of_mem_zip hmem).1, ih hnames⟩

/-! ### What the text holds -/

theorem specials_commaSeparated (ts : List Text) :
    specials (commaSeparated ts) = (ts.map specials).sum := by
  cases ts with
  | nil => rfl
  | cons t ts =>
      have hrest : specials (ts.flatMap fun t => ',' :: t) = (ts.map specials).sum := by
        induction ts with
        | nil => rfl
        | cons t ts ih =>
            rw [List.flatMap_cons, Json.specials_append, ih, Json.specials_cons]
            simp [Json.isSpecial]
      rw [commaSeparated, Json.specials_append, hrest, List.map_cons, List.sum_cons]

theorem specials_printRows (order : HashOrder) (rows : List Row) :
    specials (printRows order rows) = (rows.map fun row =>
      (row.entries.map fun e => printCost e.1 + specials (valueToJson e.2)).sum).sum := by
  have hrow : ∀ row : Row, specials (rowToJson order row) =
      (row.entries.map fun e => printCost e.1 + specials (valueToJson e.2)).sum := by
    intro row
    rw [← ((order.perm row).map _).sum_eq]
    have hentry : ∀ e : Text × Value, specials (quoted e.1 ++ ':' :: valueToJson e.2) =
        printCost e.1 + specials (valueToJson e.2) := by
      intro e
      rw [Json.specials_append, Json.specials_quoted, Json.specials_cons]
      rfl
    rw [rowToJson, Json.specials_cons, Json.specials_append, specials_commaSeparated, List.map_map]
    simp only [Function.comp_def, hentry]
    simp [Json.isSpecial, specials]
  rw [printRows, Json.specials_cons, Json.specials_append, specials_commaSeparated, List.map_map]
  simp only [Function.comp_def, hrow]
  simp [Json.isSpecial, specials]

/-- A row is printed with no more than its names and texts hold. -/
theorem specials_rowOf_le (names : List Text) (r : Record) :
    ((rowOf names r).entries.map fun e => printCost e.1 + specials (valueToJson e.2)).sum ≤
      ((names.zip (digits r.id :: r.values)).map fun p => printCost p.1 + printCost p.2).sum := by
  have hsub : (rowOf names r).entries.Subperm
      ((names.zip (digits r.id :: r.values)).map fun p => (p.1, Value.text p.2)) := by
    refine List.subperm_of_subset (SortedMap.nodup_entries _) fun e he => ?_
    obtain ⟨p, hp, rfl⟩ := mem_rowOf he
    exact List.mem_map_of_mem hp
  obtain ⟨l, hperm, hsub⟩ := hsub
  rw [← (hperm.map _).sum_eq]
  refine ((hsub.map _).sum_le_sum fun _ _ => Nat.zero_le _).trans_eq ?_
  rw [List.map_map]
  refine congrArg List.sum (List.map_congr_left fun p _ => ?_)
  exact congrArg (printCost p.1 + ·) (Json.specials_quoted p.2)

/-- An object that maps names to texts has cost what these cost. -/
theorem MapsTo.cost_le {stored : List (Text × Text)} {v : JSONValue δ} (h : MapsTo stored v)
    (hnodup : stored.Nodup) :
    (stored.map fun p => readCost p.1 + readCost p.2).sum ≤ v.total readCost := by
  obtain ⟨fields, rfl, hfields⟩ := h
  have hsub : (stored.map fun p => (p.1, (JSONValue.string p.2 : JSONValue δ))).Subperm fields := by
    refine List.subperm_of_subset (hnodup.map ?_) fun f hf => ?_
    · rintro ⟨key, s⟩ ⟨key', s'⟩ heq
      obtain ⟨hkey, hs⟩ := Prod.mk.inj heq
      exact Prod.ext hkey (JSONValue.string.inj hs)
    · obtain ⟨p, hp, rfl⟩ := List.mem_map.mp hf
      exact (hfields _ _).mpr ⟨p.2, hp, rfl⟩
  obtain ⟨l, hperm, hsub⟩ := hsub
  have hsum : (stored.map fun p => readCost p.1 + readCost p.2).sum =
      ((stored.map fun p => (p.1, (JSONValue.string p.2 : JSONValue δ))).map fun f =>
        readCost f.1 + f.2.total readCost).sum := by
    rw [List.map_map]
    refine congrArg List.sum (List.map_congr_left fun p _ => ?_)
    exact congrArg (readCost p.1 + ·) (Json.total_string p.2).symm
  rw [hsum, Json.total_object, ← (hperm.map _).sum_eq]
  exact (hsub.map _).sum_le_sum fun _ _ => Nat.zero_le _

/-! ### SELECT * -/

/-- The names SELECT goes through, from those INSERT writes. -/
theorem OnePrimary.allColumnNames (h : OnePrimary columns) : allColumnNames columns =
    ((actualColumns columns).map Column.name).orderedInsert (· ≤ ·) (lastPrimary columns) := by
  obtain ⟨pk, hpk, hprimary, -⟩ := h.exists_pk
  have hprimaries := h.primaries hpk hprimary
  rw [allColumnNames_of_primaries hprimaries, lastPrimary_of_primaries hprimaries]

theorem Keeps.selectText_none (h : Keeps k t rs) (order : HashOrder) :
    selectText order none t = .ok (printRows order (liveRows (Table.allColumnNames t.columns) rs)) := by
  rw [selectText, handle_eq_select, h.stores.readable.select h.columns, passing_none]
  rfl

theorem Keeps.values_length (h : Keeps k t rs) (hr : r ∈ live rs) :
    ((actualColumns t.columns).map Column.name).length = r.values.length := by
  rw [List.length_map, actualColumns_length, h.others]
  exact (h.stores.width r (List.mem_filter.mp hr).1).symm

/-- A printable row shows what is stored. -/
theorem Printable.perm (hone : OnePrimary columns) (h : Printable columns r)
    (hlength : ((actualColumns columns).map Column.name).length = r.values.length) :
    ((Table.allColumnNames columns).zip (digits r.id :: r.values)).Perm
      (storedFields columns r) := by
  rw [hone.allColumnNames]
  exact zip_orderedInsert_perm hlength fun p hp => h.first p (List.mem_cons_of_mem _ hp)

theorem names_length (hone : OnePrimary columns)
    (hlength : ((actualColumns columns).map Column.name).length = r.values.length) :
    (Table.allColumnNames columns).length = r.values.length + 1 := by
  rw [hone.allColumnNames, List.orderedInsert_length, hlength]

theorem Keeps.decodes (hone : OnePrimary t.columns) (h : Keeps k t rs)
    (hprint : ∀ r ∈ live rs, Printable t.columns r) (D : Doubles δ) (order : HashOrder) :
    Decodes D order t rs := by
  have hclean : ∀ row ∈ liveRows (Table.allColumnNames t.columns) rs, CleanRow row := by
    intro row hrow e he
    obtain ⟨r, hr, rfl⟩ := List.mem_map.mp hrow
    obtain ⟨p, hp, rfl⟩ := mem_rowOf he
    have hstored := ((hprint r hr).perm hone (h.values_length hr)).subset hp
    obtain ⟨hname, htext⟩ := (hprint r hr).clean p hstored
    exact ⟨hname, p.2, rfl, htext⟩
  refine ⟨_, (liveRows (Table.allColumnNames t.columns) rs).map rowObject,
    h.selectText_none order, ?_, ?_⟩
  · rw [appendFromString, parse_printRows hclean]
    rfl
  · rw [liveRows, List.map_map, List.forall₂_map_right_iff, List.forall₂_same]
    intro r hr
    have hperm := (hprint r hr).perm hone (h.values_length hr)
    obtain ⟨fields, hobject, hfields⟩ := rowOf_mapsTo (δ := δ) (names_length hone (h.values_length hr))
      fun p hp p' hp' => (hprint r hr).single p (hperm.subset hp) p' (hperm.subset hp')
    refine ⟨fields, hobject, fun key w => (hfields key w).trans ?_⟩
    simp only [hperm.mem_iff]

theorem sum_cost_add (l : List (Text × Text)) :
    (l.map fun p => readCost p.1 + readCost p.2).sum =
      (l.map fun p => printCost p.1 + printCost p.2).sum +
        (l.map fun p => specials p.1 + specials p.2).sum := by
  rw [← List.sum_map_add]
  refine congrArg List.sum (List.map_congr_left fun p _ => ?_)
  simp only [readCost, printCost]
  omega

/-- The texts of a record cost the same wherever they are put. -/
theorem sum_printCost_zip (hone : OnePrimary columns)
    (hlength : ((actualColumns columns).map Column.name).length = r.values.length) :
    (((Table.allColumnNames columns).zip (digits r.id :: r.values)).map fun p =>
        printCost p.1 + printCost p.2).sum =
      ((storedFields columns r).map fun p => printCost p.1 + printCost p.2).sum := by
  have hsum : ∀ ns : List Text, ns.length = (digits r.id :: r.values).length →
      ((ns.zip (digits r.id :: r.values)).map fun p => printCost p.1 + printCost p.2).sum =
        (ns.map printCost).sum + ((digits r.id :: r.values).map printCost).sum := by
    intro ns hns
    have hnames : (ns.zip (digits r.id :: r.values)).map (fun p => printCost p.1) =
        ns.map printCost :=
      (List.map_map (f := Prod.fst) (g := printCost)).symm.trans
        (congrArg _ (List.map_fst_zip hns.le))
    have htexts : (ns.zip (digits r.id :: r.values)).map (fun p => printCost p.2) =
        (digits r.id :: r.values).map printCost :=
      (List.map_map (f := Prod.snd) (g := printCost)).symm.trans
        (congrArg _ (List.map_snd_zip hns.ge))
    rw [List.sum_map_add, hnames, htexts]
  rw [hsum _ (names_length hone hlength), storedFields, hsum _ (by simp [← hlength]),
    hone.allColumnNames]
  exact congrArg (· + _) ((List.perm_orderedInsert _ _ _).map _).sum_eq

/-- What is read as the stored rows has nothing in it that means something between quotes. -/
theorem Decodes.clean (hone : OnePrimary t.columns) (h : Keeps k t rs)
    (hnodup : (lastPrimary t.columns :: (actualColumns t.columns).map Column.name).Nodup)
    (hdecodes : Decodes D order t rs) :
    ∀ r ∈ live rs, ∀ f ∈ storedFields t.columns r, Clean f.1 ∧ Clean f.2 := by
  obtain ⟨text, vs, htext, hread, hmaps⟩ := hdecodes
  obtain rfl := Except.ok.inj ((h.selectText_none order).symm.trans htext)
  obtain ⟨rest, hparse⟩ : ∃ rest, parse D
      (printRows order (liveRows (Table.allColumnNames t.columns) rs)) = .ok (.array vs, rest) := by
    rw [appendFromString] at hread
    split at hread
    · cases hread
    · next v rest hparse =>
        cases hread
        exact ⟨rest, hparse⟩
  have hspent := Json.parse_spends _ _ _ hparse
  rw [Json.total_array, specials_printRows, liveRows, List.map_map] at hspent
  have hread : ((live rs).map fun r => ((storedFields t.columns r).map fun p =>
      readCost p.1 + readCost p.2).sum).sum ≤ (vs.map (JSONValue.total readCost)).sum := by
    refine List.Forall₂.sum_le_sum ?_
    rw [List.forall₂_map_left_iff, List.forall₂_map_right_iff]
    exact hmaps.imp fun r v hv => hv.cost_le (zip_nodup hnodup)
  have hprint : ((live rs).map fun r => ((rowOf (Table.allColumnNames t.columns) r).entries.map
      fun e => printCost e.1 + specials (valueToJson e.2)).sum).sum ≤
      ((live rs).map fun r => ((storedFields t.columns r).map fun p =>
        printCost p.1 + printCost p.2).sum).sum := by
    refine List.sum_le_sum fun r hr => ?_
    rw [← sum_printCost_zip hone (h.values_length hr)]
    exact specials_rowOf_le _ r
  have hcosts : ((live rs).map fun r => ((storedFields t.columns r).map fun p =>
      readCost p.1 + readCost p.2).sum).sum =
      ((live rs).map fun r => ((storedFields t.columns r).map fun p =>
        printCost p.1 + printCost p.2).sum).sum +
      ((live rs).map fun r => ((storedFields t.columns r).map fun p =>
        specials p.1 + specials p.2).sum).sum := by
    rw [← List.sum_map_add]
    exact congrArg List.sum (List.map_congr_left fun r _ => sum_cost_add _)
  have hzero : ((live rs).map fun r => ((storedFields t.columns r).map fun p =>
      specials p.1 + specials p.2).sum).sum = 0 := by
    simp only [Function.comp_def] at hspent
    omega
  intro r hr f hf
  have hr := List.sum_eq_zero_iff.mp hzero _ (List.mem_map_of_mem hr)
  have hf := List.sum_eq_zero_iff.mp hr _ (List.mem_map_of_mem hf)
  exact ⟨Json.clean_of_specials (by omega), Json.clean_of_specials (by omega)⟩

theorem Keeps.printable (hone : OnePrimary t.columns) (hnodup : (t.columns.map Column.name).Nodup)
    (h : Keeps k t rs) (hdecodes : Decodes D order t rs) :
    ∀ r ∈ live rs, Printable t.columns r := by
  have hnames : (lastPrimary t.columns :: (actualColumns t.columns).map Column.name).Nodup := by
    obtain ⟨pk, hpk, hprimary, -⟩ := hone.exists_pk
    have hprimaries := hone.primaries hpk hprimary
    rw [lastPrimary_of_primaries hprimaries]
    exact ((perm_of_primaries hprimaries).map Column.name).nodup_iff.mp hnodup
  have hclean := hdecodes.clean hone h hnames
  obtain ⟨text, vs, htext, hread, hmaps⟩ := hdecodes
  obtain rfl := Except.ok.inj ((h.selectText_none order).symm.trans htext)
  have hrows : ∀ row ∈ liveRows (Table.allColumnNames t.columns) rs, CleanRow row := by
    intro row hrow e he
    obtain ⟨r, hr, rfl⟩ := List.mem_map.mp hrow
    obtain ⟨p, hp, rfl⟩ := mem_rowOf he
    obtain ⟨hname, htext⟩ := List.of_mem_zip hp
    have hlength := h.values_length hr
    rw [hone.allColumnNames, (List.perm_orderedInsert _ _ _).mem_iff] at hname
    have hnames : p.1 ∈ (storedFields t.columns r).map Prod.fst := by
      rwa [storedFields, List.map_fst_zip (by simp [← hlength])]
    have htexts : p.2 ∈ (storedFields t.columns r).map Prod.snd := by
      rwa [storedFields, List.map_snd_zip (by simp [← hlength])]
    obtain ⟨f, hf, hfst⟩ := List.mem_map.mp hnames
    obtain ⟨g, hg, hsnd⟩ := List.mem_map.mp htexts
    exact ⟨hfst ▸ (hclean r hr f hf).1, p.2, rfl, hsnd ▸ (hclean r hr g hg).2⟩
  rw [appendFromString, parse_printRows hrows] at hread
  obtain rfl : (liveRows (Table.allColumnNames t.columns) rs).map rowObject = vs := by
    cases hread
    rfl
  rw [liveRows, List.map_map, List.forall₂_map_right_iff, List.forall₂_same] at hmaps
  intro r hr
  have hlength := h.values_length hr
  obtain ⟨fields, hobject, hshown⟩ := rowOf_mapsTo (δ := δ) (r := r) (names_length hone hlength)
    fun p hp p' hp' => zip_single ((List.perm_insertionSort _ _).nodup_iff.mpr hnodup) hp hp'
  obtain ⟨fields', hobject', hstored⟩ := hmaps r hr
  obtain rfl := JSONValue.object.inj (hobject.symm.trans hobject')
  have hplaces : ∀ p ∈ (((actualColumns t.columns).map Column.name).orderedInsert (· ≤ ·)
      (lastPrimary t.columns)).zip (digits r.id :: r.values), p ∈ storedFields t.columns r := by
    intro p hp
    rw [← hone.allColumnNames] at hp
    obtain ⟨s, hs, heq⟩ := (hstored _ _).mp ((hshown p.1 _).mpr ⟨p.2, hp, rfl⟩)
    rwa [← JSONValue.string.inj heq] at hs
  refine ⟨hclean r hr, fun f hf hlt => ?_, fun f hf g hg => zip_single hnames hf hg⟩
  rcases List.mem_cons.mp hf with rfl | hf
  · rfl
  · exact first_of_zip hlength hnames hplaces (actualColumns_sorted t.columns) f hf hlt

/-- For the records that a table's files store, and in whatever order the columns of a row are
printed: SELECT * can be read as the stored rows if all of them are printable, and where the columns
have different names it cannot be otherwise. -/
theorem select_decodes (hone : OnePrimary columns) (stmts : List Statement) (D : Doubles δ)
    (order : HashOrder) :
    (∃ rs, Keeps (columns.length - 1) (run (createTable columns) stmts) rs) ∧
      ∀ rs, Keeps (columns.length - 1) (run (createTable columns) stmts) rs →
        ((∀ r ∈ live rs, Printable columns r) →
          Decodes D order (run (createTable columns) stmts) rs) ∧
        ((columns.map Column.name).Nodup →
          (Decodes D order (run (createTable columns) stmts) rs ↔
            ∀ r ∈ live rs, Printable columns r)) := by
  obtain ⟨hcolumns, hstored⟩ := keeps_run hone stmts
  generalize run (createTable columns) stmts = t at hcolumns hstored ⊢
  subst hcolumns
  refine ⟨hstored, fun rs hkeeps =>
    ⟨fun hprint => hkeeps.decodes hone hprint D order, fun hnodup => ?_⟩⟩
  constructor
  · exact fun hdecodes => hkeeps.printable hone hnodup hdecodes
  · exact fun hprint => hkeeps.decodes hone hprint D order

/-- The record of the row `v = 'a'`. -/
def recordA : Record := ⟨1, false, [['a']]⟩

theorem keeps_oneRow : Keeps 1 oneRow [recordA] := by
  have hinsert : generateInsert ⟨[['v']], [['a']]⟩ (createTable keyed) = .ok oneRow := rfl
  obtain ⟨node, -, -, hkeeps⟩ := (keeps_createTable (rfl : OnePrimary keyed)).insert hinsert
  exact hkeeps

theorem select_decodes_oneRow : Decodes Json.zeroOnly .reversed oneRow [recordA] := by
  refine ((select_decodes (rfl : OnePrimary keyed) [.insert ⟨[['v']], [['a']]⟩]
    Json.zeroOnly .reversed).2 [recordA] keeps_oneRow).1 fun r hr => ?_
  obtain rfl := List.mem_singleton.mp hr
  have hfields : storedFields keyed recordA = [(['i', 'd'], ['1']), (['v'], ['a'])] := rfl
  have hprimary : lastPrimary keyed = ['i', 'd'] := rfl
  constructor
  · rw [hfields]
    simp [Clean]
  · rw [hfields, hprimary]
    decide
  · rw [hfields]
    decide

/-- The table after an INSERT of a text with a quote in it. -/
def oneQuote : TableState :=
  run (createTable keyed) [.insert ⟨[['v']], [['a', '\x22', 'b']]⟩]

theorem select_unreadable : OnePrimary keyed ∧ ∃ text,
    selectText .reversed none oneQuote = .ok text ∧
    appendFromString Json.zeroOnly [] text = none := ⟨rfl, _, rfl, rfl⟩

end NanoVault.Table
