/-
What SELECT * returns after an UPDATE (`handleUpdate`).

UPDATE deletes every row it finds and inserts it again, with a new id and with the values in the
order the columns were declared in. The law of UPDATE holds for every list of assignments exactly
if no row is found (`update_law_iff`).
-/
import NanoVault.Table.Constraints

namespace NanoVault.Table

open Lib

/-- The assignments are to columns of the table that are not primary. -/
def Assignable (columns : List Column) (assignments : List (Text × Text)) : Prop :=
  ∀ a ∈ assignments, ∃ c ∈ columns, c.isPrimary = false ∧ c.name = a.1

/-- The row after the UPDATE: with the values assigned to it, if it satisfies the condition. -/
def updated (assignments : List (Text × Text)) (whereClause : Option Expression) (row : Row) :
    Row :=
  match evaluateWhere whereClause row with
  | .ok true => assign row assignments
  | _ => row

/-- After the UPDATE, SELECT * returns the rows it should, in some order. -/
def UpdateLaw (assignments : List (Text × Text)) (whereClause : Option Expression)
    (t : TableState) : Prop :=
  ∃ rows rows', select none t = .ok rows ∧
    select none (execute t (.update assignments whereClause)).1 = .ok rows' ∧
    rows'.Perm (rows.map (updated assignments whereClause))

/-- No row satisfies the condition. -/
def NoneFound (whereClause : Option Expression) (t : TableState) : Prop :=
  ∀ rows, select none t = .ok rows → ∀ row ∈ rows, evaluateWhere whereClause row ≠ .ok true

variable {columns : List Column} {pk c : Column} {k : Nat} {t t' : TableState}
  {rs : List Record} {r : Record} {row : Row} {rows : List Row} {name value : Text}
  {names vs : List Text} {assignments : List (Text × Text)} {whereClause : Option Expression}

/-! ### The primary key -/

/-- The one primary column is the one UPDATE refuses to assign to. -/
theorem OnePrimary.exists_pk (h : OnePrimary columns) :
    ∃ pk ∈ columns, pk.isPrimary = true ∧ firstPrimary columns = pk.name ∧
      ∀ c ∈ columns, c.isPrimary = true → c = pk := by
  rw [OnePrimary, List.countP_eq_length_filter, List.length_eq_one_iff] at h
  obtain ⟨pk, hpk⟩ := h
  have honly : ∀ c ∈ columns, c.isPrimary = true → c = pk := by
    intro c hc hprimary
    have hmem : c ∈ columns.filter Column.isPrimary := List.mem_filter.mpr ⟨hc, hprimary⟩
    rwa [hpk, List.mem_singleton] at hmem
  have hmem : pk ∈ columns.filter Column.isPrimary := by
    rw [hpk]
    exact List.mem_singleton.mpr rfl
  obtain ⟨hcolumn, hprimary⟩ := List.mem_filter.mp hmem
  refine ⟨pk, hcolumn, hprimary, ?_, honly⟩
  rw [firstPrimary]
  cases hfind : columns.find? Column.isPrimary with
  | none => exact absurd hprimary (List.find?_eq_none.mp hfind pk hcolumn)
  | some c =>
      rw [honly c (List.mem_of_find?_eq_some hfind) (List.find?_some hfind)]
      rfl

/-- Where a name stands for the last time, its value is read. -/
theorem fill_of_last {before after : List Text} (hlast : name ∉ after)
    (hvalue : vs[before.length]? = some value) :
    (fill row (before ++ name :: after) vs).find? name = some (.text value) := by
  induction before generalizing row vs with
  | nil =>
      cases vs with
      | nil => cases hvalue
      | cons v vs =>
          obtain rfl := Option.some.inj hvalue
          have hrest : (fill row (name :: after) (v :: vs)).find? name =
              (row.insert name (.text v)).find? name := fill_other hlast
          rw [List.nil_append, hrest, SortedMap.find?_insert_self]
  | cons first before ih =>
      cases vs with
      | nil => cases hvalue
      | cons v vs => exact ih hvalue

theorem updated_of_ne (h : evaluateWhere whereClause row ≠ .ok true) :
    updated assignments whereClause row = row := by
  rw [updated]
  split
  · next hfound => exact absurd hfound h
  · rfl

theorem assigned_other (h : ∀ a ∈ assignments, a.1 ≠ name) :
    assigned assignments name value = value := by
  induction assignments generalizing value with
  | nil => rfl
  | cons a assignments ih =>
      have hfirst : assigned (a :: assignments) name value =
          assigned assignments name (if a.1 = name then a.2 else value) := rfl
      rw [hfirst, if_neg (h a List.mem_cons_self), ih fun a ha => h a (List.mem_cons_of_mem _ ha)]

/-- A column that is not assigned to shows what it did. -/
theorem shown_updated_other (h : ∀ a ∈ assignments, a.1 ≠ name) (row : Row) :
    shown name (updated assignments whereClause row) = shown name row := by
  rw [updated]
  split
  · rw [shown_assign, assigned_other h]
  · rfl

/-- There is a text that is not shown in a column. -/
theorem exists_fresh (name : Text) (rows : List Row) :
    ∃ value : Text, ∀ row ∈ rows, shown name row ≠ value := by
  have : Infinite Text := inferInstanceAs (Infinite (List Char))
  obtain ⟨value, hvalue⟩ := Infinite.exists_notMem_finset (rows.map (shown name)).toFinset
  refine ⟨value, fun row hrow heq => hvalue ?_⟩
  rw [List.mem_toFinset, ← heq]
  exact List.mem_map_of_mem hrow

/-! ### The rows after the UPDATE -/

theorem splitRows_none (h : ∀ row ∈ rows, evaluateWhere whereClause row = .ok false) :
    splitRows whereClause rows = ([], rows) := by
  induction rows with
  | nil => rfl
  | cons row rows ih =>
      have hrest := ih fun row hrow => h row (List.mem_cons_of_mem _ hrow)
      rw [splitRows, h row List.mem_cons_self, hrest]

theorem mem_splitRows (h : ∀ row ∈ rows, ∃ pass, evaluateWhere whereClause row = .ok pass)
    (hrow : row ∈ rows) (hfound : evaluateWhere whereClause row = .ok true) :
    row ∈ (splitRows whereClause rows).1 := by
  induction rows with
  | nil => cases hrow
  | cons first rows ih =>
      have hrest := ih fun row hrow => h row (List.mem_cons_of_mem _ hrow)
      obtain ⟨pass, hpass⟩ := h first List.mem_cons_self
      rw [splitRows, hpass]
      rcases List.mem_cons.mp hrow with rfl | hrow
      · obtain rfl := Except.ok.inj (hfound.symm.trans hpass)
        exact List.mem_cons_self
      · cases pass with
        | true => exact List.mem_cons_of_mem _ (hrest hrow)
        | false => exact hrest hrow

/-- An UPDATE that finds no row leaves all as they are. -/
theorem Keeps.select_update_none (h : Keeps k t rs)
    (hnone : ∀ row ∈ liveRows (allColumnNames t.columns) rs,
      evaluateWhere whereClause row = .ok false) :
    select none (Table.execute t (.update assignments whereClause)).1 = select none t := by
  rw [Table.execute]
  cases hprimary : assignments.any fun a => a.1 = firstPrimary t.columns with
  | true =>
      rw [handleUpdate, hprimary]
      rfl
  | false =>
      obtain ⟨t', hupdate, hcolumns', hkeeps'⟩ := h.update hprimary whereClause
      have hscan := sweep_splitRows (allColumnNames t.columns) whereClause rs
      rw [splitRows_none hnone] at hscan
      obtain ⟨hhits, hrecords⟩ := Prod.mk.inj hscan
      rw [List.map_eq_nil_iff.mp hhits.symm, renew, List.append_nil] at hkeeps'
      rw [hupdate, hkeeps'.select_none, hcolumns', ← hrecords, h.select_none]

/-- An UPDATE that finds a row inserts one with a new id. -/
theorem Keeps.exists_renewed (h : Keeps k t rs)
    (hprimary : (assignments.any fun a => a.1 = firstPrimary t.columns) = false)
    (heval : ∀ row ∈ liveRows (allColumnNames t.columns) rs,
      ∃ pass, evaluateWhere whereClause row = .ok pass)
    (hrow : row ∈ liveRows (allColumnNames t.columns) rs)
    (hfound : evaluateWhere whereClause row = .ok true) :
    ∃ rows' old, select none (Table.execute t (.update assignments whereClause)).1 = .ok rows' ∧
      rowOf (allColumnNames t.columns) ⟨nextId rs, false,
        (updateColumns t.columns (assign old assignments)).map InsertColumn.value⟩ ∈ rows' := by
  obtain ⟨t', hupdate, hcolumns', hkeeps'⟩ := h.update hprimary whereClause
  have hmem := mem_splitRows heval hrow hfound
  rw [sweep_splitRows] at hmem
  cases hhits : (sweep (allColumnNames t.columns) whereClause rs).hits with
  | nil =>
      rw [hhits] at hmem
      cases hmem
  | cons r hits =>
      rw [hhits, renew] at hkeeps'
      rw [Table.execute, hupdate]
      refine ⟨_, rowOf (allColumnNames t.columns) r, hkeeps'.select_none, ?_⟩
      rw [hcolumns', liveRows, live_append, List.map_append, live_cons_alive rfl]
      exact List.mem_append_right _ List.mem_cons_self

/-! ### The law -/

theorem Keeps.noneFound_iff (h : Keeps k t rs) : NoneFound whereClause t ↔
    ∀ row ∈ liveRows (allColumnNames t.columns) rs, evaluateWhere whereClause row ≠ .ok true := by
  rw [NoneFound, h.select_none]
  constructor
  · intro hnone
    exact hnone _ rfl
  · rintro hnone rows hrows
    obtain rfl := Except.ok.inj hrows
    exact hnone

/-- Where no row is found, the law holds. -/
theorem Keeps.updateLaw (h : Keeps k t rs)
    (heval : ∀ row ∈ liveRows (allColumnNames t.columns) rs,
      ∃ pass, evaluateWhere whereClause row = .ok pass)
    (hnone : NoneFound whereClause t) : UpdateLaw assignments whereClause t := by
  have hne := h.noneFound_iff.mp hnone
  have hfalse : ∀ row ∈ liveRows (allColumnNames t.columns) rs,
      evaluateWhere whereClause row = .ok false := by
    intro row hrow
    obtain ⟨pass, hpass⟩ := heval row hrow
    cases pass with
    | false => exact hpass
    | true => exact absurd hpass (hne row hrow)
  refine ⟨_, _, h.select_none, (h.select_update_none hfalse).trans h.select_none, ?_⟩
  have hsame : (liveRows (allColumnNames t.columns) rs).map (updated assignments whereClause) =
      liveRows (allColumnNames t.columns) rs :=
    (List.map_congr_left fun row hrow => updated_of_ne (hne row hrow)).trans (List.map_id _)
  rw [hsame]

/-- The name of the primary key is one of the names, and no other is the same. -/
theorem OnePrimary.split_names (h : OnePrimary columns) (hpk : pk ∈ columns)
    (hprimary : pk.isPrimary = true)
    (hdistinct : ∀ c ∈ columns, c.isPrimary = false → c.name ≠ pk.name) :
    ∃ before after, allColumnNames columns = before ++ pk.name :: after ∧
      (before ++ after).Perm ((columns.filter fun c => !c.isPrimary).map Column.name) ∧
      pk.name ∉ after := by
  have hmem : pk.name ∈ allColumnNames columns :=
    (List.mem_insertionSort _).mpr (List.mem_map_of_mem hpk)
  obtain ⟨before, after, hsplit⟩ := List.append_of_mem hmem
  have hfilter := h.primaries hpk hprimary
  have hperm : (before ++ pk.name :: after).Perm
      (pk.name :: (columns.filter fun c => !c.isPrimary).map Column.name) := by
    have hparts := (List.filter_append_perm Column.isPrimary columns).symm.map Column.name
    rw [hfilter] at hparts
    rw [← hsplit]
    exact (List.perm_insertionSort _ _).trans hparts
  have hothers := (List.perm_middle.symm.trans hperm).cons_inv
  refine ⟨before, after, hsplit, hothers, fun hafter => ?_⟩
  obtain ⟨c, hc, hname⟩ := List.mem_map.mp
    (hothers.mem_iff.mp (List.mem_append_right before hafter))
  obtain ⟨hcolumn, hother⟩ := List.mem_filter.mp hc
  exact hdistinct c hcolumn (by simpa using hother) hname

/-- Under the law a row with a new id is one that should be there. -/
theorem Keeps.exists_updated_eq (h : Keeps k t rs)
    (hprimary : ∀ a ∈ assignments, a.1 ≠ firstPrimary t.columns)
    (heval : ∀ row ∈ liveRows (allColumnNames t.columns) rs,
      ∃ pass, evaluateWhere whereClause row = .ok pass)
    (hlaw : UpdateLaw assignments whereClause t)
    (hrow : row ∈ liveRows (allColumnNames t.columns) rs)
    (hfound : evaluateWhere whereClause row = .ok true) :
    ∃ row' ∈ liveRows (allColumnNames t.columns) rs, ∃ old,
      updated assignments whereClause row' = rowOf (allColumnNames t.columns) ⟨nextId rs, false,
        (updateColumns t.columns (assign old assignments)).map InsertColumn.value⟩ := by
  have hany : (assignments.any fun a => a.1 = firstPrimary t.columns) = false := by
    simpa using hprimary
  obtain ⟨rows', old, hselect', hmem⟩ := h.exists_renewed hany heval hrow hfound
  obtain ⟨rows₁, rows₁', hselect₁, hselect₁', hperm⟩ := hlaw
  obtain rfl := Except.ok.inj (hselect'.symm.trans hselect₁')
  obtain rfl := Except.ok.inj (h.select_none.symm.trans hselect₁)
  obtain ⟨row', hrow', heq⟩ := List.mem_map.mp (hperm.mem_iff.mp hmem)
  exact ⟨row', hrow', old, heq⟩

/-- The primary key comes first and shows the new id. -/
theorem Keeps.noneFound_of_first (h : Keeps k t rs) {after : List Text}
    (hkey : firstPrimary t.columns = name) (hnames : allColumnNames t.columns = name :: after)
    (hafter : name ∉ after) (hassignments : ∀ a ∈ assignments, a.1 ≠ name)
    (heval : ∀ row ∈ liveRows (allColumnNames t.columns) rs,
      ∃ pass, evaluateWhere whereClause row = .ok pass)
    (hlaw : UpdateLaw assignments whereClause t) : NoneFound whereClause t := by
  have hshown : ∀ r, shown name (rowOf (allColumnNames t.columns) r) = digits r.id := by
    intro r
    rw [hnames, rowOf, shown, Row.value, fill_other hafter, SortedMap.find?_insert_self]
    rfl
  rw [h.noneFound_iff]
  intro row hrow hfound
  obtain ⟨row', hrow', old, heq⟩ :=
    h.exists_updated_eq (hkey ▸ hassignments) heval hlaw hrow hfound
  obtain ⟨r, hr, rfl⟩ := List.mem_map.mp hrow'
  have hid := congrArg (shown name) heq
  rw [shown_updated_other hassignments, hshown, hshown] at hid
  have hlt := h.stores.lt_nextId (List.mem_of_mem_filter hr)
  exact absurd (digits_injective hid) (Nat.ne_of_lt hlt)

/-- Another name comes first, and the primary key shows the value of another column. -/
theorem Keeps.exists_later (h : Keeps k t rs) {first : Text} {before after : List Text}
    (hkey : firstPrimary t.columns = name)
    (hnames : allColumnNames t.columns = first :: (before ++ name :: after))
    (hafter : name ∉ after)
    (hc : (t.columns.filter fun c => !c.isPrimary)[before.length]? = some c)
    (hne : c.name ≠ name)
    (heval : ∀ row ∈ liveRows (allColumnNames t.columns) rs,
      ∃ pass, evaluateWhere whereClause row = .ok pass) :
    ∃ value, UpdateLaw [(c.name, value)] whereClause t → NoneFound whereClause t := by
  obtain ⟨value, hfresh⟩ := exists_fresh name (liveRows (allColumnNames t.columns) rs)
  have hassignments : ∀ a ∈ [(c.name, value)], a.1 ≠ name := by
    intro a ha
    rw [List.mem_singleton.mp ha]
    exact hne
  refine ⟨value, fun hlaw => ?_⟩
  rw [h.noneFound_iff]
  intro row hrow hfound
  obtain ⟨row', hrow', old, heq⟩ :=
    h.exists_updated_eq (hkey ▸ hassignments) heval hlaw hrow hfound
  have hnew := congrArg (shown name) heq
  have hassigned : shown c.name (assign old [(c.name, value)]) = value := by
    rw [shown_assign]
    exact if_pos rfl
  have hvalue : ((updateColumns t.columns (assign old [(c.name, value)])).map
      InsertColumn.value)[before.length]? = some value := by
    rw [List.getElem?_map, updateColumns, List.getElem?_map, hc]
    exact congrArg some hassigned
  rw [shown_updated_other hassignments, hnames, rowOf] at hnew
  rw [shown, shown, Row.value, Row.value, fill_of_last hafter hvalue] at hnew
  exact hfresh row' hrow' hnew

/-- A column has the name of the primary key, and UPDATE refuses to assign to it. -/
theorem Keeps.exists_refused (h : Keeps k t rs) (hname : c.name = firstPrimary t.columns) :
    ∃ value, UpdateLaw [(c.name, value)] whereClause t → NoneFound whereClause t := by
  obtain ⟨value, hfresh⟩ := exists_fresh c.name (liveRows (allColumnNames t.columns) rs)
  refine ⟨value, ?_⟩
  rintro ⟨rows, rows', hselect, hselect', hperm⟩
  rw [h.noneFound_iff]
  intro row hrow hfound
  have hrefused : (Table.execute t (.update [(c.name, value)] whereClause)).1 = t := by
    have hany : ([(c.name, value)].any fun a => a.1 = firstPrimary t.columns) = true := by
      simpa using hname
    rw [Table.execute, handleUpdate, hany]
    rfl
  rw [hrefused] at hselect'
  obtain rfl := Except.ok.inj (h.select_none.symm.trans hselect)
  obtain rfl := Except.ok.inj (h.select_none.symm.trans hselect')
  refine hfresh (assign row [(c.name, value)]) (hperm.mem_iff.mpr ?_) ?_
  · refine List.mem_map.mpr ⟨row, hrow, ?_⟩
    rw [updated, hfound]
  · rw [shown_assign]
    exact if_pos rfl

/-- Where the primary key comes first, it is the first name. -/
theorem OnePrimary.names_front (h : OnePrimary columns) (hpk : pk ∈ columns)
    (hprimary : pk.isPrimary = true)
    (hleads : ∀ c ∈ columns, c.isPrimary = false → pk.name < c.name) :
    ∃ after, allColumnNames columns = pk.name :: after ∧ pk.name ∉ after := by
  obtain ⟨before, after, hsplit, hothers, hafter⟩ :=
    h.split_names hpk hprimary fun c hc hother => (hleads c hc hother).ne'
  cases before with
  | nil => exact ⟨after, hsplit, hafter⟩
  | cons first before =>
      have hsorted : (allColumnNames columns).Pairwise (· ≤ ·) := List.pairwise_insertionSort _ _
      rw [hsplit, List.cons_append, List.pairwise_cons] at hsorted
      obtain ⟨c, hc, rfl⟩ := List.mem_map.mp (hothers.mem_iff.mp List.mem_cons_self)
      obtain ⟨hcolumn, hother⟩ := List.mem_filter.mp hc
      have hlt := hleads c hcolumn (by simpa using hother)
      exact absurd (hsorted.1 pk.name (by simp)) (not_le.mpr hlt)

/-- Some list of assignments breaks the law, if a row is found. -/
theorem Keeps.noneFound_of_laws (h : Keeps k t rs) (hone : OnePrimary t.columns)
    (heval : ∀ row ∈ liveRows (allColumnNames t.columns) rs,
      ∃ pass, evaluateWhere whereClause row = .ok pass)
    (hlaws : ∀ assignments, Assignable t.columns assignments →
      UpdateLaw assignments whereClause t) : NoneFound whereClause t := by
  obtain ⟨pk, hpk, hprimary, hkey, -⟩ := hone.exists_pk
  have hone_law : ∀ c ∈ t.columns, c.isPrimary = false → ∀ value,
      UpdateLaw [(c.name, value)] whereClause t := by
    intro c hc hother value
    refine hlaws _ fun a ha => ⟨c, hc, hother, ?_⟩
    rw [List.mem_singleton.mp ha]
  by_cases hdistinct : ∀ c ∈ t.columns, c.isPrimary = false → c.name ≠ pk.name
  · obtain ⟨before, after, hnames, hothers, hafter⟩ := hone.split_names hpk hprimary hdistinct
    cases before with
    | nil =>
        have hnil : ∀ a ∈ ([] : List (Text × Text)), a.1 ≠ pk.name := by
          rintro a ⟨⟩
        exact h.noneFound_of_first hkey hnames hafter hnil heval (hlaws [] (by rintro a ⟨⟩))
    | cons first before =>
        have hlength := hothers.length_eq
        rw [List.length_map, List.cons_append, List.length_cons, List.length_append] at hlength
        have hplace := List.getElem?_eq_getElem
          (l := t.columns.filter fun c => !c.isPrimary) (i := before.length) (by omega)
        obtain ⟨hc, hother⟩ := List.mem_filter.mp (List.mem_of_getElem? hplace)
        have hother := (Bool.not_eq_true' _).mp hother
        obtain ⟨value, hvalue⟩ :=
          h.exists_later hkey hnames hafter hplace (hdistinct _ hc hother) heval
        exact hvalue (hone_law _ hc hother value)
  · push Not at hdistinct
    obtain ⟨c, hc, hother, hname⟩ := hdistinct
    obtain ⟨value, hvalue⟩ := h.exists_refused (hname.trans hkey.symm)
    exact hvalue (hone_law c hc hother value)

/-- The law of UPDATE holds, for every list of assignments, exactly if no row satisfies the
condition; where the primary key comes before the other columns, this is so for each list. -/
theorem update_law_iff (hone : OnePrimary columns) (stmts : List Statement)
    (whereClause : Option Expression)
    (heval : ∀ rows, select none (run (createTable columns) stmts) = .ok rows →
      ∀ row ∈ rows, ∃ pass, evaluateWhere whereClause row = .ok pass) :
    ((∀ assignments, Assignable columns assignments →
        UpdateLaw assignments whereClause (run (createTable columns) stmts)) ↔
      NoneFound whereClause (run (createTable columns) stmts)) ∧
    ((∀ c ∈ columns, c.isPrimary = false → firstPrimary columns < c.name) →
      ∀ assignments, Assignable columns assignments →
        (UpdateLaw assignments whereClause (run (createTable columns) stmts) ↔
          NoneFound whereClause (run (createTable columns) stmts))) := by
  obtain ⟨hcolumns, rs, hkeeps⟩ := keeps_run hone stmts
  generalize run (createTable columns) stmts = t at hcolumns hkeeps heval ⊢
  subst hcolumns
  have heval := heval _ hkeeps.select_none
  refine ⟨⟨hkeeps.noneFound_of_laws hone heval, fun hnone _ _ => hkeeps.updateLaw heval hnone⟩, ?_⟩
  intro hleads assignments hassignable
  refine ⟨?_, hkeeps.updateLaw heval⟩
  obtain ⟨pk, hpk, hprimary, hkey, -⟩ := hone.exists_pk
  rw [hkey] at hleads
  obtain ⟨after, hnames, hafter⟩ := hone.names_front hpk hprimary hleads
  refine hkeeps.noneFound_of_first hkey hnames hafter ?_ heval
  intro a ha heq
  obtain ⟨c, hc, hother, hname⟩ := hassignable a ha
  exact (hleads c hc hother).ne' (hname.trans heq)

theorem assignable_v (value : Text) : Assignable keyed [(['v'], value)] := by
  intro a ha
  rw [List.mem_singleton.mp ha]
  exact ⟨{ name := ['v'], type := .varchar }, by decide, rfl, rfl⟩

theorem update_law_iff_oneRow : UpdateLaw [(['v'], ['c'])] (vIs ['b']) oneRow := by
  obtain ⟨row, hselect, hrow⟩ :
      ∃ row, select none oneRow = .ok [row] ∧ evaluateWhere (vIs ['b']) row = .ok false :=
    ⟨_, rfl, rfl⟩
  have hrows : ∀ rows, select none oneRow = .ok rows → ∀ row ∈ rows,
      evaluateWhere (vIs ['b']) row = .ok false := by
    intro rows hrows row hmem
    obtain rfl := Except.ok.inj (hselect.symm.trans hrows)
    rw [List.mem_singleton.mp hmem]
    exact hrow
  refine (update_law_iff (rfl : OnePrimary keyed) [.insert ⟨[['v']], [['a']]⟩] (vIs ['b']) ?_).1.mpr ?_ _
    (assignable_v ['c'])
  · intro rows hselect row hmem
    exact ⟨false, hrows rows hselect row hmem⟩
  · intro rows hselect row hmem
    rw [hrows rows hselect row hmem]
    rintro ⟨⟩

/-- The primary key of the row that is updated is another one afterwards. -/
theorem primary_key_changed :
    OnePrimary keyed ∧ Assignable keyed [(['v'], ['b'])] ∧
      ¬ UpdateLaw [(['v'], ['b'])] (vIs ['a']) oneRow ∧
      ∃ row row', select none oneRow = .ok [row] ∧ evaluateWhere (vIs ['a']) row = .ok true ∧
        select none (execute oneRow (.update [(['v'], ['b'])] (vIs ['a']))).1 = .ok [row'] ∧
        shown ['i', 'd'] row = ['1'] ∧ shown ['i', 'd'] row' = ['2'] := by
  refine ⟨rfl, assignable_v ['b'], ?_, _, _, rfl, rfl, rfl, rfl, rfl⟩
  · rintro ⟨rows, rows', hselect, hselect', hperm⟩
    obtain ⟨row, hrow, hid⟩ : ∃ row, select none oneRow = .ok [row] ∧
        shown ['i', 'd'] (updated [(['v'], ['b'])] (vIs ['a']) row) = ['1'] := ⟨_, rfl, rfl⟩
    obtain ⟨row', hrow', hid'⟩ : ∃ row',
        select none (execute oneRow (.update [(['v'], ['b'])] (vIs ['a']))).1 = .ok [row'] ∧
          shown ['i', 'd'] row' = ['2'] := ⟨_, rfl, rfl⟩
    obtain rfl := Except.ok.inj (hrow.symm.trans hselect)
    obtain rfl := Except.ok.inj (hrow'.symm.trans hselect')
    rw [List.singleton_perm_singleton.mp hperm, hid] at hid'
    exact absurd hid' (by decide)

end NanoVault.Table
