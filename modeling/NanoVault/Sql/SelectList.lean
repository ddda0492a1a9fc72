/-
The column list and LIMIT of SELECT (`parseSelectStatement`, `SelectQueryHandler::handle`).

The parser puts the listed names and the limit into the statement. `handle` sorts the names into a
list of its own and then prints all columns of every row that satisfies the condition: nothing
reads the list or the limit. What it prints is what was asked for exactly where no row satisfies
the condition, or where all columns are listed and there are no more rows than the limit
(`select_list_iff`), for every other text is shorter.
-/
import NanoVault.Sql.HftStatements
import NanoVault.Sql.Literals
import NanoVault.Table.Output

namespace NanoVault.Sql

open Lib NanoVault.Table NanoVault.Catalog

/-! ### The statement -/

structure SelectStatement where
  columns : List Text
  table : Text
  whereClause : Option Expression
  limitClause : Option UInt64

/-- The loop over the listed names. Every round takes a token. -/
def selectColumns : Nat → TokenParser (List Text)
  | 0 => return []
  | rounds + 1 => do
      let column ← expect .identifier "Expected column name"
      if ← accept .comma then return column.value :: (← selectColumns rounds)
      else return [column.value]

def whereClause : TokenParser (Option Expression) := do
  if ← accept .whereT then
    let (condition, tokens) ← parseExpression (← get)
    set tokens
    return some condition
  else return none

/-- The limit; any other name in its place is taken too. -/
def limitClause : TokenParser (Option UInt64) := do
  match ← get with
  | ⟨.identifier, value⟩ :: tokens =>
      set tokens
      if value = "limit".toList then
        let limitValue ← expect .number "Expected number after LIMIT"
        return some (UInt64.ofInt (← stoi limitValue.value))
      else return none
  | _ => return none

def parseSelectStatement (currentDb : Option Text) : TokenParser SelectStatement := do
  let _ ← expect .select "Expected SELECT keyword"
  if currentDb = none then
    throw (.runtimeError "No database selected. Use USE <db_name>;".toList)
  let all ← accept .multiply
  let columns ← if all then pure ["*".toList] else selectColumns ((← get).length + 1)
  let _ ← expect .fromT "Expected FROM keyword"
  let table ← expect .identifier "Expected table name"
  let whereClause ← whereClause
  let limitClause ← limitClause
  return { columns := columns, table := table.value, whereClause := whereClause,
           limitClause := limitClause }

/-- `handle`; it reads neither the columns nor the limit of the statement. -/
def handleSelect (order : HashOrder) (stmt : SelectStatement) (t : TableState) :
    Except Fault Text :=
  selectText order stmt.whereClause t

/-- What the server answers to a SELECT on a table. -/
def answerSelect (order : HashOrder) (currentDb : Option Text) (tokens : List Token)
    (t : TableState) : Except Fault Text := do
  let (stmt, _) ← parseSelectStatement currentDb tokens
  handleSelect order stmt t

/-! ### What is asked for -/

def columnTokens : List Text → List Token
  | [] => []
  | [name] => [⟨.identifier, name⟩]
  | name :: names => ⟨.identifier, name⟩ :: ⟨.comma, ",".toList⟩ :: columnTokens names

/-- LIMIT and what follows it. -/
def limitTokens (n : Nat) (rest : List Token) : List Token :=
  ⟨.identifier, "limit".toList⟩ :: ⟨.number, digits n⟩ :: rest

/-- SELECT names FROM table WHERE condition LIMIT n. -/
def selectTokens (names : List Text) (table : Text) (condition : List Token) (n : Nat)
    (rest : List Token) : List Token :=
  ⟨.select, "select".toList⟩ :: (columnTokens names ++ ⟨.fromT, "from".toList⟩ ::
    ⟨.identifier, table⟩ :: ⟨.whereT, "where".toList⟩ :: (condition ++ limitTokens n rest))

/-- A row with the listed columns only. -/
def restrict (names : List Text) (row : Row) : Row where
  entries := row.entries.filter fun e => names.contains e.1
  sorted := row.sorted.sublist List.filter_sublist

/-- The answer consists of the first `n` rows that SELECT * finds for the condition, with the
listed columns only. -/
def Honours (order : HashOrder) (db : Text) (names : List Text) (table : Text)
    (condition : List Token) (c : Expression) (n : Nat) (rest : List Token) (t : TableState) : Prop :=
  ∃ rows, handle (some c) t = .ok rows ∧
    answerSelect order (some db) (selectTokens names table condition n rest) t =
      .ok (printRows order ((rows.take n).map (restrict names)))

/-- No row to be left out and no column to be left out of a row, for a limit that can be read. -/
def NothingLeftOut (names : List Text) (n : Nat) (allNames : List Text) (found : List Row) : Prop :=
  n ≤ intMax ∧ found.length ≤ n ∧ (found = [] ∨ ∀ name ∈ allNames, name ∈ names)

variable {α β : Type} {db : Text} {names : List Text} {table : Text}
  {condition rest tokens tokens' : List Token} {c : Expression} {type other : TokenType}
  {value : Text} {n rounds : Nat} {t : TableState} {order : HashOrder} {row : Row}
  {rows : List Row}

/-! ### The parser -/

/-- A parser that succeeds hands on its value and the tokens left. -/
theorem bind_ok {x : TokenParser α} {f : α → TokenParser β} {a : α}
    (h : x tokens = .ok (a, tokens')) : (x >>= f) tokens = f a tokens' := by
  show (x tokens >>= fun r => f r.1 r.2) = _
  rw [h]
  rfl

/-- A parser that fails ends the sequence. -/
theorem bind_error {x : TokenParser α} {f : α → TokenParser β} {e : Fault}
    (h : x tokens = .error e) : (x >>= f) tokens = .error e := by
  show (x tokens >>= fun r => f r.1 r.2) = _
  rw [h]
  rfl

theorem lift_ok {x : Except Fault α} {a : α} (h : x = .ok a) :
    (liftM x : TokenParser α) tokens = .ok (a, tokens) := by
  rw [h]
  rfl

theorem lift_error {x : Except Fault α} {e : Fault} (h : x = .error e) :
    (liftM x : TokenParser α) tokens = .error e := by
  rw [h]
  rfl

theorem accept_head : accept type (⟨type, value⟩ :: tokens) = .ok (true, tokens) := by
  show (if type = type then _ else _ : TokenParser Bool) _ = _
  rw [if_pos rfl]
  rfl

theorem accept_other (h : other ≠ type) :
    accept type (⟨other, value⟩ :: tokens) = .ok (false, ⟨other, value⟩ :: tokens) := by
  show (if other = type then _ else _ : TokenParser Bool) _ = _
  rw [if_neg h]
  rfl

theorem expect_head (message : String) :
    expect type message (⟨type, value⟩ :: tokens) = .ok (⟨type, value⟩, tokens) := by
  show (if type = type then _ else _ : TokenParser Token) _ = _
  rw [if_pos rfl]
  rfl

/-- A column list begins with a name. -/
theorem columnTokens_head (h : names ≠ []) :
    ∃ name, ∃ ts, columnTokens names = ⟨.identifier, name⟩ :: ts := by
  match names, h with
  | [name], _ => exact ⟨name, [], rfl⟩
  | name :: _ :: _, _ => exact ⟨name, _, rfl⟩

/-- A column list is read as it is written. -/
theorem selectColumns_tokens (hnames : names ≠ []) (hrounds : names.length ≤ rounds)
    (hother : other ≠ .comma) :
    selectColumns rounds (columnTokens names ++ ⟨other, value⟩ :: rest) =
      .ok (names, ⟨other, value⟩ :: rest) := by
  induction names generalizing rounds with
  | nil => exact absurd rfl hnames
  | cons name names ih =>
      obtain ⟨rounds, rfl⟩ := Nat.exists_eq_add_one.mpr
        ((Nat.succ_pos names.length).trans_le hrounds)
      cases names with
      | nil =>
          exact (bind_ok (expect_head _)).trans (bind_ok (accept_other hother))
      | cons name' names =>
          have hrest := ih (List.cons_ne_nil _ _) (Nat.le_of_succ_le_succ hrounds)
          exact (bind_ok (expect_head _)).trans ((bind_ok accept_head).trans (bind_ok hrest))

theorem length_le_columnTokens (names : List Text) :
    names.length ≤ (columnTokens names).length := by
  induction names with
  | nil => exact Nat.zero_le _
  | cons name names ih =>
      cases names with
      | nil => exact Nat.le_refl 1
      | cons name' names => exact Nat.succ_le_succ (ih.trans (Nat.le_succ _))

/-- A condition behind WHERE is read as it is written. -/
theorem whereClause_tokens (hparse : parseExpression tokens = .ok (c, tokens')) :
    whereClause (⟨.whereT, value⟩ :: tokens) = .ok (some c, tokens') := by
  refine (bind_ok accept_head).trans ?_
  rw [if_pos rfl]
  refine (bind_ok rfl).trans ?_
  exact (bind_ok (lift_ok hparse)).trans rfl

/-- Up to the limit the statement is read as it is written. -/
theorem parseSelectStatement_front (hnames : names ≠ [])
    (hparse : parseExpression (condition ++ limitTokens n rest) = .ok (c, limitTokens n rest)) :
    parseSelectStatement (some db) (selectTokens names table condition n rest) =
      (do
        let limit ← limitClause
        return ⟨names, table, some c, limit⟩ : TokenParser SelectStatement)
          (limitTokens n rest) := by
  obtain ⟨name, ts, hhead⟩ := columnTokens_head hnames
  generalize hbehind : (⟨.identifier, table⟩ :: ⟨.whereT, "where".toList⟩ ::
    (condition ++ limitTokens n rest) : List Token) = behind
  have hall : accept .multiply (columnTokens names ++ ⟨.fromT, "from".toList⟩ :: behind) =
      .ok (false, columnTokens names ++ ⟨.fromT, "from".toList⟩ :: behind) := by
    rw [hhead]
    exact accept_other (by decide)
  have hcolumns : ∀ rounds, names.length ≤ rounds →
      selectColumns rounds (columnTokens names ++ ⟨.fromT, "from".toList⟩ :: behind) =
        .ok (names, ⟨.fromT, "from".toList⟩ :: behind) :=
    fun rounds hrounds => selectColumns_tokens hnames hrounds (by decide)
  rw [parseSelectStatement, selectTokens, hbehind]
  refine (bind_ok (expect_head _)).trans ?_
  rw [if_neg (by simp)]
  refine (bind_ok hall).trans ?_
  rw [if_neg (by simp)]
  refine (bind_ok rfl).trans ?_
  refine (bind_ok (hcolumns _ ?_)).trans ?_
  · rw [List.length_append]
    have hlength := length_le_columnTokens names
    omega
  · rw [← hbehind]
    refine (bind_ok (expect_head _)).trans ?_
    refine (bind_ok (expect_head _)).trans ?_
    exact bind_ok (whereClause_tokens hparse)

/-- A limit is read if it fits an int. -/
theorem stoi_limit {i : Int} : stoi (digits n) = .ok i ↔ i = n ∧ i ≤ intMax := by
  have hread := stoi_numeral (i := i)
    ⟨digits n, none, Nat.toDigits_ne_nil, digits_isDigit n, fun _ h => by cases h⟩
  have hvalue : digitsValue (digits n) = n := Nat.ofDigitChars_ten_toDigits
  rw [Numeral.text, List.append_nil, hvalue] at hread
  exact hread

/-- A limit that fits an int is read as it is written. -/
theorem limitClause_tokens (hn : n ≤ intMax) :
    limitClause (limitTokens n rest) = .ok (some (UInt64.ofInt n), rest) := by
  refine (bind_ok rfl).trans ?_
  refine (bind_ok rfl).trans ?_
  refine (bind_ok (expect_head _)).trans ?_
  exact (bind_ok (lift_ok (stoi_limit.mpr ⟨rfl, hn⟩))).trans rfl

/-- A larger limit is refused. -/
theorem limitClause_tokens_large (hn : ¬ n ≤ intMax) (rest : List Token) :
    ∃ e, limitClause (limitTokens n rest) = .error e := by
  cases hread : stoi (digits n) with
  | ok i =>
      obtain ⟨rfl, hle⟩ := stoi_limit.mp hread
      exact absurd hle hn
  | error e =>
      refine ⟨e, (bind_ok rfl).trans ?_⟩
      refine (bind_ok rfl).trans ?_
      exact (bind_ok (expect_head _)).trans (bind_error (lift_error hread))

/-- A limit that is no `int` is refused. -/
theorem parseSelectStatement_large (hnames : names ≠ []) (hn : ¬ n ≤ intMax)
    (hparse : parseExpression (condition ++ limitTokens n rest) = .ok (c, limitTokens n rest)) :
    ∃ e, parseSelectStatement (some db) (selectTokens names table condition n rest) = .error e := by
  obtain ⟨e, he⟩ := limitClause_tokens_large hn rest
  exact ⟨e, (parseSelectStatement_front hnames hparse).trans (bind_error he)⟩

/-- SELECT is read as it is written. -/
theorem parseSelectStatement_tokens (hnames : names ≠ []) (hn : n ≤ intMax)
    (hparse : parseExpression (condition ++ limitTokens n rest) = .ok (c, limitTokens n rest)) :
    parseSelectStatement (some db) (selectTokens names table condition n rest) =
      .ok (⟨names, table, some c, some (UInt64.ofInt n)⟩, rest) :=
  (parseSelectStatement_front hnames hparse).trans (bind_ok (limitClause_tokens hn))

/-! ### The texts -/

/-- A part that weighs as much is the whole. -/
theorem sublist_eq_of_sum {l' l : List α} {w : α → Nat} (h : l'.Sublist l)
    (hpos : ∀ a ∈ l, 2 ≤ w a) (hsum : (l.map w).sum ≤ (l'.map w).sum) : l' = l := by
  induction h with
  | slnil => rfl
  | cons a h ih =>
      have hrest := (h.map w).sum_le_sum fun _ _ => Nat.zero_le _
      have ha := hpos a List.mem_cons_self
      rw [List.map_cons, List.sum_cons] at hsum
      omega
  | cons_cons a h ih =>
      rw [List.map_cons, List.map_cons, List.sum_cons, List.sum_cons] at hsum
      rw [ih (fun b hb => hpos b (List.mem_cons_of_mem _ hb)) (by omega)]

/-- A sum of weights of two at least is zero or two at least. -/
theorem sum_gap {l : List α} {w : α → Nat} (h : ∀ a ∈ l, 2 ≤ w a) :
    (l.map w).sum = 0 ∨ 2 ≤ (l.map w).sum := by
  cases l with
  | nil => exact .inl rfl
  | cons a l =>
      have ha := h a List.mem_cons_self
      rw [List.map_cons, List.sum_cons]
      omega

/-- What a text takes in a list, with a comma. -/
def weight (text : Text) : Nat := text.length + 1

/-- The length of a list with commas. -/
theorem length_commaSeparated (ts : List Text) :
    (commaSeparated ts).length = (ts.map weight).sum - 1 := by
  cases ts with
  | nil => rfl
  | cons t ts =>
      have hrest : (ts.flatMap fun t => ',' :: t).length = (ts.map weight).sum := by
        rw [List.length_flatMap]
        rfl
      rw [commaSeparated, List.length_append, hrest, List.map_cons, List.sum_cons, weight]
      omega

def entryWeight (e : Text × Value) : Nat := weight (Json.quoted e.1 ++ ':' :: valueToJson e.2)

def rowWeight (row : Row) : Nat := (row.entries.map entryWeight).sum - 1 + 3

/-- A row takes the same room in whatever order its columns are printed. -/
theorem weight_rowToJson (order : HashOrder) (row : Row) :
    weight (rowToJson order row) = rowWeight row := by
  rw [weight, rowToJson, List.length_cons, List.length_append, length_commaSeparated,
    List.map_map, rowWeight, ← ((order.perm row).map entryWeight).sum_eq]
  exact congrArg (fun k => k + 1 + 1 + 1) rfl

/-- The length of the rows printed. -/
theorem length_printRows (order : HashOrder) (rows : List Row) :
    (printRows order rows).length = (rows.map rowWeight).sum - 1 + 2 := by
  have hweights : (rows.map (rowToJson order)).map weight = rows.map rowWeight := by
    rw [List.map_map]
    exact List.map_congr_left fun row _ => weight_rowToJson order row
  rw [printRows, List.length_cons, List.length_append, length_commaSeparated, hweights]
  rfl

theorem entryWeight_ge (e : Text × Value) : 2 ≤ entryWeight e := by
  rw [entryWeight, weight, List.length_append, List.length_cons]
  omega

theorem rowWeight_ge (row : Row) : 2 ≤ rowWeight row := by
  rw [rowWeight]
  omega

/-- Columns that are left out make a row no longer. -/
theorem rowWeight_restrict (names : List Text) (row : Row) :
    rowWeight (restrict names row) ≤ rowWeight row := by
  have hle : ((restrict names row).entries.map entryWeight).sum ≤
      (row.entries.map entryWeight).sum :=
    (List.filter_sublist.map _).sum_le_sum fun _ _ => Nat.zero_le _
  rw [rowWeight, rowWeight]
  omega

/-- A row is printed whole if no column is left out. -/
theorem restrict_eq_iff : restrict names row = row ↔ ∀ e ∈ row.entries, e.1 ∈ names := by
  constructor
  · intro h e he
    rw [← h] at he
    exact List.contains_iff_mem.mp (List.mem_filter.mp he).2
  · intro h
    exact SortedMap.ext_entries
      (List.filter_eq_self.mpr fun e he => List.contains_iff_mem.mpr (h e he))

/-- A row is printed shorter without some of its columns. -/
theorem restrict_of_rowWeight (h : rowWeight row ≤ rowWeight (restrict names row)) :
    restrict names row = row := by
  refine SortedMap.ext_entries (sublist_eq_of_sum (w := entryWeight) List.filter_sublist ?_ ?_)
  · exact fun e _ => entryWeight_ge e
  · rw [rowWeight, rowWeight] at h
    have hgap := sum_gap (l := row.entries) fun e _ => entryWeight_ge e
    show _ ≤ ((restrict names row).entries.map entryWeight).sum
    omega

/-- What is printed says whether a row or a column has been left out. -/
theorem printRows_eq_iff :
    printRows order ((rows.take n).map (restrict names)) = printRows order rows ↔
      rows.length ≤ n ∧ ∀ row ∈ rows, restrict names row = row := by
  constructor
  · intro h
    have hlength := congrArg List.length h
    rw [length_printRows, length_printRows, List.map_map] at hlength
    have hgap := sum_gap (l := rows) fun row _ => rowWeight_ge row
    have hpart : ((rows.take n).map fun row => rowWeight (restrict names row)).sum ≤
        ((rows.take n).map rowWeight).sum :=
      List.sum_le_sum fun row _ => rowWeight_restrict names row
    have hfront : rows.take n = rows := by
      refine sublist_eq_of_sum (List.take_sublist n rows) (fun row _ => rowWeight_ge row) ?_
      simp only [Function.comp_def] at hlength
      omega
    have hn : rows.length ≤ n := hfront ▸ List.length_take_le n rows
    refine ⟨hn, fun row hrow => ?_⟩
    by_contra hne
    have hlt := List.sum_lt_sum (l := rows.take n) (fun row => rowWeight (restrict names row))
      rowWeight (fun row _ => rowWeight_restrict names row)
      ⟨row, hfront.symm ▸ hrow, lt_of_not_ge fun hle => hne (restrict_of_rowWeight hle)⟩
    rw [hfront] at hlt
    simp only [Function.comp_def, hfront] at hlength
    omega
  · rintro ⟨hn, hrows⟩
    rw [List.take_of_length_le hn, List.map_congr_left hrows, List.map_id']

/-! ### SELECT with a list and a limit -/

/-- A row has all names of its table. -/
theorem restrict_rowOf {allNames : List Text} {r : Record}
    (hlength : allNames.length = r.values.length + 1) :
    restrict names (rowOf allNames r) = rowOf allNames r ↔ ∀ name ∈ allNames, name ∈ names := by
  rw [restrict_eq_iff]
  constructor
  · intro h name hname
    obtain ⟨s, hs⟩ := rowOf_hasText hlength hname
    exact h _ (SortedMap.find?_eq_some.mp hs)
  · intro h e he
    obtain ⟨p, hp, rfl⟩ := mem_rowOf he
    exact h p.1 (List.of_mem_zip hp).1

/-- What is answered depends on the condition alone. -/
theorem answerSelect_tokens (hnames : names ≠ []) (hn : n ≤ intMax)
    (hparse : parseExpression (condition ++ limitTokens n rest) = .ok (c, limitTokens n rest)) :
    answerSelect order (some db) (selectTokens names table condition n rest) t =
      selectText order (some c) t := by
  rw [answerSelect, parseSelectStatement_tokens hnames hn hparse]
  rfl

theorem honours_iff {k : Nat} {rs : List Record} (hone : OnePrimary t.columns)
    (h : Keeps k t rs) (hnames : names ≠ [])
    (hparse : parseExpression (condition ++ limitTokens n rest) = .ok (c, limitTokens n rest))
    (hok : ∀ row ∈ liveRows (allColumnNames t.columns) rs,
      ∃ pass, evaluateWhere (some c) row = .ok pass) :
    Honours order db names table condition c n rest t ↔
      NothingLeftOut names n (allColumnNames t.columns)
        (satisfying (some c) (liveRows (allColumnNames t.columns) rs)) := by
  have hhandle : handle (some c) t =
      .ok (satisfying (some c) (liveRows (allColumnNames t.columns) rs)) := by
    rw [handle_eq_select, h.stores.readable.select h.columns, passing_ok hok]
  have hrows : ∀ row ∈ satisfying (some c) (liveRows (allColumnNames t.columns) rs),
      restrict names row = row ↔ ∀ name ∈ allColumnNames t.columns, name ∈ names := by
    intro row hrow
    obtain ⟨r, hr, rfl⟩ := List.mem_map.mp (List.mem_filter.mp hrow).1
    exact restrict_rowOf (names_length hone (h.values_length hr))
  generalize satisfying (some c) (liveRows (allColumnNames t.columns) rs) = found at hhandle hrows ⊢
  by_cases hn : n ≤ intMax
  · have hanswer : Honours order db names table condition c n rest t ↔
        printRows order ((found.take n).map (restrict names)) = printRows order found := by
      rw [Honours, answerSelect_tokens hnames hn hparse, selectText, hhandle]
      constructor
      · rintro ⟨rows, hfound, htext⟩
        obtain rfl := Except.ok.inj hfound
        exact (Except.ok.inj htext).symm
      · intro htext
        exact ⟨found, rfl, congrArg _ htext.symm⟩
    rw [hanswer, printRows_eq_iff, NothingLeftOut, and_iff_right hn]
    refine and_congr_right fun _ => ?_
    cases found with
    | nil => simp
    | cons row rows =>
        have hlisted := hrows row List.mem_cons_self
        constructor
        · intro hwhole
          exact .inr (hlisted.mp (hwhole row List.mem_cons_self))
        · intro hnone row hrow
          exact (hrows row hrow).mpr (hnone.resolve_left (List.cons_ne_nil _ _))
  · obtain ⟨e, he⟩ : ∃ e, parseSelectStatement (some db)
        (selectTokens names table condition n rest) = .error e :=
      parseSelectStatement_large hnames hn hparse
    constructor
    · rintro ⟨rows, -, hanswer⟩
      rw [answerSelect, he] at hanswer
      cases hanswer
    · intro hnothing
      exact absurd hnothing.1 hn

/-- In whatever order the columns of a row are printed, SELECT with a list of names and a limit
answers what is asked for exactly where this is what SELECT * answers: all columns are listed, and
no more rows are found than the limit, or none. -/
theorem select_list_iff (order : HashOrder) {columns : List Column} (hone : OnePrimary columns)
    (stmts : List Statement) (hnames : names ≠ [])
    (hparse : parseExpression (condition ++ limitTokens n rest) = .ok (c, limitTokens n rest)) :
    (∃ rs, Keeps (columns.length - 1) (run (createTable columns) stmts) rs) ∧
      ∀ rs, Keeps (columns.length - 1) (run (createTable columns) stmts) rs →
        (∀ row ∈ liveRows (allColumnNames columns) rs,
          ∃ pass, evaluateWhere (some c) row = .ok pass) →
        (Honours order db names table condition c n rest (run (createTable columns) stmts) ↔
          NothingLeftOut names n (allColumnNames columns)
            (satisfying (some c) (liveRows (allColumnNames columns) rs))) := by
  obtain ⟨hcolumns, hstored⟩ := keeps_run hone stmts
  generalize run (createTable columns) stmts = t at hcolumns hstored ⊢
  subst hcolumns
  exact ⟨hstored, fun rs hkeeps => honours_iff hone hkeeps hnames hparse⟩

/-- WHERE v = 'a' -/
def vIsA : List Token := [⟨.identifier, ['v']⟩, ⟨.equal, ['=']⟩, ⟨.string, ['a']⟩]

theorem parseExpression_vIsA :
    parseExpression (vIsA ++ limitTokens 1 []) =
      .ok (.comparison (.identifier ['v']) .equal (.stringLiteral ['a']), limitTokens 1 []) := rfl

theorem select_list_iff_oneRow : Honours .reversed ['d', 'b'] [['v'], ['i', 'd']] ['t'] vIsA
    (.comparison (.identifier ['v']) .equal (.stringLiteral ['a'])) 1 [] oneRow := by
  refine ((select_list_iff .reversed (rfl : OnePrimary keyed) [.insert ⟨[['v']], [['a']]⟩] (by simp)
    parseExpression_vIsA).2 [recordA] keeps_oneRow ?_).mpr ?_
  · intro row hrow
    obtain rfl := List.mem_singleton.mp hrow
    exact ⟨true, rfl⟩
  · exact ⟨by decide, by decide, .inr (by decide)⟩

/-- A column that is not listed is printed all the same. -/
theorem unlisted_printed : OnePrimary keyed ∧
    (∃ rows, handle (some (.comparison (.identifier ['v']) .equal (.stringLiteral ['a']))) oneRow =
      .ok rows) ∧
    ¬ Honours .reversed ['d', 'b'] [['v']] ['t'] vIsA
      (.comparison (.identifier ['v']) .equal (.stringLiteral ['a'])) 1 [] oneRow := by
  refine ⟨rfl, ⟨_, rfl⟩, ?_⟩
  rintro ⟨rows, hrows, hanswer⟩
  obtain rfl := Except.ok.inj hrows
  cases hanswer

end NanoVault.Sql
