/-
Statements as they are written, and the text they are written as.

A `Written` statement is made of names, strings and numbers that can stand in a text. Its `tokens`
and the blanks between them make its text, off which the lexer reads them again
(`tokenize_written`); `statement` is what the handlers are given. Its condition is grouped as the
parser groups it, from left to right; that says the same where no AND stands behind an OR
(`condition_said`).
-/
import NanoVault.Sql.Precedence
import NanoVault.Sql.Statements

namespace NanoVault.Sql

open Lib.Parsing NanoVault.Table NanoVault.Catalog NanoVault.Hft

/-- A name, as the lexer hands it on. -/
structure Name where
  name : Text
  start : ∃ c cs, name = c :: cs ∧ (c.isAlpha || c == '_') = true
  word : ∀ c ∈ name, Lexer.isWordChar c = true
  lower : name.map Char.toLower = name
  free : keywords.lookup name = none

/-- A number that fits into an `int`. -/
abbrev SmallNumber := Fin (2 ^ 31)

/-- A number that fits into an `int64_t`. -/
abbrev LargeNumber := Fin (2 ^ 63)

/-- A value of INSERT. -/
inductive Literal where
  | number (n : Nat)
  | string (s : Quotable)

/-- A value of SET, or of an argument of MEMORY. -/
inductive Word where
  | name (n : Name)
  | number (n : Nat)
  | string (s : Quotable)

def Word.value : Word → Text
  | .name n => n.name
  | .number n => digits n
  | .string s => s.value

inductive MemoryPhrase where
  | key (w : Word)
  | value (w : Word)
  | ttl (n : SmallNumber)

/-- What MEMORY is given by an argument; the last of a kind counts. -/
def MemoryPhrase.store (args : MemoryArguments) : MemoryPhrase → MemoryArguments
  | .key w => { args with key := w.value }
  | .value w => { args with value := w.value }
  | .ttl n => { args with ttl := (n.val : Int) }

/-- What MEMORY is given by all its arguments, in any order. -/
def storeAll (phrases : List MemoryPhrase) : MemoryArguments := phrases.foldl MemoryPhrase.store {}

/-- The arguments of MEMORY, with a key and a value that are not empty. -/
structure MemoryPhrases where
  phrases : List MemoryPhrase
  key : (storeAll phrases).key ≠ []
  value : (storeAll phrases).value ≠ []

inductive WrittenType where
  | int
  | varchar (size : Option Nat)

structure WrittenColumn where
  name : Name
  type : WrittenType
  constraints : List ColumnConstraint

/-- STATISTICS of a column. -/
inductive Statistic where
  | mean
  | count
  | max
  | min

inductive Selection where
  | all
  | columns (first : Name) (others : List Name)

/-- The feeds of SET BINANCE. -/
inductive BinanceFeed where
  | apiKey (key : Quotable)
  | orderBook (tableSymbol : LargeNumber) (binanceSymbol : Quotable)
  | liveOrders (tableSymbol : LargeNumber) (tradeSymbol : Quotable)
  | ohlc (time : Quotable) (tableSymbol : LargeNumber) (tradeSymbol : Quotable)

inductive Written where
  | createTable (name : Name) (columns : List WrittenColumn)
  | createDatabase (name : Name)
  | createHft (name : Name) (columns : List (Name × Fin (2 ^ 15))) (symbol : SmallNumber)
      (top : Bool)
  | statistics (type : Statistic) (table column : Name) (condition : Option (Condition Comparison))
  | enableBatch (table : Quotable) (ticks : LargeNumber)
  | enableStrategy (strategy : Quotable) (paramas : List Quotable) (symbol columnNo ticks :
      LargeNumber)
  | listStrategy
  | fetchIndicator (symbol : LargeNumber)
  | applyWebsocket (strategy url : Quotable)
  | insert (table : Name) (first : Name × Literal) (others : List (Name × Literal))
  | select (columns : Selection) (table : Name) (condition : Option (Condition Comparison))
      (limit : Option SmallNumber)
  | drop (istable : Bool) (name : Name)
  | use (name : Name)
  | delete (table : Name) (condition : Option (Condition Comparison))
  | update (table : Name) (first : Name × Word) (others : List (Name × Word))
      (condition : Condition Comparison)
  | memorySet (arguments : MemoryPhrases)
  | memoryGet (key : Word)
  | addHftStrategy (filePath : Quotable)
  | addHftIndicator (filePath : Quotable)
  | addIndicator (indicator : Quotable) (paramas : List Quotable) (symbol columnNo ticks :
      LargeNumber)
  | setBinance (feed : BinanceFeed)

/-! ### Tokens -/

/-- The keywords as they are written. -/
def spelling : TokenType → Text := fun type =>
  ((keywords.find? fun k => k.2 = type).map Prod.fst).getD []

def keyword (type : TokenType) : Token := ⟨type, spelling type⟩

def openParen : Token := ⟨.openParen, ['(']⟩

def closeParen : Token := ⟨.closeParen, [')']⟩

def comma : Token := ⟨.comma, [',']⟩

def semicolon : Token := ⟨.semicolon, [';']⟩

def equalSign : Token := ⟨.equal, ['=']⟩

def Name.token (n : Name) : Token := ⟨.identifier, n.name⟩

def numberToken (n : Nat) : Token := ⟨.number, digits n⟩

def Quotable.token (s : Quotable) : Token := ⟨.string, s.value⟩

def Literal.token : Literal → Token
  | .number n => numberToken n
  | .string s => s.token

def Word.token : Word → Token
  | .name n => n.token
  | .number n => numberToken n
  | .string s => s.token

def withCommas : List (List Token) → List Token
  | [] => []
  | [phrase] => phrase
  | phrase :: phrases => phrase ++ comma :: withCommas phrases

def inParens (tokens : List Token) : List Token := openParen :: (tokens ++ [closeParen])

def WrittenType.tokens : WrittenType → List Token
  | .int => [keyword .int]
  | .varchar none => [keyword .varchar]
  | .varchar (some size) => keyword .varchar :: inParens [numberToken size]

def constraintTokens : ColumnConstraint → List Token
  | .notNull => [keyword .not, keyword .nullT]
  | .primaryKey => [keyword .primary, keyword .key]
  | .unique => [keyword .unique]
  | .autoIncrement => [keyword .autoIncrement]

def WrittenColumn.tokens (c : WrittenColumn) : List Token :=
  c.name.token :: (c.type.tokens ++ c.constraints.flatMap constraintTokens)

/-- A column of an HFT table with its precision. -/
def hftTokens (c : Name × Fin (2 ^ 15)) : List Token :=
  [c.1.token, keyword .double, keyword .precision, numberToken c.2]

def Statistic.type : Statistic → TokenType
  | .mean => .mean
  | .count => .count
  | .max => .max
  | .min => .min

/-- WHERE and a condition, if there is one. -/
def whereTokens : Option (Condition Comparison) → List Token
  | none => []
  | some c => keyword .whereT :: c.tokens

def Selection.tokens : Selection → List Token
  | .all => [⟨.multiply, ['*']⟩]
  | .columns first others => withCommas ((first :: others).map fun n => [n.token])

/-- LIMIT, which is no keyword. -/
def limitPhrase : Option SmallNumber → List Token
  | none => []
  | some n => [⟨.identifier, "limit".toList⟩, numberToken n]

/-- The parameters of a strategy or an indicator; without any, the parentheses are left out. -/
def parameterTokens : List Quotable → List Token
  | [] => []
  | paramas => inParens (withCommas (paramas.map fun s => [s.token]))

def MemoryPhrase.tokens : MemoryPhrase → List Token
  | .key w => [keyword .key, equalSign, w.token]
  | .value w => [keyword .values, equalSign, w.token]
  | .ttl n => [keyword .ttl, equalSign, numberToken n.val]

def BinanceFeed.tokens : BinanceFeed → List Token
  | .apiKey key => [keyword .apiKey, key.token, semicolon]
  | .orderBook tableSymbol binanceSymbol =>
      [keyword .orderBook, keyword .onT, keyword .symbol, numberToken tableSymbol,
        keyword .symbol, binanceSymbol.token, semicolon]
  | .liveOrders tableSymbol tradeSymbol =>
      [keyword .data, keyword .feed, keyword .live, keyword .orders, keyword .onT,
        keyword .symbol, numberToken tableSymbol, keyword .symbol, tradeSymbol.token, semicolon]
  | .ohlc time tableSymbol tradeSymbol =>
      [keyword .data, keyword .feed, keyword .ohlc, time.token, keyword .onT, keyword .symbol,
        numberToken tableSymbol, keyword .symbol, tradeSymbol.token, semicolon]

/-- What follows the parameters of a strategy or an indicator. -/
def onSymbol (symbol columnNo ticks : LargeNumber) : List Token :=
  [keyword .onT, keyword .symbol, numberToken symbol, keyword .columnNo, numberToken columnNo,
    keyword .ticks, numberToken ticks, semicolon]

def Written.tokens : Written → List Token
  | .createTable name columns =>
      [keyword .create, keyword .table, name.token] ++
        inParens (withCommas (columns.map WrittenColumn.tokens)) ++ [semicolon]
  | .createDatabase name => [keyword .create, keyword .database, name.token, semicolon]
  | .createHft name columns symbol top =>
      [keyword .create, keyword .hft, keyword .table, name.token] ++
        inParens (withCommas (columns.map hftTokens)) ++
        [keyword .symbol, numberToken symbol] ++ (if top then [keyword .top] else []) ++ [semicolon]
  | .statistics type table column condition =>
      [keyword .statistics, keyword type.type, keyword .fromT, table.token, keyword .onT,
        column.token] ++ whereTokens condition ++ [semicolon]
  | .enableBatch table ticks =>
      [keyword .enable, keyword .batch, keyword .writing, keyword .onT, keyword .table, table.token,
        keyword .ticks, numberToken ticks, semicolon]
  | .enableStrategy strategy paramas symbol columnNo ticks =>
      [keyword .enable, keyword .strategy, strategy.token] ++ parameterTokens paramas ++
        onSymbol symbol columnNo ticks
  | .listStrategy => [keyword .list, keyword .strategy, semicolon]
  | .fetchIndicator symbol =>
      [keyword .fetch, keyword .indicator, keyword .fromT, keyword .hft, keyword .symbol,
        numberToken symbol, semicolon]
  | .applyWebsocket strategy url =>
      [keyword .apply, keyword .websocket, keyword .onT, keyword .strategy, strategy.token,
        keyword .url, url.token, semicolon]
  | .insert table first others =>
      [keyword .insert, keyword .into, table.token] ++
        inParens (withCommas ((first :: others).map fun v => [v.1.token])) ++ [keyword .values] ++
        inParens (withCommas ((first :: others).map fun v => [v.2.token])) ++ [semicolon]
  | .select columns table condition limit =>
      keyword .select :: (columns.tokens ++ [keyword .fromT, table.token] ++
        whereTokens condition ++ limitPhrase limit ++ [semicolon])
  | .drop istable name =>
      [keyword .drop, keyword (if istable then .table else .database), name.token, semicolon]
  | .use name => [keyword .use, name.token, semicolon]
  | .delete table condition =>
      [keyword .delete, keyword .fromT, table.token] ++ whereTokens condition ++ [semicolon]
  | .update table first others condition =>
      [keyword .update, table.token, keyword .set] ++
        withCommas ((first :: others).map fun v => [v.1.token, equalSign, v.2.token]) ++
        whereTokens (some condition) ++ [semicolon]
  | .memorySet arguments =>
      keyword .memory :: (arguments.phrases.flatMap MemoryPhrase.tokens ++ [semicolon])
  | .memoryGet key =>
      [keyword .memory, keyword .get, keyword .key, equalSign, key.token, semicolon]
  | .addHftStrategy filePath =>
      [keyword .add, keyword .strategy, keyword .fromT, keyword .file, filePath.token, semicolon]
  | .addHftIndicator filePath =>
      [keyword .add, keyword .hft, keyword .indicator, keyword .fromT, keyword .file,
        filePath.token, semicolon]
  | .addIndicator indicator paramas symbol columnNo ticks =>
      [keyword .add, keyword .indicator, indicator.token] ++ parameterTokens paramas ++
        onSymbol symbol columnNo ticks
  | .setBinance feed => [keyword .set, keyword .binance] ++ feed.tokens

def Written.print (w : Written) : Text := spellAll w.tokens

/-! ### What the handlers are given -/

def Literal.value : Literal → Text
  | .number n => digits n
  | .string s => s.value

def WrittenType.text : WrittenType → Text
  | .int => "int".toList
  | .varchar none => "varchar".toList
  | .varchar (some size) => "varchar(".toList ++ digits size ++ ")".toList

def WrittenColumn.definition (c : WrittenColumn) : ColumnDefinition where
  name := c.name.name
  type := c.type.text
  constraints := c.constraints

def hftDefinition (c : Name × Fin (2 ^ 15)) : ColumnDefinition :=
  { name := c.1.name, type := "double".toList, precision := (c.2 : Nat) }

def Statistic.text : Statistic → Text
  | .mean => "mean".toList
  | .count => "count".toList
  | .max => "max".toList
  | .min => "min".toList

def Selection.columnNames : Selection → List Text
  | .all => ["*".toList]
  | .columns first others => (first :: others).map Name.name

def LargeNumber.value (n : LargeNumber) : Option Int64 := some (Int64.ofNat n)

/-- A condition as the parser groups it: AND and OR alike, from left to right. -/
def grouped (condition : Option (Condition Comparison)) : Option Expression :=
  condition.map fun c => c.attach none

/-- The limit, as the statement has it. -/
def limitValue (limit : Option SmallNumber) : Option UInt64 :=
  limit.map fun n : SmallNumber => UInt64.ofNat n.val

def BinanceFeed.statement : BinanceFeed → HftStatement
  | .apiKey key => .binanceApiKey key.value
  | .orderBook tableSymbol binanceSymbol =>
      .binanceOrderBook (LargeNumber.value tableSymbol) binanceSymbol.value
  | .liveOrders tableSymbol tradeSymbol =>
      .binanceLiveOrders (LargeNumber.value tableSymbol) tradeSymbol.value
  | .ohlc time tableSymbol tradeSymbol =>
      .binanceOhlc (LargeNumber.value tableSymbol) time.value tradeSymbol.value

/-- The statement that is written, with its condition as it is grouped. -/
def Written.statement : Written → Statement
  | .createTable name columns => .createTable name.name (columns.map WrittenColumn.definition)
  | .createDatabase name => .createDatabase name.name
  | .createHft name columns symbol top =>
      .hft (.createHft name.name (columns.map hftDefinition) (symbol : Nat) top)
  | .statistics type table column condition =>
      .statistics type.text table.name column.name (grouped condition)
  | .enableBatch table ticks => .enableBatch table.value (LargeNumber.value ticks)
  | .enableStrategy strategy paramas symbol _ ticks =>
      .hft (.enableStrategy strategy.value (paramas.map Quotable.value) (LargeNumber.value symbol)
        (LargeNumber.value ticks))
  | .listStrategy => .listStrategy
  | .fetchIndicator symbol => .hft (.fetchIndicator (LargeNumber.value symbol))
  | .applyWebsocket strategy url => .applyWebsocket strategy.value url.value
  | .insert table first others =>
      .insert table.name ⟨(first :: others).map fun v => v.1.name,
        (first :: others).map fun v => v.2.value⟩
  | .select columns table condition limit =>
      .select ⟨columns.columnNames, table.name, grouped condition, limitValue limit⟩
  | .drop istable name => .drop istable name.name
  | .use name => .use name.name
  | .delete table condition => .delete table.name (grouped condition)
  | .update table first others condition =>
      .update table.name ((first :: others).map fun v => (v.1.name, v.2.value))
        (condition.attach none)
  | .memorySet arguments =>
      let args := storeAll arguments.phrases
      .memorySet args.key args.value args.ttl
  | .memoryGet key => .memoryGet key.value
  | .addHftStrategy filePath => .addHftStrategy filePath.value
  | .addHftIndicator filePath => .addHftIndicator filePath.value
  | .addIndicator indicator paramas symbol columnNo ticks =>
      .hft (.addIndicator indicator.value (paramas.map Quotable.value) (LargeNumber.value symbol)
        (LargeNumber.value columnNo) (LargeNumber.value ticks))
  | .setBinance feed => .hft feed.statement

def Written.condition : Written → Option (Condition Comparison)
  | .statistics _ _ _ condition => condition
  | .select _ _ condition _ => condition
  | .delete _ condition => condition
  | .update _ _ _ condition => some condition
  | _ => none

/-- The condition a handler is given. -/
def Statement.condition : Statement → Option Expression
  | .statistics _ _ _ whereClause => whereClause
  | .select stmt => stmt.whereClause
  | .delete _ whereClause => whereClause
  | .update _ _ condition => some condition
  | _ => none

/-- The condition of the statement meant is the one written, grouped. -/
theorem Written.statement_condition (w : Written) :
    w.statement.condition = grouped w.condition := by
  cases w <;> rfl

/-- Where no AND stands behind an OR in the same parentheses, the handler is given a condition that
says what is written. -/
theorem Written.condition_said {w : Written} {c : Condition Comparison} (hc : c ∈ w.condition)
    (hfirst : c.AndsFirst) : ∃ e ∈ w.statement.condition, c.SaidBy e := by
  refine ⟨c.attach none, ?_, Condition.saidBy_attach hfirst⟩
  rw [w.statement_condition, grouped, Option.mem_def.mp hc]
  rfl

/-! ### The lexer -/

def wellSpelled (type : TokenType) : Bool :=
  match spelling type with
  | [] => false
  | c :: cs => (c.isAlpha || c == '_') && (c :: cs).all Lexer.isWordChar &&
      ((c :: cs).map Char.toLower == c :: cs) &&
      ((keywords.lookup (c :: cs)).getD .identifier == type)

/-- The keywords are spelled as the lexer reads words. -/
theorem keywords_wellSpelled : ∀ k ∈ keywords, wellSpelled k.2 = true := by decide +kernel

@[simp] theorem lexes_keyword {type : TokenType} (hkeyword : type ∈ keywords.map Prod.snd) :
    (keyword type).Lexes := by
  obtain ⟨k, hk, rfl⟩ := List.mem_map.mp hkeyword
  have h := keywords_wellSpelled k hk
  unfold wellSpelled at h
  unfold keyword
  split at h
  · cases h
  · rename_i c cs hspelling
    simp only [Bool.and_eq_true, beq_iff_eq] at h
    obtain ⟨⟨⟨hstart, hword⟩, hlower⟩, htype⟩ := h
    rw [hspelling]
    exact lexes_word hstart hword hlower htype

@[simp] theorem lexes_name (n : Name) : n.token.Lexes := by
  obtain ⟨name, ⟨c, cs, rfl, hstart⟩, hword, hlower, hfree⟩ := n
  exact lexes_word hstart (List.all_eq_true.2 hword) hlower (by rw [hfree]; rfl)

@[simp] theorem lexes_literal (v : Literal) : v.token.Lexes := by
  cases v with
  | number n => exact lexes_number n
  | string s => exact lexes_string s

@[simp] theorem lexes_wordToken (v : Word) : v.token.Lexes := by
  cases v with
  | name n => exact lexes_name n
  | number n => exact lexes_number n
  | string s => exact lexes_string s

@[simp] theorem lexes_numberToken (n : Nat) : (numberToken n).Lexes := lexes_number n

@[simp] theorem lexes_quotable (s : Quotable) : s.token.Lexes := lexes_string s

@[simp] theorem lexes_open : openParen.Lexes := lexes_openParen

@[simp] theorem lexes_close : closeParen.Lexes := lexes_closeParen

@[simp] theorem lexes_comma : comma.Lexes := lexes_mark (by decide)

@[simp] theorem lexes_semicolon : semicolon.Lexes := lexes_mark (by decide)

@[simp] theorem lexes_equalSign : equalSign.Lexes := lexes_mark (by decide)

/-- All tokens of a list are read off their spellings. -/
def Lexable (ts : List Token) : Prop := ∀ t ∈ ts, t.Lexes

@[simp] theorem lexable_nil : Lexable [] := nofun

@[simp] theorem lexable_cons {t : Token} {ts : List Token} :
    Lexable (t :: ts) ↔ t.Lexes ∧ Lexable ts := List.forall_mem_cons

@[simp] theorem lexable_append {ts ts' : List Token} :
    Lexable (ts ++ ts') ↔ Lexable ts ∧ Lexable ts' := List.forall_mem_append

/-- Phrases the lexer reads stay so with commas between them. -/
theorem lexable_withCommas {phrases : List (List Token)} (h : ∀ p ∈ phrases, Lexable p) :
    Lexable (withCommas phrases) := by
  induction phrases with
  | nil => exact lexable_nil
  | cons phrase phrases ih =>
      have hfirst := h phrase List.mem_cons_self
      have hrest := ih fun p hp => h p (List.mem_cons_of_mem _ hp)
      cases phrases with
      | nil => exact hfirst
      | cons next phrases =>
          simp only [withCommas, lexable_append, lexable_cons]
          exact ⟨hfirst, lexes_comma, hrest⟩

@[simp] theorem lexable_inParens {ts : List Token} : Lexable (inParens ts) ↔ Lexable ts := by
  simp [inParens]

/-- One phrase for each element of a list. -/
theorem lexable_phrases {α : Type} {phrase : α → List Token} (h : ∀ a, Lexable (phrase a))
    (as : List α) : Lexable (withCommas (as.map phrase)) := by
  apply lexable_withCommas
  intro p hp
  obtain ⟨a, -, rfl⟩ := List.mem_map.mp hp
  exact h a

@[simp] theorem lexable_type (type : WrittenType) : Lexable type.tokens := by
  cases type with
  | int => simp (disch := decide) [WrittenType.tokens]
  | varchar size => cases size <;> simp (disch := decide) [WrittenType.tokens]

@[simp] theorem lexable_constraint (c : ColumnConstraint) : Lexable (constraintTokens c) := by
  cases c <;> simp (disch := decide) [constraintTokens]

/-- Phrases the lexer reads stay so one after another. -/
theorem lexable_flatMap {α : Type} {phrase : α → List Token} (h : ∀ a, Lexable (phrase a))
    (as : List α) : Lexable (as.flatMap phrase) := by
  intro t ht
  obtain ⟨a, -, ha⟩ := List.mem_flatMap.mp ht
  exact h a t ha

/-- The tokens of a column are ones the lexer reads. -/
theorem lexable_column (c : WrittenColumn) : Lexable c.tokens := by
  simp [WrittenColumn.tokens, lexable_flatMap lexable_constraint]

theorem lexable_hftTokens (c : Name × Fin (2 ^ 15)) : Lexable (hftTokens c) := by
  simp (disch := decide) [hftTokens]

@[simp] theorem lexes_statistic (type : Statistic) : (keyword type.type).Lexes := by
  cases type <;> exact lexes_keyword (by decide)

@[simp] theorem lexable_where (condition : Option (Condition Comparison)) :
    Lexable (whereTokens condition) := by
  cases condition with
  | none => exact lexable_nil
  | some c =>
      simp (disch := decide) only [whereTokens, lexable_cons, lexes_keyword, true_and]
      exact lexes_condition c

@[simp] theorem lexable_selection (columns : Selection) : Lexable columns.tokens := by
  cases columns with
  | all =>
      simp only [Selection.tokens, lexable_cons, lexable_nil, and_true]
      exact lexes_mark (by decide)
  | columns first others => exact lexable_phrases (fun n => by simp) _

@[simp] theorem lexable_limit (limit : Option SmallNumber) : Lexable (limitPhrase limit) := by
  cases limit with
  | none => exact lexable_nil
  | some n =>
      simp only [limitPhrase, lexable_cons, lexes_numberToken, lexable_nil, and_true]
      exact lexes_word rfl rfl rfl rfl

@[simp] theorem lexable_parameters (paramas : List Quotable) :
    Lexable (parameterTokens paramas) := by
  cases paramas with
  | nil => exact lexable_nil
  | cons first others =>
      simp only [parameterTokens, lexable_inParens]
      exact lexable_phrases (fun s => by simp) _

@[simp] theorem lexable_phrase (phrase : MemoryPhrase) : Lexable phrase.tokens := by
  cases phrase <;> simp (disch := decide) [MemoryPhrase.tokens]

@[simp] theorem lexable_feed (feed : BinanceFeed) : Lexable feed.tokens := by
  cases feed <;> simp (disch := decide) [BinanceFeed.tokens]

@[simp] theorem lexable_onSymbol (symbol columnNo ticks : LargeNumber) :
    Lexable (onSymbol symbol columnNo ticks) := by
  simp (disch := decide) [onSymbol]

/-- The tokens of every statement are ones the lexer reads. -/
theorem lexable_tokens (w : Written) : Lexable w.tokens := by
  cases w with
  | createTable name columns =>
      simp (disch := decide) [Written.tokens, lexable_phrases lexable_column]
  | createHft name columns symbol top =>
      have hall := lexable_phrases lexable_hftTokens columns
      simp (disch := decide) only [Written.tokens, lexable_append, lexable_cons, lexable_nil,
        lexes_keyword, lexes_name, lexes_numberToken, lexes_semicolon, lexable_inParens, and_true,
        true_and]
      refine ⟨hall, ?_⟩
      cases top <;> simp (disch := decide)
  | insert table first others =>
      have hnames := lexable_phrases (fun v : Name × Literal => by simp : ∀ v, Lexable [v.1.token])
      have hvalues := lexable_phrases (fun v : Name × Literal => by simp : ∀ v, Lexable [v.2.token])
      simp (disch := decide) only [Written.tokens, lexable_append, lexable_cons, lexable_nil,
        lexes_keyword, lexes_name, lexable_inParens, lexes_semicolon, and_true, true_and]
      exact ⟨hnames _, hvalues _⟩
  | update table first others condition =>
      have hassigned := lexable_phrases
        (fun v : Name × Word => by simp : ∀ v, Lexable [v.1.token, equalSign, v.2.token])
      simp (disch := decide) only [Written.tokens, lexable_append, lexable_cons, lexable_nil,
        lexes_keyword, lexes_name, lexable_where, lexes_semicolon, and_true, true_and]
      exact hassigned _
  | drop istable name => cases istable <;> simp (disch := decide) [Written.tokens]
  | _ =>
      simp (disch := decide) only [Written.tokens, lexable_append, lexable_cons, lexable_nil,
        lexes_keyword, lexes_name, lexes_numberToken, lexes_quotable, lexes_wordToken,
        lexes_equalSign, lexes_semicolon, lexes_statistic, lexable_where, lexable_selection,
        lexable_limit, lexable_parameters, lexable_flatMap lexable_phrase, lexable_feed,
        lexable_onSymbol, and_self]

/-- The lexer reads the tokens of a statement back from its text. -/
theorem tokenize_written (w : Written) (hlen : w.print.length < 2 ^ 31) :
    tokenize w.print = .ok (w.tokens ++ [.endOfFile]) := by
  have hlexes := lexable_tokens w
  apply tokenize_reads ?_ hlen
  unfold Written.print
  rw [dropWhile_spellAll hlexes]
  exact reads_spellAll hlexes

theorem spelling_int : (keyword .int).value = "int".toList := by decide

theorem spelling_varchar : (keyword .varchar).value = "varchar".toList := by decide

theorem spelling_double : (keyword .double).value = "double".toList := by decide

-- from here on a keyword is a token of its type and nothing more
attribute [irreducible] spelling

end NanoVault.Sql
