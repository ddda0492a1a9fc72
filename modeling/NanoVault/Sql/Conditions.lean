/-
Conditions as text (`parseExpression` and what it calls in `SQL_PARSER.hpp`).

The parser keeps the tokens from its position on. Every turn of the loop of `parseLogical`, and
every parenthesis, takes a token, so that as many of them as there are tokens are enough.

A `Condition` is a tree of comparisons, AND and OR. It is printed with a blank behind every
token; the lexer reads the tokens back (`tokenize_print`).
-/
import NanoVault.Catalog.Metadata
import NanoVault.Table.Statistics
import NanoVault.Sql.Tokens

namespace NanoVault.Sql

open NanoVault.Table NanoVault.Catalog

/-! ### The parser -/

/-- What a function of the parser returns, and the tokens behind it. -/
abbrev Parser := List Token → Except Fault (Expression × List Token)

def parsePrimary (parseExpression : Parser) : Parser
  | ⟨.openParen, _⟩ :: tokens => do
      match ← parseExpression tokens with
      | (expr, ⟨.closeParen, _⟩ :: tokens) => return (.parenthesized expr, tokens)
      | _ => throw (.runtimeError "Parse error: Expected ')'".toList)
  | ⟨.identifier, val⟩ :: tokens =>
      if val = "true".toList ∨ val = "false".toList then
        return (.boolLiteral (val = "true".toList), tokens)
      else return (.identifier val, tokens)
  | ⟨.number, val⟩ :: tokens => do return (.intLiteral (Int32.ofInt (← stoi val)), tokens)
  | ⟨.string, val⟩ :: tokens => return (.stringLiteral val, tokens)
  | _ => throw (.runtimeError "Unexpected token in expression".toList)

/-- The operator of a comparison. -/
def comparisonOperator : TokenType → Option ComparisonOperator
  | .equal => some .equal
  | .notEqual => some .notEqual
  | .greater => some .greater
  | .less => some .less
  | .greaterEqual => some .greaterEqual
  | .lessEqual => some .lessEqual
  | _ => none

def parseComparison (parseExpression : Parser) : Parser := fun tokens => do
  match ← parsePrimary parseExpression tokens with
  | (left, []) => return (left, [])
  | (left, token :: tokens) =>
      match comparisonOperator token.type with
      | none => return (left, token :: tokens)
      | some op => do
          let (right, tokens) ← parsePrimary parseExpression tokens
          return (.comparison left op right, tokens)

/-- The operator of a logical expression. -/
def logicalOperator : TokenType → Option LogicalOperator
  | .and => some .and
  | .or => some .or
  | _ => none

/-- The loop of `parseLogical`, with what has been parsed. -/
def logicalLoop (parseExpression : Parser) : Nat → Expression → Parser
  | 0, left, tokens => return (left, tokens)
  | _ + 1, left, [] => return (left, [])
  | turns + 1, left, token :: tokens =>
      match logicalOperator token.type with
      | none => return (left, token :: tokens)
      | some op => do
          let (right, tokens) ← parseComparison parseExpression tokens
          logicalLoop parseExpression turns (.logical left op right) tokens

def parseLogical (parseExpression : Parser) : Parser := fun tokens => do
  let (left, behind) ← parseComparison parseExpression tokens
  logicalLoop parseExpression tokens.length left behind

/-- `parseExpression`, inside of so many parentheses at most. -/
def parseNested : Nat → Parser
  | 0 => fun _ => throw (.runtimeError "Unexpected token in expression".toList)
  | depth + 1 => parseLogical (parseNested depth)

def parseExpression : Parser := fun tokens => parseNested tokens.length tokens

def readCondition (sql : Text) : Except Fault Expression := do
  let tokens ← tokenize sql
  let (expr, _) ← parseExpression tokens
  return expr

/-! ### Conditions -/

/-- A name of a column, as the lexer hands it on. -/
structure ColumnName where
  name : Text
  start : ∃ c cs, name = c :: cs ∧ (c.isAlpha || c == '_') = true
  word : ∀ c ∈ name, Lexer.isWordChar c = true
  lower : name.map Char.toLower = name
  free : keywords.lookup name = none
  noBool : name ≠ "true".toList ∧ name ≠ "false".toList

/-- The quote a string is printed in. -/
def quoteOf (s : Text) : Char := if '\x27' ∈ s then '\x22' else '\x27'

/-- A string that can be written between quotes. -/
structure Quotable where
  value : Text
  quoted : ∀ c ∈ value, c ≠ quoteOf value ∧ c ≠ '\x00' ∧ c ≠ '\n'

/-- A side of a comparison: a column, or a literal that fits into an `int` or between quotes. -/
inductive Operand where
  | column (name : ColumnName)
  | number (n : Fin (2 ^ 31))
  | string (s : Quotable)
  | bool (b : Bool)

structure Comparison where
  left : Operand
  op : ComparisonOperator
  right : Operand

/-- A condition over comparisons, with parentheses wherever its tree asks for them. -/
inductive Condition (α : Type) where
  | comparison (a : α)
  | and (left right : Condition α)
  | or (left right : Condition α)

variable {α β : Type}

def Condition.map (f : α → β) : Condition α → Condition β
  | .comparison a => .comparison (f a)
  | .and left right => .and (left.map f) (right.map f)
  | .or left right => .or (left.map f) (right.map f)

/-- The condition without its comparisons. -/
def Condition.shape (c : Condition α) : Condition Unit := c.map fun _ => ()

def Condition.isOr : Condition α → Bool
  | .or _ _ => true
  | _ => false

/-! ### Printing -/

def boolText (b : Bool) : Text := if b then "true".toList else "false".toList

def Operand.token : Operand → Token
  | .column name => ⟨.identifier, name.name⟩
  | .number n => ⟨.number, digits n⟩
  | .string s => ⟨.string, s.value⟩
  | .bool b => ⟨.identifier, boolText b⟩

def opToken : ComparisonOperator → Token
  | .equal => ⟨.equal, "=".toList⟩
  | .notEqual => ⟨.notEqual, "!=".toList⟩
  | .greater => ⟨.greater, ">".toList⟩
  | .less => ⟨.less, "<".toList⟩
  | .greaterEqual => ⟨.greaterEqual, ">=".toList⟩
  | .lessEqual => ⟨.lessEqual, "<=".toList⟩

def logicalToken : LogicalOperator → Token
  | .and => ⟨.and, "and".toList⟩
  | .or => ⟨.or, "or".toList⟩

/-- The tokens of a condition between parentheses. -/
def between (tokens : List Token) : List Token :=
  ⟨.openParen, ['(']⟩ :: (tokens ++ [⟨.closeParen, [')']⟩])

def Comparison.tokens (c : Comparison) : List Token :=
  [c.left.token, opToken c.op, c.right.token]

/-- The tokens of a condition. AND binds tighter than OR, so an OR under an AND stands between
parentheses, and nothing else does. -/
def Condition.tokens : Condition Comparison → List Token
  | .comparison a => a.tokens
  | .or left right => left.tokens ++ logicalToken .or :: right.tokens
  | .and left right =>
      (if left.isOr then between left.tokens else left.tokens) ++ logicalToken .and ::
        (if right.isOr then between right.tokens else right.tokens)

def Token.spell (t : Token) : Text :=
  if t.type = .string then quoteOf t.value :: (t.value ++ [quoteOf t.value]) else t.value

def Condition.print (c : Condition Comparison) : Text :=
  c.tokens.flatMap fun t => t.spell ++ [' ']

/-! ### The lexer on what is printed -/

/-- In front of a blank, the lexer reads the token off its spelling. -/
structure Token.Lexes (t : Token) : Prop where
  start : ∃ c cs, t.spell = c :: cs ∧ Lexer.isBlank c = false
  next : ∀ (l : Lexer) (rest : Text), l.rest = t.spell ++ ' ' :: rest →
    ∃ l', l.nextToken = .ok (t, l') ∧ l'.rest = ' ' :: rest

variable {c : Char} {cs : Text} {type : TokenType} {t : Token}

/-- A quotation mark is single or double. -/
theorem quoteOf_cases (s : Text) : quoteOf s = '\x27' ∨ quoteOf s = '\x22' := by
  rw [quoteOf]
  split
  · exact .inr rfl
  · exact .inl rfl

/-- `spell` is one of the ways of writing a token. -/
theorem Token.Lexical.written (h : t.Lexical) : t.Written t.spell := by
  obtain ⟨type, value⟩ := t
  rw [Token.spell]
  split
  · next htype =>
      dsimp only at htype
      subst htype
      refine .string (quoteOf_cases value) ?_
      obtain ⟨quote, hquote, hbody⟩ := h.string_free
      rw [quoteOf]
      split
      · next hmem =>
          intro hquoted
          rcases hquote with rfl | rfl
          · exact (hbody _ hmem).1 rfl
          · exact (hbody _ hquoted).1 rfl
      · assumption
  · next htype => exact .other htype

/-- A token the lexer can read has a text it is read off. -/
theorem Token.Lexical.lexes (h : t.Lexical) : t.Lexes where
  start := h.start h.written
  next l rest hl := h.reads h.written l (' ' :: rest) hl (.inr ⟨rest, rfl⟩)

/-- A word in lower case is read off itself. -/
theorem lexes_word (hstart : (c.isAlpha || c == '_') = true)
    (hword : (c :: cs).all Lexer.isWordChar = true)
    (hlower : (c :: cs).map Char.toLower = c :: cs)
    (htype : (keywords.lookup (c :: cs)).getD .identifier = type) :
    Token.Lexes ⟨type, c :: cs⟩ := by
  subst htype
  exact (Token.Lexical.word hstart (List.all_eq_true.1 hword) hlower).lexes

theorem lexes_mark (h : (type, cs) ∈ marks) : Token.Lexes ⟨type, cs⟩ :=
  (Token.Lexical.mark h).lexes

/-- A number is read off its digits. -/
theorem lexes_number (n : Nat) : Token.Lexes ⟨.number, digits n⟩ := by
  have hnumeral : digits n = Numeral.text ⟨digits n, none, Nat.toDigits_ne_nil,
      digits_isDigit n, fun ds hds => by cases hds⟩ := (List.append_nil _).symm
  rw [hnumeral]
  exact (Token.Lexical.number _).lexes

/-- A string is read off its text in quotation marks. -/
theorem lexes_string (s : Quotable) : Token.Lexes ⟨.string, s.value⟩ :=
  (Token.Lexical.string (quoteOf_cases s.value) s.quoted).lexes

theorem lexes_opToken (op : ComparisonOperator) : (opToken op).Lexes := by
  cases op <;> exact lexes_mark (by decide)

theorem lexes_logicalToken (op : LogicalOperator) : (logicalToken op).Lexes := by
  cases op with
  | and => exact lexes_word rfl rfl rfl rfl
  | or => exact lexes_word rfl rfl rfl rfl

theorem lexes_openParen : Token.Lexes ⟨.openParen, ['(']⟩ := lexes_mark (by decide)

theorem lexes_closeParen : Token.Lexes ⟨.closeParen, [')']⟩ := lexes_mark (by decide)

/-- An operand is read off its text. -/
theorem lexes_operand (x : Operand) : x.token.Lexes := by
  cases x with
  | column name =>
      obtain ⟨name, ⟨c, cs, rfl, hstart⟩, hword, hlower, hfree, -⟩ := name
      exact lexes_word hstart (List.all_eq_true.2 hword) hlower (by rw [hfree]; rfl)
  | number n => exact lexes_number n
  | string s => exact lexes_string s
  | bool b =>
      cases b with
      | false => exact lexes_word rfl rfl rfl rfl
      | true => exact lexes_word rfl rfl rfl rfl

/-- A comparison is read off its text. -/
theorem lexes_comparison (a : Comparison) : ∀ t ∈ a.tokens, t.Lexes := by
  intro t ht
  simp only [Comparison.tokens, List.mem_cons, List.not_mem_nil, or_false] at ht
  rcases ht with rfl | rfl | rfl
  · exact lexes_operand a.left
  · exact lexes_opToken a.op
  · exact lexes_operand a.right

/-- So is what stands in parentheses. -/
theorem lexes_between {ts : List Token} (h : ∀ t ∈ ts, t.Lexes) : ∀ t ∈ between ts, t.Lexes := by
  intro t ht
  simp only [between, List.mem_cons, List.mem_append, List.not_mem_nil, or_false] at ht
  rcases ht with rfl | ht | rfl
  · exact lexes_openParen
  · exact h t ht
  · exact lexes_closeParen

/-- The lexer reads every token of a condition off its spelling. -/
theorem lexes_condition (c : Condition Comparison) : ∀ t ∈ c.tokens, t.Lexes := by
  induction c with
  | comparison a => exact lexes_comparison a
  | or left right ihl ihr =>
      intro t ht
      simp only [Condition.tokens, List.mem_append, List.mem_cons] at ht
      rcases ht with ht | rfl | ht
      · exact ihl t ht
      · exact lexes_logicalToken .or
      · exact ihr t ht
  | and left right ihl ihr =>
      have hside : ∀ side : Condition Comparison, (∀ t ∈ side.tokens, t.Lexes) →
          ∀ t ∈ (if side.isOr then between side.tokens else side.tokens), t.Lexes := by
        intro side hside
        split
        · exact lexes_between hside
        · exact hside
      intro t ht
      simp only [Condition.tokens, List.mem_append, List.mem_cons] at ht
      rcases ht with ht | rfl | ht
      · exact hside left ihl t ht
      · exact lexes_logicalToken .and
      · exact hside right ihr t ht

/-- The tokens of a text, each with a blank behind it. -/
def spellAll (ts : List Token) : Text := ts.flatMap fun t => t.spell ++ [' ']

theorem spellAll_cons (t : Token) (ts : List Token) :
    spellAll (t :: ts) = t.spell ++ ' ' :: spellAll ts := by
  rw [spellAll, List.flatMap_cons, List.append_assoc]
  rfl

/-- No token begins with a blank. -/
theorem dropWhile_spellAll {ts : List Token} (h : ∀ t ∈ ts, t.Lexes) :
    (spellAll ts).dropWhile Lexer.isBlank = spellAll ts := by
  cases ts with
  | nil => rfl
  | cons t ts =>
      obtain ⟨⟨c, cs, hspell, hblank⟩, -⟩ := h t List.mem_cons_self
      rw [spellAll_cons, hspell, List.cons_append, List.dropWhile_cons, hblank]
      rfl

/-- Tokens with blanks between them are read. -/
theorem reads_spellAll {ts : List Token} (h : ∀ t ∈ ts, t.Lexes) :
    Lexer.Reads ts (spellAll ts) := by
  induction ts with
  | nil => exact .nil
  | cons t ts ih =>
      obtain ⟨⟨c, cs, hspell, -⟩, hnext⟩ := h t List.mem_cons_self
      have htail : ∀ t ∈ ts, t.Lexes := fun t ht => h t (List.mem_cons_of_mem _ ht)
      rw [spellAll_cons]
      refine .cons ?_ (fun l hl => hnext l (spellAll ts) hl) ?_
      · rw [hspell]
        exact List.cons_ne_nil _ _
      · rw [List.dropWhile_cons_of_pos rfl, dropWhile_spellAll htail]
        exact ih htail

/-- The lexer reads the tokens of a condition back from its text. -/
theorem tokenize_print (c : Condition Comparison) (hlen : c.print.length < 2 ^ 31) :
    tokenize c.print = .ok (c.tokens ++ [.endOfFile]) := by
  have hlexes := lexes_condition c
  refine tokenize_reads ?_ hlen
  have hprint : c.print = spellAll c.tokens := rfl
  rw [hprint, dropWhile_spellAll hlexes]
  exact reads_spellAll hlexes

end NanoVault.Sql
