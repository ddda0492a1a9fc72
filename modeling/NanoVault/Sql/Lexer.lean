/-
The tokens of a statement (`SQL_LEXER.hpp`).

A `Lexer` holds the source from its cursor on. A text that is accepted consists of blanks
and of the spellings of its tokens, one after the other (`tokenize_spelled`); the lexer
leaves nothing out, and takes every character for one token only.
-/
import NanoVault.Table.Value

namespace NanoVault.Sql

open NanoVault.Table

inductive TokenType where
  | select | memory | ttl | fromT | use | whereT | insert | into | values | get | create | table
  | delete | update | set | and | or | not | order | byT | drop | database | orderby
  | autoIncrement | nullT | unique | statistics
  | int | varchar | primary | key
  | identifier | string | number | star
  | plus | minus | multiply | slash | percent | equal | greater | less | greaterEqual
  | lessEqual | notEqual | doubleEqual
  | comma | semicolon | dot | openParen | closeParen
  | endOfFile
  | fetch | double | precision | ticks | hft | tickSide | symbol | top | add | indicator | file
  | onT | columnNo | list | strategy | enable | batch | writing | aggregates | mean | meanN | max
  | maxN | min | minN | count | countN | stddev | apply | stddevN | websocket | url | apiKey
  | orderBook | binance | data | feed | ohlc | live | orders
deriving DecidableEq, Repr

def keywords : List (Text × TokenType) :=
  [("double".toList, .double), ("tick_side".toList, .tickSide),
    ("precision".toList, .precision), ("ticks".toList, .ticks), ("hft".toList, .hft),
    ("symbol".toList, .symbol), ("top".toList, .top), ("add".toList, .add),
    ("indicator".toList, .indicator), ("file".toList, .file), ("on".toList, .onT),
    ("column_no".toList, .columnNo), ("list".toList, .list), ("strategy".toList, .strategy),
    ("enable".toList, .enable), ("batch".toList, .batch), ("writing".toList, .writing),
    ("statistics".toList, .statistics), ("fetch".toList, .fetch), ("apply".toList, .apply),
    ("websocket".toList, .websocket), ("url".toList, .url), ("api_key".toList, .apiKey),
    ("binance".toList, .binance), ("order_book".toList, .orderBook), ("data".toList, .data),
    ("feed".toList, .feed), ("ohlc".toList, .ohlc), ("live".toList, .live),
    ("orders".toList, .orders), ("mean".toList, .mean), ("mean_n".toList, .meanN),
    ("max".toList, .max), ("max_n".toList, .maxN), ("min".toList, .min), ("min_n".toList, .minN),
    ("count".toList, .count), ("count_n".toList, .countN), ("stddev".toList, .stddev),
    ("stddev_n".toList, .stddevN), ("select".toList, .select), ("use".toList, .use),
    ("from".toList, .fromT), ("where".toList, .whereT), ("insert".toList, .insert),
    ("into".toList, .into), ("values".toList, .values), ("get".toList, .get),
    ("memory".toList, .memory), ("ttl".toList, .ttl), ("create".toList, .create),
    ("table".toList, .table), ("delete".toList, .delete), ("update".toList, .update),
    ("set".toList, .set), ("and".toList, .and), ("or".toList, .or), ("not".toList, .not),
    ("order".toList, .order), ("by".toList, .byT), ("drop".toList, .drop),
    ("database".toList, .database), ("orderby".toList, .orderby), ("int".toList, .int),
    ("varchar".toList, .varchar), ("primary".toList, .primary), ("key".toList, .key),
    ("auto_increment".toList, .autoIncrement), ("null".toList, .nullT),
    ("unique".toList, .unique)]

def singleCharTokens : List (Char × TokenType) :=
  [('+', .plus), ('-', .minus), ('*', .multiply), ('/', .slash), ('%', .percent),
    ('(', .openParen), (')', .closeParen), (',', .comma), (';', .semicolon), ('.', .dot)]

structure Token where
  type : TokenType
  value : Text
deriving DecidableEq, Repr

/-- The token at the end of every list. -/
def Token.endOfFile : Token := ⟨.endOfFile, []⟩

/-- `Lexer`; the source from the cursor on, and where the cursor is. -/
structure Lexer where
  rest : Text
  lineNumber : Nat := 1
  characterNumber : Nat := 1
deriving DecidableEq, Repr

namespace Lexer

def current (l : Lexer) : Char := l.rest.headD '\x00'

def seek (l : Lexer) (offset : Nat) : Char := l.rest.getD offset '\x00'

/-- `advance`; the character it returns is `current`. -/
def advance (l : Lexer) : Lexer :=
  match l.rest with
  | [] => l
  | c :: rest =>
      if c = '\n' then ⟨rest, l.lineNumber + 1, 1⟩
      else ⟨rest, l.lineNumber, l.characterNumber + 1⟩

/-- `while (test(current)) buffer << advance()`, for a test that fails at the end. -/
def readWhile (test : Char → Bool) (l : Lexer) : Text × Lexer :=
  (l.rest.takeWhile test, advance^[(l.rest.takeWhile test).length] l)

/-- The test of `skipWhitespace`. -/
def isBlank (c : Char) : Bool := c == ' ' || c == '\t' || c == '\r' || c == '\n'

def skipWhitespace (l : Lexer) : Lexer :=
  (l.readWhile isBlank).2

/-- `isalnum(current) || current == '_'`. -/
def isWordChar (c : Char) : Bool := c.isAlphanum || c == '_'

/-- `tokenizeKeyword`; what it accepts as a first character it accepts as a later one. -/
def tokenizeKeyword (l : Lexer) : Token × Lexer :=
  let word := l.readWhile isWordChar
  let value := word.1.map Char.toLower
  (⟨(keywords.lookup value).getD .identifier, value⟩, word.2)

def tokenizeNumber (l : Lexer) : Token × Lexer :=
  let whole := l.readWhile Char.isDigit
  if whole.2.current = '.' then
    let fraction := whole.2.advance.readWhile Char.isDigit
    (⟨.number, whole.1 ++ '.' :: fraction.1⟩, fraction.2)
  else (⟨.number, whole.1⟩, whole.2)

def tokenizeString (l : Lexer) : Except Fault (Token × Lexer) :=
  let quote := l.current
  let body := l.advance.readWhile fun c => c != quote && c != '\x00' && c != '\n'
  if body.2.current = quote then return (⟨.string, body.1⟩, body.2.advance)
  else throw (.runtimeError ("Unterminated string at line ".toList ++ digits body.2.lineNumber))

/-- The exception for a character no token begins with. -/
def parsingError (l : Lexer) (what : Text) : Fault :=
  .runtimeError ("Parsing error at line ".toList ++ digits l.lineNumber ++
    " at character ".toList ++ digits l.characterNumber ++ what)

def checkSingleCharToken (l : Lexer) : Option (Token × Lexer) :=
  (singleCharTokens.lookup l.current).map fun type => (⟨type, [l.current]⟩, l.advance)

def one (l : Lexer) (type : TokenType) (c : Char) : Token × Lexer := (⟨type, [c]⟩, l.advance)

def two (l : Lexer) (type : TokenType) (c d : Char) : Token × Lexer :=
  (⟨type, [c, d]⟩, l.advance.advance)

/-- The body of the loop of `tokenize`, behind the blanks. -/
def nextToken (l : Lexer) : Except Fault (Token × Lexer) :=
  let c := l.current
  if c.isAlpha || c == '_' then return l.tokenizeKeyword
  else if c = '\x27' ∨ c = '\x22' then l.tokenizeString
  else if c.isDigit then return l.tokenizeNumber
  else if c = '!' then
    if l.seek 1 = '=' then return l.two .notEqual '!' '='
    else throw (l.parsingError [])
  else if c = '=' then
    if l.seek 1 = '=' then return l.two .doubleEqual '=' '='
    else return l.one .equal '='
  else if c = '<' then
    if l.seek 1 = '=' then return l.two .lessEqual '<' '='
    else if l.seek 1 = '>' then return l.two .notEqual '<' '>'
    else return l.one .less '<'
  else if c = '>' then
    if l.seek 1 = '=' then return l.two .greaterEqual '>' '='
    else return l.one .greater '>'
  else
    match l.checkSingleCharToken with
    | some token => return token
    | none => throw (l.parsingError (" - unexpected character: ".toList ++ [c]))

/-- The loop of `tokenize`. Every turn takes a character at least, so that as many turns as
there are characters are enough. -/
def tokenizeLoop : Nat → Lexer → Except Fault (List Token)
  | 0, _ => return [.endOfFile]
  | turns + 1, l =>
      let l := l.skipWhitespace
      if l.rest = [] then return [.endOfFile]
      else do
        let token ← l.nextToken
        let tokens ← tokenizeLoop turns token.2
        return token.1 :: tokens

/-- `size`, an `int`, for a source of this length. -/
def size (length : Nat) : Nat := (Int32.ofNat length).toInt.toNat

end Lexer

/-- `Lexer::tokenize` on a new lexer; the cursor stays in front of `size`. -/
def tokenize (source : Text) : Except Fault (List Token) :=
  let source := source.take (Lexer.size source.length)
  Lexer.tokenizeLoop source.length ⟨source, 1, 1⟩

/-! ### Spellings -/

/-- The operators and punctuation marks. -/
def marks : List (TokenType × Text) :=
  [(.notEqual, "!=".toList), (.doubleEqual, "==".toList), (.equal, "=".toList),
    (.lessEqual, "<=".toList), (.notEqual, "<>".toList), (.less, "<".toList),
    (.greaterEqual, ">=".toList), (.greater, ">".toList)] ++
  singleCharTokens.map fun mark => (mark.2, [mark.1])

/-- The texts that stand for a token. Words are folded to lower case. -/
inductive Token.Spells : Token → Text → Prop where
  | word {type : TokenType} {text : Text} :
      (type = .identifier ∨ type ∈ keywords.map Prod.snd) → text ≠ [] →
        (∀ c ∈ text, Lexer.isWordChar c) → Spells ⟨type, text.map Char.toLower⟩ text
  | number {text : Text} :
      text ≠ [] → (∀ c ∈ text, c.isDigit ∨ c = '.') → Spells ⟨.number, text⟩ text
  | string {quote : Char} {body : Text} :
      (quote = '\x27' ∨ quote = '\x22') → quote ∉ body →
        Spells ⟨.string, body⟩ (quote :: body ++ [quote])
  | mark {type : TokenType} {text : Text} :
      (type, text) ∈ marks → Spells ⟨type, text⟩ text

/-- A text that consists of blanks and of the spellings of the tokens. -/
inductive Spelled : List Token → Text → Prop where
  | done {blanks : Text} : blanks.all Lexer.isBlank → Spelled [.endOfFile] blanks
  | token {token : Token} {tokens : List Token} {blanks text rest : Text} :
      blanks.all Lexer.isBlank → token.Spells text → Spelled tokens rest →
        Spelled (token :: tokens) (blanks ++ text ++ rest)

variable {l l' : Lexer} {token : Token} {tokens : List Token} {c : Char} {cs : Text}

/-- No spelling is empty. -/
theorem Token.Spells.ne_nil {text : Text} (h : token.Spells text) : text ≠ [] := by
  cases h with
  | word _ hne _ => exact hne
  | number hne _ => exact hne
  | string _ _ => simp
  | mark hmark =>
    revert hmark
    have : ∀ mark ∈ marks, mark.2 ≠ [] := by decide
    exact this _

namespace Lexer

@[simp] theorem advance_rest (l : Lexer) : l.advance.rest = l.rest.tail := by
  unfold advance
  split
  · rename_i h
    simp [h]
  · rename_i c rest h
    split <;> simp [h]

@[simp] theorem advance_iterate_rest (n : Nat) (l : Lexer) :
    (advance^[n] l).rest = l.rest.drop n := by
  induction n generalizing l with
  | zero => rfl
  | succ n ih => simp [Function.iterate_succ_apply, ih, List.drop_tail]

/-- What is read and what is left make up the source. -/
theorem readWhile_append (test : Char → Bool) (l : Lexer) :
    (l.readWhile test).1 ++ (l.readWhile test).2.rest = l.rest := by
  have hprefix : l.rest.takeWhile test <+: l.rest := List.takeWhile_prefix test
  simp only [readWhile, advance_iterate_rest]
  exact List.prefix_iff_eq_append.1 hprefix

/-- What is read off passes the test. -/
theorem readWhile_all (test : Char → Bool) (l : Lexer) :
    ∀ c ∈ (l.readWhile test).1, test c := by
  intro c hc
  exact List.mem_takeWhile_imp hc

theorem readWhile_ne_nil {test : Char → Bool} (hl : l.rest = c :: cs) (hc : test c) :
    (l.readWhile test).1 ≠ [] := by
  simp [readWhile, hl, hc]

theorem current_eq (hl : l.rest = c :: cs) : l.current = c := by
  simp [current, hl]

/-- The cursor is on the character it sees, unless that is the one behind the end. -/
theorem rest_eq_cons (hc : l.current = c) (hne : c ≠ '\x00') : ∃ cs, l.rest = c :: cs := by
  cases h : l.rest with
  | nil => simp [current, h] at hc; exact absurd hc.symm hne
  | cons a cs =>
    obtain rfl := (current_eq h).symm.trans hc
    exact ⟨cs, rfl⟩

/-! ### One token -/

/-- What is looked up is in the table. -/
theorem mem_of_lookup {α β : Type} [BEq α] [LawfulBEq α] {table : List (α × β)} {a : α}
    {b : β} (h : table.lookup a = some b) : (a, b) ∈ table := by
  obtain ⟨before, after, rfl, _⟩ := List.lookup_eq_some_iff.1 h
  simp

/-- What begins a word may stand in it. -/
theorem isWordChar_of_start (hc : (c.isAlpha || c == '_') = true) : isWordChar c = true := by
  simp only [isWordChar, Char.isAlphanum, Bool.or_eq_true] at hc ⊢
  tauto

/-- A word is the token of the characters read off. -/
theorem tokenizeKeyword_spells (hl : l.rest = c :: cs) (hc : isWordChar c) :
    ∃ text, l.rest = text ++ l.tokenizeKeyword.2.rest ∧ l.tokenizeKeyword.1.Spells text := by
  refine ⟨_, (readWhile_append isWordChar l).symm, ?_⟩
  apply Token.Spells.word
  · cases h : keywords.lookup ((l.readWhile isWordChar).1.map Char.toLower) with
    | none => simp
    | some type =>
      right
      simpa using ⟨_, mem_of_lookup h⟩
  · exact readWhile_ne_nil hl hc
  · exact readWhile_all isWordChar l

/-- So is a number. -/
theorem tokenizeNumber_spells (hl : l.rest = c :: cs) (hc : c.isDigit) :
    ∃ text, l.rest = text ++ l.tokenizeNumber.2.rest ∧ l.tokenizeNumber.1.Spells text := by
  have hwhole := readWhile_append Char.isDigit l
  have hne := readWhile_ne_nil hl hc
  simp only [tokenizeNumber]
  split
  · rename_i hdot
    obtain ⟨ds, hds⟩ := rest_eq_cons hdot (by decide)
    have hfraction := readWhile_append Char.isDigit (l.readWhile Char.isDigit).2.advance
    refine ⟨_, ?_, .number ?_ ?_⟩
    · rw [← hwhole, hds]
      simp only [advance_rest, hds, List.tail_cons] at hfraction
      simp [hfraction]
    · simp
    · intro d hd
      simp only [List.mem_append, List.mem_cons] at hd
      obtain hd | rfl | hd := hd
      · exact .inl (readWhile_all Char.isDigit l d hd)
      · exact .inr rfl
      · exact .inl (readWhile_all Char.isDigit _ d hd)
  · refine ⟨_, hwhole.symm, .number hne ?_⟩
    intro d hd
    exact .inl (readWhile_all Char.isDigit l d hd)

/-- So is a string with its quotation marks. -/
theorem tokenizeString_spells (hl : l.rest = c :: cs) (hc : c = '\x27' ∨ c = '\x22')
    (h : l.tokenizeString = .ok (token, l')) :
    ∃ text, l.rest = text ++ l'.rest ∧ token.Spells text := by
  have hcurrent := current_eq hl
  unfold tokenizeString at h
  simp only [hcurrent] at h
  have hbody := readWhile_append (fun d => d != c && d != '\x00' && d != '\n') l.advance
  have hall := readWhile_all (fun d => d != c && d != '\x00' && d != '\n') l.advance
  simp only [advance_rest, hl, List.tail_cons] at hbody
  split at h
  · rename_i hquote
    cases h
    obtain ⟨ds, hds⟩ := rest_eq_cons hquote (by rcases hc with rfl | rfl <;> decide)
    refine ⟨_, ?_, .string hc ?_⟩
    · rw [hl, ← hbody, hds]
      simp [hds]
    · intro hmem
      simpa using hall c hmem
  · cases h

/-- A punctuation mark or an operator is read off the source. -/
def ReadsMark (l : Lexer) (token : Token) (l' : Lexer) : Prop :=
  (token.type, token.value) ∈ marks ∧ l.rest = token.value ++ l'.rest

theorem checkSingleCharToken_readsMark (hl : l.rest = c :: cs)
    (h : l.checkSingleCharToken = some (token, l')) : l.ReadsMark token l' := by
  simp only [checkSingleCharToken, Option.map_eq_some_iff, current_eq hl] at h
  obtain ⟨type, hlookup, heq⟩ := h
  cases heq
  have hmem := mem_of_lookup hlookup
  refine ⟨?_, by simp [hl]⟩
  simp only [marks, List.mem_append, List.mem_map]
  exact .inr ⟨_, hmem, rfl⟩

theorem one_readsMark {type : TokenType} (hl : l.rest = c :: cs) (hmark : (type, [c]) ∈ marks) :
    l.ReadsMark (l.one type c).1 (l.one type c).2 :=
  ⟨hmark, by simp [one, hl]⟩

theorem two_readsMark {type : TokenType} {d : Char} (hl : l.rest = c :: cs) (hd : l.seek 1 = d)
    (hne : d ≠ '\x00') (hmark : (type, [c, d]) ∈ marks) :
    l.ReadsMark (l.two type c d).1 (l.two type c d).2 := by
  cases cs with
  | nil => simp [seek, hl] at hd; exact absurd hd.symm hne
  | cons a cs =>
    simp only [seek, hl, List.getD_cons_succ, List.getD_cons_zero] at hd
    subst hd
    exact ⟨hmark, by simp [two, hl]⟩

/-- What a token is read by depends on its first character. -/
theorem nextToken_cases (hl : l.rest = c :: cs) (h : l.nextToken = .ok (token, l')) :
    ((c.isAlpha || c == '_') = true ∧ l.tokenizeKeyword = (token, l')) ∨
      ((c = '\x27' ∨ c = '\x22') ∧ l.tokenizeString = .ok (token, l')) ∨
      (c.isDigit = true ∧ l.tokenizeNumber = (token, l')) ∨ l.ReadsMark token l' := by
  have hcurrent := current_eq hl
  simp only [nextToken, hcurrent] at h
  split at h
  · rename_i hword
    exact .inl ⟨hword, Except.ok.inj h⟩
  right
  split at h
  · rename_i hquote
    exact .inl ⟨hquote, h⟩
  right
  split at h
  · rename_i hdigit
    exact .inl ⟨hdigit, Except.ok.inj h⟩
  right
  split at h
  · rename_i heq
    subst heq
    split at h
    · rename_i hnext
      cases h
      exact two_readsMark hl hnext (by decide) (by decide)
    · cases h
  split at h
  · rename_i heq
    subst heq
    split at h
    · rename_i hnext
      cases h
      exact two_readsMark hl hnext (by decide) (by decide)
    · cases h
      exact one_readsMark hl (by decide)
  split at h
  · rename_i heq
    subst heq
    split at h
    · rename_i hnext
      cases h
      exact two_readsMark hl hnext (by decide) (by decide)
    split at h
    · rename_i hnext
      cases h
      exact two_readsMark hl hnext (by decide) (by decide)
    · cases h
      exact one_readsMark hl (by decide)
  split at h
  · rename_i heq
    subst heq
    split at h
    · rename_i hnext
      cases h
      exact two_readsMark hl hnext (by decide) (by decide)
    · cases h
      exact one_readsMark hl (by decide)
  split at h
  · rename_i found hfound
    cases h
    exact checkSingleCharToken_readsMark hl hfound
  · cases h

/-- A token is read off the source in its spelling. -/
theorem nextToken_spells (hl : l.rest = c :: cs) (h : l.nextToken = .ok (token, l')) :
    ∃ text, l.rest = text ++ l'.rest ∧ token.Spells text := by
  obtain ⟨hword, hread⟩ | ⟨hquote, hread⟩ | ⟨hdigit, hread⟩ | hmark := nextToken_cases hl h
  · have hspells := tokenizeKeyword_spells hl (isWordChar_of_start hword)
    rwa [hread] at hspells
  · exact tokenizeString_spells hl hquote hread
  · have hspells := tokenizeNumber_spells hl hdigit
    rwa [hread] at hspells
  · exact ⟨_, hmark.2, .mark hmark.1⟩

/-! ### All tokens -/

/-- Blanks are skipped. -/
theorem skipWhitespace_append (l : Lexer) :
    ∃ blanks, blanks.all isBlank ∧ l.rest = blanks ++ l.skipWhitespace.rest :=
  ⟨_, List.all_eq_true.2 (readWhile_all isBlank l), (readWhile_append isBlank l).symm⟩

/-- Blanks are dropped from the front. -/
theorem skipWhitespace_rest (l : Lexer) : l.skipWhitespace.rest = l.rest.dropWhile isBlank := by
  rw [skipWhitespace, readWhile, advance_iterate_rest]
  conv_lhs =>
    arg 2
    rw [← List.takeWhile_append_dropWhile (p := isBlank) (l := l.rest)]
  exact List.drop_left

theorem size_of_lt {n : Nat} (h : n < 2 ^ 31) : size n = n := by
  rw [size, Int32.toInt_ofNat_of_lt h]
  exact Int.toNat_natCast n

/-- Every token takes a character at least. -/
theorem nextToken_shorter (hl : l.rest = c :: cs) (h : l.nextToken = .ok (token, l')) :
    l'.rest.length < l.rest.length := by
  obtain ⟨text, htext, hspells⟩ := nextToken_spells hl h
  have hpos := List.length_pos_iff.2 hspells.ne_nil
  rw [htext, List.length_append]
  omega

/-- A turn of the loop. -/
theorem tokenizeLoop_token {turns : Nat} (hrest : l.skipWhitespace.rest ≠ [])
    (hnext : l.skipWhitespace.nextToken = .ok (token, l')) :
    tokenizeLoop (turns + 1) l = (tokenizeLoop turns l').map (token :: ·) := by
  have hmap : ∀ result : Except Fault (List Token),
      (result >>= fun tokens => pure (token :: tokens)) = result.map (token :: ·) := by
    intro result
    cases result <;> rfl
  rw [tokenizeLoop, if_neg hrest, hnext]
  exact hmap _

/-- What the loop accepts consists of the spellings of its tokens, if it has enough turns. -/
theorem tokenizeLoop_spelled {turns : Nat} (hturns : l.rest.length ≤ turns)
    (h : tokenizeLoop turns l = .ok tokens) : Spelled tokens l.rest := by
  induction turns generalizing l tokens with
  | zero =>
    have hrest : l.rest = [] := List.eq_nil_of_length_eq_zero (by omega)
    cases h
    rw [hrest]
    exact .done rfl
  | succ turns ih =>
    obtain ⟨blanks, hblanks, happend⟩ := l.skipWhitespace_append
    simp only [tokenizeLoop] at h
    split at h
    · rename_i hrest
      cases h
      rw [happend, hrest, List.append_nil]
      exact .done hblanks
    · rename_i hne
      obtain ⟨c, cs, hl⟩ := List.exists_cons_of_ne_nil hne
      obtain ⟨⟨token, l'⟩, hnext, h⟩ := ok_of_bind h
      obtain ⟨rest, hloop, h⟩ := ok_of_bind h
      cases h
      obtain ⟨text, htext, hspells⟩ := nextToken_spells hl hnext
      have hpos := List.length_pos_iff.2 hspells.ne_nil
      have hlength := congrArg List.length happend
      have hshorter := congrArg List.length htext
      simp only [List.length_append] at hlength hshorter
      have htail := ih (l := l') (by omega) hloop
      rw [happend, htext, ← List.append_assoc]
      exact .token hblanks hspells htail

end Lexer

/-- A text that is accepted consists of blanks and of the spellings of its tokens. -/
theorem tokenize_spelled {source : Text} (h : tokenize source = .ok tokens) :
    Spelled tokens (source.take (Lexer.size source.length)) := by
  have hloop := Lexer.tokenizeLoop_spelled (l := ⟨source.take (Lexer.size source.length), 1, 1⟩)
    (le_refl _) h
  exact hloop

example : tokenize "A = 'b;';".toList =
    .ok [⟨.identifier, ['a']⟩, ⟨.equal, ['=']⟩, ⟨.string, ['b', ';']⟩, ⟨.semicolon, [';']⟩,
      .endOfFile] := by
  decide

end NanoVault.Sql
