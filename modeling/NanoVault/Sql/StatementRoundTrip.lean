/-
Every statement is read back from its text.

The parser reads a `Written` statement off its tokens (`parse_written`), which the lexer reads off
its text, so that the handlers are given what was written, with its condition grouped from left to
right (`readStatement_print`).
-/
import NanoVault.Sql.Written

namespace NanoVault.Sql

open Lib.Parsing NanoVault.Table NanoVault.Catalog NanoVault.Hft

/-! ### Tokens in front of the parser -/

section Parsing

variable {t token : Token} {ts rest : List Token} {type : TokenType} {types : List TokenType}
  {message : String} {otherwise : Fault} {b : Bool} {α β : Type}

@[simp] theorem consumes_expect : Consumes (expect type message) (t :: ts) token rest ↔
    t.type = type ∧ token = t ∧ rest = ts := by
  simp only [expect, consumes_bind, consumes_get]
  constructor
  · rintro ⟨ts', mid, ⟨rfl, rfl⟩, h⟩
    dsimp only at h
    split at h
    · rename_i htype
      simp at h
      exact ⟨htype, h.2, h.1⟩
    · exact absurd h consumes_throw
  · rintro ⟨htype, rfl, rfl⟩
    refine ⟨_, _, ⟨rfl, rfl⟩, ?_⟩
    simp [htype]

@[simp] theorem consumes_accept : Consumes (accept type) (t :: ts) b rest ↔
    t.type = type ∧ b = true ∧ rest = ts ∨ t.type ≠ type ∧ b = false ∧ rest = t :: ts := by
  simp only [accept, consumes_bind, consumes_get]
  constructor
  · rintro ⟨ts', mid, ⟨rfl, rfl⟩, h⟩
    dsimp only at h
    split at h
    · rename_i htype
      simp at h
      exact .inl ⟨htype, h.2, h.1⟩
    · rename_i htype
      obtain ⟨rfl, rfl⟩ := consumes_pure.mp h
      exact .inr ⟨htype, rfl, rfl⟩
  · rintro (⟨htype, rfl, rfl⟩ | ⟨htype, rfl, rfl⟩)
    · refine ⟨_, _, ⟨rfl, rfl⟩, ?_⟩
      simp [htype]
    · refine ⟨_, _, ⟨rfl, rfl⟩, ?_⟩
      simp [htype]

theorem consumes_expected {f : Token → TokenParser α} {a : α} (htype : t.type = type) :
    Consumes (do let token ← expect type message; f token) (t :: ts) a rest ↔
      Consumes (f t) ts a rest :=
  (consumes_expect.mpr ⟨htype, rfl, rfl⟩).bind_iff

/-- Where the next token is of the kind that may stand there, it is taken. -/
theorem consumes_taken {f : Bool → TokenParser α} {a : α} (htype : t.type = type) :
    Consumes (do let taken ← accept type; f taken) (t :: ts) a rest ↔
      Consumes (f true) ts a rest :=
  (consumes_accept.mpr (.inl ⟨htype, rfl, rfl⟩)).bind_iff

/-- Where the next token is of another kind, nothing is taken. -/
theorem consumes_passed {f : Bool → TokenParser α} {a : α} (htype : t.type ≠ type) :
    Consumes (do let taken ← accept type; f taken) (t :: ts) a rest ↔
      Consumes (f false) (t :: ts) a rest :=
  (consumes_accept.mpr (.inr ⟨htype, rfl, rfl⟩)).bind_iff

@[simp] theorem consumes_oneOf : Consumes (oneOf types otherwise) (t :: ts) token rest ↔
    t.type ∈ types ∧ token = t ∧ rest = ts := by
  simp only [oneOf, consumes_bind, consumes_get]
  constructor
  · rintro ⟨ts', mid, ⟨rfl, rfl⟩, h⟩
    dsimp only at h
    split at h
    · rename_i htype
      simp at h
      exact ⟨htype, h.2, h.1⟩
    · exact absurd h consumes_throw
  · rintro ⟨htype, rfl, rfl⟩
    refine ⟨_, _, ⟨rfl, rfl⟩, ?_⟩
    simp [htype]

@[simp] theorem keyword_type : (keyword type).type = type := by rw [keyword]

@[simp] theorem name_type (n : Name) : n.token.type = .identifier := by rw [Name.token]

@[simp] theorem name_value (n : Name) : n.token.value = n.name := rfl

@[simp] theorem number_type (n : Nat) : (numberToken n).type = .number := by rw [numberToken]

@[simp] theorem number_value (n : Nat) : (numberToken n).value = digits n := rfl

@[simp] theorem quotable_type (s : Quotable) : s.token.type = .string := by rw [Quotable.token]

@[simp] theorem quotable_value (s : Quotable) : s.token.value = s.value := rfl

@[simp] theorem literal_type (v : Literal) : v.token.type ∈ [TokenType.string, .number] := by
  cases v <;> simp [Literal.token]

@[simp] theorem literal_value (v : Literal) : v.token.value = v.value := by
  cases v <;> rfl

@[simp] theorem word_type (v : Word) : v.token.type = .string ∨ v.token.type = .number ∨
    v.token.type = .identifier := by
  cases v <;> simp [Word.token]

@[simp] theorem word_value (v : Word) : v.token.value = v.value := by
  cases v <;> rfl

@[simp] theorem openParen_type : openParen.type = .openParen := by rw [openParen]

@[simp] theorem closeParen_type : closeParen.type = .closeParen := by rw [closeParen]

@[simp] theorem comma_type : comma.type = .comma := by rw [comma]

@[simp] theorem semicolon_type : semicolon.type = .semicolon := by rw [semicolon]

@[simp] theorem equalSign_type : equalSign.type = .equal := by rw [equalSign]

/-! ### Numbers -/

/-- The digits of a number are read as the number. -/
theorem fromChars_digits (n : LargeNumber) : fromChars (digits n) = LargeNumber.value n := by
  have hne : digits n ≠ [] := Nat.toDigits_ne_nil
  have hhead : (digits n).head? ≠ some '-' := by
    intro hminus
    have hdigit := digits_isDigit n '-' (List.mem_of_head? hminus)
    cases hdigit
  have htake : (digits n).takeWhile Char.isDigit = digits n :=
    List.takeWhile_eq_self_iff.mpr (digits_isDigit n)
  have hvalue : Nat.ofDigitChars 10 (digits n) 0 = n := Nat.ofDigitChars_ten_toDigits
  have hmax : Int64.maxValue.toInt = 2 ^ 63 - 1 := by rw [Int64.toInt_maxValue]
  have hmin : Int64.minValue.toInt = -2 ^ 63 := by rw [Int64.toInt_minValue]
  have hlt := n.isLt
  simp only [fromChars, if_neg hhead, htake, hvalue, hne, false_or, Bool.false_eq_true, if_false]
  rw [if_neg (by omega)]
  rfl

/-! ### Lists -/

variable {item : TokenParser α} {phrase : β → List Token} {value : β → α}

/-- A list has no fewer tokens than phrases. -/
theorem length_le_withCommas {phrases : List (List Token)} (h : ∀ p ∈ phrases, p ≠ []) :
    phrases.length ≤ (withCommas phrases).length := by
  induction phrases with
  | nil => exact Nat.zero_le _
  | cons phrase phrases ih =>
      have hfirst := List.length_pos_iff.mpr (h phrase List.mem_cons_self)
      have hrest := ih fun p hp => h p (List.mem_cons_of_mem _ hp)
      cases phrases with
      | nil => exact hfirst
      | cons next phrases =>
          simp only [withCommas, List.length_append, List.length_cons] at hrest ⊢
          omega

theorem withCommas_append (first next : List Token) (others : List (List Token)) :
    withCommas (first :: next :: others) ++ rest =
      first ++ comma :: (withCommas (next :: others) ++ rest) := by
  simp [withCommas]

/-- Phrases with commas between them, before anything but a comma. -/
theorem separated_withCommas (hitem : ∀ b rest, Consumes item (phrase b ++ rest) (value b) rest)
    (hother : t.type ≠ .comma) (first : β) (others : List β) :
    Separated item (accept .comma) (withCommas ((first :: others).map phrase) ++ t :: rest)
      ((first :: others).map value) (t :: rest) := by
  induction others generalizing first with
  | nil => exact .last (hitem first _) (by simp [hother])
  | cons next others ih =>
      simp only [List.map_cons, withCommas_append]
      exact .next (hitem first _) (by simp) (ih next)

/-- A list with commas is read item by item, up to the first token that is no comma. -/
theorem consumes_commaSeparated
    (hitem : ∀ b rest, Consumes item (phrase b ++ rest) (value b) rest)
    (hshort : ∀ ts a rest, Consumes item ts a rest → rest.length < ts.length)
    (hother : t.type ≠ .comma) (first : β) (others : List β) :
    Consumes (commaSeparated item) (withCommas ((first :: others).map phrase) ++ t :: rest)
      ((first :: others).map value) (t :: rest) := by
  have hmore : ∀ ts b rest, Consumes (accept .comma) ts b rest → rest.length ≤ ts.length := by
    intro ts b rest h
    cases ts with
    | nil =>
        cases h
        exact Nat.le_refl _
    | cons t ts =>
        obtain ⟨-, -, rfl⟩ | ⟨-, -, rfl⟩ := consumes_accept.mp h
        · exact Nat.le_succ _
        · exact Nat.le_refl _
  unfold commaSeparated
  rw [consumes_bind]
  refine ⟨_, _, consumes_get.mpr ⟨rfl, rfl⟩, ?_⟩
  rw [consumes_separated hshort hmore (Nat.lt_succ_self _)]
  exact separated_withCommas hitem hother first others

theorem separator_comma {missing wrong : Fault} :
    Consumes (separator missing wrong) (comma :: ts) () ts := by
  simp [separator]

theorem separator_closeParen {missing wrong : Fault} :
    Consumes (separator missing wrong) (closeParen :: ts) () (closeParen :: ts) := by
  simp [separator]

/-- A loop that reads phrases up to the parenthesis behind them. -/
theorem consumes_untilParen {loop : Nat → TokenParser (List α)} {missing wrong : Fault}
    (hloop : ∀ rounds, loop (rounds + 1) = (do
      if ← accept .closeParen then return []
      else
        let a ← item
        separator missing wrong
        return a :: (← loop rounds)))
    (hfirst : ∀ b, ∃ t ts, phrase b = t :: ts ∧ t.type ≠ .closeParen)
    (hitem : ∀ b mark rest, mark.type = .comma ∨ mark.type = .closeParen →
      Consumes item (phrase b ++ mark :: rest) (value b) (mark :: rest))
    {rounds : Nat} (bs : List β) (hrounds : bs.length < rounds) :
    Consumes (loop rounds) (withCommas (bs.map phrase) ++ closeParen :: rest) (bs.map value)
      rest := by
  induction bs generalizing rounds with
  | nil =>
      obtain ⟨rounds, rfl⟩ := Nat.exists_eq_add_one.mpr hrounds
      rw [hloop]
      simp [withCommas]
  | cons b bs ih =>
      obtain ⟨rounds, rfl⟩ := Nat.exists_eq_add_one.mpr (Nat.zero_lt_of_lt hrounds)
      have hrest := ih (Nat.lt_of_succ_lt_succ hrounds)
      obtain ⟨t, ts, hphrase, ht⟩ := hfirst b
      -- what follows the phrase, and what the separator leaves of it
      obtain ⟨mark, tail, hmark, htokens, hsep⟩ : ∃ mark tail,
          (mark.type = .comma ∨ mark.type = .closeParen) ∧
          withCommas ((b :: bs).map phrase) ++ closeParen :: rest =
            phrase b ++ mark :: tail ∧
          Consumes (separator missing wrong) (mark :: tail) ()
            (withCommas (bs.map phrase) ++ closeParen :: rest) := by
        cases bs with
        | nil => exact ⟨closeParen, rest, .inr rfl, rfl, separator_closeParen⟩
        | cons next bs =>
            exact ⟨comma, _, .inl rfl, withCommas_append _ _ _, separator_comma⟩
      have hread := hitem b mark tail hmark
      rw [hloop, htokens]
      rw [hphrase] at hread ⊢
      rw [List.cons_append] at hread ⊢
      simp only [consumes_bind, consumes_accept]
      refine ⟨false, _, .inr ⟨ht, rfl, rfl⟩, ?_⟩
      simp only [Bool.false_eq_true, if_false, consumes_bind, consumes_pure]
      exact ⟨_, _, hread, _, _, hsep, _, _, hrest, rfl, rfl⟩

/-! ### Parts of statements -/

theorem expect_short {ts rest : List Token} (h : Consumes (expect type message) ts token rest) :
    rest.length < ts.length := by
  cases ts with
  | nil => cases h
  | cons t ts =>
      obtain ⟨-, -, rfl⟩ := consumes_expect.mp h
      exact Nat.lt_succ_self _

theorem oneOf_short {ts rest : List Token} (h : Consumes (oneOf types otherwise) ts token rest) :
    rest.length < ts.length := by
  cases ts with
  | nil => cases h
  | cons t ts =>
      obtain ⟨-, -, rfl⟩ := consumes_oneOf.mp h
      exact Nat.lt_succ_self _

/-- Reading a column's name takes at least one token; so for values and assignments. -/
theorem columnName_short (ts : List Token) (a : Text) (rest : List Token)
    (h : Consumes columnName ts a rest) : rest.length < ts.length := by
  obtain ⟨token, mid, hexpect, hpure⟩ := consumes_bind.mp h
  obtain ⟨-, rfl⟩ := consumes_pure.mp hpure
  exact expect_short hexpect

theorem insertValue_short (ts : List Token) (a : Text) (rest : List Token)
    (h : Consumes insertValue ts a rest) : rest.length < ts.length := by
  obtain ⟨token, mid, hone, hpure⟩ := consumes_bind.mp h
  obtain ⟨-, rfl⟩ := consumes_pure.mp hpure
  exact oneOf_short hone

theorem assignment_short (ts : List Token) (a : Text × Text) (rest : List Token)
    (h : Consumes assignment ts a rest) : rest.length < ts.length := by
  simp only [assignment, consumes_bind, consumes_pure] at h
  obtain ⟨_, _, hcolumn, _, _, hequal, _, _, hvalue, -, rfl⟩ := h
  have hcolumn := expect_short hcolumn
  have hequal := expect_short hequal
  have hvalue := oneOf_short hvalue
  omega

/-- The names of INSERT, or of SELECT. -/
theorem consumes_names {γ : Type} (f : γ → Name) (hother : t.type ≠ .comma) (first : γ)
    (others : List γ) :
    Consumes (commaSeparated columnName)
      (withCommas ((first :: others).map fun c => [(f c).token]) ++ t :: rest)
      ((first :: others).map fun c => (f c).name) (t :: rest) :=
  consumes_commaSeparated (fun c rest => by simp [columnName]) columnName_short hother first others

/-- The values of an INSERT are read as written. -/
theorem consumes_values (hother : t.type ≠ .comma) (first : Name × Literal)
    (others : List (Name × Literal)) :
    Consumes (commaSeparated insertValue)
      (withCommas ((first :: others).map fun v => [v.2.token]) ++ t :: rest)
      ((first :: others).map fun v => v.2.value) (t :: rest) := by
  refine consumes_commaSeparated (fun v rest => ?_) insertValue_short hother first others
  have htype := literal_type v.2
  simp only [List.mem_cons, List.not_mem_nil, or_false] at htype
  simp [insertValue, htype]

/-- The assignments of an UPDATE are read as written. -/
theorem consumes_assignments (hother : t.type ≠ .comma) (first : Name × Word)
    (others : List (Name × Word)) :
    Consumes (commaSeparated assignment)
      (withCommas ((first :: others).map fun v => [v.1.token, equalSign, v.2.token]) ++ t :: rest)
      ((first :: others).map fun v => (v.1.name, v.2.value)) (t :: rest) :=
  consumes_commaSeparated (fun v rest => by simp [assignment]) assignment_short hother first others

/-- A condition in front of a token that is none of its operators. -/
theorem parseExpression_before (c : Condition Comparison) (rest : List Token)
    (hquiet : comparisonOperator t.type = none)
    (hend : logicalOperator t.type = none) :
    parseExpression (c.tokens ++ t :: rest) = .ok (c.attach none, t :: rest) := by
  have hrest : Quiet (t :: rest) := by
    rintro t' ⟨⟩
    exact hquiet
  obtain ⟨left, -, heq⟩ := reads_condition c none (Nat.le_add_right _ rest.length) le_rfl hrest
  rw [parseExpression, List.length_append, List.length_cons, ← Nat.add_assoc]
  exact heq.trans (logicalLoop_stop hend)

/-- A WHERE clause, or none, is read with its comparisons grouped. -/
theorem consumes_where (condition : Option (Condition Comparison)) (hother : t.type ≠ .whereT)
    (hquiet : comparisonOperator t.type = none) (hend : logicalOperator t.type = none) :
    Consumes whereClause (whereTokens condition ++ t :: rest) (grouped condition) (t :: rest) := by
  cases condition with
  | none => simp [whereClause, whereTokens, grouped, hother]
  | some c =>
      have hparse := parseExpression_before c rest hquiet hend
      simp [whereClause, whereTokens, grouped, hparse]

/-- The constraints of a column, up to the comma or the parenthesis behind them. -/
theorem consumes_constraints (hmark : t.type = .comma ∨ t.type = .closeParen)
    (cs : List ColumnConstraint) (rest : List Token) {rounds : Nat}
    (hrounds : cs.length < rounds) :
    Consumes (columnConstraints rounds) (cs.flatMap constraintTokens ++ t :: rest) cs
      (t :: rest) := by
  induction cs generalizing rounds with
  | nil =>
      obtain ⟨rounds, rfl⟩ := Nat.exists_eq_add_one.mpr hrounds
      obtain hmark | hmark := hmark <;> simp [columnConstraints, columnConstraint, hmark]
  | cons c cs ih =>
      obtain ⟨rounds, rfl⟩ := Nat.exists_eq_add_one.mpr (Nat.zero_lt_of_lt hrounds)
      have hrest := ih (Nat.lt_of_succ_lt_succ hrounds)
      cases c <;> simp [columnConstraints, columnConstraint, constraintTokens, hrest.iff]

/-- One token at least for each phrase. -/
theorem length_le_flatMap (h : ∀ b, phrase b ≠ []) (bs : List β) :
    bs.length ≤ (bs.flatMap phrase).length := by
  induction bs with
  | nil => exact Nat.le_refl _
  | cons b bs ih =>
      have hone := List.length_pos_iff.mpr (h b)
      rw [List.flatMap_cons, List.length_append, List.length_cons]
      omega

theorem text_int : WrittenType.int.text = "int".toList := rfl

theorem text_varchar : (WrittenType.varchar none).text = "varchar".toList := rfl

theorem text_sized (size : Nat) : (WrittenType.varchar (some size)).text =
    "varchar".toList ++ '(' :: (digits size ++ [')']) := rfl

/-- A column's type is read with its length. -/
theorem consumes_type (type : WrittenType) (rest : List Token) (hother : t.type ≠ .openParen) :
    Consumes columnType (type.tokens ++ t :: rest) type.text (t :: rest) := by
  cases type with
  | int => simp [columnType, WrittenType.tokens, spelling_int, text_int]
  | varchar size =>
      cases size with
      | none => simp [columnType, WrittenType.tokens, hother, spelling_varchar, text_varchar]
      | some size => simp [columnType, WrittenType.tokens, inParens, spelling_varchar, text_sized]

/-- What follows a column's type opens no parenthesis. -/
theorem constraints_head (hmark : t.type = .comma ∨ t.type = .closeParen)
    (cs : List ColumnConstraint) (rest : List Token) :
    ∃ t' ts, cs.flatMap constraintTokens ++ t :: rest = t' :: ts ∧ t'.type ≠ .openParen := by
  cases cs with
  | nil => exact ⟨t, rest, rfl, by obtain hmark | hmark := hmark <;> simp [hmark]⟩
  | cons c cs => cases c <;> exact ⟨_, _, rfl, by simp⟩

/-- A column with its type and constraints is read as written. -/
theorem consumes_column (c : WrittenColumn) (hmark : t.type = .comma ∨ t.type = .closeParen) :
    Consumes tableColumn (c.tokens ++ t :: rest) c.definition (t :: rest) := by
  obtain ⟨t', ts, hhead, hother⟩ := constraints_head hmark c.constraints rest
  have htype := consumes_type c.type ts hother
  rw [← hhead] at htype
  have hrounds : c.constraints.length <
      (c.constraints.flatMap constraintTokens ++ t :: rest).length + 1 := by
    have hsome : ∀ constraint, constraintTokens constraint ≠ [] := by
      intro constraint
      cases constraint <;> nofun
    have hle := length_le_flatMap hsome c.constraints
    rw [List.length_append]
    omega
  have hconstraints := consumes_constraints hmark c.constraints rest hrounds
  simp only [tableColumn, WrittenColumn.tokens, List.cons_append, List.append_assoc, consumes_bind,
    consumes_expect, consumes_get, consumes_pure]
  exact ⟨_, _, ⟨rfl, rfl, rfl⟩, _, _, htype, _, _, ⟨rfl, rfl⟩, _, _, hconstraints, rfl, rfl⟩

/-- A loop up to a parenthesis with a round for each token. -/
theorem length_lt_untilParen {β : Type} {phrase : β → List Token} (h : ∀ b, phrase b ≠ [])
    (bs : List β) (rest : List Token) :
    bs.length < (withCommas (bs.map phrase) ++ closeParen :: rest).length + 1 := by
  have hle : (bs.map phrase).length ≤ _ := length_le_withCommas fun p hp => by
    obtain ⟨b, -, rfl⟩ := List.mem_map.mp hp
    exact h b
  rw [List.length_map] at hle
  rw [List.length_append]
  omega

/-- The columns of a table are read up to the closing parenthesis. -/
theorem consumes_tableColumns (columns : List WrittenColumn) :
    ∀ {rounds : Nat}, columns.length < rounds →
      Consumes (tableColumns rounds)
        (withCommas (columns.map WrittenColumn.tokens) ++ closeParen :: rest)
        (columns.map WrittenColumn.definition) rest :=
  fun hrounds => consumes_untilParen (fun _ => rfl)
    (fun c => ⟨c.name.token, _, rfl, by simp⟩)
    (fun c _ _ hmark => consumes_column c hmark) columns hrounds

/-- A length below two to the 31 is read as it is. -/
theorem stoi_small {n : Nat} (h : n < 2 ^ 31) : stoi (digits n) = .ok (n : Int) :=
  stoi_digits ⟨n, h⟩

/-- A column of a high-frequency table is read with its length. -/
theorem consumes_hftColumn (c : Name × Fin (2 ^ 15)) :
    Consumes hftColumn (hftTokens c ++ rest) (hftDefinition c) rest := by
  have hlt := c.2.isLt
  have hbits := stoi_small (show (c.2 : Nat) < 2 ^ 31 by omega)
  have hcast : ((c.2 : Nat) : Int) = Int.bmod (c.2 : Nat) Int16.size := by
    rw [Int.bmod_eq_of_le (by simp) (by simp)]
  simp [hftColumn, hftTokens, hftDefinition, hbits, spelling_double, hcast.symm]

/-- The columns of a high-frequency table are read up to the closing parenthesis. -/
theorem consumes_hftColumns (columns : List (Name × Fin (2 ^ 15))) {rounds : Nat}
    (hrounds : columns.length < rounds) :
    Consumes (hftColumns rounds) (withCommas (columns.map hftTokens) ++ closeParen :: rest)
      (columns.map hftDefinition) rest :=
  consumes_untilParen (fun _ => rfl) (fun c => ⟨c.1.token, _, rfl, by simp⟩)
    (fun c _ _ _ => consumes_hftColumn c) columns hrounds

/-- A parameter of a strategy or an indicator. -/
def parameter : TokenParser Text := do
  let val ← expect .string "expect argument to be string"
  return val.value

theorem parameterList_succ (rounds : Nat) : parameterList (rounds + 1) = (do
    if ← accept .closeParen then return []
    else
      let a ← parameter
      separator (.runtimeError "Parse error: expect ',' or ')' in parameter list".toList)
        (.runtimeError "Parse error: expect ',' or ')' in parameter list".toList)
      return a :: (← parameterList rounds)) := by
  simp only [parameterList, parameter, bind_assoc, pure_bind]

/-- A parameter list, also an absent one, is read as written. -/
theorem consumes_parameters (paramas : List Quotable) (hother : t.type ≠ .openParen) :
    Consumes parameters (parameterTokens paramas ++ t :: rest) (paramas.map Quotable.value)
      (t :: rest) := by
  cases paramas with
  | nil => simp [parameters, parameterTokens, hother]
  | cons first others =>
      have hlist : ∀ rounds, (first :: others).length < rounds →
          Consumes (parameterList rounds)
            (withCommas ((first :: others).map fun s => [s.token]) ++ closeParen :: t :: rest)
            ((first :: others).map Quotable.value) (t :: rest) := by
        intro rounds hrounds
        have hitem : ∀ (s : Quotable) (mark : Token) (rest : List Token),
            mark.type = .comma ∨ mark.type = .closeParen →
              Consumes parameter ([s.token] ++ mark :: rest) s.value (mark :: rest) := by
          intro s mark rest _
          simp [parameter]
        exact consumes_untilParen parameterList_succ (fun s => ⟨s.token, [], rfl, by simp⟩) hitem
          _ hrounds
      have hall := hlist _ (length_lt_untilParen (fun s => List.cons_ne_nil s.token [])
        (first :: others) (t :: rest))
      simp only [parameterTokens, inParens, List.cons_append, List.append_assoc, parameters,
        consumes_bind, consumes_accept]
      refine ⟨true, _, .inl ⟨rfl, rfl, rfl⟩, ?_⟩
      simp only [if_true, consumes_bind, consumes_get]
      exact ⟨_, _, ⟨rfl, rfl⟩, hall⟩

/-- A LIMIT clause, or none, is read as written. -/
theorem consumes_limit (limit : Option SmallNumber) :
    Consumes limitClause (limitPhrase limit ++ semicolon :: rest) (limitValue limit)
      (semicolon :: rest) := by
  cases limit with
  | none => rfl
  | some n =>
      have hlt := n.isLt
      have hn : ((n : Nat) : Int) ≤ intMax := by
        rw [intMax]
        omega
      have htake : limitClause (limitTokens n (semicolon :: rest)) =
          .ok (some (UInt64.ofInt n), semicolon :: rest) := limitClause_tokens hn
      have hvalue : ((n : Nat) % 2 ^ 64 : Int).toNat = n := by omega
      rw [UInt64.ofInt, hvalue] at htake
      exact htake

/-! ### MEMORY -/

theorem consumes_memoryText {message missing : String} (w : Word) :
    Consumes (memoryText message missing) (equalSign :: w.token :: rest) w.value rest := by
  cases w <;> simp [memoryText, Word.token, Word.value]

/-- One phrase of a MEMORY statement stores its argument. -/
theorem consumes_memoryArgument (args : MemoryArguments) (phrase : MemoryPhrase)
    (rest : List Token) :
    Consumes (memoryArgument args) (phrase.tokens ++ rest) (phrase.store args) rest := by
  cases phrase with
  | key w =>
      simp only [memoryArgument, MemoryPhrase.tokens, List.cons_append, List.nil_append,
        consumes_taken, keyword_type, if_true, (consumes_memoryText w).bind_iff]
      exact consumes_pure.mpr ⟨rfl, rfl⟩
  | value w =>
      simp only [memoryArgument, MemoryPhrase.tokens, List.cons_append, List.nil_append,
        consumes_taken, consumes_passed, keyword_type, ne_eq, reduceCtorEq, not_false_eq_true,
        Bool.false_eq_true, if_false, if_true, (consumes_memoryText w).bind_iff]
      exact consumes_pure.mpr ⟨rfl, rfl⟩
  | ttl n =>
      simp only [memoryArgument, MemoryPhrase.tokens, List.cons_append, List.nil_append,
        consumes_taken, consumes_passed, consumes_expected, keyword_type, equalSign_type,
        number_type, number_value, ne_eq, reduceCtorEq, not_false_eq_true, Bool.false_eq_true,
        if_false, if_true, stoi_small n.isLt]
      exact consumes_pure.mpr ⟨rfl, rfl⟩

/-- The phrases of a MEMORY statement are stored in turn up to the semicolon. -/
theorem consumes_memoryLoop (phrases : List MemoryPhrase) (args : MemoryArguments)
    (rest : List Token) {rounds : Nat} (hrounds : phrases.length < rounds) :
    Consumes (memoryLoop rounds args) (phrases.flatMap MemoryPhrase.tokens ++ semicolon :: rest)
      (phrases.foldl MemoryPhrase.store args) rest := by
  induction phrases generalizing rounds args with
  | nil =>
      obtain ⟨rounds, rfl⟩ := Nat.exists_eq_add_one.mpr hrounds
      simp [memoryLoop]
  | cons phrase phrases ih =>
      obtain ⟨rounds, rfl⟩ := Nat.exists_eq_add_one.mpr (Nat.zero_lt_of_lt hrounds)
      have hrest := ih (phrase.store args) (Nat.lt_of_succ_lt_succ hrounds)
      have hphrase := consumes_memoryArgument args phrase
        (phrases.flatMap MemoryPhrase.tokens ++ semicolon :: rest)
      rw [List.flatMap_cons, List.append_assoc, memoryLoop, consumes_bind]
      refine ⟨false, phrase.tokens ++ (phrases.flatMap MemoryPhrase.tokens ++ semicolon :: rest),
        ?_, ?_⟩
      · cases phrase <;> exact consumes_accept.mpr (.inr ⟨nofun, rfl, rfl⟩)
      · simp only [Bool.false_eq_true, if_false, consumes_bind]
        exact ⟨_, _, hphrase, hrest⟩

/-! ### SELECT -/

/-- Names with commas between them are the tokens of a column list. -/
theorem withCommas_names (names : List Name) :
    withCommas (names.map fun n => [n.token]) = columnTokens (names.map Name.name) := by
  induction names with
  | nil => rfl
  | cons name names ih =>
      cases names with
      | nil => rfl
      | cons next names =>
          simp only [List.map_cons, withCommas, columnTokens] at ih ⊢
          rw [ih]
          rfl

/-- A list of columns is read as written. -/
theorem consumes_selectColumns (first : Name) (others : List Name) (hother : t.type ≠ .comma)
    (rest : List Token) {tokens : List Token}
    (htokens : tokens = withCommas ((first :: others).map fun n => [n.token]) ++ t :: rest) :
    Consumes (selectColumns (tokens.length + 1)) tokens ((first :: others).map Name.name)
      (t :: rest) := by
  have hle := length_le_columnTokens ((first :: others).map Name.name)
  rw [htokens, withCommas_names]
  apply selectColumns_tokens (by simp) ?_ hother
  rw [List.length_append]
  omega

theorem withCommas_head (first : Name) (others : List Name) :
    ∃ ts, withCommas ((first :: others).map fun n => [n.token]) = first.token :: ts := by
  cases others <;> exact ⟨_, rfl⟩

/-- What stands behind the condition of SELECT. -/
theorem limit_head (limit : Option SmallNumber) (rest : List Token) :
    ∃ t ts, limitPhrase limit ++ semicolon :: rest = t :: ts ∧ t.type ≠ .whereT ∧
      comparisonOperator t.type = none ∧ logicalOperator t.type = none := by
  cases limit with
  | none => exact ⟨semicolon, rest, rfl, nofun, rfl, rfl⟩
  | some n => exact ⟨⟨.identifier, "limit".toList⟩, _, rfl, nofun, rfl, rfl⟩

/-- SELECT behind its columns. -/
theorem consumes_fromTable (table : Name) (condition : Option (Condition Comparison))
    (limit : Option SmallNumber) (columns : List Text) (rest : List Token) :
    Consumes (do
        let _ ← expect .fromT "Expected FROM keyword"
        let table ← expect .identifier "Expected table name"
        let whereClause ← whereClause
        let limitClause ← limitClause
        return ⟨columns, table.value, whereClause, limitClause⟩ : TokenParser SelectStatement)
      (keyword .fromT :: table.token :: (whereTokens condition ++
        (limitPhrase limit ++ semicolon :: rest)))
      ⟨columns, table.name, grouped condition, limitValue limit⟩ (semicolon :: rest) := by
  obtain ⟨t, ts, hhead, hwhere, hquiet, hend⟩ := limit_head limit rest
  have hcondition : Consumes whereClause (whereTokens condition ++ t :: ts) (grouped condition)
      (t :: ts) := consumes_where condition hwhere hquiet hend
  rw [← hhead] at hcondition
  simp only [consumes_expected, keyword_type, name_type, name_value, hcondition.bind_iff,
    (consumes_limit limit).bind_iff]
  exact consumes_pure.mpr ⟨rfl, rfl⟩

/-- SELECT is read with its columns, condition and limit. -/
theorem consumes_select (columns : Selection) (table : Name)
    (condition : Option (Condition Comparison)) (limit : Option SmallNumber) (db : Text)
    (rest : List Token) :
    Consumes (parseSelectStatement (some db))
      ((Written.select columns table condition limit).tokens ++ rest)
      ⟨columns.columnNames, table.name, grouped condition, limitValue limit⟩ (semicolon :: rest) := by
  have hfrom := consumes_fromTable table condition limit columns.columnNames rest
  have hdb : some db ≠ none := by simp
  cases columns with
  | all =>
      have hstar : (⟨.multiply, ['*']⟩ : Token).type = .multiply := rfl
      simp only [Written.tokens, Selection.tokens, List.cons_append, List.append_assoc,
        List.nil_append, parseSelectStatement, consumes_expected, consumes_taken, keyword_type,
        hdb, if_false, if_true, pure_bind, Selection.columnNames] at hfrom ⊢
      exact hfrom
  | columns first others =>
      obtain ⟨ts, hhead⟩ := withCommas_head first others
      have hcolumns := consumes_selectColumns (t := keyword .fromT) first others (by simp)
        (table.token :: (whereTokens condition ++ (limitPhrase limit ++ semicolon :: rest))) rfl
      rw [hhead, List.cons_append] at hcolumns
      simp only [Written.tokens, Selection.tokens, hhead, List.cons_append, List.append_assoc,
        List.nil_append, parseSelectStatement, consumes_expected, consumes_passed, consumes_got,
        keyword_type, name_type, ne_eq, reduceCtorEq, not_false_eq_true, if_false,
        Bool.false_eq_true, hcolumns.bind_iff]
      exact hfrom

end Parsing

/-! ### Statements -/

/-- A statement on an HFT table. -/
theorem parse_hft {db : Option Text} {tokens rest : List Token} {p : TokenParser HftStatement}
    {stmt : HftStatement} (hbranch : ∃ rest, Consumes (hftBranch db tokens) tokens (some p) rest)
    (hparse : Consumes p tokens stmt rest) :
    Statement.parse db tokens = .ok (.statement (.hft stmt)) := by
  obtain ⟨rest', hbranch⟩ := hbranch
  unfold Consumes at hbranch hparse
  unfold Statement.parse Sql.parse
  simp only [StateT.run, hbranch, hparse, bind, Except.bind, pure, Except.pure]

/-- A statement the branch for high-frequency tables passes is left to the others. -/
theorem parse_other {db : Option Text} {tokens : List Token}
    (hbranch : ∃ rest, Consumes (hftBranch db tokens) tokens none rest) :
    Statement.parse db tokens = otherBranch db tokens := by
  obtain ⟨rest, hbranch⟩ := hbranch
  unfold Consumes at hbranch
  unfold Statement.parse Sql.parse
  simp only [StateT.run, hbranch, bind, Except.bind, pure, Except.pure]

/-- A statement that is read is the outcome, whatever is made of faults. -/
theorem caught_statement {tokens rest : List Token} {p : TokenParser Statement} {stmt : Statement}
    (hparse : Consumes p tokens stmt rest) : caught tokens p = .ok (.statement stmt) := by
  unfold Consumes at hparse
  simp only [caught, hparse]

/-- So for the statements whose faults are thrown on. -/
theorem thrown_statement {tokens rest : List Token} {p : TokenParser Statement} {stmt : Statement}
    (hparse : Consumes p tokens stmt rest) : thrown tokens p = .ok (.statement stmt) := by
  unfold Consumes at hparse
  simp only [thrown, hparse, Except.map]

/-- No statement on an HFT table begins so. -/
theorem parse_first {db : Option Text} {type : TokenType} {ts : List Token}
    (hfirst : type ∉ [TokenType.create, .set, .enable, .fetch, .add]) :
    Statement.parse db (keyword type :: ts) = otherBranch db (keyword type :: ts) := by
  simp only [List.mem_cons, List.not_mem_nil, or_false, not_or] at hfirst
  exact parse_other ⟨_, by simp [hftBranch, hfirst]; rfl⟩

/-- A statement that begins like one on an HFT table, and is none. -/
theorem parse_second {db : Option Text} {type next : TokenType} {ts : List Token}
    (hfirst : (type, next) ∈ [(TokenType.create, TokenType.table), (.create, .database),
      (.enable, .batch), (.add, .strategy), (.add, .hft)]) :
    Statement.parse db (keyword type :: keyword next :: ts) =
      otherBranch db (keyword type :: keyword next :: ts) := by
  simp only [List.mem_cons, List.not_mem_nil, or_false, Prod.mk.injEq] at hfirst
  obtain ⟨rfl, rfl⟩ | ⟨rfl, rfl⟩ | ⟨rfl, rfl⟩ | ⟨rfl, rfl⟩ | ⟨rfl, rfl⟩ := hfirst <;>
    exact parse_other ⟨_, by simp [hftBranch]; rfl⟩

section Statements

variable (db : Text) (rest : List Token)

/-- CREATE TABLE is read as written. -/
theorem consumes_createTable (name : Name) (columns : List WrittenColumn) :
    Consumes (parseCreateStatement (some db))
      ((Written.createTable name columns).tokens ++ rest)
      (Written.createTable name columns).statement (semicolon :: rest) := by
  have hsome : ∀ c : WrittenColumn, c.tokens ≠ [] := nofun
  have hrounds := length_lt_untilParen hsome columns (semicolon :: rest)
  have hcolumns : Consumes (tableColumns _) _ _ (semicolon :: rest) :=
    consumes_tableColumns columns hrounds
  have hdb : some db ≠ none := nofun
  simp only [Written.tokens, inParens, List.cons_append, List.append_assoc, List.nil_append,
    parseCreateStatement, consumes_expected, consumes_taken, consumes_got, keyword_type, name_type,
    openParen_type, hdb, if_true, if_false, hcolumns.bind_iff]
  exact consumes_pure.mpr ⟨rfl, rfl⟩

/-- CREATE DATABASE is read as written. -/
theorem consumes_createDatabase (name : Name) :
    Consumes (parseCreateStatement (some db)) ((Written.createDatabase name).tokens ++ rest)
      (Written.createDatabase name).statement (semicolon :: rest) := by
  simp only [Written.tokens, List.cons_append, List.nil_append, parseCreateStatement,
    consumes_expected, consumes_passed, consumes_taken, keyword_type, name_type, ne_eq,
    reduceCtorEq, not_false_eq_true, Bool.false_eq_true, if_false, if_true]
  exact consumes_pure.mpr ⟨rfl, rfl⟩

/-- The statistics statements are read as written. -/
theorem consumes_statistics (type : Statistic) (table column : Name)
    (condition : Option (Condition Comparison)) :
    Consumes parseStatisticsStatement
      ((Written.statistics type table column condition).tokens ++ rest)
      (Written.statistics type table column condition).statement (semicolon :: rest) := by
  have hwhere : Consumes whereClause (whereTokens condition ++ semicolon :: rest) _ _ :=
    consumes_where condition nofun rfl rfl
  have htype : Consumes (oneOf (statisticTypes.map Prod.fst)
      (.runtimeError "Unexpected Keyword".toList)) (keyword type.type :: keyword .fromT ::
        table.token :: keyword .onT :: column.token :: (whereTokens condition ++ semicolon :: rest))
      (keyword type.type) _ :=
    consumes_oneOf.mpr ⟨by cases type <;> simp [statisticTypes, Statistic.type], rfl, rfl⟩
  simp only [Written.tokens, List.cons_append, List.append_assoc, List.nil_append,
    parseStatisticsStatement, consumes_expected, keyword_type, name_type, htype.bind_iff,
    hwhere.bind_iff]
  refine consumes_pure.mpr ⟨?_, rfl⟩
  cases type <;> rfl

/-- ENABLE TICKS is read as written. -/
theorem consumes_enableBatch (table : Quotable) (ticks : LargeNumber) :
    Consumes parseEnableStatement ((Written.enableBatch table ticks).tokens ++ rest)
      (Written.enableBatch table ticks).statement (semicolon :: rest) := by
  simp only [Written.tokens, List.cons_append, List.nil_append, parseEnableStatement,
    consumes_expected, keyword_type, quotable_type, number_type, number_value, fromChars_digits]
  exact consumes_pure.mpr ⟨rfl, rfl⟩

theorem consumes_list :
    Consumes parseListStatement (Written.listStrategy.tokens ++ rest)
      Written.listStrategy.statement rest := by
  simp only [Written.tokens, List.cons_append, List.nil_append, parseListStatement,
    consumes_expected, consumes_taken, keyword_type, semicolon_type, if_true]
  exact consumes_pure.mpr ⟨rfl, rfl⟩

/-- APPLY WEBSOCKET is read as written. -/
theorem consumes_applyWebsocket (strategy url : Quotable) :
    Consumes parseWebSocketCommand ((Written.applyWebsocket strategy url).tokens ++ rest)
      (Written.applyWebsocket strategy url).statement (semicolon :: rest) := by
  simp only [Written.tokens, List.cons_append, List.nil_append, parseWebSocketCommand,
    consumes_expected, keyword_type, quotable_type]
  exact consumes_pure.mpr ⟨rfl, rfl⟩

/-- INSERT is read as written. -/
theorem consumes_insert (table : Name) (first : Name × Literal) (others : List (Name × Literal)) :
    Consumes parseInsertStatement ((Written.insert table first others).tokens ++ rest)
      (Written.insert table first others).statement rest := by
  have hvalues : Consumes (commaSeparated insertValue) (_ ++ closeParen :: semicolon :: rest) _ _ :=
    consumes_values (t := closeParen) nofun first others
  have hnames : Consumes (commaSeparated columnName) (_ ++ closeParen :: keyword .values ::
      openParen :: (withCommas ((first :: others).map fun v => [v.2.token]) ++
        closeParen :: semicolon :: rest)) _ _ :=
    consumes_names Prod.fst (t := closeParen) nofun first others
  have hlength : ((first :: others).map fun v => v.1.name).length =
      ((first :: others).map fun v => v.2.value).length := by
    rw [List.length_map, List.length_map]
  simp only [Written.tokens, inParens, List.cons_append, List.append_assoc, List.nil_append,
    parseInsertStatement, consumes_expected, keyword_type, name_type, openParen_type,
    closeParen_type, semicolon_type, hnames.bind_iff, hvalues.bind_iff]
  rw [if_neg (not_not.mpr hlength)]
  exact consumes_pure.mpr ⟨rfl, rfl⟩

/-- DROP TABLE and DROP DATABASE are read as written. -/
theorem consumes_drop (istable : Bool) (name : Name) :
    Consumes (parseDropStatement (some db)) ((Written.drop istable name).tokens ++ rest)
      (Written.drop istable name).statement (semicolon :: rest) := by
  cases istable <;> simp [parseDropStatement, Written.tokens, Written.statement]

/-- USE is read as written. -/
theorem consumes_use (name : Name) :
    Consumes parseUseStatement ((Written.use name).tokens ++ rest) (Written.use name).statement
      rest := by
  simp [parseUseStatement, Written.tokens, Written.statement]

/-- DELETE is read as written. -/
theorem consumes_delete (table : Name) (condition : Option (Condition Comparison)) :
    Consumes parseDeleteStatement ((Written.delete table condition).tokens ++ rest)
      (Written.delete table condition).statement rest := by
  have hwhere : Consumes whereClause (whereTokens condition ++ semicolon :: rest) _ _ :=
    consumes_where condition nofun rfl rfl
  simp [parseDeleteStatement, Written.tokens, Written.statement, hwhere.iff]

/-- UPDATE with a condition is read as written. -/
theorem consumes_update (table : Name) (first : Name × Word) (others : List (Name × Word))
    (condition : Condition Comparison) :
    Consumes parseUpdateStatement ((Written.update table first others condition).tokens ++ rest)
      (Written.update table first others condition).statement rest := by
  have hwhere : Consumes whereClause (keyword .whereT :: (condition.tokens ++ semicolon :: rest))
      (some (condition.attach none)) (semicolon :: rest) :=
    consumes_where (t := semicolon) (some condition) nofun rfl rfl
  have hassigned : Consumes (commaSeparated assignment)
      (_ ++ keyword .whereT :: (condition.tokens ++ semicolon :: rest)) _ _ :=
    consumes_assignments (t := keyword .whereT) nofun first others
  simp only [Written.tokens, whereTokens, List.cons_append, List.append_assoc, List.nil_append,
    parseUpdateStatement, consumes_expected, keyword_type, name_type, semicolon_type,
    hassigned.bind_iff, hwhere.bind_iff]
  exact consumes_pure.mpr ⟨rfl, rfl⟩

/-- MEMORY SET is read as written. -/
theorem consumes_memorySet (arguments : MemoryPhrases) :
    Consumes parseMemoryStatement ((Written.memorySet arguments).tokens ++ rest)
      (Written.memorySet arguments).statement rest := by
  obtain ⟨phrases, hkey, hvalue⟩ := arguments
  have hsome : ∀ phrase : MemoryPhrase, phrase.tokens ≠ [] := by
    intro phrase
    cases phrase <;> nofun
  have hrounds : phrases.length <
      (phrases.flatMap MemoryPhrase.tokens ++ semicolon :: rest).length + 1 := by
    have hle := length_le_flatMap hsome phrases
    rw [List.length_append]
    omega
  have hloop : Consumes (memoryLoop _ {}) _ (storeAll phrases) rest :=
    consumes_memoryLoop phrases {} rest hrounds
  simp only [Written.tokens, List.cons_append, List.append_assoc, List.nil_append,
    parseMemoryStatement, consumes_expected, consumes_got, keyword_type, hloop.bind_iff, hkey,
    hvalue, if_false]
  exact consumes_pure.mpr ⟨rfl, rfl⟩

/-- MEMORY GET is read as written. -/
theorem consumes_memoryGet (key : Word) :
    Consumes parseGetMemoryStatement ((Written.memoryGet key).tokens ++ rest)
      (Written.memoryGet key).statement rest := by
  simp only [Written.tokens, List.cons_append, List.nil_append, parseGetMemoryStatement,
    consumes_expected, keyword_type, semicolon_type, (consumes_memoryText key).bind_iff]
  exact consumes_pure.mpr ⟨rfl, rfl⟩

theorem consumes_addHftStrategy (filePath : Quotable) :
    Consumes parseAddHftStrategyStatement ((Written.addHftStrategy filePath).tokens ++ rest)
      (Written.addHftStrategy filePath).statement (semicolon :: rest) := by
  simp only [Written.tokens, List.cons_append, List.nil_append, parseAddHftStrategyStatement,
    consumes_expected, keyword_type, quotable_type]
  exact consumes_pure.mpr ⟨rfl, rfl⟩

theorem consumes_addHftIndicator (filePath : Quotable) :
    Consumes parseAddHftIndicatorStatement ((Written.addHftIndicator filePath).tokens ++ rest)
      (Written.addHftIndicator filePath).statement rest := by
  simp only [Written.tokens, List.cons_append, List.nil_append, parseAddHftIndicatorStatement,
    consumes_expected, consumes_taken, keyword_type, quotable_type, semicolon_type, if_true]
  exact consumes_pure.mpr ⟨rfl, rfl⟩

/-- Behind the columns of CREATE HFT TABLE. -/
theorem consumes_createHft (name : Name) (columns : List (Name × Fin (2 ^ 15)))
    (symbol : SmallNumber) (top : Bool) :
    ∃ rest', Consumes (parseHFTCreateStatement (some db))
      ((Written.createHft name columns symbol top).tokens ++ rest).tail
      (.createHft name.name (columns.map hftDefinition) (symbol : Nat) top) rest' := by
  generalize hbehind : (if top then [keyword .top] else []) ++ semicolon :: rest = behind
  have hsome : ∀ c, hftTokens c ≠ [] := nofun
  have hrounds := length_lt_untilParen hsome columns
    (keyword .symbol :: numberToken symbol :: behind)
  have hcolumns : Consumes (hftColumns _) _ _ (keyword .symbol :: numberToken symbol :: behind) :=
    consumes_hftColumns columns hrounds
  have hdb : some db ≠ none := nofun
  simp only [Written.tokens, inParens, List.cons_append, List.append_assoc, List.nil_append,
    List.tail_cons, hbehind, parseHFTCreateStatement, consumes_expected, consumes_got,
    keyword_type, name_type, name_value, openParen_type, number_type, number_value,
    hcolumns.bind_iff, hdb, if_false, stoi_small symbol.isLt, consumes_lifted]
  subst hbehind
  cases top with
  | true =>
      refine ⟨semicolon :: rest, ?_⟩
      simp only [if_true, if_false, List.cons_append, List.nil_append, consumes_passed,
        consumes_expected, consumes_got, keyword_type, ne_eq, reduceCtorEq, not_false_eq_true,
        Bool.false_eq_true]
      exact consumes_pure.mpr ⟨rfl, rfl⟩
  | false =>
      refine ⟨semicolon :: rest, ?_⟩
      simp only [if_false, List.nil_append, consumes_passed, consumes_got, semicolon_type, ne_eq,
        reduceCtorEq, not_false_eq_true, not_true_eq_false, Bool.false_eq_true]
      exact consumes_pure.mpr ⟨rfl, rfl⟩

/-- ENABLE STRATEGY is read without its column number. -/
theorem consumes_enableStrategy (strategy : Quotable) (paramas : List Quotable)
    (symbol columnNo ticks : LargeNumber) :
    Consumes parseAddStrategystatement
      ((Written.enableStrategy strategy paramas symbol columnNo ticks).tokens ++ rest)
      (.enableStrategy strategy.value (paramas.map Quotable.value) (LargeNumber.value symbol)
        (LargeNumber.value ticks)) rest := by
  have hparamas : Consumes parameters
      (parameterTokens paramas ++ (onSymbol symbol columnNo ticks ++ rest)) _
      (onSymbol symbol columnNo ticks ++ rest) :=
    consumes_parameters (t := keyword .onT) paramas nofun
  simp only [Written.tokens, List.cons_append, List.append_assoc, List.nil_append,
    parseAddStrategystatement, consumes_expected, keyword_type, quotable_type, hparamas.bind_iff]
  simp only [onSymbol, List.cons_append, List.nil_append, consumes_expected, keyword_type,
    number_type, number_value, semicolon_type, fromChars_digits]
  exact consumes_pure.mpr ⟨rfl, rfl⟩

/-- An indicator on a table is read with its parameters and numbers. -/
theorem consumes_addIndicator (indicator : Quotable) (paramas : List Quotable)
    (symbol columnNo ticks : LargeNumber) :
    Consumes parseAddIndicatorOnTableStatement
      ((Written.addIndicator indicator paramas symbol columnNo ticks).tokens ++ rest)
      (.addIndicator indicator.value (paramas.map Quotable.value) (LargeNumber.value symbol)
        (LargeNumber.value columnNo) (LargeNumber.value ticks)) rest := by
  have hparamas : Consumes parameters
      (parameterTokens paramas ++ (onSymbol symbol columnNo ticks ++ rest)) _
      (onSymbol symbol columnNo ticks ++ rest) :=
    consumes_parameters (t := keyword .onT) paramas nofun
  simp only [Written.tokens, List.cons_append, List.append_assoc, List.nil_append,
    parseAddIndicatorOnTableStatement, consumes_expected, keyword_type, quotable_type,
    hparamas.bind_iff]
  simp only [onSymbol, List.cons_append, List.nil_append, consumes_expected, consumes_passed,
    keyword_type, number_type, number_value, semicolon_type, ne_eq, reduceCtorEq,
    not_false_eq_true, Bool.false_eq_true, if_false, fromChars_digits]
  exact consumes_pure.mpr ⟨rfl, rfl⟩

/-- FETCH INDICATOR is read as written. -/
theorem consumes_fetchIndicator (symbol : LargeNumber) :
    Consumes parseFetchIndicatorStatement ((Written.fetchIndicator symbol).tokens ++ rest)
      (.fetchIndicator (LargeNumber.value symbol)) (semicolon :: rest) := by
  simp only [Written.tokens, List.cons_append, List.nil_append, parseFetchIndicatorStatement,
    consumes_expected, keyword_type, number_type, number_value, fromChars_digits]
  exact consumes_pure.mpr ⟨rfl, rfl⟩

/-- What SET BINANCE makes of a feed, by the branch that is taken for it. -/
theorem parse_setBinance (feed : BinanceFeed) :
    Statement.parse (some db) ((Written.setBinance feed).tokens ++ rest) =
      .ok (.statement (Written.setBinance feed).statement) := by
  cases feed with
  | apiKey key =>
      have hparse : Consumes parseBinanceApiKeyStatement
          ((Written.setBinance (.apiKey key)).tokens ++ rest) (.binanceApiKey key.value) rest := by
        simp only [Written.tokens, BinanceFeed.tokens, List.cons_append, List.nil_append,
          parseBinanceApiKeyStatement, consumes_expected, keyword_type, quotable_type,
          semicolon_type]
        exact consumes_pure.mpr ⟨rfl, rfl⟩
      exact parse_hft ⟨_, by simp [hftBranch, Written.tokens, BinanceFeed.tokens]; rfl⟩ hparse
  | orderBook tableSymbol binanceSymbol =>
      have hparse : Consumes parseBinanceOrderBookStatement
          ((Written.setBinance (.orderBook tableSymbol binanceSymbol)).tokens ++ rest)
          (.binanceOrderBook (LargeNumber.value tableSymbol) binanceSymbol.value)
          (semicolon :: rest) := by
        simp only [Written.tokens, BinanceFeed.tokens, List.cons_append, List.nil_append,
          parseBinanceOrderBookStatement, consumes_expected, keyword_type, quotable_type,
          number_type, number_value, fromChars_digits]
        exact consumes_pure.mpr ⟨rfl, rfl⟩
      exact parse_hft ⟨_, by simp [hftBranch, Written.tokens, BinanceFeed.tokens]; rfl⟩ hparse
  | liveOrders tableSymbol tradeSymbol =>
      have hparse : Consumes parserBinanceLiveOrdersStatements
          ((Written.setBinance (.liveOrders tableSymbol tradeSymbol)).tokens ++ rest)
          (.binanceLiveOrders (LargeNumber.value tableSymbol) tradeSymbol.value)
          (semicolon :: rest) := by
        simp only [Written.tokens, BinanceFeed.tokens, List.cons_append, List.nil_append,
          parserBinanceLiveOrdersStatements, consumes_expected, keyword_type, quotable_type,
          number_type, number_value, fromChars_digits]
        exact consumes_pure.mpr ⟨rfl, rfl⟩
      exact parse_hft
        ⟨_, by simp [hftBranch, acceptAll, Written.tokens, BinanceFeed.tokens]; rfl⟩ hparse
  | ohlc time tableSymbol tradeSymbol =>
      have hparse : Consumes parseBinanceLiveOhlcStatement
          ((Written.setBinance (.ohlc time tableSymbol tradeSymbol)).tokens ++ rest)
          (.binanceOhlc (LargeNumber.value tableSymbol) time.value tradeSymbol.value)
          (semicolon :: rest) := by
        simp only [Written.tokens, BinanceFeed.tokens, List.cons_append, List.nil_append,
          parseBinanceLiveOhlcStatement, consumes_expected, keyword_type, quotable_type,
          number_type, number_value, fromChars_digits]
        exact consumes_pure.mpr ⟨rfl, rfl⟩
      -- `data` and `feed` stay taken when LIVE does not follow
      exact parse_hft
        ⟨_, by simp [hftBranch, acceptAll, Written.tokens, BinanceFeed.tokens]; rfl⟩ hparse

/-- The parser makes of the tokens of a statement what was written. -/
theorem parse_written (w : Written) :
    Statement.parse (some db) (w.tokens ++ rest) = .ok (.statement w.statement) := by
  cases w with
  | createTable name columns =>
      exact (parse_second (by decide)).trans
        (caught_statement (consumes_createTable db rest name columns))
  | createDatabase name =>
      exact (parse_second (by decide)).trans
        (caught_statement (consumes_createDatabase db rest name))
  | createHft name columns symbol top =>
      obtain ⟨rest', hparse⟩ := consumes_createHft db rest name columns symbol top
      have hset : Consumes (do
            set ((Written.createHft name columns symbol top).tokens ++ rest).tail
            parseHFTCreateStatement (some db) : TokenParser HftStatement)
          ((Written.createHft name columns symbol top).tokens ++ rest)
          (.createHft name.name (columns.map hftDefinition) (symbol : Nat) top) rest' := by
        rw [consumes_bind]
        exact ⟨(), _, consumes_set.mpr rfl, hparse⟩
      exact parse_hft ⟨_, by simp [hftBranch, Written.tokens]; rfl⟩ hset
  | statistics type table column condition =>
      exact (parse_first (by decide)).trans
        (caught_statement (consumes_statistics rest type table column condition))
  | enableBatch table ticks =>
      exact (parse_second (by decide)).trans
        (caught_statement (consumes_enableBatch rest table ticks))
  | enableStrategy strategy paramas symbol columnNo ticks =>
      exact parse_hft ⟨_, by simp [hftBranch, Written.tokens]; rfl⟩
        (consumes_enableStrategy rest strategy paramas symbol columnNo ticks)
  | listStrategy => exact (parse_first (by decide)).trans (caught_statement (consumes_list rest))
  | fetchIndicator symbol =>
      exact parse_hft ⟨_, by simp [hftBranch, Written.tokens]; rfl⟩
        (consumes_fetchIndicator rest symbol)
  | applyWebsocket strategy url =>
      exact (parse_first (by decide)).trans
        (thrown_statement (consumes_applyWebsocket rest strategy url))
  | insert table first others =>
      exact (parse_first (by decide)).trans
        (caught_statement (consumes_insert rest table first others))
  | select columns table condition limit =>
      have hparse := consumes_select columns table condition limit db rest
      exact (parse_first (by decide)).trans (caught_statement
        (consumes_bind.mpr ⟨_, _, hparse, consumes_pure.mpr ⟨rfl, rfl⟩⟩))
  | drop istable name =>
      exact (parse_first (by decide)).trans
        (caught_statement (consumes_drop db rest istable name))
  | use name => exact (parse_first (by decide)).trans (caught_statement (consumes_use rest name))
  | delete table condition =>
      exact (parse_first (by decide)).trans
        (caught_statement (consumes_delete rest table condition))
  | update table first others condition =>
      exact (parse_first (by decide)).trans
        (caught_statement (consumes_update rest table first others condition))
  | memorySet arguments =>
      obtain ⟨phrases, hkey, hvalue⟩ := arguments
      have hparse := consumes_memorySet rest ⟨phrases, hkey, hvalue⟩
      -- no argument begins with GET
      cases phrases with
      | nil => exact absurd rfl hkey
      | cons phrase phrases =>
          cases phrase <;> exact (parse_first (by decide)).trans (caught_statement hparse)
  | memoryGet key =>
      exact (parse_first (by decide)).trans (caught_statement (consumes_memoryGet rest key))
  | addHftStrategy filePath =>
      exact (parse_second (by decide)).trans
        (thrown_statement (consumes_addHftStrategy rest filePath))
  | addHftIndicator filePath =>
      exact (parse_second (by decide)).trans
        (caught_statement (consumes_addHftIndicator rest filePath))
  | addIndicator indicator paramas symbol columnNo ticks =>
      exact parse_hft ⟨_, by simp [hftBranch, Written.tokens]; rfl⟩
        (consumes_addIndicator rest indicator paramas symbol columnNo ticks)
  | setBinance feed => exact parse_setBinance db rest feed

end Statements

/-- The text is read as the statement, whatever database is in use, and where no AND stands behind
an OR in the same parentheses, its condition says what was written. -/
structure ReadsBack (sql : Text) (w : Written) : Prop where
  statement : ∀ db, readStatement (some db) sql = .ok (.statement w.statement)
  condition : ∀ c ∈ w.condition, c.AndsFirst → ∃ e ∈ w.statement.condition, c.SaidBy e

/-- A statement is read back from its text, whichever of the 21 kinds it is of. -/
theorem readStatement_print (w : Written) (hlen : w.print.length < 2 ^ 31) :
    ReadsBack w.print w := by
  refine ⟨fun db => ?_, fun c hc => w.condition_said hc⟩
  unfold readStatement
  rw [tokenize_written w hlen]
  exact parse_written db [.endOfFile] w

def usersName : Name where
  name := "users".toList
  start := ⟨_, _, rfl, rfl⟩
  word := List.all_eq_true.mp rfl
  lower := rfl
  free := rfl

def ageName : Name where
  name := "age".toList
  start := ⟨_, _, rfl, rfl⟩
  word := List.all_eq_true.mp rfl
  lower := rfl
  free := rfl

/-- `insert into users ( age ) values ( 'a, b' )`, with a comma in the string. -/
def insertUsers : Written :=
  .insert usersName (ageName, .string ⟨"a, b".toList, by simp [quoteOf]⟩) []

/-- `select * from users where 0 = 0 and 0 = 0 or 0 = 1 limit 5 ;`. -/
def selectUsers : Written := .select .all usersName (some andThenOr) (some ⟨5, by decide⟩)

theorem readStatement_print_select :
    ReadsBack insertUsers.print insertUsers ∧ ReadsBack selectUsers.print selectUsers :=
  ⟨readStatement_print insertUsers (by decide +kernel),
    readStatement_print selectUsers (by decide +kernel)⟩

end NanoVault.Sql
