/-
What a number in a condition is compared as (`tokenizeNumber` in `SQL_LEXER.hpp`, `parsePrimary` in
`SQL_PARSER.hpp`, `getValueFromRow` in `selectAstEvaluator.hpp`).

The lexer takes digits behind a dot for a part of the number; the parser hands the text to
`std::stoi`, which ends at the dot. So the literals of a condition are the whole parts of its
numbers (`parseExpression_takes`). A number keeps its value if it has only zeros behind its dot, and
the statement is refused if the whole part does not fit into an `int`; every other number is
compared as another one (`keepsValue_iff`).
-/
import NanoVault.Sql.Conditions

namespace NanoVault.Sql

open NanoVault.Table NanoVault.Catalog

def digitsValue (ds : Text) : Nat := Nat.ofDigitChars 10 ds 0

/-- The number a text stands for. -/
def Numeral.value (n : Numeral) : ℚ :=
  digitsValue n.whole +
    match n.fraction with
    | none => 0
    | some ds => digitsValue ds / 10 ^ ds.length

/-- There is nothing but zeros behind the dot. -/
def Numeral.IsWhole (n : Numeral) : Prop := ∀ ds ∈ n.fraction, ∀ c ∈ ds, c = '0'

/-- The texts of the numbers among some tokens. -/
def numbers (tokens : List Token) : List Text :=
  (tokens.filter fun t => t.type = .number).map Token.value

/-- What the literals of a condition that are no strings are compared as, from left to right; see
`getValueFromRow`. -/
def compared : Expression → List Int64
  | .intLiteral value => [value.toInt64]
  | .identifier _ | .stringLiteral _ | .boolLiteral _ => []
  | .comparison left _ right | .logical left _ right => compared left ++ compared right
  | .parenthesized e => compared e

/-- The value `std::stoi` reads off a number. -/
def ReadAs (text : Text) (v : Int64) : Prop := ∃ i, stoi text = .ok i ∧ v.toInt = i

/-- Wherever the number stands in a condition that is accepted, it is compared as its value. -/
def KeepsValue (n : Numeral) : Prop :=
  ∀ before after e rest, parseExpression (before ++ ⟨.number, n.text⟩ :: after) = .ok (e, rest) →
    rest.length ≤ after.length →
      ∃ v, (compared e)[(numbers before).length]? = some v ∧ (v.toInt : ℚ) = n.value

variable {tokens ts rest used : List Token} {e left : Expression} {parse : Parser} {text ds : Text}
  {n : Numeral} {v : Int64} {c : Char}

/-! ### The literals of a condition -/

/-- A parser takes tokens from the front, and makes their numbers to literals. -/
def Takes (parse : Parser) : Prop :=
  ∀ tokens e rest, parse tokens = .ok (e, rest) → ∃ used, tokens = used ++ rest ∧
    List.Forall₂ ReadAs (numbers used) (compared e)

theorem numbers_append (ts ts' : List Token) : numbers (ts ++ ts') = numbers ts ++ numbers ts' := by
  rw [numbers, List.filter_append, List.map_append]
  rfl

theorem stoi_range {i : Int} (h : stoi text = .ok i) : -2 ^ 31 ≤ i ∧ i ≤ 2 ^ 31 - 1 := by
  obtain ⟨v, -, hv⟩ := ok_of_bind h
  split at hv
  · cases hv
  · next hrange =>
      obtain rfl := Except.ok.inj hv
      rw [intMax] at hrange
      omega

theorem readAs_stoi {i : Int} (h : stoi text = .ok i) : ReadAs text (Int32.ofInt i).toInt64 := by
  obtain ⟨hlow, hhigh⟩ := stoi_range h
  refine ⟨i, h, ?_⟩
  rw [Int32.toInt_toInt64]
  exact Int32.toInt_ofInt_of_le (by omega) (by omega)

theorem Takes.primary (h : Takes parse) : Takes (parsePrimary parse) := by
  intro tokens e rest hparse
  unfold parsePrimary at hparse
  split at hparse
  · next value tokens =>
      obtain ⟨⟨inner, behind⟩, hinner, hafter⟩ := ok_of_bind hparse
      obtain ⟨used, rfl, hused⟩ := h _ _ _ hinner
      split at hafter
      · next e' value' rest' heq =>
          cases heq
          cases hafter
          refine ⟨⟨.openParen, value⟩ :: (used ++ [⟨.closeParen, value'⟩]), ?_, ?_⟩
          · rw [List.cons_append, List.append_assoc]
            rfl
          · have hnumbers : numbers (⟨.openParen, value⟩ :: (used ++ [⟨.closeParen, value'⟩])) =
                numbers used ++ [] := numbers_append used [⟨.closeParen, value'⟩]
            rw [hnumbers, List.append_nil]
            exact hused
      · cases hafter
  · next value tokens =>
      split at hparse <;> cases hparse <;> exact ⟨[⟨.identifier, value⟩], rfl, .nil⟩
  · next value tokens =>
      obtain ⟨i, hi, hparse⟩ := ok_of_bind hparse
      cases hparse
      exact ⟨[⟨.number, value⟩], rfl, .cons (readAs_stoi hi) .nil⟩
  · next value tokens =>
      cases hparse
      exact ⟨[⟨.string, value⟩], rfl, .nil⟩
  · cases hparse

theorem numbers_operator {t : Token} (ht : t.type ≠ .number) (ts : List Token) :
    numbers (t :: ts) = numbers ts := by
  rw [numbers, List.filter_cons_of_neg (by simpa using ht)]
  rfl

theorem comparisonOperator_ne_number {type : TokenType} {op : ComparisonOperator}
    (h : comparisonOperator type = some op) : type ≠ .number := by
  rintro rfl
  cases h

theorem logicalOperator_ne_number {type : TokenType} {op : LogicalOperator}
    (h : logicalOperator type = some op) : type ≠ .number := by
  rintro rfl
  cases h

/-- Two sides with an operator between them. -/
theorem forall₂_sides {t : Token} {left right : List Token} {vs ws : List Int64}
    (ht : t.type ≠ .number) (hleft : List.Forall₂ ReadAs (numbers left) vs)
    (hright : List.Forall₂ ReadAs (numbers right) ws) :
    List.Forall₂ ReadAs (numbers (left ++ t :: right)) (vs ++ ws) := by
  rw [numbers_append, numbers_operator ht]
  exact List.rel_append hleft hright

theorem Takes.comparison (h : Takes parse) : Takes (parseComparison parse) := by
  intro tokens e rest hparse
  obtain ⟨⟨left, behind⟩, hleft, hafter⟩ := ok_of_bind hparse
  obtain ⟨used, rfl, hused⟩ := h.primary _ _ _ hleft
  split at hafter
  · next heq =>
      cases heq
      cases hafter
      exact ⟨used, rfl, hused⟩
  · next left' token behind' heq =>
      cases heq
      split at hafter
      · cases hafter
        exact ⟨used, rfl, hused⟩
      · next op hop =>
          obtain ⟨⟨right, behind⟩, hright, hlast⟩ := ok_of_bind hafter
          obtain ⟨used', rfl, hused'⟩ := h.primary _ _ _ hright
          cases hlast
          refine ⟨used ++ token :: used', ?_, ?_⟩
          · rw [List.append_assoc, List.cons_append]
          · exact forall₂_sides (comparisonOperator_ne_number hop) hused hused'

/-- The loop goes on behind the tokens that have been taken. -/
theorem Takes.logicalLoop (h : Takes parse) {turns : Nat}
    (hused : List.Forall₂ ReadAs (numbers used) (compared left))
    (hparse : logicalLoop parse turns left tokens = .ok (e, rest)) :
    ∃ used', used ++ tokens = used' ++ rest ∧
      List.Forall₂ ReadAs (numbers used') (compared e) := by
  induction turns generalizing left tokens used with
  | zero =>
      cases hparse
      exact ⟨used, rfl, hused⟩
  | succ turns ih =>
      cases tokens with
      | nil =>
          cases hparse
          exact ⟨used, rfl, hused⟩
      | cons token tokens =>
          unfold Sql.logicalLoop at hparse
          split at hparse
          · cases hparse
            exact ⟨used, rfl, hused⟩
          · next op hop =>
              obtain ⟨⟨right, behind⟩, hright, hafter⟩ := ok_of_bind hparse
              obtain ⟨taken, rfl, htaken⟩ := h.comparison _ _ _ hright
              obtain ⟨used', heq, hused'⟩ :=
                ih (forall₂_sides (logicalOperator_ne_number hop) hused htaken) hafter
              refine ⟨used', ?_, hused'⟩
              rw [← heq, List.append_assoc, List.cons_append]

theorem Takes.logical (h : Takes parse) : Takes (parseLogical parse) := by
  intro tokens e rest hparse
  obtain ⟨⟨left, behind⟩, hleft, hafter⟩ := ok_of_bind hparse
  obtain ⟨used, rfl, hused⟩ := h.comparison _ _ _ hleft
  exact h.logicalLoop hused hafter

theorem takes_parseNested (depth : Nat) : Takes (parseNested depth) := by
  induction depth with
  | zero =>
      intro tokens e rest hparse
      cases hparse
  | succ depth ih => exact ih.logical

/-- A condition consists of tokens, and its literals are what `std::stoi` makes of their numbers. -/
theorem parseExpression_takes (h : parseExpression tokens = .ok (e, rest)) :
    ∃ used, tokens = used ++ rest ∧ List.Forall₂ ReadAs (numbers used) (compared e) :=
  takes_parseNested tokens.length tokens e rest h

/-! ### One number -/

theorem toNat_eq_zero_iff (hc : c.isDigit = true) : c.toNat - 48 = 0 ↔ c = '0' := by
  have hdigit : 48 ≤ c.toNat ∧ c.toNat ≤ 57 := by
    simpa [Char.isDigit, UInt32.le_iff_toNat_le] using hc
  constructor
  · intro hzero
    have hnat : c.toNat = '0'.toNat := Nat.le_antisymm (Nat.le_of_sub_eq_zero hzero) hdigit.1
    exact Char.toNat_inj.mp hnat
  · rintro rfl
    rfl

theorem digitsValue_eq_zero (hds : ∀ c ∈ ds, c.isDigit = true) :
    digitsValue ds = 0 ↔ ∀ c ∈ ds, c = '0' := by
  induction ds with
  | nil => exact ⟨fun _ c hc => (List.not_mem_nil hc).elim, fun _ => rfl⟩
  | cons c cs ih =>
      have hrest := ih fun d hd => hds d (List.mem_cons_of_mem _ hd)
      have hfirst := toNat_eq_zero_iff (hds c List.mem_cons_self)
      have hpos : 10 ^ cs.length ≠ 0 := by positivity
      rw [digitsValue] at hrest ⊢
      rw [Nat.ofDigitChars_cons, Nat.ofDigitChars_eq_ofDigitChars_zero, Nat.mul_zero, Nat.zero_add,
        Nat.add_eq_zero_iff, hrest, Nat.mul_eq_zero, or_iff_right hpos, List.forall_mem_cons,
        ← hfirst]
      rfl

/-- `std::stoll` on digits, with something behind them that is none. -/
theorem stoll_front {front tail : Text} (hfront : ∀ c ∈ front, c.isDigit = true)
    (hne : front ≠ []) (htail : tail.takeWhile Char.isDigit = []) :
    stoll (front ++ tail) =
      if Int64.maxValue.toInt < (digitsValue front : Int) then .error .outOfRange
      else .ok (Int64.ofInt (digitsValue front)) := by
  obtain ⟨d, ds, rfl⟩ := List.exists_cons_of_ne_nil hne
  have hd : d.isDigit = true := hfront d List.mem_cons_self
  have hsign : takeSign ((d :: ds ++ tail).dropWhile isSpace) = (false, d :: ds ++ tail) := by
    rw [List.cons_append, List.dropWhile_cons_of_neg (by simp [isSpace_of_isDigit hd]),
      takeSign_of_isDigit hd]
  have htake : (d :: ds ++ tail).takeWhile Char.isDigit = d :: ds := by
    rw [List.takeWhile_append_of_pos hfront, htail, List.append_nil]
  have hlow : ¬ (digitsValue (d :: ds) : Int) < Int64.minValue.toInt := by
    rw [Int64.toInt_minValue]
    omega
  rw [digitsValue] at hlow
  simp only [stoll, hsign, htake, hne, if_false, Bool.false_eq_true, hlow, false_or, digitsValue]
  rfl

theorem Numeral.exists_tail (n : Numeral) :
    ∃ tail, n.text = n.whole ++ tail ∧ tail.takeWhile Char.isDigit = [] := by
  rw [text]
  cases n.fraction with
  | none => exact ⟨[], rfl, rfl⟩
  | some ds => exact ⟨'.' :: ds, rfl, rfl⟩

/-- `std::stoi` reads the whole part, if it fits. -/
theorem stoi_numeral (n : Numeral) {i : Int} :
    stoi n.text = .ok i ↔ i = digitsValue n.whole ∧ i ≤ intMax := by
  obtain ⟨tail, htext, htail⟩ := n.exists_tail
  rw [stoi, htext, stoll_front n.whole_digits n.some_digit htail, intMax]
  split
  · next hlarge =>
      rw [Int64.toInt_maxValue] at hlarge
      constructor
      · intro h
        cases h
      · rintro ⟨rfl, hle⟩
        omega
  · next hsmall =>
      rw [Int64.toInt_maxValue] at hsmall
      have hvalue : (Int64.ofInt (digitsValue n.whole)).toInt = digitsValue n.whole :=
        Int64.toInt_ofInt_of_le (by omega) (by omega)
      constructor
      · intro h
        obtain ⟨v, hv, h⟩ := ok_of_bind h
        obtain rfl := Except.ok.inj hv
        rw [hvalue] at h
        split at h
        · cases h
        · next hfits =>
            obtain rfl := Except.ok.inj h
            exact ⟨rfl, by omega⟩
      · rintro ⟨rfl, hle⟩
        have hfits : ¬ ((digitsValue n.whole : Int) < -2 ^ 31 ∨
            2 ^ 31 - 1 < (digitsValue n.whole : Int)) := by omega
        simp only [bind, Except.bind, hvalue, if_neg hfits]
        rfl

/-- A number that is whole is its whole part, any other is more. -/
theorem Numeral.value_eq_iff (n : Numeral) : (digitsValue n.whole : ℚ) = n.value ↔ n.IsWhole := by
  rw [value, IsWhole]
  cases hfraction : n.fraction with
  | none => simp
  | some ds =>
      have hdigits := digitsValue_eq_zero (n.fraction_digits ds (by rw [hfraction]; rfl))
      have hpow : (10 : ℚ) ^ ds.length ≠ 0 := by positivity
      simp [hpow, hdigits]

/-- What a number of an accepted condition is compared as. -/
theorem readAs_numeral (n : Numeral) : ReadAs n.text v ↔
    v.toInt = digitsValue n.whole ∧ (digitsValue n.whole : Int) ≤ intMax := by
  rw [ReadAs]
  constructor
  · rintro ⟨i, hi, rfl⟩
    obtain ⟨heq, hle⟩ := (stoi_numeral n).mp hi
    exact ⟨heq, heq ▸ hle⟩
  · rintro ⟨heq, hle⟩
    exact ⟨v.toInt, (stoi_numeral n).mpr ⟨heq, heq ▸ hle⟩, rfl⟩

/-- A condition that compares a column with the number. -/
def comparedWith (n : Numeral) : List Token :=
  [⟨.identifier, ['a']⟩, ⟨.equal, ['=']⟩, ⟨.number, n.text⟩]

theorem parseExpression_comparedWith (h : (digitsValue n.whole : Int) ≤ intMax) :
    parseExpression (comparedWith n) =
      .ok (.comparison (.identifier ['a']) .equal (.intLiteral (Int32.ofInt (digitsValue n.whole))),
        []) := by
  have hstoi : stoi n.text = .ok (digitsValue n.whole : Int) := (stoi_numeral n).mpr ⟨rfl, h⟩
  have hright : ∀ parse : Parser, parsePrimary parse [⟨.number, n.text⟩] =
      .ok (.intLiteral (Int32.ofInt (digitsValue n.whole)), []) := by
    intro parse
    rw [parsePrimary, hstoi]
    rfl
  have hcomparison : ∀ parse : Parser, parseComparison parse (comparedWith n) =
      .ok (.comparison (.identifier ['a']) .equal (.intLiteral (Int32.ofInt (digitsValue n.whole))),
        []) := by
    intro parse
    have hleft : parsePrimary parse (comparedWith n) =
        .ok (.identifier ['a'], [⟨.equal, ['=']⟩, ⟨.number, n.text⟩]) := by
      rw [comparedWith, parsePrimary, if_neg (by decide)]
      rfl
    simp only [parseComparison, hleft, bind, Except.bind, comparisonOperator, hright]
    rfl
  have hlength : (comparedWith n).length = 3 := rfl
  rw [parseExpression, hlength, parseNested, parseLogical, hcomparison]
  rfl

/-- What belongs to an element in the middle of a list. -/
theorem forall₂_at {α β : Type} {R : α → β → Prop} {l l' : List α} {a : α} {bs : List β}
    (h : List.Forall₂ R (l ++ a :: l') bs) : ∃ b, bs[l.length]? = some b ∧ R a b := by
  obtain ⟨hlength, hget⟩ := List.forall₂_iff_get.mp h
  have hleft : l.length < (l ++ a :: l').length := by
    rw [List.length_append, List.length_cons]
    omega
  have hright : l.length < bs.length := hlength ▸ hleft
  refine ⟨bs[l.length], List.getElem?_eq_getElem hright, ?_⟩
  simpa using hget l.length hleft hright

/-- A number keeps its value exactly if there are only zeros behind its dot, or it does not fit
into an `int`, so that the statement is refused. -/
theorem keepsValue_iff (n : Numeral) :
    KeepsValue n ↔ n.IsWhole ∨ intMax < (digitsValue n.whole : Int) := by
  constructor
  · intro h
    by_contra hnot
    obtain ⟨hpart, hfits⟩ := not_or.mp hnot
    have hparse := parseExpression_comparedWith (Int.not_lt.mp hfits)
    obtain ⟨v, hv, hvalue⟩ := h [⟨.identifier, ['a']⟩, ⟨.equal, ['=']⟩] [] _ _ hparse (le_refl _)
    obtain rfl := Option.some.inj hv
    obtain ⟨hread, -⟩ := (readAs_numeral n).mp
      (readAs_stoi ((stoi_numeral n).mpr ⟨rfl, Int.not_lt.mp hfits⟩))
    rw [hread] at hvalue
    exact hpart (n.value_eq_iff.mp (by exact_mod_cast hvalue))
  · intro h before after e rest hparse hrest
    obtain ⟨used, heq, hused⟩ := parseExpression_takes hparse
    obtain ⟨behind, rfl⟩ : ∃ behind, used = before ++ ⟨.number, n.text⟩ :: behind := by
      rcases List.append_eq_append_iff.mp heq with ⟨taken, rfl, htaken⟩ | ⟨left, -, rfl⟩
      · cases taken with
        | nil =>
            obtain rfl := htaken
            exact absurd hrest (Nat.not_succ_le_self _)
        | cons t taken =>
            cases htaken
            exact ⟨taken, rfl⟩
      · rw [List.length_append, List.length_cons] at hrest
        omega
    have hnumbers : numbers (before ++ ⟨.number, n.text⟩ :: behind) =
        numbers before ++ n.text :: numbers behind := numbers_append _ _
    rw [hnumbers] at hused
    obtain ⟨v, hv, hread⟩ := forall₂_at hused
    obtain ⟨heq, hfits⟩ := (readAs_numeral n).mp hread
    refine ⟨v, hv, ?_⟩
    rw [heq]
    have hwhole := n.value_eq_iff.mpr (h.resolve_right (Int.not_lt.mpr hfits))
    exact_mod_cast hwhole

/-- `1.5`. -/
def oneAndAHalf : Numeral where
  whole := ['1']
  fraction := some ['5']
  some_digit := by decide
  whole_digits := by simp
  fraction_digits := by simp

/-- `a = 1.5` holds of a row with a = 1. -/
theorem fraction_dropped : ¬ KeepsValue oneAndAHalf ∧
    ∃ e, readCondition "a = 1.5".toList = .ok e ∧
      evaluateExpression e (Lib.SortedMap.empty.insert ['a'] (.text ['1'])) = .ok true := by
  constructor
  · rw [keepsValue_iff]
    rintro (hwhole | hlarge)
    · exact absurd (hwhole ['5'] rfl '5' List.mem_cons_self) (by decide)
    · have hone : digitsValue oneAndAHalf.whole = 1 := rfl
      rw [hone, intMax] at hlarge
      omega
  · exact ⟨.comparison (.identifier ['a']) .equal (.intLiteral 1), by decide, by decide⟩

end NanoVault.Sql
