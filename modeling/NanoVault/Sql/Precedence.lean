/-
What becomes of a printed condition.

The loop of `parseLogical` reads AND and OR alike from left to right: a condition is attached
to what stands in front of it (`attach`). Over truth values that is `value`, and `truth` is
what the tree of the condition says. They agree on every filling of a tree exactly if no AND
stands behind an OR on one level of its parentheses (`AndsFirst`).
-/
import NanoVault.Sql.Conditions

namespace NanoVault.Sql

open NanoVault.Table NanoVault.Catalog

/-! ### Truth values -/

variable {α β : Type}

def combine : LogicalOperator → Bool → Bool → Bool
  | .and, l, r => l && r
  | .or, l, r => l || r

namespace Condition

def truth : Condition Bool → Bool
  | .comparison b => b
  | .and left right => left.truth && right.truth
  | .or left right => left.truth || right.truth

/-- A truth value behind what stands in front of it, if anything does. -/
def fold : Option (Bool × LogicalOperator) → Bool → Bool
  | none, b => b
  | some (x, op), b => combine op x b

/-- The truth value of what is parsed from a condition, and of what stands in front of it. -/
def value : Condition Bool → Option (Bool × LogicalOperator) → Bool
  | .comparison b, front => fold front b
  | .or left right, front => right.value (some (left.value front, .or))
  | .and left right, front =>
      let l := if left.isOr then fold front (left.value none) else left.value front
      if right.isOr then l && right.value none else right.value (some (l, .and))

/-- An AND of the condition is outside of parentheses. -/
def hasAnd : Condition α → Bool
  | .comparison _ => false
  | .and _ _ => true
  | .or left right => left.hasAnd || right.hasAnd

/-- No AND stands behind an OR in the same parentheses. -/
def AndsFirst : Condition α → Prop
  | .comparison _ => True
  | .and left right => left.AndsFirst ∧ right.AndsFirst
  | .or left right => left.AndsFirst ∧ right.AndsFirst ∧ right.hasAnd = false

variable {c l r : Condition α} {v w : Condition Bool} {x b : Bool} {op : LogicalOperator}
  {front : Option (Bool × LogicalOperator)}

/-- A side of an AND is evaluated for itself: a part of it that comes first is no OR. -/
theorem value_and_front (hv : v.isOr = false) :
    v.value (some (x, .and)) = (x && v.value none) := by
  induction v generalizing x with
  | comparison b => rfl
  | or left right => cases hv
  | and left right ihl ihr =>
      cases hleft : left.isOr with
      | true =>
          cases hright : right.isOr with
          | true => simp [value, hleft, hright, fold, combine, Bool.and_assoc]
          | false => simp [value, hleft, hright, fold, combine, ihr, Bool.and_assoc]
      | false =>
          cases hright : right.isOr with
          | true => simp [value, hleft, hright, ihl, Bool.and_assoc]
          | false => simp [value, hleft, hright, ihl, ihr, Bool.and_assoc]

/-- An AND behind nothing is the AND of both sides. -/
theorem value_and : (Condition.and v w).value none = (v.value none && w.value none) := by
  have hleft : (if v.isOr then fold none (v.value none) else v.value none) = v.value none :=
    ite_self _
  simp only [value, hleft]
  split
  · rfl
  · exact value_and_front (Bool.eq_false_iff.2 ‹_›)

/-- Behind an OR, a condition without an AND is one more alternative. -/
theorem value_or_front (hv : v.hasAnd = false) : v.value (some (x, .or)) = (x || v.truth) := by
  induction v generalizing x with
  | comparison b => rfl
  | and left right => cases hv
  | or left right ihl ihr =>
      obtain ⟨hleft, hright⟩ := Bool.or_eq_false_iff.1 hv
      rw [value, ihl hleft, ihr hright, truth, Bool.or_assoc]

/-- Where no AND stands behind an OR, the parser has read what the condition says. -/
theorem value_eq_truth (hv : v.AndsFirst) : v.value none = v.truth := by
  induction v with
  | comparison b => rfl
  | and left right ihl ihr => rw [value_and, ihl hv.1, ihr hv.2, truth]
  | or left right ihl ihr => rw [value, value_or_front hv.2.2, ihl hv.1, truth]

/-! ### A filling for every AND behind an OR -/

theorem shape_map (f : α → β) : (c.map f).shape = c.shape := by
  induction c with
  | comparison a => rfl
  | and left right ihl ihr => exact congrArg₂ Condition.and ihl ihr
  | or left right ihl ihr => exact congrArg₂ Condition.or ihl ihr

theorem isOr_map (f : α → β) : (c.map f).isOr = c.isOr := by cases c <;> rfl

theorem hasAnd_map (f : α → β) : (c.map f).hasAnd = c.hasAnd := by
  induction c with
  | comparison a => rfl
  | and left right => rfl
  | or left right ihl ihr => exact congrArg₂ (· || ·) ihl ihr

theorem andsFirst_map (f : α → β) : (c.map f).AndsFirst ↔ c.AndsFirst := by
  induction c with
  | comparison a => rfl
  | and left right ihl ihr => exact and_congr ihl ihr
  | or left right ihl ihr =>
      rw [map, AndsFirst, AndsFirst, ihl, ihr, hasAnd_map]

/-- Whether ANDs come first is read off the shape. -/
theorem andsFirst_shape : c.shape.AndsFirst ↔ c.AndsFirst := andsFirst_map _

/-- What is mapped back is as before. -/
theorem map_map_of_leftInverse {f : α → β} {g : β → α} (hfg : ∀ a, g (f a) = a) :
    (c.map f).map g = c := by
  induction c with
  | comparison a => exact congrArg Condition.comparison (hfg a)
  | and left right ihl ihr => exact congrArg₂ Condition.and ihl ihr
  | or left right ihl ihr => exact congrArg₂ Condition.or ihl ihr

/-- Every comparison of the condition with the same truth value. -/
def fill (b : Bool) (c : Condition α) : Condition Bool := c.map fun _ => b

theorem fill_and : (Condition.and l r).fill b = .and (l.fill b) (r.fill b) := rfl

theorem fill_or : (Condition.or l r).fill b = .or (l.fill b) (r.fill b) := rfl

theorem hasAnd_fill : (c.fill b).hasAnd = c.hasAnd := hasAnd_map _

/-- A condition filled with one value has that value, as it is meant. -/
theorem truth_fill : (c.fill b).truth = b := by
  induction c with
  | comparison a => rfl
  | and left right ihl ihr => rw [fill_and, truth, ihl, ihr, Bool.and_self]
  | or left right ihl ihr => rw [fill_or, truth, ihl, ihr, Bool.or_self]

/-- So has what stands in front. -/
theorem fold_same (hfront : ∀ p ∈ front, p.1 = b) : fold front b = b := by
  cases front with
  | none => rfl
  | some p =>
      obtain rfl : p.1 = b := hfront p rfl
      obtain ⟨b, op⟩ := p
      cases op with
      | and => exact Bool.and_self b
      | or => exact Bool.or_self b

/-- So has the value the parser's grouping gives. -/
theorem value_fill (hfront : ∀ p ∈ front, p.1 = b) : (c.fill b).value front = b := by
  have hsome : ∀ op : LogicalOperator, ∀ p ∈ some (b, op), p.1 = b := by
    rintro op p ⟨⟩
    rfl
  have hnone : ∀ p ∈ (none : Option (Bool × LogicalOperator)), p.1 = b := by
    intro p hp
    cases hp
  induction c generalizing front with
  | comparison a => exact fold_same hfront
  | or left right ihl ihr =>
      rw [fill_or, value, ihl hfront]
      exact ihr (hsome .or)
  | and left right ihl ihr =>
      have hleft : (if (left.fill b).isOr then fold front ((left.fill b).value none)
          else (left.fill b).value front) = b := by
        rw [ihl hnone, ihl hfront, fold_same hfront, ite_self]
      simp only [fill_and, value, hleft]
      rw [ihr hnone, ihr (hsome .and), Bool.and_self, ite_self]

/-- With all comparisons false, an AND makes everything in front of it false too. -/
theorem value_fill_false (hc : c.hasAnd = true) : (c.fill false).value (some (x, op)) = false := by
  induction c generalizing x op with
  | comparison a => cases hc
  | and left right ihl ihr =>
      have hnone : (right.fill false).value none = false := value_fill (by intro p hp; cases hp)
      simp only [fill_and, value]
      split
      · rw [hnone, Bool.and_false]
      · rw [value_and_front (Bool.eq_false_iff.2 ‹_›), hnone, Bool.and_false]
  | or left right ihl ihr =>
      rw [fill_or, value]
      cases hright : right.hasAnd with
      | true => exact ihr hright
      | false =>
          have hleft : left.hasAnd = true := by
            rw [hasAnd, hright, Bool.or_false] at hc
            exact hc
          rw [ihl hleft, value_or_front (hasAnd_fill.trans hright), truth_fill, Bool.or_false]

/-- Where there is no AND, none stands behind an OR. -/
theorem andsFirst_of_hasAnd (hc : c.hasAnd = false) : c.AndsFirst := by
  induction c with
  | comparison a => trivial
  | and left right => cases hc
  | or left right ihl ihr =>
      obtain ⟨hleft, hright⟩ := Bool.or_eq_false_iff.1 hc
      exact ⟨ihl hleft, ihr hright, hright⟩

/-- A condition that is read right whatever its comparisons say has no AND behind an OR. -/
theorem andsFirst_of_value {c : Condition Unit}
    (h : ∀ v : Condition Bool, v.shape = c → v.value none = v.truth) : c.AndsFirst := by
  have hunit : ∀ c : Condition Unit, c.shape = c := by
    intro c
    induction c with
    | comparison a => rfl
    | and left right ihl ihr => exact congrArg₂ Condition.and ihl ihr
    | or left right ihl ihr => exact congrArg₂ Condition.or ihl ihr
  have hfill : ∀ (b : Bool) (c : Condition Unit), (c.fill b).shape = c := by
    intro b c
    rw [fill, shape_map, hunit]
  have hnone : ∀ p ∈ (none : Option (Bool × LogicalOperator)), p.1 = true := by
    intro p hp
    cases hp
  induction c with
  | comparison a => trivial
  | and left right ihl ihr =>
      constructor
      · apply ihl
        intro v hv
        have heq := h (.and v (right.fill true)) (congrArg₂ Condition.and hv (hfill true right))
        rwa [value_and, truth, value_fill hnone, truth_fill, Bool.and_true, Bool.and_true] at heq
      · apply ihr
        intro v hv
        have heq := h (.and (left.fill true) v) (congrArg₂ Condition.and (hfill true left) hv)
        rwa [value_and, truth, value_fill hnone, truth_fill, Bool.true_and, Bool.true_and] at heq
  | or left right ihl ihr =>
      have hright : right.hasAnd = false := by
        rw [Bool.eq_false_iff]
        intro hright
        -- all true in front of the OR, all false behind it
        have heq := h (.or (left.fill true) (right.fill false))
          (congrArg₂ Condition.or (hfill true left) (hfill false right))
        rw [value, value_fill_false hright, truth, truth_fill, truth_fill] at heq
        cases heq
      refine ⟨?_, andsFirst_of_hasAnd hright, hright⟩
      apply ihl
      intro v hv
      have heq := h (.or v (right.fill false)) (congrArg₂ Condition.or hv (hfill false right))
      rwa [value, truth, value_or_front (hasAnd_fill.trans hright), truth_fill, Bool.or_false,
        Bool.or_false] at heq

end Condition

/-! ### What is parsed -/

def Operand.toExpression : Operand → Expression
  | .column name => .identifier name.name
  | .number n => .intLiteral (Int32.ofNat n)
  | .string s => .stringLiteral s.value
  | .bool b => .boolLiteral b

def Comparison.toExpression (a : Comparison) : Expression :=
  .comparison a.left.toExpression a.op a.right.toExpression

/-- An expression behind what has been parsed in front of it, if anything has. -/
def join : Option (Expression × LogicalOperator) → Expression → Expression
  | none, e => e
  | some (left, op), e => .logical left op e

/-- The expression parsed from a condition, and from what stands in front of it. -/
def Condition.attach : Condition Comparison → Option (Expression × LogicalOperator) → Expression
  | .comparison a, front => join front a.toExpression
  | .or left right, front => right.attach (some (left.attach front, .or))
  | .and left right, front =>
      let l :=
        if left.isOr then join front (.parenthesized (left.attach none)) else left.attach front
      if right.isOr then .logical l .and (.parenthesized (right.attach none))
      else right.attach (some (l, .and))

/-- `parseLogical` in front of an operand. -/
def enter (parse : Parser) (turns : Nat) (front : Option (Expression × LogicalOperator)) :
    Parser := fun tokens => do
  let (e, behind) ← parseComparison parse tokens
  logicalLoop parse turns (join front e) behind

section

variable {parse : Parser} {tokens rest : List Token} {t : Token} {e : Expression}
  {front : Option (Expression × LogicalOperator)} {turns depth : Nat}

/-- A number below two to the 31 is read back. -/
theorem stoi_digits (n : Fin (2 ^ 31)) : stoi (digits n) = .ok n := by
  have hlt := n.isLt
  have hrange : Int64.minValue.toInt ≤ (n : Int) ∧ (n : Int) ≤ Int64.maxValue.toInt := by
    rw [Int64.toInt_minValue, Int64.toInt_maxValue]
    omega
  have hread : stoll (digits n) = .ok (Int64.ofInt n) :=
    stoll_digits n false (takeSign_digits n) rfl hrange
  have hvalue : (Int64.ofInt n).toInt = n := by
    rw [Int64.toInt_minValue, Int64.toInt_maxValue] at hrange
    exact Int64.toInt_ofInt_of_le (by omega) (by omega)
  have hfits : ¬ ((n : Int) < -2 ^ 31 ∨ intMax < (n : Int)) := by
    rw [intMax]
    omega
  rw [stoi, hread]
  show (if (Int64.ofInt n).toInt < -2 ^ 31 ∨ intMax < (Int64.ofInt n).toInt
    then Except.error Fault.outOfRange else .ok (Int64.ofInt n).toInt) = _
  rw [hvalue, if_neg hfits]

/-- An operand is read as it is written. -/
theorem parsePrimary_operand (x : Operand) :
    parsePrimary parse (x.token :: rest) = .ok (x.toExpression, rest) := by
  cases x with
  | column name =>
      have hne : ¬ (name.name = "true".toList ∨ name.name = "false".toList) :=
        not_or.2 name.noBool
      simp only [Operand.token, parsePrimary, if_neg hne]
      rfl
  | number n =>
      simp only [Operand.token, parsePrimary, stoi_digits]
      rfl
  | string s => rfl
  | bool b => cases b <;> rfl

/-- The sign of an operator names it. -/
theorem comparisonOperator_opToken (op : ComparisonOperator) :
    comparisonOperator (opToken op).type = some op := by
  cases op <;> rfl

/-- A comparison is read as it is written. -/
theorem parseComparison_tokens (a : Comparison) :
    parseComparison parse (a.tokens ++ rest) = .ok (a.toExpression, rest) := by
  have htokens : a.tokens ++ rest = a.left.token :: opToken a.op :: a.right.token :: rest := rfl
  rw [htokens, parseComparison, parsePrimary_operand]
  simp only [bind, Except.bind, comparisonOperator_opToken, parsePrimary_operand]
  rfl

/-- No comparison goes on with the tokens. -/
def Quiet (tokens : List Token) : Prop :=
  ∀ t ∈ tokens.head?, comparisonOperator t.type = none

/-- A condition in parentheses is read as a whole. -/
theorem parseComparison_between (hrest : Quiet rest)
    (hparse : parse (tokens ++ ⟨.closeParen, [')']⟩ :: rest) =
      .ok (e, ⟨.closeParen, [')']⟩ :: rest)) :
    parseComparison parse (between tokens ++ rest) = .ok (.parenthesized e, rest) := by
  have hprimary : parsePrimary parse (between tokens ++ rest) = .ok (.parenthesized e, rest) := by
    rw [between, List.cons_append, List.append_assoc]
    simp only [parsePrimary, List.singleton_append, hparse]
    rfl
  rw [parseComparison, hprimary]
  cases rest with
  | nil => rfl
  | cons t rest =>
      have ht : comparisonOperator t.type = none := hrest t rfl
      simp only [bind, Except.bind, ht]
      rfl

/-- The loop ends at a token that is neither AND nor OR. -/
theorem logicalLoop_stop (ht : logicalOperator t.type = none) :
    logicalLoop parse turns e (t :: rest) = .ok (e, t :: rest) := by
  cases turns with
  | zero => rfl
  | succ turns =>
      rw [logicalLoop, ht]
      rfl

/-- The loop takes an AND or an OR and what follows it. -/
theorem logicalLoop_step (op : LogicalOperator) :
    logicalLoop parse (turns + 1) e (logicalToken op :: rest) =
      enter parse turns (some (e, op)) rest := by
  cases op <;> rfl

def Condition.side (c : Condition Comparison) : List Token :=
  if c.isOr then between c.tokens else c.tokens

/-- What is parsed from a side of an AND. -/
def Condition.attachSide (c : Condition Comparison)
    (front : Option (Expression × LogicalOperator)) : Expression :=
  if c.isOr then join front (.parenthesized (c.attach none)) else c.attach front

/-- With nesting and turns for these tokens, the loop gets to the tokens behind them with this
expression. -/
def Reads (tokens : List Token)
    (attach : Option (Expression × LogicalOperator) → Expression) : Prop :=
  ∀ front ⦃depth turns rest⦄, tokens.length ≤ depth → (tokens ++ rest).length ≤ turns →
    Quiet rest → ∃ left, rest.length ≤ left ∧
      enter (parseNested depth) turns front (tokens ++ rest) =
        logicalLoop (parseNested depth) left (attach front) rest

/-- Between parentheses a condition is parsed for itself. -/
theorem reads_between {c : Condition Comparison} (hc : Reads c.tokens c.attach) :
    Reads (between c.tokens) fun front => join front (.parenthesized (c.attach none)) := by
  intro front depth turns rest hdepth hturns hrest
  simp only [between, List.length_cons, List.length_append] at hdepth hturns
  obtain ⟨depth, rfl⟩ : ∃ n, depth = n + 1 := Nat.exists_eq_add_one.2 (by omega)
  have hclose : Quiet (⟨.closeParen, [')']⟩ :: rest) := by
    rintro t ⟨⟩
    rfl
  have hparse : parseNested (depth + 1) (c.tokens ++ ⟨.closeParen, [')']⟩ :: rest) =
      .ok (c.attach none, ⟨.closeParen, [')']⟩ :: rest) := by
    obtain ⟨left, -, heq⟩ := hc none (by omega : c.tokens.length ≤ depth) le_rfl hclose
    exact heq.trans (logicalLoop_stop rfl)
  refine ⟨turns, by omega, ?_⟩
  rw [enter, parseComparison_between hrest hparse]
  rfl

/-- A side is read if the condition in it is. -/
theorem reads_side {c : Condition Comparison} (hc : Reads c.tokens c.attach) :
    Reads c.side c.attachSide := by
  cases hor : c.isOr with
  | true =>
      have hside : c.side = between c.tokens := by rw [Condition.side, if_pos hor]
      have hattach :
          c.attachSide = fun front => join front (.parenthesized (c.attach none)) := by
        funext front
        rw [Condition.attachSide, if_pos hor]
      rw [hside, hattach]
      exact reads_between hc
  | false =>
      have hside : c.side = c.tokens := by rw [Condition.side, if_neg (Bool.eq_false_iff.1 hor)]
      have hattach : c.attachSide = c.attach := by
        funext front
        rw [Condition.attachSide, if_neg (Bool.eq_false_iff.1 hor)]
      rw [hside, hattach]
      exact hc

/-- Two conditions with an operator between them. -/
theorem reads_append {left right : List Token}
    {attachLeft attachRight : Option (Expression × LogicalOperator) → Expression}
    (op : LogicalOperator) (hleft : Reads left attachLeft) (hright : Reads right attachRight) :
    Reads (left ++ logicalToken op :: right)
      fun front => attachRight (some (attachLeft front, op)) := by
  intro front depth turns rest hdepth hturns hrest
  simp only [List.length_append, List.length_cons] at hdepth hturns
  have hquiet : Quiet (logicalToken op :: (right ++ rest)) := by
    rintro t ⟨⟩
    cases op <;> rfl
  obtain ⟨k, hk, hreadLeft⟩ := hleft front (by omega : left.length ≤ depth)
    (by simp only [List.length_append, List.length_cons]; omega : _ ≤ turns) hquiet
  obtain ⟨k, rfl⟩ : ∃ n, k = n + 1 := by
    rw [List.length_cons] at hk
    exact Nat.exists_eq_add_one.2 (by omega)
  obtain ⟨m, hm, hreadRight⟩ := hright (some (attachLeft front, op))
    (by omega : right.length ≤ depth) (Nat.le_of_succ_le_succ hk) hrest
  refine ⟨m, hm, ?_⟩
  rw [List.append_assoc, List.cons_append, hreadLeft, logicalLoop_step, hreadRight]

/-- The loop attaches a condition to what stands in front of it. -/
theorem reads_condition (c : Condition Comparison) : Reads c.tokens c.attach := by
  induction c with
  | comparison a =>
      intro front depth turns rest hdepth hturns hrest
      rw [List.length_append] at hturns
      refine ⟨turns, by omega, ?_⟩
      rw [Condition.tokens, enter, parseComparison_tokens]
      rfl
  | or left right ihl ihr => exact reads_append .or ihl ihr
  | and left right ihl ihr => exact reads_append .and (reads_side ihl) (reads_side ihr)

/-- A condition is read as the parser groups it. -/
theorem parseExpression_tokens (c : Condition Comparison) :
    parseExpression (c.tokens ++ [Token.endOfFile]) = .ok (c.attach none, [Token.endOfFile]) := by
  have hquiet : Quiet [Token.endOfFile] := by
    rintro t ⟨⟩
    rfl
  obtain ⟨left, -, heq⟩ := reads_condition c none le_rfl le_rfl hquiet
  rw [parseExpression, List.length_append]
  exact heq.trans (logicalLoop_stop rfl)

/-- What the parser makes of the text of a condition. -/
theorem readCondition_print (c : Condition Comparison) (hlen : c.print.length < 2 ^ 31) :
    readCondition c.print = .ok (c.attach none) := by
  rw [readCondition, tokenize_print c hlen]
  show (do let (expr, _) ← parseExpression (c.tokens ++ [Token.endOfFile]); return expr) = _
  rw [parseExpression_tokens]
  rfl

end

/-! ### What is evaluated -/

def Condition.comparisons : Condition α → List α
  | .comparison a => [a]
  | .and left right => left.comparisons ++ right.comparisons
  | .or left right => left.comparisons ++ right.comparisons

theorem Condition.comparisons_map (f : α → β) (c : Condition α) :
    (c.map f).comparisons = c.comparisons.map f := by
  induction c with
  | comparison a => rfl
  | and left right ihl ihr =>
      rw [map, comparisons, comparisons, ihl, ihr, List.map_append]
  | or left right ihl ihr =>
      rw [map, comparisons, comparisons, ihl, ihr, List.map_append]

/-- What stands in front evaluates to what stands in front of the truth values. -/
inductive FrontValue (row : Row) :
    Option (Expression × LogicalOperator) → Option (Bool × LogicalOperator) → Prop where
  | none : FrontValue row none none
  | some {e : Expression} {x : Bool} (op : LogicalOperator) :
      evaluateExpression e row = .ok x → FrontValue row (some (e, op)) (some (x, op))

section

variable {row : Row} {e left right : Expression} {x b l r : Bool} {f : Comparison → Bool}
  {front : Option (Expression × LogicalOperator)} {values : Option (Bool × LogicalOperator)}

/-- Both sides are evaluated before they are combined. -/
theorem evaluate_logical (op : LogicalOperator) (hleft : evaluateExpression left row = .ok l)
    (hright : evaluateExpression right row = .ok r) :
    evaluateExpression (.logical left op right) row = .ok (combine op l r) := by
  rw [evaluateExpression, hleft, hright]
  cases op <;> rfl

/-- What stands in front is combined with the value behind it. -/
theorem evaluate_join (hfront : FrontValue row front values)
    (he : evaluateExpression e row = .ok b) :
    evaluateExpression (join front e) row = .ok (Condition.fold values b) := by
  cases hfront with
  | none => exact he
  | some op hx => exact evaluate_logical op hx he

/-- What is parsed from a condition evaluates to `value`. -/
theorem evaluate_attach {c : Condition Comparison}
    (hc : ∀ a ∈ c.comparisons, evaluateExpression a.toExpression row = .ok (f a))
    (hfront : FrontValue row front values) :
    evaluateExpression (c.attach front) row = .ok ((c.map f).value values) := by
  induction c generalizing front values with
  | comparison a => exact evaluate_join hfront (hc a List.mem_cons_self)
  | or left right ihl ihr =>
      have hleft := fun a ha => hc a (List.mem_append_left _ ha)
      have hright := fun a ha => hc a (List.mem_append_right _ ha)
      exact ihr hright (.some .or (ihl hleft hfront))
  | and left right ihl ihr =>
      have hleft := fun a ha => hc a (List.mem_append_left _ ha)
      have hright := fun a ha => hc a (List.mem_append_right _ ha)
      have hside : ∀ {side : Condition Comparison},
          (∀ {front values}, FrontValue row front values →
            evaluateExpression (side.attach front) row = .ok ((side.map f).value values)) →
          ∀ {front values}, FrontValue row front values →
            evaluateExpression (side.attachSide front) row =
              .ok (if (side.map f).isOr then Condition.fold values ((side.map f).value none)
                else (side.map f).value values) := by
        intro side ih front values hfront
        rw [Condition.isOr_map, Condition.attachSide]
        split
        · exact evaluate_join hfront (ih .none)
        · exact ih hfront
      exact hside (ihr hright) (.some .and (hside (ihl hleft) hfront))

end

/-! ### What the engine keeps of a condition -/

/-- The expression has the truth value of the condition on every row on which the comparisons of
the condition are evaluated. -/
def Condition.SaidBy (c : Condition Comparison) (e : Expression) : Prop :=
  ∀ (row : Row) (f : Comparison → Bool),
    (∀ a ∈ c.comparisons, evaluateExpression a.toExpression row = .ok (f a)) →
      evaluateExpression e row = .ok (c.map f).truth

/-- The text of the condition is parsed, and what is parsed says what the condition says. -/
def Kept (c : Condition Comparison) : Prop :=
  ∃ e, readCondition c.print = .ok e ∧ c.SaidBy e

variable {c c' : Condition Comparison}

/-- What the parser makes of a condition says the same where no AND stands behind an OR. -/
theorem Condition.saidBy_attach (hc : c.AndsFirst) : c.SaidBy (c.attach none) := by
  intro row f hf
  rw [evaluate_attach hf .none, value_eq_truth ((andsFirst_map f).2 hc)]

/-- Where ANDs come first, the meaning is kept. -/
theorem kept_of_andsFirst (hc : c.AndsFirst) (hlen : c.print.length < 2 ^ 31) : Kept c :=
  ⟨c.attach none, readCondition_print c hlen, Condition.saidBy_attach hc⟩

/-- A text of this length has no tokens for the lexer. -/
theorem not_kept_of_long (hlow : 2 ^ 31 ≤ c.print.length) (hhigh : c.print.length < 2 ^ 32) :
    ¬ Kept c := by
  have hsize : Lexer.size c.print.length = 0 := by
    rw [Lexer.size, Int32.toInt_ofNat', Int.bmod, Int32.size]
    simp only [Nat.cast_ofNat]
    omega
  have htokens : tokenize c.print = .ok [.endOfFile] := by
    rw [tokenize, hsize]
    cases c.print.length <;> rfl
  rintro ⟨e, he, -⟩
  rw [readCondition, htokens] at he
  cases he

/-- `0 = 0` for a comparison that holds, and `0 = 1` for one that does not. -/
def plain (b : Bool) : Comparison := ⟨.number 0, .equal, .number (if b then 0 else 1)⟩

theorem evaluate_plain (row : Row) (b : Bool) :
    evaluateExpression (plain b).toExpression row = .ok b := by
  cases b <;> rfl

/-- Plain comparisons stand for truth values. -/
theorem value_eq_of_kept {v : Condition Bool} (h : Kept (v.map plain))
    (hlen : (v.map plain).print.length < 2 ^ 31) : v.value none = v.truth := by
  let row : Row := Lib.SortedMap.empty
  let f : Comparison → Bool := fun a => evaluateExpression a.toExpression row = .ok true
  have hf : ∀ b, f (plain b) = b := by
    intro b
    show decide (evaluateExpression (plain b).toExpression row = .ok true) = b
    rw [evaluate_plain]
    cases b <;> rfl
  have hcomparisons : ∀ a ∈ (v.map plain).comparisons,
      evaluateExpression a.toExpression row = .ok (f a) := by
    intro a ha
    rw [Condition.comparisons_map] at ha
    obtain ⟨b, -, rfl⟩ := List.mem_map.1 ha
    rw [evaluate_plain, hf]
  obtain ⟨e, he, hevaluate⟩ := h
  obtain rfl : (v.map plain).attach none = e := by
    rw [readCondition_print _ hlen] at he
    exact Except.ok.inj he
  have heq := (evaluate_attach hcomparisons .none).symm.trans (hevaluate row f hcomparisons)
  rw [Condition.map_map_of_leftInverse hf] at heq
  exact Except.ok.inj heq

theorem spellAll_append (ts ts' : List Token) :
    spellAll (ts ++ ts') = spellAll ts ++ spellAll ts' :=
  List.flatMap_append

theorem length_spellAll_between (ts : List Token) :
    (spellAll (between ts)).length = (spellAll ts).length + 4 := by
  have hopen : (Token.spell ⟨.openParen, ['(']⟩).length = 1 := rfl
  have hclose : (spellAll [⟨.closeParen, [')']⟩]).length = 2 := rfl
  rw [between, spellAll_cons, spellAll_append]
  simp only [List.length_append, List.length_cons, hopen, hclose]
  omega

theorem spell_pos {t : Token} (ht : t.Lexes) : 1 ≤ t.spell.length := by
  obtain ⟨⟨c, cs, hspell, -⟩, -⟩ := ht
  rw [hspell, List.length_cons]
  omega

/-- No comparison has a shorter text than a plain one. -/
theorem length_plain_le (b : Bool) (a : Comparison) :
    (spellAll (plain b).tokens).length ≤ (spellAll a.tokens).length := by
  have hplain : (spellAll (plain b).tokens).length = 6 := by cases b <;> rfl
  have hlexes := lexes_comparison a
  have h₁ := spell_pos (hlexes a.left.token (by simp [Comparison.tokens]))
  have h₂ := spell_pos (hlexes (opToken a.op) (by simp [Comparison.tokens]))
  have h₃ := spell_pos (hlexes a.right.token (by simp [Comparison.tokens]))
  rw [hplain, Comparison.tokens, spellAll_cons, spellAll_cons, spellAll_cons]
  simp only [List.length_append, List.length_cons]
  omega

/-- A condition of true and false is printed no longer than one of comparisons. -/
theorem length_print_le {v : Condition Bool} (hv : v.shape = c.shape) :
    (v.map plain).print.length ≤ c.print.length := by
  show (spellAll (v.map plain).tokens).length ≤ (spellAll c.tokens).length
  induction v generalizing c with
  | comparison b =>
      cases c with
      | comparison a => exact length_plain_le b a
      | and left right => cases hv
      | or left right => cases hv
  | or left right ihl ihr =>
      cases c with
      | comparison a => cases hv
      | and left' right' => cases hv
      | or left' right' =>
          obtain ⟨hl, hr⟩ := Condition.or.inj hv
          have hleft := ihl hl
          have hright := ihr hr
          simp only [Condition.map, Condition.tokens, spellAll_append, spellAll_cons,
            List.length_append, List.length_cons]
          omega
  | and left right ihl ihr =>
      cases c with
      | comparison a => cases hv
      | or left' right' => cases hv
      | and left' right' =>
          obtain ⟨hl, hr⟩ := Condition.and.inj hv
          have hside : ∀ {w : Condition Bool} {c : Condition Comparison}, w.shape = c.shape →
              (spellAll (w.map plain).tokens).length ≤ (spellAll c.tokens).length →
              (spellAll (w.map plain).side).length ≤ (spellAll c.side).length := by
            intro w c hw hle
            have hor : (w.map plain).isOr = c.isOr := by
              have hor := congrArg Condition.isOr hw
              rwa [Condition.shape, Condition.shape, Condition.isOr_map, Condition.isOr_map,
                ← Condition.isOr_map plain] at hor
            rw [Condition.side, Condition.side, hor]
            split
            · rw [length_spellAll_between, length_spellAll_between]
              omega
            · exact hle
          have hleft := hside hl (ihl hl)
          have hright := hside hr (ihr hr)
          show
            (spellAll ((left.map plain).side ++ logicalToken .and :: (right.map plain).side)).length ≤
              (spellAll (left'.side ++ logicalToken .and :: right'.side)).length
          simp only [spellAll_append, spellAll_cons, List.length_append, List.length_cons]
          omega

/-- A condition keeps its meaning, whatever is compared in it, exactly if its text has fewer than
`2 ^ 31` characters and no AND behind an OR in the same parentheses. -/
theorem precedence_kept (c : Condition Comparison) (hlen : c.print.length < 2 ^ 32) :
    (∀ c' : Condition Comparison, c'.shape = c.shape → c'.print.length ≤ c.print.length → Kept c') ↔
      c.AndsFirst ∧ c.print.length < 2 ^ 31 := by
  constructor
  · intro h
    have hfits : c.print.length < 2 ^ 31 := by
      by_contra hlong
      exact not_kept_of_long (not_lt.1 hlong) hlen (h c rfl le_rfl)
    refine ⟨Condition.andsFirst_shape.1 (Condition.andsFirst_of_value ?_), hfits⟩
    intro v hv
    have hshort := length_print_le hv
    have hkept := h (v.map plain) ((Condition.shape_map plain).trans hv) hshort
    exact value_eq_of_kept hkept (lt_of_le_of_lt hshort hfits)
  · rintro ⟨hfirst, hfits⟩ c' hshape hshort
    have hfirst' : c'.AndsFirst := by
      rw [← Condition.andsFirst_shape, hshape]
      exact Condition.andsFirst_shape.2 hfirst
    exact kept_of_andsFirst hfirst' (lt_of_le_of_lt hshort hfits)

/-- `0 = 0 and 0 = 0 or 0 = 1`. -/
def andThenOr : Condition Comparison :=
  .or (.and (.comparison (plain true)) (.comparison (plain true))) (.comparison (plain false))

theorem precedence_kept_andThenOr :
    andThenOr.print.length < 2 ^ 32 ∧
      ((∀ c' : Condition Comparison, c'.shape = andThenOr.shape →
        c'.print.length ≤ andThenOr.print.length → Kept c') ↔
          andThenOr.AndsFirst ∧ andThenOr.print.length < 2 ^ 31) := by
  have hlen : andThenOr.print.length < 2 ^ 32 := by
    have : andThenOr.print.length = 25 := rfl
    omega
  exact ⟨hlen, precedence_kept andThenOr hlen⟩

/-- A condition that holds, as AND binds tighter than OR. -/
def orThenAnd : Condition Bool :=
  .or (.comparison true) (.and (.comparison true) (.comparison false))

/-- The engine takes the text for `(0 = 0 or 0 = 0) and 0 = 1`. -/
theorem and_behind_or :
    (orThenAnd.map plain).print = "0 = 0 or 0 = 0 and 0 = 1 ".toList ∧
      orThenAnd.truth = true ∧ ¬ Kept (orThenAnd.map plain) := by
  have hlen : (orThenAnd.map plain).print.length = 25 := rfl
  refine ⟨rfl, rfl, ?_⟩
  intro hkept
  have hvalue : orThenAnd.value none = orThenAnd.truth := value_eq_of_kept hkept (by omega)
  cases hvalue

end NanoVault.Sql
