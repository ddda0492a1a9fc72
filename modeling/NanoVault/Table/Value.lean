/-
Values, rows and conditions (`global.hpp`, `AstParser` in `selectAstEvaluator.hpp`).

A `std::string` is the list of its characters, each standing for one `char`. A `Row` is
the map the source keeps from column names to values. Evaluating a condition can throw:
a `Fault` is the exception, or `undefined` where the source reads a variable it has not
set, so that nothing is promised about what follows.
-/
import Mathlib
import NanoVault.Lib.SortedMap

namespace NanoVault.Table

open Lib

/-- A `std::string`. -/
abbrev Text := List Char

inductive Fault where
  | runtimeError (what : Text)
  | invalidArgument
  | outOfRange
  | lengthError
  | undefined
deriving DecidableEq, Repr

/-- `Value`, a `std::variant<int64_t, std::string, bool>`. -/
inductive Value where
  | int (v : Int64)
  | text (s : Text)
  | bool (b : Bool)
deriving DecidableEq, Repr

instance : IsStrictTotalOrder Text (fun a b => a < b) := inferInstance

/-- `Row::columns`. -/
abbrev Row := SortedMap (fun a b : Text => a < b) Value

/-- `std::to_string` of a number that is not negative. -/
def digits (n : Nat) : Text := Nat.toDigits 10 n

/-- `std::to_string` of an `int64_t`. -/
def toText (n : Int64) : Text :=
  if n < 0 then '-' :: digits n.toInt.natAbs else digits n.toInt.toNat

/-- `isspace` in the "C" locale. -/
def isSpace (c : Char) : Bool :=
  c == ' ' || c == '\t' || c == '\n' || c == '\x0b' || c == '\x0c' || c == '\r'

/-- An optional sign, and what follows it. -/
def takeSign : Text → Bool × Text
  | '-' :: rest => (true, rest)
  | '+' :: rest => (false, rest)
  | s => (false, s)

/-- `std::stoll`: blanks, a sign, digits; what follows them is ignored. -/
def stoll (s : Text) : Except Fault Int64 :=
  let signed := takeSign (s.dropWhile isSpace)
  let ds := signed.2.takeWhile Char.isDigit
  if ds = [] then throw .invalidArgument
  else
    let n : Int := Nat.ofDigitChars 10 ds 0
    let v := if signed.1 then -n else n
    if v < Int64.minValue.toInt ∨ Int64.maxValue.toInt < v then throw .outOfRange
    else return Int64.ofInt v

def valueToStorageString : Value → Text
  | .int v => toText v
  | .text s => s
  | .bool b => if b then ['1'] else ['0']

/-! ### Conditions -/

inductive ComparisonOperator where
  | equal
  | notEqual
  | greater
  | less
  | greaterEqual
  | lessEqual
deriving DecidableEq, Repr

inductive LogicalOperator where
  | and
  | or
deriving DecidableEq, Repr

/-- The nodes of a WHERE condition. -/
inductive Expression where
  | identifier (name : Text)
  | intLiteral (value : Int32)
  | stringLiteral (value : Text)
  | boolLiteral (value : Bool)
  | comparison (left : Expression) (op : ComparisonOperator) (right : Expression)
  | logical (left : Expression) (op : LogicalOperator) (right : Expression)
  | parenthesized (expression : Expression)
deriving DecidableEq, Repr

def getValueFromRow : Expression → Row → Except Fault Value
  | .identifier name, row =>
      match row.find? name with
      | none => throw (.runtimeError ("Unknown column: ".toList ++ name))
      | some v => return v
  | .intLiteral value, _ => return .int value.toInt64
  | .stringLiteral value, _ => return .text value
  | .boolLiteral value, _ => return .bool value
  | .parenthesized e, row => getValueFromRow e row
  | .comparison .., _ | .logical .., _ =>
      throw (.runtimeError "Invalid expression in getValueFromRow".toList)

def isNumericString (s : Text) : Bool :=
  s ≠ [] && s.all fun c => c.isDigit || c == '-'

/-- The numeric coercion at the head of `compareValues`. -/
def coerce : Value → Value → Except Fault (Value × Value)
  | .text s, .int r =>
      if isNumericString s then return (.int (← stoll s), .int r)
      else throw (.runtimeError "Invalid numeric comparison".toList)
  | .int l, .text s =>
      if isNumericString s then return (.int l, .int (← stoll s))
      else throw (.runtimeError "Invalid numeric comparison".toList)
  | .text l, .text r =>
      if isNumericString l && isNumericString r then
        return (.int (← stoll l), .int (← stoll r))
      else return (.text l, .text r)
  | l, r => return (l, r)

/-- The six comparisons of two values of one type. -/
def ComparisonOperator.test {α : Type} [LinearOrder α] (op : ComparisonOperator) (l r : α) :
    Bool :=
  match op with
  | .equal => l = r
  | .notEqual => l ≠ r
  | .greater => l > r
  | .less => l < r
  | .greaterEqual => l ≥ r
  | .lessEqual => l ≤ r

def compareValues (lhs rhs : Value) (op : ComparisonOperator) : Except Fault Bool := do
  match ← coerce lhs rhs with
  | (.int l, .int r) => return op.test l.toInt r.toInt
  | (.text l, .text r) => return op.test l r
  | (.bool l, .bool r) =>
      match op with
      | .equal => return l == r
      | .notEqual => return l != r
      | _ => throw (.runtimeError "Invalid operator for bool".toList)
  | _ => throw (.runtimeError "Type mismatch in comparison".toList)

/-- `evaluateExpression`; both sides of a logical operator are evaluated. -/
def evaluateExpression : Expression → Row → Except Fault Bool
  | .logical left op right, row => do
      let l ← evaluateExpression left row
      let r ← evaluateExpression right row
      return match op with
        | .and => l && r
        | .or => l || r
  | .comparison left op right, row => do
      compareValues (← getValueFromRow left row) (← getValueFromRow right row) op
  | .parenthesized e, row => evaluateExpression e row
  | e, row => do
      match ← getValueFromRow e row with
      | .bool b => return b
      | _ => throw (.runtimeError "Non-boolean expression in WHERE clause".toList)

/-- `evaluateWhere`; without a WHERE clause every row passes. -/
def evaluateWhere (whereClause : Option Expression) (row : Row) : Except Fault Bool :=
  match whereClause with
  | none => return true
  | some condition => evaluateExpression condition row

/-! ### Exceptions -/

/-- A computation that goes on has not thrown. -/
theorem ok_of_bind {α β : Type} {x : Except Fault α} {f : α → Except Fault β} {b : β}
    (h : x >>= f = .ok b) : ∃ a, x = .ok a ∧ f a = .ok b := by
  cases x with
  | error e => cases h
  | ok a => exact ⟨a, rfl, h⟩

/-! ### Numbers as text -/

theorem digits_injective : Function.Injective digits := by
  intro m n h
  have hm := Nat.ofDigitChars_ten_toDigits (n := m)
  have hn := Nat.ofDigitChars_ten_toDigits (n := n)
  rw [digits, digits] at h
  rw [h] at hm
  exact hm.symm.trans hn

end NanoVault.Table
