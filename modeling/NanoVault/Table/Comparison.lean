/-
The order `compareValues` compares by (`AstParser` in `selectAstEvaluator.hpp`).

Two strings are compared as numbers if both look like numbers, and character by character if not.
So the comparisons of one pair agree with each other, but LESS goes round where one string of three
does not look like a number: "10" < "1a" < "9" < "10" (`less_goes_round`). Among strings that all
look like numbers, or of which one does at most, LESS is an order (`comparison_laws`).
-/
import NanoVault.Table.Value

namespace NanoVault.Table

variable {x y z : Value} {l r s t : Text} {op : ComparisonOperator} {a b c : Int}

/-- The comparison of two values does not throw. -/
def Compares (x y : Value) : Prop := ∃ b, compareValues x y .less = .ok b

/-- `x op y`. -/
def Holds (op : ComparisonOperator) (x y : Value) : Prop := compareValues x y op = .ok true

/-- The number a value stands for. -/
def IsNumber (x : Value) (a : Int) : Prop :=
  match x with
  | .int n => n.toInt = a
  | .text s => isNumericString s = true ∧ ∃ n, stoll s = .ok n ∧ n.toInt = a
  | .bool _ => False

/-- An `int64_t`, or a string that looks like a number. -/
def looksNumeric : Value → Bool
  | .int _ => true
  | .text s => isNumericString s
  | .bool _ => false

/-- Exactly two of the three look like numbers. -/
def Mixed (x y z : Value) : Prop := [x, y, z].countP looksNumeric = 2

/-- The comparisons of three values agree, as those of an order would, up to the transitivity of
LESS. -/
structure ComparisonLaws (x y z : Value) : Prop where
  irrefl : ¬ Holds .less x x
  one : (Holds .less x y ∧ ¬ Holds .equal x y ∧ ¬ Holds .greater x y) ∨
    (¬ Holds .less x y ∧ Holds .equal x y ∧ ¬ Holds .greater x y) ∨
    (¬ Holds .less x y ∧ ¬ Holds .equal x y ∧ Holds .greater x y)
  lessEqual : Holds .lessEqual x y ↔ Holds .less x y ∨ Holds .equal x y
  greaterEqual : Holds .greaterEqual x y ↔ Holds .greater x y ∨ Holds .equal x y
  notEqual : Holds .notEqual x y ↔ ¬ Holds .equal x y
  equalTrans : Holds .equal x y → Holds .equal y z → Holds .equal x z

def LessTransitive (x y z : Value) : Prop := Holds .less x y → Holds .less y z → Holds .less x z

/-- What is asked of three values whose comparisons do not throw. -/
def ConsistentOrder : Prop :=
  ∀ x y z, Compares x y → Compares y z → Compares x z →
    ComparisonLaws x y z ∧ LessTransitive x y z

/-! ### One comparison -/

/-- Two numbers are compared as numbers, two other strings as strings. -/
inductive ComparedAs (x y : Value) : Prop where
  | numbers {a b : Int} : IsNumber x a → IsNumber y b → ComparedAs x y
  | strings {s t : Text} : x = .text s → y = .text t →
      ¬ (isNumericString s = true ∧ isNumericString t = true) → ComparedAs x y

/-- A value that is a number looks like one. -/
theorem IsNumber.looksNumeric (h : IsNumber x a) : looksNumeric x = true := by
  cases x with
  | int n => rfl
  | text s => exact h.1
  | bool b => exact h.elim

/-- It is one number. -/
theorem IsNumber.unique (ha : IsNumber x a) (hb : IsNumber x b) : a = b := by
  cases x with
  | int n => exact Eq.trans (Eq.symm ha) hb
  | text s =>
      obtain ⟨-, n, hn, rfl⟩ := ha
      obtain ⟨-, m, hm, rfl⟩ := hb
      rw [Except.ok.inj (hn.symm.trans hm)]
  | bool b => exact ha.elim

/-- Two numbers are compared as integers. -/
theorem coerce_numbers (hx : IsNumber x a) (hy : IsNumber y b) :
    ∃ n m : Int64, coerce x y = .ok (.int n, .int m) ∧ n.toInt = a ∧ m.toInt = b := by
  cases x with
  | bool b => exact hx.elim
  | int n =>
      cases y with
      | bool b => exact hy.elim
      | int m => exact ⟨n, m, rfl, hx, hy⟩
      | text t =>
          obtain ⟨hnumeric, m, hm, rfl⟩ := hy
          refine ⟨n, m, ?_, hx, rfl⟩
          rw [coerce, if_pos hnumeric, hm]
          rfl
  | text s =>
      obtain ⟨hnumeric, n, hn, rfl⟩ := hx
      cases y with
      | bool b => exact hy.elim
      | int m =>
          refine ⟨n, m, ?_, rfl, hy⟩
          rw [coerce, if_pos hnumeric, hn]
          rfl
      | text t =>
          obtain ⟨hnumeric', m, hm, rfl⟩ := hy
          refine ⟨n, m, ?_, rfl, rfl⟩
          rw [coerce, hnumeric, hnumeric', hn, hm]
          rfl

/-- Two numbers compare as their numbers do. -/
theorem compareValues_numbers (hx : IsNumber x a) (hy : IsNumber y b) (op : ComparisonOperator) :
    compareValues x y op = .ok (op.test a b) := by
  obtain ⟨n, m, hcoerce, rfl, rfl⟩ := coerce_numbers hx hy
  rw [compareValues, hcoerce]
  rfl

/-- Two texts that are not both numeric compare as texts. -/
theorem compareValues_strings (h : ¬ (isNumericString s = true ∧ isNumericString t = true))
    (op : ComparisonOperator) : compareValues (.text s) (.text t) op = .ok (op.test s t) := by
  have hcoerce : coerce (.text s) (.text t) = .ok (.text s, .text t) := by
    rw [coerce, if_neg (by rwa [Bool.and_eq_true])]
    rfl
  rw [compareValues, hcoerce]
  rfl

/-- A comparison holds if it is evaluated to true. -/
theorem holds_of_eq {b : Bool} (h : compareValues x y op = .ok b) : Holds op x y ↔ b = true := by
  rw [Holds, h]
  exact ⟨Except.ok.inj, congrArg _⟩

/-- For numbers it holds if it does of the numbers. -/
theorem holds_numbers (hx : IsNumber x a) (hy : IsNumber y b) (op : ComparisonOperator) :
    Holds op x y ↔ op.test a b = true :=
  holds_of_eq (compareValues_numbers hx hy op)

/-- For texts that are not both numeric it holds if it does of the texts. -/
theorem holds_strings (h : ¬ (isNumericString s = true ∧ isNumericString t = true))
    (op : ComparisonOperator) : Holds op (.text s) (.text t) ↔ op.test s t = true :=
  holds_of_eq (compareValues_strings h op)

/-- A comparison that does not throw is one of numbers or one of strings. -/
theorem Compares.comparedAs (h : Compares x y) : ComparedAs x y := by
  obtain ⟨b, hb⟩ := h
  obtain ⟨⟨u, v⟩, hcoerce, -⟩ := ok_of_bind hb
  cases x with
  | bool p =>
      cases y with
      | bool q => cases hb
      | int m => cases hb
      | text t => cases hb
  | int n =>
      cases y with
      | bool q => cases hb
      | int m => exact .numbers (x := .int n) (y := .int m) rfl rfl
      | text t =>
          rw [coerce] at hcoerce
          split at hcoerce
          · next hnumeric =>
              obtain ⟨m, hm, -⟩ := ok_of_bind hcoerce
              exact .numbers (x := .int n) (y := .text t) rfl ⟨hnumeric, m, hm, rfl⟩
          · cases hcoerce
  | text s =>
      cases y with
      | bool q => cases hb
      | int m =>
          rw [coerce] at hcoerce
          split at hcoerce
          · next hnumeric =>
              obtain ⟨n, hn, -⟩ := ok_of_bind hcoerce
              exact .numbers (x := .text s) (y := .int m) ⟨hnumeric, n, hn, rfl⟩ rfl
          · cases hcoerce
      | text t =>
          rw [coerce] at hcoerce
          split at hcoerce
          · next hnumeric =>
              rw [Bool.and_eq_true] at hnumeric
              obtain ⟨n, hn, hcoerce⟩ := ok_of_bind hcoerce
              obtain ⟨m, hm, -⟩ := ok_of_bind hcoerce
              exact .numbers (x := .text s) (y := .text t) ⟨hnumeric.1, n, hn, rfl⟩
                ⟨hnumeric.2, m, hm, rfl⟩
          · next hnumeric =>
              rw [Bool.and_eq_true] at hnumeric
              exact .strings rfl rfl hnumeric

/-! ### The six operators -/

section Test

variable {α : Type} [LinearOrder α] {u v w : α}

theorem test_less : ComparisonOperator.less.test u v = true ↔ u < v := decide_eq_true_iff

theorem test_equal : ComparisonOperator.equal.test u v = true ↔ u = v := decide_eq_true_iff

theorem test_greater : ComparisonOperator.greater.test u v = true ↔ v < u := decide_eq_true_iff

theorem test_lessEqual : ComparisonOperator.lessEqual.test u v = true ↔ u < v ∨ u = v := by
  rw [← le_iff_lt_or_eq]
  exact decide_eq_true_iff

theorem test_greaterEqual : ComparisonOperator.greaterEqual.test u v = true ↔ v < u ∨ u = v := by
  rw [eq_comm (a := u), ← le_iff_lt_or_eq]
  exact decide_eq_true_iff

theorem test_notEqual : ComparisonOperator.notEqual.test u v = true ↔ ¬ u = v :=
  decide_eq_true_iff

end Test

/-- The comparisons of two values are those of two elements of a linear order. -/
theorem Compares.exists_order (h : Compares x y) : ∃ (α : Type) (_ : LinearOrder α) (u v : α),
    ∀ op, Holds op x y ↔ ComparisonOperator.test op u v = true := by
  cases h.comparedAs with
  | numbers hx hy => exact ⟨Int, inferInstance, _, _, holds_numbers hx hy⟩
  | strings hx hy hnot =>
      subst hx hy
      exact ⟨Text, inferInstance, _, _, holds_strings hnot⟩

/-! ### Three values -/

/-- Values that look numeric and compare are numbers. -/
theorem Compares.numbers (h : Compares x y) (hx : looksNumeric x = true)
    (hy : looksNumeric y = true) : ∃ a b, IsNumber x a ∧ IsNumber y b := by
  cases h.comparedAs with
  | numbers ha hb => exact ⟨_, _, ha, hb⟩
  | strings hs ht hnot =>
      subst hs ht
      exact absurd ⟨hx, hy⟩ hnot

/-- Values that compare and do not both look numeric are texts. -/
theorem Compares.strings (h : Compares x y)
    (hnot : ¬ (looksNumeric x = true ∧ looksNumeric y = true)) :
    ∃ s t, x = .text s ∧ y = .text t := by
  cases h.comparedAs with
  | numbers ha hb => exact absurd ⟨ha.looksNumeric, hb.looksNumeric⟩ hnot
  | strings hs ht _ => exact ⟨_, _, hs, ht⟩

/-- No value is less than itself. -/
theorem not_less_self (x : Value) : ¬ Holds .less x x := by
  intro hless
  have hcompares : Compares x x := ⟨true, hless⟩
  cases hcompares.comparedAs with
  | numbers ha hb =>
      obtain rfl := ha.unique hb
      exact lt_irrefl _ (test_less.mp ((holds_numbers ha ha .less).mp hless))
  | strings hs ht hnot =>
      subst hs
      obtain rfl := Value.text.inj ht
      exact lt_irrefl _ (test_less.mp ((holds_strings hnot .less).mp hless))

/-- Equal values are the same number, or the same string. -/
theorem Compares.equal_cases (hcompares : Compares x y) (h : Holds .equal x y) :
    (∃ a, IsNumber x a ∧ IsNumber y a) ∨
      ∃ s, x = .text s ∧ y = .text s ∧ isNumericString s = false := by
  cases hcompares.comparedAs with
  | numbers ha hb =>
      obtain rfl := test_equal.mp ((holds_numbers ha hb .equal).mp h)
      exact .inl ⟨_, ha, hb⟩
  | strings hs ht hnot =>
      subst hs ht
      obtain rfl := test_equal.mp ((holds_strings hnot .equal).mp h)
      rw [and_self, Bool.not_eq_true] at hnot
      exact .inr ⟨_, rfl, rfl, hnot⟩

/-- Equality is transitive where the values compare. -/
theorem equal_trans (hxy : Compares x y) (hyz : Compares y z) (h : Holds .equal x y)
    (h' : Holds .equal y z) : Holds .equal x z := by
  obtain ⟨a, hx, hy⟩ | ⟨s, rfl, rfl, hnot⟩ := hxy.equal_cases h
  · obtain ⟨b, hy', hz⟩ | ⟨s, rfl, -, hnot⟩ := hyz.equal_cases h'
    · obtain rfl := hy.unique hy'
      exact (holds_numbers hx hz .equal).mpr (test_equal.mpr rfl)
    · rw [hy.1] at hnot
      cases hnot
  · obtain ⟨b, hy', -⟩ | ⟨t, heq, rfl, -⟩ := hyz.equal_cases h'
    · rw [hy'.1] at hnot
      cases hnot
    · obtain rfl := Value.text.inj heq
      exact h

/-- So is order, unless texts and numbers are mixed. -/
theorem less_trans (hxy : Compares x y) (hyz : Compares y z) (hxz : Compares x z)
    (hmixed : ¬ Mixed x y z) : LessTransitive x y z := by
  intro hless hless'
  by_cases hall : looksNumeric x = true ∧ looksNumeric y = true ∧ looksNumeric z = true
  · obtain ⟨hx, hy, hz⟩ := hall
    obtain ⟨a, b, ha, hb⟩ := hxy.numbers hx hy
    obtain ⟨b', c, hb', hc⟩ := hyz.numbers hy hz
    obtain rfl := hb.unique hb'
    have hab := test_less.mp ((holds_numbers ha hb .less).mp hless)
    have hbc := test_less.mp ((holds_numbers hb hc .less).mp hless')
    exact (holds_numbers ha hc .less).mpr (test_less.mpr (hab.trans hbc))
  · -- one of the strings looks like a number at most, so that none is compared as one
    have hpairs : ¬ (looksNumeric x = true ∧ looksNumeric y = true) ∧
        ¬ (looksNumeric y = true ∧ looksNumeric z = true) ∧
        ¬ (looksNumeric x = true ∧ looksNumeric z = true) := by
      rw [Mixed] at hmixed
      simp only [List.countP_cons, List.countP_nil] at hmixed
      cases hx : looksNumeric x <;> cases hy : looksNumeric y <;> cases hz : looksNumeric z <;>
        simp_all
    obtain ⟨r, s, rfl, rfl⟩ := hxy.strings hpairs.1
    obtain ⟨s', t, heq, rfl⟩ := hyz.strings hpairs.2.1
    obtain rfl := Value.text.inj heq
    have hrs := test_less.mp ((holds_strings hpairs.1 .less).mp hless)
    have hst := test_less.mp ((holds_strings hpairs.2.1 .less).mp hless')
    exact (holds_strings hpairs.2.2 .less).mpr (test_less.mpr (hrs.trans hst))

/-- For all three values whose comparisons do not throw, the comparisons agree as those of an order
do, and LESS is transitive unless exactly two of the three look like numbers. -/
theorem comparison_laws (x y z : Value) (hxy : Compares x y) (hyz : Compares y z)
    (hxz : Compares x z) :
    ComparisonLaws x y z ∧ (¬ Mixed x y z → LessTransitive x y z) := by
  obtain ⟨α, _, u, v, hop⟩ := hxy.exists_order
  refine ⟨⟨not_less_self x, ?_, ?_, ?_, ?_, equal_trans hxy hyz⟩, less_trans hxy hyz hxz⟩
  · simp only [hop, test_less, test_equal, test_greater]
    rcases lt_trichotomy u v with hlt | rfl | hgt
    · exact .inl ⟨hlt, hlt.ne, hlt.asymm⟩
    · exact .inr (.inl ⟨lt_irrefl u, rfl, lt_irrefl u⟩)
    · exact .inr (.inr ⟨hgt.asymm, hgt.ne', hgt⟩)
  · simp only [hop, test_less, test_equal, test_lessEqual]
  · simp only [hop, test_greater, test_equal, test_greaterEqual]
  · simp only [hop, test_equal, test_notEqual]

theorem comparison_laws_numbers :
    ComparisonLaws (.int 9) (.text ['1', '0']) (.text ['0', '1', '1']) ∧
      LessTransitive (.int 9) (.text ['1', '0']) (.text ['0', '1', '1']) := by
  have hlaws := comparison_laws (.int 9) (.text ['1', '0']) (.text ['0', '1', '1'])
    ⟨true, by decide⟩ ⟨true, by decide⟩ ⟨true, by decide⟩
  exact ⟨hlaws.1, hlaws.2 (by unfold Mixed; decide)⟩

/-- "10" is less than "1a" and "1a" less than "9", character by character; but 10 is not less
than 9. -/
theorem less_goes_round : ¬ ConsistentOrder := by
  intro h
  have hten : Holds .less (.text ['1', '0']) (.text ['1', 'a']) := by
    unfold Holds
    decide
  have hnine : Holds .less (.text ['1', 'a']) (.text ['9']) := by
    unfold Holds
    decide
  have hback : compareValues (.text ['1', '0']) (.text ['9']) .less = .ok false := by decide
  have hless := (h _ _ _ ⟨true, hten⟩ ⟨true, hnine⟩ ⟨false, hback⟩).2 hten hnine
  rw [Holds, hback] at hless
  cases hless

end NanoVault.Table
