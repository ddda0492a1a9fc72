/-
STATISTICS against SELECT (`ExecStatStat` in `utility.hpp`).

STATISTICS walks the tree of a column, SELECT reads the rows. The tree has every number once,
the number 0 for a text that is none, and those of the deleted rows; it is summed up in an
`int64_t`. Whatever the schema and the history of a table, the two agree under all
conditions over the column exactly if the tree has the numbers of the live rows, these are
different from each other and their sums are in range (`statistics_agree`). Where the columns
sort as they are declared, behind the primary key, that the tree has them says that the
value of every deleted row is in use again.
-/
import NanoVault.Table.Indexes
import NanoVault.Table.Vacuum

namespace NanoVault.Table

open Lib

/-! ### The walk over a tree -/

/-- The keys of a tree in the order of `forEachKey`. -/
inductive Walk where
  | int (keys : List Int64)
  | text (keys : List Text)

/-- `forEachKey` meets every key once, in ascending order. -/
def Tree.Walks : Tree → Walk → Prop
  | .int keys, .int walk => walk.Pairwise (· < ·) ∧ ∀ key, key ∈ walk ↔ (keys key).isSome
  | .text keys, .text walk => walk.Pairwise (· < ·) ∧ ∀ key, key ∈ walk ↔ (keys key).isSome
  | _, _ => False

inductive StatType where
  | mean
  | count
  | max
  | min
deriving DecidableEq, Repr

/-- The variables of the walk over a tree over `int64_t`. -/
structure Scan where
  count : Int64 := 0
  sum : Int64 := 0
  maxVal : Int64 := Int64.minValue
  minVal : Int64 := Int64.maxValue
deriving DecidableEq, Repr

def Scan.add (s : Scan) (key : Int64) : Scan where
  count := s.count + 1
  sum := s.sum + key
  maxVal := if s.maxVal < key then key else s.maxVal
  minVal := if key < s.minVal then key else s.minVal

/-- The numbers in the answer; the mean is their quotient. -/
inductive Report where
  | noData
  | mean (count sum : Int)
  | count (n : Int)
  | max (v : Int)
  | min (v : Int)
deriving DecidableEq, Repr

def Scan.report (type : StatType) (s : Scan) : Report :=
  if s.count = 0 then .noData
  else
    match type with
    | .mean => .mean s.count.toInt s.sum.toInt
    | .count => .count s.count.toInt
    | .max => .max s.maxVal.toInt
    | .min => .min s.minVal.toInt

/-- The row with one column that the condition is evaluated on. -/
def keyRow (col : Text) (key : Value) : Row := SortedMap.empty.insert col key

/-- The walk over a tree over `int64_t`. -/
def scanLoop (col : Text) (whereClause : Option Expression) : List Int64 → Scan → Except Fault Scan
  | [], s => return s
  | key :: keys, s => do
      let pass ← evaluateWhere whereClause (keyRow col (.int key))
      scanLoop col whereClause keys (if pass then s.add key else s)

/-- The walk over a tree over strings; it counts. -/
def countLoop (col : Text) (whereClause : Option Expression) : List Text → Int64 →
    Except Fault Int64
  | [], count => return count
  | key :: keys, count => do
      let pass ← evaluateWhere whereClause (keyRow col (.text key))
      countLoop col whereClause keys (if pass then count + 1 else count)

def ExecStatStat (forEachKey : Tree → Walk) (type : StatType) (table col : Text)
    (whereClause : Option Expression) (t : TableState) : Except Fault Report :=
  match t.trees col with
  | none =>
      throw (.runtimeError ("No index found for column '".toList ++ col ++
        "' in table '".toList ++ table ++
        "'. Column must have a PRIMARY KEY or UNIQUE index.".toList))
  | some tree =>
      match forEachKey tree with
      | .int keys => do
          let s ← scanLoop col whereClause keys {}
          return s.report type
      | .text keys => do
          let count ← countLoop col whereClause keys 0
          if count = 0 then return .noData
          else
            match type with
            | .mean => throw (.runtimeError "MEAN is not supported on string columns".toList)
            | .max => throw (.runtimeError "MAX is not supported on string columns".toList)
            | .min => throw (.runtimeError "MIN is not supported on string columns".toList)
            | .count => return .count count.toInt

/-! ### Agreement -/

/-- The number a comparison takes a text for. -/
def number? (s : Text) : Option Int64 :=
  if isNumericString s then (stoll s).toOption else none

/-- The numbers in a column of some rows. -/
def columnNumbers (col : Text) (rows : List Row) : List (Option Int64) :=
  rows.map fun row => number? (valueToStorageString (Row.value row col))

/-- What STATISTICS says of some numbers. -/
def expected (type : StatType) (vs : List Int64) : Report :=
  match vs with
  | [] => .noData
  | v :: rest =>
      match type with
      | .mean => .mean vs.length (vs.map Int64.toInt).sum
      | .count => .count vs.length
      | .max => .max (rest.foldl (fun m v => max m v.toInt) v.toInt)
      | .min => .min (rest.foldl (fun m v => min m v.toInt) v.toInt)

/-- No column but this one is in the condition. -/
def Expression.over (col : Text) : Expression → Bool
  | .identifier name => name = col
  | .intLiteral _ | .stringLiteral _ | .boolLiteral _ => true
  | .comparison left _ right => left.over col && right.over col
  | .logical left _ right => left.over col && right.over col
  | .parenthesized e => e.over col

/-- If SELECT and STATISTICS can both evaluate the condition, the column has a number in all rows
SELECT returns, and STATISTICS says of them what it should. -/
def Agrees (forEachKey : Tree → Walk) (table col : Text) (t : TableState)
    (whereClause : Option Expression) : Prop :=
  ∀ rows (report : StatType → Report), select whereClause t = .ok rows →
    (∀ type, ExecStatStat forEachKey type table col whereClause t = .ok (report type)) →
    ∃ vs, columnNumbers col rows = vs.map some ∧ ∀ type, report type = expected type vs

/-- Every sum of some of the numbers is in the range of an `int64_t`, and so is their number. -/
def Summable (vs : List Int64) : Prop :=
  vs.length < 2 ^ 63 ∧
    ((vs.filter fun v => 0 < v.toInt).map Int64.toInt).sum ≤ Int64.maxValue.toInt ∧
    Int64.minValue.toInt ≤ ((vs.filter fun v => v.toInt < 0).map Int64.toInt).sum

/-- The live rows have numbers in the column, which are different, in range, and the keys of the
tree. -/
def Settled (col : Text) (t : TableState) : Prop :=
  ∃ vs, columnNumbers col (liveRows (allColumnNames t.columns) (records t)) = vs.map some ∧
    vs.Nodup ∧ Summable vs ∧
    ∀ tree, t.trees col = some tree → ∀ key, tree.has (.int key) = true ↔ key ∈ vs

variable {col s : Text} {v : Int64} {b : Bool} {e : Expression} {row : Row} {x y : Value}
  {whereClause : Option Expression} {t : TableState} {vs ks : List Int64}

/-! ### Numbers and their texts -/

/-- A text is a number if it looks like one and fits. -/
theorem number?_eq_some : number? s = some v ↔ isNumericString s = true ∧ stoll s = .ok v := by
  rw [number?]
  cases isNumericString s with
  | false => simp
  | true =>
    cases stoll s with
    | error e => simp [Except.toOption]
    | ok u => simp [Except.toOption]

/-- A number, or a number that stands as a text in the row. -/
def Stands (s : Text) (v : Int64) (x y : Value) : Prop := y = x ∨ x = .int v ∧ y = .text s

/-- A value taken from a row or its key compares alike. -/
theorem getValue_number (hover : e.over col = true) (hrow : row.find? col = some (.text s))
    (hvalue : getValueFromRow e (keyRow col (.int v)) = .ok x) :
    ∃ y, getValueFromRow e row = .ok y ∧ Stands s v x y := by
  induction e with
  | identifier name =>
    obtain rfl : name = col := by simpa [Expression.over] using hover
    have hx : x = .int v := by
      simpa [getValueFromRow, keyRow, pure, Except.pure, eq_comm] using hvalue
    refine ⟨.text s, ?_, .inr ⟨hx, rfl⟩⟩
    simp only [getValueFromRow, hrow]
    rfl
  | intLiteral value => exact ⟨x, hvalue, .inl rfl⟩
  | stringLiteral value => exact ⟨x, hvalue, .inl rfl⟩
  | boolLiteral value => exact ⟨x, hvalue, .inl rfl⟩
  | comparison left op right => cases hvalue
  | logical left op right => cases hvalue
  | parenthesized e ih => exact ih hover hvalue

/-- A comparison with a number comes out as one with its text does. -/
theorem compare_number {x' y' : Value} {op : ComparisonOperator} (hs : number? s = some v)
    (hx : Stands s v x x') (hy : Stands s v y y') (h : compareValues x y op = .ok b) :
    compareValues x' y' op = .ok b := by
  obtain ⟨hnumeric, hstoll⟩ := number?_eq_some.mp hs
  suffices hcoerce : coerce x' y' = coerce x y by
    rw [compareValues, hcoerce]
    exact h
  rcases hx with rfl | ⟨rfl, rfl⟩
  · rcases hy with rfl | ⟨rfl, rfl⟩
    · rfl
    · cases x' with
      | int n => simp [coerce, hnumeric, hstoll, bind, Except.bind]
      | bool c => cases h
      | text r =>
        cases hr : isNumericString r with
        | true => simp [coerce, hnumeric, hstoll, hr, bind, Except.bind]
        | false => simp [compareValues, coerce, hr, bind, Except.bind, throw, throwThe,
            MonadExceptOf.throw] at h
  · rcases hy with rfl | ⟨rfl, rfl⟩
    · cases y' with
      | int n => simp [coerce, hnumeric, hstoll, bind, Except.bind]
      | bool c => cases h
      | text r =>
        cases hr : isNumericString r with
        | true => simp [coerce, hnumeric, hstoll, hr, bind, Except.bind]
        | false => simp [compareValues, coerce, hr, bind, Except.bind, throw, throwThe,
            MonadExceptOf.throw] at h
    · simp [coerce, hnumeric, hstoll, bind, Except.bind]

/-- A condition over the column evaluates on a row as on its number. -/
theorem evaluate_number (hs : number? s = some v) (hrow : row.find? col = some (.text s))
    (hover : e.over col = true) (h : evaluateExpression e (keyRow col (.int v)) = .ok b) :
    evaluateExpression e row = .ok b := by
  induction e generalizing b with
  | identifier name =>
    obtain ⟨x, hvalue, hbool⟩ := ok_of_bind h
    obtain rfl : name = col := by simpa [Expression.over] using hover
    obtain rfl : .int v = x := by simpa [getValueFromRow, keyRow, pure, Except.pure] using hvalue
    cases hbool
  | intLiteral value => exact h
  | stringLiteral value => exact h
  | boolLiteral value => exact h
  | comparison left op right =>
    obtain ⟨hleft, hright⟩ := Bool.and_eq_true_iff.mp hover
    obtain ⟨x, hx, h⟩ := ok_of_bind h
    obtain ⟨y, hy, h⟩ := ok_of_bind h
    obtain ⟨x', hx', hsame⟩ := getValue_number hleft hrow hx
    obtain ⟨y', hy', hsame'⟩ := getValue_number hright hrow hy
    rw [evaluateExpression, hx', hy']
    exact compare_number hs hsame hsame' h
  | logical left op right ihl ihr =>
    obtain ⟨hleft, hright⟩ := Bool.and_eq_true_iff.mp hover
    obtain ⟨l, hl, h⟩ := ok_of_bind h
    obtain ⟨r, hr, h⟩ := ok_of_bind h
    rw [evaluateExpression, ihl hleft hl, ihr hright hr]
    exact h
  | parenthesized e ih => exact ih hover h

/-! ### The scan -/

/-- The scan adds up the keys that pass. -/
theorem scanLoop_eq {p : Int64 → Bool} (scan : Scan)
    (hp : ∀ key ∈ ks, evaluateWhere whereClause (keyRow col (.int key)) = .ok (p key)) :
    scanLoop col whereClause ks scan = .ok ((ks.filter p).foldl Scan.add scan) := by
  induction ks generalizing scan with
  | nil => rfl
  | cons key ks ih =>
    have hrest := fun scan => ih scan fun k hk => hp k (List.mem_cons_of_mem _ hk)
    rw [scanLoop, hp key List.mem_cons_self, List.filter_cons]
    cases p key with
    | false => exact hrest scan
    | true => exact hrest (scan.add key)

/-- A scan that returns has evaluated the condition on every key. -/
theorem evaluated_of_scanLoop {scan scan' : Scan}
    (h : scanLoop col whereClause ks scan = .ok scan') :
    ∀ key ∈ ks, ∃ pass, evaluateWhere whereClause (keyRow col (.int key)) = .ok pass := by
  induction ks generalizing scan with
  | nil => exact fun key hkey => absurd hkey List.not_mem_nil
  | cons key ks ih =>
    obtain ⟨pass, hpass, hrest⟩ := ok_of_bind h
    intro k hk
    obtain rfl | hk := List.mem_cons.mp hk
    · exact ⟨pass, hpass⟩
    · exact ih hrest k hk

/-- A scan counts its keys. -/
theorem scan_count (ks : List Int64) (scan : Scan) :
    (ks.foldl Scan.add scan).count = scan.count + Int64.ofNat ks.length := by
  induction ks generalizing scan with
  | nil => simp
  | cons key ks ih =>
    rw [List.foldl_cons, ih, List.length_cons, Int64.ofNat_add, Scan.add]
    rw [Int64.add_assoc, Int64.add_comm 1]
    rfl

/-- A scan adds them up. -/
theorem scan_sum (ks : List Int64) (scan : Scan) :
    (ks.foldl Scan.add scan).sum = scan.sum + Int64.ofInt (ks.map Int64.toInt).sum := by
  induction ks generalizing scan with
  | nil => simp
  | cons key ks ih =>
    rw [List.foldl_cons, ih, List.map_cons, List.sum_cons, Int64.ofInt_add, Int64.ofInt_toInt,
      Scan.add, Int64.add_assoc]

/-- A key raises the maximum to itself. -/
theorem Scan.add_maxVal (scan : Scan) (key : Int64) :
    (scan.add key).maxVal.toInt = max scan.maxVal.toInt key.toInt := by
  rw [Scan.add]
  dsimp only
  split
  · next hlt => exact (max_eq_right (Int64.lt_iff_toInt_lt.mp hlt).le).symm
  · next hle =>
    exact (max_eq_left (Int.not_lt.mp fun hlt => hle (Int64.lt_iff_toInt_lt.mpr hlt))).symm

/-- A key lowers the minimum to itself. -/
theorem Scan.add_minVal (scan : Scan) (key : Int64) :
    (scan.add key).minVal.toInt = min scan.minVal.toInt key.toInt := by
  rw [Scan.add]
  dsimp only
  split
  · next hlt => exact (min_eq_right (Int64.lt_iff_toInt_lt.mp hlt).le).symm
  · next hle =>
    exact (min_eq_left (Int.not_lt.mp fun hlt => hle (Int64.lt_iff_toInt_lt.mpr hlt))).symm

/-- A scan's maximum is that of its keys. -/
theorem scan_maxVal (ks : List Int64) (scan : Scan) :
    (ks.foldl Scan.add scan).maxVal.toInt =
      ks.foldl (fun m key => max m key.toInt) scan.maxVal.toInt := by
  induction ks generalizing scan with
  | nil => rfl
  | cons key ks ih => rw [List.foldl_cons, ih, Scan.add_maxVal, List.foldl_cons]

/-- A scan's minimum is that of its keys. -/
theorem scan_minVal (ks : List Int64) (scan : Scan) :
    (ks.foldl Scan.add scan).minVal.toInt =
      ks.foldl (fun m key => min m key.toInt) scan.minVal.toInt := by
  induction ks generalizing scan with
  | nil => rfl
  | cons key ks ih => rw [List.foldl_cons, ih, Scan.add_minVal, List.foldl_cons]

/-- The order of the keys does not matter. -/
theorem scan_perm {ks' : List Int64} (h : ks.Perm ks') (type : StatType) :
    (ks.foldl Scan.add {}).report type = (ks'.foldl Scan.add {}).report type := by
  have hcount := congrArg Int64.ofNat h.length_eq
  have hsum := congrArg Int64.ofInt (h.map Int64.toInt).sum_eq
  have hmax : (ks.foldl Scan.add {}).maxVal.toInt = (ks'.foldl Scan.add {}).maxVal.toInt := by
    rw [scan_maxVal, scan_maxVal]
    have : RightCommutative fun (m : Int) (key : Int64) => max m key.toInt :=
      ⟨fun m a b => max_right_comm ..⟩
    exact h.foldl_eq _
  have hmin : (ks.foldl Scan.add {}).minVal.toInt = (ks'.foldl Scan.add {}).minVal.toInt := by
    rw [scan_minVal, scan_minVal]
    have : RightCommutative fun (m : Int) (key : Int64) => min m key.toInt :=
      ⟨fun m a b => min_right_comm ..⟩
    exact h.foldl_eq _
  simp only [Scan.report, scan_count, scan_sum, hcount, hsum, hmax, hmin]

/-- Numbers that are few and have a sum in range are reported as they are. -/
theorem scan_report (hlength : vs.length < 2 ^ 63)
    (hsum : Int64.minValue.toInt ≤ (vs.map Int64.toInt).sum ∧
      (vs.map Int64.toInt).sum ≤ Int64.maxValue.toInt) (type : StatType) :
    (vs.foldl Scan.add {}).report type = expected type vs := by
  have hcount : (vs.foldl Scan.add {}).count.toInt = vs.length := by
    rw [scan_count]
    simpa using Int64.toInt_ofNat_of_lt hlength
  have hzero : (vs.foldl Scan.add {}).count = 0 ↔ vs = [] := by
    rw [← Int64.toInt_inj, hcount]
    simp
  have hsum' : (vs.foldl Scan.add {}).sum.toInt = (vs.map Int64.toInt).sum := by
    rw [Int64.toInt_minValue, Int64.toInt_maxValue] at hsum
    rw [scan_sum]
    simpa using Int64.toInt_ofInt_of_le hsum.1 (Int.lt_add_one_of_le hsum.2)
  simp only [Scan.report, hcount, hsum', scan_maxVal, scan_minVal]
  cases vs with
  | nil => exact if_pos (hzero.mpr rfl)
  | cons v vs =>
    rw [if_neg (mt hzero.mp (List.cons_ne_nil v vs)), List.foldl_cons, List.foldl_cons,
      max_eq_right v.minValue_le_toInt, min_eq_right v.toInt_le]
    cases type <;> rfl

/-! ### The rows -/

/-- The row has a text in the column. -/
def HasText (col : Text) (row : Row) : Prop := ∃ s, row.find? col = some (.text s)

/-- A column that is filled has a text. -/
theorem fill_hasText {names values : List Text} (hlength : names.length ≤ values.length)
    (h : HasText col row ∨ col ∈ names) : HasText col (fill row names values) := by
  induction names generalizing row values with
  | nil => exact h.resolve_right List.not_mem_nil
  | cons name names ih =>
    cases values with
    | nil => cases hlength
    | cons value values =>
      refine ih (Nat.le_of_succ_le_succ hlength) ?_
      by_cases hname : name = col
      · exact .inl ⟨value, by rw [hname, SortedMap.find?_insert_self]⟩
      · refine h.imp ?_ fun hmem => (List.mem_cons.mp hmem).resolve_left (Ne.symm hname)
        rintro ⟨s, hs⟩
        exact ⟨s, by rw [SortedMap.find?_insert_ne _ _ hname, hs]⟩

/-- The readers put a text into every column. -/
theorem rowOf_hasText {names : List Text} {r : Record}
    (hlength : names.length = r.values.length + 1) (hcol : col ∈ names) :
    HasText col (rowOf names r) := by
  cases names with
  | nil => cases hcol
  | cons first names =>
    apply fill_hasText (Nat.le_of_eq (Nat.succ.inj hlength))
    refine (List.mem_cons.mp hcol).imp ?_ id
    rintro rfl
    exact ⟨digits r.id, SortedMap.find?_insert_self ..⟩

/-- SELECT returns the rows whose numbers pass. -/
theorem passing_numbers {p : Int64 → Bool} {rows : List Row}
    (hover : ∀ e, whereClause = some e → e.over col = true)
    (htext : ∀ row ∈ rows, HasText col row) (hnumbers : columnNumbers col rows = vs.map some)
    (hp : ∀ v ∈ vs, evaluateWhere whereClause (keyRow col (.int v)) = .ok (p v)) :
    ∃ rows', passing whereClause rows = .ok rows' ∧
      columnNumbers col rows' = (vs.filter p).map some := by
  induction rows generalizing vs with
  | nil =>
    obtain rfl := List.map_eq_nil_iff.mp hnumbers.symm
    exact ⟨[], rfl, rfl⟩
  | cons row rows ih =>
    cases vs with
    | nil => cases hnumbers
    | cons v vs =>
      obtain ⟨hv, hnumbers⟩ := List.cons.inj hnumbers
      obtain ⟨rows', hpassing, hrest⟩ := ih (fun r hr => htext r (List.mem_cons_of_mem _ hr))
        hnumbers fun u hu => hp u (List.mem_cons_of_mem _ hu)
      obtain ⟨s, hs⟩ := htext row List.mem_cons_self
      have hnumber : number? s = some v := by
        simpa only [Row.value, hs, Option.getD_some, valueToStorageString] using hv
      have hpass : evaluateWhere whereClause row = .ok (p v) := by
        have hkey := hp v List.mem_cons_self
        cases whereClause with
        | none => exact hkey
        | some e => exact evaluate_number hnumber hs (hover e rfl) hkey
      rw [passing, hpass, hpassing, List.filter_cons]
      cases p v with
      | false => exact ⟨rows', rfl, hrest⟩
      | true => exact ⟨row :: rows', rfl, congrArg₂ List.cons hv hrest⟩

/-! ### Numbers as literals -/

theorem digits_isDigit (n : Nat) : ∀ c ∈ digits n, c.isDigit = true :=
  fun _ hc => Nat.isDigit_of_mem_toDigits (by decide) (by decide) hc

theorem isSpace_of_isDigit {c : Char} (hc : c.isDigit = true) : isSpace c = false := by
  rw [Bool.eq_false_iff]
  intro hspace
  simp only [isSpace, Bool.or_eq_true, beq_iff_eq] at hspace
  rcases hspace with ((((rfl | rfl) | rfl) | rfl) | rfl) | rfl <;> revert hc <;> decide

theorem takeSign_of_isDigit {c : Char} (hc : c.isDigit = true) (cs : Text) :
    takeSign (c :: cs) = (false, c :: cs) := by
  unfold takeSign
  split
  · next heq =>
    rw [(List.cons.inj heq).1] at hc
    cases hc
  · next heq =>
    rw [(List.cons.inj heq).1] at hc
    cases hc
  · rfl

theorem takeSign_digits (n : Nat) :
    takeSign ((digits n).dropWhile isSpace) = (false, digits n) := by
  obtain ⟨c, cs, hcs⟩ := List.exists_cons_of_ne_nil (Nat.toDigits_ne_nil (n := n) (b := 10))
  have hc : c.isDigit = true := digits_isDigit n c (by rw [digits, hcs]; simp)
  rw [digits, hcs, List.dropWhile_cons_of_neg (by simp [isSpace_of_isDigit hc]),
    takeSign_of_isDigit hc]

/-- A sign and digits are read as the number they stand for. -/
theorem stoll_digits (n : Nat) (negative : Bool) {s : Text} {i : Int}
    (hs : takeSign (s.dropWhile isSpace) = (negative, digits n))
    (hi : i = if negative then -(n : Int) else n)
    (hrange : Int64.minValue.toInt ≤ i ∧ i ≤ Int64.maxValue.toInt) :
    stoll s = .ok (Int64.ofInt i) := by
  have htake : (digits n).takeWhile Char.isDigit = digits n :=
    List.takeWhile_eq_self_iff.mpr (digits_isDigit n)
  have hvalue : Nat.ofDigitChars 10 (digits n) 0 = n := Nat.ofDigitChars_ten_toDigits
  have hne : digits n ≠ [] := Nat.toDigits_ne_nil
  simp only [stoll, hs, htake, hvalue, hne, if_false, ← hi]
  rw [if_neg (by omega)]
  rfl

/-- The digits of a number are read as it, or are out of range. -/
theorem eq_of_stoll_digits {n : Nat} (h : stoll (digits n) = .ok v) : v = Int64.ofNat n := by
  by_cases hrange : (n : Int) ≤ Int64.maxValue.toInt
  · have hlow : Int64.minValue.toInt ≤ (n : Int) := by
      rw [Int64.toInt_minValue]
      omega
    rw [stoll_digits n false (takeSign_digits n) rfl ⟨hlow, hrange⟩] at h
    rw [← Except.ok.inj h, ← Int64.ofInt_eq_ofNat]
    rfl
  · have htake : (digits n).takeWhile Char.isDigit = digits n :=
      List.takeWhile_eq_self_iff.mpr (digits_isDigit n)
    have hvalue : Nat.ofDigitChars 10 (digits n) 0 = n := Nat.ofDigitChars_ten_toDigits
    have hne : digits n ≠ [] := Nat.toDigits_ne_nil
    simp only [stoll, takeSign_digits, htake, hvalue, hne, if_false, Bool.false_eq_true] at h
    rw [if_pos (.inr (Int.not_le.mp hrange))] at h
    cases h

/-- A number is read back from its text. -/
theorem number?_toText (v : Int64) : number? (toText v) = some v := by
  have hlow := v.minValue_le_toInt
  have hhigh := v.toInt_le
  rw [number?_eq_some, toText]
  split
  · next hneg =>
    rw [Int64.lt_iff_toInt_lt, Int64.toInt_zero] at hneg
    constructor
    · simpa [isNumericString] using fun c hc => .inl (digits_isDigit _ c hc)
    · have hv : v.toInt = if true then -(v.toInt.natAbs : Int) else v.toInt.natAbs := by
        rw [if_pos rfl]
        omega
      rw [stoll_digits _ true rfl hv ⟨hlow, hhigh⟩, Int64.ofInt_toInt]
  · next hpos =>
    rw [Int64.lt_iff_toInt_lt, Int64.toInt_zero] at hpos
    constructor
    · have hne : digits v.toInt.toNat ≠ [] := Nat.toDigits_ne_nil
      have hall : (digits v.toInt.toNat).all fun c => c.isDigit || c == '-' := by
        rw [List.all_eq_true]
        intro c hc
        rw [digits_isDigit _ c hc, Bool.true_or]
      simp only [isNumericString, hne, hall, ne_eq, not_false_eq_true, decide_true, Bool.and_self]
    · have hv : v.toInt = if false then -(v.toInt.toNat : Int) else v.toInt.toNat := by
        rw [if_neg Bool.false_ne_true]
        omega
      rw [stoll_digits _ false (takeSign_digits _) hv ⟨hlow, hhigh⟩, Int64.ofInt_toInt]

/-! ### Agreement under a condition -/

section Agreement

variable {k : Nat} {rs : List Record} {tree : Tree} {forEachKey : Tree → Walk} {table : Text}
  {p : Int64 → Bool}

/-- Every live row has a text in every column. -/
theorem Keeps.liveRows_hasText (h : Keeps k t rs) (hcol : col ∈ allColumnNames t.columns) :
    ∀ row ∈ liveRows (allColumnNames t.columns) rs, HasText col row := by
  intro row hrow
  obtain ⟨r, hr, rfl⟩ := List.mem_map.mp hrow
  have hwidth := h.stores.width r (List.mem_filter.mp hr).1
  have hnames := allColumnNames_length h.columns
  exact rowOf_hasText (by omega) hcol

/-- The walk ends with a report of the keys that pass. -/
theorem ExecStatStat_eq (htree : t.trees col = some tree) (hwalk : forEachKey tree = .int ks)
    (hp : ∀ key ∈ ks, evaluateWhere whereClause (keyRow col (.int key)) = .ok (p key))
    (type : StatType) : ExecStatStat forEachKey type table col whereClause t =
      .ok (((ks.filter p).foldl Scan.add {}).report type) := by
  rw [ExecStatStat, htree]
  simp only [hwalk, scanLoop_eq {} hp]
  rfl

/-- Where the condition can be evaluated on all numbers, the two agree if the report of the keys
that pass is that of the numbers that pass. -/
theorem Keeps.agrees_iff (h : Keeps k t rs) (hcol : col ∈ allColumnNames t.columns)
    (htree : t.trees col = some tree) (hwalk : forEachKey tree = .int ks)
    (hnumbers : columnNumbers col (liveRows (allColumnNames t.columns) rs) = vs.map some)
    (hover : ∀ e, whereClause = some e → e.over col = true)
    (hks : ∀ key ∈ ks, evaluateWhere whereClause (keyRow col (.int key)) = .ok (p key))
    (hvs : ∀ v ∈ vs, evaluateWhere whereClause (keyRow col (.int v)) = .ok (p v)) :
    Agrees forEachKey table col t whereClause ↔
      ∀ type, ((ks.filter p).foldl Scan.add {}).report type = expected type (vs.filter p) := by
  obtain ⟨rows, hpassing, hrows⟩ :=
    passing_numbers hover (h.liveRows_hasText hcol) hnumbers hvs
  have hselect : select whereClause t = .ok rows :=
    (h.stores.readable.select h.columns whereClause).trans hpassing
  constructor
  · intro hagrees type
    obtain ⟨vs', hvs', hreport⟩ := hagrees rows _ hselect (ExecStatStat_eq htree hwalk hks)
    have heq := List.map_injective_iff.mpr (Option.some_injective Int64) (hvs'.symm.trans hrows)
    rw [hreport, heq]
  · intro hreport rows' report hselect' hexec
    obtain rfl := Except.ok.inj (hselect.symm.trans hselect')
    refine ⟨_, hrows, fun type => ?_⟩
    rw [← hreport type]
    have heq := hexec type
    rw [ExecStatStat_eq htree hwalk hks] at heq
    exact (Except.ok.inj heq).symm

/-- The comparison of a column with a number. -/
def compareTo (col : Text) (op : ComparisonOperator) (v : Int64) : Expression :=
  .comparison (.identifier col) op (.stringLiteral (toText v))

theorem compareTo_over (op : ComparisonOperator) : (compareTo col op v).over col = true := by
  simp [compareTo, Expression.over]

/-- A comparison with a number tests the key. -/
theorem evaluate_compareTo (op : ComparisonOperator) (key : Int64) :
    evaluateWhere (some (compareTo col op v)) (keyRow col (.int key)) =
      .ok (op.test key.toInt v.toInt) := by
  obtain ⟨hnumeric, hstoll⟩ := number?_eq_some.mp (number?_toText v)
  simp [evaluateWhere, compareTo, evaluateExpression, getValueFromRow, keyRow, compareValues,
    coerce, hnumeric, hstoll, bind, Except.bind, pure, Except.pure]

/-! ### Agreement under all conditions -/

/-- The numbers that pass have a sum between that of the negative and that of the positive
ones. -/
theorem Summable.filter (h : Summable vs) (p : Int64 → Bool) :
    Int64.minValue.toInt ≤ ((vs.filter p).map Int64.toInt).sum ∧
      ((vs.filter p).map Int64.toInt).sum ≤ Int64.maxValue.toInt := by
  have hbetween : ((vs.filter fun v => v.toInt < 0).map Int64.toInt).sum ≤
        ((vs.filter p).map Int64.toInt).sum ∧
      ((vs.filter p).map Int64.toInt).sum ≤
        ((vs.filter fun v => 0 < v.toInt).map Int64.toInt).sum := by
    clear h
    induction vs with
    | nil => exact ⟨le_refl _, le_refl _⟩
    | cons v vs ih =>
      simp only [List.filter_cons]
      rcases lt_trichotomy v.toInt 0 with hv | hv | hv <;> cases p v <;>
        simp [hv, hv.not_gt] <;> omega
  exact ⟨h.2.2.trans hbetween.1, hbetween.2.trans h.2.1⟩

/-- What is reported of a number that is there so many times. -/
theorem expected_replicate (n : Nat) (v : Int64) :
    expected .count (List.replicate n v) = if n = 0 then .noData else .count n := by
  cases n with
  | zero => rfl
  | succ n =>
    rw [if_neg n.succ_ne_zero, List.replicate_succ, expected, List.length_cons,
      List.length_replicate]

/-- The keys equal to a number are its copies. -/
theorem filter_equal (ks : List Int64) (v : Int64) :
    (ks.filter fun key => ComparisonOperator.equal.test key.toInt v.toInt) =
      List.replicate (ks.count v) v := by
  rw [← List.filter_eq]
  apply List.filter_congr
  intro key _
  simp [ComparisonOperator.test, Int64.toInt_inj]

/-- A list of numbers that is reported as it is has a sum in range. -/
theorem sum_of_report {scan : Scan} (h : scan.report .mean = expected .mean vs) :
    Int64.minValue.toInt ≤ (vs.map Int64.toInt).sum ∧
      (vs.map Int64.toInt).sum ≤ Int64.maxValue.toInt := by
  cases vs with
  | nil => exact ⟨by decide, by decide⟩
  | cons v vs =>
    rw [Scan.report] at h
    split at h
    · cases h
    · obtain ⟨-, hsum⟩ := Report.mean.inj h
      rw [← hsum]
      exact ⟨scan.sum.minValue_le_toInt, scan.sum.toInt_le⟩

/-- A count that is right is of fewer keys than a word counts. -/
theorem length_of_report {scan : Scan} (h : scan.report .count = expected .count vs) :
    vs.length < 2 ^ 63 := by
  cases vs with
  | nil => decide
  | cons v vs =>
    rw [Scan.report] at h
    split at h
    · cases h
    · have hlength := Report.count.inj h
      have hlt := scan.count.toInt_lt
      omega

variable {keys : Int64 → Option IndexNode}

/-- Under the conditions `col = v`, `col > 0`, `col < 0` and none, the two can only agree on a
table that is settled. -/
theorem Keeps.settled (h : Keeps k t rs) (hcol : col ∈ allColumnNames t.columns)
    (htree : t.trees col = some (.int keys)) (hwalk : forEachKey (.int keys) = .int ks)
    (hkeys : (Tree.int keys).Walks (.int ks))
    (hagrees : ∀ whereClause : Option Expression, (∀ e, whereClause = some e → e.over col = true) →
      Agrees forEachKey table col t whereClause) : Settled col t := by
  obtain ⟨hsorted, hmem⟩ := hkeys
  have hnodup : ks.Nodup := hsorted.imp fun hlt heq =>
    absurd (heq ▸ Int64.lt_iff_toInt_lt.mp hlt) (lt_irrefl _)
  have hnone : ∀ type, ExecStatStat forEachKey type table col none t =
      .ok (((ks.filter fun _ => true).foldl Scan.add {}).report type) :=
    ExecStatStat_eq htree hwalk fun _ _ => rfl
  obtain ⟨vs, hnumbers, hall⟩ := hagrees none (fun _ he => by cases he) _ _
    ((h.stores.readable.select h.columns none).trans (passing_none _)) hnone
  have hagree : ∀ (op : ComparisonOperator) (v : Int64) (type : StatType),
      ((ks.filter fun key => op.test key.toInt v.toInt).foldl Scan.add {}).report type =
        expected type (vs.filter fun key => op.test key.toInt v.toInt) := by
    intro op v
    have hover : ∀ e, some (compareTo col op v) = some e → e.over col = true := by
      intro e he
      rw [← Option.some.inj he]
      exact compareTo_over op
    exact (h.agrees_iff hcol htree hwalk hnumbers hover (fun key _ => evaluate_compareTo op key)
      fun key _ => evaluate_compareTo op key).mp (hagrees _ hover)
  have hcount : ∀ v, vs.count v = ks.count v := by
    intro v
    have hv := hagree .equal v .count
    have hle := List.nodup_iff_count_le_one.mp hnodup v
    rw [filter_equal, filter_equal, expected_replicate] at hv
    obtain hzero | hone : ks.count v = 0 ∨ ks.count v = 1 := by omega
    · rw [hzero] at hv ⊢
      by_contra hne
      rw [if_neg hne] at hv
      cases hv
    · rw [hone] at hv ⊢
      have hscan : ((List.replicate 1 v).foldl Scan.add {}).report .count = .count 1 := rfl
      rw [hscan] at hv
      split at hv
      · cases hv
      · have := Report.count.inj hv
        omega
  refine ⟨vs, by rw [h.records, hnumbers], ?_, ⟨length_of_report (hall .count), ?_, ?_⟩, ?_⟩
  · rw [List.nodup_iff_count_le_one]
    intro v
    rw [hcount]
    exact List.nodup_iff_count_le_one.mp hnodup v
  · exact (sum_of_report (hagree .greater 0 .mean)).2
  · exact (sum_of_report (hagree .less 0 .mean)).1
  · intro tree htree' key
    obtain rfl := Option.some.inj (htree.symm.trans htree')
    rw [← List.count_pos_iff, hcount, List.count_pos_iff, hmem]
    rfl

/-- On a settled table the two agree. -/
theorem Keeps.agrees (h : Keeps k t rs) (hcol : col ∈ allColumnNames t.columns)
    (htree : t.trees col = some (.int keys)) (hwalk : forEachKey (.int keys) = .int ks)
    (hkeys : (Tree.int keys).Walks (.int ks)) (hsettled : Settled col t)
    (hover : ∀ e, whereClause = some e → e.over col = true) :
    Agrees forEachKey table col t whereClause := by
  obtain ⟨vs, hnumbers, hnodup, hsums, hvs⟩ := hsettled
  obtain ⟨hsorted, hmem⟩ := hkeys
  have hnodup' : ks.Nodup := hsorted.imp fun hlt heq =>
    absurd (heq ▸ Int64.lt_iff_toInt_lt.mp hlt) (lt_irrefl _)
  have hsame : ∀ key, key ∈ ks ↔ key ∈ vs := fun key => by
    rw [← hvs _ htree, hmem]
    rfl
  have hperm : ks.Perm vs := (List.perm_ext_iff_of_nodup hnodup' hnodup).mpr hsame
  intro rows report hselect hexec
  let p : Int64 → Bool := fun key =>
    decide (evaluateWhere whereClause (keyRow col (.int key)) = .ok true)
  have hp : ∀ key ∈ ks, evaluateWhere whereClause (keyRow col (.int key)) = .ok (p key) := by
    have hcount := hexec .count
    rw [ExecStatStat, htree] at hcount
    simp only [hwalk] at hcount
    obtain ⟨scan, hscan, -⟩ := ok_of_bind hcount
    intro key hkey
    obtain ⟨pass, hpass⟩ := evaluated_of_scanLoop hscan key hkey
    cases pass <;> simp [p, hpass]
  rw [h.records] at hnumbers
  refine (h.agrees_iff hcol htree hwalk hnumbers hover hp
    fun v hv => hp v ((hsame v).mpr hv)).mpr (fun type => ?_) rows report hselect hexec
  rw [scan_perm (hperm.filter p)]
  exact scan_report (Nat.lt_of_le_of_lt (List.length_filter_le p vs) hsums.1) (hsums.filter p) type

end Agreement

end NanoVault.Table
