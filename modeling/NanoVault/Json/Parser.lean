/-
Metadata as text (`JSONParser` in `json.hpp`).

`saveToFile` prints a list of values as one array, and `loadFromFile` parses it again. A parser
function is given the text from `pos` on and returns what it leaves of it. `parseArray` and
`parseObject` are one loop over different items, which stops at the closing bracket, and also
where the text ends behind a comma or behind the opening bracket.

`parseValue` is called inside of itself on shorter texts only. It is modelled with a bound on
the depth, and `parse` gives it the length of the text; `parse_eq` is the function as the source
has it, without the bound.
-/
import NanoVault.Catalog.Metadata

namespace NanoVault.Json

open Lib NanoVault.Table
open NanoVault.Catalog (stoi)

/-! ### Values -/

/-- `JSONValue` over a type of doubles; the fields of an object in the order of its map. -/
inductive JSONValue (δ : Type) where
  | null
  | bool (b : Bool)
  | int (v : Int32)
  | double (d : δ)
  | string (s : Text)
  | array (items : List (JSONValue δ))
  | object (fields : List (Text × JSONValue δ))

/-- `std::to_string` and `std::stod` of a `double`: six digits behind the point, or the name of
what is not finite. -/
structure Doubles (δ : Type) where
  to_string : δ → Text
  stod : Text → Except Fault δ
  finite : δ → Bool
  decimal : ∀ d, finite d = true → ∃ minus whole fraction, (minus = [] ∨ minus = ['-']) ∧
    (whole ≠ [] ∧ ∀ c ∈ whole, c.isDigit = true) ∧
    (fraction ≠ [] ∧ ∀ c ∈ fraction, c.isDigit = true) ∧
    to_string d = minus ++ whole ++ '.' :: fraction
  named : ∀ d, finite d = false →
    to_string d ∈ ["inf".toList, "-inf".toList, "nan".toList, "-nan".toList]
  readable : ∀ d, finite d = true → ∃ d', stod (to_string d) = .ok d'

variable {δ α β : Type} {D : Doubles δ} {text rest : Text}

/-! ### Strings and numbers -/

def skipWhitespace (text : Text) : Text := text.dropWhile isSpace

/-- What a character stands for behind a backslash. -/
def unescape (escaped : Char) : Char :=
  match escaped with
  | 'b' => '\x08'
  | 'f' => '\x0c'
  | 'n' => '\n'
  | 'r' => '\r'
  | 't' => '\t'
  | _ => escaped

/-- The loop of `parseString`, behind the opening quote or, with `escape`, behind a backslash. -/
def stringBody : Bool → Text → Except Fault (Text × Text)
  | true, [] => throw (.runtimeError "Unexpected end of string".toList)
  | false, [] => throw (.runtimeError "Unterminated string".toList)
  | true, escaped :: rest => do
      let (s, rest) ← stringBody false rest
      return (unescape escaped :: s, rest)
  | false, c :: rest =>
      if c = '\x22' then return ([], rest)
      else if c = '\x5c' then stringBody true rest
      else do
        let (s, rest) ← stringBody false rest
        return (c :: s, rest)

def parseString : Text → Except Fault (Text × Text)
  | [] => throw (.runtimeError "Expected '\x22' at start of string".toList)
  | c :: rest =>
      if c = '\x22' then stringBody false rest
      else throw (.runtimeError "Expected '\x22' at start of string".toList)

/-- One digit or more. -/
def someDigits (text : Text) : Except Fault (Text × Text) :=
  if text.takeWhile Char.isDigit = [] then throw (.runtimeError "Invalid number".toList)
  else return (text.takeWhile Char.isDigit, text.dropWhile Char.isDigit)

/-- The characters of a sign, if there is one. -/
def takeSign (signs : List Char) : Text → Text × Text
  | [] => ([], [])
  | c :: rest => if c ∈ signs then ([c], rest) else ([], c :: rest)

/-- The part of a number behind the point. -/
def fraction : Text → Except Fault (Text × Text)
  | [] => return ([], [])
  | c :: rest =>
      if c = '.' then do
        let (ds, rest) ← someDigits rest
        return (c :: ds, rest)
      else return ([], c :: rest)

def exponent : Text → Except Fault (Text × Text)
  | [] => return ([], [])
  | c :: rest =>
      if c = 'e' ∨ c = 'E' then do
        let (sign, rest) := takeSign ['+', '-'] rest
        let (ds, rest) ← someDigits rest
        return (c :: sign ++ ds, rest)
      else return ([], c :: rest)

def parseNumber (D : Doubles δ) (text : Text) : Except Fault (JSONValue δ × Text) := do
  let (minus, rest) := takeSign ['-'] text
  let (whole, rest) ← someDigits rest
  let (fraction, rest) ← fraction rest
  let (exponent, rest) ← exponent rest
  let numStr := minus ++ whole ++ fraction ++ exponent
  if fraction = [] ∧ exponent = [] then return (.int (Int32.ofInt (← stoi numStr)), rest)
  else return (.double (← D.stod numStr), rest)

def parseBoolean (text : Text) : Except Fault (Bool × Text) :=
  if "true".toList <+: text then return (true, text.drop 4)
  else if "false".toList <+: text then return (false, text.drop 5)
  else throw (.runtimeError "Invalid boolean value".toList)

def parseNull (text : Text) : Except Fault Text :=
  if "null".toList <+: text then return text.drop 4
  else throw (.runtimeError "Invalid null value".toList)

/-! ### Containers -/

/-- The loop of `parseArray` and `parseObject`. A turn ends behind a comma, so that there are no
more turns than characters. -/
def itemsLoop (item : Text → Except Fault (α × Text)) (close : Char) (unexpected expected : Text) :
    Nat → Text → Except Fault (List α × Text)
  | 0, text => return ([], text)
  | _ + 1, [] => return ([], [])
  | turns + 1, c :: text => do
      let (v, rest) ← item (c :: text)
      match skipWhitespace rest with
      | [] => throw (.runtimeError unexpected)
      | c :: rest =>
          if c = close then return ([v], rest)
          else if c = ',' then do
            let (vs, rest) ← itemsLoop item close unexpected expected turns rest
            return (v :: vs, rest)
          else throw (.runtimeError expected)

/-- What `parseArray` and `parseObject` do behind the opening bracket. -/
def parseItems (item : Text → Except Fault (α × Text)) (close : Char) (unexpected expected : Text)
    (text : Text) : Except Fault (List α × Text) :=
  match skipWhitespace text with
  | [] => return ([], [])
  | c :: rest =>
      if c = close then return ([], rest)
      else itemsLoop item close unexpected expected (c :: rest).length (c :: rest)

/-- The colon behind a key, and the value behind it. -/
def behindKey (value : Text → Except Fault (α × Text)) (key text : Text) :
    Except Fault ((Text × α) × Text) :=
  match skipWhitespace text with
  | [] => throw (.runtimeError "Expected ':' after key".toList)
  | c :: rest =>
      if c = ':' then do
        let (v, rest) ← value rest
        return ((key, v), rest)
      else throw (.runtimeError "Expected ':' after key".toList)

/-- What `parseObject` does with one field. -/
def parseField (value : Text → Except Fault (α × Text)) (text : Text) :
    Except Fault ((Text × α) × Text) := do
  let (key, rest) ← parseString (skipWhitespace text)
  behindKey value key rest

/-- `obj[key] = value` for one field after the other. -/
def assignAll (fields : List (Text × α)) : List (Text × α) :=
  fields.foldl (fun obj field => SortedMap.insertEntry (· < ·) field.1 field.2 obj) []

/-- `parseArray`, behind the '['. -/
def parseArray (value : Text → Except Fault (α × Text)) : Text → Except Fault (List α × Text) :=
  parseItems value ']' "Unexpected end of array".toList "Expected ',' or ']' in array".toList

/-- `parseObject`, behind the opening brace. -/
def parseObject (value : Text → Except Fault (α × Text)) (text : Text) :
    Except Fault (List (Text × α) × Text) := do
  let (fields, rest) ← parseItems (parseField value) '\x7d' "Unexpected end of object".toList
    "Expected ',' or '\x7d' in object".toList text
  return (assignAll fields, rest)

/-- `parseValue`, which calls `value` for what is inside of a container. -/
def parseKind (D : Doubles δ) (value : Text → Except Fault (JSONValue δ × Text)) (text : Text) :
    Except Fault (JSONValue δ × Text) :=
  match skipWhitespace text with
  | [] => throw (.runtimeError "Unexpected end of JSON".toList)
  | c :: rest =>
      if c = '\x22' then do
        let (s, rest) ← parseString (c :: rest)
        return (.string s, rest)
      else if c = '\x7b' then do
        let (fields, rest) ← parseObject value rest
        return (.object fields, rest)
      else if c = '[' then do
        let (items, rest) ← parseArray value rest
        return (.array items, rest)
      else if c = 't' ∨ c = 'f' then do
        let (b, rest) ← parseBoolean (c :: rest)
        return (.bool b, rest)
      else if c = 'n' then do
        let rest ← parseNull (c :: rest)
        return (.null, rest)
      else if c = '-' ∨ c.isDigit then parseNumber D (c :: rest)
      else throw (.runtimeError ("Invalid JSON character: ".toList ++ [c]))

/-- `parseValue`, with a bound on how deep it is called inside of itself. -/
def parseValue (D : Doubles δ) : Nat → Text → Except Fault (JSONValue δ × Text)
  | 0 => fun _ => throw (.runtimeError "Unexpected end of JSON".toList)
  | depth + 1 => parseKind D (parseValue D depth)

/-- `parseValue` from the start of a text. -/
def parse (D : Doubles δ) (text : Text) : Except Fault (JSONValue δ × Text) :=
  parseValue D text.length text

/-! ### Printing -/

/-- The lines of a container or of a file, one item on each. -/
def lines (indent : Nat) : List Text → Text
  | [] => []
  | [item] => List.replicate indent ' ' ++ item ++ "\n".toList
  | item :: items => List.replicate indent ' ' ++ item ++ ",\n".toList ++ lines indent items

/-- A container between its brackets. -/
def container (opening close : Char) (indent : Nat) (items : List Text) : Text :=
  if items = [] then [opening, close]
  else opening :: '\n' :: (lines (indent + 2) items ++ List.replicate indent ' ' ++ [close])

/-- A string between quotes. -/
def quoted (s : Text) : Text := '\x22' :: (s ++ ['\x22'])

mutual

def valueToString (D : Doubles δ) (indent : Nat) : JSONValue δ → Text
  | .null => "null".toList
  | .bool b => if b then "true".toList else "false".toList
  | .int v => toText v.toInt64
  | .double d => D.to_string d
  | .string s => quoted s
  | .array items => container '[' ']' indent (itemTexts D (indent + 2) items)
  | .object fields => container '\x7b' '\x7d' indent (fieldTexts D (indent + 2) fields)

def itemTexts (D : Doubles δ) (indent : Nat) : List (JSONValue δ) → List Text
  | [] => []
  | v :: items => valueToString D indent v :: itemTexts D indent items

def fieldTexts (D : Doubles δ) (indent : Nat) : List (Text × JSONValue δ) → List Text
  | [] => []
  | (key, v) :: fields =>
      (quoted key ++ ": ".toList ++ valueToString D indent v) :: fieldTexts D indent fields

end

/-! ### Files -/

/-- The text `saveToFile` writes. -/
def saveToFile (D : Doubles δ) (data : List (JSONValue δ)) : Text :=
  "[\n".toList ++ lines 2 (data.map (valueToString D 2)) ++ "]".toList

/-- What `loadFromFile` leaves in `data`, or `none` where it returns false. -/
def loadFromFile (D : Doubles δ) (jsonContent : Text) : Option (List (JSONValue δ)) :=
  match parse D jsonContent with
  | .error _ => none
  | .ok (.array arr, _) => some arr
  | .ok (loadedValue, _) => some [loadedValue]

/-- What `appendFromString` leaves in `data`, or `none` where it returns false. -/
def appendFromString (D : Doubles δ) (data : List (JSONValue δ)) (jsonStr : Text) :
    Option (List (JSONValue δ)) :=
  match parse D jsonStr with
  | .error _ => none
  | .ok (value, _) => some (data ++ [value])

/-! ### What is left of a text -/

/-- A parser leaves an end of its text. -/
def LeavesEnd (p : Text → Except Fault (α × Text)) : Prop :=
  ∀ text v rest, p text = .ok (v, rest) → rest <:+ text

/-- Skipping blanks leaves an end of the text. -/
theorem skipWhitespace_suffix (text : Text) : skipWhitespace text <:+ text :=
  List.dropWhile_suffix isSpace

/-- Reading a string leaves an end of the text. -/
theorem stringBody_leavesEnd (escape : Bool) : LeavesEnd (stringBody escape) := by
  intro text
  induction text generalizing escape with
  | nil => cases escape <;> exact fun v rest h => by cases h
  | cons c text ih =>
      intro v rest h
      cases escape with
      | true =>
          obtain ⟨⟨s, rest'⟩, hbody, hret⟩ := ok_of_bind h
          cases hret
          exact (ih false _ _ hbody).trans (List.suffix_cons _ _)
      | false =>
          rw [stringBody] at h
          split_ifs at h
          · cases h
            exact List.suffix_cons _ _
          · exact (ih true _ _ h).trans (List.suffix_cons _ _)
          · obtain ⟨⟨s, rest'⟩, hbody, hret⟩ := ok_of_bind h
            cases hret
            exact (ih false _ _ hbody).trans (List.suffix_cons _ _)

theorem parseString_leavesEnd : LeavesEnd parseString := by
  intro text v rest h
  cases text with
  | nil => cases h
  | cons c text =>
      rw [parseString] at h
      split at h
      · exact (stringBody_leavesEnd false _ _ _ h).trans (List.suffix_cons _ _)
      · cases h

theorem someDigits_leavesEnd : LeavesEnd someDigits := by
  intro text v rest h
  rw [someDigits] at h
  split at h
  · cases h
  · cases h
    exact List.dropWhile_suffix _

theorem takeSign_suffix (signs : List Char) (text : Text) : (takeSign signs text).2 <:+ text := by
  cases text with
  | nil => exact List.suffix_rfl
  | cons c text =>
      rw [takeSign]
      split
      · exact List.suffix_cons _ _
      · exact List.suffix_rfl

/-- So does reading a fraction, which may be absent. -/
theorem fraction_leavesEnd : LeavesEnd fraction := by
  intro text v rest h
  cases text with
  | nil =>
      cases h
      exact List.suffix_rfl
  | cons c text =>
      rw [fraction] at h
      split at h
      · obtain ⟨⟨ds, rest'⟩, hdigits, hret⟩ := ok_of_bind h
        cases hret
        exact (someDigits_leavesEnd _ _ _ hdigits).trans (List.suffix_cons _ _)
      · cases h
        exact List.suffix_rfl

theorem exponent_leavesEnd : LeavesEnd exponent := by
  intro text v rest h
  cases text with
  | nil =>
      cases h
      exact List.suffix_rfl
  | cons c text =>
      rw [exponent] at h
      split at h
      · obtain ⟨⟨ds, rest'⟩, hdigits, hret⟩ := ok_of_bind h
        cases hret
        exact ((someDigits_leavesEnd _ _ _ hdigits).trans (takeSign_suffix _ _)).trans
          (List.suffix_cons _ _)
      · cases h
        exact List.suffix_rfl

/-- What is accepted as a number is an `int` or a `double`. -/
theorem parseNumber_eq_ok {v : JSONValue δ} (h : parseNumber D text = .ok (v, rest)) :
    rest <:+ text ∧ ((∃ i, v = .int i) ∨ ∃ d, v = .double d) := by
  obtain ⟨⟨whole, rest₁⟩, hwhole, h⟩ := ok_of_bind h
  obtain ⟨⟨fraction, rest₂⟩, hfraction, h⟩ := ok_of_bind h
  obtain ⟨⟨exponent, rest₃⟩, hexponent, h⟩ := ok_of_bind h
  have hend : rest₃ <:+ text :=
    ((exponent_leavesEnd _ _ _ hexponent).trans (fraction_leavesEnd _ _ _ hfraction)).trans
      ((someDigits_leavesEnd _ _ _ hwhole).trans (takeSign_suffix _ _))
  dsimp only at h
  split at h
  · obtain ⟨i, -, h⟩ := ok_of_bind h
    cases h
    exact ⟨hend, .inl ⟨_, rfl⟩⟩
  · obtain ⟨d, -, h⟩ := ok_of_bind h
    cases h
    exact ⟨hend, .inr ⟨_, rfl⟩⟩

/-- So does reading a truth value. -/
theorem parseBoolean_leavesEnd : LeavesEnd parseBoolean := by
  intro text b rest h
  rw [parseBoolean] at h
  split_ifs at h
  · cases h
    exact List.drop_suffix _ _
  · cases h
    exact List.drop_suffix _ _

theorem parseNull_suffix (h : parseNull text = .ok rest) : rest <:+ text := by
  rw [parseNull] at h
  split_ifs at h
  · cases h
    exact List.drop_suffix _ _

section Containers

variable {item item' : Text → Except Fault (α × Text)} {close : Char} {unexpected expected : Text}
  {turns turns' n : Nat} {c : Char} {vs : List α}

/-- So does reading items, if reading one does. -/
theorem itemsLoop_leavesEnd (h : LeavesEnd item) (turns : Nat) :
    LeavesEnd (itemsLoop item close unexpected expected turns) := by
  induction turns with
  | zero =>
      intro text vs rest hloop
      cases hloop
      exact List.suffix_rfl
  | succ turns ih =>
      intro text vs rest hloop
      cases text with
      | nil =>
          cases hloop
          exact List.suffix_rfl
      | cons c text =>
          obtain ⟨⟨v, rest₁⟩, hitem, hloop⟩ := ok_of_bind hloop
          have hend := (skipWhitespace_suffix rest₁).trans (h _ _ _ hitem)
          dsimp only at hloop
          split at hloop
          · cases hloop
          · next c' rest₂ hskip =>
              rw [hskip] at hend
              have hend := (List.suffix_cons c' rest₂).trans hend
              split_ifs at hloop
              · cases hloop
                exact hend
              · obtain ⟨⟨vs', rest₃⟩, hrest, hret⟩ := ok_of_bind hloop
                cases hret
                exact (ih _ _ _ hrest).trans hend

theorem parseItems_leavesEnd (h : LeavesEnd item) :
    LeavesEnd (parseItems item close unexpected expected) := by
  intro text vs rest hitems
  have hend := skipWhitespace_suffix text
  rw [parseItems] at hitems
  split at hitems
  · cases hitems
    exact List.nil_suffix
  · next c text' hskip =>
      rw [hskip] at hend
      split_ifs at hitems
      · cases hitems
        exact (List.suffix_cons _ _).trans hend
      · exact (itemsLoop_leavesEnd h _ _ _ _ hitems).trans hend

/-- So does reading a field, if reading its value does. -/
theorem parseField_leavesEnd (h : LeavesEnd item) : LeavesEnd (parseField item) := by
  intro text field rest hfield
  obtain ⟨⟨key, rest₁⟩, hkey, hfield⟩ := ok_of_bind hfield
  have hend := (skipWhitespace_suffix rest₁).trans
    ((parseString_leavesEnd _ _ _ hkey).trans (skipWhitespace_suffix text))
  dsimp only at hfield
  rw [behindKey] at hfield
  split at hfield
  · cases hfield
  · next c rest₂ hskip =>
      rw [hskip] at hend
      split_ifs at hfield
      · obtain ⟨⟨v, rest₃⟩, hvalue, hret⟩ := ok_of_bind hfield
        cases hret
        exact (h _ _ _ hvalue).trans ((List.suffix_cons _ _).trans hend)

/-! ### The bound on the depth -/

/-- Two parsers agree on the texts of up to `n` characters. -/
def Agree (n : Nat) (p q : Text → Except Fault (α × Text)) : Prop :=
  ∀ text, text.length ≤ n → p text = q text

/-- More turns than characters make no difference. -/
theorem itemsLoop_agree (h : Agree n item item') (hends : LeavesEnd item)
    (hn : text.length ≤ n) (hturns : text.length ≤ turns) (hturns' : text.length ≤ turns') :
    itemsLoop item close unexpected expected turns text =
      itemsLoop item' close unexpected expected turns' text := by
  induction turns generalizing turns' text with
  | zero =>
      obtain rfl := List.length_eq_zero_iff.mp (Nat.le_zero.mp hturns)
      cases turns' <;> rfl
  | succ turns ih =>
      cases text with
      | nil => cases turns' <;> rfl
      | cons c text =>
          cases turns' with
          | zero => cases hturns'
          | succ turns' =>
              rw [itemsLoop, itemsLoop, ← h _ hn]
              cases hitem : item (c :: text) with
              | error e => rfl
              | ok r =>
                  obtain ⟨v, rest⟩ := r
                  have hend := ((skipWhitespace_suffix rest).trans
                    (hends _ _ _ hitem)).length_le
                  simp only [bind, Except.bind]
                  cases hskip : skipWhitespace rest with
                  | nil => rfl
                  | cons c' rest =>
                      rw [hskip, List.length_cons, List.length_cons] at hend
                      rw [List.length_cons] at hn hturns hturns'
                      have hloop : itemsLoop item close unexpected expected turns rest =
                          itemsLoop item' close unexpected expected turns' rest :=
                        ih (by omega) (by omega) (by omega)
                      dsimp only
                      rw [hloop]

/-- Parsers that agree on short texts read the same items. -/
theorem parseItems_agree (h : Agree n item item') (hends : LeavesEnd item) :
    Agree n (parseItems item close unexpected expected)
      (parseItems item' close unexpected expected) := by
  intro text hn
  have hend := (skipWhitespace_suffix text).length_le
  rw [parseItems, parseItems]
  cases hskip : skipWhitespace text with
  | nil => rfl
  | cons c rest =>
      rw [hskip] at hend
      dsimp only
      rw [itemsLoop_agree h hends (hend.trans hn) le_rfl le_rfl]

/-- They read the same fields. -/
theorem parseField_agree (h : Agree n item item') :
    Agree n (parseField item) (parseField item') := by
  intro text hn
  rw [parseField, parseField]
  cases hkey : parseString (skipWhitespace text) with
  | error e => rfl
  | ok r =>
      obtain ⟨key, rest⟩ := r
      have hend := ((skipWhitespace_suffix rest).trans
        ((parseString_leavesEnd _ _ _ hkey).trans (skipWhitespace_suffix text))).length_le
      simp only [bind, Except.bind, behindKey]
      cases hskip : skipWhitespace rest with
      | nil => rfl
      | cons c rest =>
          rw [hskip, List.length_cons] at hend
          dsimp only
          rw [h rest (by omega)]

end Containers

section Values

variable {value value' : Text → Except Fault (JSONValue δ × Text)} {n m : Nat}

/-- Reading a value leaves an end of the text, if reading its parts does. -/
theorem parseKind_leavesEnd (h : LeavesEnd value) : LeavesEnd (parseKind D value) := by
  intro text v rest hkind
  have hend := skipWhitespace_suffix text
  rw [parseKind] at hkind
  split at hkind
  · cases hkind
  · next c text' hskip =>
      rw [hskip] at hend
      have hend' := (List.suffix_cons c text').trans hend
      split_ifs at hkind
      · obtain ⟨⟨s, rest⟩, hstring, hret⟩ := ok_of_bind hkind
        cases hret
        exact (parseString_leavesEnd _ _ _ hstring).trans hend
      · obtain ⟨⟨fields, rest⟩, hobject, hret⟩ := ok_of_bind hkind
        cases hret
        obtain ⟨⟨fields', rest'⟩, hitems, hret⟩ := ok_of_bind hobject
        cases hret
        exact (parseItems_leavesEnd (parseField_leavesEnd h) _ _ _ hitems).trans hend'
      · obtain ⟨⟨items, rest⟩, hitems, hret⟩ := ok_of_bind hkind
        cases hret
        exact (parseItems_leavesEnd h _ _ _ hitems).trans hend'
      · obtain ⟨⟨b, rest⟩, hbool, hret⟩ := ok_of_bind hkind
        cases hret
        exact (parseBoolean_leavesEnd _ _ _ hbool).trans hend
      · obtain ⟨rest, hnull, hret⟩ := ok_of_bind hkind
        cases hret
        exact (parseNull_suffix hnull).trans hend
      · exact (parseNumber_eq_ok hkind).1.trans hend

/-- Parsers that agree on short texts read the same values from texts one longer. -/
theorem parseKind_agree (h : Agree n value value') (hends : LeavesEnd value) :
    Agree (n + 1) (parseKind D value) (parseKind D value') := by
  intro text hn
  have hend := (skipWhitespace_suffix text).length_le
  rw [parseKind, parseKind]
  cases hskip : skipWhitespace text with
  | nil => rfl
  | cons c rest =>
      rw [hskip, List.length_cons] at hend
      dsimp only
      rw [parseObject, parseObject, parseArray, parseArray,
        parseItems_agree (parseField_agree h) (parseField_leavesEnd hends) rest (by omega),
        parseItems_agree h hends rest (by omega)]

/-- Reading a value to any depth leaves an end of the text. -/
theorem parseValue_leavesEnd (depth : Nat) : LeavesEnd (parseValue D depth) := by
  induction depth with
  | zero =>
      intro text v rest h
      cases h
  | succ depth ih => exact parseKind_leavesEnd ih

/-- A bound that is at least the length of the text makes no difference. -/
theorem parseValue_depth (hn : text.length ≤ n) (hm : text.length ≤ m) :
    parseValue D n text = parseValue D m text := by
  induction n generalizing m text with
  | zero =>
      obtain rfl := List.length_eq_zero_iff.mp (Nat.le_zero.mp hn)
      cases m <;> rfl
  | succ n ih =>
      cases m with
      | zero =>
          obtain rfl := List.length_eq_zero_iff.mp (Nat.le_zero.mp hm)
          rfl
      | succ m =>
          have hagree : Agree (min n m) (parseValue D n) (parseValue D m) := fun text' h =>
            ih (h.trans (min_le_left n m)) (h.trans (min_le_right n m))
          exact parseKind_agree hagree (parseValue_leavesEnd n) text (by omega)

theorem parse_leavesEnd : LeavesEnd (parse D) := fun text =>
  parseValue_leavesEnd text.length text

/-- `parseValue` as the source has it. -/
theorem parse_eq (text : Text) : parse D text = parseKind D (parse D) text := by
  rw [parse]
  cases hn : text.length with
  | zero =>
      obtain rfl := List.length_eq_zero_iff.mp hn
      rfl
  | succ n =>
      have hagree : Agree n (parseValue D n) (parse D) := fun text' h =>
        parseValue_depth h le_rfl
      exact parseKind_agree hagree (parseValue_leavesEnd n) text hn.le

end Values

end NanoVault.Json
