/-
What a printed value is read as.

Strings and keys have to be free of the two characters that mean something between quotes
(`Clean`). Then each kind of value is printed as a text that `parse` reads as the same value
(`Printed.string`, `Printed.array` and so on), and so is every value (`JSONValue.printed`), unless
it has a `double` in it: what is infinite or not a number is refused, any other is read as some
`double`.
-/
import NanoVault.Json.Containers
import NanoVault.Table.Statistics

namespace NanoVault.Json

open Lib NanoVault.Table
open NanoVault.Catalog (stoi)

/-- A string without quotes and backslashes. -/
def Clean (s : Text) : Prop := '\x22' ∉ s ∧ '\x5c' ∉ s

variable {δ α β : Type} {D : Doubles δ} {text rest gap last t q : Text} {o : Option α}

/-! ### Strings -/

/-- A text without quotation marks and backslashes is read up to the mark behind it. -/
theorem stringBody_clean {s : Text} (hs : Clean s) (rest : Text) :
    stringBody false (s ++ '\x22' :: rest) = .ok (s, rest) := by
  induction s with
  | nil => rfl
  | cons c s ih =>
      obtain ⟨hquote, hslash⟩ := hs
      rw [List.mem_cons, not_or] at hquote hslash
      rw [List.cons_append, stringBody, if_neg (Ne.symm hquote.1), if_neg (Ne.symm hslash.1),
        ih ⟨hquote.2, hslash.2⟩]
      rfl

/-- A string without its closing quote is refused. -/
theorem stringBody_cut {s : Text} (hs : Clean s) (hq : q <+: s) :
    (stringBody false q).toOption = none := by
  induction q generalizing s with
  | nil => rfl
  | cons c q ih =>
      cases s with
      | nil => exact absurd hq (by simp)
      | cons d s =>
          obtain ⟨rfl, hrest⟩ := List.cons_prefix_cons.mp hq
          obtain ⟨hquote, hslash⟩ := hs
          rw [List.mem_cons, not_or] at hquote hslash
          obtain ⟨e, he⟩ := toOption_eq_none (ih ⟨hquote.2, hslash.2⟩ hrest)
          rw [stringBody, if_neg (Ne.symm hquote.1), if_neg (Ne.symm hslash.1), he]
          rfl

theorem quoted_append (s rest : Text) : quoted s ++ rest = '\x22' :: (s ++ '\x22' :: rest) := by
  simp [quoted]

/-- A clean string that is cut off is refused. -/
theorem quoted_cut {s : Text} (hs : Clean s) (hq : q <+: quoted s) :
    q = quoted s ∨ q = [] ∨ ∃ q', q = '\x22' :: q' ∧ (stringBody false q').toOption = none := by
  rcases List.prefix_cons_iff.mp hq with rfl | ⟨q', rfl, hq'⟩
  · exact .inr (.inl rfl)
  · rcases prefix_append_cases hq' with hq' | ⟨q'', rfl, hne, hq''⟩
    · exact .inr (.inr ⟨q', rfl, stringBody_cut hs hq'⟩)
    · rcases List.prefix_cons_iff.mp hq'' with rfl | ⟨r, rfl, hr⟩
      · exact absurd rfl hne
      · obtain rfl := List.prefix_nil.mp hr
        exact .inl rfl

/-! ### Values by their first character -/

/-- A quotation mark begins a string. -/
theorem parse_quote (text : Text) : parse D ('\x22' :: text) =
    stringBody false text >>= fun r => .ok (.string r.1, r.2) := by
  rw [parse_eq]
  rfl

/-- A bracket begins an array. -/
theorem parse_bracket (text : Text) : parse D ('[' :: text) =
    parseArray (parse D) text >>= fun r => .ok (.array r.1, r.2) := by
  rw [parse_eq]
  rfl

/-- A brace begins an object. -/
theorem parse_brace (text : Text) : parse D ('\x7b' :: text) =
    parseObject (parse D) text >>= fun r => .ok (.object r.1, r.2) := by
  rw [parse_eq]
  rfl

/-- A minus sign begins a number. -/
theorem parse_minus (text : Text) : parse D ('-' :: text) = parseNumber D ('-' :: text) := by
  rw [parse_eq]
  rfl

/-- A digit begins a number. -/
theorem parse_digit {c : Char} (hc : c.isDigit = true) (text : Text) :
    parse D (c :: text) = parseNumber D (c :: text) := by
  rw [parse_eq, parseKind, skipWhitespace_cons (isSpace_of_isDigit hc)]
  have hne : ∀ d : Char, d.isDigit = false → c ≠ d := by
    rintro d hd rfl
    rw [hc] at hd
    cases hd
  simp [hne, hc]

/-- The parser skips blanks before a value. -/
theorem parse_skipsBlanks : SkipsBlanks (parse D) where
  blanks := by
    intro gap text hgap
    rw [parse_eq, parse_eq text, parseKind, skipWhitespace_blank hgap]
    rfl
  nothing := rfl
  leavesEnd := parse_leavesEnd

/-- It skips them before a field too. -/
theorem parseField_skipsBlanks {value : Text → Except Fault (α × Text)} (h : LeavesEnd value) :
    SkipsBlanks (parseField value) where
  blanks := by
    intro gap text hgap
    rw [parseField, skipWhitespace_blank hgap]
    rfl
  nothing := rfl
  leavesEnd := parseField_leavesEnd h

/-! ### Printed values -/

/-- A string in quotation marks is read back. -/
theorem Printed.string {s : Text} (hs : Clean s) :
    Printed (parse D) (quoted s) (some (.string s)) where
  head := ⟨'\x22', s ++ ['\x22'], rfl, by decide, by decide, by decide⟩
  answers := by
    intro rest _
    rw [quoted_append, parse_quote, stringBody_clean hs]
    rfl
  stops := by
    intro q hq v rest hread
    rcases quoted_cut hs hq with rfl | rfl | ⟨q', rfl, hbody⟩
    · have hquoted := quoted_append s []
      rw [List.append_nil] at hquoted
      rw [hquoted, parse_quote, stringBody_clean hs] at hread
      cases hread
      rfl
    · cases hread
    · rw [parse_quote, toOption_bind, hbody] at hread
      cases hread

/-- An array is read back from its items, however blanks are put between them. -/
theorem Printed.array {ts : List Text} {os : List (Option (JSONValue δ))}
    (h : List.Forall₂ (Printed (parse D)) ts os) (hgap : Blank gap) (hlast : Blank last) :
    Printed (parse D) ('[' :: (listing gap ts ++ (last ++ [']'])))
      ((os.mapM id).map JSONValue.array) where
  head := ⟨'[', _, rfl, by decide, by decide, by decide⟩
  answers := by
    intro rest _
    rw [List.cons_append, List.append_assoc, List.append_assoc, parse_bracket, toOption_bind,
      parseArray, List.singleton_append,
      parseItems_listing parse_skipsBlanks (.inl rfl) hgap hlast h rest]
    cases os.mapM id <;> rfl
  stops := by
    intro q hq v rest hread
    rcases List.prefix_cons_iff.mp hq with rfl | ⟨q', rfl, hq'⟩
    · cases hread
    · rw [parse_bracket, toOption_bind] at hread
      obtain ⟨⟨vs, rest'⟩, hitems, hret⟩ := Option.bind_eq_some_iff.mp hread
      cases hret
      exact parseItems_stops parse_skipsBlanks (.inl rfl) hgap hlast h hq' hitems

/-- An object is read back from its fields, however blanks are put between them. -/
theorem Printed.object {ts : List Text} {os : List (Option (Text × JSONValue δ))}
    (h : List.Forall₂ (Printed (parseField (parse D))) ts os) (hgap : Blank gap)
    (hlast : Blank last) :
    Printed (parse D) ('\x7b' :: (listing gap ts ++ (last ++ ['\x7d'])))
      ((os.mapM id).map fun fields => .object (assignAll fields)) where
  head := ⟨'\x7b', _, rfl, by decide, by decide, by decide⟩
  answers := by
    intro rest _
    rw [List.cons_append, List.append_assoc, List.append_assoc, parse_brace, toOption_bind,
      parseObject, toOption_bind, List.singleton_append,
      parseItems_listing (parseField_skipsBlanks parse_leavesEnd) (.inr rfl) hgap hlast h rest]
    cases os.mapM id <;> rfl
  stops := by
    intro q hq v rest hread
    rcases List.prefix_cons_iff.mp hq with rfl | ⟨q', rfl, hq'⟩
    · cases hread
    · rw [parse_brace, toOption_bind, parseObject, toOption_bind] at hread
      obtain ⟨⟨fields, rest'⟩, hobject, hret⟩ := Option.bind_eq_some_iff.mp hread
      cases hret
      obtain ⟨⟨fields', rest''⟩, hitems, hret⟩ := Option.bind_eq_some_iff.mp hobject
      cases hret
      exact parseItems_stops (parseField_skipsBlanks parse_leavesEnd) (.inr rfl) hgap hlast h hq'
        hitems

theorem parseField_quote {value : Text → Except Fault (α × Text)} (text : Text) :
    parseField value ('\x22' :: text) =
      stringBody false text >>= fun r => behindKey value r.1 r.2 := rfl

theorem behindKey_colon {value : Text → Except Fault (α × Text)} (key text : Text) :
    behindKey value key (':' :: text) = value text >>= fun r => .ok ((key, r.1), r.2) := rfl

/-- A field is read back from its key and its value. -/
theorem Printed.field {value : Text → Except Fault (α × Text)} (hvalue : SkipsBlanks value)
    {key colon : Text} (hkey : Clean key) (hcolon : Blank colon) (h : Printed value t o) :
    Printed (parseField value) (quoted key ++ ':' :: (colon ++ t)) (o.map fun v => (key, v)) where
  head := ⟨'\x22', _, quoted_append key _, by decide, by decide, by decide⟩
  answers := by
    intro rest hrest
    have hanswer := h.answers rest hrest
    rw [← hvalue.blanks colon _ hcolon] at hanswer
    rw [List.append_assoc, quoted_append, parseField_quote, stringBody_clean hkey, List.cons_append,
      List.append_assoc]
    simp only [bind, Except.bind]
    rw [behindKey_colon, toOption_bind, hanswer]
    cases o <;> rfl
  stops := by
    intro q hq v rest hread
    rcases prefix_append_cases hq with hq | ⟨q₁, rfl, hq₁, hq⟩
    · rcases quoted_cut hkey hq with rfl | rfl | ⟨q', rfl, hbody⟩
      · have hquoted := quoted_append key []
        rw [List.append_nil] at hquoted
        rw [hquoted, parseField_quote, stringBody_clean hkey] at hread
        cases hread
      · cases hread
      · rw [parseField_quote, toOption_bind, hbody] at hread
        cases hread
    · rcases List.prefix_cons_iff.mp hq with rfl | ⟨q₂, rfl, hq₂⟩
      · exact absurd rfl hq₁
      rw [quoted_append, parseField_quote, stringBody_clean hkey] at hread
      simp only [bind, Except.bind] at hread
      rw [behindKey_colon, toOption_bind] at hread
      obtain ⟨⟨v', rest'⟩, hvalue', hret⟩ := Option.bind_eq_some_iff.mp hread
      cases hret
      rcases prefix_append_cases hq₂ with hq₂ | ⟨q₃, rfl, -, hq₃⟩
      · have hblank := hvalue.blanks q₂ [] (hcolon.cutOff hq₂)
        rw [List.append_nil] at hblank
        rw [hblank, hvalue.nothing] at hvalue'
        cases hvalue'
      · rw [hvalue.blanks _ _ hcolon] at hvalue'
        exact h.stops q₃ hq₃ v' _ hvalue'

/-- A word that is read as a value or refused; every shorter one is refused. -/
theorem Printed.word {w : Text} {o : Option (JSONValue δ)}
    (hhead : ∃ c cs, w = c :: cs ∧ isSpace c = false ∧ c ≠ ']' ∧ c ≠ '\x7d')
    (hword : ∀ rest, (parse D (w ++ rest)).toOption = o.map fun v => (v, rest))
    (hcut : ∀ q ∈ w.inits, q ≠ w → (parse D q).toOption = none) : Printed (parse D) w o where
  head := hhead
  answers := fun rest _ => hword rest
  stops := by
    intro q hq v rest hread
    by_cases hw : q = w
    · have hword' := hword []
      rw [List.append_nil] at hword'
      rw [hw, hword'] at hread
      obtain ⟨v', -, heq⟩ := Option.map_eq_some_iff.mp hread
      exact (congrArg Prod.snd heq).symm
    · rw [hcut q ((List.mem_inits _ _).mpr hq) hw] at hread
      cases hread

/-- The word null is read back. -/
theorem Printed.null : Printed (parse D) "null".toList (some .null) := by
  refine .word ⟨'n', _, rfl, by decide, by decide, by decide⟩ (fun rest => rfl) ?_
  intro q hq hne
  fin_cases hq <;> first | rfl | exact absurd rfl hne

/-- The words true and false are read back. -/
theorem Printed.bool (b : Bool) :
    Printed (parse D) (if b then "true".toList else "false".toList) (some (.bool b)) := by
  cases b with
  | false =>
      refine .word ⟨'f', _, rfl, by decide, by decide, by decide⟩ (fun rest => rfl) ?_
      intro q hq hne
      fin_cases hq <;> first | rfl | exact absurd rfl hne
  | true =>
      refine .word ⟨'t', _, rfl, by decide, by decide, by decide⟩ (fun rest => rfl) ?_
      intro q hq hne
      fin_cases hq <;> first | rfl | exact absurd rfl hne

/-! ### Numbers -/

/-- A sign, or none. -/
def Minus (minus : Text) : Prop := minus = [] ∨ minus = ['-']

/-- Digits, at least one. -/
structure Digits (ds : Text) : Prop where
  nonempty : ds ≠ []
  digits : ∀ c ∈ ds, c.isDigit = true

variable {minus whole fraction : Text}

/-- Digits are read up to the first character that is none. -/
theorem someDigits_stop {ds : Text} (hds : Digits ds)
    (hrest : ∀ c, rest.head? = some c → c.isDigit = false) :
    someDigits (ds ++ rest) = .ok (ds, rest) := by
  have hnone : rest.takeWhile Char.isDigit = [] := by
    cases rest with
    | nil => rfl
    | cons c rest => rw [List.takeWhile_cons, hrest c rfl]; rfl
  have htake : (ds ++ rest).takeWhile Char.isDigit = ds := by
    rw [List.takeWhile_append_of_pos hds.digits, hnone, List.append_nil]
  have hdrop : (ds ++ rest).dropWhile Char.isDigit = rest := by
    rw [List.dropWhile_append_of_pos hds.digits]
    cases rest with
    | nil => rfl
    | cons c rest => rw [List.dropWhile_cons, hrest c rfl]; rfl
  rw [someDigits, htake, hdrop, if_neg hds.nonempty]
  rfl

/-- The sign is read apart from the digits. -/
theorem takeSign_minus (hminus : Minus minus) (hwhole : Digits whole) (rest : Text) :
    takeSign ['-'] (minus ++ (whole ++ rest)) = (minus, whole ++ rest) := by
  rcases hminus with rfl | rfl
  · obtain ⟨c, cs, rfl⟩ := List.exists_cons_of_ne_nil hwhole.nonempty
    have hc := hwhole.digits c List.mem_cons_self
    have hne : c ∉ ['-'] := by
      rw [List.mem_singleton]
      rintro rfl
      cases hc
    rw [List.nil_append, List.cons_append, takeSign, if_neg hne]
  · rfl

/-- Without a point there is no fraction. -/
theorem fraction_stop (hrest : Follows rest) : Json.fraction rest = .ok ([], rest) := by
  cases rest with
  | nil => rfl
  | cons c rest => rw [Json.fraction, if_neg (hrest c rfl).2.1]; rfl

/-- Without an e there is no exponent. -/
theorem exponent_stop (hrest : Follows rest) : exponent rest = .ok ([], rest) := by
  cases rest with
  | nil => rfl
  | cons c rest =>
      obtain ⟨-, -, he, hE⟩ := hrest c rfl
      rw [exponent, if_neg (by simp [he, hE])]
      rfl

/-- A number without a point is an `int`. -/
theorem parseNumber_int (hminus : Minus minus) (hwhole : Digits whole) (hrest : Follows rest) :
    parseNumber D (minus ++ (whole ++ rest)) =
      stoi (minus ++ whole) >>= fun i => .ok (.int (Int32.ofInt i), rest) := by
  rw [parseNumber, takeSign_minus hminus hwhole]
  dsimp only
  rw [someDigits_stop hwhole fun c hc => (hrest c hc).1]
  simp only [bind, Except.bind, fraction_stop hrest, exponent_stop hrest, List.append_nil,
    and_self, if_true]
  rfl

/-- A number with a point is a `double`. -/
theorem parseNumber_double (hminus : Minus minus) (hwhole : Digits whole)
    (hfraction : Digits fraction) (hrest : Follows rest) :
    parseNumber D (minus ++ (whole ++ '.' :: (fraction ++ rest))) =
      D.stod (minus ++ whole ++ '.' :: fraction) >>= fun d => .ok (.double d, rest) := by
  rw [parseNumber, takeSign_minus hminus hwhole]
  dsimp only
  rw [someDigits_stop hwhole fun c hc => by cases hc; rfl]
  simp only [bind, Except.bind, Json.fraction, if_true,
    someDigits_stop hfraction fun c hc => (hrest c hc).1, pure, Except.pure, exponent_stop hrest,
    List.append_nil, reduceCtorEq, false_and, if_false]

theorem parse_number (hminus : Minus minus) (hwhole : Digits whole) (rest : Text) :
    parse D (minus ++ (whole ++ rest)) = parseNumber D (minus ++ (whole ++ rest)) := by
  rcases hminus with rfl | rfl
  · obtain ⟨c, cs, rfl⟩ := List.exists_cons_of_ne_nil hwhole.nonempty
    exact parse_digit (hwhole.digits c List.mem_cons_self) _
  · exact parse_minus _

/-- A number that is cut off is refused, or read to the end. -/
theorem parseNumber_stops (hminus : Minus minus) (hwhole : Digits whole) {tail : Text}
    (htail : tail = [] ∨ ∃ fraction, Digits fraction ∧ tail = '.' :: fraction)
    (hq : q <+: minus ++ (whole ++ tail)) {v : JSONValue δ}
    (hread : (parse D q).toOption = some (v, rest)) : rest = [] := by
  have hnil : Follows [] := fun c hc => by cases hc
  have hint : ∀ ds, Digits ds → parse D (minus ++ ds) =
      stoi (minus ++ ds) >>= fun i => .ok (.int (Int32.ofInt i), []) := by
    intro ds hds
    have hparse := parse_number (D := D) hminus hds []
    rw [List.append_nil] at hparse
    rw [hparse]
    have hnumber := parseNumber_int (D := D) hminus hds hnil
    rwa [List.append_nil] at hnumber
  rcases prefix_append_cases hq with hq | ⟨q₁, rfl, hq₁, hq⟩
  · rcases hminus with rfl | rfl
    · obtain rfl := List.prefix_nil.mp hq
      cases hread
    · rcases List.prefix_cons_iff.mp hq with rfl | ⟨q', rfl, hq'⟩
      · cases hread
      · obtain rfl := List.prefix_nil.mp hq'
        cases hread
  rcases prefix_append_cases hq with hq | ⟨q₂, rfl, hq₂, hq⟩
  · rw [hint q₁ ⟨hq₁, fun c hc => hwhole.digits c (hq.subset hc)⟩, toOption_bind] at hread
    obtain ⟨i, -, hret⟩ := Option.bind_eq_some_iff.mp hread
    cases hret
    rfl
  rcases htail with rfl | ⟨fraction, hfraction, rfl⟩
  · exact absurd (List.prefix_nil.mp hq) hq₂
  rcases List.prefix_cons_iff.mp hq with rfl | ⟨q₃, rfl, hq₃⟩
  · exact absurd rfl hq₂
  rw [parse_number hminus hwhole] at hread
  by_cases hnone : q₃ = []
  · subst hnone
    rw [parseNumber, takeSign_minus hminus hwhole] at hread
    dsimp only at hread
    rw [someDigits_stop hwhole fun c hc => by cases hc; rfl] at hread
    cases hread
  · have hnumber := parseNumber_double (D := D) hminus hwhole
      ⟨hnone, fun c hc => hfraction.digits c (hq₃.subset hc)⟩ hnil
    rw [List.append_nil] at hnumber
    rw [hnumber, toOption_bind] at hread
    obtain ⟨d, -, hret⟩ := Option.bind_eq_some_iff.mp hread
    cases hret
    rfl

theorem head_number (hminus : Minus minus) (hwhole : Digits whole) (tail : Text) :
    ∃ c cs, minus ++ (whole ++ tail) = c :: cs ∧ isSpace c = false ∧ c ≠ ']' ∧ c ≠ '\x7d' := by
  rcases hminus with rfl | rfl
  · obtain ⟨c, cs, rfl⟩ := List.exists_cons_of_ne_nil hwhole.nonempty
    have hc := hwhole.digits c List.mem_cons_self
    refine ⟨c, cs ++ tail, rfl, isSpace_of_isDigit hc, ?_, ?_⟩
    · rintro rfl
      cases hc
    · rintro rfl
      cases hc
  · exact ⟨'-', whole ++ tail, rfl, by decide, by decide, by decide⟩

/-- The text of a number is a sign and digits. -/
theorem toText_eq (v : Int64) : ∃ minus whole, Minus minus ∧ Digits whole ∧
    toText v = minus ++ whole := by
  have hdigits : ∀ n, Digits (digits n) := fun n => ⟨Nat.toDigits_ne_nil, digits_isDigit n⟩
  rw [toText]
  split
  · exact ⟨['-'], _, .inr rfl, hdigits _, rfl⟩
  · exact ⟨[], _, .inl rfl, hdigits _, rfl⟩

/-- An integer of 32 bits is read back from its digits. -/
theorem stoi_toText (v : Int32) : stoi (toText v.toInt64) = .ok v.toInt := by
  have hread := (number?_eq_some.mp (number?_toText v.toInt64)).2
  have hlow := v.minValue_le_toInt
  have hhigh := v.toInt_le
  rw [Int32.toInt_minValue] at hlow
  rw [Int32.toInt_maxValue] at hhigh
  rw [stoi, hread]
  simp only [bind, Except.bind, Int32.toInt_toInt64]
  rw [if_neg (by rw [Catalog.intMax]; omega)]
  rfl

/-- An integer is read back. -/
theorem Printed.int (v : Int32) : Printed (parse D) (toText v.toInt64) (some (.int v)) := by
  have hstoi := stoi_toText v
  obtain ⟨minus, whole, hminus, hwhole, htext⟩ := toText_eq v.toInt64
  rw [htext] at hstoi ⊢
  constructor
  · have hhead := head_number hminus hwhole []
    rwa [List.append_nil] at hhead
  · intro rest hrest
    rw [List.append_assoc, parse_number hminus hwhole, parseNumber_int hminus hwhole hrest, hstoi]
    simp only [bind, Except.bind, Int32.ofInt_toInt]
    rfl
  · intro q hq w rest hread
    exact parseNumber_stops hminus hwhole (.inl rfl) (by rwa [List.append_nil]) hread

/-- What is finite is read as some `double`, what is not is refused. -/
theorem Printed.double (d : δ) : ∃ o : Option (JSONValue δ),
    Printed (parse D) (D.to_string d) o ∧ (o.isSome = true ↔ D.finite d = true) := by
  cases hfinite : D.finite d with
  | true =>
      obtain ⟨minus, whole, fraction, hminus, hwhole, hfraction, htext⟩ := D.decimal d hfinite
      obtain ⟨d', hread⟩ := D.readable d hfinite
      have hwhole : Digits whole := ⟨hwhole.1, hwhole.2⟩
      have hfraction : Digits fraction := ⟨hfraction.1, hfraction.2⟩
      rw [htext] at hread ⊢
      refine ⟨some (.double d'), ⟨?_, ?_, ?_⟩, by simp⟩
      · rw [List.append_assoc]
        exact head_number hminus hwhole _
      · intro rest hrest
        have heq : minus ++ whole ++ '.' :: fraction ++ rest =
            minus ++ (whole ++ '.' :: (fraction ++ rest)) := by simp
        rw [heq, parse_number hminus hwhole, parseNumber_double hminus hwhole hfraction hrest, hread]
        rfl
      · intro q hq w rest hcut
        rw [List.append_assoc] at hq
        exact parseNumber_stops hminus hwhole (.inr ⟨fraction, hfraction, rfl⟩) hq hcut
  | false =>
      have hnamed := D.named d hfinite
      refine ⟨none, ?_, by simp⟩
      simp only [List.mem_cons, List.not_mem_nil, or_false] at hnamed
      rcases hnamed with hname | hname | hname | hname <;>
      · rw [hname]
        refine .word ⟨_, _, rfl, by decide, by decide, by decide⟩ (fun rest => rfl) ?_
        intro q hq _
        fin_cases hq <;> rfl

/-! ### Values -/

/-- The strings and keys that stand in a value itself. -/
def JSONValue.names : JSONValue δ → List Text
  | .string s => [s]
  | .object fields => fields.map Prod.fst
  | _ => []

mutual

/-- A value and all values inside of it. -/
def JSONValue.parts : JSONValue δ → List (JSONValue δ)
  | .array items => .array items :: itemParts items
  | .object fields => .object fields :: fieldParts fields
  | v => [v]

def itemParts : List (JSONValue δ) → List (JSONValue δ)
  | [] => []
  | v :: items => v.parts ++ itemParts items

def fieldParts : List (Text × JSONValue δ) → List (JSONValue δ)
  | [] => []
  | (_, v) :: fields => v.parts ++ fieldParts fields

end

/-- No string and no key has a quote or a backslash. -/
def JSONValue.Clean (v : JSONValue δ) : Prop := ∀ w ∈ v.parts, ∀ s ∈ w.names, Json.Clean s

/-- Every object is a `std::map`, in the order of its keys. -/
def JSONValue.Ordered (v : JSONValue δ) : Prop :=
  ∀ fields, JSONValue.object fields ∈ v.parts → fields.Pairwise fun a b => a.1 < b.1

/-- No `double` is infinite or not a number. -/
def JSONValue.Finite (D : Doubles δ) (v : JSONValue δ) : Prop :=
  ∀ d, JSONValue.double d ∈ v.parts → D.finite d = true

/-- There is no `double`. -/
def JSONValue.Plain (v : JSONValue δ) : Prop := ∀ d, JSONValue.double d ∉ v.parts

theorem itemParts_eq (items : List (JSONValue δ)) :
    itemParts items = items.flatMap JSONValue.parts := by
  induction items with
  | nil => rfl
  | cons v items ih => rw [itemParts, ih, List.flatMap_cons]

theorem fieldParts_eq (fields : List (Text × JSONValue δ)) :
    fieldParts fields = fields.flatMap fun f => f.2.parts := by
  induction fields with
  | nil => rfl
  | cons f fields ih => rw [fieldParts, ih, List.flatMap_cons]

theorem mem_parts_array {items : List (JSONValue δ)} {v w : JSONValue δ} (hv : v ∈ items)
    (hw : w ∈ v.parts) : w ∈ (JSONValue.array items).parts := by
  rw [JSONValue.parts, itemParts_eq]
  exact List.mem_cons_of_mem _ (List.mem_flatMap.mpr ⟨v, hv, hw⟩)

theorem mem_parts_object {fields : List (Text × JSONValue δ)} {f : Text × JSONValue δ}
    {w : JSONValue δ} (hf : f ∈ fields) (hw : w ∈ f.2.parts) :
    w ∈ (JSONValue.object fields).parts := by
  rw [JSONValue.parts, fieldParts_eq]
  exact List.mem_cons_of_mem _ (List.mem_flatMap.mpr ⟨f, hf, hw⟩)

/-- A value is a part of itself. -/
theorem self_mem_parts (v : JSONValue δ) : v ∈ v.parts := by
  cases v <;> exact List.mem_cons_self

/-- Induction on a value: what holds of the items of an array and of the values of an object holds
of these. -/
@[elab_as_elim]
theorem JSONValue.induct {motive : JSONValue δ → Prop} (null : motive .null)
    (bool : ∀ b, motive (.bool b)) (int : ∀ v, motive (.int v)) (double : ∀ d, motive (.double d))
    (string : ∀ s, motive (.string s))
    (array : ∀ items, (∀ v ∈ items, motive v) → motive (.array items))
    (object : ∀ fields, (∀ f ∈ fields, motive f.2) → motive (.object fields))
    (v : JSONValue δ) : motive v :=
  match v with
  | .null => null
  | .bool b => bool b
  | .int v => int v
  | .double d => double d
  | .string s => string s
  | .array items => array items fun v hv => by
      have := List.sizeOf_lt_of_mem hv
      exact induct null bool int double string array object v
  | .object fields => object fields fun f hf => by
      have := List.sizeOf_lt_of_mem hf
      have : sizeOf f.2 < sizeOf f := by
        obtain ⟨key, value⟩ := f
        simp
      exact induct null bool int double string array object f.2

/-- The items of a clean array are clean. -/
theorem JSONValue.clean_array {items : List (JSONValue δ)} (h : (JSONValue.array items).Clean) :
    ∀ v ∈ items, v.Clean := fun _ hv w hw => h w (mem_parts_array hv hw)

/-- The keys and values of a clean object are clean. -/
theorem JSONValue.clean_object {fields : List (Text × JSONValue δ)}
    (h : (JSONValue.object fields).Clean) : ∀ f ∈ fields, Json.Clean f.1 ∧ f.2.Clean :=
  fun f hf => ⟨h _ (self_mem_parts _) f.1 (List.mem_map_of_mem hf),
    fun w hw => h w (mem_parts_object hf hw)⟩

/-- An array is finite if its items are. -/
theorem JSONValue.finite_array {items : List (JSONValue δ)} :
    (JSONValue.array items).Finite D ↔ ∀ v ∈ items, v.Finite D := by
  constructor
  · exact fun h v hv d hd => h d (mem_parts_array hv hd)
  · intro h d hd
    rw [JSONValue.parts, itemParts_eq, List.mem_cons, List.mem_flatMap] at hd
    obtain hd | ⟨v, hv, hd⟩ := hd
    · cases hd
    · exact h v hv d hd

/-- An object is finite if its values are. -/
theorem JSONValue.finite_object {fields : List (Text × JSONValue δ)} :
    (JSONValue.object fields).Finite D ↔ ∀ f ∈ fields, f.2.Finite D := by
  constructor
  · exact fun h f hf d hd => h d (mem_parts_object hf hd)
  · intro h d hd
    rw [JSONValue.parts, fieldParts_eq, List.mem_cons, List.mem_flatMap] at hd
    obtain hd | ⟨f, hf, hd⟩ := hd
    · cases hd
    · exact h f hf d hd

/-! ### Whole values -/

/-- A choice for every item makes a list of choices. -/
theorem exists_forall₂ {R : α → β → Prop} {l : List α} (h : ∀ a ∈ l, ∃ b, R a b) :
    ∃ l', List.Forall₂ R l l' := by
  induction l with
  | nil => exact ⟨[], .nil⟩
  | cons a l ih =>
      obtain ⟨b, hb⟩ := h a List.mem_cons_self
      obtain ⟨l', hl'⟩ := ih fun a ha => h a (List.mem_cons_of_mem _ ha)
      exact ⟨b :: l', .cons hb hl'⟩

/-- All are there exactly if each one is. -/
theorem mapM_isSome {R : α → Prop} {l : List α} {os : List (Option β)}
    (h : List.Forall₂ (fun a o => o.isSome = true ↔ R a) l os) :
    (os.mapM id).isSome = true ↔ ∀ a ∈ l, R a := by
  induction h with
  | nil => simp
  | @cons a o l os ho hos ih =>
      rw [List.forall_mem_cons, ← ho, ← ih]
      cases o with
      | none => simp
      | some b => rw [mapM_some]; simp

theorem mapM_map_some (l : List α) : (l.map some).mapM id = some l := by
  induction l with
  | nil => rfl
  | cons a l ih => rw [List.map_cons, mapM_some, ih]; rfl

/-- Fields with different keys are assigned in the order of their keys, whatever order they come
in. -/
theorem assignAll_perm {fields sorted : List (Text × α)} (hperm : fields.Perm sorted)
    (h : sorted.Pairwise fun a b => a.1 < b.1) : assignAll fields = sorted :=
  SortedMap.foldl_insertEntry hperm h

theorem blank_replicate (n : Nat) : Blank (List.replicate n ' ') := by
  intro c hc
  rw [List.eq_of_mem_replicate hc]
  rfl

theorem blank_line (n : Nat) : Blank ('\n' :: List.replicate n ' ') := by
  intro c hc
  rcases List.mem_cons.mp hc with rfl | hc
  · rfl
  · exact blank_replicate n c hc

theorem lines_eq {indent : Nat} {ts : List Text} (h : ts ≠ []) :
    '\n' :: lines indent ts = listing ('\n' :: List.replicate indent ' ') ts ++ ['\n'] := by
  induction ts with
  | nil => exact absurd rfl h
  | cons t ts ih =>
      cases ts with
      | nil => simp [lines, listing]
      | cons t' ts =>
          have hcomma : '\n' :: lines indent (t :: t' :: ts) =
              ('\n' :: List.replicate indent ' ') ++ (t ++ ',' :: ('\n' :: lines indent (t' :: ts))) :=
            by simp [lines]
          rw [hcomma, ih (by simp)]
          simp [listing]

/-- Items on lines of their own are a listing with blanks between them. -/
theorem container_eq (opening close : Char) (indent : Nat) (ts : List Text) :
    ∃ gap last, Blank gap ∧ Blank last ∧
      container opening close indent ts = opening :: (listing gap ts ++ (last ++ [close])) := by
  by_cases h : ts = []
  · subst h
    exact ⟨[], [], blank_replicate 0, blank_replicate 0, by simp [container, listing]⟩
  · refine ⟨'\n' :: List.replicate (indent + 2) ' ', '\n' :: List.replicate indent ' ',
      blank_line _, blank_line _, ?_⟩
    have hlines : '\n' :: (lines (indent + 2) ts ++ List.replicate indent ' ' ++ [close]) =
        ('\n' :: lines (indent + 2) ts) ++ (List.replicate indent ' ' ++ [close]) := by simp
    rw [container, if_neg h, hlines, lines_eq h]
    simp

/-- The texts of the items. -/
theorem itemTexts_eq (indent : Nat) (items : List (JSONValue δ)) :
    itemTexts D indent items = items.map (valueToString D indent) := by
  induction items with
  | nil => rfl
  | cons v items ih => rw [itemTexts, ih, List.map_cons]

/-- The texts of the fields. -/
theorem fieldTexts_eq (indent : Nat) (fields : List (Text × JSONValue δ)) :
    fieldTexts D indent fields =
      fields.map fun f => quoted f.1 ++ ": ".toList ++ valueToString D indent f.2 := by
  induction fields with
  | nil => rfl
  | cons f fields ih => rw [fieldTexts, ih, List.map_cons]

/-- What becomes of a value, or of something with a value in it, when it is read again. -/
structure ReadBack (D : Doubles δ) (value : α → JSONValue δ) (a : α) (o : Option α) : Prop where
  complete : o.isSome = true ↔ (value a).Finite D
  exact : (value a).Plain → (value a).Ordered → o = some a

/-- A value without parts that is no number with a point is read back as it is. -/
theorem ReadBack.leaf {v : JSONValue δ} (hdouble : ∀ d, v ≠ .double d) (hparts : v.parts = [v]) :
    ReadBack D id v (some v) where
  complete := by
    constructor
    · intro _ d hd
      rw [id, hparts, List.mem_singleton] at hd
      exact absurd hd.symm (hdouble d)
    · exact fun _ => rfl
  exact := fun _ _ => rfl

/-- Values that are plain and ordered are all read back. -/
theorem ReadBack.all {value : α → JSONValue δ} {l : List α} {os : List (Option α)}
    (h : List.Forall₂ (ReadBack D value) l os)
    (hexact : ∀ a ∈ l, (value a).Plain ∧ (value a).Ordered) : os.mapM id = some l := by
  induction h with
  | nil => rfl
  | @cons a o l os ho hos ih =>
      obtain ⟨⟨hplain, hordered⟩, hrest⟩ := List.forall_mem_cons.mp hexact
      rw [ho.exact hplain hordered, mapM_some, ih hrest]
      rfl

/-- An array is read back as its items are. -/
theorem ReadBack.array {items : List (JSONValue δ)} {os : List (Option (JSONValue δ))}
    (h : List.Forall₂ (ReadBack D id) items os) :
    ReadBack D id (.array items) ((os.mapM id).map .array) where
  complete := by
    rw [Option.isSome_map, id, JSONValue.finite_array]
    exact mapM_isSome (h.imp fun _ _ hv => hv.complete)
  exact := by
    intro hplain hordered
    rw [ReadBack.all h fun v hv => ⟨fun d hd => hplain d (mem_parts_array hv hd),
      fun fields hfields => hordered fields (mem_parts_array hv hfields)⟩]
    rfl

/-- An object is read back as its fields are, the last of a key deciding. -/
theorem ReadBack.object {fields : List (Text × JSONValue δ)}
    {os : List (Option (Text × JSONValue δ))} (h : List.Forall₂ (ReadBack D Prod.snd) fields os) :
    ReadBack D id (.object fields) ((os.mapM id).map fun fs => .object (assignAll fs)) where
  complete := by
    rw [Option.isSome_map, id, JSONValue.finite_object]
    exact mapM_isSome (h.imp fun _ _ hf => hf.complete)
  exact := by
    intro hplain hordered
    rw [ReadBack.all h fun f hf => ⟨fun d hd => hplain d (mem_parts_object hf hd),
      fun fields hfields => hordered fields (mem_parts_object hf hfields)⟩, Option.map_some,
      assignAll_perm (.refl fields) (hordered fields (self_mem_parts _))]

/-- A clean value is read back, unless a `double` in it is not finite. -/
theorem JSONValue.printed (v : JSONValue δ) (hclean : v.Clean) (indent : Nat) :
    ∃ o, Printed (parse D) (valueToString D indent v) o ∧ ReadBack D id v o := by
  induction v using JSONValue.induct generalizing indent with
  | null => exact ⟨_, .null, .leaf (fun d hd => by cases hd) rfl⟩
  | bool b => exact ⟨_, .bool b, .leaf (fun d hd => by cases hd) rfl⟩
  | int v => exact ⟨_, .int v, .leaf (fun d hd => by cases hd) rfl⟩
  | string s =>
      exact ⟨_, .string (hclean _ (self_mem_parts _) s (List.mem_singleton.mpr rfl)),
        .leaf (fun d hd => by cases hd) rfl⟩
  | double d =>
      obtain ⟨o, hprinted, hfinite⟩ := Printed.double (D := D) d
      refine ⟨o, hprinted, ?_, fun hplain => absurd (self_mem_parts _) (hplain d)⟩
      rw [hfinite]
      constructor
      · intro h d' hd'
        cases List.mem_singleton.mp hd'
        exact h
      · exact fun h => h d (self_mem_parts _)
  | array items ih =>
      have hall : ∀ v ∈ items, ∃ o, Printed (parse D) (valueToString D (indent + 2) v) o ∧
          ReadBack D id v o := fun v hv => ih v hv (clean_array hclean v hv) (indent + 2)
      obtain ⟨os, hos⟩ := exists_forall₂ hall
      obtain ⟨gap, last, hgap, hlast, htext⟩ :=
        container_eq '[' ']' indent (itemTexts D (indent + 2) items)
      refine ⟨_, ?_, ReadBack.array (hos.imp fun _ _ h => h.2)⟩
      rw [valueToString, htext]
      refine Printed.array ?_ hgap hlast
      rw [itemTexts_eq, List.forall₂_map_left_iff]
      exact hos.imp fun _ _ h => h.1
  | object fields ih =>
      have hall : ∀ f ∈ fields, ∃ o, Printed (parseField (parse D))
          (quoted f.1 ++ ": ".toList ++ valueToString D (indent + 2) f.2) o ∧
          ReadBack D Prod.snd f o := by
        intro f hf
        obtain ⟨hkey, hvalue⟩ := clean_object hclean f hf
        obtain ⟨o, hprinted, hback⟩ := ih f hf hvalue (indent + 2)
        refine ⟨o.map fun v => (f.1, v), ?_, ?_, ?_⟩
        · rw [List.append_assoc]
          exact .field parse_skipsBlanks hkey (blank_replicate 1) hprinted
        · rw [Option.isSome_map]
          exact hback.complete
        · intro hplain hordered
          rw [hback.exact hplain hordered]
          rfl
      obtain ⟨os, hos⟩ := exists_forall₂ hall
      obtain ⟨gap, last, hgap, hlast, htext⟩ :=
        container_eq '\x7b' '\x7d' indent (fieldTexts D (indent + 2) fields)
      refine ⟨_, ?_, ReadBack.object (hos.imp fun _ _ h => h.2)⟩
      rw [valueToString, htext]
      refine Printed.object ?_ hgap hlast
      rw [fieldTexts_eq, List.forall₂_map_left_iff]
      exact hos.imp fun _ _ h => h.1

end NanoVault.Json
