/-
What `saveToFile` writes and `loadFromFile` reads again.

The printer puts strings between quotes as they are; the parser takes a backslash for the start of
an escape and a quote for the end. A quote or a backslash can only get into a parsed string by an
escape of two of these characters, so that a text cannot hold more of them than the strings that
are printed (`parse_spends`). Thus the round trip restores exactly the lists whose strings and keys
have neither (`restored_iff`).
-/
import NanoVault.Json.Reading

namespace NanoVault.Json

open Lib NanoVault.Table
open NanoVault.Catalog (stoi)

/-- The characters that mean something between quotes. -/
def isSpecial (c : Char) : Bool := c == '\x22' || c == '\x5c'

def specials (text : Text) : Nat := text.countP isSpecial

/-- The sum of a number for each string and each key in a value. -/
def JSONValue.total {δ : Type} (f : Text → Nat) (v : JSONValue δ) : Nat :=
  (v.parts.map fun w => (w.names.map f).sum).sum

/-- What a string takes of a text at least, and what it takes as it is printed. -/
def readCost (s : Text) : Nat := 2 + 2 * specials s

def printCost (s : Text) : Nat := 2 + specials s

variable {δ α : Type} {D : Doubles δ} {text rest t : Text}
  {item : Text → Except Fault (α × Text)} {w : α → Nat} {f : Text → Nat}

/-! ### Sums over a value -/

/-- The names of parts, summed part by part. -/
theorem sum_flatMap_parts {β : Type} (l : List β) (value : β → JSONValue δ) :
    ((l.flatMap fun b => (value b).parts).map fun w => (w.names.map f).sum).sum =
      (l.map fun b => (value b).total f).sum := by
  induction l with
  | nil => rfl
  | cons b l ih =>
      rw [List.flatMap_cons, List.map_append, List.sum_append, ih, List.map_cons, List.sum_cons]
      rfl

theorem total_string (s : Text) : (JSONValue.string s : JSONValue δ).total f = f s := by
  simp [JSONValue.total, JSONValue.parts, JSONValue.names]

/-- The total of an array is that of its items. -/
theorem total_array (items : List (JSONValue δ)) :
    (JSONValue.array items).total f = (items.map (JSONValue.total f)).sum := by
  rw [JSONValue.total, JSONValue.parts, itemParts_eq, List.map_cons, List.sum_cons,
    sum_flatMap_parts items fun v => v]
  exact Nat.zero_add _

/-- The total of an object is that of its keys and values. -/
theorem total_object (fields : List (Text × JSONValue δ)) :
    (JSONValue.object fields).total f = (fields.map fun p => f p.1 + p.2.total f).sum := by
  rw [JSONValue.total, JSONValue.parts, fieldParts_eq, List.map_cons, List.sum_cons,
    sum_flatMap_parts fields Prod.snd, JSONValue.names, List.map_map, List.sum_map_add]
  rfl

/-- An entry adds at most its own weight. -/
theorem sum_insertEntry_le (g : Text × α → Nat) (key : Text) (v : α) (obj : List (Text × α)) :
    ((SortedMap.insertEntry (· < ·) key v obj).map g).sum ≤ g (key, v) + (obj.map g).sum := by
  induction obj with
  | nil => simp [SortedMap.insertEntry]
  | cons p obj ih =>
      obtain ⟨key', v'⟩ := p
      rw [SortedMap.insertEntry]
      split_ifs
      · simp
      · simp only [List.map_cons, List.sum_cons]
        omega
      · simp only [List.map_cons, List.sum_cons]
        omega

/-- Assigning a key again loses what it had. -/
theorem sum_assignAll_le (g : Text × α → Nat) (fields : List (Text × α)) :
    ((assignAll fields).map g).sum ≤ (fields.map g).sum := by
  suffices ∀ obj : List (Text × α),
      ((fields.foldl (fun obj field => SortedMap.insertEntry (· < ·) field.1 field.2 obj) obj).map
        g).sum ≤ (obj.map g).sum + (fields.map g).sum from
    (this []).trans_eq (Nat.zero_add _)
  induction fields with
  | nil => simp
  | cons p fields ih =>
      obtain ⟨key, v⟩ := p
      intro obj
      have hrest := ih (SortedMap.insertEntry (· < ·) key v obj)
      have hfirst := sum_insertEntry_le g key v obj
      simp only [List.foldl_cons, List.map_cons, List.sum_cons]
      omega

/-! ### What a text has to hold -/

/-- A parser takes at least so many of the special characters for what it reads. -/
def Spends (p : Text → Except Fault (α × Text)) (w : α → Nat) : Prop :=
  ∀ text v rest, p text = .ok (v, rest) → w v + specials rest ≤ specials text

/-- A suffix has no more special characters. -/
theorem specials_suffix {a b : Text} (h : a <:+ b) : specials a ≤ specials b :=
  h.sublist.countP_le

theorem specials_cons (c : Char) (text : Text) :
    specials (c :: text) = specials text + if isSpecial c then 1 else 0 := List.countP_cons

theorem specials_append (a b : Text) : specials (a ++ b) = specials a + specials b :=
  List.countP_append

/-- Only the two special characters stand for themselves behind a backslash. -/
theorem isSpecial_unescape (c : Char) (h : isSpecial (unescape c) = true) : isSpecial c = true := by
  unfold unescape at h
  split at h
  · cases h
  · cases h
  · cases h
  · cases h
  · cases h
  · exact h

/-- Reading a string spends two special characters for each it returns. -/
theorem stringBody_spends (escape : Bool) :
    Spends (stringBody escape) fun s => (if escape then 0 else 1) + 2 * specials s := by
  intro text
  induction text generalizing escape with
  | nil => cases escape <;> exact fun v rest h => by cases h
  | cons c text ih =>
      intro s rest h
      rw [specials_cons]
      cases escape with
      | true =>
          obtain ⟨⟨s, rest'⟩, hbody, hret⟩ := ok_of_bind h
          cases hret
          have hspent := ih false s rest hbody
          have hescaped := isSpecial_unescape c
          dsimp only at hspent ⊢
          rw [specials_cons]
          simp only [Bool.false_eq_true, if_false, if_true] at hspent ⊢
          split_ifs with hspecial hc
          · omega
          · exact absurd (hescaped hspecial) hc
          · omega
          · omega
      | false =>
          rw [stringBody] at h
          split_ifs at h with hquote hslash
          · cases h
            subst hquote
            simp [specials, isSpecial, Nat.add_comm]
          · subst hslash
            have hspent := ih true s rest h
            simp only [isSpecial, beq_self_eq_true, Bool.or_true, Bool.false_eq_true, if_false,
              if_true] at hspent ⊢
            omega
          · obtain ⟨⟨s, rest'⟩, hbody, hret⟩ := ok_of_bind h
            cases hret
            have hspent := ih false s rest hbody
            have hc : isSpecial c = false := by simp [isSpecial, hquote, hslash]
            dsimp only at hspent ⊢
            rw [specials_cons, hc]
            simp only [Bool.false_eq_true, if_false] at hspent ⊢
            omega

/-- Reading a string with its marks spends what its text costs. -/
theorem parseString_spends : Spends parseString readCost := by
  intro text s rest h
  cases text with
  | nil => cases h
  | cons c text =>
      rw [parseString] at h
      split_ifs at h with hquote
      have hspent := stringBody_spends false text s rest h
      subst hquote
      rw [specials_cons, readCost]
      simp only [isSpecial, beq_self_eq_true, Bool.true_or, Bool.false_eq_true, if_false,
        if_true] at hspent ⊢
      omega

/-- The items of a container spend what each of them does. -/
theorem itemsLoop_spends (h : Spends item w) {close : Char} {unexpected expected : Text}
    (turns : Nat) :
    Spends (itemsLoop item close unexpected expected turns) fun vs => (vs.map w).sum := by
  induction turns with
  | zero =>
      intro text vs rest hloop
      cases hloop
      simp
  | succ turns ih =>
      intro text vs rest hloop
      cases text with
      | nil =>
          cases hloop
          simp
      | cons c text =>
          obtain ⟨⟨v, rest₁⟩, hitem, hloop⟩ := ok_of_bind hloop
          have hspent := h _ _ _ hitem
          have hend := specials_suffix (skipWhitespace_suffix rest₁)
          dsimp only at hloop
          split at hloop
          · cases hloop
          · next c' rest₂ hskip =>
              rw [hskip, specials_cons] at hend
              split_ifs at hloop
              · cases hloop
                simp only [List.map_cons, List.map_nil, List.sum_cons, List.sum_nil]
                omega
              · obtain ⟨⟨vs', rest₃⟩, hrest, hret⟩ := ok_of_bind hloop
                cases hret
                have hmore := ih _ _ _ hrest
                simp only [List.map_cons, List.sum_cons] at hmore ⊢
                omega

theorem parseItems_spends (h : Spends item w) {close : Char} {unexpected expected : Text} :
    Spends (parseItems item close unexpected expected) fun vs => (vs.map w).sum := by
  intro text vs rest hitems
  have hend := specials_suffix (skipWhitespace_suffix text)
  rw [parseItems] at hitems
  split at hitems
  · cases hitems
    simp [specials]
  · next c text' hskip =>
      rw [hskip] at hend
      split_ifs at hitems
      · cases hitems
        rw [specials_cons] at hend
        simp only [List.map_nil, List.sum_nil]
        omega
      · exact (itemsLoop_spends h _ _ _ _ hitems).trans hend

/-- A field spends what its key and its value do. -/
theorem parseField_spends (h : Spends item w) :
    Spends (parseField item) fun field => readCost field.1 + w field.2 := by
  intro text field rest hfield
  obtain ⟨⟨key, rest₁⟩, hkey, hfield⟩ := ok_of_bind hfield
  have hspent := parseString_spends _ _ _ hkey
  have hfirst := specials_suffix (skipWhitespace_suffix text)
  have hend := specials_suffix (skipWhitespace_suffix rest₁)
  dsimp only at hfield
  rw [behindKey] at hfield
  split at hfield
  · cases hfield
  · next c rest₂ hskip =>
      rw [hskip, specials_cons] at hend
      split_ifs at hfield
      obtain ⟨⟨v, rest₃⟩, hvalue, hret⟩ := ok_of_bind hfield
      cases hret
      have hmore := h _ _ _ hvalue
      dsimp only
      omega

/-- Every kind of value spends what its texts cost. -/
theorem parseKind_spends {value : Text → Except Fault (JSONValue δ × Text)}
    (h : Spends value (JSONValue.total readCost)) :
    Spends (parseKind D value) (JSONValue.total readCost) := by
  intro text v rest hkind
  have hend := specials_suffix (skipWhitespace_suffix text)
  rw [parseKind] at hkind
  split at hkind
  · cases hkind
  · next c text' hskip =>
      rw [hskip] at hend
      have hend' := (specials_suffix (List.suffix_cons c text')).trans hend
      split_ifs at hkind
      · obtain ⟨⟨s, rest⟩, hstring, hret⟩ := ok_of_bind hkind
        cases hret
        rw [total_string]
        exact (parseString_spends _ _ _ hstring).trans hend
      · obtain ⟨⟨fields, rest⟩, hobject, hret⟩ := ok_of_bind hkind
        cases hret
        obtain ⟨⟨fields', rest'⟩, hitems, hret⟩ := ok_of_bind hobject
        cases hret
        have hspent := parseItems_spends (parseField_spends h) _ _ _ hitems
        have hassigned := sum_assignAll_le
          (fun p : Text × JSONValue δ => readCost p.1 + p.2.total readCost) fields'
        rw [total_object]
        dsimp only at hspent
        omega
      · obtain ⟨⟨items, rest⟩, hitems, hret⟩ := ok_of_bind hkind
        cases hret
        rw [total_array]
        exact (parseItems_spends h _ _ _ hitems).trans hend'
      · obtain ⟨⟨b, rest⟩, hbool, hret⟩ := ok_of_bind hkind
        cases hret
        exact (Nat.zero_add _).le.trans
          ((specials_suffix (parseBoolean_leavesEnd _ _ _ hbool)).trans hend)
      · obtain ⟨rest, hnull, hret⟩ := ok_of_bind hkind
        cases hret
        exact (Nat.zero_add _).le.trans ((specials_suffix (parseNull_suffix hnull)).trans hend)
      · obtain ⟨hrest, ⟨i, rfl⟩ | ⟨d, rfl⟩⟩ := parseNumber_eq_ok hkind
        · exact (Nat.zero_add _).le.trans ((specials_suffix hrest).trans hend)
        · exact (Nat.zero_add _).le.trans ((specials_suffix hrest).trans hend)

/-- A text holds two special characters for the quotes of each string that is read from it, and
two for each special character of the string. -/
theorem parse_spends : Spends (parse D) (JSONValue.total readCost) := by
  have hvalue : ∀ depth, Spends (parseValue D depth) (JSONValue.total readCost) := by
    intro depth
    induction depth with
    | zero =>
        intro text v rest h
        cases h
    | succ depth ih => exact parseKind_spends ih
  exact fun text => hvalue text.length text

/-! ### What a printed text holds -/

theorem specials_eq_zero (h : ∀ c ∈ text, isSpecial c = false) : specials text = 0 :=
  List.countP_eq_zero.mpr fun c hc => by simp [h c hc]

theorem specials_replicate (n : Nat) : specials (List.replicate n ' ') = 0 :=
  specials_eq_zero fun c hc => by rw [List.eq_of_mem_replicate hc]; rfl

theorem specials_lines (indent : Nat) (ts : List Text) :
    specials (lines indent ts) = (ts.map specials).sum := by
  have hcomma : specials ",\n".toList = 0 := by decide
  have hline : specials "\n".toList = 0 := by decide
  induction ts with
  | nil => rfl
  | cons t ts ih =>
      cases ts with
      | nil =>
          rw [lines, specials_append, specials_append, specials_replicate, hline]
          simp
      | cons t' ts =>
          rw [lines, specials_append, specials_append, specials_append, specials_replicate, hcomma,
            ih]
          · simp only [List.map_cons, List.sum_cons]
            omega
          · simp

theorem specials_container {opening close : Char} (hopening : isSpecial opening = false)
    (hclose : isSpecial close = false) (indent : Nat) (ts : List Text) :
    specials (container opening close indent ts) = (ts.map specials).sum := by
  have hline : isSpecial '\n' = false := by decide
  by_cases h : ts = []
  · subst h
    simp [container, specials, hopening, hclose]
  · rw [container, if_neg h, specials_cons, specials_cons, specials_append, specials_append,
      specials_lines, specials_replicate, hopening, hline]
    simp [specials, hclose]

/-- The special characters of a string with its marks. -/
theorem specials_quoted (s : Text) : specials (quoted s) = printCost s := by
  have hquote : specials ['\x22'] = 1 := by decide
  rw [quoted, specials_cons, specials_append, hquote, printCost]
  simp only [isSpecial, beq_self_eq_true, Bool.true_or, if_true]
  omega

/-- A number has no special characters. -/
theorem specials_toText (v : Int64) : specials (toText v) = 0 := by
  obtain ⟨minus, whole, hminus, hwhole, htext⟩ := toText_eq v
  have hsign : specials minus = 0 := by
    rcases hminus with rfl | rfl <;> rfl
  have hdigits : specials whole = 0 := by
    refine specials_eq_zero fun c hc => ?_
    have hdigit := hwhole.digits c hc
    rw [isSpecial, Bool.or_eq_false_iff, beq_eq_false_iff_ne, beq_eq_false_iff_ne]
    constructor
    · rintro rfl
      cases hdigit
    · rintro rfl
      cases hdigit
  rw [htext, specials_append, hsign, hdigits]

/-- The special characters a value is printed with. -/
theorem specials_valueToString (v : JSONValue δ) (hplain : v.Plain) (indent : Nat) :
    specials (valueToString D indent v) = v.total printCost := by
  induction v using JSONValue.induct generalizing indent with
  | null => rfl
  | bool b => cases b <;> rfl
  | int v => exact specials_toText v.toInt64
  | double d => exact absurd (self_mem_parts _) (hplain d)
  | string s =>
      rw [total_string]
      exact specials_quoted s
  | array items ih =>
      rw [valueToString, specials_container rfl rfl, itemTexts_eq, total_array, List.map_map]
      refine congrArg List.sum (List.map_congr_left fun v hv => ?_)
      exact ih v hv (fun d hd => hplain d (mem_parts_array hv hd)) (indent + 2)
  | object fields ih =>
      have hcolon : specials ": ".toList = 0 := by decide
      rw [valueToString, specials_container rfl rfl, fieldTexts_eq, total_object, List.map_map]
      refine congrArg List.sum (List.map_congr_left fun p hp => ?_)
      have hvalue := ih p hp (fun d hd => hplain d (mem_parts_object hp hd)) (indent + 2)
      rw [Function.comp_apply, specials_append, specials_append, specials_quoted, hcolon, hvalue]
      rfl

/-! ### The round trip -/

/-- What stands in front of a value in a file. -/
def indented : Text := '\n' :: List.replicate 2 ' '

theorem blank_indented : Blank indented := blank_line 2

/-- The text of a file is that of an array, whose closing bracket stands on a line of its own. -/
theorem saveToFile_eq (data : List (JSONValue δ)) :
    saveToFile D data =
      '[' :: (listing indented (data.map (valueToString D 2)) ++ (['\n'] ++ [']'])) := by
  by_cases h : data = []
  · subst h
    rfl
  · have hlines : '\n' :: lines 2 (data.map (valueToString D 2)) = _ := lines_eq (by simpa using h)
    rw [indented, ← List.append_assoc, ← hlines]
    rfl

/-- The special characters of a file. -/
theorem specials_saveToFile {data : List (JSONValue δ)} (hplain : ∀ v ∈ data, v.Plain) :
    specials (saveToFile D data) = (data.map (JSONValue.total printCost)).sum := by
  have hopening : specials "[\n".toList = 0 := by decide
  have hclose : specials "]".toList = 0 := by decide
  rw [saveToFile, specials_append, specials_append, hopening, hclose, specials_lines, List.map_map,
    Nat.zero_add, Nat.add_zero]
  exact congrArg List.sum (List.map_congr_left fun v hv => specials_valueToString v (hplain v hv) 2)

theorem total_add (f g : Text → Nat) (v : JSONValue δ) :
    (v.total fun s => f s + g s) = v.total f + v.total g := by
  simp only [JSONValue.total, List.sum_map_add]

/-- A text without special characters is clean. -/
theorem clean_of_specials {s : Text} (h : specials s = 0) : Clean s := by
  have hnone := List.countP_eq_zero.mp h
  constructor
  · exact fun hquote => hnone _ hquote (by decide)
  · exact fun hslash => hnone _ hslash (by decide)

/-- A value whose texts have no special characters is clean. -/
theorem clean_of_total {v : JSONValue δ} (h : v.total specials = 0) : v.Clean := by
  intro w hw s hs
  have hw := List.sum_eq_zero_iff.mp h _ (List.mem_map_of_mem hw)
  exact clean_of_specials (List.sum_eq_zero_iff.mp hw _ (List.mem_map_of_mem hs))

/-- A list that is loaded from a text has cost no more than the text holds. -/
theorem loadFromFile_spends {data : List (JSONValue δ)} (h : loadFromFile D text = some data) :
    (data.map (JSONValue.total readCost)).sum ≤ specials text := by
  cases hparse : parse D text with
  | error e =>
      rw [loadFromFile, hparse] at h
      cases h
  | ok r =>
      obtain ⟨v, rest⟩ := r
      have hspent := parse_spends _ _ _ hparse
      have htotal : (data.map (JSONValue.total readCost)).sum = v.total readCost := by
        rw [loadFromFile, hparse] at h
        cases v with
        | array items =>
            cases h
            exact (total_array data).symm
        | null | bool | int | double | string | object =>
            cases h
            simp
      omega

/-- The values of a file, as they are read again. -/
theorem exists_readBack {data : List (JSONValue δ)} (hclean : ∀ v ∈ data, v.Clean) : ∃ os,
    List.Forall₂ (Printed (parse D)) (data.map (valueToString D 2)) os ∧
      List.Forall₂ (ReadBack D id) data os := by
  have hall : ∀ v ∈ data, ∃ o, Printed (parse D) (valueToString D 2 v) o ∧ ReadBack D id v o :=
    fun v hv => v.printed (hclean v hv) 2
  obtain ⟨os, hos⟩ := exists_forall₂ hall
  refine ⟨os, ?_, hos.imp fun _ _ h => h.2⟩
  rw [List.forall₂_map_left_iff]
  exact hos.imp fun _ _ h => h.1

/-- The lists that are restored are those whose strings and keys are free of quotes and
backslashes. -/
theorem restored_iff (D : Doubles δ) (data : List (JSONValue δ))
    (hordered : ∀ v ∈ data, v.Ordered) (hplain : ∀ v ∈ data, v.Plain) :
    loadFromFile D (saveToFile D data) = some data ↔ ∀ v ∈ data, v.Clean := by
  constructor
  · intro hload
    have hspent := loadFromFile_spends hload
    have hcost : ∀ v : JSONValue δ, v.total readCost = v.total printCost + v.total specials := by
      intro v
      rw [← total_add]
      congr 1
      funext s
      rw [readCost, printCost]
      omega
    rw [specials_saveToFile hplain, List.map_congr_left fun v _ => hcost v,
      List.sum_map_add] at hspent
    have hzero : (data.map (JSONValue.total specials)).sum = 0 := by omega
    exact fun v hv => clean_of_total (List.sum_eq_zero_iff.mp hzero _ (List.mem_map_of_mem hv))
  · intro hclean
    obtain ⟨os, hprinted, hback⟩ := exists_readBack (D := D) hclean
    have hfile : Printed (parse D) (saveToFile D data) ((os.mapM id).map .array) := by
      rw [saveToFile_eq]
      exact .array hprinted blank_indented (blank_line 0)
    have hread := hfile.answers [] (fun c hc => by cases hc)
    rw [List.append_nil, ReadBack.all hback fun v hv => ⟨hplain v hv, hordered v hv⟩] at hread
    rw [loadFromFile, toOption_eq_some hread]

/-- The doubles of a program that has none but 0. -/
def zeroOnly : Doubles Unit where
  to_string _ := "0.000000".toList
  stod _ := .ok ()
  finite _ := true
  decimal _ _ := ⟨[], ['0'], "000000".toList, .inl rfl, by simp, by simp, rfl⟩
  named _ h := by cases h
  readable _ _ := ⟨(), rfl⟩

/-- A table with one column, as CREATE TABLE leaves it. -/
def oneTable : List (JSONValue Unit) :=
  [.object [("columns".toList, .array [.object [("length".toList, .int 3),
    ("name".toList, .string "id".toList)]]), ("table".toList, .string "t".toList)]]

theorem oneTable_clean : ∀ v ∈ oneTable, v.Clean := by
  intro v hv w hw s hs
  obtain rfl := List.mem_singleton.mp hv
  simp [JSONValue.parts, itemParts, fieldParts] at hw
  rcases hw with rfl | rfl | rfl | rfl | rfl | rfl <;> simp [JSONValue.names] at hs
  · rcases hs with rfl | rfl <;> simp [Clean]
  · rcases hs with rfl | rfl <;> simp [Clean]
  · subst hs
    simp [Clean]
  · subst hs
    simp [Clean]

theorem restored_iff_oneTable :
    loadFromFile zeroOnly (saveToFile zeroOnly oneTable) = some oneTable := by
  refine (restored_iff zeroOnly oneTable ?_ ?_).mpr oneTable_clean
  · intro v hv fields hfields
    obtain rfl := List.mem_singleton.mp hv
    simp [JSONValue.parts, itemParts, fieldParts] at hfields
    rcases hfields with rfl | rfl <;> simp <;> decide
  · intro v hv d hd
    obtain rfl := List.mem_singleton.mp hv
    simp [JSONValue.parts, itemParts, fieldParts] at hd

theorem quote_ends_string :
    loadFromFile zeroOnly (saveToFile zeroOnly [.string "a\x22b".toList]) = none := rfl

end NanoVault.Json
