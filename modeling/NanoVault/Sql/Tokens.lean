/-
The tokens the lexer makes, and how they are written (`SQL_LEXER.hpp`).

A token of the lexer is a word in lower case, a number, a string without one of the quotes, or a
mark (`tokenize_lexical`). It can be written again, a string between a quote that is not in it;
in front of a blank or at the end of the source the lexer reads the same token off what is written
(`Token.Lexical.reads`).
-/
import NanoVault.Sql.Lexer

namespace NanoVault.Sql

open NanoVault.Table

/-- A number as it is written: digits, and digits behind a dot if there is one. -/
structure Numeral where
  whole : Text
  fraction : Option Text
  some_digit : whole ≠ []
  whole_digits : ∀ c ∈ whole, c.isDigit = true
  fraction_digits : ∀ ds ∈ fraction, ∀ c ∈ ds, c.isDigit = true

def Numeral.text (n : Numeral) : Text :=
  n.whole ++
    match n.fraction with
    | none => []
    | some ds => '.' :: ds

/-- What the lexer makes. -/
inductive Token.Lexical : Token → Prop where
  | word {c : Char} {cs : Text} :
      (c.isAlpha || c == '_') = true → (∀ d ∈ c :: cs, Lexer.isWordChar d = true) →
        (c :: cs).map Char.toLower = c :: cs →
        Lexical ⟨(keywords.lookup (c :: cs)).getD .identifier, c :: cs⟩
  | number (n : Numeral) : Lexical ⟨.number, n.text⟩
  | string {quote : Char} {body : Text} :
      (quote = '\x27' ∨ quote = '\x22') → (∀ c ∈ body, c ≠ quote ∧ c ≠ '\x00' ∧ c ≠ '\n') →
        Lexical ⟨.string, body⟩
  | mark {type : TokenType} {text : Text} : (type, text) ∈ marks → Lexical ⟨type, text⟩

/-- The ways of writing a token: a string stands between a quote that does not occur in it. -/
inductive Token.Written : Token → Text → Prop where
  | string {quote : Char} {body : Text} :
      (quote = '\x27' ∨ quote = '\x22') → quote ∉ body →
        Written ⟨.string, body⟩ (quote :: (body ++ [quote]))
  | other {token : Token} : token.type ≠ .string → Written token token.value

/-- The end of the source, or a blank. -/
def Ends (rest : Text) : Prop := rest = [] ∨ ∃ behind, rest = ' ' :: behind

/-- A text the tokens are read off one after the other; behind each the blanks are skipped. -/
inductive Lexer.Reads : List Token → Text → Prop where
  | nil : Reads [] []
  | cons {token : Token} {ts : List Token} {text rest : Text} :
      text ≠ [] →
        (∀ l : Lexer, l.rest = text → ∃ l', l.nextToken = .ok (token, l') ∧ l'.rest = rest) →
        Reads ts (rest.dropWhile isBlank) → Reads (token :: ts) text

variable {l l' : Lexer} {token : Token} {tokens : List Token} {c : Char} {cs w rest text : Text}
  {type : TokenType}

/-! ### Characters -/

/-- Lower case keeps the characters of words. -/
theorem toLower_isWordChar (hc : Lexer.isWordChar c = true) :
    Lexer.isWordChar c.toLower = true := by
  by_cases hupper : c.isUpper = true
  · have halpha : c.toLower.isAlpha = true := by
      rw [Char.isAlpha_toLower_eq_isAlpha, Char.isAlpha, hupper, Bool.true_or]
    rw [Lexer.isWordChar, Char.isAlphanum, halpha, Bool.true_or, Bool.true_or]
  · rwa [Char.toLower_eq_of_not_isUpper hupper]

/-- Lower case keeps the characters that begin words. -/
theorem toLower_start (hc : (c.isAlpha || c == '_') = true) :
    (c.toLower.isAlpha || c.toLower == '_') = true := by
  by_cases hupper : c.isUpper = true
  · rw [Char.isAlpha_toLower_eq_isAlpha, Char.isAlpha, hupper, Bool.true_or, Bool.true_or]
  · rwa [Char.toLower_eq_of_not_isUpper hupper]

/-- A digit begins no word. -/
theorem isAlpha_of_isDigit (hc : c.isDigit = true) : (c.isAlpha || c == '_') = false := by
  have hdigit : 48 ≤ c.toNat ∧ c.toNat ≤ 57 := by
    simpa [Char.isDigit, UInt32.le_iff_toNat_le] using hc
  have halpha : c.isAlpha = false := by
    rw [Bool.eq_false_iff]
    intro halpha
    have hletter : 65 ≤ c.toNat ∧ c.toNat ≤ 90 ∨ 97 ≤ c.toNat ∧ c.toNat ≤ 122 := by
      simpa [Char.isAlpha, Char.isUpper, Char.isLower, UInt32.le_iff_toNat_le] using halpha
    omega
  have hline : c ≠ '_' := by
    rintro rfl
    revert hdigit
    decide
  rw [halpha, Bool.false_or, beq_eq_false_iff_ne]
  exact hline

/-! ### What the lexer makes -/

/-- A word that is read is a token the lexer can read. -/
theorem tokenizeKeyword_lexical (hl : l.rest = c :: cs) (hc : (c.isAlpha || c == '_') = true) :
    l.tokenizeKeyword.1.Lexical := by
  have hword : (l.readWhile Lexer.isWordChar).1 = c :: cs.takeWhile Lexer.isWordChar := by
    rw [Lexer.readWhile, hl, List.takeWhile_cons_of_pos (Lexer.isWordChar_of_start hc)]
  rw [Lexer.tokenizeKeyword, hword, List.map_cons]
  refine .word (toLower_start hc) ?_ ?_
  · intro d hd
    rw [← List.map_cons (f := Char.toLower), ← hword] at hd
    obtain ⟨d, hmem, rfl⟩ := List.mem_map.mp hd
    exact toLower_isWordChar (Lexer.readWhile_all _ l d hmem)
  · rw [List.map_cons, List.map_map, Char.toLower_toLower_eq_toLower]
    refine congrArg _ (List.map_congr_left fun d _ => ?_)
    exact Char.toLower_toLower_eq_toLower d

/-- So is a number. -/
theorem tokenizeNumber_lexical (hl : l.rest = c :: cs) (hc : c.isDigit = true) :
    l.tokenizeNumber.1.Lexical := by
  have hwhole := Lexer.readWhile_all Char.isDigit l
  have hne := Lexer.readWhile_ne_nil hl hc
  rw [Lexer.tokenizeNumber]
  dsimp only
  split
  · have hfraction := Lexer.readWhile_all Char.isDigit (l.readWhile Char.isDigit).2.advance
    refine .number ⟨_, some _, hne, hwhole, ?_⟩
    intro ds hds
    obtain rfl := Option.mem_some_iff.mp hds
    exact hfraction
  · have hnumeral : (l.readWhile Char.isDigit).1 =
        Numeral.text ⟨_, none, hne, hwhole, fun ds hds => by cases hds⟩ :=
      (List.append_nil _).symm
    rw [hnumeral]
    exact .number _

/-- So is a string. -/
theorem tokenizeString_lexical (hl : l.rest = c :: cs) (hc : c = '\x27' ∨ c = '\x22')
    (h : l.tokenizeString = .ok (token, l')) : token.Lexical := by
  have hall := Lexer.readWhile_all (fun d => d != c && d != '\x00' && d != '\n') l.advance
  simp only [Lexer.tokenizeString, Lexer.current_eq hl] at h
  split at h
  · cases h
    refine .string hc fun d hd => ?_
    simpa [and_assoc] using hall d hd
  · cases h

/-- So is every token. -/
theorem nextToken_lexical (hl : l.rest = c :: cs) (h : l.nextToken = .ok (token, l')) :
    token.Lexical := by
  obtain ⟨hword, hread⟩ | ⟨hquote, hread⟩ | ⟨hdigit, hread⟩ | hmark :=
    Lexer.nextToken_cases hl h
  · have hlexical := tokenizeKeyword_lexical hl hword
    rwa [hread] at hlexical
  · exact tokenizeString_lexical hl hquote hread
  · have hlexical := tokenizeNumber_lexical hl hdigit
    rwa [hread] at hlexical
  · exact .mark hmark.1

/-- What the lexer returns is tokens it can read, and the end. -/
theorem tokenizeLoop_lexical {turns : Nat} (h : Lexer.tokenizeLoop turns l = .ok tokens) :
    ∃ ts, tokens = ts ++ [.endOfFile] ∧ ∀ t ∈ ts, t.Lexical := by
  induction turns generalizing l tokens with
  | zero =>
      cases h
      exact ⟨[], rfl, fun t ht => by cases ht⟩
  | succ turns ih =>
      simp only [Lexer.tokenizeLoop] at h
      split at h
      · cases h
        exact ⟨[], rfl, fun t ht => by cases ht⟩
      · next hne =>
          obtain ⟨c, cs, hl⟩ := List.exists_cons_of_ne_nil hne
          obtain ⟨⟨token, l'⟩, hnext, h⟩ := ok_of_bind h
          obtain ⟨rest, hloop, h⟩ := ok_of_bind h
          cases h
          obtain ⟨ts, rfl, hts⟩ := ih hloop
          refine ⟨token :: ts, rfl, ?_⟩
          intro t ht
          rcases List.mem_cons.mp ht with rfl | ht
          · exact nextToken_lexical hl hnext
          · exact hts t ht

/-- The tokens of a text that is accepted. -/
theorem tokenize_lexical {source : Text} (h : tokenize source = .ok tokens) :
    ∃ ts, tokens = ts ++ [.endOfFile] ∧ ∀ t ∈ ts, t.Lexical :=
  tokenizeLoop_lexical h

/-! ### Reading what is written -/

/-- Characters that pass are read up to the first that does not. -/
theorem readWhile_stop {p : Char → Bool} (hw : ∀ c ∈ w, p c = true)
    (hstop : ∀ c cs, rest = c :: cs → p c = false) (hl : l.rest = w ++ rest) :
    (l.readWhile p).1 = w ∧ (l.readWhile p).2.rest = rest := by
  have hnone : rest.takeWhile p = [] := by
    cases rest with
    | nil => rfl
    | cons c cs =>
        rw [List.takeWhile_cons, hstop c cs rfl]
        rfl
  have htake : l.rest.takeWhile p = w := by
    rw [hl, List.takeWhile_append_of_pos hw, hnone, List.append_nil]
  refine ⟨htake, ?_⟩
  rw [Lexer.readWhile, htake, Lexer.advance_iterate_rest, hl, List.drop_left]

theorem readWhile_ends {test : Char → Bool} (hw : ∀ c ∈ w, test c = true)
    (hblank : test ' ' = false) (hl : l.rest = w ++ rest) (hends : Ends rest) :
    (l.readWhile test).1 = w ∧ (l.readWhile test).2.rest = rest := by
  refine readWhile_stop hw ?_ hl
  rintro c cs rfl
  obtain hnil | ⟨behind, heq⟩ := hends
  · cases hnil
  · cases heq
    exact hblank

/-- Behind a token stands a blank or the end. -/
theorem current_ends (hl : l.rest = rest) (hends : Ends rest) :
    l.current = ' ' ∨ l.current = '\x00' := by
  obtain rfl | ⟨behind, rfl⟩ := hends
  · right
    rw [Lexer.current, hl]
    rfl
  · left
    exact Lexer.current_eq hl

/-- The lexer reads the token off a text, up to its end or the next blank. -/
def Token.ReadOff (token : Token) (text : Text) : Prop :=
  ∀ (l : Lexer) (rest : Text), l.rest = text ++ rest → Ends rest →
    ∃ l', l.nextToken = .ok (token, l') ∧ l'.rest = rest

/-- A word of lower case is read off its text. -/
theorem readOff_word (hstart : (c.isAlpha || c == '_') = true)
    (hword : ∀ d ∈ c :: cs, Lexer.isWordChar d = true)
    (hlower : (c :: cs).map Char.toLower = c :: cs) :
    Token.ReadOff ⟨(keywords.lookup (c :: cs)).getD .identifier, c :: cs⟩ (c :: cs) := by
  intro l rest hl hends
  have hcurrent : l.current = c := Lexer.current_eq hl
  obtain ⟨hread, hleft⟩ := readWhile_ends hword (by decide) hl hends
  refine ⟨l.tokenizeKeyword.2, ?_, hleft⟩
  simp only [Lexer.nextToken, hcurrent, hstart, if_true]
  rw [Lexer.tokenizeKeyword, hread, hlower]
  rfl

/-- A number is read off its text. -/
theorem readOff_number (n : Numeral) : Token.ReadOff ⟨.number, n.text⟩ n.text := by
  obtain ⟨whole, fraction, hne, hwhole, hfraction⟩ := n
  obtain ⟨d, ds, rfl⟩ := List.exists_cons_of_ne_nil hne
  have hd : d.isDigit = true := hwhole d List.mem_cons_self
  have hquote : ¬ (d = '\x27' ∨ d = '\x22') := by
    rintro (rfl | rfl) <;> revert hd <;> decide
  intro l rest hl hends
  have hcurrent : l.current = d := Lexer.current_eq hl
  have hnext : l.nextToken = .ok l.tokenizeNumber := by
    simp only [Lexer.nextToken, hcurrent, isAlpha_of_isDigit hd, hquote, hd, if_true, if_false,
      Bool.false_eq_true]
    rfl
  cases fraction with
  | none =>
      rw [Numeral.text, List.append_nil] at hl ⊢
      obtain ⟨hread, hleft⟩ := readWhile_ends hwhole (by decide) hl hends
      have hdot : ¬ (l.readWhile Char.isDigit).2.current = '.' := by
        obtain hcurrent | hcurrent := current_ends hleft hends <;> rw [hcurrent] <;> decide
      refine ⟨(l.readWhile Char.isDigit).2, ?_, hleft⟩
      rw [hnext, Lexer.tokenizeNumber]
      simp only [hdot, if_false, hread]
  | some fs =>
      have hfs : ∀ c ∈ fs, c.isDigit = true := hfraction fs rfl
      have hl : l.rest = (d :: ds) ++ '.' :: (fs ++ rest) := by
        rw [hl, Numeral.text, List.append_assoc]
        rfl
      obtain ⟨hread, hleft⟩ := readWhile_stop (p := Char.isDigit) hwhole
        (fun c cs hcons => by cases hcons; rfl) hl
      have hadvance : (l.readWhile Char.isDigit).2.advance.rest = fs ++ rest := by
        rw [Lexer.advance_rest, hleft, List.tail_cons]
      obtain ⟨hread', hleft'⟩ := readWhile_ends hfs (by decide) hadvance hends
      refine ⟨_, ?_, hleft'⟩
      rw [hnext, Lexer.tokenizeNumber]
      simp only [Lexer.current_eq hleft, if_true, hread, hread']
      rfl

/-- A string is read off its text in quotation marks. -/
theorem readOff_string {quote : Char} {body : Text} (hquote : quote = '\x27' ∨ quote = '\x22')
    (hbody : ∀ c ∈ body, c ≠ quote ∧ c ≠ '\x00' ∧ c ≠ '\n') :
    Token.ReadOff ⟨.string, body⟩ (quote :: (body ++ [quote])) := by
  intro l rest hl _
  have hcurrent : l.current = quote := Lexer.current_eq hl
  have hadvance : l.advance.rest = body ++ quote :: rest := by
    rw [Lexer.advance_rest, hl, List.cons_append, List.tail_cons, List.append_assoc]
    rfl
  obtain ⟨hread, hleft⟩ := readWhile_stop (l := l.advance)
    (p := fun c => c != quote && c != '\x00' && c != '\n')
    (fun c hc => by simpa [and_assoc] using hbody c hc)
    (fun c cs hcons => by cases hcons; simp) hadvance
  have hword : (quote.isAlpha || quote == '_') = false := by
    rcases hquote with rfl | rfl <;> decide
  refine ⟨(l.advance.readWhile fun c => c != quote && c != '\x00' && c != '\n').2.advance, ?_, ?_⟩
  · simp only [Lexer.nextToken, hcurrent, hword, hquote, if_true, if_false, Bool.false_eq_true]
    rw [Lexer.tokenizeString]
    simp only [hcurrent, Lexer.current_eq hleft, if_true, hread]
    rfl
  · rw [Lexer.advance_rest, hleft, List.tail_cons]

/-- A mark of one character is read off it. -/
theorem readOff_one (hnext : ∀ l : Lexer, l.current = c → l.seek 1 = ' ' ∨ l.seek 1 = '\x00' →
    l.nextToken = .ok (l.one type c)) : Token.ReadOff ⟨type, [c]⟩ [c] := by
  intro l rest hl hends
  have hseek : l.seek 1 = ' ' ∨ l.seek 1 = '\x00' := by
    rw [Lexer.seek, hl]
    obtain rfl | ⟨behind, rfl⟩ := hends
    · exact .inr rfl
    · exact .inl rfl
  refine ⟨l.advance, hnext l (Lexer.current_eq hl) hseek, ?_⟩
  rw [Lexer.advance_rest, hl]
  rfl

/-- A mark of two characters is read off them. -/
theorem readOff_two {d : Char} (hnext : ∀ l : Lexer, l.current = c → l.seek 1 = d →
    l.nextToken = .ok (l.two type c d)) : Token.ReadOff ⟨type, [c, d]⟩ [c, d] := by
  intro l rest hl _
  have hseek : l.seek 1 = d := by
    rw [Lexer.seek, hl]
    rfl
  refine ⟨l.advance.advance, hnext l (Lexer.current_eq hl) hseek, ?_⟩
  rw [Lexer.advance_rest, Lexer.advance_rest, hl]
  rfl

/-- None of `singleCharTokens` begins another token. -/
theorem readOff_single (h : (c, type) ∈ singleCharTokens) : Token.ReadOff ⟨type, [c]⟩ [c] := by
  have hall : ∀ m ∈ singleCharTokens, (m.1.isAlpha || m.1 == '_') = false ∧
      ¬ (m.1 = '\x27' ∨ m.1 = '\x22') ∧ m.1.isDigit = false ∧ m.1 ≠ '!' ∧ m.1 ≠ '=' ∧
      m.1 ≠ '<' ∧ m.1 ≠ '>' ∧ singleCharTokens.lookup m.1 = some m.2 := by
    decide
  obtain ⟨hword, hquote, hdigit, hnot, heq, hless, hgreater, hlookup⟩ := hall _ h
  refine readOff_one fun l hcurrent _ => ?_
  simp only [Lexer.nextToken, hcurrent, hword, hquote, hdigit, hnot, heq, hless, hgreater,
    Lexer.checkSingleCharToken, hlookup, if_false, Bool.false_eq_true, Option.map_some]
  rfl

/-- Every mark is read off its text. -/
theorem readOff_mark (h : (type, text) ∈ marks) : Token.ReadOff ⟨type, text⟩ text := by
  rcases List.mem_append.mp h with hoperator | hsingle
  · simp only [List.mem_cons, Prod.mk.injEq, List.not_mem_nil, or_false] at hoperator
    rcases hoperator with ⟨rfl, rfl⟩ | ⟨rfl, rfl⟩ | ⟨rfl, rfl⟩ | ⟨rfl, rfl⟩ | ⟨rfl, rfl⟩ |
      ⟨rfl, rfl⟩ | ⟨rfl, rfl⟩ | ⟨rfl, rfl⟩
    · exact readOff_two fun l hc hs => by simp [Lexer.nextToken, hc, hs]; rfl
    · exact readOff_two fun l hc hs => by simp [Lexer.nextToken, hc, hs]; rfl
    · refine readOff_one fun l hc hs => ?_
      rcases hs with hs | hs <;> simp [Lexer.nextToken, hc, hs] <;> rfl
    · exact readOff_two fun l hc hs => by simp [Lexer.nextToken, hc, hs]; rfl
    · exact readOff_two fun l hc hs => by simp [Lexer.nextToken, hc, hs]; rfl
    · refine readOff_one fun l hc hs => ?_
      rcases hs with hs | hs <;> simp [Lexer.nextToken, hc, hs] <;> rfl
    · exact readOff_two fun l hc hs => by simp [Lexer.nextToken, hc, hs]; rfl
    · refine readOff_one fun l hc hs => ?_
      rcases hs with hs | hs <;> simp [Lexer.nextToken, hc, hs] <;> rfl
  · obtain ⟨⟨c, type⟩, hmem, heq⟩ := List.mem_map.mp hsingle
    cases heq
    exact readOff_single hmem

/-- A word is an identifier or one of the keywords. -/
theorem keyword_mem (w : Text) :
    (keywords.lookup w).getD .identifier ∈ .identifier :: keywords.map Prod.snd := by
  cases hlookup : keywords.lookup w with
  | none => exact List.mem_cons_self
  | some type =>
      exact List.mem_cons_of_mem _ (List.mem_map_of_mem (Lexer.mem_of_lookup hlookup))

/-- A token is known by its type to be a word or a mark, or it is a number or a string. -/
theorem Token.Lexical.kinds (h : token.Lexical) :
    (token.type ∈ .identifier :: keywords.map Prod.snd ∨ token.type ∈ marks.map Prod.fst) ∨
      (∃ n : Numeral, token = ⟨.number, n.text⟩) ∨
      ∃ quote body, token = ⟨.string, body⟩ ∧ (quote = '\x27' ∨ quote = '\x22') ∧
        ∀ c ∈ body, c ≠ quote ∧ c ≠ '\x00' ∧ c ≠ '\n' := by
  cases h with
  | word => exact .inl (.inl (keyword_mem _))
  | number n => exact .inr (.inl ⟨n, rfl⟩)
  | string hquote hbody => exact .inr (.inr ⟨_, _, rfl, hquote, hbody⟩)
  | mark hmark => exact .inl (.inr (List.mem_map_of_mem (f := Prod.fst) hmark))

theorem Token.Lexical.string_free {body : Text} (h : Lexical ⟨.string, body⟩) :
    ∃ quote, (quote = '\x27' ∨ quote = '\x22') ∧
      ∀ c ∈ body, c ≠ quote ∧ c ≠ '\x00' ∧ c ≠ '\n' := by
  have hnot : ¬ (TokenType.string ∈ .identifier :: keywords.map Prod.snd ∨
      .string ∈ marks.map Prod.fst) := by decide
  obtain ⟨n, heq⟩ | ⟨quote, body, heq, hquote, hbody⟩ := h.kinds.resolve_left hnot
  · cases heq
  · cases heq
    exact ⟨quote, hquote, hbody⟩

/-- A token of the lexer can be written. -/
theorem Token.Lexical.exists_written (h : token.Lexical) : ∃ text, token.Written text := by
  obtain ⟨type, value⟩ := token
  by_cases htype : type = .string
  · subst htype
    obtain ⟨quote, hquote, hbody⟩ := h.string_free
    exact ⟨_, .string hquote fun hmem => (hbody quote hmem).1 rfl⟩
  · exact ⟨_, .other htype⟩

/-- A token of the lexer is read off every text it can be written as. -/
theorem Token.Lexical.reads (h : token.Lexical) (hwritten : token.Written text) :
    token.ReadOff text := by
  cases hwritten with
  | string hquote hfree =>
      obtain ⟨_, -, hbody⟩ := h.string_free
      exact readOff_string hquote fun c hc => ⟨fun heq => hfree (heq ▸ hc), (hbody c hc).2⟩
  | other hne =>
      cases h with
      | word hstart hword hlower => exact readOff_word hstart hword hlower
      | number n => exact readOff_number n
      | string => exact absurd rfl hne
      | mark hmark => exact readOff_mark hmark

/-- What is written does not begin with a blank. -/
theorem Token.Lexical.start (h : token.Lexical) (hwritten : token.Written text) :
    ∃ c cs, text = c :: cs ∧ Lexer.isBlank c = false := by
  have hfree : ∀ c : Char, (c.isAlpha || c == '_') = true ∨ c.isDigit = true →
      Lexer.isBlank c = false := by
    intro c hc
    rw [Bool.eq_false_iff]
    intro hblank
    simp only [Lexer.isBlank, Bool.or_eq_true, beq_iff_eq] at hblank
    rcases hblank with ((rfl | rfl) | rfl) | rfl <;> revert hc <;> decide
  cases hwritten with
  | string hquote _ =>
      refine ⟨_, _, rfl, ?_⟩
      rcases hquote with rfl | rfl <;> decide
  | other hne =>
      cases h with
      | word hstart _ _ => exact ⟨_, _, rfl, hfree _ (.inl hstart)⟩
      | number n =>
          obtain ⟨whole, fraction, hwhole, hdigits, -⟩ := n
          obtain ⟨d, ds, rfl⟩ := List.exists_cons_of_ne_nil hwhole
          exact ⟨d, _, rfl, hfree d (.inr (hdigits d List.mem_cons_self))⟩
      | string => exact absurd rfl hne
      | mark hmark =>
          have hall : ∀ m ∈ marks, ∃ c cs, m.2 = c :: cs ∧ Lexer.isBlank c = false := by
            simp [marks, singleCharTokens, Lexer.isBlank]
          exact hall _ hmark

/-! ### All tokens of a text -/

/-- A text has no more tokens than characters. -/
theorem Lexer.Reads.length_le {ts : List Token} (h : Reads ts text) : ts.length ≤ text.length := by
  induction h with
  | nil => exact le_rfl
  | @cons token ts text rest hne hread _ ih =>
      obtain ⟨c, cs, rfl⟩ := List.exists_cons_of_ne_nil hne
      obtain ⟨l', hnext, rfl⟩ := hread ⟨c :: cs, 1, 1⟩ rfl
      have hshorter := nextToken_shorter (l := ⟨c :: cs, 1, 1⟩) rfl hnext
      have hskipped := (List.dropWhile_suffix isBlank (l := l'.rest)).length_le
      rw [List.length_cons] at hshorter ⊢
      rw [List.length_cons]
      omega

/-- What can be read is read. -/
theorem tokenizeLoop_reads {ts : List Token} (h : Lexer.Reads ts text) {turns : Nat}
    (hturns : ts.length ≤ turns) (hl : l.skipWhitespace.rest = text) :
    Lexer.tokenizeLoop turns l = .ok (ts ++ [.endOfFile]) := by
  induction h generalizing turns l with
  | nil =>
      cases turns with
      | zero => rfl
      | succ turns =>
          rw [Lexer.tokenizeLoop, if_pos hl]
          rfl
  | @cons token ts text rest hne hread _ ih =>
      obtain ⟨turns, rfl⟩ : ∃ n, turns = n + 1 :=
        Nat.exists_eq_add_one.mpr (Nat.lt_of_lt_of_le (Nat.succ_pos _) hturns)
      obtain ⟨l', hnext, hl'⟩ := hread l.skipWhitespace hl
      have hskip : l'.skipWhitespace.rest = rest.dropWhile Lexer.isBlank := by
        rw [Lexer.skipWhitespace_rest, hl']
      have hrest : l.skipWhitespace.rest ≠ [] := by rwa [hl]
      rw [Lexer.tokenizeLoop_token hrest hnext, ih (Nat.le_of_succ_le_succ hturns) hskip]
      rfl

/-- The tokens that can be read off a text are those `tokenize` returns. -/
theorem tokenize_reads {ts : List Token} {source : Text}
    (h : Lexer.Reads ts (source.dropWhile Lexer.isBlank)) (hlength : source.length < 2 ^ 31) :
    tokenize source = .ok (ts ++ [.endOfFile]) := by
  have hskipped := (List.dropWhile_suffix Lexer.isBlank (l := source)).length_le
  rw [tokenize, Lexer.size_of_lt hlength, List.take_length]
  exact tokenizeLoop_reads h (h.length_le.trans hskipped) (Lexer.skipWhitespace_rest _)

end NanoVault.Sql
