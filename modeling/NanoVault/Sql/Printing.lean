/-
Tokens that are printed and read again (`Lexer::tokenize` in `SQL_LEXER.hpp`).

`Lexing` is the loop of `tokenize` without a bound: it ends on every source, and the model computes
what it ends with (`lexing_tokenize`). The tokens of a source that is accepted, written one behind
the other with a blank between them, are the tokens of what is written. The cursor and the size of
the source are `int`s: all this is so for texts of less than 2^31 characters (`lexing_stable`), and
of 2^31 semicolons the lexer sees none (`semicolons_unseen`).
-/
import NanoVault.Sql.Tokens

namespace NanoVault.Sql

open NanoVault.Table

/-- The loop of `tokenize`: what it ends with, from a lexer on. -/
inductive Lexing : Lexer → Except Fault (List Token) → Prop where
  | done {l : Lexer} : l.skipWhitespace.rest = [] → Lexing l (.ok [.endOfFile])
  | fails {l : Lexer} {e : Fault} :
      l.skipWhitespace.rest ≠ [] → l.skipWhitespace.nextToken = .error e → Lexing l (.error e)
  | token {l l' : Lexer} {token : Token} {result : Except Fault (List Token)} :
      l.skipWhitespace.rest ≠ [] → l.skipWhitespace.nextToken = .ok (token, l') →
        Lexing l' result → Lexing l (result.map (token :: ·))

/-- Texts with a blank between them. -/
def spaced (texts : List Text) : Text := [' '].intercalate texts

variable {l l' : Lexer} {token : Token} {tokens ts : List Token} {text source : Text}
  {texts : List Text}

/-! ### The loop ends -/

theorem skipWhitespace_le (l : Lexer) : l.skipWhitespace.rest.length ≤ l.rest.length := by
  obtain ⟨blanks, -, hl⟩ := l.skipWhitespace_append
  rw [hl, List.length_append]
  omega

/-- With as many turns as there are characters the loop has come to its end. -/
theorem lexing_tokenizeLoop {turns : Nat} (hturns : l.rest.length ≤ turns) :
    Lexing l (Lexer.tokenizeLoop turns l) := by
  induction turns generalizing l with
  | zero =>
      have hle := (skipWhitespace_le l).trans hturns
      exact .done (List.eq_nil_of_length_eq_zero (Nat.le_zero.mp hle))
  | succ turns ih =>
      by_cases hrest : l.skipWhitespace.rest = []
      · rw [Lexer.tokenizeLoop, if_pos hrest]
        exact .done hrest
      · cases hnext : l.skipWhitespace.nextToken with
        | error e =>
            rw [Lexer.tokenizeLoop, if_neg hrest, hnext]
            exact .fails hrest hnext
        | ok read =>
            obtain ⟨token, l'⟩ := read
            obtain ⟨c, cs, hl⟩ := List.exists_cons_of_ne_nil hrest
            have hshorter := Lexer.nextToken_shorter hl hnext
            have hle := skipWhitespace_le l
            rw [Lexer.tokenizeLoop_token hrest hnext]
            exact .token hrest hnext (ih (by omega))

/-- `tokenize` ends on every source, on the characters in front of `size`. -/
theorem lexing_tokenize (source : Text) :
    Lexing ⟨source.take (Lexer.size source.length), 1, 1⟩ (tokenize source) :=
  lexing_tokenizeLoop (le_refl _)

/-! ### Reading what is printed -/

/-- What follows the first text. -/
theorem spaced_cons (text : Text) (texts : List Text) :
    ∃ rest, spaced (text :: texts) = text ++ rest ∧ Ends rest ∧
      rest.dropWhile Lexer.isBlank = (spaced texts).dropWhile Lexer.isBlank := by
  cases texts with
  | nil =>
      refine ⟨[], ?_, .inl rfl, rfl⟩
      rw [spaced, List.intercalate_singleton, List.append_nil]
  | cons text' texts =>
      refine ⟨' ' :: spaced (text' :: texts), ?_, .inr ⟨_, rfl⟩, rfl⟩
      rw [spaced, List.intercalate_cons_cons, List.append_assoc]
      rfl

/-- No token begins with a blank. -/
theorem dropWhile_spaced (hlexical : ∀ t ∈ ts, t.Lexical)
    (hwritten : List.Forall₂ Token.Written ts texts) :
    (spaced texts).dropWhile Lexer.isBlank = spaced texts := by
  cases hwritten with
  | nil => rfl
  | @cons token text ts texts hfirst _ =>
      obtain ⟨c, cs, rfl, hblank⟩ := (hlexical token List.mem_cons_self).start hfirst
      obtain ⟨rest, hspaced, -⟩ := spaced_cons (c :: cs) texts
      rw [hspaced, List.cons_append, List.dropWhile_cons, hblank]
      rfl

theorem reads_spaced (hlexical : ∀ t ∈ ts, t.Lexical)
    (hwritten : List.Forall₂ Token.Written ts texts) : Lexer.Reads ts (spaced texts) := by
  induction hwritten with
  | nil => exact .nil
  | @cons token text ts texts hfirst hmore ih =>
      have htoken := hlexical token List.mem_cons_self
      have htail : ∀ t ∈ ts, t.Lexical := fun t ht => hlexical t (List.mem_cons_of_mem _ ht)
      obtain ⟨rest, hspaced, hends, hdrop⟩ := spaced_cons text texts
      obtain ⟨c, cs, hstart, -⟩ := htoken.start hfirst
      rw [hspaced]
      refine .cons ?_ (fun l hl => htoken.reads hfirst l rest hl hends) ?_
      · rw [hstart]
        exact List.cons_ne_nil _ _
      · rw [hdrop, dropWhile_spaced htail hmore]
        exact ih htail

theorem exists_written (hlexical : ∀ t ∈ ts, t.Lexical) :
    ∃ texts, List.Forall₂ Token.Written ts texts := by
  induction ts with
  | nil => exact ⟨[], .nil⟩
  | cons token ts ih =>
      obtain ⟨text, htext⟩ := (hlexical token List.mem_cons_self).exists_written
      obtain ⟨texts, htexts⟩ := ih fun t ht => hlexical t (List.mem_cons_of_mem _ ht)
      exact ⟨text :: texts, .cons htext htexts⟩

/-- What is asked of a source that is accepted: every character outside of the blanks belongs to
one token, the tokens can be written, and however they are written, with a blank between them,
they are read again. -/
structure Stable (source : Text) (tokens : List Token) : Prop where
  covered : Spelled tokens source
  written : ∃ ts texts, tokens = ts ++ [.endOfFile] ∧ List.Forall₂ Token.Written ts texts
  reread : ∀ ts texts, tokens = ts ++ [.endOfFile] → List.Forall₂ Token.Written ts texts →
    tokenize (spaced texts) = .ok tokens

/-- Whatever the lexer accepts is stable. -/
def LexingStable : Prop := ∀ source tokens, tokenize source = .ok tokens → Stable source tokens

/-- The loop of `tokenize` ends on every source. A source that it accepts consists of blanks and of
the spellings of the tokens, each character belonging to one of them, if it has less than 2^31
characters; and what the tokens are written as is read as the same tokens, as long as that has less
than 2^31 characters. -/
theorem lexing_stable (source : Text) :
    Lexing ⟨source.take (Lexer.size source.length), 1, 1⟩ (tokenize source) ∧
      ∀ tokens, tokenize source = .ok tokens →
        (source.length < 2 ^ 31 → Spelled tokens source) ∧ ∃ ts, tokens = ts ++ [.endOfFile] ∧
          (∃ texts, List.Forall₂ Token.Written ts texts) ∧
          ∀ texts, List.Forall₂ Token.Written ts texts → (spaced texts).length < 2 ^ 31 →
            tokenize (spaced texts) = .ok tokens := by
  refine ⟨lexing_tokenize source, ?_⟩
  intro tokens htokens
  obtain ⟨ts, rfl, hlexical⟩ := tokenize_lexical htokens
  constructor
  · intro hlength
    have hspelled := tokenize_spelled htokens
    rwa [Lexer.size_of_lt hlength, List.take_length] at hspelled
  · refine ⟨ts, rfl, exists_written hlexical, fun texts hwritten hshort => ?_⟩
    refine tokenize_reads ?_ hshort
    rw [dropWhile_spaced hlexical hwritten]
    exact reads_spaced hlexical hwritten

/-- `A='b'` with blanks, and between the other quote. -/
theorem lexing_stable_equation : tokenize "a = \x22b\x22".toList =
    .ok [⟨.identifier, ['a']⟩, ⟨.equal, ['=']⟩, ⟨.string, ['b']⟩, .endOfFile] := by
  obtain ⟨-, ts, htokens, -, hreread⟩ := (lexing_stable "A='b'".toList).2
    [⟨.identifier, ['a']⟩, ⟨.equal, ['=']⟩, ⟨.string, ['b']⟩, .endOfFile] (by decide)
  obtain rfl : [⟨.identifier, ['a']⟩, ⟨.equal, ['=']⟩, ⟨.string, ['b']⟩] = ts :=
    List.append_cancel_right htokens
  exact hreread [['a'], ['='], "\x22b\x22".toList]
    (.cons (.other (by decide)) (.cons (.other (by decide))
      (.cons (.string (.inr rfl) (by decide)) .nil))) (by decide)

theorem spelled_endOfFile (h : Spelled [.endOfFile] text) : text.all Lexer.isBlank = true := by
  cases h with
  | done hblank => exact hblank
  | token _ _ hrest => cases hrest

/-- `size` is negative for a source of 2^31 characters, and the loop does not begin. -/
theorem semicolons_unseen : ¬ LexingStable := by
  intro h
  have hsize : Lexer.size (2 ^ 31) = 0 := by decide
  have haccepted : tokenize (List.replicate (2 ^ 31) ';') = .ok [.endOfFile] := by
    rw [tokenize, List.length_replicate, hsize, List.take_zero]
    rfl
  have hblank := spelled_endOfFile (h _ _ haccepted).covered
  have hmem : ';' ∈ List.replicate (2 ^ 31) ';' :=
    List.mem_replicate.mpr ⟨by decide, rfl⟩
  exact absurd (List.all_eq_true.mp hblank ';' hmem) (by decide)

end NanoVault.Sql
