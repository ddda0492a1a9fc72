/-
Statements over a connection of the network server.

A client sends statements one behind the other, with blanks between them. Whatever part of this
`read` has returned, and however it was cut, `handleSQL` has been given the statements that are
complete, each once and in their order, and reads each as it was written (`statements_served`). The
recovery finds the same statements in the log.
-/
import NanoVault.Sql.Framing
import NanoVault.Sql.StatementRoundTrip

namespace NanoVault.Sql

open Lib NanoVault.Table

/-- A statement as a client sends it: in front of it are blanks, and no string of it has a ';'. -/
structure Sent where
  gap : Text
  blank : ∀ c ∈ gap, Lexer.isBlank c = true
  written : Written
  unbroken : ∀ t ∈ written.tokens, t.type = .string → ';' ∉ t.value

/-- The tokens of a statement in front of its ';'. -/
def Written.body (w : Written) : List Token := w.tokens.dropLast

/-- What is sent; nothing follows the ';'. -/
def Sent.text (m : Sent) : Text := m.gap ++ (spellAll m.written.body ++ [';'])

/-! ### The ';' of a statement -/

/-- None of the tokens is a ';'. -/
def Unmarked (ts : List Token) : Prop := ∀ t ∈ ts, t.type ≠ .semicolon

@[simp] theorem unmarked_nil : Unmarked [] := nofun

@[simp] theorem unmarked_cons {t : Token} {ts : List Token} :
    Unmarked (t :: ts) ↔ t.type ≠ .semicolon ∧ Unmarked ts := List.forall_mem_cons

@[simp] theorem unmarked_append {ts ts' : List Token} :
    Unmarked (ts ++ ts') ↔ Unmarked ts ∧ Unmarked ts' := List.forall_mem_append

@[simp] theorem literal_inner (v : Literal) : ¬v.token.type = .semicolon := by
  cases v <;> exact nofun

@[simp] theorem word_inner (v : Word) : ¬v.token.type = .semicolon := by
  cases v <;> exact nofun

@[simp] theorem statistic_inner (type : Statistic) : ¬type.type = .semicolon := by
  cases type <;> exact nofun

@[simp] theorem unmarked_inParens {ts : List Token} : Unmarked (inParens ts) ↔ Unmarked ts := by
  simp [inParens, openParen, closeParen]

/-- One phrase for each element of a list. -/
theorem unmarked_phrases {α : Type} {phrase : α → List Token} (h : ∀ a, Unmarked (phrase a))
    (as : List α) : Unmarked (withCommas (as.map phrase)) := by
  induction as with
  | nil => exact unmarked_nil
  | cons a as ih =>
      cases as with
      | nil => exact h a
      | cons b as =>
          simp only [List.map_cons, withCommas, unmarked_append, unmarked_cons]
          exact ⟨h a, by simp, ih⟩

/-- Phrases without semicolons stay so one after another. -/
theorem unmarked_flatMap {α : Type} {phrase : α → List Token} (h : ∀ a, Unmarked (phrase a))
    (as : List α) : Unmarked (as.flatMap phrase) := by
  intro t ht
  obtain ⟨a, -, ha⟩ := List.mem_flatMap.mp ht
  exact h a t ha

/-- The tokens of a column hold no semicolon. -/
theorem unmarked_column (c : WrittenColumn) : Unmarked c.tokens := by
  have hconstraints : Unmarked (c.constraints.flatMap constraintTokens) :=
    unmarked_flatMap (fun a => by cases a <;> simp [constraintTokens]) _
  simp only [WrittenColumn.tokens, unmarked_cons, unmarked_append]
  refine ⟨by simp, ?_, hconstraints⟩
  cases c.type with
  | int => simp [WrittenType.tokens]
  | varchar size => cases size <;> simp [WrittenType.tokens]

theorem unmarked_hftTokens (c : Name × Fin (2 ^ 15)) : Unmarked (hftTokens c) := by
  simp [hftTokens]

/-- The tokens of a condition hold no semicolon. -/
theorem unmarked_condition (c : Condition Comparison) : Unmarked c.tokens := by
  induction c with
  | comparison a =>
      obtain ⟨left, op, right⟩ := a
      cases left <;> cases op <;> cases right <;>
        simp [Condition.tokens, Comparison.tokens, Operand.token, opToken]
  | or left right ihl ihr =>
      simp only [Condition.tokens, unmarked_append, unmarked_cons]
      exact ⟨ihl, by simp [logicalToken], ihr⟩
  | and left right ihl ihr =>
      simp only [Condition.tokens, unmarked_append, unmarked_cons]
      refine ⟨?_, by simp [logicalToken], ?_⟩
      · split <;> simp [between, ihl]
      · split <;> simp [between, ihr]

@[simp] theorem unmarked_where (condition : Option (Condition Comparison)) :
    Unmarked (whereTokens condition) := by
  cases condition with
  | none => exact unmarked_nil
  | some c => simp [whereTokens, unmarked_condition c]

@[simp] theorem unmarked_selection (columns : Selection) : Unmarked columns.tokens := by
  cases columns with
  | all => simp [Selection.tokens]
  | columns first others => exact unmarked_phrases (fun n => by simp) _

@[simp] theorem unmarked_limit (limit : Option SmallNumber) : Unmarked (limitPhrase limit) := by
  cases limit <;> simp [limitPhrase]

@[simp] theorem unmarked_parameters (paramas : List Quotable) :
    Unmarked (parameterTokens paramas) := by
  cases paramas with
  | nil => exact unmarked_nil
  | cons first others =>
      simp only [parameterTokens, unmarked_inParens]
      exact unmarked_phrases (fun s => by simp) _

@[simp] theorem unmarked_phrase (phrase : MemoryPhrase) : Unmarked phrase.tokens := by
  cases phrase <;> simp [MemoryPhrase.tokens, equalSign]

/-- A list that ends in a ';'. -/
theorem exists_marked {ts : List Token} (hlast : ts.getLast? = some semicolon)
    (hbody : Unmarked ts.dropLast) : ∃ body, ts = body ++ [semicolon] ∧ Unmarked body :=
  ⟨ts.dropLast, (List.dropLast_append_getLast? semicolon hlast).symm, hbody⟩

/-- The ';' of a statement is its last token. -/
theorem exists_body (w : Written) : ∃ body, w.tokens = body ++ [semicolon] ∧ Unmarked body := by
  cases w with
  | createTable name columns => exact ⟨_, rfl, by simp [unmarked_phrases unmarked_column]⟩
  | createHft name columns symbol top =>
      refine ⟨_, rfl, ?_⟩
      have hcolumns := unmarked_phrases unmarked_hftTokens columns
      cases top <;> simp [hcolumns]
  | statistics type table column condition => exact ⟨_, rfl, by simp⟩
  | delete table condition => exact ⟨_, rfl, by simp⟩
  | insert table first others =>
      have hnames := unmarked_phrases
        (fun v : Name × Literal => by simp : ∀ v, Unmarked [v.1.token]) (first :: others)
      have hvalues := unmarked_phrases
        (fun v : Name × Literal => by simp : ∀ v, Unmarked [v.2.token]) (first :: others)
      refine ⟨_, rfl, ?_⟩
      simp only [unmarked_append, unmarked_cons, unmarked_inParens, unmarked_nil, and_true]
      exact ⟨⟨⟨⟨nofun, nofun, nofun⟩, hnames⟩, nofun⟩, hvalues⟩
  | select columns table condition limit =>
      exact ⟨keyword .select :: (columns.tokens ++ [keyword .fromT, table.token] ++
        whereTokens condition ++ limitPhrase limit), rfl, by simp⟩
  | update table first others condition =>
      have hassigned := unmarked_phrases
        (fun v : Name × Word => by simp [equalSign] :
          ∀ v, Unmarked [v.1.token, equalSign, v.2.token]) (first :: others)
      refine ⟨_, rfl, ?_⟩
      simp only [unmarked_append, unmarked_where, and_true]
      exact ⟨by simp, hassigned⟩
  | memorySet arguments =>
      exact ⟨keyword .memory :: arguments.phrases.flatMap MemoryPhrase.tokens, rfl,
        by simp [unmarked_flatMap unmarked_phrase]⟩
  | enableStrategy strategy paramas symbol columnNo ticks =>
      exact ⟨[keyword .enable, keyword .strategy, strategy.token] ++ parameterTokens paramas ++
        (onSymbol symbol columnNo ticks).dropLast, by simp [Written.tokens, onSymbol],
        by simp [onSymbol]⟩
  | addIndicator indicator paramas symbol columnNo ticks =>
      exact ⟨[keyword .add, keyword .indicator, indicator.token] ++ parameterTokens paramas ++
        (onSymbol symbol columnNo ticks).dropLast, by simp [Written.tokens, onSymbol],
        by simp [onSymbol]⟩
  | setBinance feed =>
      cases feed <;> exact exists_marked rfl (by simp [Written.tokens, BinanceFeed.tokens])
  | drop istable name =>
      cases istable <;> exact exists_marked rfl (by simp [Written.tokens])
  | memoryGet key => exact exists_marked rfl (by simp [Written.tokens, equalSign])
  | _ => exact exists_marked rfl (by simp [Written.tokens])

/-- A statement ends with its one semicolon. -/
theorem tokens_eq (w : Written) : w.tokens = w.body ++ [semicolon] ∧ Unmarked w.body := by
  obtain ⟨body, htokens, hunmarked⟩ := exists_body w
  rw [Written.body, htokens, List.dropLast_concat]
  exact ⟨rfl, hunmarked⟩

/-! ### One statement -/

/-- No blank stands before what is written. -/
theorem dropWhile_closed {ts : List Token} (h : ∀ t ∈ ts, t.Lexes) :
    (spellAll ts ++ [';']).dropWhile Lexer.isBlank = spellAll ts ++ [';'] := by
  cases ts with
  | nil => rfl
  | cons t ts =>
      obtain ⟨⟨c, cs, hspell, hblank⟩, -⟩ := h t List.mem_cons_self
      rw [spellAll_cons, hspell, List.cons_append, List.cons_append, List.dropWhile_cons, hblank]
      rfl

/-- Nothing need stand behind the ';'. -/
theorem reads_closed {ts : List Token} (h : ∀ t ∈ ts, t.Lexes) :
    Lexer.Reads (ts ++ [semicolon]) (spellAll ts ++ [';']) := by
  induction ts with
  | nil =>
      have hmark : Token.ReadOff semicolon [';'] := readOff_mark (by decide)
      exact .cons nofun (fun l hl => hmark l [] hl (.inl rfl)) .nil
  | cons t ts ih =>
      obtain ⟨⟨c, cs, hspell, -⟩, hnext⟩ := h t List.mem_cons_self
      have htail : ∀ t ∈ ts, t.Lexes := fun t ht => h t (List.mem_cons_of_mem _ ht)
      rw [spellAll_cons, List.append_assoc, List.cons_append, List.cons_append]
      refine .cons ?_ (fun l hl => hnext l _ hl) ?_
      · rw [hspell]
        exact List.cons_ne_nil _ _
      · rw [List.dropWhile_cons_of_pos rfl, dropWhile_closed htail]
        exact ih htail

variable {m : Sent}

/-- The lexer reads the tokens of a statement off what was sent. -/
theorem tokenize_sent (m : Sent) (hlen : m.text.length < 2 ^ 31) :
    tokenize m.text = .ok (m.written.tokens ++ [.endOfFile]) := by
  obtain ⟨htokens, -⟩ := tokens_eq m.written
  have hlexes : ∀ t ∈ m.written.body, t.Lexes := by
    intro t ht
    apply lexable_tokens m.written t
    rw [htokens]
    exact List.mem_append_left _ ht
  apply tokenize_reads ?_ hlen
  rw [Sent.text, List.dropWhile_append_of_pos m.blank, htokens, dropWhile_closed hlexes]
  exact reads_closed hlexes

/-- A message is read back as the statement in it. -/
theorem readsBack_sent (m : Sent) (hlen : m.text.length < 2 ^ 31) : ReadsBack m.text m.written := by
  refine ⟨fun db => ?_, fun c hc => m.written.condition_said hc⟩
  unfold readStatement
  rw [tokenize_sent m hlen]
  exact parse_written db [.endOfFile] m.written

/-- A statement that is sent has its only ';' at its end. -/
theorem isPiece_sent (m : Sent) (hlen : m.text.length < 2 ^ 31) : IsPiece ';' m.text := by
  obtain ⟨htokens, hunmarked⟩ := tokens_eq m.written
  have htokenize := tokenize_sent m hlen
  rw [htokens, List.append_assoc] at htokenize
  have hstatement : IsStatement m.text := ⟨m.written.body, htokenize, hunmarked⟩
  rw [hstatement.isPiece_iff hlen]
  constructor
  · rw [Sent.text, ← List.append_assoc, List.getLast?_concat]
  · intro tokens hok token hmem hstring
    obtain rfl := Except.ok.inj ((tokenize_sent m hlen).symm.trans hok)
    obtain hmem | hmem := List.mem_append.mp hmem
    · exact m.unbroken token hmem hstring
    · obtain rfl := List.mem_singleton.mp hmem
      cases hstring

/-- The keywords a statement begins with. -/
def leading : List TokenType :=
  [.create, .statistics, .enable, .list, .fetch, .apply, .insert, .select, .drop, .use, .delete,
    .update, .memory, .add, .set]

/-- A statement begins with one of the leading keywords. -/
theorem head_body (w : Written) : ∃ type ∈ leading, ∃ ts, w.body = keyword type :: ts := by
  have hhead : ∃ type ∈ leading, w.tokens.head? = some (keyword type) := by
    cases w <;> exact ⟨_, by simp [leading], rfl⟩
  obtain ⟨type, htype, hhead⟩ := hhead
  obtain ⟨htokens, -⟩ := tokens_eq w
  rw [htokens] at hhead
  refine ⟨type, htype, ?_⟩
  cases hbody : w.body with
  | nil =>
      rw [hbody] at hhead
      have hmark : semicolon.type = (keyword type).type :=
        congrArg Token.type (Option.some.inj hhead)
      have hnone : TokenType.semicolon ∉ leading := by decide
      rw [keyword_type] at hmark
      change TokenType.semicolon = type at hmark
      exact absurd (hmark ▸ htype) hnone
  | cons t ts =>
      rw [hbody] at hhead
      obtain rfl := Option.some.inj hhead
      exact ⟨ts, rfl⟩

/-- No statement is taken for the end of the connection. -/
theorem leaves_sent (m : Sent) : leaves m.text = false := by
  obtain ⟨type, htype, ts, hbody⟩ := head_body m.written
  have hfirst : ∀ type ∈ leading, 2 ≤ (trimmed (keyword type).spell).length ∧
      (trimmed (keyword type).spell).take 2 ∉ ["ex".toList, "qu".toList] := by
    decide +kernel
  obtain ⟨hlength, htake⟩ := hfirst type htype
  have htext : ∃ rest, trimmed m.text = trimmed (keyword type).spell ++ rest := by
    refine ⟨trimmed (' ' :: (spellAll ts ++ [';'])), ?_⟩
    have hgap : trimmed m.gap = [] := by
      refine List.filter_eq_nil_iff.mpr fun c hc => ?_
      have hblank := m.blank c hc
      simp only [Lexer.isBlank, Bool.or_eq_true, beq_iff_eq] at hblank
      rcases hblank with ((rfl | rfl) | rfl) | rfl <;> decide
    rw [Sent.text, hbody, spellAll_cons]
    simp only [trimmed, List.filter_append, List.append_assoc, List.cons_append] at hgap ⊢
    rw [hgap]
    rfl
  obtain ⟨rest, hrest⟩ := htext
  have hstart : (trimmed m.text).take 2 = (trimmed (keyword type).spell).take 2 := by
    rw [hrest, List.take_append_of_le_length hlength]
  rw [← hstart] at htake
  refine decide_eq_false (not_or.mpr ⟨fun hexit => htake ?_, fun hquit => htake ?_⟩)
  · rw [hexit]
    decide
  · rw [hquit]
    decide

/-! ### A connection -/

/-- Any number of statements, with any blanks between them, arriving in reads of any sizes: when a
part of them has arrived, the server has been given the statements that are complete, in their
order, and reads each as it was written, whatever database is in use by then; and the recovery reads
them off the log. -/
theorem statements_served (ms : List Sent) (hlen : ∀ m ∈ ms, m.text.length < 2 ^ 31)
    (reads : Session) (unsent : Text)
    (hsent : reads.stream ++ unsent = (ms.map Sent.text).flatten) :
    List.Forall₂ (fun sql m => ReadsBack sql m.written)
      (handleClient (fun _ => true) reads.parts) (ms.take (reads.stream.count ';')) ∧
    List.Forall₂ (fun sql m => ReadsBack sql m.written)
      (exec_rem_sqls (ms.map Sent.text).flatten) ms := by
  have hread : ∀ l : List Sent, (∀ m ∈ l, m ∈ ms) →
      List.Forall₂ (fun sql m => ReadsBack sql m.written) (l.map Sent.text) l := by
    intro l hl
    rw [List.forall₂_map_left_iff, List.forall₂_same]
    exact fun m hm => readsBack_sent m (hlen m (hl m hm))
  have hpieces : ∀ text ∈ ms.map Sent.text, IsPiece ';' text := by
    intro text htext
    obtain ⟨m, hm, rfl⟩ := List.mem_map.mp htext
    exact isPiece_sent m (hlen m hm)
  have hcut := cut_prefix hpieces hsent
  have hserved : ∀ sql ∈ (cut ';' reads.parts.flatten).1, Served (fun _ => true) sql := by
    intro sql hsql
    rw [Session.stream] at hcut
    rw [hcut] at hsql
    obtain ⟨m, -, rfl⟩ := List.mem_map.mp (List.mem_of_mem_take hsql)
    obtain ⟨hexit, hquit⟩ := not_or.mp (of_decide_eq_false (leaves_sent m))
    exact ⟨hexit, hquit, rfl⟩
  constructor
  · rw [handleClient_eq hserved, ← Session.stream, hcut, ← List.map_take]
    exact hread _ fun m hm => List.mem_of_mem_take hm
  · rw [exec_rem_sqls_eq hpieces]
    exact hread ms fun m hm => hm

theorem lineBreak_blank : ∀ c ∈ ['\n'], Lexer.isBlank c = true := by
  simp [Lexer.isBlank]

theorem insertUsers_unbroken : ∀ t ∈ insertUsers.tokens, t.type = .string → ';' ∉ t.value := by
  decide +kernel

/-- `insert into users ( age ) values ( 'a, b' );`, sent behind a line break. -/
def sentInsert : Sent where
  gap := ['\n']
  blank := lineBreak_blank
  written := insertUsers
  unbroken := insertUsers_unbroken

/-- The last of two statements is not complete. -/
def sentReads : Session where
  parts := [sentInsert.text ++ sentInsert.text.take 10, (sentInsert.text.drop 10).take 5]
  nonempty := by decide +kernel
  fits := by decide +kernel

/-- `statements_served` when the second statement has arrived in part. -/
theorem statements_served_part : List.Forall₂ (fun sql m => ReadsBack sql m.written)
    (handleClient (fun _ => true) sentReads.parts) [sentInsert] := by
  have hlen : ∀ m ∈ [sentInsert, sentInsert], m.text.length < 2 ^ 31 := by decide +kernel
  have hcount : sentReads.stream.count ';' = 1 := by decide +kernel
  have hserved := (statements_served [sentInsert, sentInsert] hlen sentReads
    (sentInsert.text.drop 15) (by decide +kernel)).1
  rw [hcount] at hserved
  exact hserved

end NanoVault.Sql
