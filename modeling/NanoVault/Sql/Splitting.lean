/-
Finding the statements in a stream of characters (`handleClient` in `network_server.cpp`,
`exec_rem_sqls` in `logging.hpp`).

The server and the recovery both cut at every ';'. The lexer takes a ';' between quotes for
a character of the string, so that they find the statements a client has sent, or the log
holds, exactly if none has a ';' but at its end (`splitting_agrees`).
-/
import NanoVault.Lib.Splitting
import NanoVault.Sql.Lexer

namespace NanoVault.Sql

open Lib NanoVault.Table

/-! ### The network server -/

/-- The state of `handleClient`: what has been read and not been used yet, the statements
handed to `handleSQL`, and whether the connection has been closed. -/
structure Client where
  clientBuffer : Text := []
  handed : List Text := []
  closed : Bool := false
deriving DecidableEq, Repr

/-- The statement without its white space. -/
def trimmed (sql : Text) : Text := sql.filter fun c => !isSpace c

/-- The inner loop of `handleClient`, for as many turns as there are characters; `sendAll`
tells whether the response to a statement gets out. -/
def Client.drain (sendAll : Text → Bool) : Nat → Client → Client
  | 0, client => client
  | turns + 1, client =>
      match client.clientBuffer.idxOf? ';' with
      | none => client
      | some pos =>
          let sql := client.clientBuffer.take (pos + 1)
          let client := { client with clientBuffer := client.clientBuffer.drop (pos + 1) }
          if trimmed sql = "exit;".toList ∨ trimmed sql = "quit;".toList then
            { client with closed := true }
          else
            let client := { client with handed := client.handed ++ [sql] }
            if sendAll sql then client.drain sendAll turns
            else { client with closed := true }

/-- A turn of the outer loop, for the bytes a `read` has returned. -/
def Client.receive (sendAll : Text → Bool) (client : Client) (bytes : Text) : Client :=
  if client.closed then client
  else
    let buffer := client.clientBuffer ++ bytes
    { client with clientBuffer := buffer }.drain sendAll buffer.length

/-- `handleClient`: the statements handed to `handleSQL` and so to the lexer, for the bytes
of every `read`. -/
def handleClient (sendAll : Text → Bool) (reads : List Text) : List Text :=
  (reads.foldl (Client.receive sendAll) {}).handed

/-! ### The log -/

/-- The loop of `exec_rem_sqls`. -/
def leftoverSQLs : Text → Text → List Text
  | [], curr => if curr.all Lexer.isBlank then [] else [curr]
  | c :: content, curr =>
      if c = ';' then (curr ++ [c]) :: leftoverSQLs content [] else leftoverSQLs content (curr ++ [c])

/-- `exec_rem_sqls`: the statements handed to the lexer, for the content of the log. -/
def exec_rem_sqls (content : Text) : List Text :=
  if content.all Lexer.isBlank then [] else leftoverSQLs content []

/-- A text the lexer takes for one statement: its one SEMICOLON is the last token. -/
def IsStatement (text : Text) : Prop :=
  ∃ tokens, tokenize text = .ok (tokens ++ [⟨.semicolon, [';']⟩, .endOfFile]) ∧
    ∀ token ∈ tokens, token.type ≠ .semicolon

/-! ### What the two hand on -/

variable {sendAll : Text → Bool} {client : Client} {text : Text} {texts reads : List Text}

theorem leftoverSQLs_eq (content : Text) {curr : Text} (hcurr : ';' ∉ curr) :
    leftoverSQLs content curr = (cut ';' (curr ++ content)).1 ++
      if (cut ';' (curr ++ content)).2.all Lexer.isBlank then []
      else [(cut ';' (curr ++ content)).2] := by
  induction content generalizing curr with
  | nil =>
    rw [List.append_nil, cut_of_notMem hcurr]
    rfl
  | cons c content ih =>
    by_cases hc : c = ';'
    · have htail := @ih [] List.not_mem_nil
      rw [List.nil_append] at htail
      rw [hc, leftoverSQLs, if_pos rfl, htail, cut_piece hcurr, List.cons_append]
    · have hnext : ';' ∉ curr ++ [c] := by
        rw [List.mem_append, List.mem_singleton]
        exact not_or.2 ⟨hcurr, Ne.symm hc⟩
      rw [leftoverSQLs, if_neg hc, ih hnext, List.append_assoc, List.singleton_append]

/-- A buffer with a ';' is a piece and what follows it. -/
theorem exists_piece {buffer : Text} {pos : Nat} (h : buffer.idxOf? ';' = some pos) :
    ∃ s, buffer = s ++ ';' :: buffer.drop (pos + 1) ∧ buffer.take (pos + 1) = s ++ [';'] ∧
      ';' ∉ s := by
  obtain ⟨hlt, hat, hbefore⟩ := List.idxOf?_eq_some_iff.1 h
  refine ⟨buffer.take pos, ?_, ?_, ?_⟩
  · have hdrop := List.drop_eq_getElem_cons hlt
    rw [hat] at hdrop
    rw [← hdrop]
    exact (List.take_append_drop pos buffer).symm
  · rw [← hat]
    exact (List.take_append_getElem hlt).symm
  · intro hmem
    obtain ⟨i, hi, heq⟩ := List.mem_take_iff_getElem.1 hmem
    exact hbefore i (by omega) heq

/-- Whatever is handed on has its only ';' at its end. -/
theorem Client.drain_isPiece (turns : Nat) (h : ∀ sql ∈ client.handed, IsPiece ';' sql) :
    ∀ sql ∈ (client.drain sendAll turns).handed, IsPiece ';' sql := by
  induction turns generalizing client with
  | zero => exact h
  | succ turns ih =>
    unfold Client.drain
    split
    · exact h
    · rename_i pos hpos
      obtain ⟨s, _, htake, hs⟩ := exists_piece hpos
      have hnext : ∀ sql ∈ client.handed ++ [client.clientBuffer.take (pos + 1)],
          IsPiece ';' sql := by
        intro sql hsql
        obtain hsql | hsql := List.mem_append.1 hsql
        · exact h sql hsql
        · rw [List.mem_singleton.1 hsql]
          exact ⟨s, htake, hs⟩
      dsimp only
      split
      · exact h
      split
      · exact ih hnext
      · exact hnext

theorem handleClient_isPiece (sendAll : Text → Bool) (reads : List Text) :
    ∀ sql ∈ handleClient sendAll reads, IsPiece ';' sql := by
  suffices h : ∀ client : Client, (∀ sql ∈ client.handed, IsPiece ';' sql) →
      ∀ sql ∈ (reads.foldl (Client.receive sendAll) client).handed, IsPiece ';' sql from
    h {} (by simp)
  induction reads with
  | nil => exact fun client h => h
  | cons bytes reads ih =>
    intro client h
    apply ih
    unfold Client.receive
    split
    · exact h
    · exact Client.drain_isPiece _ h

/-- A statement after which the connection stays open. -/
def Served (sendAll : Text → Bool) (sql : Text) : Prop :=
  trimmed sql ≠ "exit;".toList ∧ trimmed sql ≠ "quit;".toList ∧ sendAll sql

/-- The inner loop hands on all pieces of the buffer. -/
theorem Client.drain_eq {turns : Nat} (hturns : client.clientBuffer.length ≤ turns)
    (h : ∀ sql ∈ (cut ';' client.clientBuffer).1, Served sendAll sql) :
    client.drain sendAll turns =
      { client with
        clientBuffer := (cut ';' client.clientBuffer).2
        handed := client.handed ++ (cut ';' client.clientBuffer).1 } := by
  induction turns generalizing client with
  | zero =>
    have hnil := List.eq_nil_of_length_eq_zero (Nat.le_zero.1 hturns)
    cases client
    simp_all [Client.drain]
  | succ turns ih =>
    unfold Client.drain
    split
    · rename_i hnone
      have hcut := cut_of_notMem (List.idxOf?_eq_none_iff.1 hnone)
      simp [hcut]
    · rename_i pos hpos
      obtain ⟨s, hbuffer, htake, hs⟩ := exists_piece hpos
      have hcut := cut_piece hs (client.clientBuffer.drop (pos + 1))
      rw [← hbuffer] at hcut
      rw [hcut] at h ⊢
      have hserved := h _ (List.mem_cons_self ..)
      have hlater := fun sql hsql => h sql (List.mem_cons_of_mem _ hsql)
      simp only [htake]
      rw [if_neg (not_or.2 ⟨hserved.1, hserved.2.1⟩), if_pos hserved.2.2]
      have hshort : (client.clientBuffer.drop (pos + 1)).length ≤ turns := by
        rw [List.length_drop]
        omega
      rw [ih hshort hlater]
      simp

/-- The connection hands on all pieces of what it has read, however it arrived. -/
theorem handleClient_eq (h : ∀ sql ∈ (cut ';' reads.flatten).1, Served sendAll sql) :
    handleClient sendAll reads = (cut ';' reads.flatten).1 := by
  suffices hrun : reads.foldl (Client.receive sendAll) {} =
      { clientBuffer := (cut ';' reads.flatten).2, handed := (cut ';' reads.flatten).1 } by
    unfold handleClient
    rw [hrun]
  induction reads using List.reverseRecOn with
  | nil => rfl
  | append_singleton reads bytes ih =>
    simp only [List.flatten_append, List.flatten_singleton] at h ⊢
    rw [cut_append] at h ⊢
    have hbefore := ih fun sql hsql => h sql (List.mem_append_left _ hsql)
    rw [List.foldl_append, hbefore]
    simp only [List.foldl_cons, List.foldl_nil, Client.receive, Bool.false_eq_true, if_false]
    exact Client.drain_eq (le_refl _) fun sql hsql => h sql (List.mem_append_right _ hsql)

theorem exec_rem_sqls_eq (h : ∀ text ∈ texts, IsPiece ';' text) :
    exec_rem_sqls texts.flatten = texts := by
  unfold exec_rem_sqls
  split
  · rename_i hblank
    cases texts with
    | nil => rfl
    | cons text texts =>
      obtain ⟨s, rfl, _⟩ := h text List.mem_cons_self
      simp [Lexer.isBlank] at hblank
  · have hloop := leftoverSQLs_eq texts.flatten List.not_mem_nil
    rw [List.nil_append, cut_flatten h] at hloop
    simpa using hloop

/-! ### The ';' of a text -/

/-- How many ';' a token is spelled with. -/
def Token.terminators (token : Token) : Nat :=
  if token.type = .semicolon then 1
  else if token.type = .string then token.value.count ';' else 0

theorem Token.terminators_of_ne {token : Token} (hmark : token.type ≠ .semicolon)
    (hstring : token.type ≠ .string) : token.terminators = 0 := by
  rw [terminators, if_neg hmark, if_neg hstring]

theorem count_eq_zero_of_all {test : Char → Prop} (hall : ∀ c ∈ text, test c)
    (htest : ¬test ';') : text.count ';' = 0 :=
  List.count_eq_zero.2 fun hmem => htest (hall _ hmem)

theorem Token.Spells.count {token : Token} (h : token.Spells text) :
    text.count ';' = token.terminators := by
  cases h with
  | word htype _ hall =>
    have hkeywords : ∀ type ∈ TokenType.identifier :: keywords.map Prod.snd,
        type ≠ .semicolon ∧ type ≠ .string := by decide
    obtain ⟨hmark, hstring⟩ := hkeywords _ (List.mem_cons.2 htype)
    rw [Token.terminators_of_ne hmark hstring]
    exact count_eq_zero_of_all hall (by decide)
  | number _ hall =>
    rw [Token.terminators_of_ne (by simp) (by simp)]
    exact count_eq_zero_of_all hall (by decide)
  | string hquote _ =>
    rcases hquote with rfl | rfl <;> simp [Token.terminators]
  | mark hmark =>
    have hmarks : ∀ mark ∈ marks, mark.2.count ';' = Token.terminators ⟨mark.1, mark.2⟩ := by
      decide
    exact hmarks _ hmark

/-- Every ';' of a text belongs to a SEMICOLON or stands in a string. -/
theorem Spelled.count {tokens : List Token} (h : Spelled tokens text) :
    text.count ';' = (tokens.map Token.terminators).sum := by
  have hblanks : ∀ {blanks : Text}, blanks.all Lexer.isBlank → blanks.count ';' = 0 :=
    fun h => count_eq_zero_of_all (List.all_eq_true.1 h) (by decide)
  induction h with
  | done hblank =>
    rw [hblanks hblank]
    rfl
  | token hblank hspells _ ih =>
    simp only [List.count_append, List.map_cons, List.sum_cons]
    rw [hblanks hblank, hspells.count, ih]
    omega

theorem IsStatement.mem (h : IsStatement text) : ';' ∈ text := by
  obtain ⟨tokens, htokens, _⟩ := h
  have hcount := (tokenize_spelled htokens).count
  have hpos : 0 < (text.take (Lexer.size text.length)).count ';' := by
    rw [hcount]
    simp [Token.terminators]
  exact List.mem_of_mem_take (List.count_pos_iff.1 hpos)

/-- A statement has its only ';' at its end exactly if none stands in a string and nothing
follows the SEMICOLON. -/
theorem IsStatement.isPiece_iff (h : IsStatement text) (hlength : text.length < 2 ^ 31) :
    IsPiece ';' text ↔ text.getLast? = some ';' ∧
      ∀ tokens, tokenize text = .ok tokens → ∀ token ∈ tokens, token.type = .string →
        ';' ∉ token.value := by
  obtain ⟨tokens, htokens, hno⟩ := h
  have hcount := (tokenize_spelled htokens).count
  have hsize : Lexer.size text.length = text.length := by
    rw [Lexer.size, Int32.toInt_ofNat_of_lt hlength]
    exact Int.toNat_natCast _
  rw [hsize, List.take_length] at hcount
  have hzero : (tokens.map Token.terminators).sum = 0 ↔
      ∀ token ∈ tokens, token.type = .string → ';' ∉ token.value := by
    rw [List.sum_eq_zero_iff]
    constructor
    · intro hall token hmem hstring
      have hterm := hall _ (List.mem_map_of_mem hmem)
      rw [Token.terminators, if_neg (hno token hmem), if_pos hstring] at hterm
      exact List.count_eq_zero.1 hterm
    · intro hall n hn
      obtain ⟨token, hmem, rfl⟩ := List.mem_map.1 hn
      by_cases hstring : token.type = .string
      · rw [Token.terminators, if_neg (hno token hmem), if_pos hstring]
        exact List.count_eq_zero.2 (hall token hmem hstring)
      · exact Token.terminators_of_ne (hno token hmem) hstring
  have hone : text.count ';' = 1 ↔
      ∀ token ∈ tokens, token.type = .string → ';' ∉ token.value := by
    rw [← hzero, hcount]
    simp [Token.terminators, Token.endOfFile]
  rw [Lib.isPiece_iff, hone, and_comm]
  apply and_congr_right
  intro _
  constructor
  · intro hall tokens' htokens' token hmem hstring
    obtain rfl := Except.ok.inj (htokens.symm.trans htokens')
    obtain hmem | hmem := List.mem_append.1 hmem
    · exact hall token hmem hstring
    · have hlast : ∀ token ∈ [(⟨.semicolon, [';']⟩ : Token), .endOfFile],
          token.type ≠ .string := by decide
      exact absurd hstring (hlast token hmem)
  · intro hall token hmem
    exact hall _ htokens token (List.mem_append_left _ hmem)

/-! ### Agreement -/

/-- For every list of statements, none of which ends the connection, however they arrive: the
server and the recovery hand exactly these to the lexer if and only if each has its only ';'
at its end. In a statement of less than 2^31 characters that is so if and only if nothing
follows the SEMICOLON and no string has a ';' in it. -/
theorem splitting_agrees (sendAll : Text → Bool) (texts reads : List Text)
    (hstatements : ∀ text ∈ texts, IsStatement text)
    (hserved : ∀ text ∈ texts, Served sendAll text) (hreads : reads.flatten = texts.flatten) :
    ((handleClient sendAll reads = texts ∧ exec_rem_sqls texts.flatten = texts) ↔
      ∀ text ∈ texts, IsPiece ';' text) ∧
    ∀ text ∈ texts, text.length < 2 ^ 31 →
      (IsPiece ';' text ↔ text.getLast? = some ';' ∧
        ∀ tokens, tokenize text = .ok tokens → ∀ token ∈ tokens, token.type = .string →
          ';' ∉ token.value) := by
  refine ⟨⟨?_, ?_⟩, ?_⟩
  · rintro ⟨hclient, _⟩ text hmem
    apply handleClient_isPiece sendAll reads
    rwa [hclient]
  · intro hpieces
    refine ⟨?_, exec_rem_sqls_eq hpieces⟩
    have hcut := cut_flatten hpieces
    rw [← hreads] at hcut
    rw [handleClient_eq (by simpa only [hcut] using hserved), hcut]
  · intro text hmem hlength
    exact (hstatements text hmem).isPiece_iff hlength

/-- An INSERT of a string without a ';', and one of a string with it. -/
def plainStatement : Text := "INSERT INTO t (a) VALUES ('x');".toList

def quotedStatement : Text := "INSERT INTO t (a) VALUES ('x;y');".toList

theorem plainStatement_tokens : tokenize plainStatement = .ok
    ([⟨.insert, "insert".toList⟩, ⟨.into, "into".toList⟩, ⟨.identifier, ['t']⟩,
      ⟨.openParen, ['(']⟩, ⟨.identifier, ['a']⟩, ⟨.closeParen, [')']⟩,
      ⟨.values, "values".toList⟩, ⟨.openParen, ['(']⟩, ⟨.string, ['x']⟩,
      ⟨.closeParen, [')']⟩] ++ [⟨.semicolon, [';']⟩, .endOfFile]) := by
  decide

theorem isStatement_plainStatement : IsStatement plainStatement :=
  ⟨_, plainStatement_tokens, by decide⟩

theorem quotedStatement_tokens : tokenize quotedStatement = .ok
    ([⟨.insert, "insert".toList⟩, ⟨.into, "into".toList⟩, ⟨.identifier, ['t']⟩,
      ⟨.openParen, ['(']⟩, ⟨.identifier, ['a']⟩, ⟨.closeParen, [')']⟩,
      ⟨.values, "values".toList⟩, ⟨.openParen, ['(']⟩, ⟨.string, "x;y".toList⟩,
      ⟨.closeParen, [')']⟩] ++ [⟨.semicolon, [';']⟩, .endOfFile]) := by
  decide

theorem isStatement_quotedStatement : IsStatement quotedStatement :=
  ⟨_, quotedStatement_tokens, by decide⟩

/-- Two statements that arrive cut in the middle are handed on as they were sent. -/
theorem splitting_agrees_plain :
    handleClient (fun _ => true) [plainStatement ++ plainStatement.take 9, plainStatement.drop 9] =
        [plainStatement, plainStatement] ∧
      exec_rem_sqls (plainStatement ++ plainStatement) = [plainStatement, plainStatement] :=
  (splitting_agrees (fun _ => true) [plainStatement, plainStatement]
    [plainStatement ++ plainStatement.take 9, plainStatement.drop 9]
    (by simpa using isStatement_plainStatement) (by unfold Served; decide) (by decide)).1.2
    (by
      simp only [Lib.isPiece_iff]
      decide)

/-- The lexer takes the text for one statement, the server and the recovery for two. -/
theorem quoted_semicolon_splits : IsStatement quotedStatement ∧
    handleClient (fun _ => true) [quotedStatement] =
      ["INSERT INTO t (a) VALUES ('x;".toList, "y');".toList] ∧
    exec_rem_sqls quotedStatement =
      ["INSERT INTO t (a) VALUES ('x;".toList, "y');".toList] :=
  ⟨isStatement_quotedStatement, by decide, by decide⟩

end NanoVault.Sql
