/-
How the bytes of a client are cut into reads (`handleClient` in `network_server.cpp`).

`read` may end anywhere: inside of a statement, on its ';', or behind several of them. What
`handleSQL` is given depends on the bytes alone. It is the statements in front of the first one
that ends the connection, and that one ends it however the bytes arrive (`framing`).
-/
import NanoVault.Sql.Splitting

namespace NanoVault.Sql

open Lib NanoVault.Table

/-- The size of `buffer`. -/
def bufferSize : Nat := 4096

/-- The bytes of a client, as `read` returns them one call after the other. -/
structure Session where
  parts : List Text
  nonempty : ∀ part ∈ parts, part ≠ []
  fits : ∀ part ∈ parts, part.length ≤ bufferSize

def Session.stream (reads : Session) : Text := reads.parts.flatten

/-- `handleClient` before the next `read`; every `sendAll` has succeeded. -/
def Session.client (reads : Session) : Client := reads.parts.foldl (Client.receive fun _ => true) {}

/-- A statement that ends the connection. -/
def leaves (sql : Text) : Bool := trimmed sql = "exit;".toList ∨ trimmed sql = "quit;".toList

/-- The statements in front of the first one that ends the connection. -/
def served (statements : List Text) : List Text := statements.takeWhile fun sql => !leaves sql

variable {client : Client} {stream : Text}

/-! ### Statements that end the connection -/

theorem served_append (before after : List Text) :
    served (before ++ after) =
      if before.any leaves then served before else served before ++ served after := by
  rw [served, served, served, List.takeWhile_append]
  cases hany : before.any leaves with
  | false =>
      have hall : before.takeWhile (fun sql => !leaves sql) = before := by
        refine List.takeWhile_eq_self_iff.mpr fun sql hsql => ?_
        have hstays := List.any_eq_false.mp hany sql hsql
        simpa using hstays
      rw [hall, if_pos rfl, if_neg Bool.false_ne_true]
  | true =>
      rw [if_pos rfl]
      refine if_neg fun hlength => ?_
      have hall := (List.takeWhile_prefix _).eq_of_length hlength
      obtain ⟨sql, hsql, hleaves⟩ := List.any_eq_true.mp hany
      have hstays := List.takeWhile_eq_self_iff.mp hall sql hsql
      rw [hleaves] at hstays
      cases hstays

/-- What has happened when these bytes have arrived. -/
structure Follows (stream : Text) (client : Client) : Prop where
  handed : client.handed = served (cut ';' stream).1
  closed : client.closed = (cut ';' stream).1.any leaves
  rest : client.closed = false → client.clientBuffer = (cut ';' stream).2

/-! ### The inner loop -/

/-- The inner loop hands on what it finds up to the end of the connection, and keeps the rest. -/
theorem Client.drain_served {turns : Nat} (hturns : client.clientBuffer.length ≤ turns)
    (hopen : client.closed = false) :
    (client.drain (fun _ => true) turns).handed =
        client.handed ++ served (cut ';' client.clientBuffer).1 ∧
      (client.drain (fun _ => true) turns).closed = (cut ';' client.clientBuffer).1.any leaves ∧
      ((client.drain (fun _ => true) turns).closed = false →
        (client.drain (fun _ => true) turns).clientBuffer = (cut ';' client.clientBuffer).2) := by
  induction turns generalizing client with
  | zero =>
      have hnil := List.eq_nil_of_length_eq_zero (Nat.le_zero.mp hturns)
      rw [Client.drain, hnil]
      exact ⟨(List.append_nil _).symm, hopen, fun _ => rfl⟩
  | succ turns ih =>
      unfold Client.drain
      split
      · next hnone =>
          rw [cut_of_notMem (List.idxOf?_eq_none_iff.mp hnone)]
          exact ⟨(List.append_nil _).symm, hopen, fun _ => rfl⟩
      · next pos hpos =>
          obtain ⟨s, hbuffer, htake, hs⟩ := exists_piece hpos
          have hcut := cut_piece hs (client.clientBuffer.drop (pos + 1))
          rw [← hbuffer] at hcut
          rw [hcut]
          simp only [htake]
          by_cases hleaves : trimmed (s ++ [';']) = "exit;".toList ∨
              trimmed (s ++ [';']) = "quit;".toList
          · have htrue : leaves (s ++ [';']) = true := decide_eq_true hleaves
            rw [if_pos hleaves, served, List.takeWhile_cons, htrue]
            refine ⟨(List.append_nil _).symm, ?_, fun h => by cases h⟩
            rw [List.any_cons, htrue]
            rfl
          · have hfalse : leaves (s ++ [';']) = false := decide_eq_false hleaves
            have hshort : (client.clientBuffer.drop (pos + 1)).length ≤ turns := by
              rw [List.length_drop]
              omega
            obtain ⟨hhanded, hclosed, hrest⟩ := @ih
              { clientBuffer := client.clientBuffer.drop (pos + 1)
                handed := client.handed ++ [s ++ [';']]
                closed := client.closed } hshort hopen
            rw [if_neg hleaves, if_pos trivial]
            refine ⟨?_, ?_, hrest⟩
            · rw [hhanded, List.append_assoc, served, served, List.takeWhile_cons, hfalse]
              rfl
            · rw [hclosed, List.any_cons, hfalse, Bool.false_or]

/-! ### Reads -/

/-- Another read. -/
theorem Follows.receive (h : Follows stream client) (bytes : Text) :
    Follows (stream ++ bytes) (client.receive (fun _ => true) bytes) := by
  have happend : cut ';' (stream ++ bytes) = _ := cut_append stream bytes
  cases hclosed : client.closed with
  | true =>
      have hany := h.closed.symm.trans hclosed
      rw [Client.receive, if_pos hclosed]
      constructor
      · rw [happend, served_append, if_pos hany]
        exact h.handed
      · rw [happend, List.any_append, hany, hclosed]
        rfl
      · intro hopen
        rw [hclosed] at hopen
        cases hopen
  | false =>
      have hany := h.closed.symm.trans hclosed
      have hloop := @Client.drain_served
        { client with clientBuffer := client.clientBuffer ++ bytes } _ (le_refl _) hclosed
      rw [Client.receive, if_neg (by rw [hclosed]; exact Bool.false_ne_true)]
      rw [h.rest hclosed] at hloop ⊢
      obtain ⟨hhanded, hclosed', hrest⟩ := hloop
      constructor
      · rw [happend, served_append, if_neg (by rw [hany]; exact Bool.false_ne_true), ← h.handed]
        exact hhanded
      · rw [happend, List.any_append, hany, Bool.false_or]
        exact hclosed'
      · intro hopen
        rw [happend]
        exact hrest hopen

theorem Session.follows (reads : Session) : Follows reads.stream reads.client := by
  rw [stream, client]
  induction reads.parts using List.reverseRecOn with
  | nil => exact ⟨rfl, rfl, fun _ => rfl⟩
  | append_singleton parts bytes ih =>
      rw [List.flatten_append, List.flatten_singleton, List.foldl_append]
      exact ih.receive bytes

/-- For any two ways of cutting a stream into reads, `handleSQL` is given the same strings in the
same order, and the connection ends at the same statement or stays open. The strings are those in
front of the first `exit;` or `quit;`, so that nothing behind it is executed. -/
theorem framing (reads reads' : Session) (hsame : reads.stream = reads'.stream) :
    handleClient (fun _ => true) reads.parts = handleClient (fun _ => true) reads'.parts ∧
      handleClient (fun _ => true) reads.parts = served (cut ';' reads.stream).1 ∧
      reads.client.closed = reads'.client.closed ∧
      (reads.client.closed = true ↔ ∃ before sql after,
        (cut ';' reads.stream).1 = before ++ sql :: after ∧ leaves sql = true ∧
          handleClient (fun _ => true) reads.parts = before) := by
  have h := reads.follows
  have h' := reads'.follows
  rw [← hsame] at h'
  have hhanded : handleClient (fun _ => true) reads.parts = served (cut ';' reads.stream).1 :=
    h.handed
  refine ⟨hhanded.trans h'.handed.symm, hhanded, h.closed.trans h'.closed.symm, ?_⟩
  rw [h.closed, hhanded]
  constructor
  · intro hany
    obtain ⟨sql, after, hdrop⟩ : ∃ sql after,
        (cut ';' reads.stream).1.dropWhile (fun sql => !leaves sql) = sql :: after := by
      refine List.exists_cons_of_ne_nil fun hnil => ?_
      obtain ⟨sql, hsql, hleaves⟩ := List.any_eq_true.mp hany
      have hstays := List.dropWhile_eq_nil_iff.mp hnil sql hsql
      rw [hleaves] at hstays
      cases hstays
    refine ⟨_, sql, after, ?_, ?_, rfl⟩
    · rw [served, ← hdrop, List.takeWhile_append_dropWhile]
    · have hhead := List.head?_dropWhile_not (fun sql => !leaves sql) (cut ';' reads.stream).1
      rw [hdrop] at hhead
      simpa using hhead
  · rintro ⟨before, sql, after, hcut, hleaves, -⟩
    rw [hcut, List.any_append, List.any_cons, hleaves, Bool.true_or, Bool.or_true]

/-- A read that ends inside of `exit;`, and one that goes on behind it. -/
def readsInside : Session where
  parts := ["SELECT * FROM t; ex".toList, "it;DROP TABLE t;".toList]
  nonempty := by decide
  fits := by decide

def readsBehind : Session where
  parts := ["SELECT * FROM".toList, " t; exit;DROP TABLE t;".toList]
  nonempty := by decide
  fits := by decide

theorem framing_exit : handleClient (fun _ => true) readsInside.parts = ["SELECT * FROM t;".toList] ∧
    handleClient (fun _ => true) readsBehind.parts = ["SELECT * FROM t;".toList] := by
  have hframing := framing readsInside readsBehind (by decide)
  have hserved : served (cut ';' readsInside.stream).1 = ["SELECT * FROM t;".toList] := by decide
  exact ⟨hframing.2.1.trans hserved, hframing.1.symm.trans (hframing.2.1.trans hserved)⟩

end NanoVault.Sql
