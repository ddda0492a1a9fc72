/-
When a table's values are handed to the batch writer (`batchWriter.hpp`, `hft.hpp`).

Every packet that a table accepts raises a counter of 32 bits, which goes back to zero when a
record is handed on; nothing else sets it back. It runs also while batch writing is off, ENABLE
BATCH WRITING leaves it as it is, and a new table on the symbol of an earlier one goes on where
that stopped. So the records come after every `k`-th packet behind the statement exactly if the
counter stands at zero there, or every packet makes a record (`cadence_iff`); and it overflows when
too many packets are accepted while batch writing is off (`count_bounded`).
-/
import NanoVault.Hft.Packets
import NanoVault.Lib.Machine
import NanoVault.Lib.Ring

namespace NanoVault.Hft

open Lib

def TableColumn.getWritingData (t : TableColumn) : List Int64 :=
  (List.range t.columnCount).map (fun i => (t.history i).latest) ++
    if t.isTopOrderBook then (List.range orderBookSize).map t.topOrderBook else []

/-- A table with its `storageTicks` and `count`, whether `batchWriterFileMap` has a queue for it,
and what was handed to `batchWrite` after each of the packets it has accepted. `left` is what the
counter held when the table was made. -/
structure Storage where
  table : TableColumn
  storageTicks : Int32 := -1
  count : Int32 := 0
  hasFile : Bool := false
  log : List (Option (List Int64)) := []
  left : Int32 := 0

/-- `parseEnableBatchStatement`, which stores the ticks in an `int`. -/
def Storage.enable (s : Storage) (ticks : Int64) : Storage :=
  { s with storageTicks := ticks.toInt32, hasFile := true }

/-- `writeHFTDataToIndexFile`. -/
def Storage.write (s : Storage) : Storage :=
  let count := s.count + 1
  if s.storageTicks ≤ count ∧ 0 < s.storageTicks then
    { s with
      count := 0
      log := s.log ++ [if s.hasFile then some s.table.getWritingData else none] }
  else { s with count := count, log := s.log ++ [none] }

/-- `process_packet` with a packet that the table accepts, but for the callbacks. -/
def Storage.accept (s : Storage) (word : Nat → Int64) : Storage :=
  { s with table := s.table.receive word }.write

inductive StorageEvent where
  | enable (ticks : Int64)
  | accept (word : Nat → Int64)

def Storage.next (s : Storage) : StorageEvent → Storage
  | .enable ticks => s.enable ticks
  | .accept word => s.accept word

/-- The runs of a new table. Its slot has the ticks and the counter of an earlier table on the
symbol, and `batchWriterFileMap` the queue if that had been enabled; none of them is set back. -/
def storage : Machine Storage StorageEvent where
  init s := ∃ (t : TableColumn) (ticks left : Int32) (hasFile : Bool),
    (∀ i, (t.history i).head < maxRingSize) ∧ (0 < ticks → hasFile = true) ∧ s =
      { table := t, storageTicks := ticks, count := left, hasFile := hasFile, left := left }
  step s e s' := s' = s.next e

/-- The values a packet brings: one for each column, and the top of the book. -/
def TableColumn.payload (t : TableColumn) (word : Nat → Int64) : List Int64 :=
  (List.range t.columnCount).map word ++
    if t.isTopOrderBook then (List.range orderBookSize).map fun j => word (t.columnCount + j)
    else []

/-- What is to be handed on after each of these packets: the values after every `k`-th. -/
def everyKth (k : Nat) (t : TableColumn) (words : List (Nat → Int64)) :
    List (Option (List Int64)) :=
  words.mapIdx fun j word => if k ∣ j + 1 then some (t.payload word) else none

/-- The packets accepted since the last record. Before the first record these are the packets
accepted since the table was made, and what the counter held then. -/
def Storage.waiting (s : Storage) : Int :=
  (if s.log.any Option.isSome then 0 else s.left.toInt) +
    (s.log.reverse.takeWhile Option.isNone).length

/-- After ENABLE, every `k`-th packet makes a record of its values, and no other. -/
def Cadence (s : Storage) (k : Int64) : Prop :=
  ∀ words : List (Nat → Int64), (words.foldl Storage.accept (s.enable k)).log =
    s.log ++ everyKth k.toInt.toNat s.table words

variable {s s' : Storage} {t : TableColumn} {word : Nat → Int64} {words : List (Nat → Int64)}
  {k : Int64} {n : Nat}

/-! ### Records -/

/-- The latest value is the one just pushed. -/
theorem ColumnRing.latest_push {r : ColumnRing} (h : r.head < maxRingSize) (v : Int64) :
    (r.push v).latest = v := by
  have hslot : (((r.head + 1) % maxRingSize : Nat) - 1 : Int) % (maxRingSize : Nat) = r.head := by
    unfold maxRingSize at h ⊢
    omega
  rw [latest, get, push]
  dsimp only
  rw [hslot, Int.toNat_natCast, Function.update_self]

/-- The head stays within the ring. -/
theorem ColumnRing.head_push (r : ColumnRing) (v : Int64) : (r.push v).head < maxRingSize :=
  Nat.mod_lt _ (by decide)

/-- The record behind a packet has the values of the packet. -/
theorem TableColumn.getWritingData_receive (h : ∀ i, (t.history i).head < maxRingSize)
    (word : Nat → Int64) : (t.receive word).getWritingData = t.payload word := by
  rw [getWritingData, payload]
  congr 1
  · apply List.map_congr_left
    intro i hi
    have hlt : i < t.columnCount := List.mem_range.mp hi
    show (if i < t.columnCount then (t.history i).push (word i) else t.history i).latest = word i
    rw [if_pos hlt, ColumnRing.latest_push (h i)]
  · show (if t.isTopOrderBook then _ else _) = _
    split
    · next hbook =>
        apply List.map_congr_left
        intro j hj
        exact if_pos ⟨hbook, List.mem_range.mp hj⟩
    · rfl

/-- The record does not depend on what the callbacks do: this is what `process_packet` finds in
the table when it calls the batch writer. -/
theorem RawPacket.process_getWritingData {slots : SymbolAccessArray} {i : Nat} {p : RawPacket}
    (hplace : place (readBe64 p.data 0).toInt = some i) (hsymbol : (slots i).symbol ≠ -1)
    (hcolumns : (slots i).columnCount ≤ maxColumn) (hsize : p.size = (slots i).expected) :
    ((p.process slots).1 i).getWritingData =
      ((slots i).receive p.toPacket.word).getWritingData := by
  obtain ⟨indicators, strategys, hslots⟩ := callBack_slots slots i (readBe64 p.data 0)
    ((slots i).receive p.toPacket.word)
  rw [p.process_received hplace hsymbol hcolumns hsize, hslots, Function.update_self]
  rfl

/-- A packet does not change which columns a record takes. -/
theorem TableColumn.payload_receive (t : TableColumn) (word word' : Nat → Int64) :
    (t.receive word).payload word' = t.payload word' := rfl

/-! ### One packet -/

/-- A packet is received by the table and leaves what is configured. -/
theorem Storage.accept_table (s : Storage) (word : Nat → Int64) :
    (s.accept word).table = s.table.receive word ∧
      (s.accept word).storageTicks = s.storageTicks ∧ (s.accept word).hasFile = s.hasFile ∧
      (s.accept word).left = s.left := by
  rw [accept, write]
  dsimp only
  split
  · exact ⟨rfl, rfl, rfl, rfl⟩
  · exact ⟨rfl, rfl, rfl, rfl⟩

/-- The counter counts on below its bound. -/
theorem toInt_succ {c : Int32} (h : c.toInt < 2 ^ 31 - 1) : (c + 1).toInt = c.toInt + 1 := by
  have hlow := c.le_toInt
  have hone : (1 : Int32).toInt = 1 := rfl
  rw [Int32.toInt_add, hone]
  exact Int.bmod_eq_of_le (by omega) (by omega)

/-- The counter reaches its limit. -/
theorem Storage.accept_full (hfile : s.hasFile = true)
    (hheads : ∀ i, (s.table.history i).head < maxRingSize) (hon : 0 < s.storageTicks.toInt)
    (hroom : s.count.toInt < 2 ^ 31 - 1) (hfull : s.storageTicks.toInt ≤ s.count.toInt + 1)
    (word : Nat → Int64) :
    (s.accept word).count = 0 ∧
      (s.accept word).log = s.log ++ [some (s.table.payload word)] := by
  have hreached : s.storageTicks ≤ s.count + 1 ∧ 0 < s.storageTicks := by
    rw [Int32.le_iff_toInt_le, Int32.lt_iff_toInt_lt, toInt_succ hroom]
    exact ⟨hfull, hon⟩
  rw [accept, write]
  dsimp only
  rw [if_pos hreached, hfile, if_pos rfl, TableColumn.getWritingData_receive hheads]
  exact ⟨rfl, rfl⟩

/-- The counter stays below its limit, or there is none. -/
theorem Storage.accept_below
    (hbelow : s.storageTicks.toInt ≤ 0 ∨ (s.count + 1).toInt < s.storageTicks.toInt)
    (word : Nat → Int64) :
    (s.accept word).count = s.count + 1 ∧ (s.accept word).log = s.log ++ [none] := by
  have hnone : ¬ (s.storageTicks ≤ s.count + 1 ∧ 0 < s.storageTicks) := by
    have hzero : (0 : Int32).toInt = 0 := rfl
    rw [Int32.le_iff_toInt_le, Int32.lt_iff_toInt_lt, hzero]
    omega
  rw [accept, write]
  dsimp only
  rw [if_neg hnone]
  exact ⟨rfl, rfl⟩

/-! ### The counter -/

/-- The counter has counted the packets since the last record, modulo 2^32. -/
structure Tallied (s : Storage) : Prop where
  heads : ∀ i, (s.table.history i).head < maxRingSize
  file : 0 < s.storageTicks.toInt → s.hasFile = true
  count : s.count = Int32.ofInt s.waiting

/-- A packet without a record lengthens the wait. -/
theorem Storage.waiting_none (h : s'.log = s.log ++ [none]) (hleft : s'.left = s.left) :
    s'.waiting = s.waiting + 1 := by
  have hlength : (s'.log.reverse.takeWhile Option.isNone).length =
      (s.log.reverse.takeWhile Option.isNone).length + 1 := by
    rw [h, List.reverse_append]
    rfl
  have hany : s'.log.any Option.isSome = s.log.any Option.isSome := by
    rw [h, List.any_append, List.any_cons, List.any_nil, Option.isSome_none, Bool.or_false,
      Bool.or_false]
  rw [waiting, hlength, hany, hleft, waiting, Nat.cast_add, Nat.cast_one, add_assoc]

/-- A record ends the wait. -/
theorem Storage.waiting_some {r : List Int64} (h : s'.log = s.log ++ [some r]) :
    s'.waiting = 0 := by
  rw [waiting, h, List.reverse_append, List.any_append, List.any_cons, Option.isSome_some,
    Bool.true_or, Bool.or_true, if_pos rfl]
  rfl

/-- The counter follows the wait over a packet. -/
theorem Tallied.accept (h : Tallied s) (word : Nat → Int64) : Tallied (s.accept word) := by
  obtain ⟨htable, hticks, hfile, hleft⟩ := s.accept_table word
  refine ⟨?_, ?_, ?_⟩
  · intro i
    rw [htable]
    show (if i < s.table.columnCount then (s.table.history i).push (word i)
      else s.table.history i).head < maxRingSize
    split
    · exact ColumnRing.head_push _ _
    · exact h.heads i
  · rw [hticks, hfile]
    exact h.file
  · by_cases hreached : s.storageTicks ≤ s.count + 1 ∧ 0 < s.storageTicks
    · have hon : 0 < s.storageTicks.toInt := Int32.lt_iff_toInt_lt.mp hreached.2
      have hlog : (s.accept word).log =
          s.log ++ [some (s.table.receive word).getWritingData] := by
        rw [Storage.accept, Storage.write]
        dsimp only
        rw [if_pos hreached, h.file hon]
        rfl
      rw [Storage.waiting_some hlog, Storage.accept, Storage.write]
      dsimp only
      rw [if_pos hreached]
      rfl
    · have hlog : (s.accept word).log = s.log ++ [none] := by
        rw [Storage.accept, Storage.write]
        dsimp only
        rw [if_neg hreached]
      rw [Storage.waiting_none hlog hleft, Int32.ofInt_add, ← h.count, Storage.accept,
        Storage.write]
      dsimp only
      rw [if_neg hreached]
      rfl

/-- The counter follows the wait over every event. -/
theorem Tallied.next (h : Tallied s) (e : StorageEvent) : Tallied (s.next e) := by
  cases e with
  | enable ticks => exact ⟨h.heads, fun _ => rfl, h.count⟩
  | accept word => exact h.accept word

/-- So it does in every state reached. -/
theorem Tallied.reach {ok : Storage → StorageEvent → Prop} (h : storage.Reach ok s) :
    Tallied s := by
  apply h.invariant
  · rintro s ⟨t, ticks, left, hasFile, hheads, hfile, rfl⟩
    refine ⟨hheads, fun hon => hfile (Int32.lt_iff_toInt_lt.mpr hon), ?_⟩
    show left = Int32.ofInt (left.toInt + 0)
    rw [Int.add_zero, Int32.ofInt_toInt]
  · rintro s e s' hs - rfl
    exact hs.next e

/-- The number the counter stands for. -/
theorem Tallied.toInt_count (h : Tallied s) :
    s.count.toInt = s.waiting.bmod (2 ^ 32) := by
  rw [h.count]
  exact Int32.toInt_ofInt

/-- The counter is zero when the wait is a multiple of its range. -/
theorem Tallied.count_eq_zero (h : Tallied s) : s.count.toInt = 0 ↔ s.waiting % 2 ^ 32 = 0 := by
  rw [h.toInt_count, Int.bmod_def]
  omega

/-- The counter counts on unless the wait is at its bound. -/
theorem Tallied.count_small (h : Tallied s) :
    0 ≤ s.count.toInt ∧ s.count.toInt < 2 ^ 31 - 1 ↔ s.waiting % 2 ^ 32 < 2 ^ 31 - 1 := by
  rw [h.toInt_count, Int.bmod_def]
  omega

/-! ### Silent packets -/

/-- While batch writing is off no packet makes a record. -/
theorem Storage.silent_off (hoff : s.storageTicks.toInt ≤ 0) (words : List (Nat → Int64)) :
    (words.foldl Storage.accept s).log = s.log ++ List.replicate words.length none := by
  induction words generalizing s with
  | nil => exact (List.append_nil _).symm
  | cons word words ih =>
      have hticks := (s.accept_table word).2.1
      have hlog := (Storage.accept_below (.inl hoff) word).2
      rw [List.foldl_cons, ih (hticks ▸ hoff), hlog, List.append_assoc, List.length_cons,
        List.replicate_succ]
      rfl

/-- While the counter stays below its limit no packet makes a record. -/
theorem Storage.silent (hbelow : s.count.toInt + words.length < s.storageTicks.toInt) :
    (words.foldl Storage.accept s).log = s.log ++ List.replicate words.length none ∧
      (words.foldl Storage.accept s).count.toInt = s.count.toInt + words.length := by
  induction words generalizing s with
  | nil => exact ⟨(List.append_nil _).symm, (Int.add_zero _).symm⟩
  | cons word words ih =>
      have hmax := s.storageTicks.toInt_lt
      rw [List.length_cons] at hbelow
      have hticks := (s.accept_table word).2.1
      have hnext : (s.count + 1).toInt = s.count.toInt + 1 := toInt_succ (by omega)
      have hlow : (s.count + 1).toInt < s.storageTicks.toInt := by omega
      obtain ⟨hcount, hlog⟩ := Storage.accept_below (.inr hlow) word
      have hcount' : (s.accept word).count.toInt = s.count.toInt + 1 := by rw [hcount, hnext]
      obtain ⟨hlog', hcount''⟩ := ih (by rw [hcount', hticks]; omega)
      rw [List.foldl_cons, List.length_cons]
      constructor
      · rw [hlog', hlog, List.append_assoc, List.replicate_succ]
        rfl
      · rw [hcount'', hcount']
        omega

/-- Packets leave the number of ticks. -/
theorem Storage.foldl_ticks (s : Storage) (words : List (Nat → Int64)) :
    (words.foldl Storage.accept s).storageTicks = s.storageTicks := by
  induction words generalizing s with
  | nil => rfl
  | cons word words ih => exact (ih _).trans (s.accept_table word).2.1

theorem Storage.foldl_left (s : Storage) (words : List (Nat → Int64)) :
    (words.foldl Storage.accept s).left = s.left := by
  induction words generalizing s with
  | nil => rfl
  | cons word words ih => exact (ih _).trans (s.accept_table word).2.2.2

/-- The counter follows the wait over packets. -/
theorem Tallied.foldl (h : Tallied s) (words : List (Nat → Int64)) :
    Tallied (words.foldl Storage.accept s) := by
  induction words generalizing s with
  | nil => exact h
  | cons word words ih => exact ih (h.accept word)

/-- How many packets make no record before the first that does. -/
theorem Tallied.first_record (h : Tallied s) (hon : 0 < s.storageTicks.toInt) : ∃ n : Nat,
    (s.storageTicks.toInt ≤ s.count.toInt + 1 ∧ s.count.toInt < 2 ^ 31 - 1 ∧ n = 0 ∨
      s.count.toInt + 1 < s.storageTicks.toInt ∧
        (n : Int) = s.storageTicks.toInt - s.count.toInt - 1 ∨
      s.count.toInt = 2 ^ 31 - 1 ∧ (n : Int) = s.storageTicks.toInt + 2 ^ 31) ∧
    ∀ words : List (Nat → Int64), words.length = n + 1 →
      ∃ r, (words.foldl Storage.accept s).log = s.log ++ List.replicate n none ++ [some r] := by
  have hmax := s.count.toInt_lt
  have hticks := s.storageTicks.toInt_lt
  -- from a counter below its limit on
  have hbelow : ∀ s : Storage, Tallied s → 0 < s.storageTicks.toInt → ∀ n : Nat,
      (n : Int) = s.storageTicks.toInt - s.count.toInt - 1 →
      ∀ words : List (Nat → Int64), words.length = n + 1 →
      ∃ r, (words.foldl Storage.accept s).log = s.log ++ List.replicate n none ++ [some r] := by
    intro s h hon n hn words hwords
    have hlimit := s.storageTicks.toInt_lt
    rcases List.eq_nil_or_concat' words with rfl | ⟨words, word, rfl⟩
    · cases hwords
    · rw [List.length_append, List.length_singleton, Nat.add_right_cancel_iff] at hwords
      have hsilent : s.count.toInt + words.length < s.storageTicks.toInt := by
        rw [hwords]
        omega
      obtain ⟨hlog, hcount⟩ := Storage.silent hsilent
      rw [hwords] at hlog hcount
      have hreached := h.foldl words
      have hsame := s.foldl_ticks words
      rw [List.foldl_append]
      generalize words.foldl Storage.accept s = s' at hlog hcount hreached hsame
      have hfull := Storage.accept_full (hreached.file (hsame ▸ hon)) hreached.heads (hsame ▸ hon)
        (by omega) (by rw [hsame]; omega) word
      exact ⟨_, by rw [List.foldl_cons, List.foldl_nil, hfull.2, hlog]⟩
  rcases Int.lt_or_le (s.count.toInt + 1) s.storageTicks.toInt with hlow | hhigh
  · refine ⟨(s.storageTicks.toInt - s.count.toInt - 1).toNat, .inr (.inl ⟨hlow, by omega⟩), ?_⟩
    exact hbelow s h hon _ (by omega)
  · rcases Int.lt_or_le s.count.toInt (2 ^ 31 - 1) with hroom | hlast
    · refine ⟨0, .inl ⟨hhigh, hroom, rfl⟩, fun words hwords => ?_⟩
      obtain ⟨word, rfl⟩ := List.length_eq_one_iff.mp hwords
      have hfull := Storage.accept_full (h.file hon) h.heads hon hroom hhigh word
      refine ⟨s.table.payload word, ?_⟩
      rw [List.replicate_zero, List.append_nil]
      exact hfull.2
    · -- the counter overflows
      have hcount : s.count.toInt = 2 ^ 31 - 1 := by omega
      have hwrapped : (s.count + 1).toInt = -2 ^ 31 := by
        have hone : (1 : Int32).toInt = 1 := rfl
        rw [Int32.toInt_add, hcount, hone]
        rfl
      obtain ⟨n, hn⟩ : ∃ n : Nat, s.storageTicks.toInt + 2 ^ 31 = n + 1 :=
        ⟨(s.storageTicks.toInt + 2 ^ 31 - 1).toNat, by omega⟩
      refine ⟨n + 1, .inr (.inr ⟨hcount, by omega⟩), fun words hwords => ?_⟩
      cases words with
      | nil => cases hwords
      | cons word words =>
          rw [List.length_cons, Nat.add_right_cancel_iff] at hwords
          have hlow : (s.count + 1).toInt < s.storageTicks.toInt := by omega
          obtain ⟨hnext, hlog⟩ := Storage.accept_below (.inr hlow) word
          have hsame := (s.accept_table word).2.1
          obtain ⟨r, hr⟩ := hbelow _ (h.accept word) (hsame ▸ hon) n
            (by rw [hnext, hwrapped, hsame]; omega) words hwords
          refine ⟨r, ?_⟩
          rw [List.foldl_cons, hr, hlog, List.replicate_succ]
          simp

/-! ### Every `k`-th packet -/

theorem Storage.foldl_payload (s : Storage) (words : List (Nat → Int64)) (word : Nat → Int64) :
    (words.foldl Storage.accept s).table.payload word = s.table.payload word := by
  induction words generalizing s with
  | nil => rfl
  | cons word' words ih =>
      rw [List.foldl_cons, ih, (s.accept_table word').1, TableColumn.payload_receive]

/-- The records due with one packet more. -/
theorem everyKth_concat (n : Nat) (t : TableColumn) (words : List (Nat → Int64))
    (word : Nat → Int64) : everyKth n t (words ++ [word]) =
      everyKth n t words ++ [if n ∣ words.length + 1 then some (t.payload word) else none] :=
  List.mapIdx_concat

/-- From a counter at zero on every `n`-th packet makes a record; with `n = 1` from every counter
that does not overflow. -/
theorem Tallied.everyKth (h : Tallied s) (hticks : s.storageTicks.toInt = n) (hn : 0 < n)
    (hstart : s.count.toInt = 0 ∨ n = 1 ∧ 0 ≤ s.count.toInt ∧ s.count.toInt < 2 ^ 31 - 1)
    (words : List (Nat → Int64)) :
    (words.foldl Storage.accept s).log = s.log ++ everyKth n s.table words ∧
      ((words.foldl Storage.accept s).count.toInt = (words.length % n : Nat) ∨
        n = 1 ∧ 0 ≤ (words.foldl Storage.accept s).count.toInt ∧
          (words.foldl Storage.accept s).count.toInt < 2 ^ 31 - 1) := by
  have hlimit := s.storageTicks.toInt_lt
  induction words using List.reverseRecOn with
  | nil =>
      refine ⟨(List.append_nil _).symm, hstart.imp_left fun hzero => ?_⟩
      rw [List.length_nil, Nat.zero_mod]
      exact hzero
  | append_singleton words word ih =>
      obtain ⟨hlog, hcount⟩ := ih
      have hreached := h.foldl words
      have hsame := s.foldl_ticks words
      have hpayload := s.foldl_payload words word
      rw [List.foldl_append, List.foldl_cons, List.foldl_nil, everyKth_concat, ← List.append_assoc,
        ← hlog, List.length_append, List.length_singleton]
      generalize words.foldl Storage.accept s = s' at hcount hreached hsame hpayload ⊢
      rw [← Int32.toInt_inj, hticks] at hsame
      have hrest : words.length % n < n := Nat.mod_lt _ hn
      by_cases hdue : n ∣ words.length + 1
      · have hlast := (Ring.reaches_iff hn).mpr hdue
        obtain ⟨hzero, hlog'⟩ := Storage.accept_full (hreached.file (by omega)) hreached.heads
          (by omega) (by omega) (by omega) word
        rw [if_pos hdue, hlog', hpayload, hzero, Nat.mod_eq_zero_of_dvd hdue]
        exact ⟨rfl, .inl rfl⟩
      · have hlast := (Ring.reaches_iff hn).not.mpr hdue
        have hmany : n ≠ 1 := by
          rintro rfl
          exact hdue (one_dvd _)
        have hcount := hcount.resolve_right fun hone => hmany hone.1
        have hnext : (s'.count + 1).toInt = s'.count.toInt + 1 := toInt_succ (by omega)
        have hlow : (s'.count + 1).toInt < s'.storageTicks.toInt := by omega
        obtain ⟨hcount', hlog'⟩ := Storage.accept_below (.inr hlow) word
        rw [if_neg hdue, hlog', hcount', hnext,
          Ring.succ_mod_of_lt (Nat.lt_of_le_of_ne hrest hlast)]
        exact ⟨rfl, .inl (by omega)⟩

/-- What is going to be handed on after a packet at a position. -/
theorem everyKth_getElem? {j : Nat} (n : Nat) (t : TableColumn) (hword : words[j]? = some word) :
    (everyKth n t words)[j]? =
      some (if n ∣ j + 1 then some (t.payload word) else none) := by
  rw [everyKth, List.getElem?_mapIdx, hword]
  rfl

/-- In every state a table gets into, records come after every `k`-th packet behind ENABLE exactly
if `k` is an `int`, and what has been counted since the last record is a multiple of 2^32 (such as
nothing), or `k` is one and the counter does not overflow. -/
theorem cadence_iff (h : storage.Reach Machine.Any s) (hk : 1 ≤ k) :
    Cadence s k ↔ k.toInt < 2 ^ 31 ∧
      (s.waiting % 2 ^ 32 = 0 ∨ k = 1 ∧ s.waiting % 2 ^ 32 < 2 ^ 31 - 1) := by
  have htallied : Tallied s := .reach h
  have henabled : Tallied (s.enable k) := htallied.next (.enable k)
  have hpos : (1 : Int) ≤ k.toInt := Int64.le_iff_toInt_le.mp hk
  have hticks : (s.enable k).storageTicks.toInt = k.toInt.bmod (2 ^ 32) := Int64.toInt_toInt32 k
  have hone : k = 1 ↔ k.toInt = 1 := Int64.toInt_inj.symm
  rw [← htallied.count_eq_zero, ← htallied.count_small, hone]
  constructor
  · intro hcadence
    -- the position of the first record
    have hfirst : ∀ n : Nat, (∀ words : List (Nat → Int64), words.length = n + 1 →
        ∃ r, (words.foldl Storage.accept (s.enable k)).log =
          s.log ++ List.replicate n none ++ [some r]) → k.toInt = n + 1 := by
      intro n hrecord
      obtain ⟨r, hr⟩ := hrecord (List.replicate (n + 1) fun _ => 0) List.length_replicate
      rw [hcadence, List.append_assoc, List.append_cancel_left_eq] at hr
      have hword : ∀ j < n + 1, (List.replicate (n + 1) fun _ : Nat => (0 : Int64))[j]? =
          some fun _ => 0 := by
        intro j hj
        rw [List.getElem?_replicate, if_pos hj]
      have hlast := everyKth_getElem? k.toInt.toNat s.table (hword n (Nat.lt_succ_self n))
      rw [hr, List.getElem?_append_right (by rw [List.length_replicate]), List.length_replicate,
        Nat.sub_self] at hlast
      have hdvd : k.toInt.toNat ∣ n + 1 := by
        by_contra hnot
        rw [if_neg hnot] at hlast
        cases hlast
      have hle := Nat.le_of_dvd (Nat.succ_pos n) hdvd
      rcases Nat.lt_or_ge (k.toInt.toNat - 1) n with hearly | hlate
      · have hnone := everyKth_getElem? k.toInt.toNat s.table
          (hword (k.toInt.toNat - 1) (Nat.lt_succ_of_lt hearly))
        rw [hr, List.getElem?_append_left (by rwa [List.length_replicate]),
          List.getElem?_replicate, if_pos hearly, Nat.sub_add_cancel (by omega),
          if_pos (dvd_refl _)] at hnone
        cases hnone
      · omega
    rcases Int.lt_or_le 0 (s.enable k).storageTicks.toInt with hon | hoff
    · obtain ⟨n, hcases, hrecord⟩ := henabled.first_record hon
      have hn := hfirst n hrecord
      have hlow := s.count.le_toInt
      have hhigh := s.count.toInt_lt
      have hsame : (s.enable k).count = s.count := rfl
      rw [hticks, Int.bmod_def, hsame] at hcases
      omega
    · -- no packet makes a record
      have hlog := hcadence (List.replicate k.toInt.toNat fun _ => 0)
      have hsame : (s.enable k).log = s.log := rfl
      rw [Storage.silent_off hoff, hsame, List.append_cancel_left_eq, List.length_replicate] at hlog
      have hword : (List.replicate k.toInt.toNat fun _ : Nat => (0 : Int64))[k.toInt.toNat - 1]? =
          some fun _ => 0 := by
        rw [List.getElem?_replicate, if_pos (by omega)]
      have hlast := everyKth_getElem? k.toInt.toNat s.table hword
      rw [← hlog, List.getElem?_replicate, if_pos (by omega), Nat.sub_add_cancel (by omega),
        if_pos (dvd_refl _)] at hlast
      cases hlast
  · rintro ⟨hsmall, hstart⟩ words
    have hsame : (s.enable k).storageTicks.toInt = (k.toInt.toNat : Int) := by
      rw [hticks, Int.bmod_eq_of_le (by omega) (by omega), Int.toNat_of_nonneg (by omega)]
    refine (henabled.everyKth hsame (by omega) ?_ words).1
    refine hstart.imp_right fun hone => ⟨?_, hone.2⟩
    omega

/-- A table with one column, in a slot whose counter holds so many packets of an earlier table. -/
def oneColumnTable (left : Int32) : Storage :=
  { table := { symbol := 1, columnCount := 1 }, count := left, left := left }

/-- The state a new table is in, whatever its slot held. -/
theorem oneColumnTable_reached (ok : Storage → StorageEvent → Prop) (left : Int32) :
    storage.Reach ok (oneColumnTable left) := by
  refine .init ⟨_, -1, left, false, fun _ => (by decide : 0 < maxRingSize), fun hon => ?_, rfl⟩
  revert hon
  decide

/-- The slot has counted one packet already: ENABLE gets its second record in time only when it
comes behind the first. -/
theorem cadence_iff_oneColumn :
    let s := ((oneColumnTable 1).enable 2).accept fun _ => 7
    storage.Reach Machine.Any s ∧ s.log = [some [7]] ∧ Cadence s 3 ∧
      ¬ Cadence (oneColumnTable 1) 2 := by
  intro s
  have hstart := oneColumnTable_reached Machine.Any 1
  have hreached : storage.Reach Machine.Any s :=
    .step (.step hstart (i := .enable 2) trivial rfl) (i := .accept fun _ => 7) trivial rfl
  have hlog : s.log = [some [7]] := by decide +kernel
  refine ⟨hreached, hlog, ?_, ?_⟩
  · refine (cadence_iff hreached (by decide)).mpr ⟨by decide, .inl ?_⟩
    rw [Storage.waiting, hlog]
    rfl
  · rw [cadence_iff hstart (by decide)]
    decide

/-- A packet is accepted, ENABLE asks for every second, and the next one makes a record. -/
theorem record_early : storage.Reach Machine.Any ((oneColumnTable 0).accept fun _ => 7) ∧
    ¬ Cadence ((oneColumnTable 0).accept fun _ => 7) 2 := by
  constructor
  · exact .step (oneColumnTable_reached _ 0) (i := .accept fun _ => 7) trivial rfl
  · intro h
    have hlog := h [fun _ => 8]
    revert hlog
    decide +kernel

/-! ### The bound of the counter -/

/-- The counter can be raised. -/
def InRange (s : Storage) : Prop := 0 ≤ s.count.toInt ∧ s.count.toInt < 2 ^ 31 - 1

/-- After ENABLE, one of the next `k` packets makes a record. -/
def TakesEffect (s : Storage) (k : Int64) : Prop :=
  ∀ words : List (Nat → Int64), words.length = k.toInt.toNat → ∃ n r, n < k.toInt.toNat ∧
    (words.foldl Storage.accept (s.enable k)).log[s.log.length + n]? = some (some r)

/-- A packet accepted while batch writing is off finds fewer than 2^31 - 2 packets counted. -/
def FewWaiting (s : Storage) (e : StorageEvent) : Prop :=
  ∀ word, e = .accept word → s.storageTicks ≤ 0 → s.waiting < 2 ^ 31 - 2

/-- Records that are handed on stay so. -/
theorem Storage.log_prefix (s : Storage) (words : List (Nat → Int64)) :
    s.log <+: (words.foldl Storage.accept s).log := by
  induction words generalizing s with
  | nil => exact List.prefix_rfl
  | cons word words ih =>
      refine List.IsPrefix.trans ?_ (ih (s.accept word))
      rw [accept, write]
      dsimp only
      split
      · exact List.prefix_append _ _
      · exact List.prefix_append _ _

/-- While the wait is short the counter is the wait. -/
theorem Tallied.toInt_count_of_lt (h : Tallied s) (hlow : 0 ≤ s.waiting)
    (hfew : s.waiting < 2 ^ 31) : s.count.toInt = s.waiting := by
  rw [h.toInt_count]
  exact Int.bmod_eq_of_le (by omega) (by omega)

/-- A short wait keeps the counter in range. -/
theorem Tallied.inRange (h : Tallied s) (hlow : 0 ≤ s.waiting) (hfew : s.waiting < 2 ^ 31 - 1) :
    InRange s := by
  rw [InRange, h.toInt_count_of_lt hlow (by omega)]
  exact ⟨hlow, hfew⟩

/-- In range, every number of ticks takes effect. -/
theorem Tallied.takesEffect (h : Tallied s) (hrange : InRange s) (hk : 1 ≤ k)
    (hint : k.toInt < 2 ^ 31) : TakesEffect s k := by
  intro words hwords
  have hpos : (1 : Int) ≤ k.toInt := Int64.le_iff_toInt_le.mp hk
  have hticks : (s.enable k).storageTicks.toInt = k.toInt := by
    refine (Int64.toInt_toInt32 k).trans ?_
    exact Int.bmod_eq_of_le (by omega) (by omega)
  have henabled : Tallied (s.enable k) := h.next (.enable k)
  obtain ⟨n, hcases, hrecord⟩ := henabled.first_record (by omega)
  obtain ⟨hlow, hhigh⟩ := hrange
  have hsame : (s.enable k).count = s.count := rfl
  rw [hticks, hsame] at hcases
  have hn : n < k.toInt.toNat := by omega
  obtain ⟨r, hr⟩ := hrecord (words.take (n + 1)) (by
    rw [List.length_take]
    omega)
  have hprefix := Storage.log_prefix ((words.take (n + 1)).foldl Storage.accept (s.enable k))
    (words.drop (n + 1))
  rw [← List.foldl_append, List.take_append_drop, hr] at hprefix
  refine ⟨n, r, hn, ?_⟩
  have hlength : (s.log ++ List.replicate n none).length = s.log.length + n := by
    rw [List.length_append, List.length_replicate]
  obtain ⟨rest, hrest⟩ := hprefix
  rw [← hrest, ← hlength, List.append_assoc]
  exact List.getElem?_append_right (Nat.le_refl _) |>.trans (by
    rw [Nat.sub_self]
    rfl)

/-- A packet that is accepted while batch writing is on leaves the counter below its limit. -/
theorem Tallied.waiting_next (h : Tallied s) (hlow : 0 ≤ s.waiting)
    (hfew : s.waiting < 2 ^ 31 - 1) {e : StorageEvent} (hok : FewWaiting s e) :
    0 ≤ (s.next e).waiting ∧ (s.next e).waiting < 2 ^ 31 - 1 := by
  cases e with
  | enable ticks => exact ⟨hlow, hfew⟩
  | accept word =>
      have hcount := h.toInt_count_of_lt hlow (by omega)
      have hlimit := s.storageTicks.toInt_lt
      obtain ⟨-, -, -, hleft⟩ := s.accept_table word
      show 0 ≤ (s.accept word).waiting ∧ (s.accept word).waiting < 2 ^ 31 - 1
      rcases Int.lt_or_le 0 s.storageTicks.toInt with hon | hoff
      · rcases Int.lt_or_le (s.count.toInt + 1) s.storageTicks.toInt with hbelow | hfull
        · have hnext : (s.count + 1).toInt = s.count.toInt + 1 := toInt_succ (by omega)
          rw [Storage.waiting_none (Storage.accept_below (.inr (by omega)) word).2 hleft]
          omega
        · have hrecord := Storage.accept_full (h.file hon) h.heads hon (by omega) hfull word
          rw [Storage.waiting_some hrecord.2]
          decide
      · have hwait := hok word rfl (Int32.le_iff_toInt_le.mpr hoff)
        rw [Storage.waiting_none (Storage.accept_below (.inl hoff) word).2 hleft]
        omega

theorem Storage.next_left (s : Storage) (e : StorageEvent) : (s.next e).left = s.left := by
  cases e with
  | enable ticks => rfl
  | accept word => exact (s.accept_table word).2.2.2

/-- The packets that have been counted, in a run that meets the condition. -/
theorem waiting_bounded (h : storage.Reach FewWaiting s) (hlow : 0 ≤ s.left.toInt)
    (hhigh : s.left.toInt < 2 ^ 31 - 1) : 0 ≤ s.waiting ∧ s.waiting < 2 ^ 31 - 1 := by
  refine (h.invariant (I := fun s => Tallied s ∧ (0 ≤ s.left.toInt → s.left.toInt < 2 ^ 31 - 1 →
    0 ≤ s.waiting ∧ s.waiting < 2 ^ 31 - 1)) ?_ ?_).2 hlow hhigh
  · intro s hinit
    have hreached : storage.Reach Machine.Any s := .init hinit
    refine ⟨.reach hreached, ?_⟩
    obtain ⟨t, ticks, left, hasFile, -, -, rfl⟩ := hinit
    intro hlow hhigh
    show 0 ≤ left.toInt + 0 ∧ left.toInt + 0 < 2 ^ 31 - 1
    rw [Int.add_zero]
    exact ⟨hlow, hhigh⟩
  · rintro s e s' ⟨hs, hfew⟩ hok rfl
    refine ⟨hs.next e, fun hlow hhigh => ?_⟩
    rw [s.next_left] at hlow hhigh
    exact hs.waiting_next (hfew hlow hhigh).1 (hfew hlow hhigh).2 hok

/-- In every run of a table whose slot had a counter in range, and that accepts no packet while batch
writing is off and 2^31 - 2 packets have been counted, the counter can be raised in every state, so
that ENABLE takes effect within `k` packets; the first packet that is accepted in spite of this
leaves the counter where it cannot be raised. -/
theorem count_bounded (h : storage.Reach FewWaiting s) (hlow : 0 ≤ s.left.toInt)
    (hhigh : s.left.toInt < 2 ^ 31 - 1) :
    InRange s ∧ (∀ k : Int64, 1 ≤ k → k.toInt < 2 ^ 31 → TakesEffect s k) ∧
      ∀ e, InRange (s.next e) ↔ FewWaiting s e := by
  have htallied : Tallied s := .reach h
  obtain ⟨hnonneg, hfew⟩ := waiting_bounded h hlow hhigh
  have hrange := htallied.inRange hnonneg hfew
  refine ⟨hrange, fun k => htallied.takesEffect hrange, fun e => ?_⟩
  constructor
  · rintro ⟨-, hroom⟩ word rfl hoff
    have hcount := htallied.toInt_count_of_lt hnonneg (by omega)
    have hnext : (s.count + 1).toInt = s.count.toInt + 1 := toInt_succ (by omega)
    have hafter : (s.next (.accept word)).count = s.count + 1 :=
      (Storage.accept_below (.inl (Int32.le_iff_toInt_le.mp hoff)) word).1
    rw [hafter, hnext] at hroom
    omega
  · intro hok
    obtain ⟨hnonneg', hfew'⟩ := htallied.waiting_next hnonneg hfew hok
    exact (htallied.next e).inRange hnonneg' hfew'

/-- Five packets are left over, one is accepted while batch writing is off, and ENABLE makes a
record of the next: the counter is back at zero. -/
theorem count_bounded_oneColumn :
    let s := ((((oneColumnTable 5).accept fun _ => 7).enable 2).accept fun _ => 8).accept fun _ => 9
    storage.Reach FewWaiting s ∧ s.log = [none, some [8], none] ∧ InRange s ∧ TakesEffect s 3 := by
  intro s
  have hoff := (oneColumnTable_reached FewWaiting 5).step (i := .accept fun _ => 7)
    (fun _ _ _ => by decide) rfl
  have hon := hoff.step (i := .enable 2) (fun _ he => by cases he) rfl
  have hrecord := hon.step (i := .accept fun _ => 8) (fun _ _ hdue => absurd hdue (by decide)) rfl
  have hreached : storage.Reach FewWaiting s :=
    hrecord.step (i := .accept fun _ => 9) (fun _ _ hdue => absurd hdue (by decide)) rfl
  obtain ⟨hrange, heffect, -⟩ := count_bounded hreached (by decide) (by decide)
  exact ⟨hreached, by decide +kernel, hrange, heffect 3 (by decide) (by decide)⟩

theorem Storage.reach_foldl (h : storage.Reach Machine.Any s) (words : List (Nat → Int64)) :
    storage.Reach Machine.Any (words.foldl Storage.accept s) := by
  induction words generalizing s with
  | nil => exact h
  | cons word words ih => exact ih (.step h (i := .accept word) trivial rfl)

/-- What has been counted by a table that has made no record. -/
theorem Storage.waiting_replicate (hlog : s.log = List.replicate n none) :
    s.waiting = s.left.toInt + n := by
  have hnone : s.log.any Option.isSome = false := by
    rw [hlog]
    exact List.any_eq_false.mpr fun r hr => by rw [List.eq_of_mem_replicate hr]; decide
  have htake : (List.replicate n (none : Option (List Int64))).takeWhile Option.isNone =
      List.replicate n none := by
    rw [List.takeWhile_replicate]
    rfl
  rw [waiting, hnone, hlog, List.reverse_replicate, htake, List.length_replicate]
  rfl

/-- The packets a new table accepts while batch writing is off are all counted. -/
theorem exhausted_after (hn : n = 2 ^ 31 - 1) :
    ∃ s, storage.Reach Machine.Any s ∧ s.left = 0 ∧ ¬ InRange s := by
  have hreached := Storage.reach_foldl (oneColumnTable_reached _ 0) (List.replicate n fun _ => 0)
  have htallied : Tallied _ := .reach hreached
  have hoff : (oneColumnTable 0).storageTicks.toInt ≤ 0 := by decide
  have hlog := Storage.silent_off hoff (List.replicate n fun _ => 0)
  have hleft := Storage.foldl_left (oneColumnTable 0) (List.replicate n fun _ => 0)
  have hempty : (oneColumnTable 0).log = [] := rfl
  have hnone : (oneColumnTable 0).left.toInt = 0 := rfl
  rw [List.length_replicate, hempty, List.nil_append] at hlog
  have hwaiting := Storage.waiting_replicate hlog
  rw [hleft, hnone, Int.zero_add] at hwaiting
  have hcount := htallied.toInt_count_of_lt (by omega) (by omega)
  refine ⟨_, hreached, hleft, fun hrange => ?_⟩
  rw [InRange, hcount, hwaiting] at hrange
  omega

/-- As many packets as an `int32_t` can count, while batch writing is off. -/
theorem counter_exhausted : ∃ s, storage.Reach Machine.Any s ∧ s.left = 0 ∧ ¬ InRange s :=
  exhausted_after rfl

end NanoVault.Hft
