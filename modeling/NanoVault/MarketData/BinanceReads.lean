/-
What `BinanceAdapter` reads (`hft_clean/src/exchange_adapter.cpp`).

The functions of `BinanceAdapter.lean` again, byte by byte: a byte of the frame is loaded where
the source dereferences a pointer, the buffers of an entry have room for 31 bytes and the zero
behind them, and every loop has fuel. The memory is the frame and the zero behind it. No frame
leads to a fault, and the levels are those of `onMessage` (`onMessageReads_eq`). The same holds
of the packets of the other adapter (`decoders_stay_inside`).
-/
import NanoVault.MarketData.BinanceAdapter
import NanoVault.MarketData.ZerodhaAdapter

namespace NanoVault.MarketData

open Lib.Scan Lib.Reads
open Book (Side)

/-- The bytes that may be read: the frame and the zero behind it. -/
def frameMemory (data : List Char) (p : Nat) : Option Char := (data ++ ['\x00'])[p]?

/-! ### The scanner, byte by byte -/

variable (mem : Nat → Option Char) (fuel : Nat)

/-- `while (p < end && test(*p)) ++p`. -/
def scanWhile (end_ : Nat) (test : Char → Bool) (p : Nat) : Except Fault Nat :=
  loop (fun p => do
    if p < end_ then
      let c ← load mem p
      if test c then return .inl (p + 1) else return .inr p
    else return .inr p) fuel p

/-- `skip_to`. -/
def skipToReads (end_ p : Nat) (ch : Char) : Except Fault Nat :=
  scanWhile mem fuel end_ (fun c => decide (c ≠ ch)) p

/-- `skip_ws`. -/
def skipWsReads (end_ p : Nat) : Except Fault Nat := scanWhile mem fuel end_ isBlank p

/-- `for (p = data; p < limit; ++p)` up to the first `p` that passes the test. -/
def searchReads (limit : Nat) (test : Nat → Except Fault Bool) : Except Fault (Option Nat) :=
  loop (fun p => do
    if p < limit then
      if ← test p then return .inr (some p) else return .inl (p + 1)
    else return .inr none) fuel 0

/-- The characters from `p` on that pass the test, and the position behind them; the zero at the
end is the only limit. -/
def spanReads (test : Char → Bool) (p : Nat) : Except Fault (Nat × List Char) :=
  loop (fun (s : Nat × List Char) => do
    let c ← load mem s.1
    if test c then return .inl (s.1 + 1, s.2 ++ [c]) else return .inr s) fuel (p, [])

/-- The blanks `strtoull` moves over. -/
def isSpace (c : Char) : Bool := isBlank c || c == '\x0b' || c == '\x0c'

/-- The number `strtoull` makes of a sign and digits. -/
def unsignedValue (negative : Bool) (digits : List Char) : UInt64 :=
  let n := Nat.ofDigitChars 10 digits 0
  if UInt64.size ≤ n then UInt64.ofNat (UInt64.size - 1)
  else if negative then -UInt64.ofNat n
  else UInt64.ofNat n

/-- `std::strtoull` on the zero-terminated text at `p`. -/
def strtoullReads (p : Nat) : Except Fault UInt64 := do
  let (p, _) ← spanReads mem fuel isSpace p
  let c ← load mem p
  let p := if c = '-' ∨ c = '+' then p + 1 else p
  let (_, digits) ← spanReads mem fuel Char.isDigit p
  return unsignedValue (c = '-') digits

/-- The number of bytes `pbuf` and `qbuf` have room for in front of their last zero. -/
def bufferRoom : Nat := 31

/-- A turn of the loop over the entries, with the levels emitted so far. -/
def entryTurn (end_ : Nat) (side : Side) (seq : UInt64) (s : Nat × List Level) :
    Except Fault ((Nat × List Level) ⊕ List Level) := do
  let (p, out) := s
  if p < end_ then
    let p ← skipWsReads mem fuel end_ p
    if end_ ≤ p then return .inr out
    let c ← load mem p
    if c = ']' then return .inr out
    if c ≠ '[' then return .inl (p + 1, out)
    let p ← skipToReads mem fuel end_ (p + 1) '"'
    if end_ ≤ p then return .inr out
    let ps := p + 1
    let p ← skipToReads mem fuel end_ ps '"'
    if end_ ≤ p then return .inr out
    let pbuf ← copy mem bufferRoom ps (min (p - ps) 31)
    let p ← skipToReads mem fuel end_ (p + 1) '"'
    if end_ ≤ p then return .inr out
    let qs := p + 1
    let p ← skipToReads mem fuel end_ qs '"'
    if end_ ≤ p then return .inr out
    let qbuf ← copy mem bufferRoom qs (min (p - qs) 31)
    let p ← skipToReads mem fuel end_ (p + 1) ']'
    return .inl (p + 1, out ++ [⟨pbuf, qbuf, side, seq⟩])
  else return .inr out

/-- `parse_side`, with `memcmp` reading the whole key. -/
def parseSideReads (end_ : Nat) (key : List Char) (side : Side) (seq : UInt64) :
    Except Fault (List Level) := do
  let found ← searchReads fuel (end_ - key.length) fun p => do
    let bytes ← loadRange mem p key.length
    return decide (bytes = key)
  match found with
  | none => return []
  | some p =>
      let p ← skipToReads mem fuel end_ (p + key.length) '['
      loop (entryTurn mem fuel end_ side seq) fuel (p + 1, [])

/-- `on_message`. -/
def onMessageReads (end_ : Nat) (seq_ : UInt64) : Except Fault (UInt64 × List Level) := do
  let found ← searchReads fuel (end_ - 4) (startsWith mem updateKey)
  let seq ← match found with
    | none => pure (seq_ + 1)
    | some p => strtoullReads mem fuel (p + 4)
  let bids ← parseSideReads mem fuel end_ bidsKey .buy seq
  let asks ← parseSideReads mem fuel end_ asksKey .sell seq
  return (seq_ + 1, bids ++ asks)

/-! ### No frame leads to a fault -/

variable {mem fuel} {data : List Char} {p : Nat} {test : Char → Bool}

/-- A load inside the frame gives its character. -/
theorem load_data {c : Char} (h : data[p]? = some c) : load (frameMemory data) p = .ok c := by
  apply load_eq
  rw [frameMemory, List.getElem?_append_left (List.getElem?_eq_some_iff.mp h).1, h]

/-- A load at its end gives the terminator. -/
theorem load_end : load (frameMemory data) data.length = .ok '\x00' := by
  apply load_eq
  rw [frameMemory, List.getElem?_concat_length]

theorem drop_cons_of_lt (h : p < data.length) : ∃ c, data[p]? = some c ∧
    data.drop p = c :: data.drop (p + 1) :=
  ⟨data[p], List.getElem?_eq_getElem h, List.drop_eq_getElem_cons h⟩

/-- The scan with its loads is the scan of the frame. -/
theorem scanWhile_eq (hfuel : data.length < fuel) :
    scanWhile (frameMemory data) fuel data.length test p = .ok (skipWhile data p test) := by
  apply loop_eq (fun _ => True) (fun p => data.length - p) (fun p => skipWhile data p test)
  · intro p _
    by_cases hp : p < data.length
    · obtain ⟨c, hc, hdrop⟩ := drop_cons_of_lt hp
      rw [if_pos hp, load_data hc, ok_bind]
      cases htest : test c with
      | true =>
          refine .inr ⟨p + 1, rfl, trivial, by omega, ?_⟩
          simp only [skipWhile, hdrop, List.takeWhile_cons_of_pos htest, List.length_cons]
          omega
      | false =>
          rw [skipWhile_stop hdrop htest]
          exact .inl rfl
    · rw [if_neg hp, skipWhile, List.drop_eq_nil_of_le (Nat.not_lt.mp hp)]
      exact .inl rfl
  · trivial
  · omega

/-- So is the search for a character. -/
theorem skipToReads_eq (ch : Char) (hfuel : data.length < fuel) :
    skipToReads (frameMemory data) fuel data.length p ch = .ok (skipTo data p ch) :=
  scanWhile_eq hfuel

/-- So is the skipping of blanks. -/
theorem skipWsReads_eq (hfuel : data.length < fuel) :
    skipWsReads (frameMemory data) fuel data.length p = .ok (skipWs data p) :=
  scanWhile_eq hfuel

/-- A search that reads is a search, if its test is. -/
theorem searchReads_eq {limit : Nat} {found : Nat → Bool} {test : Nat → Except Fault Bool}
    (htest : ∀ p < limit, test p = .ok (found p)) (hfuel : limit < fuel) :
    searchReads fuel limit test = .ok ((List.range limit).find? found) := by
  have hstart : List.range limit = List.range' 0 (limit - 0) := List.range_eq_range'
  rw [hstart]
  apply loop_eq (fun _ => True) (fun p => limit - p)
    (fun p => (List.range' p (limit - p)).find? found)
  · intro p _
    by_cases hp : p < limit
    · have hcons : List.range' p (limit - p) = p :: List.range' (p + 1) (limit - (p + 1)) := by
        rw [show limit - p = limit - (p + 1) + 1 by omega, List.range'_succ]
      rw [if_pos hp, htest p hp, ok_bind, hcons]
      cases hfound : found p with
      | true =>
          rw [List.find?_cons_of_pos hfound]
          exact .inl rfl
      | false =>
          refine .inr ⟨p + 1, rfl, trivial, by omega, ?_⟩
          rw [List.find?_cons_of_neg (by simp [hfound])]
    · rw [if_neg hp, Nat.sub_eq_zero_of_le (Nat.not_lt.mp hp)]
      exact .inl rfl
  · trivial
  · exact hfuel

/-- A span that stops at the terminator stops inside the frame. -/
theorem spanReads_eq (hzero : test '\x00' = false) (hp : p ≤ data.length)
    (hfuel : data.length < fuel) :
    spanReads (frameMemory data) fuel test p =
      .ok (skipWhile data p test, (data.drop p).takeWhile test) := by
  apply loop_eq (s := (p, [])) (fun s => s.1 ≤ data.length) (fun s => data.length - s.1)
    (fun s => (skipWhile data s.1 test, s.2 ++ (data.drop s.1).takeWhile test))
  · intro ⟨p, read⟩ hp
    dsimp only at hp ⊢
    rcases Nat.lt_or_eq_of_le hp with hlt | rfl
    · obtain ⟨c, hc, hdrop⟩ := drop_cons_of_lt hlt
      rw [load_data hc, ok_bind]
      cases htest : test c with
      | true =>
          refine .inr ⟨(p + 1, read ++ [c]), rfl, by simp only; omega, by simp only; omega, ?_⟩
          simp only [skipWhile, hdrop, List.takeWhile_cons_of_pos htest, List.length_cons,
            List.append_assoc, List.singleton_append, Prod.mk.injEq, and_true]
          omega
      | false =>
          rw [skipWhile_stop hdrop htest, hdrop,
            List.takeWhile_cons_of_neg (by simp [htest]), List.append_nil]
          exact .inl rfl
    · rw [load_end, ok_bind, hzero, skipWhile, List.drop_length, List.takeWhile_nil,
        List.append_nil]
      exact .inl rfl
  · exact hp
  · simp only
    omega

/-- A scan stays inside the frame. -/
theorem skipWhile_le (hp : p ≤ data.length) : skipWhile data p test ≤ data.length := by
  have := (List.takeWhile_prefix test (l := data.drop p)).length_le
  rw [List.length_drop] at this
  rw [skipWhile]
  omega

/-- What is left after a scan. -/
theorem drop_skipWhile : data.drop (skipWhile data p test) = (data.drop p).dropWhile test := by
  have h := List.takeWhile_append_dropWhile (p := test) (l := data.drop p)
  rw [skipWhile]
  exact drop_add h.symm

theorem strtoull_eq (s : List Char) : strtoull s =
    unsignedValue (takeSign (s.dropWhile isSpace)).1
      ((takeSign (s.dropWhile isSpace)).2.takeWhile Char.isDigit) := rfl

theorem takeSign_cons (c : Char) (s : List Char) : takeSign (c :: s) =
    (decide (c = '-'), if c = '-' ∨ c = '+' then s else c :: s) := by
  unfold takeSign
  split
  · next h =>
      obtain ⟨rfl, rfl⟩ := List.cons.inj h
      rfl
  · next h =>
      obtain ⟨rfl, rfl⟩ := List.cons.inj h
      rfl
  · next hminus hplus =>
      have hm : c ≠ '-' := fun h => hminus s (by rw [h])
      have hp : c ≠ '+' := fun h => hplus s (by rw [h])
      simp [hm, hp]

/-- `strtoull` ends at the zero behind the frame, if not before. -/
theorem strtoullReads_eq (hp : p ≤ data.length) (hfuel : data.length < fuel) :
    strtoullReads (frameMemory data) fuel p = .ok (strtoull (data.drop p)) := by
  have hq : skipWhile data p isSpace ≤ data.length := skipWhile_le hp
  rw [strtoull_eq, ← drop_skipWhile, strtoullReads, spanReads_eq (by decide) hp hfuel, ok_bind]
  generalize skipWhile data p isSpace = q at hq
  dsimp only
  rcases Nat.lt_or_eq_of_le hq with hlt | rfl
  · obtain ⟨c, hc, hdrop⟩ := drop_cons_of_lt hlt
    rw [load_data hc, ok_bind, hdrop, takeSign_cons]
    by_cases hsign : c = '-' ∨ c = '+'
    · rw [if_pos hsign, if_pos hsign, spanReads_eq (by decide) hlt hfuel]
      rfl
    · rw [if_neg hsign, if_neg hsign, spanReads_eq (by decide) hq hfuel, hdrop]
      rfl
  · rw [load_end, ok_bind, if_neg (by decide), spanReads_eq (by decide) le_rfl hfuel,
      List.drop_length]
    rfl

/-- A range inside the frame is loaded. -/
theorem loadRange_eq {n : Nat} (h : p + n ≤ data.length) :
    loadRange (frameMemory data) p n = .ok ((data.drop p).take n) := by
  induction n generalizing p with
  | zero => rfl
  | succ n ih =>
      obtain ⟨c, hc, hdrop⟩ := drop_cons_of_lt (show p < data.length by omega)
      rw [loadRange, load_data hc, ok_bind, ih (by omega), hdrop, List.take_succ_cons]
      rfl

/-- A key inside the frame is compared with what stands there. -/
theorem startsWith_eq {key : List Char} (h : p + key.length ≤ data.length) :
    startsWith (frameMemory data) key p = .ok (decide ((data.drop p).take key.length = key)) := by
  induction key generalizing p with
  | nil => rfl
  | cons a key ih =>
      rw [List.length_cons] at h
      obtain ⟨c, hc, hdrop⟩ := drop_cons_of_lt (show p < data.length by omega)
      rw [startsWith, load_data hc, ok_bind, hdrop, List.length_cons, List.take_succ_cons]
      by_cases hca : c = a
      · rw [if_pos hca, ih (by omega)]
        simp [hca]
      · rw [if_neg hca]
        simp [hca]

/-- The strings of an entry lie inside the frame and are cut to the room of the buffers. -/
theorem copy_eq {q : Nat} (h : q ≤ data.length) :
    copy (frameMemory data) bufferRoom p (min (q - p) 31) = .ok (copy31 data p q) := by
  rw [copy, if_neg (by unfold bufferRoom; omega)]
  by_cases hpq : p ≤ q
  · exact loadRange_eq (by omega)
  · rw [Nat.sub_eq_zero_of_le (by omega), copy31, Nat.sub_eq_zero_of_le (by omega)]
    rfl

/-- A turn at `p` ends with these levels, or leads to a later position from where the others of
them follow. -/
def TurnYields (data : List Char) (side : Side) (seq : UInt64) (p : Nat) (levels : List Level)
    (turn : Except Fault ((Nat × List Level) ⊕ List Level)) : Prop :=
  turn = .ok (.inr levels) ∨
    ∃ p' out, turn = .ok (.inl (p', out)) ∧ data.length - p' < data.length - p ∧
      out ++ parseEntries data side seq p' = levels

/-- One turn of the loop reads one entry and stays inside the frame. -/
theorem entryTurn_yields (side : Side) (seq : UInt64) (hfuel : data.length < fuel)
    (out : List Level) :
    TurnYields data side seq p (out ++ parseEntries data side seq p)
      (entryTurn (frameMemory data) fuel data.length side seq (p, out)) := by
  have stop : TurnYields data side seq p (out ++ []) (.ok (.inr out)) :=
    .inl (by rw [List.append_nil])
  rw [parseEntries, entryTurn]
  simp only [skipWsReads_eq hfuel, skipToReads_eq _ hfuel, ok_bind, pure_eq_ok]
  by_cases hp : p < data.length
  swap
  · rw [if_neg hp, if_neg hp]
    exact stop
  rw [if_pos hp, if_pos hp]
  have hblank : p ≤ skipWs data p := le_skipWhile data p isBlank
  generalize skipWs data p = b at hblank ⊢
  by_cases hb : data.length ≤ b
  · rw [if_pos hb, if_pos hb]
    exact stop
  rw [if_neg hb, if_neg hb]
  obtain ⟨c, hc, -⟩ := drop_cons_of_lt (Nat.not_le.mp hb)
  rw [load_data hc, ok_bind, hc]
  by_cases hclose : c = ']'
  · rw [if_pos hclose, if_pos (by rw [hclose])]
    exact stop
  rw [if_neg hclose, if_neg (by simpa using hclose)]
  by_cases hopen : c ≠ '['
  · rw [if_pos hopen, if_pos (by simpa using hopen)]
    exact .inr ⟨b + 1, out, rfl, by omega, rfl⟩
  rw [if_neg hopen, if_neg (by simpa using hopen)]
  -- the four quotes of the entry, each of which may be missing
  have h1 := le_skipTo data (b + 1) '"'
  generalize skipTo data (b + 1) '"' = q1 at h1 ⊢
  by_cases hq1 : data.length ≤ q1
  · rw [if_pos hq1, if_pos hq1]
    exact stop
  rw [if_neg hq1, if_neg hq1]
  have h2 := le_skipTo data (q1 + 1) '"'
  generalize skipTo data (q1 + 1) '"' = q2 at h2 ⊢
  by_cases hq2 : data.length ≤ q2
  · rw [if_pos hq2, if_pos hq2]
    exact stop
  rw [if_neg hq2, if_neg hq2, copy_eq (Nat.not_le.mp hq2).le, ok_bind]
  have h3 := le_skipTo data (q2 + 1) '"'
  generalize skipTo data (q2 + 1) '"' = q3 at h3 ⊢
  by_cases hq3 : data.length ≤ q3
  · rw [if_pos hq3, if_pos hq3]
    exact stop
  rw [if_neg hq3, if_neg hq3]
  have h4 := le_skipTo data (q3 + 1) '"'
  generalize skipTo data (q3 + 1) '"' = q4 at h4 ⊢
  by_cases hq4 : data.length ≤ q4
  · rw [if_pos hq4, if_pos hq4]
    exact stop
  rw [if_neg hq4, if_neg hq4, copy_eq (Nat.not_le.mp hq4).le, ok_bind]
  have h5 := le_skipTo data (q4 + 1) ']'
  refine .inr ⟨_, _, rfl, by omega, ?_⟩
  rw [List.append_assoc, List.singleton_append]

/-- The loop over the entries ends, and emits what `parseEntries` does. -/
theorem entries_eq (side : Side) (seq : UInt64) (hfuel : data.length < fuel) :
    loop (entryTurn (frameMemory data) fuel data.length side seq) fuel (p, []) =
      .ok (parseEntries data side seq p) := by
  apply loop_eq (s := (p, [])) (fun _ => True) (fun s => data.length - s.1)
    (fun s => s.2 ++ parseEntries data side seq s.1)
  · intro ⟨p, out⟩ _
    rcases entryTurn_yields side seq hfuel out with hend | ⟨p', out', hnext, hless, hsame⟩
    · exact .inl hend
    · exact .inr ⟨(p', out'), hnext, trivial, hless, hsame⟩
  · trivial
  · simp only
    omega

/-- A side is parsed with loads as without. -/
theorem parseSideReads_eq (key : List Char) (side : Side) (seq : UInt64)
    (hfuel : data.length < fuel) :
    parseSideReads (frameMemory data) fuel data.length key side seq =
      .ok (parseSide data key side seq) := by
  have hsearch : searchReads fuel (data.length - key.length) (fun p => do
      let bytes ← loadRange (frameMemory data) p key.length
      return decide (bytes = key)) = .ok (search data key (data.length - key.length)) := by
    apply searchReads_eq
    · intro p hp
      rw [loadRange_eq (by omega)]
      rfl
    · omega
  rw [parseSideReads, hsearch, ok_bind, parseSide]
  cases search data key (data.length - key.length) with
  | none => rfl
  | some p => simp only [skipToReads_eq _ hfuel, ok_bind, entries_eq _ _ hfuel]

/-- Whatever the frame is, `on_message` returns without a fault, and what it returns. -/
theorem onMessageReads_eq (data : List Char) (seq_ : UInt64) (fuel : Nat)
    (hfuel : data.length < fuel) :
    onMessageReads (frameMemory data) fuel data.length seq_ = .ok (onMessage seq_ data) := by
  have hsearch : searchReads fuel (data.length - 4) (startsWith (frameMemory data) updateKey) =
      .ok (search data updateKey (data.length - 4)) := by
    apply searchReads_eq
    · intro p hp
      exact startsWith_eq (by simp only [updateKey, List.length_cons, List.length_nil]; omega)
    · omega
  rw [onMessageReads, hsearch, ok_bind, onMessage, updateId]
  cases hfound : search data updateKey (data.length - 4) with
  | none => simp only [pure_eq_ok, ok_bind, parseSideReads_eq _ _ _ hfuel]
  | some p =>
      have hp : p < data.length - 4 := by
        rw [search, List.find?_range_eq_some] at hfound
        exact List.mem_range.mp hfound.2.1
      simp only [strtoullReads_eq (show p + 4 ≤ data.length by omega) hfuel, pure_eq_ok, ok_bind,
        parseSideReads_eq _ _ _ hfuel]

/-- Neither decoder leaves its input, and both return, whatever the input is. -/
theorem decoders_stay_inside (data : List Char) (packet : List UInt8) (seq_ : UInt64)
    (symbol : List Char) :
    onMessageReads (frameMemory data) (data.length + 1) data.length seq_ =
        .ok (onMessage seq_ data) ∧
      ∃ r, Zerodha.onMessage (Zerodha.packetMemory packet) packet.length seq_ symbol = .ok r := by
  constructor
  · exact onMessageReads_eq data seq_ (data.length + 1) (Nat.lt_succ_self _)
  · exact Zerodha.onMessage_reads packet seq_ symbol

end NanoVault.MarketData
