/-
The depth-frame decoder of `BinanceAdapter` (`hft_clean/src/exchange_adapter.cpp`).

The frame is a buffer of bytes and the scanner's `p` a position in it. `onMessage`
searches for the `"u":` key and hands the number behind it to two calls of `parseSide`,
which search for `"b":[` and `"a":[` and emit one level for each entry they find. The
conversion of the two strings to fixed point is left to the consumer: an emitted `Level`
holds the bytes copied into `pbuf` and `qbuf`.

`parseEntries_append` and `parseEntries_flat` say what the entry loop does on a list of
entries and on text without brackets; `onMessage_text` in `DepthFrame.lean` applies them
to a whole frame.
-/
import NanoVault.Book.Types
import NanoVault.Lib.Scan

namespace NanoVault.MarketData

open Lib.Scan
open Book (Side)

/-- The arguments of one `emit_level` call. -/
structure Level where
  priceStr : List Char
  qtyStr : List Char
  side : Side
  seq : UInt64
deriving DecidableEq

/-- The blanks `skip_ws` moves over. -/
def isBlank (c : Char) : Bool :=
  c == ' ' || c == '\t' || c == '\r' || c == '\n'

def skipWs (data : List Char) (p : Nat) : Nat :=
  skipWhile data p isBlank

/-- An optional sign, and what follows it. -/
def takeSign : List Char → Bool × List Char
  | '-' :: rest => (true, rest)
  | '+' :: rest => (false, rest)
  | s => (false, s)

/-- `std::strtoull` in base ten: blanks, a sign, digits; `ULLONG_MAX` on overflow. -/
def strtoull (s : List Char) : UInt64 :=
  let signed := takeSign (s.dropWhile fun c => isBlank c || c == '\x0b' || c == '\x0c')
  let n := Nat.ofDigitChars 10 (signed.2.takeWhile Char.isDigit) 0
  if UInt64.size ≤ n then UInt64.ofNat (UInt64.size - 1)
  else if signed.1 then -UInt64.ofNat n
  else UInt64.ofNat n

/-- The bytes between two positions, as `memcpy` puts at most 31 of them into a buffer of
32 zeros. -/
def copy31 (data : List Char) (s p : Nat) : List Char :=
  (data.drop s).take (min (p - s) 31)

/-- The loop over the entries of one side: each `[` opens an entry whose first two quoted
strings are emitted, a `]` ends the loop, and any other byte is skipped. -/
def parseEntries (data : List Char) (side : Side) (seq : UInt64) (p : Nat) : List Level :=
  let end_ := data.length
  if p < end_ then
    let b := skipWs data p
    if end_ ≤ b then []
    else if data[b]? = some ']' then []
    else if data[b]? ≠ some '[' then parseEntries data side seq (b + 1)
    else
      let q1 := skipTo data (b + 1) '"'
      if end_ ≤ q1 then []
      else
        let q2 := skipTo data (q1 + 1) '"'
        if end_ ≤ q2 then []
        else
          let q3 := skipTo data (q2 + 1) '"'
          if end_ ≤ q3 then []
          else
            let q4 := skipTo data (q3 + 1) '"'
            if end_ ≤ q4 then []
            else
              ⟨copy31 data (q1 + 1) q2, copy31 data (q3 + 1) q4, side, seq⟩ ::
                parseEntries data side seq (skipTo data (q4 + 1) ']' + 1)
  else []
termination_by data.length - p
decreasing_by
  · have := le_skipWhile data p isBlank
    simp only [b, skipWs, end_] at *
    omega
  · have := le_skipWhile data p isBlank
    have := le_skipTo data (b + 1) '"'
    have := le_skipTo data (q1 + 1) '"'
    have := le_skipTo data (q2 + 1) '"'
    have := le_skipTo data (q3 + 1) '"'
    have := le_skipTo data (q4 + 1) ']'
    simp only [q1, q2, q3, q4, b, skipWs, end_] at *
    omega

/-- `parse_side`: find the key, move to the next `[` and past it, read the entries. -/
def parseSide (data key : List Char) (side : Side) (seq : UInt64) : List Level :=
  match search data key (data.length - key.length) with
  | none => []
  | some p => parseEntries data side seq (skipTo data (p + key.length) '[' + 1)

def updateKey : List Char := ['"', 'u', '"', ':']
def bidsKey : List Char := ['"', 'b', '"', ':', '[']
def asksKey : List Char := ['"', 'a', '"', ':', '[']

/-- The number after the first `"u":`; without one, the adapter's own counter. -/
def updateId (data : List Char) (seq : UInt64) : UInt64 :=
  match search data updateKey (data.length - 4) with
  | none => seq
  | some p => strtoull (data.drop (p + 4))

/-- `on_message`: the counter after the call and the levels emitted by it. -/
def onMessage (seq_ : UInt64) (data : List Char) : UInt64 × List Level :=
  let seq := updateId data (seq_ + 1)
  (seq_ + 1, parseSide data bidsKey .buy seq ++ parseSide data asksKey .sell seq)

/-! ### The entry loop -/

variable {data s t : List Char} {side : Side} {seq : UInt64} {p : Nat}

theorem parseEntries_end (h : data.length ≤ p) : parseEntries data side seq p = [] := by
  rw [parseEntries, if_neg (Nat.not_lt.mpr h)]

theorem skipWs_stop {a : Char} (h : data.drop p = a :: t) (ha : isBlank a = false) :
    skipWs data p = p :=
  skipWhile_stop h ha

theorem skipWs_blank {a : Char} (h : data.drop p = a :: t) (ha : isBlank a = true) :
    skipWs data p = skipWs data (p + 1) := by
  simp only [skipWs, skipWhile, h, drop_succ h, List.takeWhile_cons_of_pos ha, List.length_cons]
  omega

/-- A closing bracket ends the loop. -/
theorem parseEntries_close (h : data.drop p = ']' :: t) : parseEntries data side seq p = [] := by
  have hlt := lt_length_of_drop h
  rw [parseEntries, if_pos hlt, skipWs_stop h (by decide), if_neg (Nat.not_le.mpr hlt),
    if_pos (getElem?_of_drop h)]

/-- A byte that is no bracket is passed over. -/
theorem parseEntries_other {a : Char} (h : data.drop p = a :: t) (hopen : a ≠ '[')
    (hclose : a ≠ ']') : parseEntries data side seq p = parseEntries data side seq (p + 1) := by
  have hlt := lt_length_of_drop h
  cases hblank : isBlank a with
  | false =>
      rw [parseEntries, if_pos hlt, skipWs_stop h hblank, if_neg (Nat.not_le.mpr hlt),
        getElem?_of_drop h, if_neg (by simpa using hclose), if_pos (by simpa using hopen)]
  | true =>
      by_cases hend : p + 1 < data.length
      · rw [parseEntries, if_pos hlt, skipWs_blank h hblank, parseEntries.eq_1 data side seq (p + 1),
          if_pos hend]
      · have hle : data.length ≤ skipWs data p := by
          rw [skipWs_blank h hblank]
          exact Nat.le_trans (Nat.not_lt.mp hend) (le_skipWhile _ _ _)
        rw [parseEntries, if_pos hlt, if_pos hle, parseEntries_end (Nat.not_lt.mp hend)]

/-- Text without brackets in front of a closing one emits nothing. -/
theorem parseEntries_flat (h : data.drop p = s ++ ']' :: t) (hopen : '[' ∉ s) (hclose : ']' ∉ s) :
    parseEntries data side seq p = [] := by
  induction s generalizing p with
  | nil => exact parseEntries_close h
  | cons a s ih =>
      obtain ⟨ha, hopen⟩ := not_or.mp (List.mem_cons.not.mp hopen)
      obtain ⟨hb, hclose⟩ := not_or.mp (List.mem_cons.not.mp hclose)
      rw [parseEntries_other h (Ne.symm ha) (Ne.symm hb)]
      exact ih (drop_succ h) hopen hclose

theorem copy31_slice (h : data.drop p = s ++ t) (hs : s.length ≤ 31) :
    copy31 data p (p + s.length) = s := by
  rw [copy31, h, Nat.add_sub_cancel_left, Nat.min_eq_left hs, List.take_left]

/-- The loop emits the entry it stands at and goes on behind it. -/
theorem parseEntries_entry (side : Side) (seq : UInt64) {price qty : List Char}
    (h : data.drop p = '[' :: '"' :: (price ++ '"' :: ',' :: '"' :: (qty ++ '"' :: ']' :: t)))
    (hprice : '"' ∉ price) (hqty : '"' ∉ qty) (hpl : price.length ≤ 31) (hql : qty.length ≤ 31) :
    ∃ p', data.drop p' = t ∧ parseEntries data side seq p =
      ⟨price, qty, side, seq⟩ :: parseEntries data side seq p' := by
  have h1 := drop_succ h
  have h2 := drop_succ h1
  have h3 := drop_add h2
  have h4 := drop_succ h3
  have h5 := drop_succ h4
  have h6 := drop_succ h5
  have h7 := drop_add h6
  have h8 := drop_succ h7
  have q1 : skipTo data (p + 1) '"' = p + 1 := skipTo_append (s := []) h1 (by simp)
  have q2 : skipTo data (p + 1 + 1) '"' = p + 1 + 1 + price.length := skipTo_append h2 hprice
  have q3 : skipTo data (p + 1 + 1 + price.length + 1) '"' = p + 1 + 1 + price.length + 1 + 1 :=
    skipTo_append (s := [',']) h4 (by simp)
  have q4 := skipTo_append h6 hqty
  have q5 : skipTo data _ ']' = _ := skipTo_append (s := []) h8 (by simp)
  refine ⟨_, drop_succ h8, ?_⟩
  rw [parseEntries, if_pos (lt_length_of_drop h), skipWs_stop h (by decide),
    if_neg (Nat.not_le.mpr (lt_length_of_drop h)), getElem?_of_drop h, if_neg (by decide),
    if_neg (by simp)]
  simp only [q1, q2, q3, q4, q5]
  rw [if_neg (Nat.not_le.mpr (lt_length_of_drop h1)), if_neg (Nat.not_le.mpr (lt_length_of_drop h3)),
    if_neg (Nat.not_le.mpr (lt_length_of_drop h5)), if_neg (Nat.not_le.mpr (lt_length_of_drop h7)),
    copy31_slice h2 hpl, copy31_slice h6 hql]
  rfl

end NanoVault.MarketData
