/-
Binance's compact `depthUpdate` frame and what `BinanceAdapter` makes of it.

A `DepthFrame` is the message the exchange means and `text` the bytes it sends. The
adapter finds both keys and the update id (`search_updateKey`, `search_bidsKey`,
`search_asksKey`), but the keys end with the bracket that opens the list, and
`parse_side` then moves to the next `[` and past it. On a list with entries that is the
first entry's own bracket, and the scan stops at the `]` closing that entry; on an empty
bid list it is the bracket opening the asks. `onMessage_text` is the resulting account of
`on_message`, and `onMessage_decodes_iff` says for which frames it is the intended one.
-/
import NanoVault.MarketData.BinanceAdapter

namespace NanoVault.MarketData

open Lib.Scan
open Book (Side)

/-- A string that may stand for a price or a quantity. -/
structure LevelText where
  chars : List Char
  short : chars.length ≤ 31
  no_quote : '"' ∉ chars
  no_open : '[' ∉ chars
  no_close : ']' ∉ chars

/-- One `["price","qty"]` entry. -/
structure Entry where
  price : LevelText
  qty : LevelText

/-- The contents of one `depthUpdate` frame. -/
structure DepthFrame where
  E : Nat
  symbol : List Char
  symbol_no_quote : '"' ∉ symbol
  U : Nat
  u : UInt64
  bids : List Entry
  asks : List Entry

def digits (n : Nat) : List Char := Nat.toDigits 10 n

/-- `"l":` in front of `rest`. -/
def label (l : Char) (rest : List Char) : List Char := '"' :: l :: '"' :: ':' :: rest

/-- A quoted string in front of `rest`. -/
def quoted (s rest : List Char) : List Char := '"' :: (s ++ '"' :: rest)

def Entry.text (e : Entry) (rest : List Char) : List Char :=
  '[' :: quoted e.price.chars (',' :: quoted e.qty.chars (']' :: rest))

/-- The entries behind the first, each with its comma, and the `]` that closes the list. -/
def restText : List Entry → List Char → List Char
  | [], rest => ']' :: rest
  | e :: es, rest => ',' :: e.text (restText es rest)

/-- The entries of a list and the `]` that closes it. -/
def entriesText : List Entry → List Char → List Char
  | [], rest => ']' :: rest
  | e :: es, rest => e.text (restText es rest)

def DepthFrame.asksText (f : DepthFrame) : List Char :=
  label 'a' ('[' :: entriesText f.asks ['}'])

def DepthFrame.bidsText (f : DepthFrame) : List Char :=
  label 'b' ('[' :: entriesText f.bids (',' :: f.asksText))

def DepthFrame.updateText (f : DepthFrame) : List Char :=
  label 'u' (digits f.u.toNat ++ ',' :: f.bidsText)

/-- The frame as the exchange sends it, without blanks. -/
def DepthFrame.text (f : DepthFrame) : List Char :=
  '{' :: label 'e' (quoted "depthUpdate".toList (',' :: label 'E' (digits f.E ++
    ',' :: label 's' (quoted f.symbol (',' :: label 'U' (digits f.U ++ ',' :: f.updateText))))))

def Entry.level (side : Side) (seq : UInt64) (e : Entry) : Level :=
  ⟨e.price.chars, e.qty.chars, side, seq⟩

/-- The levels the frame means: its bids in order, then its asks. -/
def DepthFrame.levels (f : DepthFrame) : List Level :=
  f.bids.map (Entry.level .buy f.u) ++ f.asks.map (Entry.level .sell f.u)

/-! ### Where the keys occur -/

section Keys

variable {k : Char} {key rest t : List Char}

/-- A key `"k":…` does not start inside another label. -/
theorem found_label {l : Char} (hkl : k ≠ l) (hl : l ≠ '"') (hk : k ≠ ':')
    (h : Found ('"' :: k :: key) rest t) : Found ('"' :: k :: key) (label l rest) t := by
  refine .skip (fun hp => hkl ?_) (.append (s := [l]) (by simpa using Ne.symm hl) (.skip
    (fun hp => hk ?_) (.append (s := [':']) (by simp) h)))
  · exact (List.cons_prefix_cons.mp (List.cons_prefix_cons.mp hp).2).1
  · exact (List.cons_prefix_cons.mp (List.cons_prefix_cons.mp hp).2).1

/-- Nor inside a quoted string, unless a colon follows the string. -/
theorem found_quoted {s : List Char} {c : Char} (hs : '"' ∉ s) (hkq : k ≠ '"') (hkc : k ≠ c)
    (hc : c ≠ ':') (h : Found ('"' :: k :: '"' :: ':' :: key) (c :: rest) t) :
    Found ('"' :: k :: '"' :: ':' :: key) (quoted s (c :: rest)) t := by
  refine .skip (fun hp => ?_) (.append hs (.skip (fun hp => hkc ?_) h))
  · have hp := (List.cons_prefix_cons.mp hp).2
    match s, hs with
    | [], _ => exact hkq (List.cons_prefix_cons.mp hp).1
    | [_], _ =>
        have hp := (List.cons_prefix_cons.mp (List.cons_prefix_cons.mp hp).2).2
        exact hc (List.cons_prefix_cons.mp hp).1.symm
    | _ :: b :: _, hs =>
        have hb := (List.cons_prefix_cons.mp (List.cons_prefix_cons.mp hp).2).1
        exact hs (hb ▸ List.mem_cons_of_mem _ List.mem_cons_self)
  · exact (List.cons_prefix_cons.mp (List.cons_prefix_cons.mp hp).2).1

theorem quote_notMem_digits (n : Nat) : '"' ∉ digits n := fun h =>
  absurd (Nat.isDigit_of_mem_toDigits (by decide) (by decide) h) (by decide)

/-- The fields in front of the final update id hide no other key. -/
theorem found_text (f : DepthFrame) (hk : k ∉ ['"', ':', ',', 'e', 'E', 's', 'U'])
    (h : Found ('"' :: k :: '"' :: ':' :: key) f.updateText t) :
    Found ('"' :: k :: '"' :: ':' :: key) f.text t := by
  simp only [List.mem_cons, List.not_mem_nil, or_false, not_or] at hk
  obtain ⟨hquote, hcolon, hcomma, he, hE, hs, hU⟩ := hk
  have hU' := found_label hU (by decide) hcolon
    (.append (quote_notMem_digits f.U) (.append (s := [',']) (by decide) h))
  have hs' := found_label hs (by decide) hcolon
    (found_quoted f.symbol_no_quote hquote hcomma (by decide)
      (.append (s := [',']) (by decide) hU'))
  have hE' := found_label hE (by decide) hcolon
    (.append (quote_notMem_digits f.E) (.append (s := [',']) (by decide) hs'))
  exact .append (s := ['{']) (by decide) (found_label he (by decide) hcolon
    (found_quoted (by decide) hquote hcomma (by decide) (.append (s := [',']) (by decide) hE')))

theorem found_update (f : DepthFrame) (hk : k ∉ ['"', ':', ',', 'e', 'E', 's', 'U', 'u'])
    (h : Found ('"' :: k :: '"' :: ':' :: key) f.bidsText t) :
    Found ('"' :: k :: '"' :: ':' :: key) f.text t := by
  simp only [List.mem_cons, List.not_mem_nil, or_false, not_or] at hk
  obtain ⟨hquote, hcolon, hcomma, he, hE, hs, hU, hu⟩ := hk
  refine found_text f (by simp_all) (found_label hu (by decide) hcolon
    (.append (quote_notMem_digits _) (.append (s := [',']) (by decide) h)))

theorem found_entry (e : Entry) (hk : k ∉ ['"', ',', ']'])
    (h : Found ('"' :: k :: '"' :: ':' :: key) rest t) :
    Found ('"' :: k :: '"' :: ':' :: key) (e.text rest) t := by
  simp only [List.mem_cons, List.not_mem_nil, or_false, not_or] at hk
  obtain ⟨hquote, hcomma, hclose⟩ := hk
  have hqty := found_quoted e.qty.no_quote hquote hclose (by decide)
    (.append (s := [']']) (by decide) h)
  exact .append (s := ['[']) (by decide) (found_quoted e.price.no_quote hquote hcomma (by decide)
    (.append (s := [',']) (by decide) hqty))

theorem found_restText (es : List Entry) (hk : k ∉ ['"', ',', ']'])
    (h : Found ('"' :: k :: '"' :: ':' :: key) rest t) :
    Found ('"' :: k :: '"' :: ':' :: key) (restText es rest) t := by
  induction es with
  | nil => exact .append (s := [']']) (by decide) h
  | cons e es ih => exact .append (s := [',']) (by decide) (found_entry e hk ih)

theorem found_entriesText (es : List Entry) (hk : k ∉ ['"', ',', ']'])
    (h : Found ('"' :: k :: '"' :: ':' :: key) rest t) :
    Found ('"' :: k :: '"' :: ':' :: key) (entriesText es rest) t := by
  cases es with
  | nil => exact .append (s := [']']) (by decide) h
  | cons e es => exact found_entry e hk (found_restText es hk h)

end Keys

theorem entriesText_ne_nil (es : List Entry) (rest : List Char) : entriesText es rest ≠ [] := by
  cases es with
  | nil => simp [entriesText]
  | cons e es => simp [entriesText, Entry.text]

/-- The search for the update id stops behind its key. -/
theorem search_updateKey (f : DepthFrame) :
    ∃ n, search f.text updateKey (f.text.length - updateKey.length) = some n ∧
      f.text.drop (n + updateKey.length) = digits f.u.toNat ++ ',' :: f.bidsText :=
  (found_text f (by decide) (show Found updateKey _ _ from .here _)).search (by simp)

/-- The search for the bids stops at the first entry, or at the `]` of the empty list. -/
theorem search_bidsKey (f : DepthFrame) :
    ∃ n, search f.text bidsKey (f.text.length - bidsKey.length) = some n ∧
      f.text.drop (n + bidsKey.length) = entriesText f.bids (',' :: f.asksText) :=
  (found_update f (by decide) (.here _)).search (entriesText_ne_nil _ _)

/-- The search for the asks stops behind their key, having passed over every bid. -/
theorem search_asksKey (f : DepthFrame) :
    ∃ n, search f.text asksKey (f.text.length - asksKey.length) = some n ∧
      f.text.drop (n + asksKey.length) = entriesText f.asks ['}'] := by
  have hbids : Found asksKey f.bidsText (entriesText f.asks ['}']) :=
    found_label (by decide) (by decide) (by decide)
      (.append (s := ['[']) (by decide) (found_entriesText f.bids (by decide)
        (.append (s := [',']) (by decide) (.here _))))
  exact (found_update f (by decide) hbids).search (entriesText_ne_nil _ _)

/-! ### What is emitted -/

/-- On text that starts with a digit `strtoull` reads the digits. -/
theorem strtoull_of_digit {d : Char} {s : List Char} (hd : d.isDigit = true) :
    strtoull (d :: s) =
      let n := Nat.ofDigitChars 10 ((d :: s).takeWhile Char.isDigit) 0
      if UInt64.size ≤ n then UInt64.ofNat (UInt64.size - 1) else UInt64.ofNat n := by
  have hother : ∀ c : Char, c.isDigit = false → d ≠ c := fun c hc heq => by
    rw [← heq, hd] at hc
    cases hc
  have hblank : (isBlank d || d == '\x0b' || d == '\x0c') = false := by
    simp [isBlank, hother _ (show ' '.isDigit = false from rfl),
      hother _ (show '\t'.isDigit = false from rfl), hother _ (show '\r'.isDigit = false from rfl),
      hother _ (show '\n'.isDigit = false from rfl), hother _ (show '\x0b'.isDigit = false from rfl),
      hother _ (show '\x0c'.isDigit = false from rfl)]
  have hsign : takeSign (d :: s) = (false, d :: s) := by
    unfold takeSign
    split
    · next heq => exact absurd (List.cons.inj heq).1 (hother '-' rfl)
    · next heq => exact absurd (List.cons.inj heq).1 (hother '+' rfl)
    · rfl
  rw [strtoull, List.dropWhile_cons_of_neg (by simp [hblank]), hsign]
  rfl

/-- The number behind the `"u":` key is read back. -/
theorem strtoull_digits (n : UInt64) (rest : List Char) :
    strtoull (digits n.toNat ++ ',' :: rest) = n := by
  have hdigit : ∀ c ∈ digits n.toNat, c.isDigit = true := fun c hc =>
    Nat.isDigit_of_mem_toDigits (by decide) (by decide) hc
  have htake : (digits n.toNat ++ ',' :: rest).takeWhile Char.isDigit = digits n.toNat := by
    rw [List.takeWhile_append_of_pos hdigit, List.takeWhile_cons_of_neg (by decide),
      List.append_nil]
  have hvalue : Nat.ofDigitChars 10 (digits n.toNat) 0 = n.toNat := Nat.ofDigitChars_ten_toDigits
  obtain ⟨d, ds, hd⟩ : ∃ d ds, digits n.toNat = d :: ds :=
    List.exists_cons_of_ne_nil Nat.toDigits_ne_nil
  rw [hd] at htake hvalue hdigit ⊢
  rw [List.cons_append, strtoull_of_digit (hdigit d List.mem_cons_self)]
  simp only [← List.cons_append, htake, hvalue]
  rw [if_neg (Nat.not_le.mpr n.toNat_lt_size), UInt64.ofNat_toNat]

theorem updateId_text (f : DepthFrame) (seq : UInt64) : updateId f.text seq = f.u := by
  obtain ⟨n, hsearch, hdrop⟩ := search_updateKey f
  rw [updateId, show 4 = updateKey.length from rfl, hsearch]
  simp only [hdrop, strtoull_digits]

/-- Behind an entry, the loop emits the entries up to the end of the list. -/
theorem parseEntries_restText {data rest : List Char} {side : Side} {seq : UInt64}
    (es : List Entry) {p : Nat} (h : data.drop p = restText es rest) :
    parseEntries data side seq p = es.map (Entry.level side seq) := by
  induction es generalizing p with
  | nil => exact parseEntries_close h
  | cons e es ih =>
      rw [parseEntries_other h (by decide) (by decide)]
      obtain ⟨p', hp', hstep⟩ := parseEntries_entry side seq (drop_succ h)
        e.price.no_quote e.qty.no_quote e.price.short e.qty.short
      rw [hstep, ih hp']
      rfl

/-- Standing at the first entry, the loop emits the whole list. -/
theorem parseEntries_entriesText {data rest : List Char} {side : Side} {seq : UInt64}
    (es : List Entry) {p : Nat} (h : data.drop p = entriesText es rest) :
    parseEntries data side seq p = es.map (Entry.level side seq) := by
  cases es with
  | nil => exact parseEntries_close h
  | cons e es =>
      obtain ⟨p', hp', hstep⟩ := parseEntries_entry side seq h
        e.price.no_quote e.qty.no_quote e.price.short e.qty.short
      rw [hstep, parseEntries_restText es hp']
      rfl

/-- Standing inside the first entry, the loop emits nothing: it meets no bracket before
the one that closes that entry. -/
theorem parseEntries_inside {data rest : List Char} {side : Side} {seq : UInt64} (e : Entry)
    {p : Nat} (h : data.drop p = e.text rest) : parseEntries data side seq (p + 1) = [] := by
  refine parseEntries_flat (s := quoted e.price.chars (',' :: quoted e.qty.chars []))
    (t := rest) ?_ ?_ ?_
  · simpa [quoted] using drop_succ h
  · simp [quoted, e.price.no_open, e.qty.no_open]
  · simp [quoted, e.price.no_close, e.qty.no_close]

/-- A list with entries is skipped as a whole. -/
theorem parse_cons {data rest : List Char} {side : Side} {seq : UInt64} {e : Entry}
    {es : List Entry} {p : Nat} (h : data.drop p = entriesText (e :: es) rest) :
    parseEntries data side seq (skipTo data p '[' + 1) = [] := by
  have hopen : skipTo data p '[' = p := skipTo_append (s := []) h (by simp)
  rw [hopen]
  exact parseEntries_inside e h

theorem parseSide_bids (f : DepthFrame) (seq : UInt64) :
    parseSide f.text bidsKey .buy seq =
      if f.bids = [] then f.asks.map (Entry.level .buy seq) else [] := by
  obtain ⟨n, hsearch, hdrop⟩ := search_bidsKey f
  rw [parseSide, hsearch]
  cases hb : f.bids with
  | cons e es =>
      rw [hb] at hdrop
      rw [if_neg (by simp)]
      exact parse_cons hdrop
  | nil =>
      rw [hb] at hdrop
      have hopen := skipTo_append (s := ']' :: ',' :: '"' :: 'a' :: '"' :: [':']) hdrop (by decide)
      rw [if_pos rfl]
      simp only [hopen]
      exact parseEntries_entriesText f.asks
        (drop_succ (drop_add (s := ']' :: ',' :: '"' :: 'a' :: '"' :: [':']) hdrop))

theorem parseSide_asks (f : DepthFrame) (seq : UInt64) :
    parseSide f.text asksKey .sell seq = [] := by
  obtain ⟨n, hsearch, hdrop⟩ := search_asksKey f
  rw [parseSide, hsearch]
  cases ha : f.asks with
  | cons e es =>
      rw [ha] at hdrop
      exact parse_cons hdrop
  | nil =>
      rw [ha] at hdrop
      have habsent : '[' ∉ f.text.drop (n + asksKey.length) := by
        rw [hdrop]
        decide
      refine parseEntries_end ?_
      rw [skipTo_absent habsent, List.length_drop]
      omega

/-- What `on_message` makes of a frame: the asks of a frame without bids are emitted, as
bids, and nothing else is. -/
theorem onMessage_text (seq_ : UInt64) (f : DepthFrame) :
    (onMessage seq_ f.text).2 = if f.bids = [] then f.asks.map (Entry.level .buy f.u) else [] := by
  simp only [onMessage, updateId_text, parseSide_bids, parseSide_asks, List.append_nil]

/-- The adapter emits the levels of a frame exactly when both lists are empty. -/
theorem onMessage_decodes_iff (seq_ : UInt64) (f : DepthFrame) :
    (onMessage seq_ f.text).2 = f.levels ↔ f.bids = [] ∧ f.asks = [] := by
  rw [onMessage_text, DepthFrame.levels]
  cases hb : f.bids with
  | cons e es => simp
  | nil =>
      cases ha : f.asks with
      | nil => simp
      | cons e es => simp [Entry.level]

def levelText (s : String) (h : s.toList.length ≤ 31 ∧ '"' ∉ s.toList ∧ '[' ∉ s.toList ∧
    ']' ∉ s.toList) : LevelText :=
  ⟨s.toList, h.1, h.2.1, h.2.2.1, h.2.2.2⟩

/-- The frame of the adapter's own format comment. -/
def commentFrame : DepthFrame where
  E := 123456789
  symbol := "BTCUSDT".toList
  symbol_no_quote := by decide
  U := 100
  u := 105
  bids := [⟨levelText "50000.0" (by decide), levelText "0.5" (by decide)⟩,
    ⟨levelText "49950.0" (by decide), levelText "1.2" (by decide)⟩]
  asks := [⟨levelText "50100.0" (by decide), levelText "0.8" (by decide)⟩,
    ⟨levelText "50200.0" (by decide), levelText "0.1" (by decide)⟩]

example : commentFrame.text = ("\x7b\"e\":\"depthUpdate\",\"E\":123456789,\"s\":\"BTCUSDT\"," ++
    "\"U\":100,\"u\":105,\"b\":[[\"50000.0\",\"0.5\"],[\"49950.0\",\"1.2\"]]," ++
    "\"a\":[[\"50100.0\",\"0.8\"],[\"50200.0\",\"0.1\"]]\x7d").toList := by
  decide +kernel

/-- The frame of the format comment emits none of its four levels. -/
theorem commentFrame_lost :
    (onMessage 0 commentFrame.text).2 ≠ commentFrame.levels ∧
      (onMessage 0 commentFrame.text).2 = [] := by
  rw [onMessage_text, if_neg (by decide)]
  exact ⟨by decide, rfl⟩

end NanoVault.MarketData
