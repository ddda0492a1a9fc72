/-
The bytes of a packet (`process_packet` in `UDPReceiver.hpp`, `handle_trade_packet` in
`tradePackets.hpp`).

A packet is a symbol and then one value for each column of the symbol's table, and four more if
the table shows the top of its order book, all of them big-endian 64-bit words. The receiver
walks a pointer over them; `process_eq` says that it reads the words `processPacket` is given.
What the packet held has then been put into the table, whether or not the callbacks behind it
can be called (`tick_round_trip`), and every other packet is passed over.
-/
import NanoVault.Hft.Callbacks
import NanoVault.Lib.BigEndian

namespace NanoVault.Hft

open Lib NanoVault.Table

abbrev Bytes := List UInt8

/-- `HFTStorage::Packet`. -/
structure RawPacket where
  data : Bytes
  size : Int

def readBe64 (data : Bytes) (ptr : Nat) : Int64 :=
  (UInt64.ofNat (BigEndian.value ((data.drop ptr).take 8))).toInt64

/-- `htobe64`, as it is laid out in memory. -/
def htobe64 (v : Int64) : Bytes := BigEndian.bytes 8 v.toUInt64.toNat

/-- `expected` in `process_packet`. -/
def TableColumn.expectedSize (t : TableColumn) : Int :=
  ((t.columnCount : Int) + 1 + (if t.isTopOrderBook then 1 else 0) <<< (2 : Nat)) <<< (3 : Nat)

/-- The loop over the columns: the histories, and the pointer behind the values. -/
def pushColumns (data : Bytes) :
    List Nat → Nat → (Nat → ColumnRing) → Except Failure ((Nat → ColumnRing) × Nat)
  | [], ptr, history => return (history, ptr)
  | i :: is, ptr, history =>
      if i < maxColumn then
        pushColumns data is (ptr + 8)
          (Function.update history i ((history i).push (readBe64 data ptr)))
      else throw .outOfBounds

/-- The four values of the top of the book. -/
def readTop (data : Bytes) (ptr : Nat) (top : Nat → Int64) : Nat → Int64 :=
  Function.update (Function.update (Function.update (Function.update top
    0 (readBe64 data ptr)) 1 (readBe64 data (ptr + 8))) 2 (readBe64 data (ptr + 16)))
    3 (readBe64 data (ptr + 24))

/-- The callbacks of an entry that has received its values: the slots at the end, and how it
ends. -/
def callBack (slots : SymbolAccessArray) (i : Nat) (tick : Int64) (entry : TableColumn) :
    SymbolAccessArray × Except Failure (List Signal) :=
  match callIndicators entry.history (List.range entry.indicators.index) entry.indicators with
  | .error e => (Function.update slots i entry, .error e)
  | .ok indicators =>
      let entry := { entry with indicators := indicators }
      match callStrategys tick (indicators.entries 0) (List.range entry.strategys.index)
          entry.strategys with
      | .error e => (Function.update slots i entry, .error e)
      | .ok strategys =>
          (Function.update slots i { entry with strategys := strategys.1 }, .ok strategys.2)

/-- `process_packet`: the slots at its end, and how it ends. -/
def RawPacket.process (p : RawPacket) (slots : SymbolAccessArray) :
    SymbolAccessArray × Except Failure (List Signal) :=
  let tick := readBe64 p.data 0
  match place tick.toInt with
  | none => (slots, .ok [])
  | some i =>
      let entry := slots i
      if entry.symbol = -1 then (slots, .ok [])
      else if p.size ≠ entry.expectedSize then (slots, .ok [])
      else
        match pushColumns p.data (List.range entry.columnCount) 8 entry.history with
        | .error e => (slots, .error e)
        | .ok (history, ptr) =>
            callBack slots i tick
              { entry with
                history := history
                topOrderBook :=
                  if entry.isTopOrderBook then readTop p.data ptr entry.topOrderBook
                  else entry.topOrderBook }

structure BinanceOHLCData where
  tick : Int64
  timestamp : Int64
  openPrice : Int64
  high : Int64
  low : Int64
  close : Int64
  volume : Int64
  quoteVolume : Int64
  takerBuyBaseVolume : Int64
  takerBuyQuoteVolume : Int64

structure BinanceLiveTradeData where
  tick : Int64
  eventTime : Int64
  tradeId : Int64
  price : Int64
  quantity : Int64
  tradeTime : Int64
  isBuyerMaker : Int64

def packetSize : Nat := 1024

/-- A packet that holds the words; behind them is whatever was in the buffer. -/
def packetOf (words : List Int64) (rest : Bytes) : RawPacket where
  data := words.flatMap htobe64 ++ rest
  size := 8 * words.length

/-- `hftPkt`: a record of 64-bit words at the beginning of a packet of zeros. -/
def hftPkt (words : List Int64) : RawPacket :=
  packetOf words (List.replicate (packetSize - 8 * words.length) 0)

namespace BinanceOHLCData

/-- The record without its symbol. -/
def fields (ohlc : BinanceOHLCData) : List Int64 :=
  [ohlc.timestamp, ohlc.openPrice, ohlc.high, ohlc.low, ohlc.close, ohlc.volume, ohlc.quoteVolume,
    ohlc.takerBuyBaseVolume, ohlc.takerBuyQuoteVolume]

def packet (ohlc : BinanceOHLCData) : RawPacket := hftPkt (ohlc.tick :: ohlc.fields)

end BinanceOHLCData

namespace BinanceLiveTradeData

/-- The record without its symbol. -/
def fields (trade : BinanceLiveTradeData) : List Int64 :=
  [trade.eventTime, trade.tradeId, trade.price, trade.quantity, trade.tradeTime,
    trade.isBuyerMaker]

def packet (trade : BinanceLiveTradeData) : RawPacket := hftPkt (trade.tick :: trade.fields)

end BinanceLiveTradeData

/-- What the receiver reads, as the words of a packet. -/
def RawPacket.toPacket (p : RawPacket) : Packet where
  tick := readBe64 p.data 0
  size := p.size
  word i := readBe64 p.data (8 + 8 * i)

/-- The values and the top of the book have been put into the table under the index, in order,
and nothing else into any history or top of a book. -/
structure Received (slots slots' : SymbolAccessArray) (i : Nat) (values top : List Int64) :
    Prop where
  pushed : ∀ j v, values[j]? = some v → (slots' i).history j = ((slots i).history j).push v
  unpushed : ∀ j, values.length ≤ j → (slots' i).history j = (slots i).history j
  stored : ∀ j v, top[j]? = some v → (slots' i).topOrderBook j = v
  unstored : ∀ j, top.length ≤ j → (slots' i).topOrderBook j = (slots i).topOrderBook j
  others : ∀ k, k ≠ i → slots' k = slots k

/-! ### Words -/

theorem length_htobe64 (v : Int64) : (htobe64 v).length = 8 := BigEndian.length_bytes 8 _

/-- Every 64-bit number is read back. -/
theorem readBe64_htobe64 (v : Int64) (rest : Bytes) : readBe64 (htobe64 v ++ rest) 0 = v := by
  have hfits : v.toUInt64.toNat < 256 ^ 8 := v.toUInt64.toNat_lt
  rw [readBe64, List.drop_zero, List.take_left' (length_htobe64 v), htobe64,
    BigEndian.value_bytes hfits, UInt64.ofNat_toNat]
  exact Int64.toInt64_toUInt64 v

theorem readBe64_drop (data : Bytes) (ptr k : Nat) :
    readBe64 (data.drop k) ptr = readBe64 data (k + ptr) := by
  rw [readBe64, readBe64, List.drop_drop]

/-- The words of a packet, each at its place. -/
theorem readBe64_words {words : List Int64} {j : Nat} {v : Int64} (h : words[j]? = some v)
    (rest : Bytes) : readBe64 (words.flatMap htobe64 ++ rest) (8 * j) = v := by
  induction words generalizing j with
  | nil => cases h
  | cons w words ih =>
      rw [List.flatMap_cons, List.append_assoc]
      cases j with
      | zero =>
          obtain rfl := Option.some.inj h
          exact readBe64_htobe64 w _
      | succ j =>
          have hdrop := readBe64_drop (htobe64 w ++ (words.flatMap htobe64 ++ rest)) (8 * j) 8
          rw [List.drop_left' (length_htobe64 w), ih h] at hdrop
          rw [hdrop, Nat.mul_succ, Nat.add_comm]

/-! ### The receiver -/

theorem TableColumn.expectedSize_eq (t : TableColumn) : t.expectedSize = t.expected := by
  rw [expectedSize, expected]
  split
  · simp only [Int.shiftLeft_eq]
    omega
  · simp only [Int.shiftLeft_eq]
    omega

/-- The pointer walks over one word for each column. -/
theorem pushColumns_range' (data : Bytes) (k m ptr : Nat) (history : Nat → ColumnRing)
    (h : k + m ≤ maxColumn) :
    pushColumns data (List.range' k m) ptr history =
      .ok (fun j => if k ≤ j ∧ j < k + m then
        (history j).push (readBe64 data (ptr + 8 * (j - k))) else history j, ptr + 8 * m) := by
  induction m generalizing k ptr history with
  | zero =>
      have hempty : (fun j => if k ≤ j ∧ j < k + 0 then
          (history j).push (readBe64 data (ptr + 8 * (j - k))) else history j) = history :=
        funext fun j => if_neg (by omega)
      rw [hempty]
      rfl
  | succ m ih =>
      rw [List.range'_succ, pushColumns, if_pos (by omega : k < maxColumn), ih _ _ _ (by omega)]
      refine congrArg Except.ok (Prod.ext (funext fun j => ?_) (by dsimp only; omega))
      dsimp only
      rcases Nat.lt_trichotomy j k with hj | rfl | hj
      · rw [if_neg (by omega), if_neg (by omega), Function.update_of_ne (by omega)]
      · rw [if_neg (by omega), if_pos (by omega), Function.update_self, Nat.sub_self]
        rfl
      · have hptr : ptr + 8 + 8 * (j - (k + 1)) = ptr + 8 * (j - k) := by omega
        rw [Function.update_of_ne (by omega), hptr]
        by_cases hlast : j < k + (m + 1)
        · rw [if_pos (by omega), if_pos (by omega)]
        · rw [if_neg (by omega), if_neg (by omega)]

theorem readTop_eq (data : Bytes) (ptr : Nat) (top : Nat → Int64) :
    readTop data ptr top =
      fun j => if j < orderBookSize then readBe64 data (ptr + 8 * j) else top j := by
  funext j
  match j with
  | 0 => rfl
  | 1 => rfl
  | 2 => rfl
  | 3 => rfl
  | j + 4 =>
      rw [if_neg (by unfold orderBookSize; omega), readTop, Function.update_of_ne (by omega),
        Function.update_of_ne (by omega), Function.update_of_ne (by omega),
        Function.update_of_ne (by omega)]

variable {slots : SymbolAccessArray} {i : Nat}

/-- A packet with nothing to do. -/
theorem RawPacket.process_ignored {p : RawPacket}
    (h : ∀ i, place (readBe64 p.data 0).toInt = some i → (slots i).symbol ≠ -1 →
      p.size ≠ (slots i).expected) : p.process slots = (slots, .ok []) := by
  rw [process]
  cases hplace : place (readBe64 p.data 0).toInt with
  | none => rfl
  | some i =>
      dsimp only
      split
      · rfl
      · next hsymbol =>
          rw [TableColumn.expectedSize_eq, if_pos (h i hplace hsymbol)]

/-- A packet that is received calls the callbacks of the table it has been put into. -/
theorem RawPacket.process_received {p : RawPacket}
    (hplace : place (readBe64 p.data 0).toInt = some i) (hsymbol : (slots i).symbol ≠ -1)
    (hcolumns : (slots i).columnCount ≤ maxColumn) (hsize : p.size = (slots i).expected) :
    p.process slots =
      callBack slots i (readBe64 p.data 0) ((slots i).receive p.toPacket.word) := by
  have hpushed := pushColumns_range' p.data 0 (slots i).columnCount 8 (slots i).history (by omega)
  rw [← List.range_eq_range'] at hpushed
  rw [process]
  dsimp only
  rw [hplace]
  dsimp only
  rw [if_neg hsymbol, TableColumn.expectedSize_eq, if_neg (not_not_intro hsize), hpushed]
  refine congrArg (callBack slots i _) ?_
  rw [TableColumn.receive]
  congr 1
  · funext j
    split
    · next htop =>
        rw [readTop_eq]
        simp only [htop, true_and, toPacket, Nat.mul_add, Nat.add_assoc]
    · next htop => rw [if_neg fun h => htop h.1]
  · funext j
    simp only [Nat.zero_le, true_and, Nat.zero_add, Nat.sub_zero]
    rfl

/-- The receiver reads the words that `processPacket` is given. -/
theorem RawPacket.process_eq {p : RawPacket}
    (hcolumns : ∀ i, place (readBe64 p.data 0).toInt = some i →
      (slots i).columnCount ≤ maxColumn) :
    processPacket slots p.toPacket =
      (p.process slots).2.map fun signals => ((p.process slots).1, signals) := by
  by_cases hreceived : ∃ i, place (readBe64 p.data 0).toInt = some i ∧ (slots i).symbol ≠ -1 ∧
      p.size = (slots i).expected
  · obtain ⟨i, hplace, hsymbol, hsize⟩ := hreceived
    rw [p.process_received hplace hsymbol (hcolumns i hplace) hsize,
      processPacket_received (p := p.toPacket) hplace hsymbol hsize, callBack]
    dsimp only [TableColumn.receive, toPacket]
    generalize callIndicators _ (List.range (slots i).indicators.index) _ = called
    cases called with
    | error e => rfl
    | ok indicators =>
        dsimp only [bind, Except.bind]
        generalize callStrategys _ _ (List.range (slots i).strategys.index) _ = called
        cases called with
        | error e => rfl
        | ok strategys => rfl
  · have hignored : ∀ i, place (readBe64 p.data 0).toInt = some i → (slots i).symbol ≠ -1 →
        p.size ≠ (slots i).expected :=
      fun i hplace hsymbol hsize => hreceived ⟨i, hplace, hsymbol, hsize⟩
    rw [p.process_ignored hignored, processPacket_ignored (p := p.toPacket) hignored]
    rfl

/-! ### Round trips -/

/-- The callbacks put nothing into a history or the top of a book. -/
theorem callBack_slots (slots : SymbolAccessArray) (i : Nat) (tick : Int64)
    (entry : TableColumn) :
    ∃ indicators strategys, (callBack slots i tick entry).1 =
      Function.update slots i { entry with indicators := indicators, strategys := strategys } := by
  rw [callBack]
  cases callIndicators entry.history (List.range entry.indicators.index) entry.indicators with
  | error e => exact ⟨_, _, rfl⟩
  | ok indicators =>
      dsimp only
      cases callStrategys tick (indicators.entries 0) (List.range entry.strategys.index)
        entry.strategys with
      | error e => exact ⟨_, _, rfl⟩
      | ok strategys => exact ⟨_, _, rfl⟩

theorem packetOf_tick (s : Int64) (words : List Int64) (rest : Bytes) :
    readBe64 (packetOf (s :: words) rest).data 0 = s :=
  readBe64_words (j := 0) rfl rest

theorem packetOf_word {s v : Int64} {words : List Int64} {j : Nat} (h : words[j]? = some v)
    (rest : Bytes) : (packetOf (s :: words) rest).toPacket.word j = v := by
  have hword : readBe64 ((s :: words).flatMap htobe64 ++ rest) (8 * (j + 1)) = v :=
    readBe64_words h rest
  rwa [Nat.mul_succ, Nat.add_comm] at hword

/-- A packet that begins with the symbol of a table, one value for each of its columns and the top
of its book. -/
theorem received {s : Int64} {values top : List Int64} (hplace : place s.toInt = some i)
    (hsymbol : (slots i).symbol ≠ -1) (hcolumns : (slots i).columnCount ≤ maxColumn)
    (hvalues : values.length = (slots i).columnCount)
    (htop : top.length = if (slots i).isTopOrderBook then orderBookSize else 0) (rest : Bytes) :
    Received slots ((packetOf (s :: (values ++ top)) rest).process slots).1 i values top := by
  have hsize : (packetOf (s :: (values ++ top)) rest).size = (slots i).expected := by
    show (8 * ((s :: (values ++ top)).length : Int)) = _
    rw [TableColumn.expected, List.length_cons, List.length_append, hvalues, htop]
    split
    · unfold orderBookSize
      omega
    · omega
  have hword := fun j v (h : (values ++ top)[j]? = some v) => packetOf_word (s := s) h rest
  rw [RawPacket.process_received (by rwa [packetOf_tick]) hsymbol hcolumns hsize]
  generalize (packetOf (s :: (values ++ top)) rest).toPacket.word = word at hword ⊢
  obtain ⟨indicators, strategys, hslots⟩ := callBack_slots slots i
    (readBe64 (packetOf (s :: (values ++ top)) rest).data 0) ((slots i).receive word)
  rw [hslots]
  constructor
  · intro j v hv
    obtain ⟨hj, -⟩ := List.getElem?_eq_some_iff.mp hv
    rw [Function.update_self]
    show (if j < (slots i).columnCount then _ else _) = _
    rw [if_pos (by omega), hword j v (by rwa [List.getElem?_append_left hj])]
  · intro j hj
    rw [Function.update_self]
    exact if_neg (by omega)
  · intro j v hv
    obtain ⟨hj, -⟩ := List.getElem?_eq_some_iff.mp hv
    rw [Function.update_self]
    show (if (slots i).isTopOrderBook ∧ j < orderBookSize then _ else _) = _
    have hbook : (slots i).isTopOrderBook ∧ j < orderBookSize := by
      rw [htop] at hj
      split at hj
      · next hbook => exact ⟨hbook, hj⟩
      · omega
    rw [if_pos hbook, ← hvalues]
    refine hword (values.length + j) v ?_
    rw [List.getElem?_append_right (Nat.le_add_right _ _), Nat.add_sub_cancel_left]
    exact hv
  · intro j hj
    rw [Function.update_self]
    refine if_neg fun hbook => ?_
    rw [htop, if_pos hbook.1] at hj
    omega
  · intro k hk
    exact Function.update_of_ne hk _ _

/-- A record for a table without a top of the book. -/
theorem hftPkt_received {s : Int64} {fields : List Int64} (hplace : place s.toInt = some i)
    (hsymbol : (slots i).symbol ≠ -1) (hfew : fields.length ≤ maxColumn)
    (hcolumns : (slots i).columnCount = fields.length) (hbook : (slots i).isTopOrderBook = false) :
    Received slots ((hftPkt (s :: fields)).process slots).1 i fields [] := by
  have htop : ([] : List Int64).length =
      if (slots i).isTopOrderBook then orderBookSize else 0 := by
    rw [hbook]
    rfl
  have hreceived := received hplace hsymbol (hcolumns ▸ hfew) hcolumns.symm htop
    (List.replicate (packetSize - 8 * (s :: fields).length) 0)
  rwa [List.append_nil] at hreceived

/-- The round trip of the tick packets: a packet that is built for a table is read back value by
value, so are the records of `handle_trade_packet`, and every other packet is passed over. -/
theorem tick_round_trip (slots : SymbolAccessArray) :
    (∀ (s : Int64) (i : Nat) (values top : List Int64) (rest : Bytes), place s.toInt = some i →
        (slots i).symbol ≠ -1 → (slots i).columnCount ≤ maxColumn →
        values.length = (slots i).columnCount →
        top.length = (if (slots i).isTopOrderBook then orderBookSize else 0) →
        Received slots ((packetOf (s :: (values ++ top)) rest).process slots).1 i values top) ∧
      (∀ (ohlc : BinanceOHLCData) (i : Nat), place ohlc.tick.toInt = some i →
        (slots i).symbol ≠ -1 → (slots i).columnCount = 9 → (slots i).isTopOrderBook = false →
        Received slots (ohlc.packet.process slots).1 i ohlc.fields []) ∧
      (∀ (trade : BinanceLiveTradeData) (i : Nat), place trade.tick.toInt = some i →
        (slots i).symbol ≠ -1 → (slots i).columnCount = 6 → (slots i).isTopOrderBook = false →
        Received slots (trade.packet.process slots).1 i trade.fields []) ∧
      ∀ p : RawPacket, (∀ i, place (readBe64 p.data 0).toInt = some i → (slots i).symbol ≠ -1 →
          p.size ≠ 8 * ((slots i).columnCount + 1 + if (slots i).isTopOrderBook then 4 else 0)) →
        (p.process slots).1 = slots := by
  refine ⟨?_, ?_, ?_, ?_⟩
  · intro s i values top rest hplace hsymbol hcolumns hvalues htop
    exact received hplace hsymbol hcolumns hvalues htop rest
  · intro ohlc i hplace hsymbol hcolumns hbook
    have hfew : 9 ≤ maxColumn := by decide
    exact hftPkt_received hplace hsymbol hfew hcolumns hbook
  · intro trade i hplace hsymbol hcolumns hbook
    have hfew : 6 ≤ maxColumn := by decide
    exact hftPkt_received hplace hsymbol hfew hcolumns hbook
  · intro p hother
    rw [p.process_ignored hother]

/-- A table with two columns and the top of its book. -/
def quotesSlots : SymbolAccessArray :=
  Function.update (fun _ => {}) 3 { symbol := 3, columnCount := 2, isTopOrderBook := true }

theorem tick_round_trip_quotes :
    Received quotesSlots ((packetOf [3, -7, 8, 1, 2, 3, 4] []).process quotesSlots).1 3
      [-7, 8] [1, 2, 3, 4] :=
  (tick_round_trip quotesSlots).1 3 3 [-7, 8] [1, 2, 3, 4] [] (by decide) (by decide) (by decide)
    rfl rfl

end NanoVault.Hft
