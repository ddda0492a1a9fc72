/-
The depth packets of `ZerodhaAdapter` (`hft_clean/src/exchange_adapter.cpp`).

`onMessage` takes the number of levels from the length of the packet, and that number decides
where the asks begin. It loads every byte it looks at from a memory that holds the packet alone,
so a run without a fault has read nothing else (`onMessage_reads`). A packet laid out as the
source documents it is decoded into the levels it was made of (`onMessage_packet`).

The time stamp of a message is not modelled.
-/
import NanoVault.Book.Types
import NanoVault.Lib.BigEndian
import NanoVault.Lib.Reads

namespace NanoVault.MarketData.Zerodha

open Lib.Reads
open Book (Side)

inductive MsgType where
  | snapshot
  | delta
  | trade
deriving DecidableEq, Repr

inductive Exchange where
  | generic
  | binance
  | zerodha
  | coinbase
  | bybit
deriving DecidableEq, Repr

structure MarketDataMsg where
  type : MsgType
  side : Side
  price : Int64
  qty : Int64
  seq : UInt64
  exchange : Exchange
  symbol : List Char
deriving DecidableEq, Repr

def priceScale : Int := 100000000

def paiseToPrice (paise : Int32) : Int64 := paise.toInt64 * 1000000

/-- `to_qty` of a whole number: half a unit is added to the product and the sum is truncated. From
2^52 on a double has no halves, and the sum is the product, which is a multiple of 256. -/
def toQty (units : Int32) : Int64 :=
  let product := units.toInt * priceScale
  Int64.ofInt (if product.natAbs < 2 ^ 52 then (2 * product + 1).tdiv 2 else product)

variable (mem : Nat → Option UInt8)

def be32 (p : Nat) : Except Fault Int32 := do
  let u0 ← load mem p
  let u1 ← load mem (p + 1)
  let u2 ← load mem (p + 2)
  let u3 ← load mem (p + 3)
  return (u0.toUInt32 <<< 24 ||| u1.toUInt32 <<< 16 ||| u2.toUInt32 <<< 8 ||| u3.toUInt32).toInt32

def depthOffset : Nat := 44

def bytesPerSide : Nat := 12

def levelMsg (qty paise : Int32) (side : Side) (seq : UInt64) (symbol : List Char) :
    MarketDataMsg where
  type := .delta
  side := side
  price := paiseToPrice paise
  qty := toQty qty
  seq := seq
  exchange := .zerodha
  symbol := symbol

/-- `emit_lvl`: the message it emits, if it emits one. -/
def emitLvl (base idx : Nat) (side : Side) (seq : UInt64) (symbol : List Char) :
    Except Fault (List MarketDataMsg) := do
  let p := base + idx * bytesPerSide
  let qty ← be32 mem p
  let paise ← be32 mem (p + 4)
  if qty = 0 ∧ paise = 0 then return []
  else return [levelMsg qty paise side seq symbol]

/-- The loop over the levels of a side, from level `idx` on. -/
def emitSide (base : Nat) (side : Side) (seq : UInt64) (symbol : List Char) (idx : Nat) :
    Nat → Except Fault (List MarketDataMsg)
  | 0 => return []
  | count + 1 => do
      let msg ← emitLvl mem base idx side seq symbol
      let rest ← emitSide base side seq symbol (idx + 1) count
      return msg ++ rest

/-- The number of levels a packet of this length has room for. -/
def levelsOf (len : Nat) : Nat := min ((len - depthOffset) / (2 * bytesPerSide)) 20

/-- `on_message`: the counter after the call and the messages emitted by it. -/
def onMessage (len : Nat) (seq_ : UInt64) (symbol : List Char) :
    Except Fault (UInt64 × List MarketDataMsg) := do
  if len < depthOffset + 2 * bytesPerSide then return (seq_, [])
  let levels := levelsOf len
  if levels = 0 then return (seq_, [])
  let seq := seq_ + 1
  let bidBase := depthOffset
  let askBase := bidBase + levels * bytesPerSide
  let bids ← emitSide mem bidBase .buy seq symbol 0 levels
  if askBase + levels * bytesPerSide ≤ len then
    let asks ← emitSide mem askBase .sell seq symbol 0 levels
    return (seq, bids ++ asks)
  else return (seq, bids)

/-- The bytes that may be read: those of the packet. -/
def packetMemory (packet : List UInt8) (p : Nat) : Option UInt8 := packet[p]?

/-! ### Every read lies inside the packet -/

variable {packet : List UInt8} {base idx count p : Nat} {side : Side} {seq : UInt64}
  {symbol : List Char}

theorem load_packet (h : p < packet.length) :
    load (packetMemory packet) p = .ok packet[p] := by
  apply load_eq
  exact List.getElem?_eq_getElem h

/-- Four bytes inside the packet are read. -/
theorem be32_reads (h : p + 4 ≤ packet.length) : ∃ v, be32 (packetMemory packet) p = .ok v := by
  rw [be32, load_packet (show p < packet.length by omega),
    load_packet (show p + 1 < packet.length by omega),
    load_packet (show p + 2 < packet.length by omega),
    load_packet (show p + 3 < packet.length by omega)]
  exact ⟨_, rfl⟩

/-- An entry inside the packet is read. -/
theorem emitLvl_reads (side : Side) (seq : UInt64) (symbol : List Char)
    (h : base + (idx + 1) * bytesPerSide ≤ packet.length) :
    ∃ msgs, emitLvl (packetMemory packet) base idx side seq symbol = .ok msgs := by
  unfold bytesPerSide at h
  obtain ⟨qty, hqty⟩ : ∃ v, be32 (packetMemory packet) (base + idx * bytesPerSide) = .ok v :=
    be32_reads (by unfold bytesPerSide; omega)
  obtain ⟨paise, hpaise⟩ :
      ∃ v, be32 (packetMemory packet) (base + idx * bytesPerSide + 4) = .ok v :=
    be32_reads (by unfold bytesPerSide; omega)
  simp only [emitLvl, hqty, hpaise, ok_bind]
  split
  · exact ⟨_, rfl⟩
  · exact ⟨_, rfl⟩

/-- A table inside the packet is read. -/
theorem emitSide_reads (side : Side) (seq : UInt64) (symbol : List Char)
    (h : base + (idx + count) * bytesPerSide ≤ packet.length) :
    ∃ msgs, emitSide (packetMemory packet) base side seq symbol idx count = .ok msgs := by
  induction count generalizing idx with
  | zero => exact ⟨[], rfl⟩
  | succ count ih =>
      have hone : base + (idx + 1) * bytesPerSide ≤ packet.length := by
        unfold bytesPerSide at h ⊢
        omega
      have hrest : base + (idx + 1 + count) * bytesPerSide ≤ packet.length := by
        unfold bytesPerSide at h ⊢
        omega
      obtain ⟨msgs, hmsgs⟩ := emitLvl_reads side seq symbol hone
      obtain ⟨rest, hrest⟩ := ih hrest
      rw [emitSide, hmsgs, ok_bind, hrest]
      exact ⟨msgs ++ rest, rfl⟩

/-- Both tables lie inside a packet of that length. -/
theorem levelsOf_le (len : Nat) (hlen : depthOffset ≤ len) :
    depthOffset + levelsOf len * bytesPerSide + levelsOf len * bytesPerSide ≤ len := by
  unfold levelsOf bytesPerSide depthOffset at *
  omega

/-- Whatever the packet is, `on_message` returns without a fault. -/
theorem onMessage_reads (packet : List UInt8) (seq_ : UInt64) (symbol : List Char) :
    ∃ r, onMessage (packetMemory packet) packet.length seq_ symbol = .ok r := by
  unfold onMessage
  split
  · exact ⟨_, rfl⟩
  · next hlen =>
      dsimp only
      split
      · exact ⟨_, rfl⟩
      · have htables := levelsOf_le packet.length (by omega)
        have hbidTable : depthOffset + (0 + levelsOf packet.length) * bytesPerSide ≤
            packet.length := by
          rw [Nat.zero_add]
          omega
        have haskTable : depthOffset + levelsOf packet.length * bytesPerSide +
            (0 + levelsOf packet.length) * bytesPerSide ≤ packet.length := by
          rwa [Nat.zero_add]
        obtain ⟨bids, hbids⟩ := emitSide_reads .buy (seq_ + 1) symbol hbidTable
        obtain ⟨asks, hasks⟩ := emitSide_reads .sell (seq_ + 1) symbol haskTable
        rw [hbids, ok_bind, if_pos htables, hasks]
        exact ⟨_, rfl⟩

/-! ### What was encoded is decoded -/

/-- An entry of a depth table. -/
structure Entry where
  qty : Int32
  paise : Int32
  orders : UInt16
  pad : UInt16
  qty_nonneg : 0 ≤ qty.toInt
  paise_nonneg : 0 ≤ paise.toInt

/-- `[qty(4), price(4), orders(2), pad(2)]`. -/
def Entry.encode (e : Entry) : List UInt8 :=
  Lib.BigEndian.bytes 4 e.qty.toUInt32.toNat ++ Lib.BigEndian.bytes 4 e.paise.toUInt32.toNat ++
    Lib.BigEndian.bytes 2 e.orders.toNat ++ Lib.BigEndian.bytes 2 e.pad.toNat

/-- The documented layout of a packet. -/
def encodePacket (header : List UInt8) (bids asks : List Entry) (trailer : List UInt8) :
    List UInt8 :=
  header ++ bids.flatMap Entry.encode ++ asks.flatMap Entry.encode ++ trailer

/-- Quantity and price are not both zero. -/
def Entry.isLevel (e : Entry) : Bool := decide ¬ (e.qty = 0 ∧ e.paise = 0)

/-- The messages a table of entries stands for. -/
def tableMsgs (entries : List Entry) (side : Side) (seq : UInt64) (symbol : List Char) :
    List MarketDataMsg :=
  (entries.filter Entry.isLevel).map fun e => levelMsg e.qty e.paise side seq symbol

/-- Bits that do not overlap are added. -/
theorem or_eq_add {a b : Nat} (i : Nat) (ha : 2 ^ i ∣ a) (hb : b < 2 ^ i) : a ||| b = a + b := by
  obtain ⟨c, rfl⟩ := ha
  exact (Nat.two_pow_add_eq_or_of_lt hb c).symm

/-- The four bytes put together are the number they stand for. -/
theorem shifted_toNat (u0 u1 u2 u3 : UInt8) :
    (u0.toUInt32 <<< 24 ||| u1.toUInt32 <<< 16 ||| u2.toUInt32 <<< 8 ||| u3.toUInt32).toNat =
      Lib.BigEndian.value [u0, u1, u2, u3] := by
  have h0 := u0.toNat_lt
  have h1 := u1.toNat_lt
  have h2 := u2.toNat_lt
  have h3 := u3.toNat_lt
  simp only [UInt32.toNat_or, UInt32.toNat_shiftLeft, UInt8.toNat_toUInt32, Nat.shiftLeft_eq,
    UInt32.toNat_ofNat, Nat.reducePow, Nat.reduceMod]
  rw [Nat.mod_eq_of_lt (by omega), Nat.mod_eq_of_lt (by omega), Nat.mod_eq_of_lt (by omega)]
  have hhigh : u0.toNat * 16777216 ||| u1.toNat * 65536 =
      u0.toNat * 16777216 + u1.toNat * 65536 := or_eq_add 24 (by omega) (by omega)
  have hmid : u0.toNat * 16777216 + u1.toNat * 65536 ||| u2.toNat * 256 =
      u0.toNat * 16777216 + u1.toNat * 65536 + u2.toNat * 256 :=
    or_eq_add 16 (by omega) (by omega)
  rw [hhigh, hmid, or_eq_add 8 (by omega) (by omega)]
  simp only [Lib.BigEndian.value, List.foldl_cons, List.foldl_nil]
  omega

/-- A number is read back from its four bytes. -/
theorem be32_encoded {v : Int32} {rest : List UInt8}
    (h : packet.drop p = Lib.BigEndian.bytes 4 v.toUInt32.toNat ++ rest) :
    be32 (packetMemory packet) p = .ok v := by
  have hbytes : ∀ i < 4, packetMemory packet (p + i) =
      (Lib.BigEndian.bytes 4 v.toUInt32.toNat)[i]? := by
    intro i hi
    rw [packetMemory, ← List.getElem?_drop, h, List.getElem?_append_left]
    rwa [Lib.BigEndian.length_bytes]
  have hvalue := Lib.BigEndian.value_bytes (n := 4) (v := v.toUInt32.toNat) v.toUInt32.toNat_lt
  obtain ⟨u0, u1, u2, u3, hlist⟩ : ∃ u0 u1 u2 u3,
      Lib.BigEndian.bytes 4 v.toUInt32.toNat = [u0, u1, u2, u3] := ⟨_, _, _, _, rfl⟩
  rw [hlist] at hbytes hvalue
  have hfirst : packetMemory packet p = some u0 := hbytes 0 (by omega)
  rw [be32, load_eq hfirst, load_eq (hbytes 1 (by omega)),
    load_eq (hbytes 2 (by omega)), load_eq (hbytes 3 (by omega))]
  simp only [ok_bind, pure_eq_ok]
  congr 1
  have hword : u0.toUInt32 <<< 24 ||| u1.toUInt32 <<< 16 ||| u2.toUInt32 <<< 8 ||| u3.toUInt32 =
      v.toUInt32 := by
    apply UInt32.toNat_inj.mp
    rw [shifted_toNat, hvalue]
  rw [hword]
  exact Int32.toInt32_toUInt32 v

/-- An entry takes twelve bytes. -/
theorem Entry.length_encode (e : Entry) : e.encode.length = bytesPerSide := by
  simp only [encode, List.length_append, Lib.BigEndian.length_bytes, bytesPerSide]

theorem length_table (entries : List Entry) :
    (entries.flatMap Entry.encode).length = entries.length * bytesPerSide := by
  induction entries with
  | nil => rfl
  | cons e entries ih =>
      rw [List.flatMap_cons, List.length_append, ih, e.length_encode, List.length_cons]
      ring

/-- An entry is read back. -/
theorem emitLvl_encoded {e : Entry} {rest : List UInt8}
    (h : packet.drop (base + idx * bytesPerSide) = e.encode ++ rest) :
    emitLvl (packetMemory packet) base idx side seq symbol =
      .ok (tableMsgs [e] side seq symbol) := by
  rw [Entry.encode, List.append_assoc, List.append_assoc, List.append_assoc] at h
  have hpaise : packet.drop (base + idx * bytesPerSide + 4) =
      Lib.BigEndian.bytes 4 e.paise.toUInt32.toNat ++ (Lib.BigEndian.bytes 2 e.orders.toNat ++
        (Lib.BigEndian.bytes 2 e.pad.toNat ++ rest)) := by
    rw [← List.drop_drop, h]
    exact List.drop_left' (Lib.BigEndian.length_bytes ..)
  simp only [emitLvl, be32_encoded h, be32_encoded hpaise, ok_bind, pure_eq_ok, tableMsgs]
  by_cases hzero : e.qty = 0 ∧ e.paise = 0
  · rw [if_pos hzero, List.filter_cons_of_neg (by simp [Entry.isLevel, hzero])]
    rfl
  · rw [if_neg hzero, List.filter_cons_of_pos (by simpa only [Entry.isLevel, decide_eq_true_eq] using hzero)]
    rfl

/-- A table is read back entry by entry. -/
theorem emitSide_encoded {entries : List Entry} {rest : List UInt8}
    (h : packet.drop (base + idx * bytesPerSide) = entries.flatMap Entry.encode ++ rest) :
    emitSide (packetMemory packet) base side seq symbol idx entries.length =
      .ok (tableMsgs entries side seq symbol) := by
  induction entries generalizing idx with
  | nil => rfl
  | cons e entries ih =>
      rw [List.flatMap_cons, List.append_assoc] at h
      have hnext : packet.drop (base + (idx + 1) * bytesPerSide) =
          entries.flatMap Entry.encode ++ rest := by
        rw [Nat.add_mul, Nat.one_mul, ← Nat.add_assoc, ← List.drop_drop, h]
        exact List.drop_left' e.length_encode
      rw [List.length_cons, emitSide, emitLvl_encoded h, ok_bind, ih hnext, ok_bind, pure_eq_ok,
        tableMsgs, tableMsgs, ← List.map_append, ← List.filter_append, List.singleton_append]
      rfl

/-- A price and a quantity are scaled without loss. -/
theorem paiseToPrice_toInt (paise : Int32) :
    (paiseToPrice paise).toInt = paise.toInt * 1000000 := by
  have hlow := paise.le_toInt
  have hhigh := paise.toInt_lt
  rw [paiseToPrice, Int64.toInt_mul, Int32.toInt_toInt64]
  have hscale : (1000000 : Int64).toInt = 1000000 := rfl
  rw [hscale]
  exact Int.bmod_eq_of_le (by omega) (by omega)

/-- A quantity that is not negative is scaled exactly. -/
theorem toQty_toInt {units : Int32} (hunits : 0 ≤ units.toInt) :
    (toQty units).toInt = units.toInt * 100000000 := by
  have hhigh := units.toInt_lt
  have hhalf : (if (units.toInt * priceScale).natAbs < 2 ^ 52 then
      (2 * (units.toInt * priceScale) + 1).tdiv 2 else units.toInt * priceScale) =
        units.toInt * 100000000 := by
    unfold priceScale
    rw [Int.tdiv_eq_ediv_of_nonneg (by omega)]
    omega
  have hsize : Int64.size = 2 ^ 64 := rfl
  rw [toQty, hhalf, Int64.toInt_ofInt, hsize]
  exact Int.bmod_eq_of_le (by omega) (by omega)

/-- A packet is read back as its two tables. -/
theorem onMessage_encoded {header trailer : List UInt8} {bids asks : List Entry}
    (hheader : header.length = 44) (hpos : 1 ≤ bids.length) (hmax : bids.length ≤ 20)
    (hasks : asks.length = bids.length) (htrailer : trailer.length < 24) (seq_ : UInt64)
    (symbol : List Char) :
    let packet := encodePacket header bids asks trailer
    onMessage (packetMemory packet) packet.length seq_ symbol =
      .ok (seq_ + 1, tableMsgs bids .buy (seq_ + 1) symbol ++
        tableMsgs asks .sell (seq_ + 1) symbol) := by
  intro packet
  have hlen : packet.length = 44 + bids.length * 24 + trailer.length := by
    simp only [packet, encodePacket, List.length_append, length_table, hheader, hasks,
      bytesPerSide]
    omega
  have hlevels : levelsOf packet.length = bids.length := by
    rw [levelsOf, hlen, depthOffset, bytesPerSide]
    omega
  have hbids : packet.drop (depthOffset + 0 * bytesPerSide) =
      bids.flatMap Entry.encode ++ (asks.flatMap Entry.encode ++ trailer) := by
    simp only [packet, encodePacket, List.append_assoc, depthOffset, Nat.zero_mul, Nat.add_zero]
    exact List.drop_left' hheader
  have hasksAt : packet.drop (depthOffset + bids.length * bytesPerSide + 0 * bytesPerSide) =
      asks.flatMap Entry.encode ++ trailer := by
    rw [Nat.zero_mul, Nat.add_zero] at hbids ⊢
    rw [← List.drop_drop, hbids]
    exact List.drop_left' (length_table bids)
  have hlong : ¬ packet.length < depthOffset + 2 * bytesPerSide := by
    rw [hlen, depthOffset, bytesPerSide]
    omega
  have hfits : depthOffset + bids.length * bytesPerSide + bids.length * bytesPerSide ≤
      packet.length := by
    rw [hlen, depthOffset, bytesPerSide]
    omega
  have hsell : emitSide (packetMemory packet) (depthOffset + bids.length * bytesPerSide) .sell
      (seq_ + 1) symbol 0 bids.length = .ok (tableMsgs asks .sell (seq_ + 1) symbol) :=
    hasks ▸ emitSide_encoded (hasks.symm ▸ hasksAt)
  simp only [onMessage, if_neg hlong, hlevels, if_neg (show ¬ bids.length = 0 by omega),
    emitSide_encoded hbids, ok_bind, pure_eq_ok, if_pos hfits, hsell]

/-- The side of a message, its price and its quantity, as numbers. -/
def MarketDataMsg.numbers (m : MarketDataMsg) : Side × Int × Int :=
  (m.side, m.price.toInt, m.qty.toInt)

/-- The scaled price and quantity of an entry. -/
def Entry.scaled (side : Side) (e : Entry) : Side × Int × Int :=
  (side, e.paise.toInt * 1000000, e.qty.toInt * 100000000)

/-- The messages carry the scaled numbers of the entries that are levels. -/
theorem tableMsgs_numbers (entries : List Entry) :
    (tableMsgs entries side seq symbol).map MarketDataMsg.numbers =
      (entries.filter Entry.isLevel).map (Entry.scaled side) := by
  rw [tableMsgs, List.map_map]
  apply List.map_congr_left
  intro e _
  simp only [Function.comp_apply, MarketDataMsg.numbers, levelMsg, paiseToPrice_toInt,
    toQty_toInt e.qty_nonneg, Entry.scaled]

/-- What all messages of a table have in common. -/
theorem mem_tableMsgs {entries : List Entry} {m : MarketDataMsg}
    (h : m ∈ tableMsgs entries side seq symbol) :
    m.type = .delta ∧ m.seq = seq ∧ m.exchange = .zerodha ∧ m.symbol = symbol := by
  obtain ⟨e, -, rfl⟩ := List.mem_map.mp h
  exact ⟨rfl, rfl, rfl, rfl⟩

/-- A packet laid out as documented is decoded into the bids and then the asks that are levels,
in order and scaled without loss. -/
theorem onMessage_packet (header trailer : List UInt8) (bids asks : List Entry) (seq_ : UInt64)
    (symbol : List Char) (hheader : header.length = 44) (hpos : 1 ≤ bids.length)
    (hmax : bids.length ≤ 20) (hasks : asks.length = bids.length) (htrailer : trailer.length < 24) :
    ∃ msgs, onMessage (packetMemory (encodePacket header bids asks trailer))
        (encodePacket header bids asks trailer).length seq_ symbol = .ok (seq_ + 1, msgs) ∧
      msgs.map MarketDataMsg.numbers =
        (bids.filter Entry.isLevel).map (Entry.scaled .buy) ++
          (asks.filter Entry.isLevel).map (Entry.scaled .sell) ∧
      ∀ m ∈ msgs, m.type = .delta ∧ m.seq = seq_ + 1 ∧ m.exchange = .zerodha ∧
        m.symbol = symbol := by
  refine ⟨_, onMessage_encoded hheader hpos hmax hasks htrailer seq_ symbol, ?_, ?_⟩
  · rw [List.map_append, tableMsgs_numbers, tableMsgs_numbers]
  · intro m hm
    rcases List.mem_append.mp hm with hbid | hask
    · exact mem_tableMsgs hbid
    · exact mem_tableMsgs hask

/-- Fifty units at 100.5 rupees. -/
def sampleEntry : Entry where
  qty := 50
  paise := 10050
  orders := 3
  pad := 0
  qty_nonneg := by decide
  paise_nonneg := by decide

theorem onMessage_packet_sample :
    ∃ msgs, onMessage
        (packetMemory (encodePacket (List.replicate 44 0) [sampleEntry] [sampleEntry] [7]))
        (encodePacket (List.replicate 44 0) [sampleEntry] [sampleEntry] [7]).length 0 [] =
          .ok (0 + 1, msgs) ∧
      msgs.map MarketDataMsg.numbers =
        ([sampleEntry].filter Entry.isLevel).map (Entry.scaled .buy) ++
          ([sampleEntry].filter Entry.isLevel).map (Entry.scaled .sell) ∧
      ∀ m ∈ msgs, m.type = .delta ∧ m.seq = 0 + 1 ∧ m.exchange = .zerodha ∧ m.symbol = [] :=
  onMessage_packet _ _ _ _ _ _ (by decide) (by decide) (by decide) (by decide) (by decide)

end NanoVault.MarketData.Zerodha
