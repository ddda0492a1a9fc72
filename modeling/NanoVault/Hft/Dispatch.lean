/-
A packet for an HFT table (`process_packet` in `UDPReceiver.hpp`).

A packet of the size its table wants is put into the histories and the top of the book; then
the callback of every indicator and of every strategy below the slot's indices is called. The
call of the batch writer behind them, which reads the histories, is left out.
-/
import NanoVault.Hft.Registration

namespace NanoVault.Hft

open NanoVault.Table

/-- The symbol a packet begins with, its size in bytes, and the words behind the symbol. -/
structure Packet where
  tick : Int64
  size : Int
  word : Nat → Int64

/-- What is pushed to `webSocketsPacketParser`. -/
structure Signal where
  valid : Bool
  tick : Int64
  strategyIndex : Nat
deriving DecidableEq, Repr

/-- The size of a packet for the table. -/
def TableColumn.expected (t : TableColumn) : Int :=
  8 * (t.columnCount + 1 + if t.isTopOrderBook then 4 else 0)

/-- The values of a packet. -/
def TableColumn.receive (t : TableColumn) (word : Nat → Int64) : TableColumn :=
  { t with
    history := fun i => if i < t.columnCount then (t.history i).push (word i) else t.history i
    topOrderBook := fun j =>
      if t.isTopOrderBook ∧ j < orderBookSize then word (t.columnCount + j) else t.topOrderBook j }

/-- The calls of the indicators. -/
def callIndicators (history : Nat → ColumnRing) :
    List Nat → Registrations SMA → Except Failure (Registrations SMA)
  | [], r => return r
  | i :: is, r =>
      match r.entries i with
      | none => throw .uninitialised
      | some sma =>
          callIndicators history is
            { r with entries := Function.update r.entries i (some (sma.onTick history)) }

/-- The calls of the strategies, on the first entry of the indicators. -/
def callStrategys (tick : Int64) (first : Option SMA) :
    List Nat → Registrations Strategy → Except Failure (Registrations Strategy × List Signal)
  | [], r => return (r, [])
  | i :: is, r =>
      match r.entries i with
      | none => throw .uninitialised
      | some strategy => do
          let called ← strategy.result first
          let rest ← callStrategys tick first is
            { r with entries := Function.update r.entries i (some called.2) }
          return (rest.1, ⟨called.1, tick, i⟩ :: rest.2)

def processPacket (slots : SymbolAccessArray) (p : Packet) :
    Except Failure (SymbolAccessArray × List Signal) :=
  match place p.tick.toInt with
  | none => return (slots, [])
  | some i =>
      let entry := slots i
      if entry.symbol = -1 ∨ p.size ≠ entry.expected then return (slots, [])
      else do
        let entry := entry.receive p.word
        let indicators ← callIndicators entry.history (List.range entry.indicators.index)
          entry.indicators
        let strategys ← callStrategys p.tick (indicators.entries 0)
          (List.range entry.strategys.index) entry.strategys
        return (Function.update slots i
          { entry with indicators := indicators, strategys := strategys.1 }, strategys.2)

end NanoVault.Hft
