/-
`MarketDataHandler` with its adapters (`hft_clean/src/market_data_handler.cpp`), as
`handle_binance_order_book_parsing` and `BinanceSync` use it.

A frame goes to the adapter under its exchange and symbol; what the adapter emits goes to the book
under the exchange and the symbol of the adapter. With adapters registered under the symbol they
were given, as the caller does it, a book is the one that the calls for its own exchange and symbol
make of it (`book_of_own_calls`), and calls for different symbols may come in any order
(`interleaved_calls`).
-/
import NanoVault.Lib.Keyed
import NanoVault.MarketData.BinanceAdapter
import NanoVault.MarketData.DeltaFeed
import NanoVault.MarketData.ZerodhaAdapter

namespace NanoVault.MarketData

open Lib Book OrderBook

/-- The adapters, with the symbol and the counter of each. -/
inductive ExchangeAdapter where
  | binance (symbol : Symbol) (seq : UInt64)
  | zerodha (symbol : Symbol) (seq : UInt64)
deriving DecidableEq

namespace ExchangeAdapter

def exchangeId : ExchangeAdapter → Exchange
  | binance _ _ => .binance
  | zerodha _ _ => .zerodha

def symbol : ExchangeAdapter → Symbol
  | binance symbol _ => symbol
  | zerodha symbol _ => symbol

/-- The key of the messages an adapter emits. -/
def key (a : ExchangeAdapter) : ExchangeSymbolKey := ⟨a.exchangeId, a.symbol⟩

end ExchangeAdapter

/-- What `to_price(std::strtod(s))` and `to_qty(std::strtod(s))` make of a string. -/
structure Conversion where
  toPrice : List Char → Price
  toQty : List Char → Int64

/-- The bytes of a frame as the characters of a text. -/
def frameText (data : List UInt8) : List Char := data.map fun b => Char.ofNat b.toNat

/-- `BinanceAdapter::emit_level`. -/
def Level.msg (conv : Conversion) (symbol : Symbol) (l : Level) : MarketDataMsg where
  side := l.side
  price := conv.toPrice l.priceStr
  qty := conv.toQty l.qtyStr
  exchange := .binance
  symbol := symbol

/-- What `apply_delta` looks at of a message of `ZerodhaAdapter`. -/
def depthMsg (symbol : Symbol) (m : Zerodha.MarketDataMsg) : MarketDataMsg where
  side := m.side
  price := m.price
  qty := m.qty
  exchange := .zerodha
  symbol := symbol

/-- `on_message`: the adapter after the frame, and what it has emitted. -/
def ExchangeAdapter.onMessage (conv : Conversion) (data : List UInt8) :
    ExchangeAdapter → Option (ExchangeAdapter × List MarketDataMsg)
  | .binance symbol seq =>
      let (seq', levels) := MarketData.onMessage seq (frameText data)
      some (.binance symbol seq', levels.map (Level.msg conv symbol))
  | .zerodha symbol seq =>
      match Zerodha.onMessage (Zerodha.packetMemory data) data.length seq [] with
      | .error _ => none
      | .ok (seq', msgs) => some (.zerodha symbol seq', msgs.map (depthMsg symbol))

/-- `MarketDataHandler`. -/
structure Dispatcher extends MarketDataHandler where
  adapters : ExchangeSymbolKey → Option ExchangeAdapter := fun _ => none

/-- The calls of a handler, those of `BinanceSync` on a book it has asked for included. -/
inductive Call where
  | getOrCreateBook (k : ExchangeSymbolKey)
  | registerAdapter (adapter : ExchangeAdapter) (sym : Symbol)
  | feed (k : ExchangeSymbolKey) (data : List UInt8)
  | applyDelta (msg : MarketDataMsg)
  /-- An order of `fetch_snapshot`. -/
  | snapshotOrder (k : ExchangeSymbolKey) (side : Side) (price : Price) (qty : Int)
  /-- `clear_book`. -/
  | clearBook (k : ExchangeSymbolKey)

namespace Dispatcher

variable (conv : Conversion) (freed : TradeId → Price) (fuel : Nat)

def setBook (d : Dispatcher) (k : ExchangeSymbolKey) (b : OrderBook) : Dispatcher :=
  { d with toMarketDataHandler := d.toMarketDataHandler.setBook k b }

def getOrCreateBook (d : Dispatcher) (k : ExchangeSymbolKey) : Dispatcher :=
  { d with toMarketDataHandler := d.toMarketDataHandler.getOrCreateBook k }

def registerAdapter (d : Dispatcher) (a : ExchangeAdapter) (sym : Symbol) : Dispatcher :=
  { d.getOrCreateBook ⟨a.exchangeId, sym⟩ with
    adapters := Function.update d.adapters ⟨a.exchangeId, sym⟩ (some a) }

def applyDeltas (d : Dispatcher) (msgs : List MarketDataMsg) : Option Dispatcher :=
  (d.toMarketDataHandler.applyDeltas freed fuel msgs).map fun h =>
    { d with toMarketDataHandler := h }

def feed (d : Dispatcher) (k : ExchangeSymbolKey) (data : List UInt8) : Option Dispatcher :=
  match d.adapters k with
  | none => some d
  | some a =>
      (a.onMessage conv data).bind fun r =>
        { d with adapters := Function.update d.adapters k (some r.1) }.applyDeltas freed fuel r.2

/-- `get_or_create_book(..)->add_order(side, OrderType::LIMIT, ..)`. -/
def snapshotOrder (d : Dispatcher) (k : ExchangeSymbolKey) (side : Side) (price : Price)
    (qty : Int) : Option Dispatcher :=
  (((d.books k).getD {}).addOrder freed fuel side .limit price qty .binance).map fun r =>
    d.setBook k r.1

def clearBook (d : Dispatcher) (k : ExchangeSymbolKey) : Dispatcher :=
  d.setBook k ((d.books k).getD {}).clear

def call (d : Dispatcher) : Call → Option Dispatcher
  | .getOrCreateBook k => some (d.getOrCreateBook k)
  | .registerAdapter a sym => some (d.registerAdapter a sym)
  | .feed k data => d.feed conv freed fuel k data
  | .applyDelta msg => d.applyDeltas freed fuel [msg]
  | .snapshotOrder k side price qty => d.snapshotOrder freed fuel k side price qty
  | .clearBook k => some (d.clearBook k)

def calls (d : Dispatcher) (cs : List Call) : Option Dispatcher :=
  cs.foldlM (call conv freed fuel) d

end Dispatcher

/-! ### One exchange and symbol -/

/-- What the handler has under one key. -/
structure Feed where
  book : Option OrderBook := none
  adapter : Option ExchangeAdapter := none

namespace Feed

variable (conv : Conversion) (freed : TradeId → Price) (fuel : Nat)

def applyDelta (f : Feed) (msg : MarketDataMsg) : Option Feed :=
  match f.book with
  | none => some f
  | some b =>
      if msg.qty = 0 then some f
      else
        (b.addOrder freed fuel msg.side .limit msg.price msg.qty.toInt msg.exchange).map fun r =>
          { f with book := some r.1 }

def applyDeltas (f : Feed) (msgs : List MarketDataMsg) : Option Feed :=
  msgs.foldlM (applyDelta freed fuel) f

/-- What a call does to the book and the adapter it is for. -/
def call (f : Feed) : Call → Option Feed
  | .getOrCreateBook _ => some { f with book := some (f.book.getD {}) }
  | .registerAdapter a _ => some ⟨some (f.book.getD {}), some a⟩
  | .feed _ data =>
      match f.adapter with
      | none => some f
      | some a =>
          (a.onMessage conv data).bind fun r =>
            applyDeltas freed fuel { f with adapter := some r.1 } r.2
  | .applyDelta msg => f.applyDeltas freed fuel [msg]
  | .snapshotOrder _ side price qty =>
      ((f.book.getD {}).addOrder freed fuel side .limit price qty .binance).map fun r =>
        { f with book := some r.1 }
  | .clearBook _ => some { f with book := some (f.book.getD {}).clear }

end Feed

def Call.key : Call → ExchangeSymbolKey
  | .getOrCreateBook k => k
  | .registerAdapter a sym => ⟨a.exchangeId, sym⟩
  | .feed k _ => k
  | .applyDelta msg => msg.key
  | .snapshotOrder k _ _ _ => k
  | .clearBook k => k

/-- An adapter is registered under the symbol it was given by `set_symbol`. -/
def Call.Placed : Call → Prop
  | .registerAdapter a sym => a.symbol = sym
  | _ => True

def Feed.Placed (k : ExchangeSymbolKey) (f : Feed) : Prop := ∀ a, f.adapter = some a → a.key = k

def Dispatcher.feeds (d : Dispatcher) (k : ExchangeSymbolKey) : Feed := ⟨d.books k, d.adapters k⟩

/-- Every adapter stands under its own key. -/
def Dispatcher.Placed (d : Dispatcher) : Prop := ∀ k, (d.feeds k).Placed k

def Dispatcher.ofFeeds (fs : ExchangeSymbolKey → Feed) : Dispatcher where
  books k := (fs k).book
  adapters k := (fs k).adapter

variable {conv : Conversion} {freed : TradeId → Price} {fuel : Nat} {d d' : Dispatcher}
  {a a' : ExchangeAdapter} {data : List UInt8} {msgs : List MarketDataMsg} {c : Call}
  {k : ExchangeSymbolKey}

@[simp] theorem feeds_ofFeeds (fs : ExchangeSymbolKey → Feed) : (Dispatcher.ofFeeds fs).feeds = fs :=
  rfl

/-- A dispatcher is what its feeds are. -/
theorem feeds_inj (h : d.feeds = d'.feeds) : d = d' := by
  have hbooks : d.books = d'.books := funext fun k => congrArg Feed.book (congrFun h k)
  have hadapters : d.adapters = d'.adapters := funext fun k => congrArg Feed.adapter (congrFun h k)
  obtain ⟨⟨books⟩, adapters⟩ := d
  obtain ⟨⟨books'⟩, adapters'⟩ := d'
  cases hbooks
  cases hadapters
  rfl

/-- An adapter keeps its exchange and its symbol, and emits for nothing else. -/
theorem onMessage_key (h : a.onMessage conv data = some (a', msgs)) :
    a'.key = a.key ∧ ∀ m ∈ msgs, m.key = a.key := by
  cases a with
  | binance symbol seq =>
      simp only [ExchangeAdapter.onMessage, Option.some.injEq, Prod.mk.injEq] at h
      obtain ⟨rfl, rfl⟩ := h
      refine ⟨rfl, fun m hm => ?_⟩
      obtain ⟨l, -, rfl⟩ := List.mem_map.mp hm
      rfl
  | zerodha symbol seq =>
      simp only [ExchangeAdapter.onMessage] at h
      split at h
      · cases h
      · simp only [Option.some.injEq, Prod.mk.injEq] at h
        obtain ⟨rfl, rfl⟩ := h
        refine ⟨rfl, fun m hm => ?_⟩
        obtain ⟨l, -, rfl⟩ := List.mem_map.mp hm
        rfl

/-- The feeds after one book is replaced. -/
theorem feeds_setBook (b : OrderBook) : (d.setBook k b).feeds =
    Function.update d.feeds k { d.feeds k with book := some b } := by
  funext k'
  by_cases hk : k' = k
  · subst hk
    simp [Dispatcher.feeds, Dispatcher.setBook, MarketDataHandler.setBook]
  · simp [Dispatcher.feeds, Dispatcher.setBook, MarketDataHandler.setBook, hk]

/-- The feeds after a book is created. -/
theorem feeds_getOrCreateBook : (d.getOrCreateBook k).feeds =
    Function.update d.feeds k { d.feeds k with book := some ((d.books k).getD {}) } := by
  unfold Dispatcher.getOrCreateBook MarketDataHandler.getOrCreateBook
  cases hb : d.books k with
  | none => exact feeds_setBook {}
  | some b =>
      have hsame : ({ d.feeds k with book := some b } : Feed) = d.feeds k := by
        rw [← hb]
        rfl
      simp only [Option.getD_some, hsame, Function.update_eq_self]

theorem feeds_adapter (a : ExchangeAdapter) :
    { d with adapters := Function.update d.adapters k (some a) }.feeds =
      Function.update d.feeds k { d.feeds k with adapter := some a } := by
  funext k'
  by_cases hk : k' = k
  · subst hk
    simp [Dispatcher.feeds]
  · simp [Dispatcher.feeds, hk]

/-- A delta changes the feed of its key. -/
theorem feeds_applyDelta (msg : MarketDataMsg) :
    (d.toMarketDataHandler.applyDelta freed fuel msg).map (fun h =>
        { d with toMarketDataHandler := h }.feeds) =
      ((d.feeds msg.key).applyDelta freed fuel msg).map (Function.update d.feeds msg.key) := by
  have hsame : Function.update d.feeds msg.key (d.feeds msg.key) = d.feeds :=
    Function.update_eq_self _ _
  have hbook : (d.feeds msg.key).book = d.books msg.key := rfl
  unfold MarketDataHandler.applyDelta Feed.applyDelta
  rw [hbook]
  cases hb : d.books msg.key with
  | none => exact congrArg some hsame.symm
  | some b =>
      by_cases hqty : msg.qty = 0
      · simp only [hqty, if_true, Option.map_some, hsame]
      · simp only [hqty, if_false, Option.map_map]
        congr 1
        funext r
        exact feeds_setBook r.1

theorem update_update {f : ExchangeSymbolKey → Feed} {x : Feed} :
    Function.update (Function.update f k x) k = Function.update f k :=
  funext fun _ => Function.update_idem _ _ _

/-- Deltas for one key act on what is under it. -/
theorem feeds_applyDeltas (hmsgs : ∀ m ∈ msgs, m.key = k) :
    (d.applyDeltas freed fuel msgs).map Dispatcher.feeds =
      ((d.feeds k).applyDeltas freed fuel msgs).map (Function.update d.feeds k) := by
  induction msgs generalizing d with
  | nil => exact congrArg some (Function.update_eq_self _ _).symm
  | cons m msgs ih =>
      have hm := hmsgs m List.mem_cons_self
      have hrest : ∀ m ∈ msgs, m.key = k := fun m hm => hmsgs m (List.mem_cons_of_mem _ hm)
      have hfirst := @feeds_applyDelta freed fuel d m
      rw [hm] at hfirst
      unfold Dispatcher.applyDeltas MarketDataHandler.applyDeltas Feed.applyDeltas
      rw [List.foldlM_cons, List.foldlM_cons]
      cases hstep : d.toMarketDataHandler.applyDelta freed fuel m with
      | none =>
          rw [hstep, Option.map_none] at hfirst
          rw [Option.map_eq_none_iff.mp hfirst.symm]
          rfl
      | some h =>
          rw [hstep, Option.map_some] at hfirst
          obtain ⟨f, hf, hfeeds⟩ := Option.map_eq_some_iff.mp hfirst.symm
          have hown := ih (d := { d with toMarketDataHandler := h }) hrest
          rw [← hfeeds, Function.update_self, update_update] at hown
          rw [hf]
          exact hown

/-- A call changes the feed of its key as it changes a feed alone. -/
theorem feeds_call (hd : d.Placed) (hc : c.Placed) :
    (d.call conv freed fuel c).map Dispatcher.feeds =
      ((d.feeds c.key).call conv freed fuel c).map (Function.update d.feeds c.key) := by
  cases c with
  | getOrCreateBook k => exact congrArg some feeds_getOrCreateBook
  | registerAdapter a sym =>
      have hbook := feeds_getOrCreateBook (d := d) (k := ⟨a.exchangeId, sym⟩)
      have hadapter := feeds_adapter (d := d.getOrCreateBook ⟨a.exchangeId, sym⟩)
        (k := ⟨a.exchangeId, sym⟩) a
      rw [hbook, Function.update_self, update_update] at hadapter
      exact congrArg some hadapter
  | feed k data =>
      unfold Dispatcher.call Feed.call Dispatcher.feed
      have hadapter : (d.feeds k).adapter = d.adapters k := rfl
      simp only [Call.key, hadapter]
      cases ha : d.adapters k with
      | none => exact congrArg some (Function.update_eq_self _ _).symm
      | some a =>
          cases hread : a.onMessage conv data with
          | none => simp only [hread, Option.bind_none, Option.map_none]
          | some r =>
              obtain ⟨a', msgs⟩ := r
              obtain ⟨-, hmsgs⟩ := onMessage_key hread
              rw [hd k a ha] at hmsgs
              have happly := @feeds_applyDeltas freed fuel
                { d with adapters := Function.update d.adapters k (some a') } _ _ hmsgs
              rw [feeds_adapter, Function.update_self, update_update] at happly
              simp only [hread, Option.bind_some]
              exact happly
  | applyDelta msg =>
      exact feeds_applyDeltas fun m hm => by rw [List.mem_singleton.mp hm]; rfl
  | snapshotOrder k side price qty =>
      unfold Dispatcher.call Feed.call Dispatcher.snapshotOrder
      have hbook : (d.feeds k).book = d.books k := rfl
      simp only [Call.key, hbook, Option.map_map]
      congr 1
      funext r
      exact feeds_setBook r.1
  | clearBook k => exact congrArg some (feeds_setBook _)

/-- Deltas leave a feed's adapter. -/
theorem placed_applyDeltas {f f' : Feed} (h : f.applyDeltas freed fuel msgs = some f') :
    f'.adapter = f.adapter := by
  induction msgs generalizing f with
  | nil =>
      cases h
      rfl
  | cons m msgs ih =>
      obtain ⟨mid, hmid, hrest⟩ := Option.bind_eq_some_iff.mp h
      rw [ih hrest]
      unfold Feed.applyDelta at hmid
      split at hmid
      · cases hmid
        rfl
      · split at hmid
        · cases hmid
          rfl
        · obtain ⟨r, -, rfl⟩ := Option.map_eq_some_iff.mp hmid
          rfl

/-- Adapters stay under their keys. -/
theorem placed_call {f f' : Feed} (hf : f.Placed c.key) (hc : c.Placed)
    (h : f.call conv freed fuel c = some f') : f'.Placed c.key := by
  cases c with
  | getOrCreateBook k =>
      cases h
      exact hf
  | registerAdapter a sym =>
      cases h
      rintro a' ⟨⟩
      exact congrArg (ExchangeSymbolKey.mk a.exchangeId) hc
  | feed k data =>
      unfold Feed.call at h
      dsimp only at h
      split at h
      · cases h
        exact hf
      · rename_i a ha
        obtain ⟨⟨a', msgs⟩, hread, happly⟩ := Option.bind_eq_some_iff.mp h
        intro a'' ha''
        rw [placed_applyDeltas happly] at ha''
        cases ha''
        exact (onMessage_key hread).1.trans (hf a ha)
  | applyDelta msg =>
      intro a ha
      rw [placed_applyDeltas h] at ha
      exact hf a ha
  | snapshotOrder k side price qty =>
      obtain ⟨r, -, rfl⟩ := Option.map_eq_some_iff.mp h
      exact hf
  | clearBook k =>
      cases h
      exact hf

/-! ### Runs -/

/-- A call acts on what is under its key. -/
def Feed.Step (conv : Conversion) (freed : TradeId → Price) (fuel : Nat) (f : Feed) (c : Call)
    (f' : Feed) : Prop := f.call conv freed fuel c = some f'

/-- A call on the dispatcher acts on one key. -/
theorem acts_call (hd : d.Placed) (hc : c.Placed) : d.call conv freed fuel c = some d' ↔
    Keyed.Acts (Feed.Step conv freed fuel) Call.key d.feeds c d'.feeds := by
  have hcall := @feeds_call conv freed fuel d _ hd hc
  constructor
  · intro h
    rw [h, Option.map_some] at hcall
    obtain ⟨f, hf, hfeeds⟩ := Option.map_eq_some_iff.mp hcall.symm
    exact ⟨f, hf, hfeeds.symm⟩
  · rintro ⟨f, hf, hfeeds⟩
    rw [hf, Option.map_some, ← hfeeds] at hcall
    obtain ⟨d₁, hd₁, hsame⟩ := Option.map_eq_some_iff.mp hcall
    rw [hd₁, feeds_inj hsame]

/-- A call leaves every feed in its place. -/
theorem acts_placed (hd : d.Placed) (hc : c.Placed)
    (h : Keyed.Acts (Feed.Step conv freed fuel) Call.key d.feeds c d'.feeds) : d'.Placed := by
  obtain ⟨f, hf, hfeeds⟩ := h
  intro k
  rw [hfeeds]
  by_cases hk : k = c.key
  · subst hk
    rw [Function.update_self]
    exact placed_call (hd _) hc hf
  · rw [Function.update_of_ne hk]
    exact hd k

/-- So a sequence of calls is a run of acts on keys. -/
theorem runs_calls {cs : List Call} (hd : d.Placed) (hcs : ∀ c ∈ cs, c.Placed) :
    d.calls conv freed fuel cs = some d' ↔
      Keyed.Runs (Keyed.Acts (Feed.Step conv freed fuel) Call.key) d.feeds cs d'.feeds := by
  induction cs generalizing d with
  | nil =>
      rw [Keyed.runs_nil]
      constructor
      · rintro ⟨⟩
        rfl
      · intro h
        rw [feeds_inj h]
        rfl
  | cons c cs ih =>
      have hc := hcs c List.mem_cons_self
      have hrest : ∀ c ∈ cs, c.Placed := fun c hc => hcs c (List.mem_cons_of_mem _ hc)
      rw [Dispatcher.calls, List.foldlM_cons, Keyed.runs_cons]
      constructor
      · intro h
        obtain ⟨mid, hmid, h⟩ := Option.bind_eq_some_iff.mp h
        have hacts := (acts_call hd hc).mp hmid
        exact ⟨mid.feeds, hacts, (ih (acts_placed hd hc hacts) hrest).mp h⟩
      · rintro ⟨fs, hacts, h⟩
        have hacts' : Keyed.Acts (Feed.Step conv freed fuel) Call.key d.feeds c
            (Dispatcher.ofFeeds fs).feeds := hacts
        apply Option.bind_eq_some_iff.mpr
        exact ⟨_, (acts_call hd hc).mpr hacts', (ih (acts_placed hd hc hacts') hrest).mpr h⟩

/-- A book and its adapter are what the calls for their own exchange and symbol make of them; the
calls for all others could as well be left out. -/
theorem book_of_own_calls (conv : Conversion) (freed : TradeId → Price) (d d' : Dispatcher)
    (cs : List Call) (k : ExchangeSymbolKey) (hd : d.Placed) (hcs : ∀ c ∈ cs, c.Placed)
    (h : Returns (fun fuel => d.calls conv freed fuel cs) d') :
    ∃ d'', Returns (fun fuel => d.calls conv freed fuel (cs.filter fun c => c.key = k)) d'' ∧
      d''.books k = d'.books k ∧ d''.adapters k = d'.adapters k ∧
      ∀ k', k' ≠ k → d''.books k' = d.books k' ∧ d''.adapters k' = d.adapters k' := by
  obtain ⟨fuel, h⟩ := h
  have hown := ((runs_calls hd hcs).mp h).own k
  have hplaced : ∀ c ∈ cs.filter fun c => c.key = k, c.Placed := fun c hc =>
    hcs c (List.mem_filter.mp hc).1
  have hfeeds := (@runs_calls conv freed fuel d
    (.ofFeeds (Function.update d.feeds k (d'.feeds k))) _ hd hplaced).mpr hown
  refine ⟨_, ⟨fuel, hfeeds⟩, ?_, ?_, fun k' hk => ⟨?_, ?_⟩⟩
  · simp [Dispatcher.ofFeeds, Dispatcher.feeds]
  · simp [Dispatcher.ofFeeds, Dispatcher.feeds]
  · simp [Dispatcher.ofFeeds, Dispatcher.feeds, hk]
  · simp [Dispatcher.ofFeeds, Dispatcher.feeds, hk]

/-- Orders and deltas for two books, one of them with an adapter. -/
def twoBooks : List Call :=
  [.registerAdapter (.binance (.replicate 24 66) 0) (.replicate 24 66),
    .snapshotOrder ⟨.binance, .replicate 24 66⟩ .buy 100 5,
    .getOrCreateBook ⟨.generic, .replicate 24 0⟩,
    .applyDelta { side := .sell, price := 90, qty := 2 },
    .clearBook ⟨.binance, .replicate 24 66⟩,
    .applyDelta { side := .buy, price := 95, qty := 1 }]

theorem twoBooks_placed : ∀ c ∈ twoBooks, c.Placed := by
  simp [twoBooks, Call.Placed, ExchangeAdapter.symbol]

theorem twoBooks_returns : ∃ d', Returns (fun fuel =>
    ({} : Dispatcher).calls ⟨fun _ => 0, fun _ => 0⟩ (fun _ => 0) fuel twoBooks) d' := by
  have hsome : (({} : Dispatcher).calls ⟨fun _ => 0, fun _ => 0⟩ (fun _ => 0) 3
      twoBooks).isSome = true := by decide +kernel
  obtain ⟨d', hd'⟩ := Option.isSome_iff_exists.mp hsome
  exact ⟨d', 3, hd'⟩

/-- In the empty dispatcher no feed is misplaced. -/
theorem empty_placed : ({} : Dispatcher).Placed := nofun

/-- The offer and the bid of one book, without the calls for the other. -/
theorem book_of_own_calls_twoBooks : ∃ d' d'',
    Returns (fun fuel => ({} : Dispatcher).calls ⟨fun _ => 0, fun _ => 0⟩ (fun _ => 0) fuel
      twoBooks) d' ∧
    Returns (fun fuel => ({} : Dispatcher).calls ⟨fun _ => 0, fun _ => 0⟩ (fun _ => 0) fuel
      (twoBooks.filter fun c => c.key = ⟨.generic, .replicate 24 0⟩)) d'' ∧
    d''.books ⟨.generic, .replicate 24 0⟩ = d'.books ⟨.generic, .replicate 24 0⟩ := by
  obtain ⟨d', hd'⟩ := twoBooks_returns
  obtain ⟨d'', hret, hbook, -⟩ := book_of_own_calls ⟨fun _ => 0, fun _ => 0⟩ (fun _ => 0) {} d'
    twoBooks ⟨.generic, .replicate 24 0⟩ empty_placed twoBooks_placed hd'
  exact ⟨d', d'', hd', hret, hbook⟩

/-- Calls for different exchanges and symbols may be interleaved in any way. -/
theorem interleaved_calls (conv : Conversion) (freed : TradeId → Price) (d d' : Dispatcher)
    (cs cs' : List Call) (hd : d.Placed) (hcs : ∀ c ∈ cs, c.Placed) (hcs' : ∀ c ∈ cs', c.Placed)
    (hsame : ∀ k, (cs.filter fun c => c.key = k) = cs'.filter fun c => c.key = k)
    (h : Returns (fun fuel => d.calls conv freed fuel cs) d') :
    Returns (fun fuel => d.calls conv freed fuel cs') d' := by
  obtain ⟨fuel, h⟩ := h
  have hruns := ((runs_calls hd hcs).mp h).interleave hsame
  exact ⟨fuel, (runs_calls hd hcs').mpr hruns⟩

/-- `twoBooks` with all calls for one book before those for the other. -/
def twoBooksApart : List Call :=
  (twoBooks.filter fun c => c.key = ⟨.binance, .replicate 24 66⟩) ++
    twoBooks.filter fun c => c.key = ⟨.generic, .replicate 24 0⟩

theorem interleaved_calls_twoBooks : ∃ d',
    Returns (fun fuel => ({} : Dispatcher).calls ⟨fun _ => 0, fun _ => 0⟩ (fun _ => 0) fuel
      twoBooks) d' ∧
    Returns (fun fuel => ({} : Dispatcher).calls ⟨fun _ => 0, fun _ => 0⟩ (fun _ => 0) fuel
      twoBooksApart) d' := by
  obtain ⟨d', hd'⟩ := twoBooks_returns
  refine ⟨d', hd', interleaved_calls ⟨fun _ => 0, fun _ => 0⟩ (fun _ => 0) {} d' twoBooks
    twoBooksApart empty_placed twoBooks_placed ?_ (fun k => ?_) hd'⟩
  · intro c hc
    obtain hc | hc := List.mem_append.mp hc
    · exact twoBooks_placed c (List.mem_filter.mp hc).1
    · exact twoBooks_placed c (List.mem_filter.mp hc).1
  · have hkeys : ∀ c ∈ twoBooks, c.key = ⟨.binance, .replicate 24 66⟩ ∨
        c.key = ⟨.generic, .replicate 24 0⟩ := by decide +kernel
    exact (Keyed.own_two hkeys (by decide) k).symm

/-! ### Many exchanges -/

/-- A delta leaves the books of other keys. -/
theorem applyDelta_other (h h' : MarketDataHandler) (m : MarketDataMsg) (k : ExchangeSymbolKey)
    (hk : k ≠ m.key) (hret : Returns (fun fuel => h.applyDelta freed fuel m) h') :
    h'.books k = h.books k := by
  obtain ⟨fuel, happly⟩ := hret
  unfold MarketDataHandler.applyDelta at happly
  split at happly
  · cases happly
    rfl
  · split at happly
    · cases happly
      rfl
    · obtain ⟨r, -, rfl⟩ := Option.map_eq_some_iff.mp happly
      exact Function.update_of_ne hk _ _

/-- One handler mirrors any number of exchanges, whatever the order their deltas come in, as long as
the deltas of each fit. -/
theorem every_book_mirrors (freed : TradeId → Price) (h : MarketDataHandler)
    (msgs : List MarketDataMsg) (hb : ∀ m ∈ msgs, h.books m.key = some {})
    (hfeed : ∀ k, ExchangeFeed k (msgs.filter fun m => m.key = k))
    (hfits : ∀ k sent m rest, (msgs.filter fun m => m.key = k) = sent ++ m :: rest → Fits sent m) :
    ∃ h', Returns (fun fuel => h.applyDeltas freed fuel msgs) h' ∧
      ∀ k, h.books k = some {} → ∃ b, h'.books k = some b ∧
        Mirrors b (msgs.filter fun m => m.key = k) := by
  have hstep : ∃ h', Returns (fun fuel => h.applyDeltas freed fuel msgs) h' ∧
      ∀ k, h.books k = some {} → ∃ b A, h'.books k = some b ∧
        InStep (msgs.filter fun m => m.key = k) b A := by
    induction msgs using List.reverseRecOn with
    | nil => exact ⟨h, ⟨0, rfl⟩, fun k hk => ⟨{}, _, hk, .init⟩⟩
    | append_singleton msgs m ih =>
        have hown : ∀ k, ((msgs ++ [m]).filter fun m => m.key = k) =
            (msgs.filter fun m => m.key = k) ++ if m.key = k then [m] else [] := by
          intro k
          rw [List.filter_append, List.filter_singleton]
          simp
        obtain ⟨h₁, hret, hinv⟩ := ih (fun m hm => hb m (List.mem_append_left _ hm))
          (fun k => ExchangeFeed.of_prefix (hfeed k) ((List.prefix_append _ _).filter _))
          (fun k sent m' rest heq => hfits k sent m' (rest ++ if m.key = k then [m] else []) (by
            rw [hown, heq, List.append_assoc]
            rfl))
        obtain ⟨b, A, hbook, hin⟩ := hinv m.key (hb m (by simp))
        have hlast : ((msgs ++ [m]).filter fun m' => m'.key = m.key) =
            (msgs.filter fun m' => m'.key = m.key) ++ [m] := by rw [hown, if_pos rfl]
        obtain ⟨h₂, b', A', hret', hbook', hin'⟩ := hin.next freed (hlast ▸ hfeed m.key)
          (hfits m.key _ m [] hlast) hbook
        refine ⟨h₂, returns_snoc hret hret', fun k hk => ?_⟩
        by_cases hkey : k = m.key
        · subst hkey
          exact ⟨b', A', hbook', hlast.symm ▸ hin'⟩
        · obtain ⟨b'', A'', hbook'', hin''⟩ := hinv k hk
          refine ⟨b'', A'', ?_, ?_⟩
          · rw [applyDelta_other h₁ h₂ m k hkey hret', hbook'']
          · rw [hown, if_neg (Ne.symm hkey), List.append_nil]
            exact hin''
  obtain ⟨h', hret, hinv⟩ := hstep
  refine ⟨h', hret, fun k hk => ?_⟩
  obtain ⟨b, A, hbook, hin⟩ := hinv k hk
  exact ⟨b, hbook, hin.mirrors⟩

/-- Every delta of a feed is for a level of its own, the bids below the offers. -/
theorem ExchangeFeed.of_levels (hkey : ∀ m ∈ msgs, m.key = k) (hprice : ∀ m ∈ msgs, 0 < m.price)
    (hqty : ∀ m ∈ msgs, 0 ≤ m.qty) (hapart : ∀ m ∈ msgs, ∀ m' ∈ msgs, m.side = .buy →
      m'.side = .sell → m.price < m'.price) : ExchangeFeed k msgs := by
  refine ⟨hkey, hprice, hqty, fun sent hsent p p' hp hp' => ?_⟩
  obtain ⟨m, hm, hside, rfl⟩ := lastQty_ne_zero hp
  obtain ⟨m', hm', hside', rfl⟩ := lastQty_ne_zero hp'
  exact hapart m (hsent.subset hm) m' (hsent.subset hm') hside hside'

/-- Deltas for levels all different fit while the pool has room. -/
theorem Fits.of_levels {sent rest : List MarketDataMsg} {m : MarketDataMsg}
    (hpair : (sent ++ m :: rest).Pairwise fun m m' => ¬ (m.side = m'.side ∧ m.price = m'.price))
    (hlen : sent.length < maxOrders) : Fits sent m := by
  have hzero : lastQty sent m.side m.price = 0 := by
    by_contra hne
    obtain ⟨m', hm', hlevel⟩ := lastQty_ne_zero hne
    exact (List.pairwise_append.mp hpair).2.2 m' hm' m List.mem_cons_self hlevel
  unfold Fits
  rw [if_pos hzero]
  exact .inr ((List.length_filter_le _ _).trans_lt hlen)

/-- A bid and an offer of one exchange, with a bid of another between them. -/
def threeDeltas : List MarketDataMsg :=
  [{ side := .buy, price := 100, qty := 5 },
    { side := .buy, price := 102, qty := 4, exchange := .zerodha },
    { side := .sell, price := 101, qty := 3 }]

def twoExchanges : MarketDataHandler :=
  (MarketDataHandler.getOrCreateBook {} ⟨.generic, .replicate 24 0⟩).getOrCreateBook
    ⟨.zerodha, .replicate 24 0⟩

theorem every_book_mirrors_threeDeltas : ∃ h',
    Returns (fun fuel => twoExchanges.applyDeltas (fun _ => 0) fuel threeDeltas) h' ∧
    ∀ k, twoExchanges.books k = some {} → ∃ b, h'.books k = some b ∧
      Mirrors b (threeDeltas.filter fun m => m.key = k) := by
  refine every_book_mirrors (fun _ => 0) twoExchanges threeDeltas ?_ (fun k => ?_) ?_
  · intro m hm
    simp only [threeDeltas, List.mem_cons, List.not_mem_nil, or_false] at hm
    obtain rfl | rfl | rfl := hm <;> rfl
  · have hsub : ∀ m ∈ threeDeltas.filter fun m => m.key = k, m ∈ threeDeltas ∧ m.key = k := by
      intro m hm
      simpa using hm
    have hapart : ∀ m ∈ threeDeltas, ∀ m' ∈ threeDeltas, m.key = m'.key → m.side = .buy →
        m'.side = .sell → m.price < m'.price := by decide
    have hprice : ∀ m ∈ threeDeltas, 0 < m.price := by decide
    have hqty : ∀ m ∈ threeDeltas, 0 ≤ m.qty := by decide
    refine .of_levels (fun m hm => (hsub m hm).2) (fun m hm => hprice m (hsub m hm).1)
      (fun m hm => hqty m (hsub m hm).1) fun m hm m' hm' => ?_
    exact hapart m (hsub m hm).1 m' (hsub m' hm').1 ((hsub m hm).2.trans (hsub m' hm').2.symm)
  · intro k sent m rest heq
    have hpair : threeDeltas.Pairwise fun m m' => ¬ (m.side = m'.side ∧ m.price = m'.price) := by
      decide
    have hlen : (threeDeltas.filter fun m => m.key = k).length ≤ 3 := List.length_filter_le _ _
    rw [heq, List.length_append, List.length_cons] at hlen
    refine .of_levels (heq ▸ hpair.filter _) ?_
    have hroom : 3 < maxOrders := by decide
    omega

end NanoVault.MarketData
