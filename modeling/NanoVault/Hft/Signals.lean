/-
The way of a signal from a packet to the web sockets (`process_packet` and `run_strategy_parser` in
`UDPReceiver.hpp`, `init_web_sockets` in `web_socks_og.hpp`).

Three threads and two queues: `run_packet_parser` pushes what every strategy has returned to
`webSocketsPacketParser`, as often as it takes; `run_strategy_parser` pops it and pushes the valid
ones to `web_socket_queue`, once; `init_web_sockets` pops these and broadcasts a text for each.
Every load and store of the two queues is a step, in any order. Between two packets statements may
change the tables.

No signal is broadcast twice or before an earlier one, and the only place where one is lost is a
push that finds `web_socket_queue` full (`signals_accounted`). As long as there is room all valid
signals are broadcast, and a subscriber reads off the texts whose they are (`signals_delivered`).
-/
import NanoVault.Hft.SingleProducer

namespace NanoVault.Hft

open Lib Lib.Ring NanoVault.Table

/-- The four steps of `push`, or of `pop`. -/
inductive HalfStep where
  | call
  | look
  | access
  | store
deriving DecidableEq, Repr

def HalfStep.push {α : Type} (item : α) : HalfStep → PipeStep α
  | .call => .push item
  | .look => .loadTail
  | .access => .write
  | .store => .publish

def HalfStep.pop {α : Type} : HalfStep → PipeStep α
  | .call => .pop
  | .look => .loadHead
  | .access => .read
  | .store => .advance

structure WebSocketPacket where
  valid : Bool
  symbol : Int64
  strategyIndex : Nat
deriving DecidableEq, Repr

/-- What `run_strategy_parser` makes of a signal. -/
def Signal.packet (signal : Signal) : WebSocketPacket where
  valid := signal.valid
  symbol := signal.tick
  strategyIndex := signal.strategyIndex

/-- `setw(4)` and `setfill('0')`. -/
def padded (digits : Text) : Text := List.replicate (4 - digits.length) '0' ++ digits

/-- The text that is broadcast for a packet. -/
def WebSocketPacket.message (p : WebSocketPacket) : Text :=
  padded (toText p.symbol) ++ padded (digits p.strategyIndex) ++ "True".toList

/-- The capacity of both queues. -/
def signalCapacity : Capacity := ⟨1024, by decide, by decide⟩

/-- The three threads and what is between them. `todo` are the signals of the latest packet that
`run_packet_parser` has not pushed yet, `forward` the one `run_strategy_parser` is about to push.
`emitted` records what the strategies have returned, `forwarded` the pushes to `web_socket_queue`
and what they have returned. -/
structure Pipeline where
  slots : SymbolAccessArray
  todo : List Signal := []
  signals : Pipe Signal
  forward : Option Signal := none
  sockets : Pipe WebSocketPacket
  emitted : List Signal := []
  forwarded : List (Signal × Bool) := []

inductive PipelineStep where
  /-- `run_packet_parser` processes a packet, up to the pushes. -/
  | packet (p : Packet)
  /-- A statement changes the tables. -/
  | change (slots : SymbolAccessArray)
  /-- `run_packet_parser` pushes. -/
  | emit (i : HalfStep)
  /-- `run_strategy_parser` pops. -/
  | receive (i : HalfStep)
  /-- `run_strategy_parser` pushes. -/
  | forward (i : HalfStep)
  /-- `init_web_sockets` pops. -/
  | poll (i : HalfStep)

namespace Pipeline

/-- The texts that have been broadcast. -/
def broadcast (s : Pipeline) : List Text := s.sockets.popped.map WebSocketPacket.message

/-- What `run_strategy_parser` goes on with when its `pop` returns. -/
def valid (signals : Pipe Signal) : Option Signal :=
  match signals.pop with
  | .storing _ signal => if signal.valid then some signal else none
  | _ => none

/-- The packet `run_packet_parser` pushes is tried again until there is room; that of
`run_strategy_parser` is not. -/
def next (s : Pipeline) : PipelineStep → Option Pipeline
  | .packet p =>
      match s.todo, processPacket s.slots p with
      | [], .ok (slots, signals) =>
          some { s with slots := slots, todo := signals, emitted := s.emitted ++ signals }
      | _, _ => none
  | .change slots => if s.todo = [] then some { s with slots := slots } else none
  | .emit i =>
      match s.todo with
      | [] => none
      | signal :: rest =>
          (pipeNext signalCapacity s.signals (i.push signal)).map fun signals =>
            { s with signals := signals, todo := if i = .store then rest else s.todo }
  | .receive i =>
      match s.forward with
      | some _ => none
      | none =>
          (pipeNext signalCapacity s.signals i.pop).map fun signals =>
            { s with
              signals := signals
              forward := if i = .store then valid s.signals else none }
  | .forward i =>
      match s.forward with
      | none => none
      | some signal =>
          (pipeNext signalCapacity s.sockets (i.push signal.packet)).map fun sockets =>
            match i, sockets.push with
            | .store, _ =>
                { s with
                  sockets := sockets
                  forward := none
                  forwarded := s.forwarded ++ [(signal, true)] }
            | .look, .idle =>
                { s with
                  sockets := sockets
                  forward := none
                  forwarded := s.forwarded ++ [(signal, false)] }
            | _, _ => { s with sockets := sockets }
  | .poll i =>
      (pipeNext signalCapacity s.sockets i.pop).map fun sockets => { s with sockets := sockets }

end Pipeline

/-- Where the threads start; the slots of the queues hold anything. -/
def pipelineStart (slots : SymbolAccessArray) (first : Nat → Signal)
    (second : Nat → WebSocketPacket) : Pipeline where
  slots := slots
  signals := { queue := { buffer := first } }
  sockets := { queue := { buffer := second } }

def pipeline (slots : SymbolAccessArray) (first : Nat → Signal) (second : Nat → WebSocketPacket) :
    Machine Pipeline PipelineStep :=
  .ofFun (pipelineStart slots first second) Pipeline.next

/-- There is room in `web_socket_queue` when a push looks, and the numbers of the strategies that
are called have four digits. -/
def KeepsUp (s : Pipeline) : PipelineStep → Prop
  | .forward .look => s.sockets.unread.length < signalCapacity.size - 1
  | .packet _ => ∀ i, (s.slots i).strategys.index ≤ 10000
  | _ => True

/-- What a subscriber reads off a text: the symbol and the strategy. -/
def subscriber (text : Text) : Nat × Nat :=
  (Nat.ofDigitChars 10 (text.take 4) 0, Nat.ofDigitChars 10 ((text.drop 4).take 4) 0)

/-! ### The halves of a queue -/

/-- The item of a push that has not returned. -/
def PushPc.item {α : Type} : PushPc α → Option α
  | .idle => none
  | .loaded item _ | .writing item _ | .publishing item _ => some item

variable {α : Type} {c : Capacity} {q q' : Pipe α} {x : α} {i : HalfStep}

/-- A push goes on, returns false, or returns true. -/
theorem push_cases (h : pipeNext c q (i.push x) = some q') :
    q'.popped = q.popped ∧ q'.pop = q.pop ∧
      (i ≠ .store ∧ q'.pushed = q.pushed ∧ (i = .look → q'.push ≠ .idle) ∧
          (q'.push.item = q.push.item ∨ q'.push.item = some x) ∨
        i = .look ∧ q'.pushed = q.pushed ∧ q'.push = .idle ∧ (∃ item h, q.push = .loaded item h ∧
          c.full h q.queue.tail = true) ∨
        i = .store ∧ q'.push = .idle ∧ ∃ item, q.push.item = some item ∧
          q'.pushed = q.pushed ++ [item]) := by
  cases i with
  | call =>
      simp only [HalfStep.push, pipeNext] at h
      split at h <;> cases h
      exact ⟨rfl, rfl, .inl ⟨by simp, rfl, by simp, .inr rfl⟩⟩
  | look =>
      simp only [HalfStep.push, pipeNext] at h
      split at h <;> cases h
      rename_i item head hpush
      by_cases hfull : c.full head q.queue.tail = true
      · exact ⟨rfl, rfl, .inr (.inl ⟨rfl, rfl, if_pos hfull, item, head, hpush, hfull⟩)⟩
      · refine ⟨rfl, rfl, .inl ⟨by simp, rfl, fun _ => ?_, .inl ?_⟩⟩
        · dsimp only
          rw [if_neg hfull]
          simp
        · dsimp only
          rw [if_neg hfull, hpush]
          rfl
  | access =>
      simp only [HalfStep.push, pipeNext] at h
      split at h <;> cases h
      rename_i item head hpush
      refine ⟨rfl, rfl, .inl ⟨by simp, rfl, by simp, .inl ?_⟩⟩
      rw [hpush]
      rfl
  | store =>
      simp only [HalfStep.push, pipeNext] at h
      split at h <;> cases h
      rename_i item head hpush
      refine ⟨rfl, rfl, .inr (.inr ⟨rfl, rfl, item, ?_, rfl⟩)⟩
      rw [hpush]
      rfl

/-- A pop goes on, or returns true; where it returns false it has popped nothing. -/
theorem pop_cases (h : pipeNext c q i.pop = some q') :
    q'.pushed = q.pushed ∧ q'.push = q.push ∧
      (i ≠ .store ∧ q'.popped = q.popped ∨
        i = .store ∧ ∃ t item, q.pop = .storing t item ∧ q'.popped = q.popped ++ [item]) := by
  cases i with
  | call =>
      simp only [HalfStep.pop, pipeNext] at h
      split at h <;> cases h
      exact ⟨rfl, rfl, .inl ⟨by simp, rfl⟩⟩
  | look =>
      simp only [HalfStep.pop, pipeNext] at h
      split at h <;> cases h
      exact ⟨rfl, rfl, .inl ⟨by simp, rfl⟩⟩
  | access =>
      simp only [HalfStep.pop, pipeNext] at h
      split at h <;> cases h
      exact ⟨rfl, rfl, .inl ⟨by simp, rfl⟩⟩
  | store =>
      simp only [HalfStep.pop, pipeNext] at h
      split at h <;> cases h
      rename_i t item hpop
      exact ⟨rfl, rfl, .inr ⟨rfl, t, item, hpop, rfl⟩⟩

/-! ### The invariant -/

variable {s s' : Pipeline} {l : PipelineStep}

/-- Every signal is on its way, or it is known what has become of it. -/
structure OnTheWay (s : Pipeline) : Prop where
  signals : InStep signalCapacity 0 s.signals
  sockets : InStep signalCapacity 0 s.sockets
  emitted : s.signals.pushed ++ s.todo = s.emitted
  received : s.signals.popped.filter Signal.valid =
    s.forwarded.map Prod.fst ++ s.forward.toList
  pushed : s.sockets.pushed = (s.forwarded.filter Prod.snd).map fun f => f.1.packet
  emitting : ∀ x, s.signals.push.item = some x → s.todo.head? = some x
  forwarding : ∀ x, s.sockets.push.item = some x → s.forward.map Signal.packet = some x

/-- At the start nothing is on the way. -/
theorem OnTheWay.start (slots : SymbolAccessArray) (first : Nat → Signal)
    (second : Nat → WebSocketPacket) : OnTheWay (pipelineStart slots first second) where
  signals := .init signalCapacity 0 first
  sockets := .init signalCapacity 0 second
  emitted := rfl
  received := rfl
  pushed := rfl
  emitting := nofun
  forwarding := nofun

/-- The signals a packet makes wait to be sent. -/
theorem OnTheWay.packet {p : Packet} (h : OnTheWay s) (hstep : s.next (.packet p) = some s') :
    OnTheWay s' := by
  simp only [Pipeline.next] at hstep
  split at hstep
  · rename_i slots signals htodo hprocess
    cases hstep
    refine { h with emitted := ?_, emitting := ?_ }
    · have hemitted := h.emitted
      rw [htodo, List.append_nil] at hemitted
      dsimp only
      rw [hemitted]
    · intro x hx
      have hhead := h.emitting x hx
      rw [htodo] at hhead
      cases hhead
  · cases hstep

/-- A signal that is sent is in the first queue or refused. -/
theorem OnTheWay.emit (h : OnTheWay s) (hstep : s.next (.emit i) = some s') : OnTheWay s' := by
  simp only [Pipeline.next] at hstep
  split at hstep
  · cases hstep
  · rename_i signal rest htodo
    obtain ⟨signals, hpipe, rfl⟩ := Option.map_eq_some_iff.mp hstep
    have hemitted := h.emitted
    have hemitting := h.emitting
    rw [htodo] at hemitted hemitting
    have hin := h.signals.next hpipe
    obtain ⟨hpopped, -, hcases⟩ := push_cases hpipe
    rcases hcases with ⟨hi, hpushed, -, hitem⟩ | ⟨rfl, hpushed, hpush, -⟩ |
      ⟨rfl, hpush, item, hitem, hpushed⟩
    · refine { h with signals := hin, emitted := ?_, received := ?_, emitting := ?_ }
      · rw [hpushed, if_neg hi, htodo]
        exact hemitted
      · rw [hpopped]
        exact h.received
      · intro x hx
        dsimp only at hx ⊢
        rw [if_neg hi, htodo]
        rcases hitem with hitem | hitem
        · exact hemitting x (hitem ▸ hx)
        · exact hitem.symm.trans hx
    · refine { h with signals := hin, emitted := ?_, received := ?_, emitting := ?_ }
      · rw [hpushed, if_neg nofun, htodo]
        exact hemitted
      · rw [hpopped]
        exact h.received
      · intro x hx
        dsimp only at hx
        rw [hpush] at hx
        cases hx
    · refine { h with signals := hin, emitted := ?_, received := ?_, emitting := ?_ }
      · obtain rfl := Option.some.inj (hemitting item hitem)
        rw [hpushed, if_pos rfl, List.append_assoc]
        exact hemitted
      · rw [hpopped]
        exact h.received
      · intro x hx
        dsimp only at hx
        rw [hpush] at hx
        cases hx

/-- A signal that is received is forwarded next, if it is valid. -/
theorem OnTheWay.receive (h : OnTheWay s) (hstep : s.next (.receive i) = some s') :
    OnTheWay s' := by
  simp only [Pipeline.next] at hstep
  split at hstep
  · cases hstep
  · rename_i hnone
    obtain ⟨signals, hpipe, rfl⟩ := Option.map_eq_some_iff.mp hstep
    have hin := h.signals.next hpipe
    have hreceived := h.received
    rw [hnone, Option.toList_none, List.append_nil] at hreceived
    have hquiet : ∀ x, s.sockets.push.item = some x → False := by
      intro x hx
      have hforward := h.forwarding x hx
      rw [hnone] at hforward
      cases hforward
    obtain ⟨hpushed, hpush, hcases⟩ := pop_cases hpipe
    refine { h with
      signals := hin, emitted := ?_, received := ?_, emitting := ?_, forwarding := ?_ }
    · rw [hpushed]
      exact h.emitted
    · rcases hcases with ⟨hi, hpopped⟩ | ⟨rfl, t, item, hpop, hpopped⟩
      · rw [hpopped, if_neg hi, Option.toList_none, List.append_nil]
        exact hreceived
      · rw [hpopped, if_pos rfl, List.filter_append, hreceived, Pipeline.valid, hpop]
        dsimp only
        cases hvalid : item.valid
        · simp [hvalid]
        · simp [hvalid]
    · rw [hpush]
      exact h.emitting
    · exact fun x hx => (hquiet x hx).elim

/-- A signal that is forwarded is in the second queue or refused. -/
theorem OnTheWay.forward (h : OnTheWay s) (hstep : s.next (.forward i) = some s') :
    OnTheWay s' := by
  simp only [Pipeline.next] at hstep
  split at hstep
  · cases hstep
  · rename_i signal hsome
    obtain ⟨sockets, hpipe, hstate⟩ := Option.map_eq_some_iff.mp hstep
    have hin := h.sockets.next hpipe
    have hreceived := h.received
    have hforwarding := h.forwarding
    rw [hsome] at hreceived hforwarding
    obtain ⟨hpopped, -, hcases⟩ := push_cases hpipe
    rcases hcases with ⟨hi, hpushed, hlook, hitem⟩ | ⟨rfl, hpushed, hpush, -⟩ |
      ⟨rfl, hpush, item, hitem, hpushed⟩
    · have hsame : s' = { s with sockets := sockets } := by
        rw [← hstate]
        split
        · exact absurd rfl hi
        · rename_i hidle
          exact absurd hidle (hlook rfl)
        · rfl
      subst hsame
      refine { h with sockets := hin, pushed := ?_, forwarding := ?_ }
      · rw [hpushed]
        exact h.pushed
      · intro x hx
        dsimp only at hx ⊢
        rw [hsome]
        rcases hitem with hitem | hitem
        · exact hforwarding x (hitem ▸ hx)
        · exact hitem.symm.trans hx
    · rw [hpush] at hstate
      subst hstate
      refine { h with sockets := hin, received := ?_, pushed := ?_, forwarding := ?_ }
      · rw [hreceived]
        simp
      · rw [hpushed, h.pushed]
        simp
      · intro x hx
        dsimp only at hx
        rw [hpush] at hx
        cases hx
    · subst hstate
      refine { h with sockets := hin, received := ?_, pushed := ?_, forwarding := ?_ }
      · rw [hreceived]
        simp
      · obtain rfl : signal.packet = item := Option.some.inj (hforwarding item hitem)
        rw [hpushed, h.pushed]
        simp
      · intro x hx
        dsimp only at hx
        rw [hpush] at hx
        cases hx

/-- A message that is polled is broadcast. -/
theorem OnTheWay.poll (h : OnTheWay s) (hstep : s.next (.poll i) = some s') : OnTheWay s' := by
  obtain ⟨sockets, hpipe, rfl⟩ := Option.map_eq_some_iff.mp hstep
  have hin := h.sockets.next hpipe
  obtain ⟨hpushed, hpush, -⟩ := pop_cases hpipe
  refine { h with sockets := hin, pushed := ?_, forwarding := ?_ }
  · rw [hpushed]
    exact h.pushed
  · rw [hpush]
    exact h.forwarding

/-- Every step keeps account of the signals. -/
theorem OnTheWay.next (h : OnTheWay s) (hstep : s.next l = some s') : OnTheWay s' := by
  cases l with
  | packet p => exact h.packet hstep
  | change slots =>
      simp only [Pipeline.next] at hstep
      split at hstep <;> cases hstep
      exact { h with }
  | emit i => exact h.emit hstep
  | receive i => exact h.receive hstep
  | forward i => exact h.forward hstep
  | poll i => exact h.poll hstep

/-- A push that returns false has found the queue full. -/
theorem OnTheWay.refused (h : OnTheWay s) {signal : Signal}
    (hstep : s.next (.forward i) = some s')
    (hfalse : s'.forwarded = s.forwarded ++ [(signal, false)]) :
    i = .look ∧ s.sockets.unread.length = signalCapacity.size - 1 := by
  simp only [Pipeline.next] at hstep
  split at hstep
  · cases hstep
  · obtain ⟨sockets, hpipe, rfl⟩ := Option.map_eq_some_iff.mp hstep
    obtain ⟨-, -, hcases⟩ := push_cases hpipe
    rcases hcases with ⟨hi, -, hlook, -⟩ | ⟨rfl, -, -, item, head, hpush, hfull⟩ | ⟨rfl, -, -⟩
    · split at hfalse
      · exact absurd rfl hi
      · rename_i hidle
        exact absurd hidle (hlook rfl)
      · have hlength := congrArg List.length hfalse
        simp at hlength
    · exact ⟨rfl, (h.sockets.full_iff hpush).mp hfull⟩
    · have hlast := List.append_cancel_left hfalse
      simp at hlast

theorem InStep.popped_append_unread {start : UInt64} (hq : InStep c start q) :
    q.popped ++ q.unread = q.pushed :=
  (List.prefix_iff_eq_append.mp hq.boundedFifo.order)

/-- Each valid signal is broadcast, on the way or refused. -/
theorem OnTheWay.accounted (h : OnTheWay s) :
    s.forwarded.map Prod.fst ++ s.forward.toList ++
        (s.signals.unread ++ s.todo).filter Signal.valid = s.emitted.filter Signal.valid ∧
      s.broadcast ++ s.sockets.unread.map WebSocketPacket.message =
        (s.forwarded.filter Prod.snd).map (fun f => f.1.packet.message) := by
  constructor
  · rw [← h.received, ← List.filter_append, ← List.append_assoc,
      h.signals.popped_append_unread, h.emitted]
  · rw [Pipeline.broadcast, ← List.map_append, h.sockets.popped_append_unread, h.pushed,
      List.map_map]
    rfl

/-! ### What a subscriber reads -/

/-- Zeros in front do not change a number. -/
theorem ofDigitChars_padded (digits : Text) :
    Nat.ofDigitChars 10 (padded digits) 0 = Nat.ofDigitChars 10 digits 0 := by
  rw [padded, Nat.ofDigitChars_append, Nat.ofDigitChars_replicate_zero, Nat.mul_zero]

theorem length_padded {n : Nat} (h : n < 10000) : (padded (digits n)).length = 4 := by
  have hlength : (digits n).length ≤ 4 := (Nat.length_toDigits_le_iff (by decide) (by decide)).mpr h
  rw [padded, List.length_append, List.length_replicate]
  omega

/-- The symbol and the strategy have four digits. -/
structure Signal.Small (signal : Signal) : Prop where
  nonneg : 0 ≤ signal.tick.toInt
  tick : signal.tick.toInt.toNat < 10000
  strategyIndex : signal.strategyIndex < 10000

/-- A subscriber reads table and strategy off the message. -/
theorem subscriber_message {signal : Signal} (h : signal.Small) :
    subscriber signal.packet.message = (signal.tick.toInt.toNat, signal.strategyIndex) := by
  have htext : toText signal.tick = digits signal.tick.toInt.toNat := by
    refine if_neg fun hneg => ?_
    have hlt := Int64.lt_iff_toInt_lt.mp hneg
    have hnonneg := h.nonneg
    rw [Int64.toInt_zero] at hlt
    omega
  have hsymbol := length_padded h.tick
  have hindex := length_padded h.strategyIndex
  have hmessage : signal.packet.message = padded (digits signal.tick.toInt.toNat) ++
      (padded (digits signal.strategyIndex) ++ "True".toList) := by
    rw [WebSocketPacket.message, Signal.packet, htext, List.append_assoc]
  rw [subscriber, hmessage, List.take_left' hsymbol, List.drop_left' hsymbol,
    List.take_left' hindex, ofDigitChars_padded, ofDigitChars_padded]
  exact Prod.ext Nat.ofDigitChars_ten_toDigits Nat.ofDigitChars_ten_toDigits

/-! ### What the strategies return -/

/-- Every strategy returns one signal, in the order of their numbers. -/
theorem callStrategys_signals {tick : Int64} {first : Option SMA} {l : List Nat}
    {r : Registrations Strategy} {r' : Registrations Strategy × List Signal}
    (h : callStrategys tick first l r = .ok r') :
    r'.2.map Signal.strategyIndex = l ∧ ∀ signal ∈ r'.2, signal.tick = tick := by
  induction l generalizing r r' with
  | nil =>
      cases h
      exact ⟨rfl, nofun⟩
  | cons i l ih =>
      rw [callStrategys] at h
      split at h
      · cases h
      · rename_i strategy hentry
        simp only [bind, Except.bind] at h
        split at h
        · cases h
        · rename_i called hcalled
          split at h
          · cases h
          · rename_i rest hrest
            cases h
            obtain ⟨hindices, hticks⟩ := ih hrest
            refine ⟨?_, ?_⟩
            · rw [List.map_cons, hindices]
            · intro signal hsignal
              rcases List.mem_cons.mp hsignal with rfl | hsignal
              · rfl
              · exact hticks signal hsignal

/-- The signals of a packet have a strategy's place for their number. -/
theorem processPacket_small {p : Packet} {slots : SymbolAccessArray}
    {r : SymbolAccessArray × List Signal} (hindex : ∀ i, (slots i).strategys.index ≤ 10000)
    (h : processPacket slots p = .ok r) : ∀ signal ∈ r.2, signal.Small := by
  rw [processPacket] at h
  split at h
  · cases h
    simp
  · rename_i i hplace
    dsimp only at h
    split at h
    · cases h
      simp
    · simp only [bind, Except.bind] at h
      split at h
      · cases h
      · split at h
        · cases h
        · rename_i strategys hstrategys
          cases h
          obtain ⟨hindices, hticks⟩ := callStrategys_signals hstrategys
          obtain ⟨hi, hlt⟩ := place_eq_some.mp hplace
          intro signal hsignal
          have hmem := List.mem_map_of_mem (f := Signal.strategyIndex) hsignal
          rw [hindices, List.mem_range] at hmem
          have hslot := hindex i
          unfold maxHftSymbol at hlt
          rw [← hticks signal hsignal] at hi
          exact ⟨by omega, by omega, lt_of_lt_of_le hmem hslot⟩

/-- What a step adds to the records. -/
theorem Pipeline.records (hstep : s.next l = some s') :
    (s'.forwarded = s.forwarded ∨ ∃ i f, l = .forward i ∧ s'.forwarded = s.forwarded ++ [f]) ∧
      (s'.emitted = s.emitted ∨ ∃ p r, l = .packet p ∧ processPacket s.slots p = .ok r ∧
        s'.emitted = s.emitted ++ r.2) := by
  cases l with
  | packet p =>
      simp only [Pipeline.next] at hstep
      split at hstep
      · rename_i hprocess
        cases hstep
        exact ⟨.inl rfl, .inr ⟨p, _, rfl, hprocess, rfl⟩⟩
      · cases hstep
  | change slots =>
      simp only [Pipeline.next] at hstep
      split at hstep <;> cases hstep
      exact ⟨.inl rfl, .inl rfl⟩
  | emit i =>
      simp only [Pipeline.next] at hstep
      split at hstep
      · cases hstep
      · obtain ⟨_, _, rfl⟩ := Option.map_eq_some_iff.mp hstep
        exact ⟨.inl rfl, .inl rfl⟩
  | receive i =>
      simp only [Pipeline.next] at hstep
      split at hstep
      · cases hstep
      · obtain ⟨_, _, rfl⟩ := Option.map_eq_some_iff.mp hstep
        exact ⟨.inl rfl, .inl rfl⟩
  | forward i =>
      simp only [Pipeline.next] at hstep
      split at hstep
      · cases hstep
      · obtain ⟨_, _, rfl⟩ := Option.map_eq_some_iff.mp hstep
        split
        · exact ⟨.inr ⟨_, _, rfl, rfl⟩, .inl rfl⟩
        · exact ⟨.inr ⟨_, _, rfl, rfl⟩, .inl rfl⟩
        · exact ⟨.inl rfl, .inl rfl⟩
  | poll i =>
      obtain ⟨_, _, rfl⟩ := Option.map_eq_some_iff.mp hstep
      exact ⟨.inl rfl, .inl rfl⟩

/-- Nothing has been lost so far. -/
structure NothingLost (s : Pipeline) : Prop where
  way : OnTheWay s
  forwarded : ∀ f ∈ s.forwarded, f.2 = true
  small : ∀ signal ∈ s.emitted, signal.Small

/-- A step on which both queues keep up loses nothing. -/
theorem NothingLost.next (h : NothingLost s) (hok : KeepsUp s l) (hstep : s.next l = some s') :
    NothingLost s' := by
  obtain ⟨hforwarded, hemitted⟩ := Pipeline.records hstep
  refine ⟨h.way.next hstep, ?_, ?_⟩
  · rcases hforwarded with hsame | ⟨i, ⟨signal, returned⟩, rfl, hnew⟩
    · rw [hsame]
      exact h.forwarded
    · intro f hf
      rw [hnew] at hf
      rcases List.mem_append.mp hf with hf | hf
      · exact h.forwarded f hf
      · obtain rfl := List.mem_singleton.mp hf
        cases returned with
        | true => rfl
        | false =>
            obtain ⟨rfl, hfull⟩ := h.way.refused hstep hnew
            exact absurd hfull (Nat.ne_of_lt hok)
  · rcases hemitted with hsame | ⟨p, r, rfl, hprocess, hnew⟩
    · rw [hsame]
      exact h.small
    · intro signal hsignal
      rw [hnew] at hsignal
      rcases List.mem_append.mp hsignal with hsignal | hsignal
      · exact h.small signal hsignal
      · exact processPacket_small hok hprocess signal hsignal

/-- A table of one column with an indicator and a strategy that are called for every packet. -/
def oneTable : SymbolAccessArray :=
  Function.update (fun _ => {}) 0
    { symbol := 0
      columnCount := 1
      indicators := { index := 1, entries := fun _ => some { tick := 1, columnToUse := 0 } }
      strategys := { index := 1, entries := fun _ => some { tick := 1 } } }

/-- Its latest value is above the window of the strategy. -/
def risingPacket : Packet where
  tick := 0
  size := 16
  word _ := 5

def fromOneTable : Machine Pipeline PipelineStep :=
  pipeline oneTable (fun _ => ⟨false, 0, 0⟩) (fun _ => ⟨false, 0, 0⟩)

/-- The way of one signal through both queues. -/
def oneSignal : List PipelineStep :=
  let steps : List HalfStep := [.call, .look, .access, .store]
  steps.map .emit ++ steps.map .receive ++ steps.map .forward ++ steps.map .poll

theorem reach_oneSignal : ∃ s, fromOneTable.Reach KeepsUp s ∧
    s.broadcast = ["00000000True".toList] ∧ s.emitted = [⟨true, 0, 0⟩] := by
  have hindex : ∀ i, (oneTable i).strategys.index ≤ 10000 := by
    intro i
    unfold oneTable
    rw [Function.update_apply]
    split <;> decide
  let test : Pipeline → PipelineStep → Bool := fun s l =>
    match l with
    | .forward .look => decide (s.sockets.unread.length < signalCapacity.size - 1)
    | .packet _ => false
    | _ => true
  have htest : ∀ s l, test s l = true → KeepsUp s l := by
    intro s l h
    cases l with
    | packet p => cases h
    | forward i =>
        cases i with
        | look =>
            have hroom : s.sockets.unread.length < signalCapacity.size - 1 := of_decide_eq_true h
            exact hroom
        | _ => trivial
    | _ => trivial
  obtain ⟨mid, hmid, hrun⟩ : ∃ mid, Pipeline.next (pipelineStart oneTable
      (fun _ => ⟨false, 0, 0⟩) (fun _ => ⟨false, 0, 0⟩)) (.packet risingPacket) = some mid ∧
      (Machine.replay Pipeline.next test mid oneSignal).map (fun s => (s.broadcast, s.emitted)) =
        some (["00000000True".toList], [⟨true, 0, 0⟩]) :=
    ⟨_, rfl, by decide +kernel⟩
  obtain ⟨s, hs, hend⟩ := Option.map_eq_some_iff.mp hrun
  obtain ⟨hbroadcast, hemitted⟩ := Prod.mk.inj hend
  have hfirst : fromOneTable.Reach KeepsUp mid :=
    .step (i := .packet risingPacket) (.init rfl) hindex hmid
  exact ⟨s, Machine.Reach.of_replay htest hfirst hs, hbroadcast, hemitted⟩

/-! ### Runs -/

variable {slots : SymbolAccessArray} {first : Nat → Signal} {second : Nat → WebSocketPacket}

/-- In every state reached the signals are accounted for. -/
theorem onTheWay (h : (pipeline slots first second).Reach Machine.Any s) : OnTheWay s := by
  refine h.invariant ?_ ?_
  · rintro _ rfl
    exact .start slots first second
  · intro s l s' hs _ hstep
    exact hs.next hstep

/-- In every run the valid signals the strategies have returned are, in their order, those whose
push to `web_socket_queue` has returned, the one that is about to be pushed, and those in front of
it; the broadcasts and the packets in `web_socket_queue` are those whose push has returned true;
and a push returns false only when there are 1023 packets in the queue. -/
theorem signals_accounted (h : (pipeline slots first second).Reach Machine.Any s) :
    s.forwarded.map Prod.fst ++ s.forward.toList ++
        (s.signals.unread ++ s.todo).filter Signal.valid = s.emitted.filter Signal.valid ∧
      s.broadcast ++ s.sockets.unread.map WebSocketPacket.message =
        (s.forwarded.filter Prod.snd).map (fun f => f.1.packet.message) ∧
      ∀ i s' signal, s.next (.forward i) = some s' →
        s'.forwarded = s.forwarded ++ [(signal, false)] → s.sockets.unread.length = 1023 := by
  have hway := onTheWay h
  obtain ⟨hsignals, hsockets⟩ := hway.accounted
  refine ⟨hsignals, hsockets, fun i s' signal hstep hfalse => ?_⟩
  exact (hway.refused hstep hfalse).2

theorem signals_accounted_oneSignal : ∃ s, fromOneTable.Reach Machine.Any s ∧
    s.broadcast = ["00000000True".toList] ∧
    s.broadcast ++ s.sockets.unread.map WebSocketPacket.message =
      (s.forwarded.filter Prod.snd).map (fun f => f.1.packet.message) := by
  obtain ⟨s, hs, hbroadcast, -⟩ := reach_oneSignal
  have hany := hs.mono fun _ _ _ => (trivial : Machine.Any _ _)
  exact ⟨s, hany, hbroadcast, (signals_accounted hany).2.1⟩

/-- As long as `init_web_sockets` keeps up, every valid signal is broadcast once, in the order in
which the strategies have returned them: what has been broadcast, what is in `web_socket_queue`,
what is about to be pushed and what is in front of it are all of them; and a subscriber reads their
symbols and strategies off the broadcasts. -/
theorem signals_delivered (h : (pipeline slots first second).Reach KeepsUp s) :
    s.broadcast ++ s.sockets.unread.map WebSocketPacket.message ++
        (s.forward.toList ++ (s.signals.unread ++ s.todo).filter Signal.valid).map
          (fun x => x.packet.message) =
      (s.emitted.filter Signal.valid).map (fun x => x.packet.message) ∧
    s.broadcast.map subscriber = ((s.emitted.filter Signal.valid).map
      fun x => (x.tick.toInt.toNat, x.strategyIndex)).take s.broadcast.length := by
  have hkept : NothingLost s := by
    refine h.invariant ?_ ?_
    · rintro _ rfl
      exact ⟨.start slots first second, nofun, nofun⟩
    · intro s l s' hs hok hstep
      exact hs.next hok hstep
  obtain ⟨hsignals, hsockets⟩ := hkept.way.accounted
  have hall : s.forwarded.filter Prod.snd = s.forwarded :=
    List.filter_eq_self.mpr hkept.forwarded
  have hdelivered : s.broadcast ++ s.sockets.unread.map WebSocketPacket.message ++
        (s.forward.toList ++ (s.signals.unread ++ s.todo).filter Signal.valid).map
          (fun x => x.packet.message) =
      (s.emitted.filter Signal.valid).map (fun x => x.packet.message) := by
    rw [hsockets, hall, ← hsignals]
    simp only [List.map_append, List.map_map, List.append_assoc, Function.comp_def]
  refine ⟨hdelivered, ?_⟩
  have hbroadcast := congrArg (List.take s.broadcast.length) hdelivered
  rw [List.append_assoc, List.take_left] at hbroadcast
  generalize s.broadcast.length = n at hbroadcast ⊢
  rw [hbroadcast, ← List.map_take, ← List.map_take, List.map_map]
  apply List.map_congr_left
  intro x hx
  exact subscriber_message (hkept.small x (List.mem_of_mem_filter (List.mem_of_mem_take hx)))

theorem signals_delivered_oneSignal : ∃ s, fromOneTable.Reach KeepsUp s ∧
    s.broadcast = ["00000000True".toList] ∧ s.broadcast.map subscriber = [(0, 0)] := by
  obtain ⟨s, hs, hbroadcast, hemitted⟩ := reach_oneSignal
  refine ⟨s, hs, hbroadcast, ?_⟩
  rw [(signals_delivered hs).2, hbroadcast, hemitted]
  decide

end NanoVault.Hft
