/-
One synchronisation cycle of `BinanceSync` (`hft_clean/binance.hpp`).

`run_one_sync_cycle` starts a websocket thread running `ws_loop` and then works through
its own steps: wait for the first buffered update, fetch the REST snapshot, store its
id, drain the buffer, feed the drained updates, set `snapshot_ready`. The two threads
share a locked buffer and a handful of atomics; each access to one of them is one step
here, so a `received` frame can find `snapshot_ready` false, and still be pushed after
the main thread has drained the buffer and set the flag.

The environment is a `Session`: the frames the exchange sends, the `lastUpdateId` the
REST call answers, and the two configuration fields `ws_loop` reads. Failures are
separate actions: the websocket may throw while connecting or reading, `fetch_snapshot`
may throw, and another thread may call `stop()`.
-/
import NanoVault.Lib.Machine

namespace NanoVault.BinanceSync

/-- A depth frame as `ws_loop` parses it: first and final update id, and the text handed
to the handler. The ids are `uint64_t`, and are kept here without wrapping. -/
structure Frame where
  U : Nat
  u : Nat
  payload : String
deriving DecidableEq, Repr

/-- `detail::DepthUpdate`: a buffered frame, or the sentinel pushed by a finished
websocket thread. -/
structure DepthUpdate extends Frame where
  sentinel : Bool
deriving DecidableEq, Repr

/-- `sync_buf.push({{}, {}, {}, true})`. -/
def DepthUpdate.signOff : DepthUpdate := ⟨⟨0, 0, ""⟩, true⟩

/-- `detail::SyncState`, without the fields no step reads. -/
structure SyncState where
  snapshotReady : Bool := false
  gapDetected : Bool := false
  stop : Bool := false
  wsError : Bool := false
  snapshotId : Nat := 0
deriving DecidableEq, Repr

inductive WsPc where
  | connecting
  | loopHead
  | reading
  /-- A frame was read and parsed; `snapshot_ready` is loaded next. -/
  | received (f : Frame)
  /-- `snapshot_ready` was false: the frame is pushed next. -/
  | buffering (f : Frame)
  /-- `snapshot_ready` was true: `snapshot_id` is loaded next. -/
  | live (f : Frame)
  /-- `snapshot_id` was `S`: the frame is compared and fed next. -/
  | comparing (f : Frame) (S : Nat)
  /-- An exception was caught; `ws_error` is stored next. -/
  | failed
  | leaving
  | signingOff
  | done
deriving DecidableEq, Repr

inductive MainPc where
  | waiting
  | checkingError
  | fetching
  | fetched (S : Nat)
  | stored (S : Nat)
  /-- Inside the loop over the drained updates; `todo` are those not visited yet. -/
  | feeding (S : Nat) (todo : List DepthUpdate)
  | joining
  | returned (gap : Bool)
  /-- The early returns: join the websocket thread, then return false. -/
  | aborting
  | aborted
deriving DecidableEq, Repr

/-- Everything one cycle owns. `lastU` and `liveCount` are the locals of `ws_loop`,
`stopFlag` is the member `stop_`, `incoming` what the exchange has not delivered yet;
`read` and `fed` record the frames read from the socket and the calls of
`handler_.feed`, in order. -/
structure Cycle where
  buf : List DepthUpdate := []
  state : SyncState := {}
  stopFlag : Bool := false
  ws : WsPc := .connecting
  lastU : Nat := 0
  liveCount : Int := 0
  main : MainPc := .waiting
  incoming : List Frame
  read : List Frame := []
  fed : List Frame := []
deriving DecidableEq, Repr

/-- What one cycle meets: the frames of the exchange, the snapshot id the REST call
answers, and `cfg_.bbo_print_every`, `cfg_.max_live_frames`. -/
structure Session where
  stream : List Frame
  S : Nat
  bboPrintEvery : Int := 10
  maxLiveFrames : Int := -1

/-- The gap test of the live branch; `lastU = 0` is the source's "no live frame yet". -/
def gapTest (lastU S : Nat) (f : Frame) : Bool :=
  if lastU = 0 then decide (S + 1 < f.U) else decide (f.U ≠ lastU + 1)

/-- Feed a live frame and count it. `++live_count` stands behind the short-circuiting
test of `bbo_print_every`. -/
def feedLive (x : Session) (c : Cycle) (f : Frame) : Cycle :=
  let count := if 0 < x.bboPrintEvery then c.liveCount + 1 else c.liveCount
  { c with
    lastU := f.u
    fed := c.fed ++ [f]
    liveCount := count
    stopFlag := c.stopFlag || (decide (0 < x.maxLiveFrames) && decide (x.maxLiveFrames ≤ count))
    ws := .loopHead }

/-- The body of the live branch once `snapshot_id` has been loaded as `S`. -/
def judge (x : Session) (c : Cycle) (f : Frame) (S : Nat) : Cycle :=
  if f.u ≤ S then { c with ws := .loopHead }
  else if gapTest c.lastU S f then
    { c with state := { c.state with gapDetected := true }, ws := .leaving }
  else feedLive x c f

/-- The next step of the websocket thread, exceptions apart. -/
def wsNext (x : Session) (c : Cycle) : Option Cycle :=
  match c.ws with
  | .connecting => some { c with ws := .loopHead }
  | .loopHead => some { c with ws := if c.stopFlag || c.state.stop then .leaving else .reading }
  | .reading =>
      match c.incoming with
      | [] => none
      | f :: rest => some { c with incoming := rest, read := c.read ++ [f], ws := .received f }
  | .received f => some { c with ws := if c.state.snapshotReady then .live f else .buffering f }
  | .buffering f => some { c with buf := c.buf ++ [⟨f, false⟩], ws := .loopHead }
  | .live f => some { c with ws := .comparing f c.state.snapshotId }
  | .comparing f S => some (judge x c f S)
  | .failed => some { c with state := { c.state with wsError := true }, ws := .leaving }
  | .leaving => some { c with state := { c.state with stop := true }, ws := .signingOff }
  | .signingOff => some { c with buf := c.buf ++ [DepthUpdate.signOff], ws := .done }
  | .done => none

/-- An exception inside `ws_loop`: while connecting, or while reading and parsing. -/
def wsThrow (c : Cycle) : Option Cycle :=
  match c.ws with
  | .connecting | .reading => some { c with ws := .failed }
  | _ => none

/-- One visit of the loop over the drained updates. -/
def feedBuffered (c : Cycle) (S : Nat) (upd : DepthUpdate) (todo : List DepthUpdate) : Cycle :=
  { c with
    fed := if upd.sentinel || decide (upd.u ≤ S) then c.fed else c.fed ++ [upd.toFrame]
    main := .feeding S todo }

/-- The next step of the main thread, exceptions apart. -/
def mainNext (x : Session) (c : Cycle) : Option Cycle :=
  match c.main with
  | .waiting => if c.buf.isEmpty then none else some { c with main := .checkingError }
  | .checkingError => some { c with main := if c.state.wsError then .aborting else .fetching }
  | .fetching => some { c with main := .fetched x.S }
  | .fetched S => some { c with state := { c.state with snapshotId := S }, main := .stored S }
  | .stored S => some { c with buf := [], main := .feeding S c.buf }
  | .feeding S (upd :: todo) => some (feedBuffered c S upd todo)
  | .feeding _ [] => some { c with state := { c.state with snapshotReady := true }, main := .joining }
  | .joining => if c.ws = .done then some { c with main := .returned c.state.gapDetected } else none
  | .aborting => if c.ws = .done then some { c with main := .aborted } else none
  | .returned _ | .aborted => none

/-- `fetch_snapshot` throws. -/
def fetchThrow (c : Cycle) : Option Cycle :=
  match c.main with
  | .fetching => some { c with state := { c.state with stop := true }, main := .aborting }
  | _ => none

/-- The moves of the cycle: a step of either thread, a failure, or `stop()`. -/
inductive Action where
  | ws
  | wsThrow
  | main
  | fetchThrow
  | stop
deriving DecidableEq, Repr

/-- What an action does, if it is enabled. -/
def next (x : Session) (c : Cycle) : Action → Option Cycle
  | .ws => wsNext x c
  | .wsThrow => wsThrow c
  | .main => mainNext x c
  | .fetchThrow => fetchThrow c
  | .stop => some { c with stopFlag := true }

/-- The state `run_one_sync_cycle` starts in. -/
def start (x : Session) : Cycle := { incoming := x.stream }

/-- All interleavings of one cycle. -/
def machine (x : Session) : Lib.Machine Cycle Action := .ofFun (start x) (next x)

end NanoVault.BinanceSync
