/-
What one step of a cycle can do to the frames.

Most steps move a program counter only. `Move` lists the others: a frame is read,
pushed, skipped, refused or fed by the websocket thread, and the main thread drains the
buffer and visits the drained updates. `next_move` is the one place where the step
function is unfolded; every invariant of a cycle is a case analysis on it.
-/
import NanoVault.BinanceSync.Stream

namespace NanoVault.BinanceSync

/-- The part of a cycle that says where each frame is. -/
structure Trace where
  fed : List Frame
  buffered : List Frame
  held : List Frame
  incoming : List Frame
  read : List Frame
  lastU : Nat
  gap : Bool

def Cycle.trace (c : Cycle) : Trace :=
  ⟨c.fed, frames c.buf, held c.ws, c.incoming, c.read, c.lastU, c.state.gapDetected⟩

/-- The effect of one step on the frames. -/
inductive Move (x : Session) (c c' : Cycle) : Prop
  | quiet (trace : c'.trace = c.trace) (drained : c'.main.drained = c.main.drained)
      (todo : c'.main.todo = c.main.todo) (ready : c.main.ready = true → c'.main.ready = true)
  | read (f : Frame) (rest : List Frame) (incoming : c.incoming = f :: rest)
      (idle : held c.ws = []) (main : c'.main = c.main)
      (trace : c'.trace = { c.trace with incoming := rest, held := [f], read := c.read ++ [f] })
  | push (f : Frame) (ws : c.ws = .buffering f) (main : c'.main = c.main)
      (trace : c'.trace = { c.trace with buffered := frames c.buf ++ [f], held := [] })
  | skip (f : Frame) (ws : c.ws = .comparing f x.S) (main : c'.main = c.main)
      (old : f.u ≤ x.S) (trace : c'.trace = { c.trace with held := [] })
  | refuse (f : Frame) (ws : c.ws = .comparing f x.S) (main : c'.main = c.main)
      (recent : x.S < f.u) (gap : gapTest c.lastU x.S f = true)
      (trace : c'.trace = { c.trace with held := [], gap := true })
  | feed (f : Frame) (ws : c.ws = .comparing f x.S) (main : c'.main = c.main)
      (recent : x.S < f.u) (gap : gapTest c.lastU x.S f = false)
      (trace : c'.trace = { c.trace with held := [], fed := c.fed ++ [f], lastU := f.u })
  | drain (main : c.main = .stored x.S) (main' : c'.main = .feeding x.S c.buf)
      (trace : c'.trace = { c.trace with buffered := [] })
  | visit (d : DepthUpdate) (todo : List DepthUpdate) (main : c.main = .feeding x.S (d :: todo))
      (main' : c'.main = .feeding x.S todo)
      (trace : c'.trace = { c.trace with fed := (feedBuffered c x.S d todo).fed })

theorem wsNext_move {x : Session} {c c' : Cycle} (h : Phase x c) (hstep : wsNext x c = some c') :
    Move x c c' := by
  cases hws : c.ws with
  | reading =>
      cases hin : c.incoming with
      | nil => simp [wsNext, hws, hin] at hstep
      | cons f rest =>
          simp only [wsNext, hws, hin, Option.some.injEq] at hstep
          subst hstep
          exact .read f rest hin (by simp [hws, held]) rfl (by simp [Cycle.trace, held])
  | buffering f =>
      simp only [wsNext, hws, Option.some.injEq] at hstep
      subst hstep
      exact .push f hws rfl (by simp [Cycle.trace, held])
  | comparing f S =>
      obtain ⟨-, rfl⟩ := h.comparing f S hws
      simp only [wsNext, hws, Option.some.injEq] at hstep
      subst hstep
      by_cases hold : f.u ≤ x.S
      · exact .skip f hws (by simp [judge, hold]) hold (by simp [judge, hold, Cycle.trace, held])
      · have hnew := Nat.not_le.mp hold
        cases hgap : gapTest c.lastU x.S f
        · exact .feed f hws (by simp [judge, hold, hgap, feedLive]) hnew hgap
            (by simp [judge, hold, hgap, feedLive, Cycle.trace, held])
        · exact .refuse f hws (by simp [judge, hold, hgap]) hnew hgap
            (by simp [judge, hold, hgap, Cycle.trace, held])
  | loopHead =>
      simp only [wsNext, hws, Option.some.injEq] at hstep
      subst hstep
      refine .quiet ?_ rfl rfl id
      cases hstop : c.stopFlag || c.state.stop <;> simp [Cycle.trace, hws, held]
  | received f =>
      simp only [wsNext, hws, Option.some.injEq] at hstep
      subst hstep
      refine .quiet ?_ rfl rfl id
      cases hready : c.state.snapshotReady <;> simp [Cycle.trace, hws, held]
  | done => simp [wsNext, hws] at hstep
  | connecting | live _ | failed | leaving | signingOff =>
      simp only [wsNext, hws, Option.some.injEq] at hstep
      subst hstep
      exact .quiet (by simp [Cycle.trace, hws, held, DepthUpdate.signOff]) rfl rfl id

theorem mainNext_move {x : Session} {c c' : Cycle} (h : Phase x c)
    (hstep : mainNext x c = some c') : Move x c c' := by
  cases hmain : c.main with
  | stored S =>
      obtain rfl : S = x.S := h.fetched S (by simp [hmain, MainPc.localId])
      simp only [mainNext, hmain, Option.some.injEq] at hstep
      subst hstep
      exact .drain hmain rfl (by simp [Cycle.trace])
  | feeding S todo =>
      obtain rfl : S = x.S := h.fetched S (by simp [hmain, MainPc.localId])
      cases todo with
      | nil =>
          simp only [mainNext, hmain, Option.some.injEq] at hstep
          subst hstep
          exact .quiet rfl (by simp [hmain, MainPc.drained]) (by simp [hmain, MainPc.todo])
            (by simp [MainPc.ready])
      | cons d todo =>
          simp only [mainNext, hmain, Option.some.injEq] at hstep
          subst hstep
          exact .visit d todo hmain rfl rfl
  | checkingError =>
      simp only [mainNext, hmain, Option.some.injEq] at hstep
      subst hstep
      cases herr : c.state.wsError
      all_goals
        exact .quiet rfl (by simp [hmain, MainPc.drained]) (by simp [hmain, MainPc.todo])
          (by simp [hmain, MainPc.ready])
  | fetching | fetched _ =>
      simp only [mainNext, hmain, Option.some.injEq] at hstep
      subst hstep
      exact .quiet rfl (by simp [hmain, MainPc.drained]) (by simp [hmain, MainPc.todo])
        (by simp [hmain, MainPc.ready])
  | waiting | joining | aborting =>
      simp only [mainNext, hmain] at hstep
      split at hstep <;> cases hstep
      all_goals
        exact .quiet rfl (by simp [hmain, MainPc.drained]) (by simp [hmain, MainPc.todo])
          (by simp [hmain, MainPc.ready])
  | returned _ | aborted => simp [mainNext, hmain] at hstep

/-- Every step of a cycle is one of the moves. -/
theorem next_move {x : Session} {c c' : Cycle} {a : Action} (h : Phase x c)
    (hstep : next x c a = some c') : Move x c c' := by
  cases a with
  | ws => exact wsNext_move h hstep
  | main => exact mainNext_move h hstep
  | wsThrow =>
      simp only [next, wsThrow] at hstep
      split at hstep <;> cases hstep
      all_goals
        rename_i hws
        exact .quiet (by simp [Cycle.trace, hws, held]) rfl rfl id
  | fetchThrow =>
      simp only [next, fetchThrow] at hstep
      split at hstep <;> cases hstep
      rename_i hmain
      exact .quiet rfl (by simp [hmain, MainPc.drained]) (by simp [hmain, MainPc.todo])
        (by simp [hmain, MainPc.ready])
  | stop =>
      cases hstep
      exact .quiet rfl rfl rfl id

end NanoVault.BinanceSync
