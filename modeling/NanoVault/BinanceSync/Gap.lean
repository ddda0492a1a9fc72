/-
Gap detection over one cycle.

`ws_loop` checks for missing updates on the live path only: the drained updates are fed
without a check. So the frames fed on top of the snapshot are free of gaps in every run
that drains a gap-free buffer (`fed_covers`), whatever the interleaving: a frame lost in
the hand-over makes the first live frame start past `S + 1`, which the live check sees.
-/
import NanoVault.BinanceSync.Moves

namespace NanoVault.BinanceSync

/-- The frames waiting for the main thread: the buffer, or what is left of the drained
list. -/
def queued (c : Cycle) : List Frame := if c.main.drained then c.main.todo else frames c.buf

/-- The frames of a cycle in the order in which they are, or may still be, fed. -/
def flow (c : Cycle) : List Frame := c.fed ++ (queued c ++ (held c.ws ++ c.incoming))

/-- No undetected gap: unless a gap has been detected, the frames newer than the snapshot
that were fed continue it without leaving an update out. -/
def NoUndetectedGap (S : Nat) (c : Cycle) : Prop :=
  c.state.gapDetected = false → Covers S (newer S c.fed)

/-- The step is not one that drains a buffer whose newer frames leave an update out. -/
def DrainsGapFree (c : Cycle) (a : Action) : Prop :=
  match a, c.main with
  | .main, .stored S => Covers S (newer S (frames c.buf))
  | _, _ => True

instance (c : Cycle) (a : Action) : Decidable (DrainsGapFree c a) := by
  unfold DrainsGapFree; split <;> infer_instance

/-- The invariant behind gap detection. `covers` looks ahead over the drained frames
still to be visited, so that feeding them is not a new obligation. -/
structure GapInv (x : Session) (c : Cycle) : Prop where
  ordered : (flow c).Pairwise Before
  early : c.main.drained = false → c.fed = []
  idle : c.main.ready = false → c.lastU = 0
  recent : ∀ f ∈ c.fed, x.S < f.u
  covers : Covers x.S (c.fed ++ newer x.S c.main.todo)
  last : c.lastU ≠ 0 → ∃ f ∈ c.fed.getLast?, f.u = c.lastU

theorem GapInv.start {x : Session} (hx : FromExchange x.stream) : GapInv x (start x) where
  ordered := by simpa [flow, queued, BinanceSync.start, MainPc.drained, held] using hx.ordered
  early _ := rfl
  idle _ := rfl
  recent := by simp [BinanceSync.start]
  covers := covers_nil _
  last h := absurd rfl h

/-- A live frame that passes the gap test extends the covered frames: the first one
cannot come after a drained frame, since it would then start past `S + 1`. -/
theorem GapInv.covers_feed {x : Session} {c : Cycle} {f : Frame} (h : GapInv x c)
    (hf : held c.ws = [f]) (htodo : c.main.todo = [])
    (hgap : gapTest c.lastU x.S f = false) : Covers x.S (c.fed ++ [f]) := by
  have hcovers : Covers x.S c.fed := by simpa [htodo] using h.covers
  have hbefore : ∀ b ∈ c.fed, b.u < f.U := by
    intro b hb
    have := List.pairwise_append.mp h.ordered
    exact this.2.2 b hb f (by simp [hf])
  by_cases hlast : c.lastU = 0
  · have hU : f.U ≤ x.S + 1 := by simpa [gapTest, hlast] using hgap
    have hfed : c.fed = [] := by
      refine List.eq_nil_iff_forall_not_mem.mpr fun b hb => ?_
      have h1 := h.recent b hb
      have h2 := hbefore b hb
      omega
    exact hcovers.snoc (fun _ => hU) (by simp [hfed])
  · have hU : f.U = c.lastU + 1 := by simpa [gapTest, hlast] using hgap
    obtain ⟨b, hb, hbu⟩ := h.last hlast
    refine hcovers.snoc (fun hnil => ?_) (fun b' hb' => ?_)
    · simp [hnil] at hb
    · obtain rfl : b = b' := Option.some.inj (hb.symm.trans hb')
      show f.U = b.u + 1
      rw [hU, hbu]

/-- Feeding never reorders: a step drops frames from the flow at most. -/
theorem flow_move {x : Session} {c c' : Cycle} (hp : Phase x c) (h : Move x c c') :
    (flow c').Sublist (flow c) := by
  cases h with
  | quiet trace drained todo ready =>
      simp only [Cycle.trace, Trace.mk.injEq] at trace
      obtain ⟨hfed, hbuf, hheld, hin, -, -, -⟩ := trace
      simp [flow, queued, hfed, hbuf, hheld, hin, drained, todo]
  | read f rest incoming idle main trace =>
      simp only [Cycle.trace, Trace.mk.injEq] at trace
      obtain ⟨hfed, hbuf, hheld, hin, -, -, -⟩ := trace
      simp [flow, queued, hfed, hbuf, hheld, hin, main, incoming, idle]
  | push f ws main trace =>
      have hf : held c.ws = [f] := by rw [ws]; rfl
      simp only [Cycle.trace, Trace.mk.injEq] at trace
      obtain ⟨hfed, hbuf, hheld, hin, -, -, -⟩ := trace
      -- after the drain a pushed frame is lost
      cases hd : c.main.drained <;> simp [flow, queued, hfed, hbuf, hheld, hin, main, hf, hd]
  | skip f ws main _ trace | refuse f ws main _ _ trace =>
      have hf : held c.ws = [f] := by rw [ws]; rfl
      simp only [Cycle.trace, Trace.mk.injEq] at trace
      obtain ⟨hfed, hbuf, hheld, hin, -, -, -⟩ := trace
      simp [flow, queued, hfed, hbuf, hheld, hin, main, hf]
  | feed f ws main recent gap trace =>
      have hf : held c.ws = [f] := by rw [ws]; rfl
      simp only [Cycle.trace, Trace.mk.injEq] at trace
      obtain ⟨hfed, hbuf, hheld, hin, -, -, -⟩ := trace
      have hready := (hp.comparing f _ ws).1
      simp [flow, queued, hfed, hheld, hin, main, hf, MainPc.drained_of_ready hready,
        MainPc.todo_of_ready hready]
  | drain main main' trace =>
      simp only [Cycle.trace, Trace.mk.injEq] at trace
      obtain ⟨hfed, hbuf, hheld, hin, -, -, -⟩ := trace
      simp [flow, queued, hfed, hheld, hin, main, main', MainPc.drained, MainPc.todo]
  | visit d todo main main' trace =>
      simp only [Cycle.trace, Trace.mk.injEq] at trace
      obtain ⟨hfed, hbuf, hheld, hin, -, -, -⟩ := trace
      simp only [flow, queued, hfed, hheld, hin, main, main', MainPc.drained, MainPc.todo,
        feedBuffered, if_true, ← List.append_assoc]
      refine List.Sublist.append_right (List.Sublist.append_right ?_ _) _
      cases hd : d.sentinel
      · by_cases hu : d.u ≤ x.S <;> simp [hu, hd]
      · simp [hd]

/-- A step that feeds nothing keeps everything but the order of the flow. -/
theorem GapInv.keep {x : Session} {c c' : Cycle} (h : GapInv x c)
    (hordered : (flow c').Pairwise Before) (fed : c'.fed = c.fed) (last : c'.lastU = c.lastU)
    (drained : c'.main.drained = c.main.drained) (todo : c'.main.todo = c.main.todo)
    (ready : c.main.ready = true → c'.main.ready = true) : GapInv x c' where
  ordered := hordered
  early := by rw [drained, fed]; exact h.early
  idle hr := by
    rw [last]
    refine h.idle ?_
    cases hc : c.main.ready
    · rfl
    · exact absurd (ready hc) (by simp [hr])
  recent := by rw [fed]; exact h.recent
  covers := by rw [fed, todo]; exact h.covers
  last := by rw [fed, last]; exact h.last

/-- Only the main thread enters the loop over the drained updates. -/
theorem main_of_feeding {x : Session} {c c' : Cycle} {a : Action} (hstep : next x c a = some c')
    (before : ∀ S todo, c.main ≠ .feeding S todo) (after : ∃ S todo, c'.main = .feeding S todo) :
    a = .main := by
  obtain ⟨S, todo, hafter⟩ := after
  cases a with
  | main => rfl
  | ws => exact absurd ((wsNext_shared hstep).1 ▸ hafter) (before S todo)
  | wsThrow =>
      simp only [BinanceSync.next, wsThrow] at hstep
      split at hstep <;> cases hstep
      all_goals exact absurd hafter (before S todo)
  | fetchThrow =>
      simp only [BinanceSync.next, fetchThrow] at hstep
      split at hstep <;> cases hstep
      cases hafter
  | stop =>
      cases hstep
      exact absurd hafter (before S todo)

theorem GapInv.next {x : Session} {c c' : Cycle} {a : Action} (hp : Phase x c)
    (h : GapInv x c) (hok : DrainsGapFree c a) (hstep : next x c a = some c') :
    GapInv x c' := by
  have hmove := next_move hp hstep
  have hordered := h.ordered.sublist (flow_move hp hmove)
  cases hmove with
  | quiet trace drained todo ready =>
      simp only [Cycle.trace, Trace.mk.injEq] at trace
      obtain ⟨hfed, -, -, -, -, hlast, -⟩ := trace
      exact h.keep hordered hfed hlast drained todo ready
  | read f rest _ _ main trace | push f _ main trace | skip f _ main _ trace
  | refuse f _ main _ _ trace =>
      simp only [Cycle.trace, Trace.mk.injEq] at trace
      obtain ⟨hfed, -, -, -, -, hlast, -⟩ := trace
      exact h.keep hordered hfed hlast (by rw [main]) (by rw [main]) (by rw [main]; exact id)
  | feed f ws main recent gap trace =>
      simp only [Cycle.trace, Trace.mk.injEq] at trace
      obtain ⟨hfed, -, -, -, -, hlast, -⟩ := trace
      have hready := (hp.comparing f _ ws).1
      have htodo := MainPc.todo_of_ready hready
      have hcovers := h.covers_feed (by rw [ws]; rfl) htodo gap
      refine ⟨hordered, ?_, ?_, ?_, ?_, ?_⟩
      · rw [main, MainPc.drained_of_ready hready]
        exact fun hd => by cases hd
      · rw [main, hready]
        exact fun hr => by cases hr
      · intro b hb
        rw [hfed, List.mem_append, List.mem_singleton] at hb
        rcases hb with hb | rfl
        · exact h.recent b hb
        · exact recent
      · rw [hfed, main, htodo]
        simpa using hcovers
      · intro _
        exact ⟨f, by simp [hfed], hlast.symm⟩
  | drain main main' trace =>
      simp only [Cycle.trace, Trace.mk.injEq] at trace
      obtain ⟨hfed, -, -, -, -, hlast, -⟩ := trace
      have hnil : c.fed = [] := h.early (by simp [main, MainPc.drained])
      have hzero : c.lastU = 0 := h.idle (by simp [main, MainPc.ready])
      refine ⟨hordered, ?_, ?_, ?_, ?_, ?_⟩
      · simp [main', MainPc.drained]
      · exact fun _ => hlast.trans hzero
      · simp [hfed, hnil]
      -- Here the condition is used: what the drain hands over has no gap.
      · have hmain : a = .main := main_of_feeding hstep (by simp [main]) ⟨_, _, main'⟩
        rw [hfed, hnil, main']
        simpa [DrainsGapFree, hmain, main, MainPc.todo] using hok
      · exact fun hne => absurd (hlast.trans hzero) hne
  | visit d todo main main' trace =>
      simp only [Cycle.trace, Trace.mk.injEq] at trace
      obtain ⟨hfed, -, -, -, -, hlast, -⟩ := trace
      have hzero : c.lastU = 0 := h.idle (by simp [main, MainPc.ready])
      refine ⟨hordered, ?_, ?_, ?_, ?_, ?_⟩
      · simp [main', MainPc.drained]
      · exact fun _ => hlast.trans hzero
      · intro b hb
        have hb' : b ∈ c.fed ++ newer x.S (frames (d :: todo)) := by
          rw [← fed_feedBuffered c x.S d todo, ← hfed]
          exact List.mem_append_left _ hb
        rcases List.mem_append.mp hb' with hb' | hb'
        · exact h.recent b hb'
        · exact (mem_newer.mp hb').2
      · rw [hfed, main']
        have := h.covers
        rw [main] at this
        simp only [MainPc.todo] at this ⊢
        rwa [fed_feedBuffered]
      · exact fun hne => absurd (hlast.trans hzero) hne

theorem GapInv.noUndetectedGap {x : Session} {c : Cycle} (h : GapInv x c) :
    NoUndetectedGap x.S c := by
  intro _
  have hall : newer x.S c.fed = c.fed :=
    List.filter_eq_self.mpr fun f hf => by simpa using h.recent f hf
  rw [hall]
  exact ⟨fun f hf => h.covers.1 f (by
    cases hc : c.fed with
    | nil => simp [hc] at hf
    | cons b bs => simpa [hc] using hf), (List.isChain_append.mp h.covers.2).1⟩

/-- In every run of a cycle that never drains a buffer with a gap in it, and under every
interleaving, the frames fed on top of the snapshot leave no update out. -/
theorem fed_covers (x : Session) (hx : FromExchange x.stream) {c : Cycle}
    (h : (machine x).Reach DrainsGapFree c) : NoUndetectedGap x.S c := by
  have hinv : Phase x c ∧ GapInv x c := by
    refine h.invariant (I := fun c => Phase x c ∧ GapInv x c) ?_ ?_
    · rintro _ rfl
      exact ⟨.start x, .start hx⟩
    · rintro c a c' ⟨hp, hg⟩ hok hstep
      exact ⟨hp.next hstep, hg.next hp hok hstep⟩
  exact hinv.2.noUndetectedGap

/-- A contiguous stream whose first frame is drained, taken over by a live frame that the
gap test refuses. -/
def steady : Session := { stream := [⟨1, 5, "a"⟩, ⟨6, 8, "b"⟩], S := 3 }

/-- The schedule that buffers `n` frames before the main thread starts, and then lets the
main thread take `m` steps. -/
def bufferThenMain (n m : Nat) : List Action :=
  .ws :: (List.replicate (4 * n) .ws ++ List.replicate m .main)

/-- `fed_covers` at the state in which the drained frame of `steady` has been fed. -/
theorem fed_covers_steady : ∃ c, (machine steady).Reach DrainsGapFree c ∧
    c.fed = [⟨1, 5, "a"⟩] ∧ NoUndetectedGap steady.S c := by
  have hx : FromExchange steady.stream := ⟨_, by decide, List.Sublist.refl _⟩
  have hrun : (Lib.Machine.replay (next steady) (fun c a => decide (DrainsGapFree c a))
      (start steady) (bufferThenMain 1 7)).map (·.fed) = some [⟨1, 5, "a"⟩] := by decide
  obtain ⟨c, hc, hfed⟩ := Option.map_eq_some_iff.mp hrun
  have hreach := Lib.Machine.Reach.of_replay (fun _ _ => of_decide_eq_true) (.init rfl) hc
  exact ⟨c, hreach, hfed, fed_covers steady hx hreach⟩

/-- A session whose exchange skips updates 6 to 9 while the snapshot, taken at update 5,
is being fetched. -/
def skipping : Session := { stream := [⟨1, 5, "a"⟩, ⟨10, 12, "b"⟩], S := 5 }

/-- Both frames are buffered and drained; the drained loop feeds the second one on top of
the snapshot although it starts at update 10, and no gap is reported. -/
theorem buffered_gap_undetected :
    FromExchange skipping.stream ∧ ∃ c, (machine skipping).Reach Lib.Machine.Any c ∧
      ¬ NoUndetectedGap skipping.S c := by
  refine ⟨⟨[⟨1, 5, "a"⟩, ⟨6, 9, ""⟩, ⟨10, 12, "b"⟩], by decide, by decide⟩, ?_⟩
  have hrun : (Lib.Machine.replay (next skipping) (fun _ _ => true)
      (start skipping) (bufferThenMain 2 7)).map (fun c => (c.fed, c.state.gapDetected)) =
        some ([⟨10, 12, "b"⟩], false) := by decide
  obtain ⟨c, hc, hend⟩ := Option.map_eq_some_iff.mp hrun
  obtain ⟨hfed, hgap⟩ := Prod.mk.inj hend
  refine ⟨c, Lib.Machine.Reach.of_replay (fun _ _ _ => trivial) (.init rfl) hc, fun h => ?_⟩
  have hcovers := h hgap
  rw [hfed] at hcovers
  exact absurd hcovers (by decide)

end NanoVault.BinanceSync
