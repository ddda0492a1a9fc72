/-
The hand-over from buffered to live frames.

`ws_loop` remembers the last frame it fed itself (`last_u`), not the last frame fed. Once
a frame newer than the snapshot has come out of the drained buffer, the first live frame
is still measured against `S + 1`, so it is taken for a gap; and a frame pushed after the
drain is never fed. In the runs in which every frame newer than the snapshot takes the
live path, or is drained with no live frame after it (`HandsOver`), a contiguous stream
is fed completely, once, and without a gap being reported (`fed_once`).
-/
import Mathlib.Data.List.Nodup
import NanoVault.BinanceSync.Gap

namespace NanoVault.BinanceSync

/-- A stream that continues the snapshot `S`: contiguous, and reaching down to `S + 1`. -/
def Continues (S : Nat) (fs : List Frame) : Prop :=
  Contiguous fs ∧ ∀ f ∈ fs.head?, f.U ≤ S + 1

instance (S : Nat) (fs : List Frame) : Decidable (Continues S fs) := by
  unfold Continues; infer_instance

/-- The cycle is over: the websocket thread has ended and the main thread returned after
going live. -/
def Finished (c : Cycle) : Prop := c.ws = .done ∧ ∃ gap, c.main = .returned gap

/-- No false gap: none is reported, and once the cycle is over every frame newer than the
snapshot that was read has been fed exactly once. -/
def NoFalseGap (S : Nat) (c : Cycle) : Prop :=
  c.state.gapDetected = false ∧
    (Finished c → ∀ f ∈ c.read, S < f.u → c.fed.count f = 1)

/-- The step loses no newer frame behind the drain, and does not compare a newer live
frame with the snapshot id after a newer frame was drained. -/
def HandsOver (c : Cycle) (a : Action) : Prop :=
  match a, c.ws with
  | .ws, .buffering f => c.main.drained = true → f.u ≤ c.state.snapshotId
  | .ws, .comparing f S => S < f.u → c.lastU = 0 → c.fed = []
  | _, _ => True

instance (c : Cycle) (a : Action) : Decidable (HandsOver c a) := by
  unfold HandsOver
  cases a <;> cases c.ws <;> infer_instance

/-- A frame follows the one read before it. -/
theorem Continues.follows {S : Nat} {r rest : List Frame} {p f : Frame}
    (h : Continues S ((r ++ [p]) ++ [f] ++ rest)) : Follows p f := by
  have hchain := (List.isChain_append.mp (List.isChain_append.mp h.1.2).1).2.2
  exact hchain p (by simp) f (by simp)

/-- With nothing newer than the snapshot before it, a frame reaches down to `S + 1`. -/
theorem Continues.reaches {S : Nat} {r rest : List Frame} {f : Frame}
    (h : Continues S (r ++ [f] ++ rest)) (old : newer S r = []) : f.U ≤ S + 1 := by
  rcases List.eq_nil_or_concat r with rfl | ⟨r', p, rfl⟩
  · exact h.2 f (by simp)
  · rw [List.concat_eq_append] at h old
    have hfollows : f.U = p.u + 1 := h.follows
    have hp : ¬ S < p.u := fun hp => by simp [hp] at old
    omega

/-- The last frame read is the last newer one, if there is a newer one at all. -/
theorem Continues.last_newer {S : Nat} {r rest : List Frame} {b f : Frame}
    (h : Continues S (r ++ [f] ++ rest)) (hb : b ∈ (newer S r).getLast?) : Follows b f := by
  rcases List.eq_nil_or_concat r with rfl | ⟨r', p, rfl⟩
  · simp at hb
  · rw [List.concat_eq_append] at h hb
    have hmem : b ∈ newer S (r' ++ [p]) := List.mem_of_mem_getLast? hb
    obtain ⟨-, hbS⟩ := mem_newer.mp hmem
    by_cases hp : S < p.u
    · obtain rfl : p = b := by simpa [hp] using hb
      exact h.follows
    · have hb' : b ∈ r' := by
        have : b ∈ newer S r' := by simpa [hp] using hmem
        exact (mem_newer.mp this).1
      have hordered := h.1.ordered
      rw [List.append_assoc, List.append_assoc] at hordered
      have hbp : b.u < p.U := (List.pairwise_append.mp hordered).2.2 b hb' p (by simp)
      have hpp : p.U ≤ p.u := h.1.1 p (by simp)
      omega

/-- The invariant behind the hand-over: every newer frame that was read is fed, waits for
the main thread, or is held, in this order. -/
structure FeedInv (x : Session) (c : Cycle) : Prop where
  split : x.stream = c.read ++ c.incoming
  tail : ∀ f ∈ held c.ws, ∃ r, c.read = r ++ [f]
  account : newer x.S c.read = c.fed ++ newer x.S (queued c ++ held c.ws)
  quiet : c.state.gapDetected = false
  idle : c.main.ready = false → c.lastU = 0
  last : c.lastU ≠ 0 → ∃ f ∈ c.fed.getLast?, f.u = c.lastU

theorem FeedInv.start (x : Session) : FeedInv x (start x) where
  split := rfl
  tail := by simp [BinanceSync.start, held]
  account := by simp [BinanceSync.start, queued, MainPc.drained, held]
  quiet := rfl
  idle _ := rfl
  last h := absurd rfl h

/-- The gap test accepts the held frame once the newer frames before it were all fed. -/
theorem FeedInv.gapTest_false {x : Session} {c : Cycle} {f : Frame} (hp : Phase x c)
    (h : FeedInv x c) (hx : Continues x.S x.stream) (hws : c.ws = .comparing f x.S)
    (recent : x.S < f.u) (first : c.lastU = 0 → c.fed = []) : gapTest c.lastU x.S f = false := by
  have hheld : held c.ws = [f] := by rw [hws]; rfl
  have hready := (hp.comparing f _ hws).1
  obtain ⟨r, hr⟩ := h.tail f (by simp [hheld])
  have hfed : newer x.S r = c.fed := by
    have := h.account
    rw [hr, hheld] at this
    simpa [queued, MainPc.drained_of_ready hready, MainPc.todo_of_ready hready, recent] using this
  have hstream : Continues x.S (r ++ [f] ++ c.incoming) := by rw [← hr, ← h.split]; exact hx
  by_cases hlast : c.lastU = 0
  · have := hstream.reaches (hfed.trans (first hlast))
    simpa [gapTest, hlast] using this
  · obtain ⟨b, hb, hbu⟩ := h.last hlast
    have hfollows : f.U = b.u + 1 := hstream.last_newer (hfed ▸ hb)
    simp [gapTest, hlast, hfollows, hbu]

/-- Only the websocket thread disposes of the frame it holds. -/
theorem ws_of_held {x : Session} {c c' : Cycle} {a : Action} (hp : Phase x c)
    (hstep : next x c a = some c') (changed : held c'.ws ≠ held c.ws) : a = .ws := by
  cases a with
  | ws => rfl
  | main => exact absurd (by rw [(mainNext_shared hp hstep).1]) changed
  | wsThrow =>
      simp only [next, wsThrow] at hstep
      split at hstep <;> cases hstep
      all_goals
        rename_i hws
        exact absurd (by simp [hws, held]) changed
  | fetchThrow =>
      simp only [next, fetchThrow] at hstep
      split at hstep <;> cases hstep
      exact absurd rfl changed
  | stop =>
      cases hstep
      exact absurd rfl changed

theorem FeedInv.next {x : Session} {c c' : Cycle} {a : Action} (hp : Phase x c)
    (h : FeedInv x c) (hx : Continues x.S x.stream) (hok : HandsOver c a)
    (hstep : next x c a = some c') : FeedInv x c' := by
  obtain ⟨hsplit, htail, haccount, hquiet, hidle, hlastu⟩ := id h
  have hws := ws_of_held hp hstep
  cases next_move hp hstep with
  | quiet trace drained todo ready =>
      simp only [Cycle.trace, Trace.mk.injEq] at trace
      obtain ⟨hfed, hbuf, hheld, hin, hread, hlast, hgap⟩ := trace
      refine ⟨by rwa [hread, hin], by rwa [hheld, hread], ?_, hgap.trans hquiet, ?_,
        by rwa [hlast, hfed]⟩
      · simpa [hread, hfed, hheld, queued, drained, todo, hbuf] using haccount
      · rw [hlast]
        exact fun hr => hidle (by cases hc : c.main.ready <;> simp_all)
  | read f rest incoming idle main trace =>
      simp only [Cycle.trace, Trace.mk.injEq] at trace
      obtain ⟨hfed, hbuf, hheld, hin, hread, hlast, hgap⟩ := trace
      refine ⟨?_, ?_, ?_, hgap.trans hquiet, by rwa [main, hlast], by rwa [hlast, hfed]⟩
      · simpa [hread, hin, incoming] using hsplit
      · rw [hheld, hread]
        exact fun g hg => ⟨c.read, by rw [List.mem_singleton.mp hg]⟩
      · have := haccount
        simp only [idle, List.append_nil] at this
        simp [hread, hfed, hheld, queued, main, hbuf, this]
  | push f ws main trace =>
      have hf : held c.ws = [f] := by rw [ws]; rfl
      simp only [Cycle.trace, Trace.mk.injEq] at trace
      obtain ⟨hfed, hbuf, hheld, hin, hread, hlast, hgap⟩ := trace
      obtain rfl : a = .ws := hws (by simp [hheld, hf])
      refine ⟨by rwa [hread, hin], by simp [hheld], ?_, hgap.trans hquiet, by rwa [main, hlast],
        by rwa [hlast, hfed]⟩
      rw [hread, hfed, hheld, List.append_nil, haccount]
      cases hd : c.main.drained
      · simp [queued, main, hd, hbuf, hf]
      · -- a frame pushed behind the drain is not newer than the snapshot
        have hid : c.state.snapshotId = x.S := hp.stored (by
          cases hm : c.main <;> simp_all [MainPc.drained, MainPc.idStored])
        have hold : f.u ≤ x.S := by
          rw [← hid]
          simpa [HandsOver, ws, hd] using hok
        simp [queued, main, hd, hf, Nat.not_lt.mpr hold]
  | skip f ws main old trace =>
      have hf : held c.ws = [f] := by rw [ws]; rfl
      simp only [Cycle.trace, Trace.mk.injEq] at trace
      obtain ⟨hfed, hbuf, hheld, hin, hread, hlast, hgap⟩ := trace
      refine ⟨by rwa [hread, hin], by simp [hheld], ?_, hgap.trans hquiet, by rwa [main, hlast],
        by rwa [hlast, hfed]⟩
      rw [hread, hfed, hheld, List.append_nil, haccount, hf]
      simp [queued, main, hbuf, Nat.not_lt.mpr old]
  | refuse f ws main recent gap trace =>
      have hf : held c.ws = [f] := by rw [ws]; rfl
      simp only [Cycle.trace, Trace.mk.injEq] at trace
      obtain ⟨-, -, hheld, -, -, -, -⟩ := trace
      obtain rfl : a = .ws := hws (by simp [hheld, hf])
      have hfirst : c.lastU = 0 → c.fed = [] := by simpa [HandsOver, ws, recent] using hok
      rw [h.gapTest_false hp hx ws recent hfirst] at gap
      cases gap
  | feed f ws main recent gap trace =>
      have hf : held c.ws = [f] := by rw [ws]; rfl
      have hready := (hp.comparing f _ ws).1
      simp only [Cycle.trace, Trace.mk.injEq] at trace
      obtain ⟨hfed, hbuf, hheld, hin, hread, hlast, hgap⟩ := trace
      refine ⟨by rwa [hread, hin], by simp [hheld], ?_, hgap.trans hquiet, ?_, ?_⟩
      · rw [hread, hfed, hheld, List.append_nil, haccount, hf]
        simp [queued, main, MainPc.drained_of_ready hready, MainPc.todo_of_ready hready, recent]
      · rw [main, hready]
        exact fun hr => by cases hr
      · exact fun _ => ⟨f, by simp [hfed], hlast.symm⟩
  | drain main main' trace =>
      simp only [Cycle.trace, Trace.mk.injEq] at trace
      obtain ⟨hfed, hbuf, hheld, hin, hread, hlast, hgap⟩ := trace
      have hzero : c.lastU = 0 := hidle (by simp [main, MainPc.ready])
      refine ⟨by rwa [hread, hin], by rwa [hheld, hread], ?_, hgap.trans hquiet,
        fun _ => hlast.trans hzero, by rwa [hlast, hfed]⟩
      simpa [hread, hfed, hheld, queued, main, main', MainPc.drained, MainPc.todo] using haccount
  | visit d todo main main' trace =>
      simp only [Cycle.trace, Trace.mk.injEq] at trace
      obtain ⟨hfed, hbuf, hheld, hin, hread, hlast, hgap⟩ := trace
      have hzero : c.lastU = 0 := hidle (by simp [main, MainPc.ready])
      refine ⟨by rwa [hread, hin], by rwa [hheld, hread], ?_, hgap.trans hquiet,
        fun _ => hlast.trans hzero, fun hne => absurd (hlast.trans hzero) hne⟩
      rw [hread, haccount, hfed, hheld, newer_append, newer_append, ← List.append_assoc,
        ← List.append_assoc]
      congr 1
      simpa [queued, main, main', MainPc.drained, MainPc.todo] using
        (fed_feedBuffered c x.S d todo).symm

/-- Once the cycle is over, the frames fed are the newer frames read. -/
theorem FeedInv.noFalseGap {x : Session} {c : Cycle} (h : FeedInv x c)
    (hx : Continues x.S x.stream) : NoFalseGap x.S c := by
  refine ⟨h.quiet, ?_⟩
  rintro ⟨hdone, gap, hmain⟩ f hf hnew
  have hfed : newer x.S c.read = c.fed := by
    have := h.account
    simpa [queued, hmain, hdone, held, MainPc.drained, MainPc.todo] using this
  have hnodup : c.read.Nodup := by
    have hordered := hx.1.ordered
    rw [h.split] at hordered
    refine (List.pairwise_append.mp hordered).1.imp_of_mem fun {a b} ha hb hab => ?_
    rintro rfl
    have hwide : a.U ≤ a.u := hx.1.1 a (by rw [h.split]; exact List.mem_append_left _ ha)
    have hlt : a.u < a.U := hab
    omega
  rw [← hfed]
  exact List.count_eq_one_of_mem (hnodup.filter _) (mem_newer.mpr ⟨hf, hnew⟩)

/-- In every run that hands over cleanly, and under every interleaving, a stream that
continues the snapshot is fed completely and once, and no gap is reported. -/
theorem fed_once (x : Session) (hx : Continues x.S x.stream) {c : Cycle}
    (h : (machine x).Reach HandsOver c) : NoFalseGap x.S c := by
  have hinv : Phase x c ∧ FeedInv x c := by
    refine h.invariant (I := fun c => Phase x c ∧ FeedInv x c) ?_ ?_
    · rintro _ rfl
      exact ⟨.start x, .start x⟩
    · rintro c a c' ⟨hp, hf⟩ hok hstep
      exact ⟨hp.next hstep, hf.next hp hx hok hstep⟩
  exact hinv.2.noFalseGap hx

/-- A session whose buffered frame ends at the snapshot; the next frame goes live. -/
def clean : Session := { stream := [⟨1, 3, "a"⟩, ⟨4, 6, "b"⟩], S := 3, maxLiveFrames := 1 }

/-- One frame is buffered, the main thread goes live, the websocket thread takes `n` steps
and the main thread `m`. -/
def goLiveThen (n m : Nat) : List Action :=
  bufferThenMain 1 7 ++ List.replicate n .ws ++ List.replicate m .main

/-- `fed_once` at the end of a whole cycle of `clean`. -/
theorem fed_once_clean : ∃ c, (machine clean).Reach HandsOver c ∧ Finished c ∧
    c.read = clean.stream ∧ NoFalseGap clean.S c := by
  have hrun : (Lib.Machine.replay (next clean) (fun c a => decide (HandsOver c a))
      (start clean) (goLiveThen 8 1)).map (fun c => (c.ws, c.main, c.read)) =
        some (.done, .returned false, clean.stream) := by decide
  obtain ⟨c, hc, hend⟩ := Option.map_eq_some_iff.mp hrun
  simp only [Prod.mk.injEq] at hend
  obtain ⟨hdone, hmain, hread⟩ := hend
  have hreach := Lib.Machine.Reach.of_replay (fun _ _ => of_decide_eq_true) (.init rfl) hc
  exact ⟨c, hreach, ⟨hdone, false, hmain⟩, hread, fed_once clean (by decide) hreach⟩

/-- The contiguous stream of `steady` is reported as having a gap: its first frame is
drained and fed, and its second one, going live, is compared with `S + 1`. -/
theorem contiguous_stream_refused :
    Continues steady.S steady.stream ∧ ∃ c, (machine steady).Reach Lib.Machine.Any c ∧
      ¬ NoFalseGap steady.S c := by
  refine ⟨by decide, ?_⟩
  have hrun : (Lib.Machine.replay (next steady) (fun _ _ => true)
      (start steady) (goLiveThen 5 0)).map (·.state.gapDetected) = some true := by decide
  obtain ⟨c, hc, hgap⟩ := Option.map_eq_some_iff.mp hrun
  refine ⟨c, Lib.Machine.Reach.of_replay (fun _ _ _ => trivial) (.init rfl) hc, fun h => ?_⟩
  exact absurd h.1 (by simp [hgap])

end NanoVault.BinanceSync
