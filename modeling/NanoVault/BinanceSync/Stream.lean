/-
Frame streams and what a cycle may still feed.

A stream is `Contiguous` when no update id is left out between consecutive frames; what
the exchange delivers is a contiguous stream with frames missing (`FromExchange`), so
its frames stay in order (`FromExchange.ordered`). `Covers S fs` says that applying `fs`
on top of the snapshot `S` skips no update. `held` and `MainPc.todo` name frames that
have been read and not yet fed: the one the websocket thread holds, and those of the
drained list the main thread has not visited. `Phase` ties the two program counters to
the shared flags.
-/
import Mathlib.Data.List.Chain
import NanoVault.BinanceSync.Model

namespace NanoVault.BinanceSync

/-- `b` follows `a` with no update id in between. -/
def Follows (a b : Frame) : Prop := b.U = a.u + 1

instance : DecidableRel Follows := fun a b => inferInstanceAs (Decidable (b.U = a.u + 1))

/-- A stream with no id left out. -/
def Contiguous (fs : List Frame) : Prop := (∀ f ∈ fs, f.U ≤ f.u) ∧ fs.IsChain Follows

instance (fs : List Frame) : Decidable (Contiguous fs) := by
  unfold Contiguous; infer_instance

/-- What reaches the client: a contiguous stream, some frames of which may be missing. -/
def FromExchange (fs : List Frame) : Prop := ∃ full, Contiguous full ∧ fs.Sublist full

/-- Every id of the earlier frame is below the later frame. -/
def Before (a b : Frame) : Prop := a.u < b.U

/-- `fs` continues the snapshot `S`: the first frame reaches down to `S + 1` and no id is
left out after it. -/
def Covers (S : Nat) (fs : List Frame) : Prop :=
  (∀ f ∈ fs.head?, f.U ≤ S + 1) ∧ fs.IsChain Follows

instance (S : Nat) (fs : List Frame) : Decidable (Covers S fs) := by
  unfold Covers; infer_instance

/-- Frames without a gap come in order. -/
theorem Contiguous.ordered {fs : List Frame} (h : Contiguous fs) : fs.Pairwise Before := by
  obtain ⟨wide, chain⟩ := h
  induction fs with
  | nil => exact .nil
  | cons a rest ih =>
      have hrest := ih (fun f hf => wide f (List.mem_cons_of_mem _ hf)) chain.tail
      refine .cons (fun b hb => ?_) hrest
      cases rest with
      | nil => cases hb
      | cons c rest =>
          have hac : c.U = a.u + 1 := (List.isChain_cons_cons.mp chain).1
          have hc : c.U ≤ c.u := wide c (by simp)
          rcases List.mem_cons.mp hb with rfl | hb
          · show a.u < b.U
            omega
          · have hcb : c.u < b.U := List.rel_of_pairwise_cons hrest hb
            show a.u < b.U
            omega

/-- So do those of the exchange. -/
theorem FromExchange.ordered {fs : List Frame} (h : FromExchange fs) : fs.Pairwise Before := by
  obtain ⟨full, hfull, hsub⟩ := h
  exact hfull.ordered.sublist hsub

theorem covers_nil (S : Nat) : Covers S [] := ⟨by simp, .nil⟩

/-- Appending one frame to a covering list. -/
theorem Covers.snoc {S : Nat} {fs : List Frame} {f : Frame} (h : Covers S fs)
    (first : fs = [] → f.U ≤ S + 1) (later : ∀ b ∈ fs.getLast?, Follows b f) :
    Covers S (fs ++ [f]) := by
  refine ⟨?_, ?_⟩
  · cases fs with
    | nil => simpa using first rfl
    | cons a fs => simpa using h.1
  · exact List.isChain_append.mpr ⟨h.2, by simp, fun b hb c hc => by
      simp only [List.head?_cons, Option.mem_def, Option.some.injEq] at hc
      exact hc ▸ later b hb⟩

/-- The frames of a list of updates, sentinels dropped. -/
def frames (upds : List DepthUpdate) : List Frame :=
  upds.filterMap fun d => if d.sentinel then none else some d.toFrame

/-- The frames newer than the snapshot `S`. -/
def newer (S : Nat) (fs : List Frame) : List Frame := fs.filter fun f => S < f.u

@[simp] theorem frames_nil : frames [] = [] := rfl

@[simp] theorem frames_cons (d : DepthUpdate) (ds : List DepthUpdate) :
    frames (d :: ds) = (if d.sentinel then [] else [d.toFrame]) ++ frames ds := by
  cases h : d.sentinel <;> simp [frames, h]

@[simp] theorem frames_append (ds es : List DepthUpdate) :
    frames (ds ++ es) = frames ds ++ frames es := by
  simp [frames]

@[simp] theorem newer_nil (S : Nat) : newer S [] = [] := rfl

@[simp] theorem newer_append (S : Nat) (fs gs : List Frame) :
    newer S (fs ++ gs) = newer S fs ++ newer S gs :=
  List.filter_append _ _

/-- The frames that are newer than a snapshot. -/
theorem mem_newer {S : Nat} {fs : List Frame} {f : Frame} :
    f ∈ newer S fs ↔ f ∈ fs ∧ S < f.u := by
  simp [newer]

@[simp] theorem newer_cons (S : Nat) (f : Frame) (fs : List Frame) :
    newer S (f :: fs) = (if S < f.u then [f] else []) ++ newer S fs := by
  by_cases h : S < f.u <;> simp [newer, h]

/-- What a visit of the drained loop feeds. -/
theorem fed_feedBuffered (c : Cycle) (S : Nat) (d : DepthUpdate) (todo : List DepthUpdate) :
    (feedBuffered c S d todo).fed ++ newer S (frames todo) =
      c.fed ++ newer S (frames (d :: todo)) := by
  cases hd : d.sentinel
  · by_cases hu : d.u ≤ S
    · simp [feedBuffered, hd, hu]
    · simp [feedBuffered, hd, hu, Nat.not_le.mp hu]
  · simp [feedBuffered, hd]

/-- The frame the websocket thread has read and not yet disposed of. -/
def held : WsPc → List Frame
  | .received f | .buffering f | .live f | .comparing f _ => [f]
  | _ => []

def MainPc.drained : MainPc → Bool
  | .feeding _ _ | .joining | .returned _ => true
  | _ => false

/-- The drained frames the main thread has not visited. -/
def MainPc.todo : MainPc → List Frame
  | .feeding _ todo => frames todo
  | _ => []

/-- The snapshot id the main thread has in hand. -/
def MainPc.localId : MainPc → Option Nat
  | .fetched S | .stored S | .feeding S _ => some S
  | _ => none

def MainPc.idStored : MainPc → Bool
  | .stored _ | .feeding _ _ | .joining | .returned _ => true
  | _ => false

def MainPc.ready : MainPc → Bool
  | .joining | .returned _ => true
  | _ => false

theorem MainPc.idStored_of_ready {m : MainPc} (h : m.ready = true) : m.idStored = true := by
  cases m <;> first | rfl | cases h

theorem MainPc.drained_of_ready {m : MainPc} (h : m.ready = true) : m.drained = true := by
  cases m <;> first | rfl | cases h

theorem MainPc.todo_of_ready {m : MainPc} (h : m.ready = true) : m.todo = [] := by
  cases m <;> first | rfl | cases h

/-- The two threads agree on the snapshot: `snapshot_ready` is set exactly when the
drained list has been fed, and only then does a frame take the live path. -/
structure Phase (x : Session) (c : Cycle) : Prop where
  fetched : ∀ S ∈ c.main.localId, S = x.S
  stored : c.main.idStored = true → c.state.snapshotId = x.S
  ready : c.state.snapshotReady = c.main.ready
  live : ∀ f, c.ws = .live f → c.main.ready = true
  comparing : ∀ f S, c.ws = .comparing f S → c.main.ready = true ∧ S = x.S

theorem Phase.start (x : Session) : Phase x (start x) where
  fetched := by simp [BinanceSync.start, MainPc.localId]
  stored := by simp [BinanceSync.start, MainPc.idStored]
  ready := rfl
  live := by simp [BinanceSync.start]
  comparing := by simp [BinanceSync.start]

/-- What a step of the websocket thread leaves alone, and when it takes the live path. -/
theorem wsNext_shared {x : Session} {c c' : Cycle} (hstep : wsNext x c = some c') :
    c'.main = c.main ∧ c'.state.snapshotReady = c.state.snapshotReady ∧
      c'.state.snapshotId = c.state.snapshotId ∧
      (∀ f, c'.ws = .live f → c.state.snapshotReady = true) ∧
      ∀ f S, c'.ws = .comparing f S → c.ws = .live f ∧ S = c.state.snapshotId := by
  cases hws : c.ws with
  | loopHead =>
      simp only [wsNext, hws, Option.some.injEq] at hstep
      subst hstep
      refine ⟨rfl, rfl, rfl, fun f hf => ?_, fun f S hf => ?_⟩ <;>
        simp only at hf <;> split at hf <;> cases hf
  | reading =>
      cases hin : c.incoming with
      | nil => simp [wsNext, hws, hin] at hstep
      | cons f rest =>
          simp only [wsNext, hws, hin, Option.some.injEq] at hstep
          subst hstep
          simp
  | received f =>
      simp only [wsNext, hws, Option.some.injEq] at hstep
      subst hstep
      cases hr : c.state.snapshotReady <;> simp
  | comparing f S =>
      simp only [wsNext, hws, Option.some.injEq] at hstep
      subst hstep
      unfold judge feedLive
      split
      · simp
      · split <;> simp
  | _ => simp [wsNext, hws] at hstep <;> subst hstep <;> simp

/-- What a step of the main thread leaves alone, and how the snapshot travels. -/
theorem mainNext_shared {x : Session} {c c' : Cycle} (h : Phase x c)
    (hstep : mainNext x c = some c') :
    c'.ws = c.ws ∧ (∀ S ∈ c'.main.localId, S = x.S) ∧
      (c'.main.idStored = true → c'.state.snapshotId = x.S) ∧
      c'.state.snapshotReady = c'.main.ready ∧ (c.main.ready = true → c'.main.ready = true) := by
  obtain ⟨hfetched, hstored, hready, -, -⟩ := h
  cases hmain : c.main with
  | feeding S todo =>
      rw [hmain] at hfetched hstored hready
      cases todo with
      | nil =>
          simp only [mainNext, hmain, Option.some.injEq] at hstep
          subst hstep
          exact ⟨rfl, by simp [MainPc.localId], fun _ => hstored rfl, rfl, fun _ => rfl⟩
      | cons d todo =>
          simp only [mainNext, hmain, Option.some.injEq] at hstep
          subst hstep
          exact ⟨rfl, hfetched, fun _ => hstored rfl, hready, id⟩
  | waiting | aborting =>
      simp only [mainNext, hmain] at hstep
      split at hstep <;> cases hstep
      all_goals
        rw [hmain] at hready
        exact ⟨rfl, by simp [MainPc.localId], by simp [MainPc.idStored], hready,
          by simp [MainPc.ready]⟩
  | joining =>
      simp only [mainNext, hmain] at hstep
      split at hstep <;> cases hstep
      rw [hmain] at hstored hready
      exact ⟨rfl, by simp [MainPc.localId], fun _ => hstored rfl, hready, fun _ => rfl⟩
  | checkingError =>
      simp only [mainNext, hmain, Option.some.injEq] at hstep
      subst hstep
      rw [hmain] at hready
      cases c.state.wsError
      all_goals exact ⟨rfl, by simp [MainPc.localId], by simp [MainPc.idStored], hready, id⟩
  | fetching =>
      simp only [mainNext, hmain, Option.some.injEq] at hstep
      subst hstep
      rw [hmain] at hready
      exact ⟨rfl, by simp [MainPc.localId], by simp [MainPc.idStored], hready, id⟩
  | fetched S =>
      simp only [mainNext, hmain, Option.some.injEq] at hstep
      subst hstep
      rw [hmain] at hfetched hready
      exact ⟨rfl, hfetched, fun _ => hfetched S rfl, hready, id⟩
  | stored S =>
      simp only [mainNext, hmain, Option.some.injEq] at hstep
      subst hstep
      rw [hmain] at hfetched hstored hready
      exact ⟨rfl, hfetched, fun _ => hstored rfl, hready, id⟩
  | returned _ | aborted => simp [mainNext, hmain] at hstep

/-- Every step keeps the phases of the two threads in line. -/
theorem Phase.next {x : Session} {c c' : Cycle} {a : Action} (h : Phase x c)
    (hstep : next x c a = some c') : Phase x c' := by
  cases a with
  | ws =>
      obtain ⟨hmain, hr, hid, hl, hc⟩ := wsNext_shared hstep
      refine ⟨hmain ▸ h.fetched, by rw [hmain, hid]; exact h.stored, by rw [hr, hmain, h.ready],
        fun f hf => ?_, fun f S hf => ?_⟩
      · rw [hmain, ← h.ready]
        exact hl f hf
      · obtain ⟨hws, rfl⟩ := hc f S hf
        have hset := h.live f hws
        exact ⟨hmain ▸ hset, h.stored (MainPc.idStored_of_ready hset)⟩
  | wsThrow =>
      simp only [BinanceSync.next, wsThrow] at hstep
      split at hstep <;> cases hstep
      all_goals exact ⟨h.fetched, h.stored, h.ready, by simp, by simp⟩
  | main =>
      obtain ⟨hws, hfetched, hstored, hready, hmono⟩ := mainNext_shared h hstep
      refine ⟨hfetched, hstored, hready, fun f hf => ?_, fun f S hf => ?_⟩
      · exact hmono (h.live f (hws ▸ hf))
      · obtain ⟨hset, hS⟩ := h.comparing f S (hws ▸ hf)
        exact ⟨hmono hset, hS⟩
  | fetchThrow =>
      simp only [BinanceSync.next, fetchThrow] at hstep
      split at hstep <;> cases hstep
      rename_i hmain
      have hready := h.ready
      have hlive := h.live
      have hcomparing := h.comparing
      rw [hmain] at hready hlive hcomparing
      exact ⟨by simp [MainPc.localId], by simp [MainPc.idStored], hready, hlive, hcomparing⟩
  | stop =>
      cases hstep
      exact ⟨h.fetched, h.stored, h.ready, h.live, h.comparing⟩

end NanoVault.BinanceSync
