/-
The whole run of `BinanceSync::execute`: cycle after cycle, as long as each of them ends with a gap.

Before every cycle but the first `on_resync` is called and the book is cleared. So the number of
resyncs is bounded and `execute` says why it returns (`resyncs_bounded`), and the book holds the
snapshot and the frames of the latest cycle and nothing of the cycles before (`book_of_cycle`).

`resync_count` does not overflow here.
-/
import NanoVault.BinanceSync.Gap

namespace NanoVault.BinanceSync

/-- What is done to the book: the orders of a snapshot, or some of them before `fetch_snapshot`
throws, a frame, or `clear_book`. -/
inductive BookEvent where
  | snapshot (S : Nat)
  | partOfSnapshot
  | fed (f : Frame)
  | cleared
deriving DecidableEq, Repr

inductive ExecutePc where
  | loopHead
  /-- `stop_` was false; `resync_count` is compared next. -/
  | deciding
  /-- `on_resync` has been called; the book is cleared next. -/
  | clearing
  | cycling
  /-- `run_one_sync_cycle` has returned `gap`. -/
  | judging (gap : Bool)
  | returned
deriving DecidableEq, Repr

/-- What the cycles meet, one after the other, and `cfg_.max_resync_attempts`. -/
structure Surroundings where
  sessions : Nat → Session
  maxResyncAttempts : Int := 5

/-- `execute` with its latest cycle. `stopFlag` is the member `stop_` between two cycles; `book`,
`resyncs` and `errors` record what is done to the book and the calls of `on_resync` and
`on_error`. -/
structure Execution where
  pc : ExecutePc := .loopHead
  resyncCount : Nat := 0
  stopFlag : Bool := false
  current : Option (Session × Cycle) := none
  started : Nat := 0
  book : List BookEvent := []
  resyncs : List Nat := []
  errors : Nat := 0

namespace Execution

def startCycle (env : Surroundings) (e : Execution) : Execution :=
  let x := env.sessions e.started
  { e with
    pc := .cycling
    current := some (x, { start x with stopFlag := e.stopFlag })
    started := e.started + 1 }

def executeNext (env : Surroundings) (e : Execution) : Option Execution :=
  match e.pc with
  | .loopHead => some { e with pc := if e.stopFlag then .returned else .deciding }
  | .deciding =>
      if 0 < e.resyncCount then
        if env.maxResyncAttempts < e.resyncCount then
          some { e with errors := e.errors + 1, pc := .returned }
        else some { e with resyncs := e.resyncs ++ [e.resyncCount], pc := .clearing }
      else some (e.startCycle env)
  | .clearing => some (({ e with book := e.book ++ [.cleared] } : Execution).startCycle env)
  | .cycling =>
      match e.current with
      | none => none
      | some (_, c) =>
          match c.main with
          | .returned gap => some { e with pc := .judging gap, stopFlag := c.stopFlag }
          | .aborted => some { e with pc := .judging false, stopFlag := c.stopFlag }
          | _ => none
  | .judging gap =>
      if e.stopFlag || !gap then some { e with pc := .returned }
      else some { e with resyncCount := e.resyncCount + 1, pc := .loopHead }
  | .returned => none

/-- What a step of a cycle does to the book. -/
def bookEvents (c c' : Cycle) (a : Action) : List BookEvent :=
  match a, c.main, c'.main with
  | .main, .fetching, .fetched S => [.snapshot S]
  | .fetchThrow, _, _ => [.partOfSnapshot]
  | _, _, _ => (c'.fed.drop c.fed.length).map .fed

/-- A step of the cycle that is running. -/
def cycleNext (e : Execution) (a : Action) : Option Execution :=
  match e.pc, e.current with
  | .cycling, some (x, c) =>
      (next x c a).map fun c' =>
        { e with current := some (x, c'), book := e.book ++ bookEvents c c' a }
  | _, _ => none

end Execution

/-- The moves of `execute`: a step of its own or of its cycle, or `stop()` between two cycles. -/
inductive Label where
  | execute
  | cycle (a : Action)
  | stop
deriving DecidableEq, Repr

def Execution.next (env : Surroundings) (e : Execution) : Label → Option Execution
  | .execute => e.executeNext env
  | .cycle a => e.cycleNext a
  | .stop => if e.pc = .cycling then none else some { e with stopFlag := true }

/-- All runs of `execute`. -/
def execution (env : Surroundings) : Lib.Machine Execution Label :=
  .ofFun {} (Execution.next env)

/-! ### The book -/

/-- What has been done to the book since it was last cleared. -/
def sinceClear (events : List BookEvent) : List BookEvent :=
  events.foldl (fun es e => if e = .cleared then [] else es ++ [e]) []

@[simp] theorem sinceClear_nil : sinceClear [] = [] := rfl

@[simp] theorem sinceClear_cleared (events : List BookEvent) :
    sinceClear (events ++ [.cleared]) = [] := by
  simp [sinceClear]

/-- What is appended counts, unless the book is cleared. -/
theorem sinceClear_append (events new : List BookEvent) (hnew : .cleared ∉ new) :
    sinceClear (events ++ new) = sinceClear events ++ new := by
  induction new using List.reverseRecOn with
  | nil => simp
  | append_singleton new e ih =>
      have hne : e ≠ .cleared := fun he => hnew (by simp [he])
      have hrest := ih fun hmem => hnew (List.mem_append_left _ hmem)
      rw [← List.append_assoc, sinceClear, List.foldl_append]
      simp only [List.foldl_cons, List.foldl_nil, if_neg hne]
      rw [← sinceClear, hrest, List.append_assoc]

/-- What a cycle has loaded before its first frame: nothing up to the snapshot, then the
snapshot; in a cycle that is given up nothing or a part of it. -/
def Loads (x : Session) : MainPc → List BookEvent → Prop
  | .waiting, es | .checkingError, es | .fetching, es => es = []
  | .aborting, es | .aborted, es => es = [] ∨ es = [.partOfSnapshot]
  | _, es => es = [.snapshot x.S]

/-- A step feeds frames at the end, and none before the buffer is drained. -/
theorem fed_next {x : Session} {c c' : Cycle} {a : Action} (hp : Phase x c)
    (hearly : c.main.drained = false → c.fed = []) (hstep : next x c a = some c') :
    (∃ new, c'.fed = c.fed ++ new) ∧ (c'.main.drained = false → c'.fed = []) := by
  cases next_move hp hstep with
  | quiet trace drained _ _ =>
      have hfed : c'.fed = c.fed := congrArg Trace.fed trace
      exact ⟨⟨[], by simp [hfed]⟩, fun h => hfed.trans (hearly (drained ▸ h))⟩
  | read f rest _ _ main trace | push f _ main trace | skip f _ main _ trace
  | refuse f _ main _ _ trace =>
      have hfed : c'.fed = c.fed := congrArg Trace.fed trace
      exact ⟨⟨[], by simp [hfed]⟩, fun h => hfed.trans (hearly (main ▸ h))⟩
  | feed f ws main _ _ trace =>
      have hfed : c'.fed = c.fed ++ [f] := congrArg Trace.fed trace
      have hready := MainPc.drained_of_ready (hp.comparing f _ ws).1
      refine ⟨⟨[f], hfed⟩, fun h => ?_⟩
      rw [main, hready] at h
      cases h
  | drain main main' trace =>
      have hfed : c'.fed = c.fed := congrArg Trace.fed trace
      refine ⟨⟨[], by simp [hfed]⟩, fun h => ?_⟩
      rw [main'] at h
      cases h
  | visit d todo main main' trace =>
      have hfed : c'.fed = (feedBuffered c x.S d todo).fed := congrArg Trace.fed trace
      refine ⟨?_, fun h => ?_⟩
      · rw [hfed]
        unfold feedBuffered
        dsimp only
        split
        · exact ⟨[], by simp⟩
        · exact ⟨[d.toFrame], rfl⟩
      · rw [main'] at h
        cases h

/-- What a cycle has loaded and fed is what it has done to the book. -/
theorem loads_next {x : Session} {c c' : Cycle} {a : Action} {loaded : List BookEvent}
    (hp : Phase x c) (hearly : c.main.drained = false → c.fed = []) (hl : Loads x c.main loaded)
    (hstep : next x c a = some c') : ∃ loaded', Loads x c'.main loaded' ∧
      loaded' ++ c'.fed.map .fed =
        loaded ++ c.fed.map .fed ++ Execution.bookEvents c c' a := by
  obtain ⟨⟨new, hfed⟩, -⟩ := fed_next hp hearly hstep
  cases a with
  | ws =>
      refine ⟨loaded, (wsNext_shared hstep).1 ▸ hl, ?_⟩
      simp [Execution.bookEvents, hfed]
  | wsThrow =>
      have hmain : c'.main = c.main := by
        simp only [next, wsThrow] at hstep
        split at hstep <;> cases hstep <;> rfl
      refine ⟨loaded, hmain ▸ hl, ?_⟩
      simp [Execution.bookEvents, hfed]
  | main =>
      cases hmain : c.main with
      | fetching =>
          rw [hmain] at hl hearly
          simp only [next, mainNext, hmain, Option.some.injEq] at hstep
          subst hstep
          obtain rfl : loaded = [] := hl
          refine ⟨[.snapshot x.S], rfl, ?_⟩
          simp [Execution.bookEvents, hmain, hearly rfl]
      | checkingError =>
          rw [hmain] at hl
          simp only [next, mainNext, hmain, Option.some.injEq] at hstep
          subst hstep
          obtain rfl : loaded = [] := hl
          refine ⟨[], ?_, by simp [Execution.bookEvents, hmain]⟩
          cases c.state.wsError
          · exact rfl
          · exact .inl rfl
      | feeding S todo =>
          rw [hmain] at hl
          refine ⟨loaded, ?_, by simp [Execution.bookEvents, hmain, hfed]⟩
          cases todo <;> simp only [next, mainNext, hmain, Option.some.injEq] at hstep <;>
            subst hstep <;> exact hl
      | fetched S | stored S =>
          rw [hmain] at hl
          refine ⟨loaded, ?_, by simp [Execution.bookEvents, hmain, hfed]⟩
          simp only [next, mainNext, hmain, Option.some.injEq] at hstep
          subst hstep
          exact hl
      | waiting | joining | aborting =>
          rw [hmain] at hl
          refine ⟨loaded, ?_, by simp [Execution.bookEvents, hmain, hfed]⟩
          simp only [next, mainNext, hmain] at hstep
          split at hstep <;> cases hstep
          exact hl
      | returned gap | aborted => simp [next, mainNext, hmain] at hstep
  | fetchThrow =>
      simp only [next, fetchThrow] at hstep
      split at hstep <;> cases hstep
      rename_i hmain
      rw [hmain] at hl hearly
      obtain rfl : loaded = [] := hl
      refine ⟨[.partOfSnapshot], .inr rfl, ?_⟩
      simp [Execution.bookEvents, hearly rfl]
  | stop =>
      cases hstep
      exact ⟨loaded, hl, by simp [Execution.bookEvents]⟩

/-! ### Steps -/

variable {env : Surroundings} {e e' : Execution} {ok : Cycle → Action → Prop}

inductive Turn (env : Surroundings) (e : Execution) : Execution → Prop
  | enter : e.pc = .loopHead → e.stopFlag = false → Turn env e { e with pc := .deciding }
  | leave : e.pc = .loopHead → e.stopFlag = true → Turn env e { e with pc := .returned }
  | first : e.pc = .deciding → e.resyncCount = 0 → Turn env e (e.startCycle env)
  | giveUp : e.pc = .deciding → 0 < e.resyncCount → env.maxResyncAttempts < e.resyncCount →
      Turn env e { e with errors := e.errors + 1, pc := .returned }
  | resync : e.pc = .deciding → 0 < e.resyncCount → e.resyncCount ≤ env.maxResyncAttempts →
      Turn env e { e with resyncs := e.resyncs ++ [e.resyncCount], pc := .clearing }
  | clear : e.pc = .clearing →
      Turn env e (({ e with book := e.book ++ [.cleared] } : Execution).startCycle env)
  | finish (x : Session) (c : Cycle) (gap : Bool) : e.pc = .cycling → e.current = some (x, c) →
      c.main = .returned gap ∨ gap = false ∧ c.main = .aborted →
      Turn env e { e with pc := .judging gap, stopFlag := c.stopFlag }
  | done (gap : Bool) : e.pc = .judging gap → e.stopFlag = true ∨ gap = false →
      Turn env e { e with pc := .returned }
  | again : e.pc = .judging true → e.stopFlag = false →
      Turn env e { e with resyncCount := e.resyncCount + 1, pc := .loopHead }

/-- A step of the outer loop is one of its turns. -/
theorem executeNext_turn (h : e.executeNext env = some e') : Turn env e e' := by
  unfold Execution.executeNext at h
  split at h
  · rename_i hpc
    obtain rfl := Option.some.inj h
    by_cases hstop : e.stopFlag = true
    · rw [if_pos hstop]
      exact .leave hpc hstop
    · rw [if_neg hstop]
      exact .enter hpc (Bool.eq_false_iff.mpr hstop)
  · rename_i hpc
    split at h
    · rename_i hcount
      split at h
      · rename_i hmax
        cases h
        exact .giveUp hpc hcount hmax
      · rename_i hmax
        cases h
        exact .resync hpc hcount (by omega)
    · rename_i hcount
      cases h
      exact .first hpc (by omega)
  · rename_i hpc
    cases h
    exact .clear hpc
  · rename_i hpc
    split at h
    · cases h
    · rename_i x c hcurrent
      split at h
      · rename_i gap hmain
        cases h
        exact .finish x c gap hpc hcurrent (.inl hmain)
      · rename_i hmain
        cases h
        exact .finish x c false hpc hcurrent (.inr ⟨rfl, hmain⟩)
      · cases h
  · rename_i gap hpc
    split at h
    · rename_i hdone
      cases h
      exact .done gap hpc (by simpa using hdone)
    · rename_i hagain
      cases h
      simp only [Bool.or_eq_true, Bool.not_eq_true', not_or, Bool.not_eq_true, Bool.not_eq_false]
        at hagain
      rw [hagain.2] at hpc
      exact .again hpc hagain.1
  · cases h

/-- A step inside a cycle is one of the cycle. -/
theorem cycleNext_eq {a : Action} (h : e.cycleNext a = some e') :
    ∃ x c c', e.pc = .cycling ∧ e.current = some (x, c) ∧ next x c a = some c' ∧
      e' = { e with current := some (x, c'), book := e.book ++ Execution.bookEvents c c' a } := by
  unfold Execution.cycleNext at h
  split at h
  · rename_i x c hpc hcurrent
    obtain ⟨c', hstep, rfl⟩ := Option.map_eq_some_iff.mp h
    exact ⟨x, c, c', hpc, hcurrent, hstep, rfl⟩
  · cases h

/-- A condition on the steps of the cycles. -/
def InCycles (ok : Cycle → Action → Prop) (e : Execution) (l : Label) : Prop :=
  match l, e.current with
  | .cycle a, some (_, c) => ok c a
  | _, _ => True

instance [∀ c a, Decidable (ok c a)] (l : Label) : Decidable (InCycles ok e l) := by
  unfold InCycles; split <;> infer_instance

/-- A cycle that is called after `stop()` goes on as if it had been stopped at its start. -/
theorem reach_startCycle (hok : ∀ c, ok c .stop) (x : Session) (stop : Bool) :
    (machine x).Reach ok { start x with stopFlag := stop } := by
  cases stop with
  | false => exact .init rfl
  | true => exact .step (.init rfl) (hok _) rfl

/-- The latest cycle is a run of the cycle on what it meets. -/
structure CycleInv (env : Surroundings) (ok : Cycle → Action → Prop) (e : Execution) : Prop where
  met : ∀ x c, e.current = some (x, c) → ∃ n, x = env.sessions n
  reach : ∀ x c, e.current = some (x, c) → (machine x).Reach ok c
  fresh : e.current = none → e.book = []
  book : ∀ x c, e.current = some (x, c) → ∃ loaded, Loads x c.main loaded ∧
    sinceClear e.book = loaded ++ c.fed.map .fed

/-- Before the queue is drained nothing is fed. -/
theorem early {x : Session} {c : Cycle} (h : (machine x).Reach ok c) :
    Phase x c ∧ (c.main.drained = false → c.fed = []) := by
  refine h.invariant (I := fun c => Phase x c ∧ (c.main.drained = false → c.fed = [])) ?_ ?_
  · rintro _ rfl
    exact ⟨.start x, fun _ => rfl⟩
  · rintro c a c' ⟨hp, hearly⟩ - hstep
    exact ⟨hp.next hstep, (fed_next hp hearly hstep).2⟩

/-- At the start no cycle has begun. -/
theorem CycleInv.start : CycleInv env ok {} where
  met := by
    intro x c h
    cases h
  reach := by
    intro x c h
    cases h
  fresh _ := rfl
  book := by
    intro x c h
    cases h

/-- A cycle begins with a book that holds nothing. -/
theorem CycleInv.startCycle (hok : ∀ c, ok c .stop) (hempty : sinceClear e.book = []) :
    CycleInv env ok (e.startCycle env) where
  met := by
    rintro x c ⟨⟩
    exact ⟨e.started, rfl⟩
  reach := by
    rintro x c ⟨⟩
    exact reach_startCycle hok _ _
  fresh := nofun
  book := by
    rintro x c ⟨⟩
    exact ⟨[], rfl, hempty⟩

/-- The steps between two cycles leave the latest one and the book as they are. -/
theorem CycleInv.same (h : CycleInv env ok e) (hcurrent : e'.current = e.current)
    (hbook : e'.book = e.book) : CycleInv env ok e' where
  met := by
    rw [hcurrent]
    exact h.met
  reach := by
    rw [hcurrent]
    exact h.reach
  fresh := by
    rw [hcurrent, hbook]
    exact h.fresh
  book := by
    rw [hcurrent, hbook]
    exact h.book

theorem cleared_notMem (c c' : Cycle) (a : Action) :
    BookEvent.cleared ∉ Execution.bookEvents c c' a := by
  unfold Execution.bookEvents
  intro hmem
  split at hmem
  · cases hmem with
    | tail _ h => cases h
  · cases hmem with
    | tail _ h => cases h
  · obtain ⟨_, _, hne⟩ := List.mem_map.mp hmem
    cases hne

/-- Every step keeps the book that of the latest cycle. -/
theorem CycleInv.next {l : Label} (hok : ∀ c, ok c .stop) (h : CycleInv env ok e)
    (hno : e.pc = .deciding → e.resyncCount = 0 → e.current = none)
    (hl : InCycles ok e l) (hstep : Execution.next env e l = some e') : CycleInv env ok e' := by
  cases l with
  | execute =>
      cases executeNext_turn hstep with
      | first hpc hcount =>
          apply CycleInv.startCycle hok
          rw [h.fresh (hno hpc hcount)]
          rfl
      | clear hpc => exact CycleInv.startCycle hok (sinceClear_cleared e.book)
      | _ => exact h.same rfl rfl
  | cycle a =>
      obtain ⟨x, c, c', -, hcurrent, hcycle, rfl⟩ := cycleNext_eq hstep
      have hreach := h.reach x c hcurrent
      obtain ⟨hp, hearly⟩ := early hreach
      obtain ⟨loaded, hloads, hbook⟩ := h.book x c hcurrent
      obtain ⟨loaded', hloads', hevents⟩ := loads_next hp hearly hloads hcycle
      refine ⟨?_, ?_, nofun, ?_⟩
      · rintro _ _ ⟨⟩
        exact h.met x c hcurrent
      · rintro _ _ ⟨⟩
        exact .step hreach (by simpa only [InCycles, hcurrent] using hl) hcycle
      · rintro _ _ ⟨⟩
        refine ⟨loaded', hloads', ?_⟩
        rw [sinceClear_append _ _ (cleared_notMem c c' a), hbook, hevents]
  | stop =>
      simp only [Execution.next] at hstep
      split at hstep <;> cases hstep
      exact h.same rfl rfl

/-! ### Counting -/

/-- `run_one_sync_cycle` has returned `gap` for the latest cycle; a cycle that is given up
returns false. -/
def Latest (e : Execution) (gap : Bool) : Prop :=
  ∃ x c, e.current = some (x, c) ∧ (c.main = .returned gap ∨ gap = false ∧ c.main = .aborted)

/-- Why `execute` has returned: it was stopped, or its latest cycle saw no gap, or every cycle saw
one and the attempts are used up. -/
inductive Ended (env : Surroundings) (e : Execution) : Prop
  | settled : e.stopFlag = true ∨ Latest e false → e.errors = 0 →
      e.resyncs.length ≤ e.started → e.started ≤ e.resyncs.length + 1 → Ended env e
  | exceeded : Latest e true → e.errors = 1 →
      (e.resyncs.length : Int) = max 0 env.maxResyncAttempts →
      e.started = e.resyncs.length + 1 → Ended env e

/-- What the counters are at each place of `execute`. -/
def Stage (env : Surroundings) (e : Execution) : Prop :=
  match e.pc with
  | .loopHead | .deciding =>
      e.resyncs.length = e.resyncCount - 1 ∧ e.started = e.resyncCount ∧ e.errors = 0 ∧
        (e.resyncCount = 0 → e.current = none) ∧ (0 < e.resyncCount → Latest e true)
  | .clearing =>
      e.resyncs.length = e.resyncCount ∧ e.started = e.resyncCount ∧ e.errors = 0
  | .cycling =>
      e.resyncs.length = e.resyncCount ∧ e.started = e.resyncCount + 1 ∧ e.errors = 0
  | .judging gap =>
      e.resyncs.length = e.resyncCount ∧ e.started = e.resyncCount + 1 ∧ e.errors = 0 ∧
        Latest e gap
  | .returned => Ended env e

/-- The calls of `on_resync` count up from one and are no more than allowed. -/
structure CountInv (env : Surroundings) (e : Execution) : Prop where
  ascending : e.resyncs = List.range' 1 e.resyncs.length
  bounded : (e.resyncs.length : Int) ≤ max 0 env.maxResyncAttempts
  stage : Stage env e

/-- At the start nothing is counted. -/
theorem CountInv.start : CountInv env {} where
  ascending := rfl
  bounded := Int.le_max_left ..
  stage := ⟨rfl, rfl, rfl, fun _ => rfl, fun h => absurd h (Nat.lt_irrefl 0)⟩

/-- A turn of the outer loop keeps the count of resyncs. -/
theorem CountInv.turn (h : CountInv env e) (hturn : Turn env e e') : CountInv env e' := by
  obtain ⟨hascending, hbounded, hstage⟩ := h
  unfold Stage at hstage
  cases hturn with
  | enter hpc hstop =>
      rw [hpc] at hstage
      exact ⟨hascending, hbounded, hstage⟩
  | leave hpc hstop =>
      rw [hpc] at hstage
      obtain ⟨hlength, hstarted, herrors, -, -⟩ := hstage
      refine ⟨hascending, hbounded, .settled (.inl hstop) herrors ?_ ?_⟩
      · dsimp only
        omega
      · dsimp only
        omega
  | first hpc hcount =>
      rw [hpc] at hstage
      obtain ⟨hlength, hstarted, herrors, -, -⟩ := hstage
      refine ⟨hascending, hbounded, ?_, congrArg (· + 1) hstarted, herrors⟩
      rw [hcount] at hlength
      exact hlength.trans hcount.symm
  | giveUp hpc hcount hmax =>
      rw [hpc] at hstage
      obtain ⟨hlength, hstarted, herrors, -, hlatest⟩ := hstage
      refine ⟨hascending, hbounded, .exceeded (hlatest hcount) (congrArg (· + 1) herrors) ?_ ?_⟩
      · dsimp only
        omega
      · dsimp only
        omega
  | resync hpc hcount hmax =>
      rw [hpc] at hstage
      obtain ⟨hlength, hstarted, herrors, -, -⟩ := hstage
      have hlast : e.resyncCount = 1 + e.resyncs.length := by omega
      refine ⟨?_, ?_, ?_, hstarted, herrors⟩
      · dsimp only
        rw [List.length_append, List.length_singleton, List.range'_1_concat, ← hascending, ← hlast]
      · dsimp only
        rw [List.length_append, List.length_singleton]
        omega
      · dsimp only
        rw [List.length_append, List.length_singleton]
        omega
  | clear hpc =>
      rw [hpc] at hstage
      obtain ⟨hlength, hstarted, herrors⟩ := hstage
      exact ⟨hascending, hbounded, hlength, congrArg (· + 1) hstarted, herrors⟩
  | finish x c gap hpc hcurrent hmain =>
      rw [hpc] at hstage
      obtain ⟨hlength, hstarted, herrors⟩ := hstage
      exact ⟨hascending, hbounded, hlength, hstarted, herrors, x, c, hcurrent, hmain⟩
  | done gap hpc hwhy =>
      rw [hpc] at hstage
      obtain ⟨hlength, hstarted, herrors, hlatest⟩ := hstage
      refine ⟨hascending, hbounded, .settled ?_ herrors ?_ ?_⟩
      · rcases hwhy with hstop | rfl
        · exact .inl hstop
        · exact .inr hlatest
      · dsimp only
        omega
      · dsimp only
        omega
  | again hpc hstop =>
      rw [hpc] at hstage
      obtain ⟨hlength, hstarted, herrors, hlatest⟩ := hstage
      exact ⟨hascending, hbounded, hlength, hstarted, herrors,
        fun hcount => absurd hcount (Nat.succ_ne_zero _), fun _ => hlatest⟩

theorem Ended.stop (h : Ended env e) : Ended env { e with stopFlag := true } := by
  cases h with
  | settled _ herrors hlow hhigh => exact .settled (.inl rfl) herrors hlow hhigh
  | exceeded hlatest herrors hlength hstarted =>
      exact .exceeded hlatest herrors hlength hstarted

/-- So does every step. -/
theorem CountInv.next {l : Label} (h : CountInv env e)
    (hstep : Execution.next env e l = some e') : CountInv env e' := by
  cases l with
  | execute => exact h.turn (executeNext_turn hstep)
  | cycle a =>
      obtain ⟨x, c, c', hpc, -, -, rfl⟩ := cycleNext_eq hstep
      refine ⟨h.ascending, h.bounded, ?_⟩
      have hstage := h.stage
      simp only [Stage, hpc] at hstage ⊢
      exact hstage
  | stop =>
      simp only [Execution.next] at hstep
      split at hstep <;> cases hstep
      refine ⟨h.ascending, h.bounded, ?_⟩
      have hstage := h.stage
      unfold Stage at hstage ⊢
      cases hpc : e.pc <;> simp only [hpc] at hstage ⊢
      case returned => simpa only [hpc] using hstage.stop
      all_goals exact hstage

/-- Before the first cycle there is none. -/
theorem CountInv.none_of_first (h : CountInv env e) (hpc : e.pc = .deciding)
    (hcount : e.resyncCount = 0) : e.current = none := by
  have hstage := h.stage
  simp only [Stage, hpc] at hstage
  exact hstage.2.2.2.1 hcount

/-! ### Runs -/

/-- Both hold in every state reached. -/
theorem execution_inv (hok : ∀ c, ok c .stop) (h : (execution env).Reach (InCycles ok) e) :
    CountInv env e ∧ CycleInv env ok e := by
  refine h.invariant (I := fun e => CountInv env e ∧ CycleInv env ok e) ?_ ?_
  · rintro _ rfl
    exact ⟨.start, .start⟩
  · rintro e l e' ⟨hcount, hcycle⟩ hl hstep
    exact ⟨hcount.next hstep, hcycle.next hok hcount.none_of_first hl hstep⟩

/-- Every run is one whose cycles take any steps. -/
theorem reach_inCycles (h : (execution env).Reach Lib.Machine.Any e) :
    (execution env).Reach (InCycles fun _ _ => True) e := by
  refine h.mono fun e l _ => ?_
  unfold InCycles
  split <;> trivial

/-- In every run `on_resync` is called with 1, 2, 3 and so on, at most `max_resync_attempts`
times, `on_error` at most once, and `execute` returns only when it was stopped, when a cycle ended
without a gap, or when the attempts are used up. -/
theorem resyncs_bounded (env : Surroundings) {e : Execution}
    (h : (execution env).Reach Lib.Machine.Any e) :
    (∃ n : Nat, e.resyncs = List.range' 1 n ∧ (n : Int) ≤ max 0 env.maxResyncAttempts) ∧
      e.resyncs.length ≤ e.started ∧ e.started ≤ e.resyncs.length + 1 ∧
      (e.pc ≠ .returned → e.errors = 0) ∧ (e.pc = .returned → Ended env e) := by
  obtain ⟨hascending, hbounded, hstage⟩ :=
    (execution_inv (fun _ => trivial) (reach_inCycles h)).1
  refine ⟨⟨_, hascending, hbounded⟩, ?_⟩
  unfold Stage at hstage
  cases hpc : e.pc with
  | loopHead | deciding =>
      simp only [hpc] at hstage
      exact ⟨by omega, by omega, fun _ => hstage.2.2.1, nofun⟩
  | clearing | cycling =>
      simp only [hpc] at hstage
      exact ⟨by omega, by omega, fun _ => hstage.2.2, nofun⟩
  | judging gap =>
      simp only [hpc] at hstage
      exact ⟨by omega, by omega, fun _ => hstage.2.2.1, nofun⟩
  | returned =>
      simp only [hpc] at hstage
      refine ⟨?_, ?_, fun h => absurd rfl h, fun _ => hstage⟩
      · cases hstage with
        | settled _ _ hlow _ => exact hlow
        | exceeded _ _ _ hstarted => omega
      · cases hstage with
        | settled _ _ _ hhigh => exact hhigh
        | exceeded _ _ _ hstarted => omega

/-- The updates 6 to 9 arrive in no cycle. -/
def persistent : Surroundings where
  sessions _ := { stream := [⟨1, 5, "a"⟩, ⟨10, 12, "b"⟩], S := 3 }
  maxResyncAttempts := 1

/-- The first frame is drained and fed. -/
def untilDrained : List Label := (bufferThenMain 1 7).map .cycle

/-- The second one, which comes live, shows the gap. -/
def untilGap : List Label :=
  untilDrained ++ (List.replicate 7 Action.ws ++ [Action.main]).map .cycle

/-- `resyncs_bounded` when both attempts of `persistent` have failed. -/
theorem resyncs_bounded_persistent : ∃ e, (execution persistent).Reach Lib.Machine.Any e ∧
    e.resyncs = [1] ∧ Ended persistent e := by
  have hrun : (Lib.Machine.replay (Execution.next persistent) (fun _ _ => true) {}
      (List.replicate 2 .execute ++ untilGap ++ List.replicate 5 .execute ++ untilGap ++
        List.replicate 4 .execute)).map (fun e => (e.pc, e.resyncs)) = some (.returned, [1]) := by
    decide +kernel
  obtain ⟨e, he, hend⟩ := Option.map_eq_some_iff.mp hrun
  obtain ⟨hpc, hresyncs⟩ := Prod.mk.inj hend
  have hreach := Lib.Machine.Reach.of_replay (fun _ _ _ => trivial) (.init rfl) he
  exact ⟨e, hreach, hresyncs, (resyncs_bounded persistent hreach).2.2.2.2 hpc⟩

/-- In a cycle that drains no gap the frames fed so far are newer than the snapshot and continue
it, whether or not the cycle has seen a gap since. -/
theorem fed_covered {x : Session} {c : Cycle} (hx : FromExchange x.stream)
    (h : (machine x).Reach DrainsGapFree c) :
    (∀ f ∈ c.fed, x.S < f.u) ∧ Covers x.S c.fed := by
  have hinv : Phase x c ∧ GapInv x c := by
    refine h.invariant (I := fun c => Phase x c ∧ GapInv x c) ?_ ?_
    · rintro _ rfl
      exact ⟨.start x, .start hx⟩
    · rintro c a c' ⟨hp, hg⟩ hok hstep
      exact ⟨hp.next hstep, hg.next hp hok hstep⟩
  have hcovers := hinv.2.covers
  refine ⟨hinv.2.recent, ?_, (List.isChain_append.mp hcovers.2).1⟩
  intro f hf
  apply hcovers.1
  cases hfed : c.fed with
  | nil => simp [hfed] at hf
  | cons b bs => simpa [hfed] using hf

/-- However many cycles have gone before, the book holds what the latest one has loaded and the
frames it has fed, in their order; and if the frames of its session come from the exchange and no
cycle has drained a gap, those it has fed continue the snapshot without leaving an update out. -/
theorem book_of_cycle (env : Surroundings) {e : Execution}
    (h : (execution env).Reach Lib.Machine.Any e) {x : Session} {c : Cycle}
    (hc : e.current = some (x, c)) :
    (∃ loaded, Loads x c.main loaded ∧ sinceClear e.book = loaded ++ c.fed.map .fed) ∧
      (FromExchange x.stream → (execution env).Reach (InCycles DrainsGapFree) e →
        (∀ f ∈ c.fed, x.S < f.u) ∧ Covers x.S c.fed) := by
  constructor
  · exact (execution_inv (fun _ => trivial) (reach_inCycles h)).2.book x c hc
  · intro hx hgapFree
    have hcycle := (execution_inv (fun _ => trivial) hgapFree).2
    exact fed_covered hx (hcycle.reach x c hc)

/-- `book_of_cycle` in the second cycle of `persistent`, once the first frame has been drained. -/
theorem book_of_cycle_persistent : ∃ e, (execution persistent).Reach (InCycles DrainsGapFree) e ∧
    e.resyncs = [1] ∧ ∃ x c, e.current = some (x, c) ∧
      (∃ loaded, Loads x c.main loaded ∧ sinceClear e.book = loaded ++ c.fed.map .fed) ∧
      (∀ f ∈ c.fed, x.S < f.u) ∧ Covers x.S c.fed := by
  have hx : FromExchange [⟨1, 5, "a"⟩, ⟨10, 12, "b"⟩] :=
    ⟨[⟨1, 5, "a"⟩, ⟨6, 9, ""⟩, ⟨10, 12, "b"⟩], by decide, by decide⟩
  have hrun : (Lib.Machine.replay (Execution.next persistent)
      (fun e l => decide (InCycles DrainsGapFree e l)) {}
      (List.replicate 2 .execute ++ untilGap ++ List.replicate 5 .execute ++ untilDrained)).map
        (fun e => (e.resyncs, e.current.isSome)) = some ([1], true) := by
    decide +kernel
  obtain ⟨e, he, hend⟩ := Option.map_eq_some_iff.mp hrun
  obtain ⟨hresyncs, hcurrent⟩ := Prod.mk.inj hend
  obtain ⟨⟨x, c⟩, hc⟩ := Option.isSome_iff_exists.mp hcurrent
  have hreach := Lib.Machine.Reach.of_replay (fun _ _ => of_decide_eq_true) (.init rfl) he
  obtain ⟨n, rfl⟩ := (execution_inv (fun _ => trivial) hreach).2.met x c hc
  obtain ⟨hbook, hcovered⟩ := book_of_cycle persistent (hreach.mono fun _ _ _ => trivial) hc
  exact ⟨e, hreach, hresyncs, _, c, hc, hbook, hcovered hx hreach⟩

end NanoVault.BinanceSync
