/-
The runs of `MPMCQueue`.

Each step of a thread keeps the invariant, so long as no compare-and-swap acts on a position that
is 2^64 claims old and there is more than one slot; and the invariant says that no item is lost,
returned twice or overwritten (`delivered_iff`).
-/
import NanoVault.Utils.MpmcQueue

namespace NanoVault.Utils.Mpmc

open Lib

variable {T : Type} {c : Hft.Capacity} {s s' : State T} {k : Nat} {pc : Pc T}

namespace State.Inv

/-- A thread without a position of its own goes where it has none. -/
theorem move {old : Pc T} (h : s.Inv c) (hpc : s.threads k = old) (hreads : old.reads = none)
    (hwritesNot : pc.writes = none) (hreadsNot : pc.reads = none) (hok : pc.Ok c s) :
    (s.goto k pc).Inv c :=
  { h with
    pending := fun p hp => h.pending_goto hpc (fun q hq => by simp [hreads] at hq) hp
    held := fun p x hx hout hnot =>
      h.held_goto hpc hx hout (fun y hold => by simp [hold, Pc.reads] at hreads) hnot
    thread := ok_goto hok fun l _ => h.thread l
    writer := unique_goto h.writer fun l p _ hp => by simp [hwritesNot] at hp
    reader := unique_goto h.reader fun l p _ hp => by simp [hreadsNot] at hp }

/-! ### The steps of `enqueue` -/

section Enqueue

variable {item : T} {pos : Nat}

/-- `enqueue` claims the next position. -/
theorem claim (h : s.Inv c) (hpc : s.threads k = .enqCas item s.enqueuePos) :
    ({ s with enqueuePos := s.enqueuePos + 1, claimed := s.claimed ++ [item] }.goto k
      (.enqWrite item s.enqueuePos)).Inv c := by
  have hnew : ¬ s.Enqueued s.enqueuePos := fun hin => Nat.lt_irrefl _ (h.lt_of_enqueued hin)
  have hgrows : Grows s
      { s with enqueuePos := s.enqueuePos + 1, claimed := s.claimed ++ [item] } :=
    ⟨Nat.le_succ _, Nat.le_refl _, List.prefix_append _ _, List.Subset.refl _,
      List.Subset.refl _⟩
  have hknown := h.thread k
  rw [hpc] at hknown
  exact { h with
    claims := by
      show (s.claimed ++ [item]).length = s.enqueuePos + 1
      rw [List.length_append, h.claims]
      rfl
    item := fun p x hx => hgrows.getElem?_claimed (h.item p x hx)
    free := by
      intro p hp
      obtain hlt | heq := Nat.lt_succ_iff_lt_or_eq.mp hp
      · exact h.free p hlt
      · rw [heq]
        exact hknown.2 rfl
    pending := fun p hp => h.pending_goto hpc nofun hp
    held := fun p x hx hout hnot => h.held_goto hpc hx hout nofun hnot
    thread := by
      apply ok_goto
      · refine ⟨hnew, ?_⟩
        rw [← h.claims]
        exact List.getElem?_concat_length
      · intro l _
        exact (h.thread l).grows hgrows (fun _ _ => id) (fun _ _ => id) fun _ _ _ => rfl
    writer := by
      refine unique_goto h.writer fun l p _ hp hl => ?_
      cases hp
      exact Nat.lt_irrefl _ (h.of_writes rfl hl).1
    reader := unique_goto h.reader nofun }

/-- `enqueue` writes its item, where no other is. -/
theorem write (h : s.Inv c) (hpc : s.threads k = .enqWrite item pos) :
    ((s.writeSlot (pos % c.size) { s.slots (pos % c.size) with data := item }).goto k
      (.enqPublish item pos)).Inv c := by
  obtain ⟨-, hnew⟩ := h.of_writes hpc rfl
  have hknown := h.thread k
  rw [hpc] at hknown
  exact { h with
    pending := fun p hp => h.pending_goto hpc nofun hp
    full := by
      intro p hin hout
      rw [slots_goto, sequence_writeSlot]
      exact h.full p hin hout
    empty := by
      intro p hin hfree
      rw [slots_goto, sequence_writeSlot]
      exact h.empty p hin hfree
    held := by
      intro p x hx hout hnot
      have hne : p ≠ pos := by
        rintro rfl
        exact hnew ⟨x, hx⟩
      rw [slots_goto, slots_of_ne (h.apart_of_writes hpc rfl (h.free_of_enqueued ⟨x, hx⟩) hout hne)]
      exact h.held_goto hpc hx hout nofun hnot
    thread := by
      apply ok_goto
      · refine ⟨hnew, hknown.2, ?_⟩
        rw [slots_self]
      · intro l hl
        refine (h.thread l).grows ⟨Nat.le_refl _, Nat.le_refl _, List.prefix_refl _,
          List.Subset.refl _, List.Subset.refl _⟩ (fun _ _ => id) (fun _ _ => id) ?_
        intro item' p hp
        obtain ⟨hlt', hin⟩ := h.of_writes hp rfl
        have hne : p ≠ pos := by
          rintro rfl
          exact hl (h.writer_eq hpc rfl (by rw [hp]; rfl))
        rw [slots_of_ne (h.apart_of_writes hpc rfl (h.free p hlt') (h.not_dequeued hin) hne)]
    writer := by
      refine unique_goto h.writer fun l p hl hp hother => ?_
      cases hp
      exact hl (h.writer_eq hpc rfl hother)
    reader := unique_goto h.reader nofun }

/-- `enqueue` publishes its item and returns true. -/
theorem publish (h : s.Inv c) (hpc : s.threads k = .enqPublish item pos) :
    (({ s with enqueued := s.enqueued ++ [(pos, item)] }.writeSlot (pos % c.size)
      { s.slots (pos % c.size) with sequence := pos + 1 }).goto k .idle).Inv c := by
  obtain ⟨-, hnew⟩ := h.of_writes hpc rfl
  have hknown := h.thread k
  rw [hpc] at hknown
  obtain ⟨-, hclaimed, hdata⟩ := hknown
  exact { h with
    item := by
      intro p x hx
      obtain hold | heq := List.mem_append.mp hx
      · exact h.item p x hold
      · cases List.mem_singleton.mp heq
        exact hclaimed
    same := fun e he => List.mem_append_left _ (h.same e he)
    onceIn := nodup_concat h.onceIn hnew
    filled := fun p hp => exists_mem_concat.mpr (.inl (h.filled p hp))
    pending := fun p hp => h.pending_goto hpc nofun hp
    full := by
      intro p hin hout
      by_cases hne : p = pos
      · subst hne
        rw [slots_goto, slots_self]
      · have hin := (exists_mem_concat.mp hin).resolve_right hne
        rw [slots_goto, slots_of_ne (h.apart_of_writes hpc rfl (h.free_of_enqueued hin) hout hne)]
        exact h.full p hin hout
    empty := by
      intro p hin hfree
      obtain ⟨hin, hne⟩ := not_or.mp (mt exists_mem_concat.mpr hin)
      rw [slots_goto, slots_of_ne (h.apart_of_writes hpc rfl hfree (h.not_dequeued hin) hne)]
      exact h.empty p hin hfree
    held := by
      intro p x hx hout hnot
      rw [slots_goto, data_writeSlot (s := { s with enqueued := s.enqueued ++ [(pos, item)] })]
      obtain hold | heq := List.mem_append.mp hx
      · exact h.held_goto hpc hold hout nofun hnot
      · cases List.mem_singleton.mp heq
        exact hdata
    thread := by
      apply ok_goto
      · trivial
      · intro l hl
        refine (h.thread l).grows ⟨Nat.le_refl _, Nat.le_refl _, List.prefix_refl _,
          List.subset_append_left _ _, List.Subset.refl _⟩ (fun p hp hin => ?_) (fun _ _ => id)
          fun _ _ _ => data_writeSlot _ _ _
        refine (exists_mem_concat.mp hin).resolve_right fun heq => ?_
        subst heq
        exact hl (h.writer_eq hpc rfl hp)
    writer := unique_goto h.writer nofun
    reader := unique_goto h.reader nofun }

end Enqueue

/-! ### The steps of `dequeue` -/

section Dequeue

variable {item rest : T} {pos : Nat}

/-- `dequeue` claims the next position. -/
theorem claimOut (h : s.Inv c) (hpc : s.threads k = .deqCas s.dequeuePos) :
    ({ s with dequeuePos := s.dequeuePos + 1 }.goto k (.deqRead s.dequeuePos)).Inv c := by
  have hknown := h.thread k
  rw [hpc] at hknown
  exact { h with
    filled := by
      intro p hp
      obtain hlt | heq := Nat.lt_succ_iff_lt_or_eq.mp hp
      · exact h.filled p hlt
      · rw [heq]
        exact hknown.2 rfl
    passed := fun p hp => Nat.lt_succ_of_lt (h.passed p hp)
    pending := by
      intro p hp
      obtain hlt | heq := Nat.lt_succ_iff_lt_or_eq.mp hp
      · exact h.pending_goto hpc nofun hlt
      · refine .inr ⟨k, ?_⟩
        rw [threads_self, heq]
        rfl
    held := fun p x hx hout hnot => h.held_goto hpc hx hout nofun hnot
    thread := by
      apply ok_goto
      · exact ⟨Nat.lt_succ_self _, fun hout => Nat.lt_irrefl _ (h.passed _ hout)⟩
      · intro l _
        exact (h.thread l).grows ⟨Nat.le_refl _, Nat.le_succ _, List.prefix_refl _,
          List.Subset.refl _, List.Subset.refl _⟩ (fun _ _ => id) (fun _ _ => id) fun _ _ _ => rfl
    writer := unique_goto h.writer nofun
    reader := by
      refine unique_goto h.reader fun l p _ hp hl => ?_
      cases hp
      exact Nat.lt_irrefl _ (h.of_reads rfl hl).1 }

/-- `dequeue` moves the item out of its slot. -/
theorem read (h : s.Inv c) (hpc : s.threads k = .deqRead pos) :
    ((s.writeSlot (pos % c.size) { s.slots (pos % c.size) with data := rest }).goto k
      (.deqPublish (s.slots (pos % c.size)).data pos)).Inv c := by
  obtain ⟨hlt, hnew⟩ := h.of_reads hpc rfl
  obtain ⟨x, hx⟩ := h.filled pos hlt
  have hdata : (s.slots (pos % c.size)).data = x := by
    refine h.held pos x hx hnew fun l y hl => ?_
    cases h.reader_eq hpc rfl (by rw [hl]; rfl)
    rw [hpc] at hl
    cases hl
  exact { h with
    pending := by
      refine fun p hp => h.pending_goto hpc (fun q hq => ?_) hp
      exact hq
    full := by
      intro p hin hout
      rw [slots_goto, sequence_writeSlot]
      exact h.full p hin hout
    empty := by
      intro p hin hfree
      rw [slots_goto, sequence_writeSlot]
      exact h.empty p hin hfree
    held := by
      intro p y hy hout hnot
      have hne : p ≠ pos := by
        rintro rfl
        exact hnot k _ (threads_self k _)
      rw [slots_goto, slots_of_ne (h.apart_of_reads hpc rfl (h.free_of_enqueued ⟨y, hy⟩) hout hne)]
      exact h.held_goto hpc hy hout nofun hnot
    thread := by
      apply ok_goto
      · refine ⟨hlt, hnew, ?_⟩
        rw [hdata]
        exact hx
      · intro l _
        refine (h.thread l).grows ⟨Nat.le_refl _, Nat.le_refl _, List.prefix_refl _,
          List.Subset.refl _, List.Subset.refl _⟩ (fun _ _ => id) (fun _ _ => id) ?_
        intro item p hp
        obtain ⟨hlt', hin⟩ := h.of_writes hp rfl
        have hne : p ≠ pos := by
          rintro rfl
          exact hin ⟨x, hx⟩
        rw [slots_of_ne (h.apart_of_reads hpc rfl (h.free p hlt') (h.not_dequeued hin) hne)]
    writer := unique_goto h.writer nofun
    reader := by
      refine unique_goto h.reader fun l p hl hp hother => ?_
      cases hp
      exact hl (h.reader_eq hpc rfl hother) }

/-- `dequeue` gives its slot to the position one lap later and returns true. -/
theorem release (h : s.Inv c) (hpc : s.threads k = .deqPublish item pos) :
    (({ s with dequeued := s.dequeued ++ [(pos, item)] }.writeSlot (pos % c.size)
      { s.slots (pos % c.size) with sequence := pos + c.size }).goto k .idle).Inv c := by
  obtain ⟨hlt, hnew⟩ := h.of_reads hpc rfl
  have hknown := h.thread k
  rw [hpc] at hknown
  exact { h with
    same := by
      intro e he
      obtain hold | heq := List.mem_append.mp he
      · exact h.same e hold
      · cases List.mem_singleton.mp heq
        exact hknown.2.2
    onceOut := nodup_concat h.onceOut hnew
    free := fun p hp hle => exists_mem_concat.mpr (.inl (h.free p hp hle))
    passed := by
      intro p hp
      obtain hold | heq := exists_mem_concat.mp hp
      · exact h.passed p hold
      · exact heq ▸ hlt
    pending := by
      intro p hp
      by_cases hne : p = pos
      · exact .inl (exists_mem_concat.mpr (.inr hne))
      · obtain hout | ⟨l, hl⟩ := h.pending p hp
        · exact .inl (exists_mem_concat.mpr (.inl hout))
        · refine .inr ⟨l, ?_⟩
          have hlk : l ≠ k := by
            rintro rfl
            rw [hpc] at hl
            exact hne (Option.some.inj hl).symm
          rw [threads_of_ne hlk]
          exact hl
    full := by
      intro p hin hout
      obtain ⟨hout, hne⟩ := not_or.mp (mt exists_mem_concat.mpr hout)
      rw [slots_goto, slots_of_ne (h.apart_of_reads hpc rfl (h.free_of_enqueued hin) hout hne)]
      exact h.full p hin hout
    empty := by
      intro p hin hfree
      -- The slot is given back for the position one lap ahead.
      by_cases hlap : c.size ≤ p ∧ p - c.size = pos
      · obtain ⟨hle, hpos⟩ := hlap
        rw [Nat.mod_eq_sub_mod hle, hpos, slots_goto, slots_self]
        show pos + c.size = p
        omega
      · have hfree : s.Free c p := fun hle =>
          (exists_mem_concat.mp (hfree hle)).resolve_right fun hpos => hlap ⟨hle, hpos⟩
        have hne : p ≠ pos := by
          rintro rfl
          exact hin (h.filled p hlt)
        rw [slots_goto, slots_of_ne (h.apart_of_reads hpc rfl hfree (h.not_dequeued hin) hne)]
        exact h.empty p hin hfree
    held := by
      intro p x hx hout hnot
      obtain ⟨hout, hne⟩ := not_or.mp (mt exists_mem_concat.mpr hout)
      rw [slots_goto, data_writeSlot (s := { s with dequeued := s.dequeued ++ [(pos, item)] })]
      refine h.held_goto hpc hx hout (fun y hold => ?_) hnot
      cases hold
      exact hne rfl
    thread := by
      apply ok_goto
      · trivial
      · intro l hl
        refine (h.thread l).grows ⟨Nat.le_refl _, Nat.le_refl _, List.prefix_refl _,
          List.Subset.refl _, List.subset_append_left _ _⟩ (fun _ _ => id) (fun p hp hout => ?_)
          fun _ _ _ => data_writeSlot _ _ _
        refine (exists_mem_concat.mp hout).resolve_right fun heq => ?_
        subst heq
        exact hl (h.reader_eq hpc rfl hp)
    writer := unique_goto h.writer nofun
    reader := unique_goto h.reader nofun }

end Dequeue

/-! ### Runs -/

/-- A compare-and-swap that succeeds acts on the position the counter stands at. -/
theorem eq_of_residue {pos count : Nat} (hle : pos ≤ count) (hfresh : count < pos + 2 ^ 64)
    (hresidue : UInt64.ofNat count = UInt64.ofNat pos) : pos = count := by
  have hmod := ofNat_eq_ofNat.mp hresidue
  omega

/-- Each step of a call keeps the invariant. -/
theorem go (h : s.Inv c) {rest : T} (hfresh : Fresh s (.go k rest))
    (hstep : threadNext c.value k rest s = some s') : s'.Inv c := by
  have hknown := h.thread k
  cases hpc : s.threads k with
  | idle => simp [threadNext, hpc] at hstep
  | enqSeq item pos =>
    rw [hpc] at hknown
    have hle : pos ≤ s.enqueuePos := hknown
    simp only [threadNext, hpc, Option.some.injEq, slotOf_eq] at hstep
    subst hstep
    split
    · rename_i hdiff
      refine h.move hpc rfl rfl rfl ⟨hle, fun heq => ?_⟩
      subst heq
      exact h.free_of_sequence (diff_eq_zero.mp hdiff)
    · split
      · exact h.move hpc rfl rfl rfl trivial
      · exact h.move hpc rfl rfl rfl trivial
  | enqCas item pos =>
    rw [hpc] at hknown
    simp only [threadNext, hpc] at hstep
    simp only [Fresh, hpc] at hfresh
    split at hstep
    · rename_i hresidue
      -- The counter has not wrapped round since, so equal words are equal positions.
      have hpos := eq_of_residue hknown.1 hfresh hresidue
      subst hpos
      cases hstep
      exact h.claim hpc
    · cases hstep
      exact h.move hpc rfl rfl rfl (Nat.le_refl _)
  | enqReload item =>
    simp only [threadNext, hpc, Option.some.injEq] at hstep
    subst hstep
    exact h.move hpc rfl rfl rfl (Nat.le_refl _)
  | enqWrite item pos =>
    simp only [threadNext, hpc, Option.some.injEq, slotOf_eq] at hstep
    subst hstep
    exact h.write hpc
  | enqPublish item pos =>
    simp only [threadNext, hpc, Option.some.injEq, slotOf_eq] at hstep
    subst hstep
    exact h.publish hpc
  | deqSeq pos =>
    rw [hpc] at hknown
    have hle : pos ≤ s.dequeuePos := hknown
    simp only [threadNext, hpc, Option.some.injEq, slotOf_eq] at hstep
    subst hstep
    split
    · rename_i hdiff
      refine h.move hpc rfl rfl rfl ⟨hle, fun heq => ?_⟩
      subst heq
      exact h.enqueued_of_sequence (diff_eq_zero.mp hdiff)
    · split
      · exact h.move hpc rfl rfl rfl trivial
      · exact h.move hpc rfl rfl rfl trivial
  | deqCas pos =>
    rw [hpc] at hknown
    simp only [threadNext, hpc] at hstep
    simp only [Fresh, hpc] at hfresh
    split at hstep
    · rename_i hresidue
      have hpos := eq_of_residue hknown.1 hfresh hresidue
      subst hpos
      cases hstep
      exact h.claimOut hpc
    · cases hstep
      exact h.move hpc rfl rfl rfl (Nat.le_refl _)
  | deqReload =>
    simp only [threadNext, hpc, Option.some.injEq] at hstep
    subst hstep
    exact h.move hpc rfl rfl rfl (Nat.le_refl _)
  | deqRead pos =>
    simp only [threadNext, hpc, Option.some.injEq, slotOf_eq] at hstep
    subst hstep
    exact h.read hpc
  | deqPublish item pos =>
    simp only [threadNext, hpc, Option.some.injEq, slotOf_eq] at hstep
    subst hstep
    exact h.release hpc

theorem next (h : s.Inv c) {i : Label T} (hfresh : Fresh s i)
    (hstep : next c.value s i = some s') : s'.Inv c := by
  cases i with
  | enqueue k item =>
    simp only [Mpmc.next] at hstep
    split at hstep
    · rename_i hpc
      cases hstep
      exact h.move hpc rfl rfl rfl (Nat.le_refl _)
    · cases hstep
  | dequeue k =>
    simp only [Mpmc.next] at hstep
    split at hstep
    · rename_i hpc
      cases hstep
      exact h.move hpc rfl rfl rfl (Nat.le_refl _)
    · cases hstep
  | go k rest => exact h.go hfresh hstep
  | fail k =>
    simp only [Mpmc.next] at hstep
    split at hstep
    · rename_i hpc
      cases hstep
      exact h.move hpc rfl rfl rfl (Nat.le_refl _)
    · rename_i hpc
      cases hstep
      exact h.move hpc rfl rfl rfl (Nat.le_refl _)
    · cases hstep

theorem create (c : Hft.Capacity) (junk : Nat → T) : (Mpmc.create junk).Inv c := by
  have hempty : ∀ p, ¬ (Mpmc.create junk).Dequeued p := by
    rintro p ⟨x, hx⟩
    cases hx
  constructor
  · rfl
  · intro p x hx
    cases hx
  · intro e he
    cases he
  · exact List.nodup_nil
  · exact List.nodup_nil
  · intro p hp
    cases hp
  · intro p hp
    cases hp
  · exact fun p hp => absurd hp (hempty p)
  · intro p hp
    cases hp
  · rintro p ⟨x, hx⟩
    cases hx
  · intro p _ hfree
    have hlt : p < c.size := by
      by_contra hle
      exact hempty _ (hfree (Nat.not_lt.mp hle))
    exact Nat.mod_eq_of_lt hlt
  · intro p x hx
    cases hx
  · exact fun _ => trivial
  · intro k l p hk
    cases hk
  · intro k l p hk
    cases hk

theorem delivered (h : s.Inv c) : Delivered c.value s where
  claimed := h.item
  enqueued := h.onceIn
  dequeued := h.onceOut
  same := h.same
  kept p _ := by
    obtain hlt | hle := Nat.lt_or_ge p s.dequeuePos
    · obtain hout | hreads := h.pending p hlt
      · exact .inl hout
      · exact .inr (.inr hreads)
    · exact .inr (.inl hle)
  held p x hx hout hnot := by
    rw [slotOf_eq]
    exact h.held p x hx hout hnot
  safe p hin hout k item pos hpc := by
    rw [slotOf_eq, slotOf_eq]
    intro hslot
    obtain ⟨hlt, hnew⟩ := h.of_writes hpc rfl
    cases h.position_unique (h.free pos hlt) (h.free_of_enqueued hin) (h.not_dequeued hnew) hout
      hslot
    exact hnew hin

end State.Inv

theorem delivered (c : Hft.Capacity) (junk : Nat → T) {s : State T}
    (h : (queue c.value junk).Reach Fresh s) : Delivered c.value s := by
  refine State.Inv.delivered (h.invariant (I := State.Inv c) ?_ ?_)
  · intro s hs
    cases hs
    exact State.Inv.create c junk
  · exact fun s i s' hinv hfresh hstep => hinv.next hfresh hstep

/-! ### One slot -/

/-- The counters of a short run do not come round. -/
def short (s : State T) (_ : Label T) : Bool := s.enqueuePos < 2 ^ 64 && s.dequeuePos < 2 ^ 64

theorem fresh_of_short {i : Label T} (h : short s i = true) : Fresh s i := by
  simp only [short, Bool.and_eq_true, decide_eq_true_eq] at h
  cases i with
  | go k rest =>
    simp only [Fresh]
    split
    · omega
    · omega
    · trivial
  | enqueue | dequeue | fail => trivial

theorem reach_of_replay {capacity : UInt64} {junk : Nat → T} {labels : List (Label T)}
    (h : Machine.replay (next capacity) short (create junk) labels = some s) :
    (queue capacity junk).Reach Fresh s :=
  .of_replay (fun _ _ => fresh_of_short) (.init rfl) h

theorem slotOf_one (pos : Nat) : slotOf 1 pos = 0 := by simp [slotOf]

/-- A thread enqueues `x` and then claims a position for `y`. -/
def twice (x y : T) : List (Label T) :=
  [.enqueue 0 x, .go 0 x, .go 0 x, .go 0 x, .go 0 x, .enqueue 0 y, .go 0 x, .go 0 x]

/-- In a queue of one slot, the second item is about to be written over the first. -/
theorem claimed_twice (junk : Nat → T) (x y : T) : ∃ s, (queue 1 junk).Reach Fresh s ∧
    s.enqueued = [(0, x)] ∧ s.dequeued = [] ∧ s.threads 0 = .enqWrite y 1 ∧
    ∀ k, k ≠ 0 → s.threads k = .idle := by
  have hrun : ∃ s, Machine.replay (next 1) short (create junk) (twice x y) = some s ∧
      s.enqueued = [(0, x)] ∧ s.dequeued = [] ∧ s.threads 0 = .enqWrite y 1 ∧
      ∀ k, k ≠ 0 → s.threads k = .idle := by
    simp [twice, Machine.replay, short, next, threadNext, create, State.goto, State.writeSlot,
      diff_eq_zero, slotOf_one]
    exact fun k hk => Function.update_of_ne hk _ _
  obtain ⟨s, hs, hend⟩ := hrun
  exact ⟨s, reach_of_replay hs, hend⟩

/-- An item of which `enqueue` has returned true is overwritten in a queue of one slot. -/
theorem overwritten : ∃ s, (queue 1 fun _ => 0).Reach Fresh s ∧ s.enqueued = [(0, 7), (1, 8)] ∧
    s.dequeued = [] ∧ (s.slots 0).data = 8 ∧ ¬ Delivered 1 s := by
  obtain ⟨s, hs, henqueued, hdequeued, hpc, hidle⟩ := claimed_twice (fun _ => 0) 7 8
  let written := (s.writeSlot 0 { s.slots 0 with data := 8 }).goto 0 (.enqPublish 8 1)
  have hwritten : (queue 1 fun _ => 0).Reach Fresh written := by
    refine .step (i := .go 0 0) hs ?_ ?_
    · simp only [Fresh, hpc]
    · show threadNext 1 0 0 s = some written
      simp only [threadNext, hpc, slotOf_one]
      rfl
  let published := ({ written with enqueued := written.enqueued ++ [(1, 8)] }.writeSlot 0
    { written.slots 0 with sequence := 2 }).goto 0 .idle
  have hpublished : (queue 1 fun _ => 0).Reach Fresh published := by
    have hpc : written.threads 0 = .enqPublish 8 1 := threads_self 0 _
    refine .step (i := .go 0 0) hwritten ?_ ?_
    · simp only [Fresh, hpc]
    · show threadNext 1 0 0 written = some published
      simp only [threadNext, hpc, slotOf_one]
      rfl
  have hin : published.enqueued = [(0, 7), (1, 8)] := congrArg (· ++ [(1, 8)]) henqueued
  have hdata : (published.slots 0).data = 8 := by simp [published, written]
  refine ⟨published, hpublished, hin, hdequeued, hdata, fun hdelivered => ?_⟩
  have hheld := hdelivered.held 0 7 (by simp [hin]) ?_ fun k y => ?_
  · rw [slotOf_one, hdata] at hheld
    cases hheld
  · rintro ⟨x, hx⟩
    have hx : (0, x) ∈ s.dequeued := hx
    simp [hdequeued] at hx
  · by_cases hk : k = 0
    · subst hk
      rw [threads_self]
      nofun
    · rw [threads_of_ne hk]
      show written.threads k ≠ _
      rw [threads_of_ne hk]
      show s.threads k ≠ _
      rw [hidle k hk]
      nofun

/-- No item is lost, returned twice or overwritten, whatever the interleaving, exactly where there
is more than one slot; so long as no compare-and-swap acts on a position that is 2^64 claims
old. -/
theorem delivered_iff [Nonempty T] (capacity : UInt64)
    (hassert : capacity &&& (capacity - 1) = 0) (hzero : capacity ≠ 0) (junk : Nat → T) :
    (∀ s, (queue capacity junk).Reach Fresh s → Delivered capacity s) ↔ 1 < capacity := by
  constructor
  · intro hall
    by_contra hone
    have hcapacity : capacity = 1 := by
      have hpos : capacity.toNat ≠ 0 := fun h => hzero (UInt64.toNat_inj.mp h)
      have hle : ¬ 1 < capacity.toNat := fun h => hone (UInt64.lt_iff_toNat_lt.mpr h)
      have hsize : capacity.toNat = 1 := by omega
      exact UInt64.toNat_inj.mp hsize
    subst hcapacity
    obtain ⟨x⟩ := ‹Nonempty T›
    obtain ⟨s, hs, henqueued, hdequeued, hpc, -⟩ := claimed_twice junk x x
    refine (hall s hs).safe 0 ⟨x, by simp [henqueued]⟩ ?_ 0 x 1 hpc ?_
    · rintro ⟨y, hy⟩
      simp [hdequeued] at hy
    · rw [slotOf_one, slotOf_one]
  · intro hone s hs
    exact delivered ⟨capacity, hassert, hone⟩ junk hs

theorem delivered_iff_two :
    (∀ s, (queue 2 fun _ => 0).Reach Fresh s → Delivered 2 s) ↔ (1 : UInt64) < 2 :=
  delivered_iff 2 (by decide) (by decide) fun _ => 0

end NanoVault.Utils.Mpmc
