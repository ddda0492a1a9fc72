/-
The runs of `WorkStealingDeque`.

Each step of the owner and of a thief keeps the invariant; so every item pushed is returned at
most once, and what is not returned is still there in order (`delivered_once`).
-/
import NanoVault.Utils.WorkStealing

namespace NanoVault.Utils.WorkStealing

open Lib Lib.Ring

variable {T : Type} {s s' : State T} {k : Nat}

/-! ### Steps that move no item -/

theorem live_congr (htop : s'.top = s.top) (hlimit : s'.limit = s.limit)
    (hget : ∀ i, s.top ≤ i → i < s.limit → s'.current.get i = s.current.get i) :
    s'.live = s.live := by
  rw [State.live, State.live, htop, hlimit]
  refine List.map_congr_left fun i hi => ?_
  obtain ⟨hfrom, hto⟩ := List.mem_range'_1.mp hi
  exact hget i hfrom (by omega)

/-- Arrays may change where no item is. -/
theorem State.Inv.same (h : s.Inv) (htop : s'.top = s.top) (hlimit : s'.limit = s.limit)
    (hthieves : s'.thieves = s.thieves) (hpushed : s'.pushed = s.pushed)
    (hpublish : ∀ a, s.Published a → s'.Published a) (hpublished : s'.Published s'.array)
    (hget : ∀ i, s.top ≤ i → i < s.limit → s'.current.get i = s.current.get i)
    (hold : ∀ a, s.Published a → s.top < s.limit →
      (s'.arrays a).get s.top = (s.arrays a).get s.top)
    (hcapacity : s.current.capacity ≤ s'.current.capacity) (hwhole : s'.current.Whole)
    (howner : s'.OwnerOk) (hout : s'.returned ++ s'.leaving = s.returned ++ s.leaving)
    (hin : s'.entering = s.entering) : s'.Inv := by
  have hlive : s'.live = s.live := live_congr htop hlimit hget
  constructor
  · rw [htop]
    exact h.one_le
  · rw [htop, hlimit]
    exact h.top_le
  · rw [htop, hlimit]
    exact Nat.le_trans h.room (Nat.add_le_add_left hcapacity _)
  · exact hwhole
  · exact hpublished
  · exact howner
  · intro k
    rw [hthieves]
    exact (h.thief k).same htop (fun hlt => by rwa [hlimit]) hpublish
      (fun hlt => hget _ (Nat.le_refl _) hlt) hold
  · have hledger : s'.ledger = s.ledger := by
      rw [State.ledger, State.ledger, ← List.append_assoc, hout, List.append_assoc, hlive, hin]
    rw [hledger, hpushed]
    exact h.perm
  · rw [hlive, hin, hpushed]
    exact h.order

/-- The arrays others may read stay as they are. -/
theorem State.Inv.keep (h : s.Inv) (htop : s'.top = s.top) (hlimit : s'.limit = s.limit)
    (hthieves : s'.thieves = s.thieves) (hpushed : s'.pushed = s.pushed)
    (harray : s'.array = s.array) (harrays : ∀ a, s.Published a → s'.arrays a = s.arrays a)
    (hpublish : ∀ a, s.Published a → s'.Published a) (howner : s'.OwnerOk)
    (hout : s'.returned ++ s'.leaving = s.returned ++ s.leaving)
    (hin : s'.entering = s.entering) : s'.Inv := by
  have hcurrent : s'.current = s.current := by
    rw [State.current, State.current, harray, harrays _ h.published]
  refine h.same htop hlimit hthieves hpushed hpublish ?_ (fun i _ _ => ?_) (fun a ha _ => ?_) ?_ ?_
    howner hout hin
  · rw [harray]
    exact hpublish _ h.published
  · rw [hcurrent]
  · rw [harrays a ha]
  · rw [hcurrent]
  · rw [hcurrent]
    exact h.whole

/-- Only the owner's locals change. -/
theorem State.Inv.moveOwner {pc : Owner T} (h : s.Inv)
    (howner : State.OwnerOk { s with owner := pc })
    (hlimit : State.limit { s with owner := pc } = s.limit)
    (hpublish : ∀ a, s.Published a → State.Published { s with owner := pc } a)
    (hleaving : State.leaving { s with owner := pc } = s.leaving)
    (hentering : State.entering { s with owner := pc } = s.entering) :
    State.Inv { s with owner := pc } :=
  h.keep rfl hlimit rfl rfl rfl (fun _ _ => rfl) hpublish howner
    (congrArg (s.returned ++ ·) hleaving) hentering

/-! ### The steps of the owner -/

theorem State.Inv.push (h : s.Inv) (howner : s.owner = .idle) (x : T) :
    State.Inv { s with owner := .pushTop x s.bottom, pushed := s.pushed ++ [x] } := by
  have hlimit : s.limit = s.bottom := by simp only [State.limit, howner]
  have hlive : State.live { s with owner := .pushTop x s.bottom, pushed := s.pushed ++ [x] } =
      s.live := live_congr rfl hlimit.symm fun _ _ _ => rfl
  have hleaving : s.leaving = [] := by simp only [State.leaving, howner]
  have hentering : s.entering = [] := by simp only [State.entering, howner]
  have hpublish : ∀ a, s.Published a →
      State.Published { s with owner := .pushTop x s.bottom, pushed := s.pushed ++ [x] } a :=
    fun a ha => ⟨ha.1, trivial⟩
  constructor
  · exact h.one_le
  · exact hlimit ▸ h.top_le
  · exact hlimit ▸ h.room
  · exact h.whole
  · exact hpublish _ h.published
  · exact rfl
  · intro k
    exact (h.thief k).same rfl (fun hlt => hlimit ▸ hlt) hpublish (fun _ => rfl)
      fun _ _ _ => rfl
  · have hperm := h.perm.append_right [x]
    rw [State.ledger, hleaving, hentering] at hperm
    rw [State.ledger, hlive]
    simpa [State.leaving, State.entering] using hperm
  · have horder := h.order.append (List.Sublist.refl [x])
    rw [hentering] at horder
    rw [hlive]
    simpa [State.entering] using horder

section Push

variable {x v : T} {b t a na i : Nat} {junk : Nat → T}

theorem State.Inv.pushTop (h : s.Inv) (hpc : s.owner = .pushTop x b) :
    State.Inv { s with owner := .pushArray x b s.top } := by
  have howner := h.owner
  have hroom := h.room
  simp only [State.OwnerOk, hpc] at howner
  simp only [State.limit, hpc] at hroom
  apply h.moveOwner
  · exact ⟨howner, Nat.le_refl _, howner ▸ hroom⟩
  · simp only [State.limit, hpc]
  · exact fun a ha => ⟨ha.1, trivial⟩
  · simp only [State.leaving, hpc]
  · simp only [State.entering, hpc]

/-- There is room in the array. -/
theorem State.Inv.pushArray (h : s.Inv) (hpc : s.owner = .pushArray x b t)
    (hfull : ¬ (s.arrays s.array).capacity - 1 < b - t) :
    State.Inv { s with owner := .put x b s.array } := by
  have howner := h.owner
  simp only [State.OwnerOk, hpc] at howner
  obtain ⟨hb, ht, -⟩ := howner
  have hpos := h.whole.pos
  apply h.moveOwner
  · refine ⟨hb, rfl, ?_⟩
    show b < s.top + (s.arrays s.array).capacity
    have hpos : 0 < (s.arrays s.array).capacity := hpos
    omega
  · simp only [State.limit, hpc]
  · exact fun a ha => ⟨ha.1, trivial⟩
  · simp only [State.leaving, hpc]
  · simp only [State.entering, hpc]

/-- A larger array is allocated. -/
theorem State.Inv.allocate (h : s.Inv) (hpc : s.owner = .pushArray x b t) (junk : Nat → T) :
    State.Inv { s with
      arrays := Function.update s.arrays s.allocated ⟨(s.arrays s.array).capacity * 2, junk⟩
      allocated := s.allocated + 1
      owner := .grow x b s.array s.allocated t } := by
  have howner := h.owner
  have htop := h.top_le
  simp only [State.OwnerOk, hpc] at howner
  simp only [State.limit, hpc] at htop
  obtain ⟨hb, ht, hlap⟩ := howner
  have hother : ∀ a, s.Published a → Function.update s.arrays s.allocated
      ⟨(s.arrays s.array).capacity * 2, junk⟩ a = s.arrays a := fun a ha =>
    Function.update_of_ne (Nat.ne_of_lt ha.1) _ _
  have hcurrent := hother _ h.published
  have hnew : Function.update s.arrays s.allocated
      ⟨(s.arrays s.array).capacity * 2, junk⟩ s.allocated =
        (⟨(s.arrays s.array).capacity * 2, junk⟩ : CircularArray T) :=
    Function.update_self _ _ _
  apply h.keep
  · rfl
  · simp only [State.limit, hpc]
  · rfl
  · rfl
  · rfl
  · exact hother
  · exact fun a ha => ⟨Nat.lt_succ_of_lt ha.1, Nat.ne_of_lt ha.1⟩
  · refine ⟨hb, rfl, Nat.lt_succ_self _, ?_, ?_, t, ht, Nat.le_refl t, by omega, ?_,
      fun j hj hjt => absurd hj (Nat.not_le.mpr hjt)⟩
    · obtain ⟨k, hk⟩ := h.whole
      dsimp only
      rw [hnew]
      exact ⟨k + 1, by rw [Nat.pow_succ, ← hk]; rfl⟩
    · dsimp only
      rw [hnew, hcurrent]
    · dsimp only
      rw [hcurrent]
      exact hlap
  · simp only [State.leaving, hpc]
  · simp only [State.entering, hpc]

/-- The loop of `grow` reads an item. -/
theorem State.Inv.growGet (h : s.Inv) (hpc : s.owner = .grow x b a na i) (hi : i < b) :
    State.Inv { s with owner := .growPut x b a na i ((s.arrays a).get i) } := by
  have howner := h.owner
  simp only [State.OwnerOk, hpc] at howner
  apply h.moveOwner
  · exact ⟨⟨howner.bottom, howner.array, howner.draft, howner.whole, howner.twice, howner.copied⟩,
      hi, rfl⟩
  · simp only [State.limit, hpc]
  · intro c hc
    simpa only [State.Published, hpc] using hc
  · simp only [State.leaving, hpc]
  · simp only [State.entering, hpc]

/-- The loop of `grow` writes it to the new array, which no one else knows. -/
theorem State.Inv.growPut (h : s.Inv) (hpc : s.owner = .growPut x b a na i v) :
    State.Inv { s with
      arrays := Function.update s.arrays na ((s.arrays na).put i v)
      owner := .grow x b a na (i + 1) } := by
  have howner := h.owner
  simp only [State.OwnerOk, hpc] at howner
  obtain ⟨hcopied, hi, rfl⟩ := howner
  obtain ⟨t, ht, hti, -, hlap, hcopy⟩ := hcopied.copied
  have hother : ∀ c, s.Published c →
      Function.update s.arrays na ((s.arrays na).put i ((s.arrays a).get i)) c = s.arrays c := by
    intro c hc
    have hne := hc.2
    simp only [hpc] at hne
    exact Function.update_of_ne hne _ _
  have ha : Function.update s.arrays na ((s.arrays na).put i ((s.arrays a).get i)) a =
      s.arrays a := hcopied.array ▸ hother _ h.published
  have hna : Function.update s.arrays na ((s.arrays na).put i ((s.arrays a).get i)) na =
      (s.arrays na).put i ((s.arrays a).get i) := Function.update_self _ _ _
  apply h.keep
  · rfl
  · simp only [State.limit, hpc]
  · rfl
  · rfl
  · rfl
  · exact hother
  · intro c hc
    simpa only [State.Published, hpc] using hc
  · refine ⟨hcopied.bottom, hcopied.array, hcopied.draft, ?_, ?_, t, ht, by omega, hi, ?_, ?_⟩
    · dsimp only
      rw [hna]
      exact hcopied.whole
    · dsimp only
      rw [hna, ha]
      exact hcopied.twice
    · dsimp only
      rw [ha]
      exact hlap
    · intro j hj hji
      dsimp only
      rw [hna, ha]
      rcases Nat.lt_succ_iff_lt_or_eq.mp hji with hji | rfl
      · have htwice := hcopied.twice
        have hwhole := hcopied.whole
        rw [hwhole.put_get hji (by omega)]
        exact hcopy j hj hji
      · exact CircularArray.put_get_self _ _ _
  · simp only [State.leaving, hpc]
  · simp only [State.entering, hpc]

/-- The new array takes the place of the old one; a thief that holds the old one finds its item
there as well. -/
theorem State.Inv.publish (h : s.Inv) (hpc : s.owner = .grow x b a na i) (hi : ¬ i < b) :
    State.Inv { s with array := na, owner := .put x b na } := by
  have howner := h.owner
  have htop := h.top_le
  have hlimit : s.limit = s.bottom := by simp only [State.limit, hpc]
  simp only [State.OwnerOk, hpc] at howner
  obtain ⟨hb, ha, hdraft, hwhole, htwice, t, ht, -, hib, hlap, hcopy⟩ := howner
  have hcurrent : s.current = s.arrays a := congrArg s.arrays ha
  have hpos : 0 < (s.arrays a).capacity := hcurrent ▸ h.whole.pos
  have hpublish : ∀ c, s.Published c →
      State.Published { s with array := na, owner := .put x b na } c := fun c hc => ⟨hc.1, trivial⟩
  apply h.same
  · rfl
  · simp only [State.limit, hpc]
  · rfl
  · rfl
  · exact hpublish
  · exact ⟨hdraft, trivial⟩
  · intro j hj hjl
    rw [hcurrent]
    exact hcopy j (by omega) (by omega)
  · exact fun _ _ _ => rfl
  · rw [hcurrent]
    show (s.arrays a).capacity ≤ (s.arrays na).capacity
    omega
  · exact hwhole
  · refine ⟨hb, rfl, ?_⟩
    show b < s.top + (s.arrays na).capacity
    omega
  · simp only [State.leaving, hpc]
  · simp only [State.entering, hpc]

/-- The item is written behind the others, less than a lap from `top_`. -/
theorem State.Inv.put (h : s.Inv) (hpc : s.owner = .put x b a) :
    State.Inv { s with
      arrays := Function.update s.arrays a ((s.arrays a).put b x)
      owner := .pushBottom x b } := by
  have howner := h.owner
  have htop := h.top_le
  have hlimit : s.limit = s.bottom := by simp only [State.limit, hpc]
  simp only [State.OwnerOk, hpc] at howner
  obtain ⟨hb, rfl, hlap⟩ := howner
  have hself : Function.update s.arrays s.array ((s.arrays s.array).put b x) s.array =
      s.current.put b x := Function.update_self _ _ _
  have hget : ∀ i, s.top ≤ i → i < s.limit → (s.current.put b x).get i = s.current.get i :=
    fun i hi hil => h.whole.put_get (by omega) (by omega)
  apply h.same
  · rfl
  · simp only [State.limit, hpc]
  · rfl
  · rfl
  · exact fun c hc => ⟨hc.1, trivial⟩
  · exact ⟨h.published.1, trivial⟩
  · intro i hi hil
    rw [← hget i hi hil, ← hself]
    rfl
  · intro c _ hlt
    dsimp only
    by_cases hc : c = s.array
    · rw [hc, hself]
      exact hget _ (Nat.le_refl _) hlt
    · rw [Function.update_of_ne hc]
  · show s.current.capacity ≤
      (Function.update s.arrays s.array ((s.arrays s.array).put b x) s.array).capacity
    rw [hself]
    exact Nat.le_refl _
  · obtain ⟨k, hk⟩ := h.whole
    rw [State.current]
    dsimp only
    rw [hself]
    exact ⟨k, hk⟩
  · refine ⟨hb, ?_, ?_⟩
    · rw [State.current]
      dsimp only
      rw [hself]
      exact hlap
    · rw [State.current]
      dsimp only
      rw [hself]
      exact CircularArray.put_get_self _ _ _
  · simp only [State.leaving, hpc]
  · simp only [State.entering, hpc]

/-- Thieves may now take the item. -/
theorem State.Inv.pushBottom (h : s.Inv) (hpc : s.owner = .pushBottom x b) :
    State.Inv { s with bottom := b + 1, owner := .idle } := by
  have howner := h.owner
  have htop := h.top_le
  have hroom := h.room
  have hlimit : s.limit = s.bottom := by simp only [State.limit, hpc]
  simp only [State.OwnerOk, hpc] at howner
  obtain ⟨hb, hlap, hx⟩ := howner
  have hpublish : ∀ c, s.Published c →
      State.Published { s with bottom := b + 1, owner := .idle } c := fun c hc => ⟨hc.1, trivial⟩
  have hlive : State.live { s with bottom := b + 1, owner := .idle } = s.live ++ [x] := by
    show (List.range' s.top (b + 1 - s.top)).map s.current.get = _
    rw [State.live, hlimit, hb, Nat.sub_add_comm (by omega), List.range'_concat, List.map_append,
      Nat.one_mul, Nat.add_sub_cancel' (by omega), List.map_singleton, hx]
  have hentering : s.entering = [x] := by simp only [State.entering, hpc]
  have hleaving : s.leaving = [] := by simp only [State.leaving, hpc]
  constructor
  · exact h.one_le
  · show s.top ≤ b + 1
    omega
  · show b + 1 ≤ s.top + s.current.capacity
    omega
  · exact h.whole
  · exact hpublish _ h.published
  · trivial
  · intro k
    refine (h.thief k).same rfl (fun hlt => ?_) hpublish (fun _ => rfl) fun _ _ _ => rfl
    show s.top < b + 1
    omega
  · have hperm := h.perm
    rw [State.ledger, hleaving, hentering] at hperm
    rw [State.ledger, hlive]
    simpa only [State.leaving, State.entering, List.append_nil, List.nil_append] using hperm
  · have horder := h.order
    rw [hentering] at horder
    rw [hlive]
    simpa only [State.entering, List.append_nil] using horder

end Push

section Pop

variable {b t a : Nat} {x : T} {result : Option T}

theorem State.Inv.pop (h : s.Inv) (hpc : s.owner = .idle) :
    State.Inv { s with owner := .popArray (s.bottom - 1) } := by
  have htop := h.top_le
  have hone := h.one_le
  have hlimit : s.limit = s.bottom := by simp only [State.limit, hpc]
  apply h.moveOwner
  · show s.bottom = s.bottom - 1 + 1
    omega
  · simp only [State.limit, hpc]
  · exact fun a ha => ⟨ha.1, trivial⟩
  · simp only [State.leaving, hpc]
  · simp only [State.entering, hpc]

theorem State.Inv.popArray (h : s.Inv) (hpc : s.owner = .popArray b) :
    State.Inv { s with owner := .popBottom b s.array } := by
  have howner := h.owner
  simp only [State.OwnerOk, hpc] at howner
  apply h.moveOwner
  · exact ⟨howner, rfl⟩
  · simp only [State.limit, hpc]
  · exact fun a ha => ⟨ha.1, trivial⟩
  · simp only [State.leaving, hpc]
  · simp only [State.entering, hpc]

/-- `bottom_` is lowered. -/
theorem State.Inv.popBottom (h : s.Inv) (hpc : s.owner = .popBottom b a) :
    State.Inv { s with bottom := b, owner := .popTop b a } := by
  have howner := h.owner
  simp only [State.OwnerOk, hpc] at howner
  apply h.keep
  · rfl
  · simp only [State.limit, hpc]
    exact howner.1.symm
  · rfl
  · rfl
  · rfl
  · exact fun _ _ => rfl
  · exact fun a ha => ⟨ha.1, trivial⟩
  · exact ⟨rfl, howner.2⟩
  · simp only [State.leaving, hpc]
  · simp only [State.entering, hpc]

/-- One item is left, which thieves may still take. -/
theorem State.Inv.popTop_last (h : s.Inv) (hpc : s.owner = .popTop b a) (ht : s.top = b) :
    State.Inv { s with owner := .popRead b a s.top } := by
  have howner := h.owner
  simp only [State.OwnerOk, hpc] at howner
  have hnot : ¬ s.top < b := by omega
  apply h.moveOwner
  · exact ⟨howner.1, howner.2, Nat.le_of_eq ht, Nat.le_refl _⟩
  · simp only [State.limit, hpc, if_neg hnot]
  · exact fun a ha => ⟨ha.1, trivial⟩
  · simp only [State.leaving, hpc, if_neg hnot]
  · simp only [State.entering, hpc]

/-- The deque was empty. -/
theorem State.Inv.popTop_empty (h : s.Inv) (hpc : s.owner = .popTop b a) (ht : ¬ s.top ≤ b) :
    State.Inv { s with owner := .restore b none } := by
  have howner := h.owner
  have htop := h.top_le
  have hlimit : s.limit = s.bottom + 1 := by simp only [State.limit, hpc]
  simp only [State.OwnerOk, hpc] at howner
  apply h.moveOwner
  · have hempty : s.top = b + 1 := by omega
    exact ⟨howner.1, hempty⟩
  · simp only [State.limit, hpc]
  · exact fun a ha => ⟨ha.1, trivial⟩
  · simp only [State.leaving, hpc, Option.toList]
  · simp only [State.entering, hpc]

/-- More than one item is left: no thief that goes for the last one can have seen the old
`bottom_` and succeed, so it is the owner's. -/
theorem State.Inv.popTop_secure (h : s.Inv) (hpc : s.owner = .popTop b a) (ht : s.top < b) :
    State.Inv { s with owner := .popRead b a s.top } := by
  have howner := h.owner
  have hroom := h.room
  have hlimit : s.limit = s.bottom + 1 := by simp only [State.limit, hpc]
  simp only [State.OwnerOk, hpc] at howner
  obtain ⟨hb, rfl⟩ := howner
  have hpublish : ∀ c, s.Published c →
      State.Published { s with owner := .popRead b s.array s.top } c := fun c hc => ⟨hc.1, trivial⟩
  have hlimit' : State.limit { s with owner := .popRead b s.array s.top } = b := by
    simp only [State.limit, if_pos ht]
    exact hb
  have hlive : s.live = State.live { s with owner := .popRead b s.array s.top } ++
      [s.current.get b] := by
    rw [State.live, State.live, hlimit, hlimit', hb]
    show _ = (List.range' s.top (b - s.top)).map s.current.get ++ _
    rw [Nat.sub_add_comm (by omega), List.range'_concat, List.map_append, Nat.one_mul,
      Nat.add_sub_cancel' (by omega), List.map_singleton]
  have hentering : s.entering = [] := by simp only [State.entering, hpc]
  have hleaving : s.leaving = [] := by simp only [State.leaving, hpc]
  have hsecured : State.leaving { s with owner := .popRead b s.array s.top } =
      [s.current.get b] := by
    simp only [State.leaving, if_pos ht]
    rfl
  constructor
  · exact h.one_le
  · rw [hlimit']
    exact Nat.le_of_lt ht
  · rw [hlimit']
    show b ≤ s.top + s.current.capacity
    omega
  · exact h.whole
  · exact hpublish _ h.published
  · exact ⟨hb, rfl, Nat.le_of_lt ht, Nat.le_refl _⟩
  · intro k
    refine (h.thief k).same rfl (fun _ => ?_) hpublish (fun _ => rfl) fun _ _ _ => rfl
    rw [hlimit']
    exact ht
  · have hperm := h.perm
    rw [State.ledger, hleaving, hentering, hlive] at hperm
    rw [State.ledger, hsecured]
    refine List.Perm.trans (List.Perm.append_left _ ?_) hperm
    rw [List.nil_append, List.append_nil]
    exact List.perm_append_comm.trans (by simp [State.entering])
  · have horder := h.order
    rw [hentering, hlive, List.append_nil] at horder
    simp only [State.entering, List.append_nil]
    exact (List.sublist_append_left _ _).trans horder

/-- The last item has been read; `top_` decides whose it is. -/
theorem State.Inv.popRead_last (h : s.Inv) (hpc : s.owner = .popRead b a b) :
    State.Inv { s with owner := .popCas b b ((s.arrays a).get b) } := by
  have howner := h.owner
  simp only [State.OwnerOk, hpc] at howner
  obtain ⟨hb, rfl, -, htop⟩ := howner
  apply h.moveOwner
  · exact ⟨hb, rfl, htop, rfl⟩
  · simp only [State.limit, hpc, if_neg (Nat.lt_irrefl b)]
  · exact fun a ha => ⟨ha.1, trivial⟩
  · simp only [State.leaving, hpc, if_neg (Nat.lt_irrefl b)]
  · simp only [State.entering, hpc]

/-- The secured item is returned. -/
theorem State.Inv.popRead_secured (h : s.Inv) (hpc : s.owner = .popRead b a t) (ht : t ≠ b) :
    State.Inv { s with owner := .idle, returned := s.returned ++ [(s.arrays a).get b] } := by
  have howner := h.owner
  simp only [State.OwnerOk, hpc] at howner
  have hlt : t < b := Nat.lt_of_le_of_ne howner.2.2.1 ht
  apply h.keep
  · rfl
  · simp only [State.limit, hpc, if_pos hlt]
  · rfl
  · rfl
  · rfl
  · exact fun _ _ => rfl
  · exact fun a ha => ⟨ha.1, trivial⟩
  · trivial
  · simp only [State.leaving, hpc, if_pos hlt, List.append_nil]
  · simp only [State.entering, hpc]

/-- The owner gets the last item. -/
theorem State.Inv.popCas_won (h : s.Inv) (hpc : s.owner = .popCas b t x) (ht : s.top = t) :
    State.Inv { s with top := t + 1, owner := .restore b (some x) } := by
  have howner := h.owner
  have hlimit : s.limit = s.bottom + 1 := by simp only [State.limit, hpc]
  simp only [State.OwnerOk, hpc] at howner
  obtain ⟨hb, rfl, -, rfl⟩ := howner
  have hpublish : ∀ c, s.Published c → State.Published
      { s with top := t + 1, owner := .restore t (some (s.current.get t)) } c :=
    fun c hc => ⟨hc.1, trivial⟩
  have hlive : s.live = [s.current.get t] := by
    rw [State.live, hlimit, hb, ht, Nat.add_sub_cancel_left]
    rfl
  have hnone : State.live { s with top := t + 1, owner := .restore t (some (s.current.get t)) } =
      [] := by
    show (List.range' (t + 1) (s.bottom + 1 - (t + 1))).map _ = []
    rw [hb, Nat.sub_self]
    rfl
  have hentering : s.entering = [] := by simp only [State.entering, hpc]
  have hleaving : s.leaving = [] := by simp only [State.leaving, hpc]
  constructor
  · exact Nat.le_add_left 1 t
  · show t + 1 ≤ s.bottom + 1
    omega
  · show s.bottom + 1 ≤ t + 1 + s.current.capacity
    omega
  · exact h.whole
  · exact hpublish _ h.published
  · exact ⟨hb, rfl⟩
  · intro k
    refine (h.thief k).past ?_ hpublish
    show s.top < t + 1
    omega
  · have hperm := h.perm
    rw [State.ledger, hleaving, hentering, hlive] at hperm
    rw [State.ledger, hnone]
    simpa [State.leaving, State.entering] using hperm
  · rw [hnone]
    exact List.nil_sublist _

/-- A thief has got the last item. -/
theorem State.Inv.popCas_lost (h : s.Inv) (hpc : s.owner = .popCas b t x) (ht : s.top ≠ t) :
    State.Inv { s with owner := .restore b none } := by
  have howner := h.owner
  have htop := h.top_le
  have hlimit : s.limit = s.bottom + 1 := by simp only [State.limit, hpc]
  simp only [State.OwnerOk, hpc] at howner
  apply h.moveOwner
  · have hgone : s.top = b + 1 := by omega
    exact ⟨howner.1, hgone⟩
  · simp only [State.limit, hpc]
  · exact fun a ha => ⟨ha.1, trivial⟩
  · simp only [State.leaving, hpc, Option.toList]
  · simp only [State.entering, hpc]

/-- `bottom_` is raised again, and `pop` returns. -/
theorem State.Inv.restore (h : s.Inv) (hpc : s.owner = .restore b result) :
    State.Inv { s with
      bottom := b + 1
      owner := .idle
      returned := s.returned ++ result.toList } := by
  have howner := h.owner
  simp only [State.OwnerOk, hpc] at howner
  apply h.keep
  · rfl
  · simp only [State.limit, hpc, howner.1]
  · rfl
  · rfl
  · rfl
  · exact fun _ _ => rfl
  · exact fun a ha => ⟨ha.1, trivial⟩
  · trivial
  · simp only [State.leaving, hpc, List.append_nil]
  · simp only [State.entering, hpc]

end Pop

/-- Every step of the owner keeps the invariant. -/
theorem State.Inv.ownerNext (h : s.Inv) {junk : Nat → T} (hstep : ownerNext junk s = some s') :
    s'.Inv := by
  unfold WorkStealing.ownerNext at hstep
  cases hpc : s.owner with
  | idle =>
      rw [hpc] at hstep
      cases hstep
  | pushTop x b =>
      rw [hpc] at hstep
      obtain rfl := Option.some.inj hstep
      exact h.pushTop hpc
  | pushArray x b t =>
      rw [hpc] at hstep
      dsimp only at hstep
      split at hstep
      · obtain rfl := Option.some.inj hstep
        exact h.allocate hpc junk
      · next hroom =>
          obtain rfl := Option.some.inj hstep
          exact h.pushArray hpc hroom
  | grow x b a na i =>
      rw [hpc] at hstep
      dsimp only at hstep
      split at hstep
      · next hi =>
          obtain rfl := Option.some.inj hstep
          exact h.growGet hpc hi
      · next hi =>
          obtain rfl := Option.some.inj hstep
          exact h.publish hpc hi
  | growPut x b a na i v =>
      rw [hpc] at hstep
      obtain rfl := Option.some.inj hstep
      exact h.growPut hpc
  | put x b a =>
      rw [hpc] at hstep
      obtain rfl := Option.some.inj hstep
      exact h.put hpc
  | pushBottom x b =>
      rw [hpc] at hstep
      obtain rfl := Option.some.inj hstep
      exact h.pushBottom hpc
  | popArray b =>
      rw [hpc] at hstep
      obtain rfl := Option.some.inj hstep
      exact h.popArray hpc
  | popBottom b a =>
      rw [hpc] at hstep
      obtain rfl := Option.some.inj hstep
      exact h.popBottom hpc
  | popTop b a =>
      rw [hpc] at hstep
      dsimp only at hstep
      split at hstep
      · next hle =>
          obtain rfl := Option.some.inj hstep
          -- Of the last item the owner is not sure; it races the thieves for it.
          rcases Nat.lt_or_eq_of_le hle with hlt | heq
          · exact h.popTop_secure hpc hlt
          · exact h.popTop_last hpc heq
      · next hempty =>
          obtain rfl := Option.some.inj hstep
          exact h.popTop_empty hpc hempty
  | popRead b a t =>
      rw [hpc] at hstep
      dsimp only at hstep
      split at hstep
      · next heq =>
          subst heq
          obtain rfl := Option.some.inj hstep
          exact h.popRead_last hpc
      · next hne =>
          obtain rfl := Option.some.inj hstep
          exact h.popRead_secured hpc hne
  | popCas b t x =>
      rw [hpc] at hstep
      dsimp only at hstep
      split at hstep
      · next ht =>
          obtain rfl := Option.some.inj hstep
          exact h.popCas_won hpc ht
      · next ht =>
          obtain rfl := Option.some.inj hstep
          exact h.popCas_lost hpc ht
  | restore b result =>
      rw [hpc] at hstep
      obtain rfl := Option.some.inj hstep
      exact h.restore hpc

/-! ### The steps of a thief -/

/-- The owner is not disturbed by a thief that raises `top_`. -/
theorem State.OwnerOk.raise (h : s.OwnerOk) (howner : s'.owner = s.owner)
    (hbottom : s'.bottom = s.bottom) (harray : s'.array = s.array) (harrays : s'.arrays = s.arrays)
    (hallocated : s'.allocated = s.allocated) (htop : s.top ≤ s'.top)
    (hrestore : ∀ b r, s.owner = .restore b r → s'.top = s.top) : s'.OwnerOk := by
  have hcurrent : s'.current = s.current := by
    rw [State.current, State.current, harray, harrays]
  have hcopied : ∀ {b a na i}, s.Copied b a na i → s'.Copied b a na i := by
    rintro b a na i ⟨hb, ha, hdraft, hwhole, htwice, t, ht, hcopied⟩
    rw [← hbottom] at hb
    rw [← harray] at ha
    rw [← hallocated] at hdraft
    rw [← harrays] at hwhole htwice hcopied
    exact ⟨hb, ha, hdraft, hwhole, htwice, t, Nat.le_trans ht htop, hcopied⟩
  unfold State.OwnerOk at h ⊢
  rw [howner]
  cases hpc : s.owner with
  | idle => trivial
  | pushTop x b =>
      rw [hpc] at h
      exact hbottom.trans h
  | pushArray x b t =>
      rw [hpc] at h
      rw [hcurrent]
      exact ⟨hbottom.trans h.1, Nat.le_trans h.2.1 htop, h.2.2⟩
  | grow x b a na i =>
      rw [hpc] at h
      exact hcopied h
  | growPut x b a na i v =>
      rw [hpc] at h
      rw [harrays]
      exact ⟨hcopied h.1, h.2⟩
  | put x b a =>
      rw [hpc] at h
      rw [hcurrent]
      exact ⟨hbottom.trans h.1, harray.trans h.2.1,
        Nat.lt_of_lt_of_le h.2.2 (Nat.add_le_add_right htop _)⟩
  | pushBottom x b =>
      rw [hpc] at h
      rw [hcurrent]
      exact ⟨hbottom.trans h.1, Nat.lt_of_lt_of_le h.2.1 (Nat.add_le_add_right htop _), h.2.2⟩
  | popArray b =>
      rw [hpc] at h
      exact hbottom.trans h
  | popBottom b a =>
      rw [hpc] at h
      exact ⟨hbottom.trans h.1, harray.trans h.2⟩
  | popTop b a =>
      rw [hpc] at h
      exact ⟨hbottom.trans h.1, harray.trans h.2⟩
  | popRead b a t =>
      rw [hpc] at h
      exact ⟨hbottom.trans h.1, harray.trans h.2.1, h.2.2.1, Nat.le_trans h.2.2.2 htop⟩
  | popCas b t x =>
      rw [hpc] at h
      rw [hcurrent]
      exact ⟨hbottom.trans h.1, h.2.1, Nat.le_trans h.2.2.1 htop, h.2.2.2⟩
  | restore b r =>
      rw [hpc] at h
      exact ⟨hbottom.trans h.1, (hrestore b r hpc).trans h.2⟩

/-- A step that changes only where thief `k` is. -/
theorem State.Inv.setThief (h : s.Inv) (k : Nat) {pc : Thief T} (hpc : s.ThiefOk pc) :
    (s.setThief k pc).Inv := by
  have howner : (s.setThief k pc).OwnerOk :=
    h.owner.raise rfl rfl rfl rfl rfl (Nat.le_refl _) fun _ _ _ => rfl
  refine ⟨h.one_le, h.top_le, h.room, h.whole, h.published, howner, fun j => ?_, h.perm, h.order⟩
  have hok : s.ThiefOk (Function.update s.thieves k pc j) := by
    rw [Function.update_apply]
    split
    · exact hpc
    · exact h.thief j
  exact hok.same rfl id (fun _ ha => ha) (fun _ => rfl) fun _ _ _ => rfl

/-- The compare-and-swap succeeds: the item at `top_` is the thief's. -/
theorem State.Inv.steal_won (h : s.Inv) {t : Nat} {x : T} (hpc : s.thieves k = .cas t x)
    (ht : s.top = t) : State.Inv { s with top := t + 1, returned := s.returned ++ [x] } := by
  have hok := h.thief k
  rw [hpc] at hok
  obtain ⟨-, hitem⟩ := hok
  obtain ⟨hlt, rfl⟩ := hitem ht.symm
  subst ht
  have hroom := h.room
  have hlive : s.live = s.current.get s.top ::
      State.live { s with top := s.top + 1, returned := s.returned ++ [s.current.get s.top] } := by
    show _ = s.current.get s.top ::
      (List.range' (s.top + 1) (s.limit - (s.top + 1))).map s.current.get
    rw [State.live, ← List.map_cons, ← List.range'_succ]
    congr 2
    omega
  constructor
  · exact Nat.le_add_left 1 _
  · exact hlt
  · show s.limit ≤ s.top + 1 + s.current.capacity
    omega
  · exact h.whole
  · exact h.published
  · refine h.owner.raise rfl rfl rfl rfl rfl (Nat.le_succ _) fun b r hrestore => ?_
    -- An owner that has found the deque empty leaves nothing to steal.
    have howner := h.owner
    simp only [State.OwnerOk, hrestore] at howner
    simp only [State.limit, hrestore] at hlt
    omega
  · intro j
    exact (h.thief j).past (Nat.lt_succ_self _) fun _ ha => ha
  · have hperm := h.perm
    rw [State.ledger, hlive] at hperm
    refine List.Perm.trans ?_ hperm
    rw [State.ledger, List.append_assoc]
    refine List.Perm.append_left _ ?_
    have hmiddle : (s.current.get s.top :: (s.leaving ++ (State.live { s with
        top := s.top + 1, returned := s.returned ++ [s.current.get s.top] } ++ s.entering))).Perm
        (s.leaving ++ s.current.get s.top :: (State.live { s with
          top := s.top + 1, returned := s.returned ++ [s.current.get s.top] } ++ s.entering)) :=
      List.perm_middle.symm
    exact hmiddle
  · have horder := h.order
    rw [hlive] at horder
    exact (List.sublist_cons_self _ _).trans horder

/-- Every step of a thief keeps the invariant. -/
theorem State.Inv.thiefNext (h : s.Inv) (hstep : thiefNext k s = some s') : s'.Inv := by
  have hok := h.thief k
  unfold WorkStealing.thiefNext at hstep
  cases hpc : s.thieves k with
  | idle =>
      rw [hpc] at hstep
      cases hstep
  | loadBottom t =>
      rw [hpc] at hstep hok
      obtain rfl := Option.some.inj hstep
      apply h.setThief
      split
      · trivial
      · next hlt =>
          refine ⟨hok, fun _ => ?_⟩
          have hlimit : s.bottom ≤ s.limit := by
            unfold State.limit
            split
            all_goals first | omega | (split <;> omega)
          omega
  | loadArray t =>
      rw [hpc] at hstep hok
      obtain rfl := Option.some.inj hstep
      apply h.setThief
      exact ⟨hok.1, h.published, fun heq => ⟨hok.2 heq, rfl⟩⟩
  | read t a =>
      rw [hpc] at hstep hok
      obtain rfl := Option.some.inj hstep
      apply h.setThief
      exact ⟨hok.1, hok.2.2⟩
  | cas t x =>
      rw [hpc] at hstep
      dsimp only at hstep
      split at hstep
      · next ht =>
          obtain rfl := Option.some.inj hstep
          exact (h.steal_won hpc ht).setThief k trivial
      · obtain rfl := Option.some.inj hstep
        exact h.setThief k trivial

/-! ### Runs -/

theorem inv_create (junk : Nat → T) : (create junk).Inv := by
  refine ⟨Nat.le_refl 1, Nat.le_refl 1, ?_, ⟨10, rfl⟩, ⟨Nat.one_pos, trivial⟩, trivial,
    fun _ => trivial, List.Perm.nil, List.nil_sublist _⟩
  show 1 ≤ 1 + 1024
  omega

/-- Every step keeps the invariant. -/
theorem State.Inv.next (h : s.Inv) {l : Label T} (hstep : next s l = some s') : s'.Inv := by
  cases l with
  | push x =>
      simp only [WorkStealing.next] at hstep
      split at hstep
      · next hidle =>
          obtain rfl := Option.some.inj hstep
          exact h.push hidle x
      · cases hstep
  | pop =>
      simp only [WorkStealing.next] at hstep
      split at hstep
      · next hidle =>
          obtain rfl := Option.some.inj hstep
          exact h.pop hidle
      · cases hstep
  | owner junk => exact h.ownerNext hstep
  | steal k =>
      simp only [WorkStealing.next] at hstep
      split at hstep
      · obtain rfl := Option.some.inj hstep
        exact h.setThief k (Nat.le_refl s.top)
      · cases hstep
  | thief k => exact h.thiefNext hstep

theorem reach_inv {junk : Nat → T} (h : (deque junk).Reach Machine.Any s) : s.Inv :=
  h.invariant (fun _ hs => hs ▸ inv_create junk) fun _ _ _ hinv _ hstep => hinv.next hstep

/-- When all calls have returned, the items are those between the indices. -/
theorem State.Quiet.ledger (h : s.Quiet) : s.ledger = s.returned ++ s.items := by
  simp only [State.ledger, State.leaving, State.entering, State.live, State.limit, h.1,
    List.append_nil, List.nil_append]
  rfl

/-- Every item is returned at most once and only if it has been pushed, and when all calls have
returned, the items not returned are those at the indices from `top_` to `bottom_ - 1`, in the
order in which they have been pushed. -/
theorem delivered_once {junk : Nat → T} (h : (deque junk).Reach Machine.Any s) :
    s.returned.Subperm s.pushed ∧
    (s.Quiet → (s.returned ++ s.items).Perm s.pushed ∧ s.items.Sublist s.pushed) ∧
    (s.pushed.Nodup → s.returned.Nodup ∧
      (s.Quiet → ∀ x, x ∈ s.items ↔ x ∈ s.pushed ∧ x ∉ s.returned)) := by
  have hinv := reach_inv h
  have hquiet : s.Quiet → (s.returned ++ s.items).Perm s.pushed ∧ s.items.Sublist s.pushed := by
    intro hq
    have hperm := hinv.perm
    have horder := hinv.order
    rw [hq.ledger] at hperm
    simp only [State.entering, State.live, State.limit, hq.1, List.append_nil] at horder
    exact ⟨hperm, horder⟩
  have hsub : s.returned.Subperm s.pushed :=
    (List.sublist_append_left _ _).subperm.trans hinv.perm.subperm
  refine ⟨hsub, hquiet, fun hnodup => ⟨?_, fun hq x => ?_⟩⟩
  · exact (hinv.perm.nodup_iff.mpr hnodup).sublist (List.sublist_append_left _ _)
  · obtain ⟨hperm, -⟩ := hquiet hq
    have hdisjoint := List.nodup_append.mp (hperm.nodup_iff.mpr hnodup)
    rw [← hperm.mem_iff, List.mem_append]
    constructor
    · intro hx
      exact ⟨.inr hx, fun hr => hdisjoint.2.2 x hr x hx rfl⟩
    · rintro ⟨hx | hx, hnot⟩
      · exact absurd hx hnot
      · exact hx

/-- The owner pushes 7 and 8, and a thief steals 7 while the owner pops. -/
def exampleRun : List (Label Nat) :=
  let push (x : Nat) := Label.push x :: List.replicate 4 (.owner id)
  push 7 ++ push 8 ++ [.steal 0, .thief 0, .pop, .owner id, .thief 0, .owner id, .thief 0,
    .owner id, .thief 0, .owner id]

/-- In this run the owner gets 8 without a compare-and-swap. -/
theorem delivered_once_run : ∃ s, (deque (id : Nat → Nat)).Reach Machine.Any s ∧
    s.pushed = [7, 8] ∧ s.returned.Nodup ∧ s.returned = [7, 8] := by
  have hrun : (Machine.replay next (fun _ _ => true) (create id) exampleRun).map
      (fun s => (s.pushed, s.returned)) = some ([7, 8], [7, 8]) := by
    decide
  obtain ⟨s, hs, hend⟩ := Option.map_eq_some_iff.mp hrun
  obtain ⟨hpushed, hreturned⟩ := Prod.mk.inj hend
  have hreach : (deque (id : Nat → Nat)).Reach Machine.Any s :=
    .of_replay (fun _ _ _ => trivial) (.init rfl) hs
  have hnodup : s.pushed.Nodup := by
    rw [hpushed]
    decide
  exact ⟨s, hreach, hpushed, ((delivered_once hreach).2.2 hnodup).1, hreturned⟩

end NanoVault.Utils.WorkStealing
