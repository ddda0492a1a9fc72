/-
Parsers that take tokens from the front of a list.

`Consumes p ts a rest` says that the parser `p` reads `a` off the tokens `ts` and leaves `rest`. The
simp set brings it through the operations of the monad, so that what a whole parser takes comes
out as a statement about its tokens. `separated` is the loop that reads one item after the
other as long as a separator follows; `consumes_separated` says what it takes, whatever the item.
-/
import Mathlib.Data.List.Basic
import Mathlib.Tactic.Common

namespace Lib.Parsing

variable {τ ε α β : Type}

abbrev Parser (τ ε : Type) := StateT (List τ) (Except ε)

/-- The parser reads `a` and leaves `rest`. -/
def Consumes (p : Parser τ ε α) (ts : List τ) (a : α) (rest : List τ) : Prop := p ts = .ok (a, rest)

variable {p : Parser τ ε α} {f : α → Parser τ ε β} {ts rest : List τ} {a : α} {b : β}

/-- A parser takes at most one value off its tokens. -/
theorem Consumes.unique {a' : α} {rest' : List τ} (h : Consumes p ts a rest)
    (h' : Consumes p ts a' rest') : a = a' ∧ rest = rest' := by
  unfold Consumes at h h'
  rw [h] at h'
  cases h'
  exact ⟨rfl, rfl⟩

/-- What a parser takes is all it can take. -/
theorem Consumes.iff (h : Consumes p ts a rest) {a' : α} {rest' : List τ} :
    Consumes p ts a' rest' ↔ a' = a ∧ rest' = rest := by
  constructor
  · intro h'
    exact h'.unique h
  · rintro ⟨rfl, rfl⟩
    exact h

@[simp] theorem consumes_pure {a' : α} :
    Consumes (pure a : Parser τ ε α) ts a' rest ↔ a' = a ∧ rest = ts := by
  constructor
  · intro h
    cases h
    exact ⟨rfl, rfl⟩
  · rintro ⟨rfl, rfl⟩
    rfl

@[simp] theorem consumes_bind :
    Consumes (p >>= f) ts b rest ↔ ∃ a mid, Consumes p ts a mid ∧ Consumes (f a) mid b rest := by
  have hbind : (p >>= f) ts = p ts >>= fun r => f r.1 r.2 := rfl
  unfold Consumes
  rw [hbind]
  constructor
  · intro h
    cases hp : p ts with
    | error e =>
        rw [hp] at h
        cases h
    | ok r =>
        rw [hp] at h
        exact ⟨r.1, r.2, rfl, h⟩
  · rintro ⟨a, mid, hp, hf⟩
    rw [hp]
    exact hf

/-- What is read first, and what then. -/
theorem Consumes.bind_iff {mid : List τ} (h : Consumes p ts a mid) :
    Consumes (p >>= f) ts b rest ↔ Consumes (f a) mid b rest := by
  rw [consumes_bind]
  constructor
  · rintro ⟨a', mid', ha, hf⟩
    obtain ⟨rfl, rfl⟩ := h.iff.mp ha
    exact hf
  · intro hf
    exact ⟨a, mid, h, hf⟩

@[simp] theorem consumes_map {g : α → β} :
    Consumes (g <$> p) ts b rest ↔ ∃ a, Consumes p ts a rest ∧ b = g a := by
  rw [← bind_pure_comp, consumes_bind]
  constructor
  · rintro ⟨a, mid, ha, hb⟩
    obtain ⟨rfl, rfl⟩ := consumes_pure.mp hb
    exact ⟨a, ha, rfl⟩
  · rintro ⟨a, ha, rfl⟩
    exact ⟨a, rest, ha, consumes_pure.mpr ⟨rfl, rfl⟩⟩

@[simp] theorem consumes_throw {e : ε} : ¬ Consumes (throw e : Parser τ ε α) ts a rest := nofun

@[simp] theorem consumes_get {ts' : List τ} :
    Consumes (get : Parser τ ε (List τ)) ts ts' rest ↔ ts' = ts ∧ rest = ts := by
  constructor
  · intro h
    cases h
    exact ⟨rfl, rfl⟩
  · rintro ⟨rfl, rfl⟩
    rfl

theorem consumes_got {g : List τ → Parser τ ε β} :
    Consumes (do let tokens ← get; g tokens) ts b rest ↔ Consumes (g ts) ts b rest :=
  (consumes_get.mpr ⟨rfl, rfl⟩).bind_iff

@[simp] theorem consumes_set {ts' : List τ} {u : PUnit} :
    Consumes (set ts' : Parser τ ε PUnit) ts u rest ↔ rest = ts' := by
  constructor
  · intro h
    cases h
    rfl
  · rintro rfl
    rfl

@[simp] theorem consumes_lift {x : Except ε α} :
    Consumes (liftM x : Parser τ ε α) ts a rest ↔ x = .ok a ∧ rest = ts := by
  cases x with
  | ok a' =>
      constructor
      · intro h
        cases h
        exact ⟨rfl, rfl⟩
      · rintro ⟨h, rfl⟩
        cases h
        rfl
  | error e =>
      constructor
      · intro h
        cases h
      · rintro ⟨h, -⟩
        cases h

theorem consumes_lifted :
    Consumes (liftM (.ok a : Except ε α) >>= f) ts b rest ↔ Consumes (f a) ts b rest :=
  (consumes_lift.mpr ⟨rfl, rfl⟩).bind_iff

/-! ### Items with separators -/

/-- Items are read as long as `more` says that a separator has been taken, and no more of them
than there are `rounds`. -/
def separated (item : Parser τ ε α) (more : Parser τ ε Bool) : Nat → Parser τ ε (List α)
  | 0 => return []
  | rounds + 1 => do
      let a ← item
      if ← more then return a :: (← separated item more rounds) else return [a]

/-- The tokens of one item, or of several with separators between them. -/
inductive Separated (item : Parser τ ε α) (more : Parser τ ε Bool) :
    List τ → List α → List τ → Prop
  | last {ts mid rest : List τ} {a : α} : Consumes item ts a mid → Consumes more mid false rest →
      Separated item more ts [a] rest
  | next {ts mid mid' rest : List τ} {a : α} {as : List α} : Consumes item ts a mid →
      Consumes more mid true mid' → Separated item more mid' as rest →
      Separated item more ts (a :: as) rest

variable {item : Parser τ ε α} {more : Parser τ ε Bool} {as : List α} {rounds : Nat}

theorem Separated.ne_nil (h : Separated item more ts as rest) : as ≠ [] := by
  cases h <;> nofun

/-- With a round for each token and more, the loop takes all items there are. -/
theorem consumes_separated
    (hitem : ∀ ts a rest, Consumes item ts a rest → rest.length < ts.length)
    (hmore : ∀ ts b rest, Consumes more ts b rest → rest.length ≤ ts.length)
    (hrounds : ts.length < rounds) :
    Consumes (separated item more rounds) ts as rest ↔ Separated item more ts as rest := by
  induction rounds generalizing ts as with
  | zero => exact absurd hrounds (Nat.not_lt_zero _)
  | succ rounds ih =>
      simp only [separated, consumes_bind]
      constructor
      · rintro ⟨a, mid, ha, b, mid', hb, h⟩
        cases b with
        | false =>
            simp only [Bool.false_eq_true, if_false, consumes_pure] at h
            obtain ⟨rfl, rfl⟩ := h
            exact .last ha hb
        | true =>
            simp only [if_true, consumes_bind, consumes_pure] at h
            obtain ⟨as', rest', has, rfl, rfl⟩ := h
            have hlt := hitem _ _ _ ha
            have hle := hmore _ _ _ hb
            exact .next ha hb ((ih (by omega)).mp has)
      · intro h
        cases h with
        | last ha hb => exact ⟨_, _, ha, false, _, hb, by simp⟩
        | @next _ mid mid' _ a as' ha hb hrest =>
            have hlt := hitem _ _ _ ha
            have hle := hmore _ _ _ hb
            refine ⟨a, mid, ha, true, mid', hb, ?_⟩
            simp only [if_true, consumes_bind, consumes_pure]
            exact ⟨as', rest, (ih (by omega)).mpr hrest, rfl, rfl⟩

end Lib.Parsing
