/-
Programs that read memory.

`mem` gives the bytes that may be read; a program is a value of `Except Fault` and ends in a
fault when it reads anything else, when it copies more than its buffer holds, or when a loop has
used up its fuel. `loop_eq` is the rule for loops: if every turn either ends with the answer of
its state or leads to a smaller state with the same answer, then the loop returns the answer,
without a fault, given more fuel than the size of its state.
-/
import Mathlib.Data.List.Basic

namespace Lib.Reads

inductive Fault where
  | outOfBounds (address : Nat)
  | overflow (size : Nat)
  | timeout
deriving DecidableEq, Repr

variable {α σ β γ : Type}

/-- A byte of the memory. -/
def load (mem : Nat → Option α) (p : Nat) : Except Fault α :=
  match mem p with
  | some a => .ok a
  | none => .error (.outOfBounds p)

def loadRange (mem : Nat → Option α) (p : Nat) : Nat → Except Fault (List α)
  | 0 => .ok []
  | n + 1 => do
      let a ← load mem p
      let rest ← loadRange mem (p + 1) n
      return a :: rest

/-- `memcpy` of `n` bytes to a buffer that may take `room`. -/
def copy (mem : Nat → Option α) (room p n : Nat) : Except Fault (List α) :=
  if room < n then .error (.overflow n) else loadRange mem p n

/-- Whether the bytes at `p` are `key`, up to the first one that is not. -/
def startsWith [DecidableEq α] (mem : Nat → Option α) : List α → Nat → Except Fault Bool
  | [], _ => return true
  | a :: key, p => do
      let b ← load mem p
      if b = a then startsWith mem key (p + 1) else return false

/-- A loop whose turns end with a new state or with its answer. -/
def loop (body : σ → Except Fault (σ ⊕ β)) : Nat → σ → Except Fault β
  | 0, _ => .error .timeout
  | fuel + 1, s => do
      match ← body s with
      | .inl s' => loop body fuel s'
      | .inr b => return b

@[simp] theorem ok_bind (a : α) (f : α → Except Fault β) : (Except.ok a >>= f) = f a := rfl

@[simp] theorem pure_eq_ok (a : α) : (pure a : Except Fault α) = .ok a := rfl

theorem load_eq {mem : Nat → Option α} {p : Nat} {a : α} (h : mem p = some a) :
    load mem p = .ok a := by
  rw [load, h]

theorem loop_eq {body : σ → Except Fault (σ ⊕ β)} (Inv : σ → Prop) (size : σ → Nat)
    (answer : σ → β)
    (hbody : ∀ s, Inv s → body s = .ok (.inr (answer s)) ∨
      ∃ s', body s = .ok (.inl s') ∧ Inv s' ∧ size s' < size s ∧ answer s' = answer s)
    {s : σ} (hs : Inv s) {fuel : Nat} (hfuel : size s < fuel) :
    loop body fuel s = .ok (answer s) := by
  induction fuel generalizing s with
  | zero => exact absurd hfuel (Nat.not_lt_zero _)
  | succ fuel ih =>
      rw [loop]
      rcases hbody s hs with hend | ⟨s', hnext, hs', hless, hanswer⟩
      · rw [hend]
        rfl
      · rw [hnext, ok_bind, ← hanswer]
        exact ih hs' (by omega)

end Lib.Reads
