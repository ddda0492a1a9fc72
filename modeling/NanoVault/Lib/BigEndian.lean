/-
Numbers as bytes, the most significant first.

`bytes n v` are the `n` last digits of `v` to the base 256, and `value` is the number a list of
bytes stands for; `value_bytes` reads back what was written.
-/
import Mathlib

namespace Lib.BigEndian

/-- The number a list of bytes stands for. -/
def value (bs : List UInt8) : Nat := bs.foldl (fun acc b => acc * 256 + b.toNat) 0

def bytes : Nat → Nat → List UInt8
  | 0, _ => []
  | n + 1, v => bytes n (v / 256) ++ [UInt8.ofNat v]

theorem length_bytes (n v : Nat) : (bytes n v).length = n := by
  induction n generalizing v with
  | zero => rfl
  | succ n ih => rw [bytes, List.length_append, ih, List.length_singleton]

theorem value_concat (bs : List UInt8) (b : UInt8) :
    value (bs ++ [b]) = value bs * 256 + b.toNat := by
  rw [value, List.foldl_append]
  rfl

/-- The digits of a number that fits are read back as the number. -/
theorem value_bytes {n v : Nat} (h : v < 256 ^ n) : value (bytes n v) = v := by
  induction n generalizing v with
  | zero =>
      rw [Nat.pow_zero] at h
      obtain rfl := Nat.lt_one_iff.mp h
      rfl
  | succ n ih =>
      have hhigh : v / 256 < 256 ^ n := by
        rw [Nat.pow_succ] at h
        omega
      have hlow : (UInt8.ofNat v).toNat = v % 256 := UInt8.toNat_ofNat'
      rw [bytes, value_concat, ih hhigh, hlow]
      omega

end Lib.BigEndian
