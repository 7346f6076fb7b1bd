import Mathlib.Algebra.Ring.Nat
import Mathlib.Logic.Function.Iterate

/-!
# Unsigned Counters of Fixed Width

Machine counters of `w` bits as natural numbers below `2 ^ w`. Incrementing past the
top and decrementing below zero wrap, and the lemmas say when they do not.
-/

namespace Counter

variable {w n k : ℕ}

/-- Addition in a counter of `w` bits. -/
def add (w n k : ℕ) : ℕ := (n + k) % 2 ^ w

/-- Decrement in a counter of `w` bits; below zero it wraps to the largest value. -/
def pred (w n : ℕ) : ℕ := (n + (2 ^ w - 1)) % 2 ^ w

theorem add_lt (w n k : ℕ) : add w n k < 2 ^ w :=
  Nat.mod_lt _ (Nat.two_pow_pos w)

theorem add_le (w n k : ℕ) : add w n k ≤ n + k :=
  Nat.mod_le _ _

/-- Addition is exact while the sum fits. -/
theorem add_of_lt (h : n + k < 2 ^ w) : add w n k = n + k :=
  Nat.mod_eq_of_lt h

/-- Decrement is exact on a positive counter. -/
theorem pred_of_pos (h : 0 < n) (hn : n ≤ 2 ^ w) : pred w n = n - 1 := by
  have hw := Nat.two_pow_pos w
  have hsum : n + (2 ^ w - 1) = 2 ^ w + (n - 1) := by omega
  rw [pred, hsum, Nat.add_mod_left]
  exact Nat.mod_eq_of_lt (by omega)

/-- Decrementing zero wraps to the largest value. -/
theorem pred_zero (w : ℕ) : pred w 0 = 2 ^ w - 1 := by
  have hw := Nat.two_pow_pos w
  rw [pred, Nat.zero_add]
  exact Nat.mod_eq_of_lt (by omega)

/-- Counting up one by one. -/
theorem iterate_add_one (h : n < 2 ^ w) (k : ℕ) : (fun m => add w m 1)^[k] n = add w n k := by
  induction k with
  | zero => exact (Nat.mod_eq_of_lt h).symm
  | succ k ih =>
      rw [Function.iterate_succ_apply', ih]
      exact Nat.mod_add_mod _ _ _

end Counter
