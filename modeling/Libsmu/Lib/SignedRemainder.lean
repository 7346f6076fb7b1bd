import Mathlib.Algebra.Order.ToIntervalMod
import Mathlib.Tactic.Ring
import Mathlib.Tactic.Linarith
import Mathlib.Tactic.Positivity

/-!
# Remainders that Keep the Sign

The remainder of a division that rounds toward zero has the sign of the dividend, as the
`fmod` of C. `wrap` is the remainder that is never negative: the place of a number in its
cycle. The two differ by one cycle at most, and a counter that keeps the first is always at
the place that the second says.

## Main results

* `wrap_fmod`: the place of a remainder is the place of the number.
* `wrap_iterate`, `iterate_of_nonneg`, `iterate_of_neg`: a counter that is turned back by
  the remainder, from either side of zero.
-/

namespace SignedRemainder

variable {α : Type*} [Field α] [LinearOrder α] [FloorRing α] {x p : α}

/-- Rounding toward zero. -/
def trunc (x : α) : ℤ := if x < 0 then ⌈x⌉ else ⌊x⌋

/-- Above zero the truncation is the floor. -/
theorem trunc_of_nonneg (hx : 0 ≤ x) : trunc x = ⌊x⌋ := if_neg hx.not_gt

/-- The remainder with the sign of the dividend. -/
def fmod (x p : α) : α := x - p * trunc (x / p)

/-- The place of a number in its cycle. -/
def wrap (x p : α) : α := p * Int.fract (x / p)

/-- The remainder over the period is the fractional part of the quotient. -/
theorem wrap_div (hp : 0 < p) (x : α) : wrap x p / p = Int.fract (x / p) :=
  mul_div_cancel_left₀ _ hp.ne'

variable [IsStrictOrderedRing α]

/-- Below zero it is the ceiling. -/
theorem trunc_of_neg (hx : x < 0) : trunc x = -⌊-x⌋ := by
  rw [trunc, if_pos hx, Int.floor_neg, neg_neg]

/-! ### The place in a cycle -/

/-- The remainder is Mathlib's `toIcoMod` from zero on. -/
theorem wrap_eq_toIcoMod (hp : 0 < p) (x : α) : wrap x p = toIcoMod hp 0 x := by
  rw [toIcoMod_eq_fract_mul, wrap, mul_comm]

/-- The remainder is not negative. -/
theorem wrap_nonneg (hp : 0 < p) (x : α) : 0 ≤ wrap x p :=
  mul_nonneg hp.le (Int.fract_nonneg _)

/-- It is less than the period. -/
theorem wrap_lt (hp : 0 < p) (x : α) : wrap x p < p :=
  mul_lt_of_lt_one_right hp (Int.fract_lt_one _)

/-- What is within the period stays. -/
theorem wrap_of_mem (h0 : 0 ≤ x) (hx : x < p) : wrap x p = x := by
  rw [wrap_eq_toIcoMod (h0.trans_lt hx), toIcoMod_eq_self, zero_add]
  exact ⟨h0, hx⟩

/-- Whole cycles do not move the place. -/
@[simp] theorem wrap_add_mul (hp : 0 < p) (x : α) (k : ℤ) : wrap (x + p * k) p = wrap x p := by
  rw [wrap_eq_toIcoMod hp, wrap_eq_toIcoMod hp, mul_comm, toIcoMod_add_intCast_mul]

/-- A period more makes no difference. -/
theorem wrap_add_self (hp : 0 < p) (x : α) : wrap (x + p) p = wrap x p := by
  simpa using wrap_add_mul hp x 1

/-- One cycle before zero the place is one cycle on. -/
theorem wrap_of_neg (hx : -p ≤ x) (h0 : x < 0) : wrap x p = x + p := by
  rw [← wrap_add_self (by linarith)]
  exact wrap_of_mem (by linarith) (by linarith)

/-- One of two summands can be brought back before they are added. -/
theorem wrap_wrap_add (hp : 0 < p) (x y : α) : wrap (wrap x p + y) p = wrap (x + y) p := by
  have hsplit : wrap x p + y = x + y + p * ((-⌊x / p⌋ : ℤ) : α) := by
    rw [wrap, Int.fract, mul_sub, mul_div_cancel₀ _ hp.ne']
    push_cast
    ring
  rw [hsplit, wrap_add_mul hp]

/-! ### The remainder -/

/-- **The remainder is at the place of the number.** -/
theorem wrap_fmod (hp : 0 < p) (x : α) : wrap (fmod x p) p = wrap x p := by
  have hsplit : fmod x p = x + p * ((-trunc (x / p) : ℤ) : α) := by
    rw [fmod]
    push_cast
    ring
  rw [hsplit, wrap_add_mul hp]

/-- Above zero `fmod` is the remainder. -/
theorem fmod_of_nonneg (hp : 0 < p) (hx : 0 ≤ x) : fmod x p = wrap x p := by
  rw [fmod, trunc_of_nonneg (div_nonneg hx hp.le), wrap, Int.fract, mul_sub,
    mul_div_cancel₀ _ hp.ne']

/-- Below zero it is that of the opposite number, with its sign. -/
theorem fmod_of_neg (hp : 0 < p) (hx : x < 0) : fmod x p = -wrap (-x) p := by
  rw [fmod, trunc_of_neg (div_neg_of_neg_of_pos hx hp), wrap, Int.fract, mul_sub, ← neg_div,
    mul_div_cancel₀ _ hp.ne']
  push_cast
  ring

/-- `fmod` is less than the period. -/
theorem fmod_lt (hp : 0 < p) (x : α) : fmod x p < p := by
  rcases le_or_gt 0 x with hx | hx
  · rw [fmod_of_nonneg hp hx]
    exact wrap_lt hp x
  · rw [fmod_of_neg hp hx]
    linarith [wrap_nonneg hp (-x)]

/-- It is more than the opposite of the period. -/
theorem neg_lt_fmod (hp : 0 < p) (x : α) : -p < fmod x p := by
  rcases le_or_gt 0 x with hx | hx
  · rw [fmod_of_nonneg hp hx]
    linarith [wrap_nonneg hp x]
  · rw [fmod_of_neg hp hx]
    linarith [wrap_lt hp (-x)]

/-- What is less than a period away from zero stays. -/
theorem fmod_of_lt (hx : -p < x) (hxp : x < p) : fmod x p = x := by
  have hp : 0 < p := by linarith
  rcases le_or_gt 0 x with h0 | h0
  · rw [fmod_of_nonneg hp h0, wrap_of_mem h0 hxp]
  · rw [fmod_of_neg hp h0, wrap_of_mem (by linarith) (by linarith), neg_neg]

/-! ### A counter that is turned back -/

/-- A counter that takes one step and is turned back by the remainder. -/
def turn (p x : α) : α := fmod (x + 1) p

/-- **The counter is at the place that its start and the steps say.** -/
theorem wrap_iterate (hp : 0 < p) (x : α) (i : ℕ) :
    wrap ((turn p)^[i] x) p = wrap (x + i) p := by
  induction i with
  | zero => simp
  | succ i ih =>
      calc wrap ((turn p)^[i + 1] x) p = wrap ((turn p)^[i] x + 1) p := by
            rw [Function.iterate_succ_apply', turn, wrap_fmod hp]
        _ = wrap (x + i + 1) p := by rw [← wrap_wrap_add hp, ih, wrap_wrap_add hp]
        _ = wrap (x + (i + 1 : ℕ)) p := by rw [Nat.cast_succ, add_assoc]

/-- After a turn the place is below the period. -/
theorem iterate_succ_lt (hp : 0 < p) (x : α) (i : ℕ) : (turn p)^[i + 1] x < p := by
  rw [Function.iterate_succ_apply']
  exact fmod_lt hp _

/-- It is less than a period below zero. -/
theorem neg_lt_iterate_succ (hp : 0 < p) (x : α) (i : ℕ) : -p < (turn p)^[i + 1] x := by
  rw [Function.iterate_succ_apply']
  exact neg_lt_fmod hp _

/-- From above zero it never gets below. -/
theorem iterate_nonneg (hp : 0 < p) (hx : 0 ≤ x) (i : ℕ) : 0 ≤ (turn p)^[i] x := by
  induction i with
  | zero => exact hx
  | succ i ih =>
      rw [Function.iterate_succ_apply', turn, fmod_of_nonneg hp (by linarith)]
      exact wrap_nonneg hp _

/-- From zero on the counter keeps its place itself, once it has been turned. -/
theorem iterate_of_nonneg (hp : 0 < p) (hx : 0 ≤ x) (i : ℕ) :
    (turn p)^[i + 1] x = wrap (x + (i + 1 : ℕ)) p := by
  rw [← wrap_iterate hp]
  exact (wrap_of_mem (iterate_nonneg hp hx _) (iterate_succ_lt hp x i)).symm

/-- Below zero it counts up to zero. -/
theorem iterate_of_neg (hx : -p ≤ x) {i : ℕ} (hi : x + i < 0) : (turn p)^[i] x = x + i := by
  induction i with
  | zero => simp
  | succ i ih =>
      rw [Nat.cast_succ] at hi ⊢
      rw [Function.iterate_succ_apply', ih (by linarith), turn, ← add_assoc]
      have hnonneg : (0 : α) ≤ i := i.cast_nonneg
      exact fmod_of_lt (by linarith) (by linarith)

end SignedRemainder
