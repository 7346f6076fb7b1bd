import Mathlib.Data.Nat.Cast.Order.Field
import Mathlib.Data.Rat.Floor
import Mathlib.Tactic.FieldSimp
import Mathlib.Tactic.Ring

/-!
# Rounded Quotients of Natural Numbers

A quotient rounded to the nearest integer, halves up, is a division of natural numbers
again, and so is its half.

## Main results

* `floor_div_add_half`: rounding the rational quotient is `roundDiv`.
* `roundDiv_div_two`: rounding first and halving after that is one division.
-/

namespace RoundedQuotient

variable {b : ℕ}

/-- The quotient rounded to the nearest integer, halves up. -/
def roundDiv (a b : ℕ) : ℕ := (2 * a + b) / (2 * b)

/-- Rounding the rational quotient. -/
theorem floor_div_add_half (a : ℕ) (hb : 0 < b) :
    ⌊(a : ℚ) / b + 1 / 2⌋ = (roundDiv a b : ℤ) := by
  have hb' : (b : ℚ) ≠ 0 := by exact_mod_cast hb.ne'
  have hsum : (a : ℚ) / b + 1 / 2 = ((2 * a + b : ℕ) : ℚ) / ((2 * b : ℕ) : ℚ) := by
    push_cast
    field_simp
  rw [hsum, Rat.floor_natCast_div_natCast]
  rfl

/-- Rounding first and halving after that, with the rest dropped both times. -/
theorem roundDiv_div_two (a b : ℕ) : roundDiv a b / 2 = (2 * a + b) / (4 * b) := by
  rw [roundDiv, Nat.div_div_eq_div_mul]
  congr 1
  ring

end RoundedQuotient
