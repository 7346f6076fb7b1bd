import Mathlib.Data.Nat.Digits.Lemmas
import Mathlib.Data.Rat.Floor
import Mathlib.Tactic.Linarith

/-!
# Numbers in Decimal

Rational numbers printed in fixed point: rounded to a number of places, ties to the even digit,
with a sign in front of the numbers below zero, and with as many digits before the point as are
needed.

## Main results

* `valueFrom_digits`: digits say the number they are printed for.
* `length_digits_of_lt`, `length_digits_le`: how many digits there are.
* `roundHalfEven_eq`: rounding goes to the one integer that is nearest and, of two, even.
* `rounded_eq`: what is printed is the number that rounding gives.
* `rounded_of_mul_eq`: a number with that many places is not changed.
-/

namespace DecimalText

/-! ### Digits -/

/-- The digit of a number. -/
def digit (d : ℕ) : Char := Char.ofNat ('0'.toNat + d)

/-- A natural number with `k` digits at least. -/
def digits (k n : ℕ) : List Char := ((Nat.digits 10 n).reverse.leftpad k 0).map digit

/-- The number that digits say when `n` is what those before them say. -/
def valueFrom (n : ℕ) (s : List Char) : ℕ :=
  s.foldl (fun n c => 10 * n + (c.toNat - '0'.toNat)) n

theorem toNat_digit {d : ℕ} (hd : d < 10) : (digit d).toNat - '0'.toNat = d := by
  revert d
  decide

theorem isDigit_digit {d : ℕ} (hd : d < 10) : (digit d).isDigit = true := by
  revert d
  decide

theorem lt_of_mem_leftpad {k n d : ℕ} (hd : d ∈ (Nat.digits 10 n).reverse.leftpad k 0) :
    d < 10 := by
  rw [List.leftpad, List.mem_append, List.mem_replicate, List.mem_reverse] at hd
  rcases hd with ⟨-, rfl⟩ | hd
  · omega
  · exact Nat.digits_lt_base (by omega) hd

/-- Nothing but digits is printed. -/
theorem isDigit_of_mem_digits {k n : ℕ} {c : Char} (hc : c ∈ digits k n) : c.isDigit = true := by
  obtain ⟨d, hd, rfl⟩ := List.mem_map.mp hc
  exact isDigit_digit (lt_of_mem_leftpad hd)

theorem valueFrom_append (n : ℕ) (s t : List Char) :
    valueFrom n (s ++ t) = valueFrom (valueFrom n s) t :=
  List.foldl_append

theorem valueFrom_map_digit {ds : List ℕ} (hds : ∀ d ∈ ds, d < 10) (n : ℕ) :
    valueFrom n (ds.map digit) = n * 10 ^ ds.length + Nat.ofDigits 10 ds.reverse := by
  induction ds using List.reverseRecOn with
  | nil => simp [valueFrom]
  | append_singleton ds d ih =>
      have hd : d < 10 := hds d (List.mem_append_right _ List.mem_cons_self)
      rw [List.map_append, valueFrom_append, ih fun e he => hds e (List.mem_append_left _ he),
        List.map_singleton, valueFrom, List.foldl_cons, List.foldl_nil, toNat_digit hd,
        List.reverse_append, List.reverse_singleton, List.singleton_append, Nat.ofDigits_cons,
        List.length_append, List.length_singleton, pow_succ]
      ring

/-- How many digits there are. -/
theorem length_digits (k n : ℕ) : (digits k n).length = max k (Nat.digits 10 n).length := by
  rw [digits, List.length_map, List.length_leftpad, List.length_reverse]

theorem length_digits_of_lt {k n : ℕ} (h : n < 10 ^ k) : (digits k n).length = k := by
  rw [length_digits, max_eq_left ((Nat.digits_length_le_iff (by omega) n).2 h)]

theorem length_digits_le {k m n : ℕ} (hk : k ≤ m) (h : n < 10 ^ m) : (digits k n).length ≤ m := by
  rw [length_digits]
  exact max_le hk ((Nat.digits_length_le_iff (by omega) n).2 h)

/-- **Digits say the number they are printed for**, behind others. -/
theorem valueFrom_digits (m k n : ℕ) :
    valueFrom m (digits k n) = m * 10 ^ (digits k n).length + n := by
  have hall : ∀ d ∈ (Nat.digits 10 n).reverse.leftpad k 0, d < 10 := fun d => lt_of_mem_leftpad
  rw [digits, valueFrom_map_digit hall, List.length_map]
  congr 1
  rw [List.leftpad, List.reverse_append, List.reverse_reverse, List.reverse_replicate,
    Nat.ofDigits_append_replicate_zero, Nat.ofDigits_digits]

/-! ### Fixed point -/

/-- The nearest integer, the even one of two. -/
def roundHalfEven (x : ℚ) : ℤ :=
  let f := ⌊x⌋
  if x - f < 1 / 2 then f
  else if 1 / 2 < x - f then f + 1
  else if f % 2 = 0 then f
  else f + 1

/-- How many units of the last place a number has, without its sign. -/
def units (places : ℕ) (x : ℚ) : ℕ := (roundHalfEven (|x| * 10 ^ places)).toNat

/-- A number in fixed point. -/
def fixed (places : ℕ) (x : ℚ) : List Char :=
  (if x < 0 then ['-'] else []) ++ digits 1 (units places x / 10 ^ places) ++
    '.' :: digits places (units places x % 10 ^ places)

/-- The number that is printed. -/
def rounded (places : ℕ) (x : ℚ) : ℚ :=
  (if x < 0 then -1 else 1) * units places x / 10 ^ places

/-- Rounding goes to an integer that is nearest, and to the even one of two. -/
theorem roundHalfEven_spec (x : ℚ) : |x - roundHalfEven x| ≤ 1 / 2 ∧
    (|x - roundHalfEven x| = 1 / 2 → Even (roundHalfEven x)) := by
  have hlow : (0 : ℚ) ≤ x - ⌊x⌋ := sub_nonneg.mpr (Int.floor_le x)
  have hhigh : x - ⌊x⌋ < 1 := sub_lt_iff_lt_add'.mpr (Int.lt_floor_add_one x)
  simp only [roundHalfEven]
  split_ifs with hless hmore heven
  · rw [abs_of_nonneg hlow]
    exact ⟨hless.le, fun h => absurd h hless.ne⟩
  · have habove : |x - ((⌊x⌋ + 1 : ℤ) : ℚ)| = 1 - (x - ⌊x⌋) := by
      push_cast
      rw [abs_of_neg (by linarith)]
      ring
    rw [habove]
    exact ⟨by linarith, fun h => by linarith⟩
  · rw [abs_of_nonneg hlow]
    exact ⟨not_lt.mp hmore, fun _ => Int.even_iff.mpr heven⟩
  · have habove : |x - ((⌊x⌋ + 1 : ℤ) : ℚ)| = 1 - (x - ⌊x⌋) := by
      push_cast
      rw [abs_of_neg (by linarith)]
      ring
    rw [habove]
    refine ⟨by linarith, fun _ => Int.even_iff.mpr ?_⟩
    omega

/-- There is one such integer. -/
theorem roundHalfEven_eq {x : ℚ} {n : ℤ} (hnear : |x - n| ≤ 1 / 2)
    (heven : |x - n| = 1 / 2 → Even n) : roundHalfEven x = n := by
  obtain ⟨hnear', heven'⟩ := roundHalfEven_spec x
  generalize roundHalfEven x = m at hnear' heven'
  obtain ⟨hlow, hhigh⟩ := abs_le.mp hnear
  obtain ⟨hlow', hhigh'⟩ := abs_le.mp hnear'
  have hmn : ((m - n : ℤ) : ℚ) ≤ 1 ∧ -1 ≤ ((m - n : ℤ) : ℚ) := by
    push_cast
    exact ⟨by linarith, by linarith⟩
  have hdiff : m - n ≤ 1 ∧ -1 ≤ m - n := by exact_mod_cast hmn
  -- two integers that are both nearest are next to each other, and both would be even
  by_contra hne
  have hcases : m = n + 1 ∨ m = n - 1 := by omega
  have hties : |x - m| = 1 / 2 ∧ |x - n| = 1 / 2 := by
    rcases hcases with rfl | rfl
    · push_cast at hlow' hhigh' ⊢
      have hx : x = n + 1 / 2 := by linarith
      rw [hx]
      constructor
      · rw [abs_of_neg (by linarith)]
        ring
      · rw [abs_of_nonneg (by linarith)]
        ring
    · push_cast at hlow' hhigh' ⊢
      have hx : x = n - 1 / 2 := by linarith
      rw [hx]
      constructor
      · rw [abs_of_nonneg (by linarith)]
        ring
      · rw [abs_of_neg (by linarith)]
        ring
  have hm := Int.even_iff.mp (heven' hties.1)
  have hn := Int.even_iff.mp (heven hties.2)
  omega

theorem roundHalfEven_intCast (n : ℤ) : roundHalfEven n = n :=
  roundHalfEven_eq (by norm_num) (by norm_num)

/-- Rounding does not look at the sign. -/
theorem roundHalfEven_neg (x : ℚ) : roundHalfEven (-x) = -roundHalfEven x := by
  obtain ⟨hnear, heven⟩ := roundHalfEven_spec x
  have habs : |-x - ((-roundHalfEven x : ℤ) : ℚ)| = |x - roundHalfEven x| := by
    rw [← abs_neg]
    push_cast
    congr 1
    ring
  exact roundHalfEven_eq (habs ▸ hnear) fun h => (heven (habs ▸ h)).neg

/-- Even numbers are passed through. -/
theorem roundHalfEven_add_even (x : ℚ) {m : ℤ} (hm : Even m) :
    roundHalfEven (x + m) = roundHalfEven x + m := by
  obtain ⟨hnear, heven⟩ := roundHalfEven_spec x
  have hsub : x + m - ((roundHalfEven x + m : ℤ) : ℚ) = x - roundHalfEven x := by
    push_cast
    ring
  exact roundHalfEven_eq (hsub ▸ hnear) fun h => (heven (hsub ▸ h)).add hm

theorem roundHalfEven_nonneg {x : ℚ} (h : -(1 / 2) ≤ x) : 0 ≤ roundHalfEven x := by
  obtain ⟨hnear, heven⟩ := roundHalfEven_spec x
  obtain ⟨-, hhigh⟩ := abs_le.mp hnear
  by_contra hneg
  have hle : ((roundHalfEven x : ℤ) : ℚ) ≤ -1 := by exact_mod_cast (by omega : roundHalfEven x ≤ -1)
  have hround : roundHalfEven x = -1 := by
    have hge : (-1 : ℚ) ≤ roundHalfEven x := by linarith
    have hge : -1 ≤ roundHalfEven x := by exact_mod_cast hge
    omega
  -- only -1/2 is as near, and -1 is odd
  rw [hround] at hhigh heven
  push_cast at hhigh heven
  have hx : x = -(1 / 2) := by linarith
  rw [hx] at heven
  exact absurd (heven (by norm_num)) (by decide)

/-- Rounding does not pass an integer. -/
theorem roundHalfEven_le {x : ℚ} {n : ℤ} (h : x ≤ n) : roundHalfEven x ≤ n := by
  have hfloor : ⌊x⌋ ≤ n := Int.cast_le.mp ((Int.floor_le x).trans h)
  rcases hfloor.lt_or_eq with hlt | heq
  · simp only [roundHalfEven]
    split_ifs <;> omega
  · have hx : x = n := le_antisymm h (heq ▸ Int.floor_le x)
    rw [hx, roundHalfEven_intCast]

theorem units_le {places : ℕ} {x : ℚ} {n : ℕ} (h : |x| ≤ n) : units places x ≤ n * 10 ^ places := by
  have hscaled : |x| * 10 ^ places ≤ ((n * 10 ^ places : ℕ) : ℤ) := by
    push_cast
    exact mul_le_mul_of_nonneg_right h (by positivity)
  have hround := roundHalfEven_le hscaled
  rw [units]
  omega

/-- The number that is printed is the nearest one with that many places. -/
theorem rounded_eq (places : ℕ) (x : ℚ) :
    rounded places x = roundHalfEven (x * 10 ^ places) / 10 ^ places := by
  have hunits : ∀ y : ℚ, 0 ≤ y → ((roundHalfEven y).toNat : ℚ) = roundHalfEven y := by
    intro y hy
    have hnonneg : 0 ≤ roundHalfEven y := by
      have hround : roundHalfEven (-y) ≤ (0 : ℤ) :=
        roundHalfEven_le (by rw [Int.cast_zero]; linarith)
      rw [roundHalfEven_neg] at hround
      omega
    exact_mod_cast Int.toNat_of_nonneg hnonneg
  rw [rounded, units, hunits _ (by positivity)]
  split
  · rename_i hneg
    rw [abs_of_neg hneg, neg_mul x, roundHalfEven_neg]
    push_cast
    ring
  · rename_i hneg
    rw [abs_of_nonneg (not_lt.mp hneg), one_mul]

/-- **A number with that many places is not changed.** -/
theorem rounded_of_mul_eq {places : ℕ} {x : ℚ} {n : ℤ} (h : x * 10 ^ places = n) :
    rounded places x = x := by
  rw [rounded_eq, h, roundHalfEven_intCast, ← h, mul_div_cancel_right₀ _ (by positivity)]

/-- Rounding once is enough. -/
theorem rounded_rounded (places : ℕ) (x : ℚ) :
    rounded places (rounded places x) = rounded places x := by
  refine rounded_of_mul_eq (n := roundHalfEven (x * 10 ^ places)) ?_
  rw [rounded_eq, div_mul_cancel₀ _ (by positivity)]

end DecimalText
