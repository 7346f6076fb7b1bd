import Libsmu.CalibrationRun

/-!
# The Search for a Voltage

For the calibration of the currents `pysmu cal -R` looks for the voltage at which the channel
measures 0.1 A, and then -0.1 A. `voltage_search` has channel A source 2.5 V, and goes on by four
times the difference between the mean it measures and the current it looks for, until two means in
a row have no difference. A voltage outside of 0 V to 5 V is an error.

The circuit is steady: it gives the same samples whenever channel A sources the same voltage. The
loop has a bound here on how often it is passed.

## Main results

* `voltage_search_ends_iff`: with a resistor the search ends exactly when its conductance is not
  above a quarter of a siemens, if it is below three quarters of one.
* `search_for_B_raises`: one of the searches for channel B ends with the error.
-/

namespace Libsmu

namespace VoltageSearch

open CalibrationRun DecimalText

/-! ### The loop -/

/-- How a search ends. -/
inductive Ending
  | returned (voltage : ℚ)
  /-- `ValueError` -/
  | raised

/-- What the loop keeps. -/
structure Search where
  voltage : ℚ
  previous_diff : Option ℚ

/-- The start of the loop. -/
def Search.init : Search := ⟨5 / 2, none⟩

variable (samples : ℚ → List CalibrationRun.Sample) (channel : Channel) (target_current : ℚ)

/-- One pass of the loop. -/
def pass (s : Search) : Ending ⊕ Search :=
  let current_diff := mean (samples s.voltage) channel .current - target_current
  if current_diff = 0 ∧ s.previous_diff = some current_diff then .inl (.returned s.voltage)
  else
    let voltage := s.voltage + -(current_diff * 4)
    if 5 ≤ voltage ∨ voltage ≤ 0 then .inl .raised else .inr ⟨voltage, some current_diff⟩

/-- `voltage_search`, with a number of passes at most. -/
def voltage_search : ℕ → Search → Option Ending
  | 0, _ => none
  | fuel + 1, s =>
      match pass samples channel target_current s with
      | .inl e => some e
      | .inr s => voltage_search fuel s

/-- A search ends in this way when it is passed often enough. -/
def Ends (s : Search) (e : Ending) : Prop :=
  ∃ fuel, voltage_search samples channel target_current fuel s = some e

variable {samples channel target_current} {s t : Search} {e : Ending}

theorem ends_of_pass (h : pass samples channel target_current s = .inl e) :
    Ends samples channel target_current s e :=
  ⟨1, by rw [voltage_search, h]⟩

theorem Ends.of_pass (h : pass samples channel target_current s = .inr t)
    (ht : Ends samples channel target_current t e) : Ends samples channel target_current s e := by
  obtain ⟨fuel, hfuel⟩ := ht
  refine ⟨fuel + 1, ?_⟩
  rw [voltage_search, h]
  exact hfuel

/-! ### Passes -/

/-- The voltage is not an error. -/
def InRange (voltage : ℚ) : Prop := 0 < voltage ∧ voltage < 5

/-- A pass with a difference. -/
theorem pass_of_ne_zero {s : Search} {diff : ℚ}
    (hdiff : mean (samples s.voltage) channel .current - target_current = diff) (hne : diff ≠ 0) :
    (InRange (s.voltage - 4 * diff) →
        pass samples channel target_current s = .inr ⟨s.voltage - 4 * diff, some diff⟩) ∧
      (¬InRange (s.voltage - 4 * diff) → pass samples channel target_current s = .inl .raised) := by
  have hvoltage : s.voltage + -(diff * 4) = s.voltage - 4 * diff := by ring
  simp only [pass, hdiff, hne, false_and, if_false, hvoltage, InRange]
  constructor
  · rintro ⟨hlow, hhigh⟩
    rw [if_neg (by rintro (h | h) <;> linarith)]
  · rintro hnot
    rw [if_pos (by by_contra h; rw [not_or, not_le, not_le] at h; exact hnot ⟨h.2, h.1⟩)]

/-- Without a difference the search returns, at the second pass at the latest. -/
theorem ends_of_eq_zero (hrange : InRange s.voltage)
    (hdiff : mean (samples s.voltage) channel .current - target_current = 0) :
    Ends samples channel target_current s (.returned s.voltage) := by
  have hreturn : ∀ t : Search, t.voltage = s.voltage → t.previous_diff = some 0 →
      pass samples channel target_current t = .inl (.returned s.voltage) := by
    intro t hvoltage hprevious
    simp only [pass, hvoltage, hdiff, hprevious, and_self, if_true]
  by_cases hprevious : s.previous_diff = some 0
  · exact ends_of_pass (hreturn s rfl hprevious)
  · refine Ends.of_pass (t := ⟨s.voltage, some 0⟩) ?_ (ends_of_pass (hreturn _ rfl rfl))
    have hin : ¬(5 ≤ s.voltage ∨ s.voltage ≤ 0) := by
      rintro (h | h)
      · exact absurd hrange.2 h.not_gt
      · exact absurd hrange.1 h.not_gt
    simp only [pass, hdiff, hprevious, and_false, if_false, zero_mul, neg_zero, add_zero, hin]

/-! ### Resistors -/

/-- The mean current of a channel is linear in the voltage that channel A sources, as it is with a
resistor. -/
def Ohmic (samples : ℚ → List CalibrationRun.Sample) (channel : Channel) (a b : ℚ) : Prop :=
  ∀ voltage, ((samples voltage).map fun x => x channel .current).sum /
    ((samples voltage).map fun x => x channel .current).length = a * voltage + b

/-- How much the current is above the one that is looked for, in units of the last place. -/
def excess (a b target_current voltage : ℚ) : ℚ := (a * voltage + b - target_current) * 10 ^ 4

/-- The current is reached within the range. -/
def Reached (a b target_current : ℚ) : Prop :=
  excess a b target_current 0 < -(1 / 2) ∧ 1 / 2 < excess a b target_current 5

/-- The currents that are looked for have an even last place. -/
theorem Level.even_amps (level : Level) : ∃ m : ℤ, Even m ∧ level.amps * 10 ^ 4 = m := by
  cases level with
  | zero => exact ⟨0, by decide, by norm_num [Level.amps]⟩
  | plus => exact ⟨1000, by decide, by norm_num [Level.amps]⟩
  | minus => exact ⟨-1000, by decide, by norm_num [Level.amps]⟩

section Resistor

variable {a b : ℚ} {level : Level}

/-- The difference that a pass finds. -/
theorem Ohmic.diff_eq (h : Ohmic samples channel a b) (voltage : ℚ) :
    mean (samples voltage) channel .current - level.amps =
      roundHalfEven (excess a b level.amps voltage) / 10 ^ 4 := by
  obtain ⟨m, hm, hamps⟩ := Level.even_amps level
  have hscaled : (a * voltage + b) * 10 ^ 4 = excess a b level.amps voltage + m := by
    rw [excess, ← hamps]
    ring
  have hlevel : level.amps = m / 10 ^ 4 := by rw [← hamps, mul_div_cancel_right₀ _ (by norm_num)]
  rw [mean, rounded_mean, h voltage, rounded_eq, hscaled, roundHalfEven_add_even _ hm, hlevel,
    Int.cast_add, ← sub_div, add_sub_cancel_right]

/-- A pass moves the excess by so much. -/
theorem excess_sub (voltage : ℚ) (r : ℤ) :
    excess a b target_current (voltage - 4 * (r / 10 ^ 4)) =
      excess a b target_current voltage - 4 * a * r := by
  rw [excess, excess]
  ring

theorem excess_lt_iff (ha : 0 < a) {v w : ℚ} :
    excess a b target_current v < excess a b target_current w ↔ v < w := by
  rw [excess, excess, mul_lt_mul_iff_left₀ (by positivity), sub_lt_sub_iff_right,
    add_lt_add_iff_right, mul_lt_mul_iff_right₀ ha]

/-- **The step lemma.** With a conductance that is not too large a pass goes towards the current
and not beyond it by more than half a unit. -/
theorem excess_step {k x : ℚ} {r : ℤ} (hk : 0 < k) (hk' : k ≤ 1) (hr : 1 ≤ r)
    (hnear : |x - r| ≤ 1 / 2) : -(1 / 2) ≤ x - k * r ∧ x - k * r ≤ x - k := by
  have hr' : (1 : ℚ) ≤ r := by exact_mod_cast hr
  obtain ⟨hlow, hhigh⟩ := abs_le.mp hnear
  have hstep : k * r ≤ k * (x + 1 / 2) := mul_le_mul_of_nonneg_left (by linarith) hk.le
  have hleast : k * 1 ≤ k * r := mul_le_mul_of_nonneg_left hr' hk.le
  have hrest : 0 ≤ (1 - k) * (x - 1 / 2) := mul_nonneg (by linarith) (by linarith)
  constructor
  · linarith
  · linarith

/-- The voltage that the next pass goes to. -/
theorem inRange_of_reached (ha : 0 < a) (hreached : Reached a b target_current) {σ : ℤ}
    (hσ : σ = 1 ∨ σ = -1) {v w : ℚ} (hv : InRange v)
    (hw : -(1 / 2) ≤ σ * excess a b target_current w)
    (hle : σ * excess a b target_current w ≤ σ * excess a b target_current v) : InRange w := by
  obtain ⟨hlow, hhigh⟩ := hreached
  rcases hσ with rfl | rfl
  · simp only [Int.cast_one, one_mul] at hw hle
    have hwv : w ≤ v := not_lt.mp fun h => absurd ((excess_lt_iff ha).mpr h) hle.not_gt
    exact ⟨(excess_lt_iff ha).mp (hlow.trans_le hw), hwv.trans_lt hv.2⟩
  · simp only [Int.cast_neg, Int.cast_one, neg_mul, one_mul, neg_le_neg_iff] at hw hle
    have hvw : v ≤ w := not_lt.mp fun h => absurd ((excess_lt_iff ha).mpr h) hle.not_gt
    exact ⟨hv.1.trans_le hvw, (excess_lt_iff ha).mp (lt_of_le_of_lt hw hhigh)⟩

/-- The search ends well: it ends, and when the current is reached within the range it returns a
voltage for which there is no difference in the places that are kept. -/
def EndsWell (samples : ℚ → List CalibrationRun.Sample) (channel : Channel) (a b : ℚ)
    (level : Level) (s : Search) : Prop :=
  ∃ e, Ends samples channel level.amps s e ∧ (Reached a b level.amps →
    ∃ v, e = .returned v ∧ |excess a b level.amps v| ≤ 1 / 2)

/-- Without a difference it has ended well. -/
theorem endsWell_of_eq_zero (hohm : Ohmic samples channel a b) (hrange : InRange s.voltage)
    (hzero : roundHalfEven (excess a b level.amps s.voltage) = 0) :
    EndsWell samples channel a b level s := by
  have hdiff : mean (samples s.voltage) channel .current - level.amps = 0 := by
    rw [hohm.diff_eq, hzero, Int.cast_zero, zero_div]
  have hnear := (roundHalfEven_spec (excess a b level.amps s.voltage)).1
  rw [hzero, Int.cast_zero, sub_zero] at hnear
  exact ⟨_, ends_of_eq_zero hrange hdiff, fun _ => ⟨_, rfl, hnear⟩⟩

/-- With a difference one pass is made first, or the search is given up. -/
theorem EndsWell.of_pass (hohm : Ohmic samples channel a b) {r : ℤ} (hr : r ≠ 0)
    (hround : roundHalfEven (excess a b level.amps s.voltage) = r)
    (hreached : Reached a b level.amps → InRange (s.voltage - 4 * (r / 10 ^ 4)))
    (hnext : InRange (s.voltage - 4 * (r / 10 ^ 4)) →
      EndsWell samples channel a b level ⟨s.voltage - 4 * (r / 10 ^ 4), some (r / 10 ^ 4)⟩) :
    EndsWell samples channel a b level s := by
  have hdiff : mean (samples s.voltage) channel .current - level.amps = r / 10 ^ 4 := by
    rw [hohm.diff_eq, hround]
  have hne : (r : ℚ) / 10 ^ 4 ≠ 0 := div_ne_zero (Int.cast_ne_zero.mpr hr) (by norm_num)
  obtain ⟨hgo, hraise⟩ := pass_of_ne_zero hdiff hne
  by_cases hrange : InRange (s.voltage - 4 * (r / 10 ^ 4))
  · obtain ⟨e, he, hwell⟩ := hnext hrange
    exact ⟨e, he.of_pass (hgo hrange), hwell⟩
  · exact ⟨.raised, ends_of_pass (hraise hrange), fun h => absurd (hreached h) hrange⟩

theorem roundHalfEven_sign_mul {σ : ℤ} (hσ : σ = 1 ∨ σ = -1) (x : ℚ) :
    roundHalfEven (σ * x) = σ * roundHalfEven x := by
  rcases hσ with rfl | rfl
  · rw [Int.cast_one, one_mul, one_mul]
  · rw [Int.cast_neg, Int.cast_one, neg_mul, one_mul, neg_mul, one_mul, roundHalfEven_neg]

/-- **The run lemma.** On the side of the current where the search is, `n` passes are enough. -/
theorem endsWell_of_le (ha : 0 < a) (ha' : 4 * a ≤ 1) (hohm : Ohmic samples channel a b) {σ : ℤ}
    (hσ : σ = 1 ∨ σ = -1) (n : ℕ) (hrange : InRange s.voltage)
    (hside : 0 ≤ σ * roundHalfEven (excess a b level.amps s.voltage))
    (hn : σ * excess a b level.amps s.voltage ≤ n * (4 * a)) :
    EndsWell samples channel a b level s := by
  induction n generalizing s with
  | zero =>
      refine endsWell_of_eq_zero hohm hrange ?_
      have hle : roundHalfEven (σ * excess a b level.amps s.voltage) ≤ (0 : ℤ) := by
        refine roundHalfEven_le (hn.trans ?_)
        simp
      rw [roundHalfEven_sign_mul hσ] at hle
      rcases hσ with rfl | rfl
      · omega
      · omega
  | succ n ih =>
      generalize hround : roundHalfEven (excess a b level.amps s.voltage) = r at hside
      by_cases hr : r = 0
      · exact endsWell_of_eq_zero hohm hrange (hround.trans hr)
      have hsigned : roundHalfEven (σ * excess a b level.amps s.voltage) = σ * r := by
        rw [roundHalfEven_sign_mul hσ, hround]
      have hone : 1 ≤ σ * r := by
        rcases hσ with rfl | rfl
        · omega
        · omega
      have hnear := (roundHalfEven_spec (σ * excess a b level.amps s.voltage)).1
      rw [hsigned] at hnear
      obtain ⟨hlow, hhigh⟩ := excess_step (k := 4 * a) (by linarith) ha' hone hnear
      have hmove : σ * excess a b level.amps (s.voltage - 4 * (r / 10 ^ 4)) =
          σ * excess a b level.amps s.voltage - 4 * a * (σ * r : ℤ) := by
        rw [excess_sub]
        push_cast
        ring
      refine EndsWell.of_pass hohm hr hround (fun hreached => ?_) fun hnext => ih hnext ?_ ?_
      · refine inRange_of_reached ha hreached hσ hrange (by rw [hmove]; exact hlow) ?_
        rw [hmove]
        linarith
      · rw [← roundHalfEven_sign_mul hσ]
        exact roundHalfEven_nonneg (by rw [hmove]; exact hlow)
      · rw [hmove]
        push_cast at hn
        linarith

/-- A conductance of a quarter of a siemens is not too large. -/
theorem endsWell_init (ha : 0 < a) (ha' : 4 * a ≤ 1) (hohm : Ohmic samples channel a b) :
    EndsWell samples channel a b level .init := by
  have hrange : InRange Search.init.voltage := by norm_num [InRange, Search.init]
  have hbound : ∀ x : ℚ, x ≤ ⌈x / (4 * a)⌉₊ * (4 * a) := fun x =>
    (div_le_iff₀ (by linarith)).mp (Nat.le_ceil _)
  rcases le_total 0 (roundHalfEven (excess a b level.amps Search.init.voltage)) with hpos | hneg
  · refine endsWell_of_le ha ha' hohm (σ := 1) (Or.inl rfl) _ hrange ?_ (hbound _)
    omega
  · refine endsWell_of_le ha ha' hohm (σ := -1) (Or.inr rfl) _ hrange ?_ (hbound _)
    omega

/-! ### Searches that do not end -/

/-- The samples of a resistor. -/
def resistor (a b voltage : ℚ) : List CalibrationRun.Sample := [fun _ _ => a * voltage + b]

theorem ohmic_resistor (channel : Channel) (a b : ℚ) : Ohmic (resistor a b) channel a b := by
  intro voltage
  simp [resistor]

/-- The voltage that the search goes to and comes back from. -/
def lower : ℚ := 5 / 2 - 4 * ((1 : ℤ) / 10 ^ 4)

/-- A search that is always as far on one side of the current as on the other goes on for ever. -/
theorem never_ends (hohm : Ohmic samples channel a b) {x : ℚ} (hx : |x - 1| < 1 / 2)
    (hupper : excess a b level.amps (5 / 2) = x) (hlower : excess a b level.amps lower = -x)
    (fuel : ℕ) (previous : Option ℚ) :
    voltage_search samples channel level.amps fuel ⟨5 / 2, previous⟩ = none ∧
      voltage_search samples channel level.amps fuel ⟨lower, previous⟩ = none := by
  have hone : roundHalfEven x = 1 :=
    roundHalfEven_eq (by exact_mod_cast hx.le) fun h => absurd h (by exact_mod_cast hx.ne)
  have hdown : ∀ previous, pass samples channel level.amps ⟨5 / 2, previous⟩ =
      .inr ⟨lower, some ((1 : ℤ) / 10 ^ 4)⟩ := fun previous =>
    (pass_of_ne_zero (s := ⟨5 / 2, previous⟩) (by rw [hohm.diff_eq, hupper, hone])
      (by norm_num)).1 (by norm_num [InRange])
  have hback : lower - 4 * (((-1 : ℤ) : ℚ) / 10 ^ 4) = 5 / 2 := by norm_num [lower]
  have hup : ∀ previous, pass samples channel level.amps ⟨lower, previous⟩ =
      .inr ⟨5 / 2, some ((-1 : ℤ) / 10 ^ 4)⟩ := fun previous => by
    have hdiff : mean (samples lower) channel .current - level.amps = (-1 : ℤ) / 10 ^ 4 := by
      rw [hohm.diff_eq, hlower, roundHalfEven_neg, hone]
    have hpass := (pass_of_ne_zero (s := ⟨lower, previous⟩) hdiff (by norm_num)).1
    rw [hback] at hpass
    exact hpass (by norm_num [InRange])
  induction fuel generalizing previous with
  | zero => exact ⟨rfl, rfl⟩
  | succ fuel ih =>
      rw [voltage_search, voltage_search, hdown, hup]
      exact ⟨(ih _).2, (ih _).1⟩

end Resistor

/-- **The search with a resistor** ends, and returns a voltage with the current when there is one,
for whatever the channel reads without a current, exactly when the conductance is not above a
quarter of a siemens. -/
theorem voltage_search_ends_iff {a : ℚ} (ha : 0 < a) (ha' : 4 * a < 3) (channel : Channel) :
    (∀ samples b level, Ohmic samples channel a b →
        EndsWell samples channel a b level .init) ↔ 4 * a ≤ 1 := by
  refine ⟨fun h => ?_, fun h samples b level hohm => endsWell_init ha h hohm⟩
  by_contra hlarge
  rw [not_le] at hlarge
  have hx : |4 * a / 2 - 1| < 1 / 2 := abs_lt.mpr ⟨by linarith, by linarith⟩
  -- at 2.5 V the current is too large by half of what a pass with a difference of 1 changes
  obtain ⟨b, hb⟩ : ∃ b, b = 1 / 10 + 4 * a / 2 / 10 ^ 4 - a * (5 / 2) := ⟨_, rfl⟩
  have hupper : excess a b Level.plus.amps (5 / 2) = 4 * a / 2 := by
    rw [excess, Level.amps, hb]
    ring
  have hlower : excess a b Level.plus.amps lower = -(4 * a / 2) := by
    rw [lower, excess_sub, hupper]
    push_cast
    ring
  obtain ⟨e, ⟨fuel, hfuel⟩, -⟩ := h (resistor a b) b .plus (ohmic_resistor channel a b)
  have hnever := (never_ends (ohmic_resistor channel a b) hx hupper hlower fuel none).1
  rw [Search.init, hnever] at hfuel
  cases hfuel

/-- With the smallest resistor that is asked for, 2.5 ohms, the search need not end. -/
theorem voltage_search_ends_iff_smallest :
    ¬∀ samples b level, Ohmic samples .A (2 / 5) b → EndsWell samples .A (2 / 5) b level .init :=
  fun h => absurd ((voltage_search_ends_iff (by norm_num) (by norm_num) .A).mp h) (by norm_num)

/-! ### Currents that do not change -/

section Steady

variable {c : ℚ} (hsteady : ∀ voltage, mean (samples voltage) channel .current = c)

include hsteady

/-- A difference that stays drives the voltage out of its range. -/
theorem raises_of_le (n : ℕ) (hrange : InRange s.voltage)
    (hn : (0 < c - target_current ∧ s.voltage ≤ n * (4 * (c - target_current))) ∨
      (c - target_current < 0 ∧ 5 - s.voltage ≤ n * -(4 * (c - target_current)))) :
    Ends samples channel target_current s .raised := by
  induction n generalizing s with
  | zero =>
      obtain ⟨hlow, hhigh⟩ := hrange
      rw [Nat.cast_zero, zero_mul, zero_mul] at hn
      rcases hn with ⟨-, hn⟩ | ⟨-, hn⟩
      · linarith
      · linarith
  | succ n ih =>
      have hne : c - target_current ≠ 0 := by
        rcases hn with ⟨hpos, -⟩ | ⟨hneg, -⟩
        · exact hpos.ne'
        · exact hneg.ne
      have hdiff : mean (samples s.voltage) channel .current - target_current =
          c - target_current := by rw [hsteady]
      obtain ⟨hgo, hraise⟩ := pass_of_ne_zero hdiff hne
      by_cases hnext : InRange (s.voltage - 4 * (c - target_current))
      · refine Ends.of_pass (hgo hnext) (ih hnext ?_)
        rcases hn with ⟨hpos, hn⟩ | ⟨hneg, hn⟩
        · refine Or.inl ⟨hpos, ?_⟩
          push_cast at hn
          linarith
        · refine Or.inr ⟨hneg, ?_⟩
          push_cast at hn
          linarith
      · exact ends_of_pass (hraise hnext)

/-- **A search that changes nothing** returns when there is nothing to do, and ends with the error
otherwise. -/
theorem ends_of_steady : Ends samples channel target_current .init
    (if c = target_current then .returned (5 / 2) else .raised) := by
  have hrange : InRange Search.init.voltage := by norm_num [InRange, Search.init]
  split
  · rename_i heq
    exact ends_of_eq_zero hrange (by rw [hsteady, heq, sub_self])
  · rename_i hne
    have hdiff : c - target_current ≠ 0 := sub_ne_zero.mpr hne
    have hbound : ∀ x y : ℚ, 0 < y → x ≤ ⌈x / y⌉₊ * y := fun x y hy =>
      (div_le_iff₀ hy).mp (Nat.le_ceil _)
    rcases lt_or_gt_of_ne hdiff with hneg | hpos
    · exact raises_of_le hsteady _ hrange (Or.inr ⟨hneg, hbound _ _ (by linarith)⟩)
    · exact raises_of_le hsteady _ hrange (Or.inl ⟨hpos, hbound _ _ (by linarith)⟩)

end Steady

/-- **One of the searches for channel B ends with the error.** Both have channel A source their
voltages, which is not connected any more: the current of channel B is the same whatever they
are. -/
theorem search_for_B_raises {samples : ℚ → List CalibrationRun.Sample}
    (hsteady : ∀ v w, mean (samples v) .B .current = mean (samples w) .B .current) :
    Ends samples .B Level.plus.amps .init .raised ∨
      Ends samples .B Level.minus.amps .init .raised := by
  have hends : ∀ target_current, Ends samples .B target_current .init
      (if mean (samples 0) .B .current = target_current then .returned (5 / 2) else .raised) :=
    fun _ => ends_of_steady fun v => hsteady v 0
  by_cases hplus : mean (samples 0) .B .current = Level.plus.amps
  · have hne : mean (samples 0) .B .current ≠ Level.minus.amps := by
      rw [hplus]
      norm_num [Level.amps]
    have hminus := hends Level.minus.amps
    rw [if_neg hne] at hminus
    exact Or.inr hminus
  · have hends := hends Level.plus.amps
    rw [if_neg hplus] at hends
    exact Or.inl hends

/-- Channel B measures nothing while channel A is turned. -/
theorem search_for_B_raises_open :
    Ends (fun voltage => [fun ch _ => if ch = .A then voltage else 0]) .B Level.plus.amps .init
        .raised ∨
      Ends (fun voltage => [fun ch _ => if ch = .A then voltage else 0]) .B Level.minus.amps .init
        .raised :=
  search_for_B_raises fun _ _ => rfl

end VoltageSearch

end Libsmu
