import Libsmu.Configure
import Libsmu.Lib.RoundedQuotient
import Mathlib.Tactic.IntervalCases

/-!
# Rates and Timer Periods

`configure` rounds the clock cycles of two samples to an integer, halves that, dropping the
rest, and keeps the period within 240 and 24000 cycles. The rate it returns is that of the
period, rounded again.

A rate belongs to the `stretch` of a period when the period is the one that `configure`
chooses for it. Stretches do not lie around the rate of their period: since the halving drops
the rest, a stretch reaches three times as far below it as above. The clock of a device is a
natural number here, so that periods and stretches need no division.

## Main results

* `sam_per_eq_iff`: a rate has a given period exactly when it lies in its stretch.
* `tolerance_iff`: which requests are answered with a rate within 256 samples per second.
* `unchanged_iff`: which rates that `configure` returns are configured as they are.
-/

namespace Libsmu

open RoundedQuotient

/-! ### Periods and stretches -/

/-- `M1K_timer_clock` as a natural number. -/
def timerClock (fwver : String) : ℕ := if fwver = "023314a*" then 3000000 else 48000000

theorem M1K_timer_clock_eq (fwver : String) : M1K_timer_clock fwver = timerClock fwver := by
  rw [M1K_timer_clock, timerClock]
  split <;> norm_num

/-- The rate of a period, by division of natural numbers. -/
def periodRate (clock p : ℕ) : ℕ := (clock + p) / (2 * p)

/-- The rates for which `configure` chooses the period `p`. The first and the last period
take all that lie beyond. -/
def Stretch (clock p r : ℕ) : Prop :=
  240 ≤ p ∧ p ≤ 24000 ∧ (p = 24000 ∨ 2 * clock < (4 * p + 3) * r) ∧
    (p = 240 ∨ (4 * p - 1) * r ≤ 2 * clock)

theorem set_sample_rate_eq (clock : ℕ) {p : ℕ} (hp : 0 < p) :
    set_sample_rate clock p = periodRate clock p := by
  have hp' : (p : ℚ) ≠ 0 := by exact_mod_cast hp.ne'
  have hquotient : 1 / (((p : ℕ) : ℤ) / (clock : ℚ) : ℚ) / 2 = (clock : ℚ) / (2 * p : ℕ) := by
    push_cast
    rw [one_div_div, div_div, mul_comm]
  rw [set_sample_rate, cround, hquotient, floor_div_add_half clock (by omega), roundDiv,
    periodRate]
  have hdouble : 2 * clock + 2 * p = 2 * (clock + p) := by ring
  rw [hdouble, Nat.mul_div_mul_left _ _ (by decide)]

/-- The period of a rate, by division of natural numbers. -/
theorem sam_per_eq (clock : ℕ) {r : ℕ} (hr : 0 < r) :
    sam_per clock r = (max 240 (min 24000 ((2 * clock + r) / (4 * r))) : ℕ) := by
  have hquotient : 1 / (r : ℚ) * clock = (clock : ℚ) / r := by ring
  have hhalf : (roundDiv clock r : ℤ) / 2 = ((2 * clock + r) / (4 * r) : ℕ) := by
    rw [← roundDiv_div_two]
    push_cast
    rfl
  rw [sam_per, cround, hquotient, floor_div_add_half clock hr, hhalf]
  generalize (2 * clock + r) / (4 * r) = q
  have hmin : m_min_per = 240 := rfl
  have hmax : m_max_per = 24000 := rfl
  split
  · omega
  · split <;> omega

/-- **The period of a rate** is the one whose stretch it lies in. -/
theorem sam_per_eq_iff (clock : ℕ) {p r : ℕ} (hr : 0 < r) :
    sam_per clock r = p ↔ Stretch clock p r := by
  have hle : ∀ n, n ≤ (2 * clock + r) / (4 * r) ↔ n * (4 * r) ≤ 2 * clock + r := fun n =>
    Nat.le_div_iff_mul_le (by omega)
  -- the two ends of a stretch, by what the quotient is
  have hupper : 240 ≤ p → ((4 * p - 1) * r ≤ 2 * clock ↔ p ≤ (2 * clock + r) / (4 * r)) := by
    intro hp
    have hmul : (4 * p - 1) * r + r = p * (4 * r) := by
      rw [← Nat.succ_mul, Nat.succ_eq_add_one, Nat.sub_add_cancel (by omega)]
      ring
    rw [hle]
    omega
  have hlower : 2 * clock < (4 * p + 3) * r ↔ ¬p + 1 ≤ (2 * clock + r) / (4 * r) := by
    have hmul : (4 * p + 3) * r + r = (p + 1) * (4 * r) := by ring
    rw [hle]
    omega
  rw [sam_per_eq clock hr, Stretch, hlower, Nat.cast_inj]
  constructor
  · intro h
    have hmin : 240 ≤ p := by omega
    rw [hupper hmin]
    omega
  · rintro ⟨hmin, hmax, hlow, hup⟩
    rw [hupper hmin] at hup
    omega

/-- There is a period for every rate, and it is in the range. -/
theorem exists_stretch (clock : ℕ) {r : ℕ} (hr : 0 < r) :
    ∃ p : ℕ, sam_per clock r = p ∧ Stretch clock p r :=
  ⟨_, sam_per_eq clock hr, (sam_per_eq_iff clock hr).mp (sam_per_eq clock hr)⟩

/-- What a successful `configure` returns and keeps. -/
theorem configure_eq_of_stretch (d : Device) {p r : ℕ} {ins outs : Memory}
    (hins : ins.Grants 2) (houts : outs.Grants 2) (hr : 0 < r)
    (hp : Stretch (timerClock d.m_fwver) p r) :
    (d.configure r ins outs).2 = periodRate (timerClock d.m_fwver) p ∧
      (d.configure r ins outs).1.m_sam_per = p := by
  have hper : sam_per (M1K_timer_clock d.m_fwver) r = p := by
    rw [M1K_timer_clock_eq]
    exact (sam_per_eq_iff _ hr).mpr hp
  have hrate := (configure_of_granted r d hins houts).1
  have hpos : 0 < p := lt_of_lt_of_le (by decide) hp.1
  rw [Device.rate, hper, M1K_timer_clock_eq, set_sample_rate_eq _ hpos] at hrate
  exact ⟨hrate, by rw [Device.configure_m_sam_per, hper]⟩

/-- The rate of a period is its clock rate, rounded. -/
theorem periodRate_bounds (clock : ℕ) {p : ℕ} (hp : 0 < p) :
    2 * (p * periodRate clock p) ≤ clock + p ∧
      clock + p < 2 * (p * periodRate clock p) + 2 * p := by
  have hle := Nat.mul_div_le (clock + p) (2 * p)
  have hlt := Nat.lt_mul_div_succ (clock + p) (show 0 < 2 * p by omega)
  rw [periodRate]
  constructor
  · linarith
  · linarith

/-- The ends of a stretch without a subtraction. -/
theorem Stretch.bounds {clock p r : ℕ} (h : Stretch clock p r) :
    (p = 24000 ∨ 2 * clock < 4 * (p * r) + 3 * r) ∧
      (p = 240 ∨ 4 * (p * r) ≤ 2 * clock + r) := by
  obtain ⟨hmin, -, hlow, hup⟩ := h
  constructor
  · refine hlow.imp_right fun hlow => ?_
    linarith
  · refine hup.imp_right fun hup => ?_
    have hmul : (4 * p - 1) * r + r = 4 * (p * r) := by
      rw [← Nat.succ_mul, Nat.succ_eq_add_one, Nat.sub_add_cancel (by omega), Nat.mul_assoc]
    omega

/-! ### How far the rate is from the one asked for -/

/-- A request is answered with a rate at most 256 below it, unless its period is the
shortest one. -/
theorem le_periodRate_add {clock p r : ℕ} (h : Stretch clock p r) (hne : p ≠ 240)
    (hr : r ≤ 100000) : r ≤ periodRate clock p + 256 := by
  have hmin := h.1
  obtain ⟨hrate, hrate'⟩ := periodRate_bounds clock (show 0 < p by omega)
  have hup := h.bounds.2.resolve_left hne
  by_contra hfar
  have hmul : p * (periodRate clock p + 257) ≤ p * r := Nat.mul_le_mul_left p (by omega)
  rw [Nat.mul_add] at hmul
  omega

/-- A request is answered with a rate at most 256 above it, if its period is not short for
the rate it amounts to. -/
theorem periodRate_le_add {clock p r : ℕ} (h : Stretch clock p r)
    (hshort : p = 24000 ∨ 3 * periodRate clock p ≤ 1026 * p + 768) (hr : 1000 ≤ r)
    (hclock : clock ≤ 48000000) : periodRate clock p ≤ r + 256 := by
  have hmin := h.1
  obtain ⟨hrate, hrate'⟩ := periodRate_bounds clock (show 0 < p by omega)
  by_contra hfar
  have hmul : p * (r + 257) ≤ p * periodRate clock p := Nat.mul_le_mul_left p (by omega)
  rw [Nat.mul_add] at hmul
  rcases hshort with rfl | hshort
  · omega
  · rcases h.bounds.1 with rfl | hlow
    · omega
    · omega

/-- The requests to the 48 MHz clock that lie more than 256 below the rate of their period:
there are some in the stretches of the 25 shortest periods. -/
def Gap (r : ℕ) : Prop :=
  ∃ p < 265, 240 ≤ p ∧ 96000000 < (4 * p + 3) * r ∧ r + 256 < periodRate 48000000 p

instance (r : ℕ) : Decidable (Gap r) := inferInstanceAs (Decidable (∃ p < 265, _))

/-- The requests whose rate is within the tolerance: those outside the gaps, and with the
3 MHz clock those up to 256 above the rate of the shortest period. -/
def InTolerance (fwver : String) (r : ℕ) : Prop :=
  if fwver = "023314a*" then r ≤ 6506 else ¬Gap r

/-- A rate lies in one stretch only. -/
theorem Stretch.unique {clock p q r : ℕ} (hr : 0 < r) (hp : Stretch clock p r)
    (hq : Stretch clock q r) : p = q := by
  have hper := ((sam_per_eq_iff clock hr).mpr hp).symm.trans ((sam_per_eq_iff clock hr).mpr hq)
  exact_mod_cast hper

/-- A request in a gap lies in the stretch of that period. -/
theorem stretch_of_gap {q r : ℕ} (hq : q < 265) (hmin : 240 ≤ q)
    (hlow : 96000000 < (4 * q + 3) * r) (hfar : r + 256 < periodRate 48000000 q) :
    Stretch 48000000 q r := by
  obtain ⟨hrate, -⟩ := periodRate_bounds 48000000 (show 0 < q by omega)
  have hmul : q * (r + 257) ≤ q * periodRate 48000000 q := Nat.mul_le_mul_left q (by omega)
  rw [Nat.mul_add] at hmul
  have hle : (4 * q - 1) * r ≤ 4 * q * r := Nat.mul_le_mul_right r (Nat.sub_le _ _)
  rw [Nat.mul_assoc] at hle
  exact ⟨hmin, by omega, .inr hlow, .inr (by omega)⟩

/-- **The 48 MHz clock**: the rate is within the tolerance outside the gaps. -/
theorem fast_iff {p r : ℕ} (h : Stretch 48000000 p r) (hlo : 1000 ≤ r) (hhi : r ≤ 100000) :
    (r ≤ periodRate 48000000 p + 256 ∧ periodRate 48000000 p ≤ r + 256) ↔ ¬Gap r := by
  have hmin := h.1
  have hbounds := periodRate_bounds 48000000 (show 0 < p by omega)
  constructor
  · rintro ⟨-, habove⟩ ⟨q, hq, hqmin, hlow, hfar⟩
    obtain rfl := h.unique (by omega) (stretch_of_gap hq hqmin hlow hfar)
    omega
  · intro hgap
    constructor
    · by_cases hne : p = 240
      · subst hne
        exact le_trans hhi (by decide)
      · exact le_periodRate_add h hne hhi
    · by_cases hp : p < 265
      · by_contra hfar
        refine hgap ⟨p, hp, hmin, ?_, by omega⟩
        exact h.2.2.1.resolve_left (by omega)
      · refine periodRate_le_add h (.inr ?_) hlo le_rfl
        have hmul := Nat.mul_le_mul_right (periodRate 48000000 p) (show 265 ≤ p by omega)
        have hmax := h.2.1
        omega

/-- **The 3 MHz clock**: the rate is within the tolerance up to 256 above that of the
shortest period. -/
theorem slow_iff {p r : ℕ} (h : Stretch 3000000 p r) (hlo : 1000 ≤ r) (hhi : r ≤ 62500) :
    (r ≤ periodRate 3000000 p + 256 ∧ periodRate 3000000 p ≤ r + 256) ↔ r ≤ 6506 := by
  have hmin := h.1
  have hbounds := periodRate_bounds 3000000 (show 0 < p by omega)
  have hmul := Nat.mul_le_mul_right (periodRate 3000000 p) hmin
  have hmax := h.2.1
  constructor
  · rintro ⟨hbelow, -⟩
    by_cases hne : p = 240
    · subst hne
      exact hbelow
    · have hup := h.bounds.2.resolve_left hne
      have hmul' := Nat.mul_le_mul_right r (show 241 ≤ p by omega)
      omega
  · intro hr
    constructor
    · by_cases hne : p = 240
      · subst hne
        exact le_trans hr (by decide)
      · exact le_periodRate_add h hne (by omega)
    · exact periodRate_le_add h (.inr (by omega)) hlo (by decide)

/-- **The configured rate and the one asked for.** The rate that `configure` returns is within
256 samples per second of the request exactly for the requests `InTolerance`, among those
from 1000 up to the default rate of the device. -/
theorem tolerance_iff (d : Device) {r : ℕ} {ins outs : Memory} (hins : ins.Grants 2)
    (houts : outs.Grants 2) (hlo : 1000 ≤ r) (hhi : r ≤ d.get_default_rate) :
    |(d.configure r ins outs).2 - r| ≤ 256 ↔ InTolerance d.m_fwver r := by
  have hr : 0 < r := by omega
  obtain ⟨p, -, hp⟩ := exists_stretch (timerClock d.m_fwver) hr
  obtain ⟨hrate, -⟩ := configure_eq_of_stretch d hins houts hr hp
  have habs : |(d.configure r ins outs).2 - r| ≤ 256 ↔
      r ≤ periodRate (timerClock d.m_fwver) p + 256 ∧
        periodRate (timerClock d.m_fwver) p ≤ r + 256 := by
    rw [hrate, abs_le]
    omega
  rw [habs]
  rw [Device.get_default_rate] at hhi
  rw [timerClock] at hp ⊢
  rw [InTolerance]
  split at hp
  · rename_i hold
    rw [if_pos hold] at hhi ⊢
    rw [if_pos hold]
    exact slow_iff hp hlo hhi
  · rename_i hnew
    rw [if_neg hnew] at hhi ⊢
    rw [if_neg hnew]
    exact fast_iff hp hlo hhi

/-- The same of a request for 50000 samples per second. -/
theorem tolerance_iff_half :
    |((Device.new "2.17" "").configure 50000 .plenty .plenty).2 - 50000| ≤ 256 ↔
      InTolerance "2.17" 50000 :=
  tolerance_iff (.new "2.17" "") (by decide) (by decide) (by decide) (by decide)

/-- **Rates out of tolerance.** The request for 99689 samples per second is answered with
100000, and with the 3 MHz clock the default rate itself with a tenth of it. -/
theorem default_rate_out_of_reach :
    ((Device.new "2.17" "").configure 99689 .plenty .plenty).2 = 100000 ∧
      ((Device.new "023314a*" "").configure
        (Device.new "023314a*" "").get_default_rate .plenty .plenty).2 = 6250 ∧
      ¬∀ (d : Device) (r : ℕ), 1000 ≤ r → r ≤ d.get_default_rate →
        |(d.configure r .plenty .plenty).2 - r| ≤ 256 := by
  have hfast : ((Device.new "2.17" "").configure 99689 .plenty .plenty).2 = 100000 := by
    decide +kernel
  refine ⟨hfast, by decide +kernel, fun h => ?_⟩
  have hle := h (.new "2.17" "") 99689 (by decide) (by decide)
  rw [hfast] at hle
  exact absurd hle (by decide)

/-! ### Configuring the rate that was returned -/

/-- The rate of a long period is the request itself. -/
theorem Stretch.rate_of_long {clock p r : ℕ} (h : Stretch clock p r) (hmin : p ≠ 240)
    (hmax : p ≠ 24000) (hlong : 3 * r ≤ 2 * p) : periodRate clock p = r := by
  have hp := h.1
  obtain ⟨hrate, hrate'⟩ := periodRate_bounds clock (show 0 < p by omega)
  have hlow := h.bounds.1.resolve_left hmax
  have hup := h.bounds.2.resolve_left hmin
  refine Nat.le_antisymm ?_ ?_
  · by_contra hlt
    have hmul : p * (r + 1) ≤ p * periodRate clock p := Nat.mul_le_mul_left p (by omega)
    rw [Nat.mul_add] at hmul
    omega
  · by_contra hlt
    have hmul : p * (periodRate clock p + 1) ≤ p * r := Nat.mul_le_mul_left p (by omega)
    rw [Nat.mul_add] at hmul
    omega

/-- The rate of a period lies in its stretch, unless it lies above it: it is never below. -/
theorem stretch_periodRate_iff {clock p r : ℕ} (h : Stretch clock p r)
    (hlength : p = 24000 ∨ (p ≠ 240 ∧ 3 * r ≤ 2 * p) ∨ 2 * p ≤ 3 * periodRate clock p) :
    Stretch clock p (periodRate clock p) ↔
      p = 240 ∨ (4 * p - 1) * periodRate clock p ≤ 2 * clock := by
  have hp := h.1
  obtain ⟨-, hrate⟩ := periodRate_bounds clock (show 0 < p by omega)
  refine ⟨fun hs => hs.2.2.2, fun hup => ⟨hp, h.2.1, ?_, hup⟩⟩
  by_cases hmax : p = 24000
  · exact .inl hmax
  · have hshort : 2 * p ≤ 3 * periodRate clock p →
        2 * clock < (4 * p + 3) * periodRate clock p := by
      intro hshort
      rw [Nat.add_mul, Nat.mul_assoc]
      omega
    rcases hlength with heq | ⟨hmin, hlong⟩ | hle
    · exact absurd heq hmax
    · rw [h.rate_of_long hmin hmax hlong]
      exact h.2.2.1
    · exact .inr (hshort hle)

/-- Only a period that is long for its clock can have a rate above its stretch. -/
theorem lt_of_overshoot {clock p : ℕ} (hp : 0 < p)
    (h : 2 * clock < (4 * p - 1) * periodRate clock p) : clock < 4 * (p * p) := by
  obtain ⟨hrate, hrate'⟩ := periodRate_bounds clock hp
  have hmul : (4 * p - 1) * periodRate clock p + periodRate clock p =
      4 * (p * periodRate clock p) := by
    rw [← Nat.succ_mul, Nat.succ_eq_add_one, Nat.sub_add_cancel (by omega), Nat.mul_assoc]
  have hsq : p * (periodRate clock p + 1) ≤ p * (2 * p) := Nat.mul_le_mul_left p (by omega)
  rw [Nat.mul_add, Nat.mul_left_comm] at hsq
  omega

/-- A request in the stretch of a period whose rate lies above that stretch. -/
def Overshoot (clock p r : ℕ) : Prop :=
  2 * clock < (4 * p + 3) * r ∧ (4 * p - 1) * r ≤ 2 * clock ∧
    2 * clock < (4 * p - 1) * periodRate clock p

instance (clock p r : ℕ) : Decidable (Overshoot clock p r) :=
  inferInstanceAs (Decidable (_ ∧ _ ∧ _))

/-- The requests whose rate is configured with another period. With the 3 MHz clock they
include the requests below the rate of the longest period. -/
def Drifts (fwver : String) (r : ℕ) : Prop :=
  if fwver = "023314a*" then r ≤ 62 ∨ ∃ p < 1500, 867 ≤ p ∧ Overshoot 3000000 p r
  else ∃ p < 6000, 3465 ≤ p ∧ Overshoot 48000000 p r

instance (fwver : String) (r : ℕ) : Decidable (Drifts fwver r) := by
  unfold Drifts
  infer_instance

/-- A request whose rate overshoots lies in the stretch. -/
theorem Overshoot.stretch {clock p r : ℕ} (hmin : 240 ≤ p) (hmax : p ≤ 24000)
    (h : Overshoot clock p r) : Stretch clock p r :=
  ⟨hmin, hmax, .inr h.1, .inr h.2.1⟩

/-- A rate that overshoots has another period. -/
theorem Overshoot.not_stretch {clock p r : ℕ} (hmin : p ≠ 240) (h : Overshoot clock p r) :
    ¬Stretch clock p (periodRate clock p) := fun hs =>
  absurd (hs.2.2.2.resolve_left hmin) (Nat.not_le.mpr h.2.2)

section Settled

variable {clock lo hi p r : ℕ}

/-- A request whose rate has the same period does not drift. -/
theorem not_overshoot_of_settled (hlo : 240 < lo) (hhi : hi ≤ 24000) (hr : 0 < r)
    (h : Stretch clock p r) (hs : Stretch clock p (periodRate clock p)) :
    ¬∃ q < hi, lo ≤ q ∧ Overshoot clock q r := by
  rintro ⟨q, hq, hqlo, hover⟩
  obtain rfl := h.unique hr (hover.stretch (by omega) (by omega))
  exact hover.not_stretch (by omega) hs

/-- A request that does not drift has a rate with the same period: a period below `lo` does
not overshoot, and one from `hi` on has the request for its rate. -/
theorem settled_of_not_overshoot (hlo : 4 * ((lo - 1) * (lo - 1)) ≤ clock) (hhi : 240 < hi)
    (h : Stretch clock p r) (hlast : p ≠ 24000)
    (hshort : p < hi → 2 * p ≤ 3 * periodRate clock p) (hlong : hi ≤ p → 3 * r ≤ 2 * p)
    (hno : ¬∃ q < hi, lo ≤ q ∧ Overshoot clock q r) :
    Stretch clock p (periodRate clock p) := by
  have hp := h.1
  by_cases hlt : p < hi
  · rw [stretch_periodRate_iff h (.inr (.inr (hshort hlt)))]
    by_contra hover
    obtain ⟨hne, hover⟩ := not_or.mp hover
    have hsq := lt_of_overshoot (by omega) (Nat.lt_of_not_le hover)
    have hle : lo ≤ p := by
      by_contra hbelow
      have hmul := Nat.mul_le_mul (show p ≤ lo - 1 by omega) (show p ≤ lo - 1 by omega)
      omega
    exact hno ⟨p, hlt, hle, h.2.2.1.resolve_left hlast, h.2.2.2.resolve_left hne,
      Nat.lt_of_not_le hover⟩
  · rw [h.rate_of_long (by omega) hlast (hlong (by omega))]
    exact h

end Settled

/-- **The 48 MHz clock**: the rate has the period of the request where nothing drifts. -/
theorem fast_settled_iff {p r : ℕ} (hr : 0 < r) (h : Stretch 48000000 p r) :
    Stretch 48000000 p (periodRate 48000000 p) ↔
      ¬∃ q < 6000, 3465 ≤ q ∧ Overshoot 48000000 q r := by
  refine ⟨not_overshoot_of_settled (by decide) (by decide) hr h, fun hno => ?_⟩
  by_cases hlast : p = 24000
  · subst hlast
    rw [stretch_periodRate_iff h (.inl rfl)]
    exact .inr (by decide)
  · refine settled_of_not_overshoot (by decide) (by decide) h hlast (fun hlt => ?_)
      (fun hge => ?_) hno
    · have hmin := h.1
      have hbounds := periodRate_bounds 48000000 (show 0 < p by omega)
      have hmul := Nat.mul_le_mul_right (periodRate 48000000 p) (Nat.le_of_lt hlt)
      omega
    · have hup := h.bounds.2.resolve_left (by omega)
      have hmul := Nat.mul_le_mul_right r hge
      omega

/-- **The 3 MHz clock**: the same, and the longest period never keeps its rate. -/
theorem slow_settled_iff {p r : ℕ} (hr : 0 < r) (h : Stretch 3000000 p r) :
    Stretch 3000000 p (periodRate 3000000 p) ↔
      ¬(r ≤ 62 ∨ ∃ q < 1500, 867 ≤ q ∧ Overshoot 3000000 q r) := by
  by_cases hlast : p = 24000
  · subst hlast
    have hfirst : r ≤ 62 := by
      have hup := h.bounds.2
      omega
    refine iff_of_false ?_ (not_not.mpr (.inl hfirst))
    rw [stretch_periodRate_iff h (.inl rfl)]
    decide
  · have hmin := h.1
    have hmax := h.2.1
    have hfirst : ¬r ≤ 62 := by
      intro hr
      have hlow := h.bounds.1.resolve_left hlast
      have hmul := Nat.mul_le_mul_left p hr
      omega
    rw [not_or, and_iff_right hfirst]
    refine ⟨not_overshoot_of_settled (by decide) (by decide) hr h, fun hno => ?_⟩
    refine settled_of_not_overshoot (by decide) (by decide) h hlast (fun hlt => ?_)
      (fun hge => ?_) hno
    · have hbounds := periodRate_bounds 3000000 (show 0 < p by omega)
      have hmul := Nat.mul_le_mul_right (periodRate 3000000 p) (Nat.le_of_lt hlt)
      omega
    · have hup := h.bounds.2.resolve_left (by omega)
      have hmul := Nat.mul_le_mul_right r hge
      omega

/-- **Configuring the rate that was returned.** The rate `s` that `configure` returns for a
request is returned again for `s`, with the same timer period, exactly when the request does
not drift. -/
theorem unchanged_iff (d : Device) {r : ℕ} {ins outs ins' outs' : Memory} (hr : 0 < r)
    (hins : ins.Grants 2) (houts : outs.Grants 2) (hins' : ins'.Grants 2)
    (houts' : outs'.Grants 2) :
    (((d.configure r ins outs).1.configure (d.configure r ins outs).2.toNat ins' outs').2 =
          (d.configure r ins outs).2 ∧
        ((d.configure r ins outs).1.configure (d.configure r ins outs).2.toNat
            ins' outs').1.m_sam_per = (d.configure r ins outs).1.m_sam_per) ↔
      ¬Drifts d.m_fwver r := by
  obtain ⟨p, -, hp⟩ := exists_stretch (timerClock d.m_fwver) hr
  obtain ⟨hrate, hper⟩ := configure_eq_of_stretch d hins houts hr hp
  have hfwver := d.configure_fwver r ins outs
  have hpos : 0 < periodRate (timerClock d.m_fwver) p := by
    have hrate' := d.rate_pos r
    rw [← (configure_of_granted r d hins houts).1, hrate] at hrate'
    exact_mod_cast hrate'
  rw [hrate, hper, Int.toNat_natCast]
  -- the second call chooses a period as well
  obtain ⟨q, -, hq⟩ := exists_stretch (timerClock d.m_fwver) hpos
  have hagain := configure_eq_of_stretch (d.configure r ins outs).1 hins' houts' hpos
    (by rw [hfwver]; exact hq)
  rw [hfwver] at hagain
  rw [hagain.1, hagain.2]
  have hsettled : ((periodRate (timerClock d.m_fwver) q : ℤ) = periodRate (timerClock d.m_fwver) p ∧
      (q : ℤ) = p) ↔ Stretch (timerClock d.m_fwver) p (periodRate (timerClock d.m_fwver) p) := by
    constructor
    · rintro ⟨-, heq⟩
      obtain rfl : q = p := by exact_mod_cast heq
      exact hq
    · intro hs
      obtain rfl := hq.unique hpos hs
      exact ⟨rfl, rfl⟩
  rw [hsettled, Drifts]
  rw [timerClock] at hp ⊢
  split
  · rename_i hold
    rw [if_pos hold] at hp
    exact slow_settled_iff hr hp
  · rename_i hnew
    rw [if_neg hnew] at hp
    exact fast_settled_iff hr hp

/-- The same of the default rate. -/
theorem unchanged_iff_default :
    ((((Device.new "2.17" "").configure 100000 .plenty .plenty).1.configure
          ((Device.new "2.17" "").configure 100000 .plenty .plenty).2.toNat .plenty .plenty).2 =
          ((Device.new "2.17" "").configure 100000 .plenty .plenty).2 ∧
        (((Device.new "2.17" "").configure 100000 .plenty .plenty).1.configure
            ((Device.new "2.17" "").configure 100000 .plenty .plenty).2.toNat
            .plenty .plenty).1.m_sam_per =
          ((Device.new "2.17" "").configure 100000 .plenty .plenty).1.m_sam_per) ↔
      ¬Drifts "2.17" 100000 :=
  unchanged_iff (.new "2.17" "") (by decide) (by decide) (by decide) (by decide) (by decide)

/-- **A rate that drifts.** The request for 6001 samples per second is answered with 6002,
that for 6002 with 6003. -/
theorem rate_drifts :
    ((Device.new "2.17" "").configure 6001 .plenty .plenty).2 = 6002 ∧
      (((Device.new "2.17" "").configure 6001 .plenty .plenty).1.configure 6002
        .plenty .plenty).2 = 6003 ∧
      ¬∀ (d : Device) (r : ℕ), 0 < r →
        ((d.configure r .plenty .plenty).1.configure (d.configure r .plenty .plenty).2.toNat
          .plenty .plenty).2 = (d.configure r .plenty .plenty).2 := by
  have hfirst : ((Device.new "2.17" "").configure 6001 .plenty .plenty).2 = 6002 := by
    decide +kernel
  have hagain : (((Device.new "2.17" "").configure 6001 .plenty .plenty).1.configure 6002
      .plenty .plenty).2 = 6003 := by
    decide +kernel
  refine ⟨hfirst, hagain, fun h => ?_⟩
  have heq := h (.new "2.17" "") 6001 (by decide)
  rw [hfirst, show (6002 : ℤ).toNat = 6002 from rfl, hagain] at heq
  exact absurd heq (by decide)

end Libsmu
