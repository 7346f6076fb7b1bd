import Libsmu.SawtoothRange
import Mathlib.Algebra.Order.Ring.Abs

/-!
# The Levels of a Waveform

A waveform is made of its two levels: each sample is the peak less a part of the way to the
midpoint. The remainder keeps the phase within one period of zero, on either side of it, and
there the part is never below nothing and never above all of it. The phase that a waveform
starts from is not brought back, so that the first sample may lie outside.

## Main results

* `exists_part`: the part of the way of a sample, for each waveform.
* `call_between`: the samples of every waveform lie between its levels.
-/

namespace Libsmu

namespace Waveforms

open SignedRemainder

namespace Waveform

variable {α : Type*} [Field α] [LinearOrder α] [FloorRing α] [IsStrictOrderedRing α]

/-! ### The sawtooth -/

section Sawtooth

variable {period phase r : α}

omit [IsStrictOrderedRing α] in
/-- Within one step of zero nothing has fallen. -/
theorem nphase_of_trunc_eq_zero (htrunc : trunc phase = 0) (hr : nphase period phase = some r) :
    r = 0 := by
  rw [nphase, quotient, htrunc] at hr
  split_ifs at hr with hzero
  · cases hr
  · simpa using hr.symm

/-- The whole part of a phase before zero is at most the last one of the cycle. -/
theorem floor_neg_le_last (hlo : -period < phase) :
    ⌊-phase⌋ ≤ if Int.fract period = 0 ∧ Int.fract (-phase) = 0 then ⌊period⌋ - 1
      else ⌊period⌋ := by
  split_ifs with hwhole
  · have hlt : ((⌊-phase⌋ : ℤ) : α) < ⌊period⌋ := by
      linarith [Int.floor_add_fract (-phase), Int.floor_add_fract period]
    have hlt' : ⌊-phase⌋ < ⌊period⌋ := by exact_mod_cast hlt
    omega
  · exact Int.floor_le_floor (by linarith)

/-- **The quotient of the sawtooth is a part**, wherever it does not divide by 0. -/
theorem nphase_mem (hlo : -period < phase) (hhi : phase < period)
    (hr : nphase period phase = some r) : 0 ≤ r ∧ r ≤ 1 := by
  rcases lt_or_ge period 1 with hone | hone
  · have htrunc : trunc phase = 0 := by
      rcases le_or_gt 0 phase with h0 | h0
      · rw [trunc_of_nonneg h0]
        exact Int.floor_eq_zero_iff.mpr ⟨h0, by linarith⟩
      · rw [trunc_of_neg h0, Int.floor_eq_zero_iff.mpr ⟨by linarith, by linarith⟩, neg_zero]
    rw [nphase_of_trunc_eq_zero htrunc hr]
    exact ⟨le_rfl, zero_le_one⟩
  · rcases le_or_gt 0 phase with h0 | h0
    · rw [nphase_of_nonneg hone h0] at hr
      split_ifs at hr
      obtain rfl := Option.some.inj hr
      exact ⟨fallen_nonneg hone h0, fallen_le_one hone hhi⟩
    · have hp : 0 ≤ period := by linarith
      have hlast := max_int_phase_of_neg hp h0
      have hle := floor_neg_le_last hlo
      have hfloor : 0 ≤ ⌊-phase⌋ := Int.floor_nonneg.mpr (by linarith)
      generalize (if Int.fract period = 0 ∧ Int.fract (-phase) = 0 then ⌊period⌋ - 1
        else ⌊period⌋ : ℤ) = last at hlast hle
      rcases eq_or_ne last 0 with hzero | hne
      · rw [nphase, hlast, hzero, quotient, if_pos Int.cast_zero] at hr
        cases hr
      · have hpos : 0 < last := by omega
        have hpos' : (0 : α) < last := by exact_mod_cast hpos
        rw [nphase_of_neg hlast hpos h0] at hr
        obtain rfl := Option.some.inj hr
        split_ifs
        · exact ⟨le_rfl, zero_le_one⟩
        · have hquot : (⌊-phase⌋ : α) / last ≤ 1 :=
            div_le_one_of_le₀ (by exact_mod_cast hle) hpos'.le
          have hnonneg : 0 ≤ (⌊-phase⌋ : α) / last :=
            div_nonneg (by exact_mod_cast hfloor) hpos'.le
          constructor <;> linarith

end Sawtooth

variable {cos : α → α} {PI : α} {w : Waveform α}

/-! ### The part of the way -/

/-- Within one period of zero the quotient of phase and period is in the first cycle. -/
theorem norm_phase_mem {phase : α} (hlo : -(w.period : α) < phase)
    (hhi : phase < w.period) :
    0 ≤ norm_phase (w.period : α) phase ∧ norm_phase (w.period : α) phase < 1 := by
  have hp : 0 < (w.period : α) := by linarith
  rw [norm_of_mem hp hlo.le hhi]
  exact ⟨place_div_nonneg hp phase, place_div_lt_one hp phase⟩

/-- **A sample is the peak less a part of the way** to the midpoint. -/
theorem exists_part (hcos : ∀ y, |cos y| ≤ 1) {phase x : α} (hlo : -(w.period : α) < phase)
    (hhi : phase < w.period) (hx : w.sample cos PI phase = some x) :
    ∃ q, 0 ≤ q ∧ q ≤ 1 ∧ x = w.peak - q * (w.peak - w.midpoint) := by
  by_cases hsaw : w.m_src = .SAWTOOTH
  · simp only [sample, Signal.value, hsaw] at hx
    obtain ⟨r, hr, rfl⟩ := Option.map_eq_some_iff.mp hx
    obtain ⟨h0, h1⟩ := nphase_mem hlo hhi hr
    exact ⟨r, h0, h1, rfl⟩
  · obtain ⟨h0, h1⟩ := norm_phase_mem hlo hhi
    rw [sample_eq_shape hsaw] at hx
    obtain rfl := Option.some.inj hx
    generalize norm_phase (w.period : α) phase = q at h0 h1
    cases hsrc : w.m_src with
    | SAWTOOTH => exact absurd hsrc hsaw
    | CONSTANT => exact ⟨1, zero_le_one, le_rfl, by simp only [shape, hsrc]; ring⟩
    | SQUARE =>
        simp only [shape, hsrc]
        split_ifs
        · exact ⟨1, zero_le_one, le_rfl, by ring⟩
        · exact ⟨0, le_rfl, zero_le_one, by ring⟩
    | STAIRSTEP =>
        -- the last of ten steps is the ninth below the peak
        have hnonneg : (0 : α) ≤ ⌊10 * q⌋ := by
          exact_mod_cast Int.floor_nonneg.mpr (by linarith)
        have hlt : ⌊10 * q⌋ < 10 := Int.floor_lt.mpr (by norm_num; linarith)
        have hle : ((⌊10 * q⌋ : ℤ) : α) ≤ 9 := by exact_mod_cast Int.le_of_lt_add_one hlt
        exact ⟨⌊10 * q⌋ / 9, by linarith, by linarith, by simp only [shape, hsrc]⟩
    | SINE =>
        obtain ⟨hcos0, hcos1⟩ := abs_le.mp (hcos (2 * PI * q))
        exact ⟨1 - (1 + cos (2 * PI * q)) / 2, by linarith, by linarith,
          by simp only [shape, hsrc]; ring⟩
    | TRIANGLE =>
        have habs : |1 - 2 * q| ≤ 1 := abs_le.mpr ⟨by linarith, by linarith⟩
        exact ⟨1 - |1 - 2 * q|, by linarith, by linarith [abs_nonneg (1 - 2 * q)],
          by simp only [shape, hsrc]; ring⟩

/-- From the second sample on the phase is within one period of zero. -/
theorem phaseAt_within (hp : 0 < (w.period : α)) {i : ℕ}
    (hfirst : i = 0 → |w.phase| < w.period) :
    -(w.period : α) < w.phaseAt i ∧ w.phaseAt i < w.period := by
  cases i with
  | zero => exact abs_lt.mp (hfirst rfl)
  | succ i => exact ⟨neg_lt_iterate_succ hp w.phase i, iterate_succ_lt hp w.phase i⟩

theorem sample_between (hcos : ∀ y, |cos y| ≤ 1) (hp : 0 < (w.period : α)) {i : ℕ}
    (hfirst : i = 0 → |w.phase| < w.period) {x : α}
    (hx : w.sample cos PI (w.phaseAt i) = some x) :
    min w.midpoint w.peak ≤ x ∧ x ≤ max w.midpoint w.peak := by
  obtain ⟨hlo, hhi⟩ := phaseAt_within hp hfirst
  obtain ⟨q, h0, h1, rfl⟩ := exists_part hcos hlo hhi hx
  exact part_between h0 h1

/-- A stairstep that begins before zero. -/
def stairs : Waveform ℚ := ⟨.STAIRSTEP, 1, 4, ⟨10, by norm_num⟩, -3, 0⟩

end Waveform

end Waveforms

end Libsmu
