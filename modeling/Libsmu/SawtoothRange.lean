import Libsmu.WaveformPhase

/-!
# The Range of the Sawtooth

A sawtooth that starts in its first cycle stays there: the remainder takes one period off
when the phase has passed the end. The last whole part that the phase takes in a cycle is
worked out from the fractional part of the phase, which is the same through the cycle and
changes where a period with a fractional part is taken off.

## Main results

* `floor_of_wraps`: the phase before a wrap has the last whole part of its cycle.
* `call_spans`: the samples run from the peak to the midpoint in every cycle.
-/

namespace Libsmu

namespace Waveforms

open SignedRemainder CountedLoop

variable {α : Type*} [Field α] [LinearOrder α] [FloorRing α] {cos : α → α} {PI : α}

/-! ### The passes of a loop -/

namespace Waveform

omit [LinearOrder α] [FloorRing α] in
theorem period_ne (w : Waveform α) : (w.period : α) ≠ 0 := w.period.2

/-- What the loop of `sawtooth` starts from. -/
def sawtooth_frame (w : Waveform α) (s : Signal α) (buf : List (Option α)) :
    Frame (Signal α) (Option α) where
  counter := 0
  state :=
    { s with
      m_src := .SAWTOOTH
      m_src_phase := w.phase
      m_src_period := w.period
      m_src_v1 := w.midpoint
      m_src_v2 := w.peak
      period_ne := w.period_ne }
  out := buf

/-- The phase is turned back after the sample. -/
def Wraps (w : Waveform α) (i : ℕ) : Prop := w.phaseAt (i + 1) < w.phaseAt i

/-- **What a sawtooth is to append**: it never divides by 0, it has the peak after a wrap of the
phase and the midpoint before one, in between it takes the same step each time, and it is
never outside of the two. -/
structure Spans (w : Waveform α) (out : List (Option α)) : Prop where
  divides : ∀ i < out.length, max_int_phase (w.period : α) (w.phaseAt i) ≠ 0
  peak : ∀ i, i + 1 < out.length → w.Wraps i → out[i + 1]? = some (some w.peak)
  midpoint : ∀ i < out.length, w.Wraps i → out[i]? = some (some w.midpoint)
  steps : ∀ i, i + 1 < out.length → ¬w.Wraps i → ∃ a b,
    out[i]? = some (some a) ∧ out[i + 1]? = some (some b) ∧
      a - b = (w.peak - w.midpoint) / max_int_phase (w.period : α) (w.phaseAt i) ∧
      max_int_phase (w.period : α) (w.phaseAt (i + 1)) =
        max_int_phase (w.period : α) (w.phaseAt i)
  between : ∀ i < out.length, ∃ a, out[i]? = some (some a) ∧
    min w.midpoint w.peak ≤ a ∧ a ≤ max w.midpoint w.peak

/-- The samples of the first passes. -/
def firstSamples (cos : α → α) (PI : α) (w : Waveform α) (k : ℕ) : List (Option α) :=
  (List.range k).map fun i => w.sample cos PI (w.phaseAt i)

variable {w : Waveform α}

/-- **Each pass takes the sample at its phase** and turns the phase. -/
theorem emit_sawtooth (hsrc : w.m_src = .SAWTOOTH) (s : Signal α) (buf : List (Option α))
    (k : ℕ) :
    emit (Signal.get_sample cos PI) k (w.sawtooth_frame s buf).state =
      (w.firstSamples cos PI k,
        { (w.sawtooth_frame s buf).state with m_src_phase := w.phaseAt k }) := by
  have hne : (w.sawtooth_frame s buf).state.m_src ≠ .CONSTANT := by simp [sawtooth_frame]
  simp only [Signal.emit_get_sample, Signal.advance_iterate hne, firstSamples, sample, hsrc]
  rfl

theorem call_eq_countedLoop (hsrc : w.m_src = .SAWTOOTH) (s : Signal α)
    (buf : List (Option α)) (samples fuel : ℕ) :
    w.call cos PI s fuel buf samples =
      countedLoop 32 samples (Signal.get_sample cos PI) fuel (w.sawtooth_frame s buf) := by
  rw [call, hsrc]
  exact Signal.fill_eq_countedLoop

/-! ### The phases of a cycle -/

variable [IsStrictOrderedRing α]

section Cycle

variable {period x : α}

/-- A place at most one step before the end of the cycle has the last whole part of it. -/
theorem lastStep_eq_floor (hx : x < period) (hend : period ≤ x + 1) :
    lastStep period x = ⌊x⌋ := by
  have hfloor := Int.floor_add_fract x
  rw [lastStep, sub_eq_iff_eq_add, Int.ceil_eq_iff]
  push_cast
  constructor <;> linarith

/-- The steps of a cycle have one last whole part. -/
theorem lastStep_add_one (period x : α) : lastStep period (x + 1) = lastStep period x := by
  rw [lastStep, lastStep, Int.fract_add_one]

theorem lastStep_pos (hp : 2 ≤ period) (x : α) : 0 < lastStep period x := by
  have hfloor : 2 ≤ ⌊period⌋ := Int.le_floor.2 (by exact_mod_cast hp)
  rw [lastStep_eq]
  split_ifs <;> omega

/-- A step forward is one more part of the fall. -/
theorem fallen_add_one (period x : α) :
    fallen period (x + 1) = fallen period x + 1 / lastStep period x := by
  rw [fallen, fallen, lastStep_add_one, Int.floor_add_one, Int.cast_add, Int.cast_one, add_div]

/-- Before the end of the cycle the phase takes a step; at the end a period is taken off. -/
theorem turn_of_mem (hp : 1 ≤ period) (h0 : 0 ≤ x) (hx : x < period) :
    turn period x = if x + 1 < period then x + 1 else x + 1 - period := by
  have hp0 : 0 < period := h0.trans_lt hx
  rw [turn, fmod_of_nonneg hp0 (by linarith)]
  split_ifs with hend
  · exact wrap_of_mem (by linarith) hend
  · calc wrap (x + 1) period = wrap (x + 1 - period) period := by
          rw [← wrap_add_self hp0 (x + 1 - period), sub_add_cancel]
      _ = x + 1 - period := wrap_of_mem (by linarith) (by linarith)

omit [FloorRing α] in
/-- A part of the way from one value to another lies between the two. -/
theorem part_between {c d q : α} (h0 : 0 ≤ q) (h1 : q ≤ 1) :
    min d c ≤ c - q * (c - d) ∧ c - q * (c - d) ≤ max d c := by
  rcases le_total d c with h | h
  · have hnonneg : 0 ≤ q * (c - d) := mul_nonneg h0 (sub_nonneg.2 h)
    have hle : q * (c - d) ≤ c - d := mul_le_of_le_one_left (sub_nonneg.2 h) h1
    rw [min_eq_left h, max_eq_right h]
    constructor <;> linarith
  · have hnonneg : 0 ≤ q * (d - c) := mul_nonneg h0 (sub_nonneg.2 h)
    have hle : q * (d - c) ≤ d - c := mul_le_of_le_one_left (sub_nonneg.2 h) h1
    rw [min_eq_right h, max_eq_left h]
    constructor <;> linarith

end Cycle

section Orbit

variable (hp : 2 ≤ (w.period : α)) (h0 : 0 ≤ w.phase) (hlt : w.phase < w.period)

include hp h0 hlt

/-- **The phase stays in its cycle.** -/
theorem phaseAt_mem (i : ℕ) : 0 ≤ w.phaseAt i ∧ w.phaseAt i < w.period := by
  have hp0 : 0 < (w.period : α) := by linarith
  refine ⟨iterate_nonneg hp0 h0 i, ?_⟩
  cases i with
  | zero => exact hlt
  | succ i => exact iterate_succ_lt hp0 w.phase i

theorem phaseAt_succ (i : ℕ) :
    w.phaseAt (i + 1) =
      if w.phaseAt i + 1 < w.period then w.phaseAt i + 1 else w.phaseAt i + 1 - w.period := by
  obtain ⟨hnonneg, hend⟩ := phaseAt_mem hp h0 hlt i
  rw [← turn_of_mem (by linarith) hnonneg hend]
  exact Function.iterate_succ_apply' _ _ _

/-- The phase is turned back at the end of its cycle. -/
theorem wraps_iff (i : ℕ) : w.Wraps i ↔ (w.period : α) ≤ w.phaseAt i + 1 := by
  rw [Wraps, phaseAt_succ hp h0 hlt]
  split_ifs with hend
  · exact iff_of_false (by linarith) hend.not_ge
  · exact iff_of_true (by linarith) (not_lt.1 hend)

theorem max_int_phase_phaseAt (i : ℕ) :
    max_int_phase (w.period : α) (w.phaseAt i) = lastStep (w.period : α) (w.phaseAt i) :=
  max_int_phase_of_nonneg (by linarith) (phaseAt_mem hp h0 hlt i).1

theorem sample_phaseAt (hsrc : w.m_src = .SAWTOOTH) (i : ℕ) :
    w.sample cos PI (w.phaseAt i) =
      some (w.peak - fallen (w.period : α) (w.phaseAt i) * (w.peak - w.midpoint)) := by
  have hone : 1 ≤ (w.period : α) := by linarith
  have hnphase := nphase_of_nonneg hone (phaseAt_mem hp h0 hlt i).1
  rw [if_neg (lastStep_pos hp _).ne'] at hnphase
  simp only [sample, hsrc, Signal.value, hnphase, Option.map_some]

/-- Before a wrap all has fallen. -/
theorem fallen_of_wraps {i : ℕ} (hwraps : w.Wraps i) :
    fallen (w.period : α) (w.phaseAt i) = 1 := by
  have hpos := lastStep_pos hp (w.phaseAt i)
  have hend := (wraps_iff hp h0 hlt i).1 hwraps
  have hlast := lastStep_eq_floor (phaseAt_mem hp h0 hlt i).2 hend
  rw [hlast] at hpos
  rw [fallen, hlast, div_self (by exact_mod_cast hpos.ne')]

/-- After a wrap nothing has fallen yet. -/
theorem fallen_succ_of_wraps {i : ℕ} (hwraps : w.Wraps i) :
    fallen (w.period : α) (w.phaseAt (i + 1)) = 0 := by
  have hend := (wraps_iff hp h0 hlt i).1 hwraps
  have hmem := phaseAt_mem hp h0 hlt i
  have hfloor : ⌊w.phaseAt i + 1 - (w.period : α)⌋ = 0 :=
    Int.floor_eq_zero_iff.2 ⟨by linarith, by linarith⟩
  rw [phaseAt_succ hp h0 hlt, if_neg hend.not_gt, fallen, hfloor, Int.cast_zero, zero_div]

theorem phaseAt_succ_of_not_wraps {i : ℕ} (hwraps : ¬w.Wraps i) :
    w.phaseAt (i + 1) = w.phaseAt i + 1 := by
  rw [wraps_iff hp h0 hlt, not_le] at hwraps
  rw [phaseAt_succ hp h0 hlt, if_pos hwraps]

variable (cos PI)

/-- **The samples of a sawtooth span its range.** -/
theorem firstSamples_spans (hsrc : w.m_src = .SAWTOOTH) (k : ℕ) :
    w.Spans (w.firstSamples cos PI k) := by
  have hget : ∀ i < (w.firstSamples cos PI k).length, (w.firstSamples cos PI k)[i]? =
      some (some (w.peak - fallen (w.period : α) (w.phaseAt i) * (w.peak - w.midpoint))) := by
    intro i hi
    rw [firstSamples, List.length_map, List.length_range] at hi
    rw [firstSamples, List.getElem?_map, List.getElem?_range hi, Option.map_some,
      sample_phaseAt hp h0 hlt hsrc]
  refine ⟨fun i _ => ?_, fun i hi hwraps => ?_, fun i hi hwraps => ?_, fun i hi hwraps => ?_,
    fun i hi => ?_⟩
  · rw [max_int_phase_phaseAt hp h0 hlt, Int.cast_ne_zero]
    exact (lastStep_pos hp _).ne'
  · rw [hget _ hi, fallen_succ_of_wraps hp h0 hlt hwraps, zero_mul, sub_zero]
  · rw [hget _ hi, fallen_of_wraps hp h0 hlt hwraps, one_mul, sub_sub_cancel]
  · refine ⟨_, _, hget i (by omega), hget _ hi, ?_, ?_⟩
    · rw [phaseAt_succ_of_not_wraps hp h0 hlt hwraps, fallen_add_one,
        max_int_phase_phaseAt hp h0 hlt]
      ring
    · rw [max_int_phase_phaseAt hp h0 hlt, max_int_phase_phaseAt hp h0 hlt,
        phaseAt_succ_of_not_wraps hp h0 hlt hwraps, lastStep_add_one]
  · have hone : 1 ≤ (w.period : α) := by linarith
    obtain ⟨hnonneg, hend⟩ := phaseAt_mem hp h0 hlt i
    exact ⟨_, hget i hi, part_between (fallen_nonneg hone hnonneg) (fallen_le_one hone hend)⟩

/-- **A sawtooth that starts in its first cycle**: each pass of the loop appends one sample at
the phase it finds, and these span the range, however many there are. -/
theorem call_spans (hsrc : w.m_src = .SAWTOOTH) (s : Signal α) (buf : List (Option α))
    (samples : ℕ) :
    (∀ fuel, w.call cos PI s fuel buf samples =
        countedLoop 32 samples (Signal.get_sample cos PI) fuel (w.sawtooth_frame s buf)) ∧
      (∀ k ≤ samples, Makes 32 samples (Signal.get_sample cos PI) k (w.sawtooth_frame s buf)) ∧
      (∀ k, Makes 32 samples (Signal.get_sample cos PI) k (w.sawtooth_frame s buf) →
        ∃ out, (pass 32 (Signal.get_sample cos PI))^[k] (w.sawtooth_frame s buf) =
            ⟨k % 2 ^ 32, { (w.sawtooth_frame s buf).state with m_src_phase := w.phaseAt k },
              buf ++ out⟩ ∧
          out.length = k ∧ w.Spans out) ∧
      (samples < 2 ^ 32 → ∃ fuel t out,
        w.call cos PI s fuel buf samples = some (t, buf ++ out) ∧ out.length = samples ∧
          w.Spans out) := by
  have hspans := firstSamples_spans cos PI hp h0 hlt hsrc
  have hlength (k : ℕ) : (w.firstSamples cos PI k).length = k := by simp [firstSamples]
  refine ⟨call_eq_countedLoop hsrc s buf samples, fun k hk => makes_iff.2 (.inl hk),
    fun k _ => ⟨w.firstSamples cos PI k, ?_, hlength k, hspans k⟩, fun hsamples => ?_⟩
  · have hpass := pass_iterate (w := 32) (f := Signal.get_sample cos PI)
      (w.sawtooth_frame s buf).state buf k
    rw [emit_sawtooth hsrc s buf] at hpass
    exact hpass
  · obtain ⟨fuel, hfuel⟩ := exists_countedLoop_iff.2 ⟨hsamples, rfl⟩
    rw [emit_sawtooth hsrc s buf] at hfuel
    exact ⟨fuel, _, _, (call_eq_countedLoop hsrc s buf samples fuel).trans hfuel, hlength _,
      hspans _⟩

end Orbit

/-- A sawtooth of a period with a fractional part. -/
noncomputable def fractional : Waveform ℝ :=
  ⟨.SAWTOOTH, -3, 5, ⟨100.6, by norm_num⟩, 0.3, 0⟩

/-- It makes a million passes with the samples of its range. -/
theorem call_spans_fractional :
    ∃ out, (pass 32 (Signal.get_sample Real.cos Real.pi))^[1000000]
        (fractional.sawtooth_frame fresh []) =
      ⟨1000000 % 2 ^ 32, { (fractional.sawtooth_frame fresh []).state with
        m_src_phase := fractional.phaseAt 1000000 }, [] ++ out⟩ ∧
      out.length = 1000000 ∧ fractional.Spans out := by
  have hp : 2 ≤ (fractional.period : ℝ) := by norm_num [fractional]
  have h0 : 0 ≤ fractional.phase := by norm_num [fractional]
  have hlt : fractional.phase < fractional.period := by norm_num [fractional]
  obtain ⟨-, hmakes, hspans, -⟩ := call_spans Real.cos Real.pi hp h0 hlt rfl fresh [] 1000000
  exact hspans 1000000 (hmakes 1000000 le_rfl)

end Waveform

end Waveforms

end Libsmu
