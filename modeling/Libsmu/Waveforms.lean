import Libsmu.Lib.CountedLoop
import Libsmu.Lib.SignedRemainder
import Mathlib.Analysis.SpecialFunctions.Trigonometric.Basic
import Mathlib.Data.Rat.Floor

/-!
# Waveforms

The functions `square`, `sawtooth`, `stairstep`, `sine` and `triangle` of a signal keep what
they are called with and take the samples one by one from `get_sample`, which advances the
phase by one and brings it back with `fmod`. A phase below zero stays below zero: one turn is
added to the quotient of phase and period, and the sawtooth adds 1 to its own quotient. The
numbers are those of an ordered field with a floor, and the cosine is a parameter.

`Waveform` is what such a function is called with, and `Waveform.cycle` the value of a
waveform at a place of its cycle. `Waveform.Lawful` says that the samples depend on the phase
by its place only.

## Main results

* `Signal.fill_eq_countedLoop`: the loop of the functions counts with 32 bits.
* `call_iff`: a call returns exactly for fewer than `2 ^ 32` samples, with those of the
  phases that the remainder goes through.
* `exists_lawful_iff`: the law holds when it holds at each of these phases.
* `norm_of_mem`, `good_of_mem`: within one cycle of zero the added turn finds the place.
-/

namespace Libsmu

namespace Waveforms

open SignedRemainder CountedLoop

/-! ### The generator -/

/-- `Src`: the waveforms. -/
inductive Src
  | CONSTANT
  | SQUARE
  | SAWTOOTH
  | STAIRSTEP
  | SINE
  | TRIANGLE
  deriving DecidableEq, Repr

/-- `Signal`, with a period to divide by. -/
structure Signal (α : Type*) [Zero α] where
  m_src : Src
  m_src_v1 : α
  m_src_v2 : α
  m_src_period : α
  m_src_duty : α
  m_src_phase : α
  period_ne : m_src_period ≠ 0

variable {α : Type*} [Field α] [LinearOrder α] [FloorRing α] (cos : α → α) (PI : α)

/-- The quotient of two floats, which is no number where the divisor is 0. -/
def quotient (a b : α) : Option α := if b = 0 then none else some (a / b)

/-- `norm_phase` of `get_sample`. -/
def norm_phase (period phase : α) : α :=
  if phase / period < 0 then phase / period + 1 else phase / period

/-- `max_int_phase` of the sawtooth. -/
def max_int_phase (period phase : α) : α :=
  let int_period : α := trunc period
  let int_phase : α := trunc phase
  let frac_period := period - int_period
  let frac_phase := phase - int_phase
  if frac_period ≤ frac_phase then int_period - 1 else int_period

/-- `nphase` of the sawtooth. -/
def nphase (period phase : α) : Option α :=
  (quotient (trunc phase : α) (max_int_phase period phase)).map fun nphase =>
    if nphase < 0 then nphase + 1 else nphase

namespace Signal

/-- What `get_sample` returns. -/
def value (s : Signal α) : Option α :=
  let peak_to_peak := s.m_src_v2 - s.m_src_v1
  let norm_phase := norm_phase s.m_src_period s.m_src_phase
  match s.m_src with
  | .CONSTANT => some s.m_src_v1
  | .SQUARE => some (if norm_phase < s.m_src_duty then s.m_src_v1 else s.m_src_v2)
  | .SAWTOOTH => (nphase s.m_src_period s.m_src_phase).map fun nphase =>
      s.m_src_v2 - nphase * peak_to_peak
  | .STAIRSTEP => some (s.m_src_v2 - ⌊norm_phase * 10⌋ * peak_to_peak / 9)
  | .SINE => some (s.m_src_v1 + (1 + cos (norm_phase * 2 * PI)) * peak_to_peak / 2)
  | .TRIANGLE => some (s.m_src_v1 + |1 - norm_phase * 2| * peak_to_peak)

/-- What `get_sample` leaves. -/
def advance (s : Signal α) : Signal α :=
  match s.m_src with
  | .CONSTANT => s
  | _ => { s with m_src_phase := fmod (s.m_src_phase + 1) s.m_src_period }

/-- `get_sample`. -/
def get_sample (s : Signal α) : Option α × Signal α := (s.value cos PI, s.advance)

/-- The loop of the functions below: its counter is an `unsigned`, and `samples` has 64 bits. -/
def fill (samples : ℕ) : ℕ → ℕ → Signal α → List (Option α) →
    Option (Signal α × List (Option α))
  | 0, _, _, _ => none
  | fuel + 1, i, s, buf =>
    if i < samples then
      let (sample, s) := s.get_sample cos PI
      fill samples fuel ((i + 1) % 2 ^ 32) s (buf ++ [sample])
    else some (s, buf)

/-- `constant`. -/
def constant (s : Signal α) (fuel : ℕ) (buf : List (Option α)) (samples : ℕ) (val : α) :
    Option (Signal α × List (Option α)) :=
  fill cos PI samples fuel 0 { s with m_src := .CONSTANT, m_src_v1 := val } buf

/-- A waveform with a period, from the phase on. -/
def periodic (s : Signal α) (m_src : Src) (fuel : ℕ) (buf : List (Option α)) (samples : ℕ)
    (midpoint peak : α) (period : {p : α // p ≠ 0}) (phase : α) :
    Option (Signal α × List (Option α)) :=
  fill cos PI samples fuel 0
    { s with
      m_src := m_src
      m_src_phase := phase
      m_src_period := period
      m_src_v1 := midpoint
      m_src_v2 := peak
      period_ne := period.2 } buf

/-- `square`. -/
def square (s : Signal α) (fuel : ℕ) (buf : List (Option α)) (samples : ℕ)
    (midpoint peak : α) (period : {p : α // p ≠ 0}) (phase duty : α) :
    Option (Signal α × List (Option α)) :=
  { s with m_src_duty := duty }.periodic cos PI .SQUARE fuel buf samples midpoint peak period
    phase

/-- `sawtooth`. -/
def sawtooth (s : Signal α) (fuel : ℕ) (buf : List (Option α)) (samples : ℕ)
    (midpoint peak : α) (period : {p : α // p ≠ 0}) (phase : α) :
    Option (Signal α × List (Option α)) :=
  s.periodic cos PI .SAWTOOTH fuel buf samples midpoint peak period phase

/-- `stairstep`. -/
def stairstep (s : Signal α) (fuel : ℕ) (buf : List (Option α)) (samples : ℕ)
    (midpoint peak : α) (period : {p : α // p ≠ 0}) (phase : α) :
    Option (Signal α × List (Option α)) :=
  s.periodic cos PI .STAIRSTEP fuel buf samples midpoint peak period phase

/-- `sine`. -/
def sine (s : Signal α) (fuel : ℕ) (buf : List (Option α)) (samples : ℕ)
    (midpoint peak : α) (period : {p : α // p ≠ 0}) (phase : α) :
    Option (Signal α × List (Option α)) :=
  s.periodic cos PI .SINE fuel buf samples midpoint peak period phase

/-- `triangle`. -/
def triangle (s : Signal α) (fuel : ℕ) (buf : List (Option α)) (samples : ℕ)
    (midpoint peak : α) (period : {p : α // p ≠ 0}) (phase : α) :
    Option (Signal α × List (Option α)) :=
  s.periodic cos PI .TRIANGLE fuel buf samples midpoint peak period phase

/-! ### The loop -/

variable {cos PI} in
/-- The loop is one with a counter of 32 bits. -/
theorem fill_eq_countedLoop {samples fuel i : ℕ} {s : Signal α} {buf : List (Option α)} :
    s.fill cos PI samples fuel i buf =
      countedLoop 32 samples (get_sample cos PI) fuel ⟨i, s, buf⟩ := by
  induction fuel generalizing i s buf with
  | zero => rfl
  | succ fuel ih =>
      rw [fill, countedLoop]
      split_ifs with hlt
      · exact ih
      · rfl

variable {cos PI} in
/-- **Each pass takes the sample of the signal** and advances it. -/
theorem emit_get_sample (s : Signal α) (k : ℕ) :
    emit (get_sample cos PI) k s =
      ((List.range k).map fun i => (advance^[i] s).value cos PI, advance^[k] s) := by
  induction k with
  | zero => rfl
  | succ k ih =>
      rw [emit, ih, List.range_succ, List.map_append, Function.iterate_succ_apply']
      rfl

/-- The loop from the first sample on. -/
theorem exists_fill_iff {s : Signal α} {buf out : List (Option α)} {samples : ℕ} :
    (∃ fuel t, fill cos PI samples fuel 0 s buf = some (t, out)) ↔
      samples < 2 ^ 32 ∧
        out = buf ++ (List.range samples).map fun k => (advance^[k] s).value cos PI := by
  rw [exists_comm]
  simp only [fill_eq_countedLoop, exists_countedLoop_iff, emit_get_sample, Prod.mk.injEq]
  constructor
  · rintro ⟨t, hlt, -, hout⟩
    exact ⟨hlt, hout⟩
  · rintro ⟨hlt, hout⟩
    exact ⟨_, hlt, rfl, hout⟩

end Signal

/-! ### What is asked for and its cycle -/

/-- What one of the functions is called with. -/
structure Waveform (α : Type*) [Zero α] where
  m_src : Src
  midpoint : α
  peak : α
  period : {p : α // p ≠ 0}
  phase : α
  duty : α

namespace Waveform

/-- The call of the function for the waveform. -/
def call (w : Waveform α) (s : Signal α) (fuel : ℕ) (buf : List (Option α)) (samples : ℕ) :
    Option (Signal α × List (Option α)) :=
  match w.m_src with
  | .CONSTANT => s.constant cos PI fuel buf samples w.midpoint
  | .SQUARE => s.square cos PI fuel buf samples w.midpoint w.peak w.period w.phase w.duty
  | .SAWTOOTH => s.sawtooth cos PI fuel buf samples w.midpoint w.peak w.period w.phase
  | .STAIRSTEP => s.stairstep cos PI fuel buf samples w.midpoint w.peak w.period w.phase
  | .SINE => s.sine cos PI fuel buf samples w.midpoint w.peak w.period w.phase
  | .TRIANGLE => s.triangle cos PI fuel buf samples w.midpoint w.peak w.period w.phase

/-- The same waveform from a phase in its first cycle. -/
def reduced (w : Waveform α) : Waveform α := { w with phase := wrap w.phase w.period }

/-- Of the steps of length 1 that a cycle takes from a place in its first step, the number of
the last one. -/
def lastStep (period x : α) : ℤ := ⌈period - Int.fract x⌉ - 1

/-- **The value of a waveform at a place of its cycle**: the square wave is low for the first
part of the cycle, the sawtooth falls from the peak to the midpoint with the steps of the
cycle, the stairstep with tenths of it, the sine has its peak at both ends, and the triangle
falls to the midpoint and rises again. -/
def cycle (w : Waveform α) (x : α) : α :=
  match w.m_src with
  | .CONSTANT => w.midpoint
  | .SQUARE => if x / w.period < w.duty then w.midpoint else w.peak
  | .SAWTOOTH => w.peak - ⌊x⌋ / lastStep (w.period : α) x * (w.peak - w.midpoint)
  | .STAIRSTEP => w.peak - ⌊10 * (x / w.period)⌋ / 9 * (w.peak - w.midpoint)
  | .SINE => w.midpoint + (1 + cos (2 * PI * (x / w.period))) / 2 * (w.peak - w.midpoint)
  | .TRIANGLE => w.midpoint + |1 - 2 * (x / w.period)| * (w.peak - w.midpoint)

/-- What a call is to append: as many samples as are asked for, each with the value at its
place of the cycle, the same from a phase in the first cycle, and for a whole period the same
again after a period. -/
structure Lawful (w : Waveform α) (s : Signal α) (buf : List (Option α)) (samples : ℕ)
    (out : List (Option α)) : Prop where
  returns : ∃ fuel t, w.call cos PI s fuel buf samples = some (t, buf ++ out)
  reduced : ∃ fuel t, w.reduced.call cos PI s fuel buf samples = some (t, buf ++ out)
  length : out.length = samples
  placed : ∀ i < samples, out[i]? = some (some (w.cycle cos PI (wrap (w.phase + i) w.period)))
  again : ∀ N : ℕ, (w.period : α) = N → ∀ i, i + N < samples → out[i + N]? = out[i]?

/-! ### The phases of a call -/

/-- The sample at a phase. -/
def sample (w : Waveform α) (phase : α) : Option α :=
  Signal.value cos PI ⟨w.m_src, w.midpoint, w.peak, w.period, w.duty, phase, w.period.2⟩

/-- The phase of a sample. -/
def phaseAt (w : Waveform α) (i : ℕ) : α := (turn (w.period : α))^[i] w.phase

end Waveform

namespace Signal

theorem advance_of_ne {s : Signal α} (hsrc : s.m_src ≠ .CONSTANT) :
    s.advance = { s with m_src_phase := turn s.m_src_period s.m_src_phase } := by
  unfold advance
  split
  · contradiction
  · rfl

theorem advance_iterate {s : Signal α} (hsrc : s.m_src ≠ .CONSTANT) (i : ℕ) :
    advance^[i] s = { s with m_src_phase := (turn s.m_src_period)^[i] s.m_src_phase } := by
  induction i with
  | zero => rfl
  | succ i ih =>
      rw [Function.iterate_succ_apply', Function.iterate_succ_apply', ih]
      exact advance_of_ne hsrc

theorem advance_constant {s : Signal α} (hsrc : s.m_src = .CONSTANT) (i : ℕ) :
    advance^[i] s = s := by
  have hfix : s.advance = s := by
    rw [advance, hsrc]
  exact Function.iterate_fixed hfix i

end Signal

namespace Waveform

/-- **What a call appends**: the samples at the phases that the remainder goes through. -/
theorem call_iff {w : Waveform α} {s : Signal α} {buf out : List (Option α)} {samples : ℕ} :
    (∃ fuel t, w.call cos PI s fuel buf samples = some (t, out)) ↔
      samples < 2 ^ 32 ∧
        out = buf ++ (List.range samples).map fun k => w.sample cos PI (w.phaseAt k) := by
  obtain ⟨m_src, midpoint, peak, period, phase, duty⟩ := w
  cases m_src
  case CONSTANT =>
    simp only [call, Signal.constant, Signal.exists_fill_iff, Signal.advance_constant]
    rfl
  all_goals
    simp only [call, Signal.square, Signal.sawtooth, Signal.stairstep, Signal.sine,
      Signal.triangle, Signal.periodic, Signal.exists_fill_iff, ne_eq, reduceCtorEq,
      not_false_eq_true, Signal.advance_iterate]
    rfl

/-- The sample at a phase and the one at its place are the value of the waveform there. -/
def Good (w : Waveform α) (phase : α) : Prop :=
  w.sample cos PI phase = some (w.cycle cos PI (wrap phase w.period)) ∧
    w.sample cos PI (wrap phase w.period) = some (w.cycle cos PI (wrap phase w.period))

/-- The value of a waveform at a quotient of phase and period. -/
def shape (w : Waveform α) (q : α) : α :=
  match w.m_src with
  | .CONSTANT => w.midpoint
  | .SQUARE => if q < w.duty then w.midpoint else w.peak
  | .SAWTOOTH => w.peak
  | .STAIRSTEP => w.peak - ⌊10 * q⌋ / 9 * (w.peak - w.midpoint)
  | .SINE => w.midpoint + (1 + cos (2 * PI * q)) / 2 * (w.peak - w.midpoint)
  | .TRIANGLE => w.midpoint + |1 - 2 * q| * (w.peak - w.midpoint)

/-- The samples that the law asks for. -/
def places (w : Waveform α) (samples : ℕ) : List (Option α) :=
  (List.range samples).map fun i : ℕ => some (w.cycle cos PI (wrap (w.phase + i) w.period))

variable {cos PI}

theorem sample_eq_shape {w : Waveform α} (hsrc : w.m_src ≠ .SAWTOOTH) (phase : α) :
    w.sample cos PI phase = some (w.shape cos PI (norm_phase (w.period : α) phase)) := by
  obtain ⟨m_src, midpoint, peak, period, phase', duty⟩ := w
  cases m_src
  case SAWTOOTH => contradiction
  all_goals
    simp only [sample, Signal.value, shape]
    try ring_nf

theorem cycle_eq_shape {w : Waveform α} (hsrc : w.m_src ≠ .SAWTOOTH) (x : α) :
    w.cycle cos PI x = w.shape cos PI (x / w.period) := by
  obtain ⟨m_src, midpoint, peak, period, phase', duty⟩ := w
  cases m_src
  case SAWTOOTH => contradiction
  all_goals rfl

omit [LinearOrder α] [FloorRing α] in
/-- Two parts of a range below a value. -/
theorem below_inj {c d a b : α} : c - a * (c - d) = c - b * (c - d) ↔ d = c ∨ a = b := by
  rw [sub_right_inj, mul_eq_mul_right_iff, sub_eq_zero, or_comm, eq_comm (a := c)]

omit [LinearOrder α] [FloorRing α] in
/-- Two parts of a range above a value. -/
theorem above_inj {c d a b : α} : d + a * (c - d) = d + b * (c - d) ↔ d = c ∨ a = b := by
  rw [add_right_inj, mul_eq_mul_right_iff, sub_eq_zero, or_comm, eq_comm (a := c)]

/-- The law says what the samples are. -/
theorem Lawful.eq_places {w : Waveform α} {s : Signal α} {buf out : List (Option α)} {samples : ℕ}
    (h : w.Lawful cos PI s buf samples out) : out = w.places cos PI samples := by
  apply List.ext_getElem?
  intro i
  rcases Nat.lt_or_ge i samples with hi | hi
  · simp [h.placed i hi, places, hi]
  · rw [List.getElem?_eq_none (h.length.trans_le hi), List.getElem?_eq_none]
    simpa [places] using hi

section Law

variable [IsStrictOrderedRing α] {w : Waveform α} (hp : 0 < (w.period : α))

include hp

theorem wrap_phaseAt (i : ℕ) : wrap (w.phaseAt i) w.period = wrap (w.phase + i) w.period :=
  wrap_iterate hp w.phase i

/-- From a phase in the first cycle a call goes through the places themselves. -/
theorem phaseAt_reduced (i : ℕ) : w.reduced.phaseAt i = wrap (w.phase + i) w.period := by
  have hnonneg : 0 ≤ wrap w.phase w.period := wrap_nonneg hp w.phase
  cases i with
  | zero => simp [phaseAt, reduced]
  | succ i =>
      calc w.reduced.phaseAt (i + 1) = wrap (wrap w.phase w.period + (i + 1 : ℕ)) w.period :=
            iterate_of_nonneg hp hnonneg i
        _ = wrap (w.phase + (i + 1 : ℕ)) w.period := wrap_wrap_add hp _ _

theorem call_places_iff {s : Signal α} {buf : List (Option α)} {samples : ℕ} :
    (∃ fuel t, w.call cos PI s fuel buf samples = some (t, buf ++ w.places cos PI samples)) ↔
      samples < 2 ^ 32 ∧ ∀ i < samples, w.sample cos PI (w.phaseAt i) =
        some (w.cycle cos PI (wrap (w.phaseAt i) w.period)) := by
  rw [call_iff, List.append_cancel_left_eq, places, List.map_inj_left]
  simp only [List.mem_range, wrap_phaseAt hp, eq_comm]

theorem reduced_call_places_iff {s : Signal α} {buf : List (Option α)} {samples : ℕ} :
    (∃ fuel t,
        w.reduced.call cos PI s fuel buf samples = some (t, buf ++ w.places cos PI samples)) ↔
      samples < 2 ^ 32 ∧ ∀ i < samples, w.sample cos PI (wrap (w.phaseAt i) w.period) =
        some (w.cycle cos PI (wrap (w.phaseAt i) w.period)) := by
  rw [call_iff, List.append_cancel_left_eq, places, List.map_inj_left]
  simp only [List.mem_range, phaseAt_reduced hp, wrap_phaseAt hp, eq_comm]
  rfl

/-- **The law sample by sample.** -/
theorem exists_lawful_iff {s : Signal α} {buf : List (Option α)} {samples : ℕ} :
    (∃ out, w.Lawful cos PI s buf samples out) ↔
      samples < 2 ^ 32 ∧ ∀ i < samples, w.Good cos PI (w.phaseAt i) := by
  constructor
  · rintro ⟨out, h⟩
    obtain rfl := h.eq_places
    have hcall := (call_places_iff hp).1 h.returns
    have hreduced := (reduced_call_places_iff hp).1 h.reduced
    exact ⟨hcall.1, fun i hi => ⟨hcall.2 i hi, hreduced.2 i hi⟩⟩
  · rintro ⟨hlt, hgood⟩
    refine ⟨w.places cos PI samples, (call_places_iff hp).2 ⟨hlt, fun i hi => (hgood i hi).1⟩,
      (reduced_call_places_iff hp).2 ⟨hlt, fun i hi => (hgood i hi).2⟩, by simp [places],
      fun i hi => by simp [places, hi], fun N hN i hi => ?_⟩
    have hagain : wrap (w.phase + (i + N : ℕ)) w.period = wrap (w.phase + i) w.period := by
      rw [Nat.cast_add, ← hN, ← add_assoc, wrap_add_self hp]
    rw [places, List.getElem?_map, List.getElem?_map, List.getElem?_range hi,
      List.getElem?_range (by omega), Option.map_some, Option.map_some, hagain]

/-! ### The quotient of phase and period -/

omit [FloorRing α] in
theorem norm_of_nonneg {phase : α} (h0 : 0 ≤ phase) :
    norm_phase (w.period : α) phase = phase / w.period :=
  if_neg (div_nonneg h0 hp.le).not_gt

omit [FloorRing α] in
theorem norm_of_neg {phase : α} (h0 : phase < 0) :
    norm_phase (w.period : α) phase = phase / w.period + 1 :=
  if_pos (div_neg_of_neg_of_pos h0 hp)

/-- **Within one cycle of zero the added turn finds the place.** -/
theorem norm_of_mem {phase : α} (hlo : -(w.period : α) ≤ phase) (hhi : phase < w.period) :
    norm_phase (w.period : α) phase = wrap phase w.period / w.period := by
  rcases le_or_gt 0 phase with h0 | h0
  · rw [norm_of_nonneg hp h0, wrap_of_mem h0 hhi]
  · rw [norm_of_neg hp h0, wrap_of_neg hlo h0, add_div, div_self hp.ne']

/-- Anywhere it is whole turns off. -/
theorem exists_norm_eq (phase : α) :
    ∃ k : ℤ, norm_phase (w.period : α) phase = wrap phase w.period / w.period + k := by
  have hfloor := Int.floor_add_fract (phase / w.period)
  rw [wrap_div hp]
  rcases le_or_gt 0 phase with h0 | h0
  · exact ⟨⌊phase / w.period⌋, by rw [norm_of_nonneg hp h0]; linarith⟩
  · exact ⟨⌊phase / w.period⌋ + 1, by rw [norm_of_neg hp h0]; push_cast; linarith⟩

omit [FloorRing α] in
theorem one_le_norm {phase : α} (h : (w.period : α) ≤ phase) :
    1 ≤ norm_phase (w.period : α) phase := by
  rw [norm_of_nonneg hp (hp.le.trans h)]
  exact (one_le_div hp).2 h

omit [FloorRing α] in
theorem norm_neg {phase : α} (h : phase < -(w.period : α)) :
    norm_phase (w.period : α) phase < 0 := by
  have hdiv : phase / w.period < -1 := by
    rw [div_lt_iff₀ hp]
    linarith
  rw [norm_of_neg hp (by linarith)]
  linarith

theorem place_div_nonneg (phase : α) : 0 ≤ wrap phase w.period / w.period :=
  div_nonneg (wrap_nonneg hp phase) hp.le

theorem place_div_lt_one (phase : α) : wrap phase w.period / w.period < 1 :=
  (div_lt_one hp).2 (wrap_lt hp phase)

/-! ### Waveforms that only read the quotient -/

/-- Such a waveform is right at a phase where its value at the quotient is that at the
place. -/
theorem good_iff_shape (hsrc : w.m_src ≠ .SAWTOOTH) {phase : α} :
    w.Good cos PI phase ↔ w.shape cos PI (norm_phase (w.period : α) phase) =
      w.shape cos PI (wrap phase w.period / w.period) := by
  rw [Good, sample_eq_shape hsrc, sample_eq_shape hsrc, cycle_eq_shape hsrc,
    norm_of_nonneg hp (wrap_nonneg hp phase), Option.some.injEq]
  exact and_iff_left rfl

theorem good_of_mem (hsrc : w.m_src ≠ .SAWTOOTH) {phase : α}
    (hlo : -(w.period : α) ≤ phase) (hhi : phase < w.period) : w.Good cos PI phase := by
  rw [good_iff_shape hp hsrc, norm_of_mem hp hlo hhi]

theorem good_constant (hsrc : w.m_src = .CONSTANT) (phase : α) : w.Good cos PI phase := by
  rw [good_iff_shape hp (by simp [hsrc])]
  simp only [shape, hsrc]

theorem good_sine (hsrc : w.m_src = .SINE) (hcos : Function.Periodic cos (2 * PI)) (phase : α) :
    w.Good cos PI phase := by
  obtain ⟨k, hk⟩ := exists_norm_eq hp phase
  have hturns : 2 * PI * (wrap phase w.period / w.period + k) =
      2 * PI * (wrap phase w.period / w.period) + k * (2 * PI) := by
    ring
  rw [good_iff_shape hp (by simp [hsrc]), hk]
  simp only [shape, hsrc]
  rw [hturns, hcos.int_mul k]

/-- The square wave is right where the duty does not lie between the quotient and the place. -/
theorem good_square_iff (hsrc : w.m_src = .SQUARE) {phase : α} :
    w.Good cos PI phase ↔ w.midpoint = w.peak ∨
      (norm_phase (w.period : α) phase < w.duty ↔ wrap phase w.period / w.period < w.duty) := by
  rw [good_iff_shape hp (by simp [hsrc])]
  simp only [shape, hsrc]
  split_ifs with h₁ h₂ h₂ <;> simp [h₁, h₂, eq_comm]

theorem good_stairstep_iff (hsrc : w.m_src = .STAIRSTEP) {phase : α} :
    w.Good cos PI phase ↔ w.midpoint = w.peak ∨
      ⌊10 * norm_phase (w.period : α) phase⌋ = ⌊10 * (wrap phase w.period / w.period)⌋ := by
  rw [good_iff_shape hp (by simp [hsrc])]
  simp only [shape, hsrc]
  rw [below_inj, div_left_inj' (by norm_num), Int.cast_inj]

theorem good_triangle_iff (hsrc : w.m_src = .TRIANGLE) {phase : α} :
    w.Good cos PI phase ↔ w.midpoint = w.peak ∨
      |1 - 2 * norm_phase (w.period : α) phase| =
        |1 - 2 * (wrap phase w.period / w.period)| := by
  rw [good_iff_shape hp (by simp [hsrc])]
  simp only [shape, hsrc]
  rw [above_inj]

end Law

end Waveform

end Waveforms

end Libsmu
