import Libsmu.CalibrationRunFile
import Libsmu.CalibrationStore

/-!
# The Calibration Procedure

`pysmu cal -R` has the user connect a device that has its defaults, takes the means of its samples
and asks for what a multimeter shows. Each of the eight sections of its file gets two or three
pairs of these numbers. `write_calibration` takes the first number of a pair for the value that is
meant and the second one for the value that the device has for it.

The procedure does not fill the pairs in this way throughout. At 2.5 V it puts the reading first and
the multimeter second, the offset of a measured current is the mean of a voltage, and for what is
sourced it takes what the device reads for what it was asked for. Arithmetic is exact here, and all
numbers have four places.

## Main results

* `measuresRight_iff`, `sourcesRight_iff`: the entries that undo a linear response.
* `run_right_iff`: when the device measures and sources right after the procedure.
-/

namespace Libsmu

namespace CalibrationRun

open DecimalText CalibrationStore

/-! ### The procedure -/

/-- A sample of the device. -/
abbrev Sample := Channel → Signal → ℚ

/-- The currents that are sourced: 0 A, 0.1 A and -0.1 A. -/
inductive Level
  | zero
  | plus
  | minus

/-- The current of a level. -/
def Level.amps : Level → ℚ
  | .zero => 0
  | .plus => 1 / 10
  | .minus => -(1 / 10)

/-- What the procedure is told: samples of the device, and what the user reads from the
multimeter. -/
structure Answers where
  /-- both inputs are connected to GND -/
  grounded : List Sample
  /-- one channel, then the other is connected to 2.5 V -/
  atReference : Channel → List Sample
  dmm_voltage : ℚ
  /-- both channels source 0 V -/
  zeroVolts : List Sample
  dmm_zeroVolts : Channel → ℚ
  /-- both channels source 2.5 V -/
  volts : List Sample
  dmm_volts : Channel → ℚ
  /-- both channels are open -/
  opened : List Sample
  /-- the channel measures 0.1 A -/
  dmm_plus : Channel → ℚ
  /-- the channel measures -0.1 A -/
  dmm_minus : Channel → ℚ
  /-- a current is sourced -/
  sourced : Level → Channel → List Sample
  dmm_sourced : Level → Channel → ℚ

/-- `rounded_mean`. -/
def rounded_mean (l : List ℚ) : ℚ := rounded 4 (l.sum / l.length)

/-- The mean of a signal of a channel. -/
def mean (samples : List Sample) (ch : Channel) (signal : Signal) : ℚ :=
  rounded_mean (samples.map fun x => x ch signal)

/-- The pairs for a measured voltage. -/
def Answers.measuredVolts (r : Answers) (ch : Channel) : List (ℚ × ℚ) :=
  [(0, mean r.grounded ch .voltage), (mean (r.atReference ch) ch .voltage, r.dmm_voltage)]

/-- The pairs for a measured current. The first mean is that of the voltages. -/
def Answers.measuredAmps (r : Answers) (ch : Channel) : List (ℚ × ℚ) :=
  [(0, mean r.opened ch .voltage), (r.dmm_plus ch, 1 / 10), (r.dmm_minus ch, -(1 / 10))]

/-- The pairs for a sourced voltage. -/
def Answers.sourcedVolts (r : Answers) (ch : Channel) : List (ℚ × ℚ) :=
  [(mean r.zeroVolts ch .voltage, r.dmm_zeroVolts ch), (mean r.volts ch .voltage, r.dmm_volts ch)]

/-- The pairs for a sourced current. -/
def Answers.sourcedAmps (r : Answers) (ch : Channel) : List (ℚ × ℚ) :=
  [Level.zero, .plus, .minus].map fun level =>
    (mean (r.sourced level ch) ch .current, r.dmm_sourced level ch)

/-- `d` of `calibration`. -/
def Answers.d (r : Answers) : Fin 8 → List (ℚ × ℚ)
  | 0 => r.measuredVolts .A
  | 1 => r.measuredAmps .A
  | 2 => r.sourcedVolts .A
  | 3 => r.sourcedAmps .A
  | 4 => r.measuredVolts .B
  | 5 => r.measuredAmps .B
  | 6 => r.sourcedVolts .B
  | 7 => r.sourcedAmps .B

/-! ### Linear responses -/

/-- A linear response with a positive gain. -/
structure Response where
  gain : ℚ
  offset : ℚ
  pos : 0 < gain

/-- What comes of a value. -/
def Response.of (p : Response) (x : ℚ) : ℚ := p.gain * x + p.offset

/-- What a channel does without a calibration: what it reads where there is a value, and what it
puts out when it is to source one. -/
structure ChannelResponse where
  measures : Signal → Response
  sources : Signal → Response

/-- The samples measured on a channel are what there is. -/
def MeasuresRight (m_cal : StoredCal ℚ) (ch : Channel) (signal : Signal) (p : Response) : Prop :=
  ∀ w < 65536, ∀ fwver mux sample,
    p.of ((⟨fwver, conversions m_cal, mux⟩ : Decoder).decode sample w (reading signal ch)) =
      rawValue signal w

/-- What a channel sources is what was asked for. -/
def SourcesRight (m_cal : StoredCal ℚ) (ch : Channel) (signal : Signal) (p : Response) : Prop :=
  ∀ x, p.of (calibrated (conversions m_cal) ch signal x) = x

/-- An entry undoes a response. -/
structure Undoes (c : SectionCal ℚ) (signal : Signal) (p : Response) : Prop where
  offset : c.offset = p.offset
  gain_p : p.gain * c.gain_p = 1
  gain_n : signal = .current → p.gain * c.gain_n = 1

/-- Without the offset and with the inverse gain a response is undone. -/
theorem Response.of_undone {p : Response} {gain : ℚ} (hgain : p.gain * gain = 1) (x : ℚ) :
    p.of ((x - p.offset) * gain) = x := by
  rw [Response.of, mul_left_comm, hgain, mul_one, sub_add_cancel]

/-- Two values that come out right tell that it is. -/
theorem undone_of_values {p : Response} {offset gain x y : ℚ} (hxy : x ≠ y)
    (hx : p.of ((x - offset) * gain) = x) (hy : p.of ((y - offset) * gain) = y) :
    offset = p.offset ∧ p.gain * gain = 1 := by
  rw [Response.of] at hx hy
  have hsub : (x - y) * (p.gain * gain) = (x - y) * 1 := by linarith
  have hgain := mul_left_cancel₀ (sub_ne_zero.mpr hxy) hsub
  have hoffset : p.gain * ((x - offset) * gain) = x - offset := by
    rw [mul_left_comm, hgain, mul_one]
  exact ⟨by linarith, hgain⟩

/-- An entry that undoes a response takes either gain. -/
theorem Undoes.of_eq {c : SectionCal ℚ} {signal : Signal} {p : Response} (h : Undoes c signal p)
    (x : ℚ) (up : Prop) [Decidable up] :
    p.of ((x - c.offset) * if signal = .voltage ∨ up then c.gain_p else c.gain_n) = x := by
  rw [h.offset]
  split
  · exact Response.of_undone h.gain_p x
  · rename_i hnot
    cases signal with
    | voltage => exact absurd (Or.inl rfl) hnot
    | current => exact Response.of_undone (h.gain_n rfl) x

/-- A word is decoded by its value and a gain. -/
theorem decode_eq (m_cal : StoredCal ℚ) (ch : Channel) (signal : Signal) (w : ℕ) (fwver : ℚ)
    (mux : ℕ) (sample : ℚ) :
    (⟨fwver, conversions m_cal, mux⟩ : Decoder).decode sample w (reading signal ch) =
      (rawValue signal w - m_cal.offset (measureRecord ch signal)) *
        if signal = .voltage ∨ 0 < sample then m_cal.gain_p (measureRecord ch signal)
        else m_cal.gain_n (measureRecord ch signal) := by
  cases signal with
  | voltage =>
      rw [if_pos (Or.inl rfl)]
      rfl
  | current =>
      simp only [reduceCtorEq, false_or]
      rfl

theorem rawValue_zero_ne_one (signal : Signal) : rawValue signal 0 ≠ rawValue signal 1 := by
  cases signal with
  | voltage => norm_num [rawValue, m1000_signal_info]
  | current => norm_num [rawValue, m1000_signal_info]

/-- **What is measured is right** when the entry undoes the response. -/
theorem measuresRight_iff {m_cal : StoredCal ℚ} {ch : Channel} {signal : Signal} {p : Response} :
    MeasuresRight m_cal ch signal p ↔
      Undoes (m_cal.entry (measureRecord ch signal)) signal p := by
  have hne := rawValue_zero_ne_one signal
  constructor
  · intro h
    have hplus := fun w hw => h w hw 0 0 1
    have hminus := fun w hw => h w hw 0 0 0
    simp only [decode_eq, zero_lt_one, or_true, if_true] at hplus
    obtain ⟨hoffset, hgain⟩ := undone_of_values hne (hplus 0 (by omega)) (hplus 1 (by omega))
    refine ⟨hoffset, hgain, ?_⟩
    rintro rfl
    simp only [decode_eq, reduceCtorEq, lt_irrefl, or_false, if_false] at hminus
    exact (undone_of_values hne (hminus 0 (by omega)) (hminus 1 (by omega))).2
  · intro h w _ fwver mux sample
    rw [decode_eq]
    exact h.of_eq (rawValue signal w) (0 < sample)

/-- **What is sourced is right** when the entry undoes the response. -/
theorem sourcesRight_iff {m_cal : StoredCal ℚ} {ch : Channel} {signal : Signal} {p : Response} :
    SourcesRight m_cal ch signal p ↔
      Undoes (m_cal.entry (sourceRecord ch signal)) signal p := by
  constructor
  · intro h
    have hone := h 1
    have htwo := h 2
    simp only [calibrated, zero_lt_one, zero_lt_two, or_true, if_true] at hone htwo
    obtain ⟨hoffset, hgain⟩ := undone_of_values (by norm_num) hone htwo
    refine ⟨hoffset, hgain, ?_⟩
    rintro rfl
    have hzero := h 0
    have hbelow := h (-1)
    have hneg : ¬(0 : ℚ) < -1 := by norm_num
    simp only [calibrated, reduceCtorEq, lt_irrefl, hneg, or_false, if_false] at hzero hbelow
    exact (undone_of_values (by norm_num) hzero hbelow).2
  · intro h x
    rw [calibrated]
    exact h.of_eq x (0 < x)

/-! ### The entries of a run -/

/-- An entry of two pairs. -/
theorem sectionCal_pair {x p : ℚ × ℚ} (hp : 0 < p.1) :
    sectionCal x [p] = ⟨x.2 - x.1, p.1 / (p.2 - (x.2 - x.1)), 1⟩ := by
  simp [sectionCal, gainSums, GainSums.add, hp]

/-- An entry of three pairs, the second one positive and the third one negative. -/
theorem sectionCal_triple {x p q : ℚ × ℚ} (hp : 0 < p.1) (hq : q.1 < 0) :
    sectionCal x [p, q] =
      ⟨x.2 - x.1, p.1 / (p.2 - (x.2 - x.1)), q.1 / (q.2 - (x.2 - x.1))⟩ := by
  simp [sectionCal, gainSums, GainSums.add, hp, hq.le.not_gt]

/-- A gain that is computed from a value and what comes of it. -/
theorem Response.gain_eq_iff {p : Response} {x y : ℚ} (hx : x ≠ 0) :
    p.gain * (x / (y - p.offset)) = 1 ↔ y = p.of x := by
  have hpos := p.pos.ne'
  rw [Response.of, ← sub_eq_iff_eq_add]
  by_cases hy : y - p.offset = 0
  · rw [hy, div_zero, mul_zero]
    exact iff_of_false zero_ne_one fun h => mul_ne_zero hpos hx h.symm
  · rw [← mul_div_assoc, div_eq_one_iff_eq hy]
    exact eq_comm

/-- Different values come out differently. -/
theorem Response.of_injective (p : Response) : Function.Injective p.of := by
  intro x y h
  exact mul_left_cancel₀ p.pos.ne' (add_right_cancel h)

theorem Response.of_zero (p : Response) : p.of 0 = p.offset := by
  rw [Response.of, mul_zero, zero_add]

/-- A response that takes a value there and back has it as it is. -/
theorem Response.of_of_eq_iff {p : Response} {x : ℚ} : p.of (p.of x) = x ↔ p.of x = x := by
  have hpos := p.pos
  refine ⟨fun h => ?_, fun h => by rw [h, h]⟩
  rw [Response.of, Response.of] at h
  rcases lt_trichotomy (p.of x) x with hlt | heq | hgt
  · have := mul_lt_mul_of_pos_left hlt hpos
    rw [Response.of] at hlt this
    linarith
  · exact heq
  · have := mul_lt_mul_of_pos_left hgt hpos
    rw [Response.of] at hgt this
    linarith

/-! ### What a run leaves -/

/-- The answers come from a channel with these responses, while it has its defaults. -/
structure Answers.Of (r : Answers) (ch : Channel) (p : ChannelResponse) : Prop where
  grounded : mean r.grounded ch .voltage = (p.measures .voltage).of 0
  atReference : mean (r.atReference ch) ch .voltage =
    (p.measures .voltage).of (rounded 4 r.dmm_voltage)
  plus : (p.measures .current).of (rounded 4 (r.dmm_plus ch)) = 1 / 10
  minus : (p.measures .current).of (rounded 4 (r.dmm_minus ch)) = -(1 / 10)
  zeroVolts : rounded 4 (r.dmm_zeroVolts ch) = (p.sources .voltage).of 0
  volts : rounded 4 (r.dmm_volts ch) = (p.sources .voltage).of (5 / 2)
  sourced : ∀ level, rounded 4 (r.dmm_sourced level ch) = (p.sources .current).of level.amps

/-- The readings have the signs that are expected. -/
structure Answers.Signed (r : Answers) (ch : Channel) : Prop where
  atReference : 0 < mean (r.atReference ch) ch .voltage
  plus : 0 < rounded 4 (r.dmm_plus ch)
  minus : rounded 4 (r.dmm_minus ch) < 0
  volts : 0 < mean r.volts ch .voltage
  sourced_plus : 0 < mean (r.sourced .plus ch) ch .current
  sourced_minus : mean (r.sourced .minus ch) ch .current < 0

section Entries

variable {r : Answers} {ch : Channel} {p : ChannelResponse}

/-- The pairs as they are printed and read. -/
def printed (pairs : List (ℚ × ℚ)) : List (ℚ × ℚ) :=
  pairs.map fun x => (rounded 4 x.1, rounded 4 x.2)

/-- The entry of pairs of readings. -/
def entryOf (pairs : List (ℚ × ℚ)) : SectionCal ℚ :=
  sectionCal ((printed pairs).headD (0, 0)) (printed pairs).tail

theorem rounded_mean_mean (samples : List Sample) (ch : Channel) (signal : Signal) :
    rounded 4 (mean samples ch signal) = mean samples ch signal :=
  rounded_rounded 4 _

theorem rounded_zero : rounded 4 0 = 0 := rounded_of_mul_eq (n := 0) (by norm_num)

theorem rounded_tenth : rounded 4 (1 / 10) = 1 / 10 := rounded_of_mul_eq (n := 1000) (by norm_num)

theorem rounded_neg_tenth : rounded 4 (-(1 / 10)) = -(1 / 10) :=
  rounded_of_mul_eq (n := -1000) (by norm_num)

/-- A measured voltage. -/
theorem undoes_measuredVolts_iff (hsigned : r.Signed ch) (hof : r.Of ch p) :
    Undoes (entryOf (r.measuredVolts ch)) .voltage (p.measures .voltage) ↔
      mean (r.atReference ch) ch .voltage = rounded 4 r.dmm_voltage := by
  have hpos := hsigned.atReference
  have hoffset : mean r.grounded ch .voltage = (p.measures .voltage).offset :=
    hof.grounded.trans (Response.of_zero _)
  have hentry : entryOf (r.measuredVolts ch) = ⟨_, _, _⟩ :=
    sectionCal_pair (x := (_, _)) (p := (_, _)) ((rounded_mean_mean _ _ _).symm ▸ hpos)
  simp only [rounded_mean_mean, rounded_zero, sub_zero] at hentry
  rw [hoffset] at hentry
  have hgain := Response.gain_eq_iff (p := p.measures .voltage) (y := rounded 4 r.dmm_voltage)
    hpos.ne'
  rw [hentry]
  constructor
  · intro h
    have hback := hgain.mp h.gain_p
    rw [hof.atReference] at hback ⊢
    exact Response.of_of_eq_iff.mp hback.symm
  · intro h
    refine ⟨rfl, hgain.mpr ?_, fun hcurrent => (by cases hcurrent)⟩
    rw [h, ← hof.atReference, h]

/-- A measured current. -/
theorem undoes_measuredAmps_iff (hsigned : r.Signed ch) (hof : r.Of ch p) :
    Undoes (entryOf (r.measuredAmps ch)) .current (p.measures .current) ↔
      mean r.opened ch .voltage = (p.measures .current).offset := by
  have hentry : entryOf (r.measuredAmps ch) = ⟨_, _, _⟩ :=
    sectionCal_triple (x := (_, _)) (p := (_, _)) (q := (_, _)) hsigned.plus hsigned.minus
  simp only [rounded_mean_mean, rounded_zero, rounded_tenth, rounded_neg_tenth,
    sub_zero] at hentry
  rw [hentry]
  refine ⟨Undoes.offset, fun h => ⟨h, ?_, fun _ => ?_⟩⟩
  · rw [h]
    exact (Response.gain_eq_iff hsigned.plus.ne').mpr hof.plus.symm
  · rw [h]
    exact (Response.gain_eq_iff hsigned.minus.ne).mpr hof.minus.symm

/-- A sourced voltage. -/
theorem undoes_sourcedVolts_iff (hsigned : r.Signed ch) (hof : r.Of ch p) :
    Undoes (entryOf (r.sourcedVolts ch)) .voltage (p.sources .voltage) ↔
      mean r.zeroVolts ch .voltage = 0 ∧ mean r.volts ch .voltage = 5 / 2 := by
  have hpos := hsigned.volts
  have hentry : entryOf (r.sourcedVolts ch) = ⟨_, _, _⟩ :=
    sectionCal_pair (x := (_, _)) (p := (_, _)) ((rounded_mean_mean _ _ _).symm ▸ hpos)
  simp only [rounded_mean_mean, hof.zeroVolts, hof.volts, Response.of_zero] at hentry
  rw [hentry]
  constructor
  · intro h
    have hzero : mean r.zeroVolts ch .voltage = 0 := by linarith [h.offset]
    have hgain := h.gain_p
    simp only [hzero, sub_zero] at hgain
    exact ⟨hzero, ((p.sources .voltage).of_injective
      ((Response.gain_eq_iff hpos.ne').mp hgain)).symm⟩
  · rintro ⟨hzero, hvolts⟩
    simp only [hzero, sub_zero]
    refine ⟨rfl, (Response.gain_eq_iff hpos.ne').mpr ?_, fun hcurrent => (by cases hcurrent)⟩
    rw [hvolts]

/-- A sourced current. -/
theorem undoes_sourcedAmps_iff (hsigned : r.Signed ch) (hof : r.Of ch p) :
    Undoes (entryOf (r.sourcedAmps ch)) .current (p.sources .current) ↔
      ∀ level, mean (r.sourced level ch) ch .current = level.amps := by
  have hpos := hsigned.sourced_plus
  have hneg := hsigned.sourced_minus
  have hentry : entryOf (r.sourcedAmps ch) = ⟨_, _, _⟩ :=
    sectionCal_triple (x := (_, _)) (p := (_, _)) (q := (_, _))
      ((rounded_mean_mean _ _ _).symm ▸ hpos) ((rounded_mean_mean _ _ _).symm ▸ hneg)
  have hoffset : (p.sources .current).of Level.zero.amps = (p.sources .current).offset :=
    Response.of_zero _
  simp only [rounded_mean_mean, hof.sourced, hoffset] at hentry
  rw [hentry]
  constructor
  · intro h
    have hzero : mean (r.sourced .zero ch) ch .current = 0 := by linarith [h.offset]
    have hgain_p := h.gain_p
    have hgain_n := h.gain_n rfl
    simp only [hzero, sub_zero] at hgain_p hgain_n
    intro level
    cases level with
    | zero => exact hzero
    | plus => exact ((p.sources .current).of_injective
        ((Response.gain_eq_iff hpos.ne').mp hgain_p)).symm
    | minus => exact ((p.sources .current).of_injective
        ((Response.gain_eq_iff hneg.ne).mp hgain_n)).symm
  · intro h
    have hzero : mean (r.sourced .zero ch) ch .current = 0 := h .zero
    simp only [hzero, sub_zero]
    refine ⟨rfl, (Response.gain_eq_iff hpos.ne').mpr ?_,
      fun _ => (Response.gain_eq_iff hneg.ne).mpr ?_⟩
    · rw [h .plus]
    · rw [h .minus]

end Entries

theorem d_measureRecord (r : Answers) (ch : Channel) :
    r.d (measureRecord ch .voltage) = r.measuredVolts ch ∧
      r.d (measureRecord ch .current) = r.measuredAmps ch := by
  cases ch with
  | A => exact ⟨rfl, rfl⟩
  | B => exact ⟨rfl, rfl⟩

theorem d_sourceRecord (r : Answers) (ch : Channel) :
    r.d (sourceRecord ch .voltage) = r.sourcedVolts ch ∧
      r.d (sourceRecord ch .current) = r.sourcedAmps ch := by
  cases ch with
  | A => exact ⟨rfl, rfl⟩
  | B => exact ⟨rfl, rfl⟩

/-- The entries that the file gives are those of the readings. -/
theorem cal_eq_entryOf {number : List Char → ℚ} (hnumber : ∀ x, number (fixed 4 x) = rounded 4 x)
    (d : Readings) : d.cal number = entryOf d.pairs := by
  have hprinted : d.pairs.map (scanned number) = printed d.pairs :=
    List.map_congr_left fun x _ => Prod.ext (hnumber x.1) (hnumber x.2)
  obtain ⟨x, xs, hx⟩ := List.exists_cons_of_ne_nil d.ne_nil
  rw [hx, List.map_cons] at hprinted
  rw [Readings.cal, entryOf]
  simp only [hx, List.head_cons, List.tail_cons, ← hprinted, List.headD_cons]

/-- A sample with the same voltage and current on both channels. -/
def sampleOf (volts amps : ℚ) : Sample := fun _ signal =>
  match signal with
  | .voltage => volts
  | .current => amps

/-- A device that reads 2.55 V where there are 2.5 V, and is right otherwise. -/
def highReading : Answers where
  grounded := [sampleOf 0 0]
  atReference _ := [sampleOf (255 / 100) 0]
  dmm_voltage := 5 / 2
  zeroVolts := [sampleOf 0 0]
  dmm_zeroVolts _ := 0
  volts := [sampleOf (255 / 100) 0]
  dmm_volts _ := 5 / 2
  opened := [sampleOf 0 0]
  dmm_plus _ := 1 / 10
  dmm_minus _ := -(1 / 10)
  sourced level _ := [sampleOf 0 level.amps]
  dmm_sourced level _ := level.amps

/-- Its responses. -/
def highResponse : ChannelResponse where
  measures
    | .voltage => ⟨102 / 100, 0, by norm_num⟩
    | .current => ⟨1, 0, by norm_num⟩
  sources _ := ⟨1, 0, by norm_num⟩

/-- Its name. -/
def highName : DeviceName where
  serial := ⟨"2032".toList, by decide, by decide, by decide⟩
  fwver := ⟨"2.17".toList, by decide, by decide, by decide⟩
  hwver := ⟨"F".toList, by decide, by decide, by decide⟩

/-- The readings for its sections. -/
def highPairs (i : Fin 8) : Readings where
  pairs := highReading.d i
  ne_nil := by
    revert i
    decide +kernel
  length_le := by
    revert i
    decide +kernel
  small := by
    revert i
    decide +kernel

theorem signed_highReading : highReading.Signed .A where
  atReference := by decide +kernel
  plus := by decide +kernel
  minus := by decide +kernel
  volts := by decide +kernel
  sourced_plus := by decide +kernel
  sourced_minus := by decide +kernel

theorem of_highReading : highReading.Of .A highResponse where
  grounded := by decide +kernel
  atReference := by decide +kernel
  plus := by decide +kernel
  minus := by decide +kernel
  zeroVolts := by decide +kernel
  volts := by decide +kernel
  sourced level := by
    cases level with
    | zero => decide +kernel
    | plus => decide +kernel
    | minus => decide +kernel

end CalibrationRun

end Libsmu
