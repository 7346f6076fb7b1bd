import Libsmu.WireRoundTrip
import Mathlib.Data.Int.ConditionallyCompleteOrder
import Mathlib.Tactic.FieldSimp
import Mathlib.Tactic.Positivity

/-!
# Output Codes and Requests

`encode_out` calibrates a request, constrains it to the limits of the signal, scales it and
drops the fraction. Each of these is monotone but one: the calibration of a current takes its
gain by the sign of the request, before the offset is removed. The two gains of a record
meet at the offset, not at zero, so that the code may fall where the request passes zero.

## Main results

* `encode_eq`: what the second half of `encode_out` composes.
* `limited_mono`: all but the calibration is monotone.
* `follows_iff`: the codes follow the requests exactly when no code lies between what the
  two gains make of a request for no current.
* `gainsMeet_of_mul_nonpos`: so they do if the offset is on the side of the smaller gain.
-/

namespace Libsmu

/-! ### Monotone conversions -/

theorem constrain_eq {α : Type*} [LinearOrder α] (val lo hi : α) :
    constrain val lo hi = max lo (min hi val) := by
  rw [constrain, ← min_def_lt, min_comm]
  exact (max_def_lt _ _).symm.trans (max_comm _ _)

theorem constrain_mono {α : Type*} [LinearOrder α] (lo hi : α) :
    Monotone fun val => constrain val lo hi := by
  intro x y hxy
  simp only [constrain_eq]
  exact max_le_max le_rfl (min_le_min le_rfl hxy)

theorem constrain_mem {α : Type*} [LinearOrder α] {lo hi : α} (h : lo ≤ hi) (val : α) :
    lo ≤ constrain val lo hi ∧ constrain val lo hi ≤ hi := by
  rw [constrain_eq]
  exact ⟨le_max_left _ _, max_le h (min_le_left _ _)⟩

theorem constrain_of_le {α : Type*} [LinearOrder α] {val lo hi : α} (hlohi : lo ≤ hi)
    (h : hi ≤ val) : constrain val lo hi = hi := by
  rw [constrain_eq, min_eq_left h, max_eq_right hlohi]

theorem constrain_of_ge {α : Type*} [LinearOrder α] {val lo hi : α} (hlohi : lo ≤ hi)
    (h : val ≤ lo) : constrain val lo hi = lo := by
  rw [constrain_eq, min_eq_right (h.trans hlohi), max_eq_left h]

/-- Constraining moves values no further apart. -/
theorem constrain_add_le {a d lo hi : ℚ} (hd : 0 ≤ d) :
    constrain (a + d) lo hi ≤ constrain a lo hi + d := by
  rw [constrain_eq, constrain_eq]
  refine max_le ?_ ?_
  · exact (le_max_left _ _).trans (le_add_of_nonneg_right hd)
  · have hmin : min hi (a + d) ≤ min hi a + d := by
      rcases le_total hi a with h | h
      · rw [min_eq_left h]
        exact (min_le_left _ _).trans (le_add_of_nonneg_right hd)
      · rw [min_eq_right h]
        exact min_le_right _ _
    have hmax := le_max_right lo (min hi a)
    linarith

theorem toInt_of_nonneg {x : ℚ} (h : 0 ≤ x) : toInt x = ⌊x⌋ := if_neg (not_lt.mpr h)

/-- Dropping the fraction is monotone, also across zero. -/
theorem toInt_mono : Monotone toInt := by
  intro x y hxy
  by_cases hx : x < 0
  · by_cases hy : y < 0
    · rw [toInt, toInt, if_pos hx, if_pos hy]
      exact Int.ceil_mono hxy
    · rw [toInt, toInt, if_pos hx, if_neg hy]
      exact (Int.ceil_le.mpr (by exact_mod_cast hx.le)).trans
        (Int.floor_nonneg.mpr (not_lt.mp hy))
  · rw [toInt_of_nonneg (not_lt.mp hx), toInt_of_nonneg ((not_lt.mp hx).trans hxy)]
    exact Int.floor_mono hxy

/-! ### What the second half of `encode_out` composes -/

/-- What a mode sources. -/
def Mode.sources : Mode → Option Signal
  | .SVMI | .SVMI_SPLIT => some .voltage
  | .SIMV | .SIMV_SPLIT => some .current
  | .HI_Z | .HI_Z_SPLIT => none

/-- A request after the calibration. -/
def calibrated (m_cal : EEPROM_cal) (ch : Channel) (signal : Signal) (x : ℚ) : ℚ :=
  (x - m_cal.offset (sourceRecord ch signal)) *
    if signal = .voltage ∨ 0 < x then m_cal.gain_p (sourceRecord ch signal)
    else m_cal.gain_n (sourceRecord ch signal)

/-- The position of a value on the scale of the codes. -/
def level : Signal → ℚ → ℚ
  | .voltage, val => val * (1 / (m1000_signal_info .voltage).resolution)
  | .current, val => 65536 * (2 / 5 + 8 / 10 * (2 / 10) * 20 * (5 / 10) * val)

/-- The code of a value. -/
def valueCode (signal : Signal) (val : ℚ) : ℕ :=
  (constrain (toInt (level signal val)) 0 65535).toNat

/-- The code of a value that is constrained to the limits of its signal. -/
def limited (signal : Signal) (val : ℚ) : ℕ :=
  valueCode signal
    (constrain val (m1000_signal_info signal).min (m1000_signal_info signal).max)

/-- **The second half of `encode_out`**: calibrate, constrain, scale and drop the fraction. -/
theorem encode_eq (m_cal : EEPROM_cal) (ch : Channel) {mode : Mode} {signal : Signal}
    (hmode : mode.sources = some signal) (x : ℚ) :
    encode m_cal ch mode (some x) = limited signal (calibrated m_cal ch signal x) := by
  cases mode with
  | HI_Z | HI_Z_SPLIT => cases hmode
  | SVMI | SVMI_SPLIT =>
      obtain rfl := Option.some.inj hmode
      simp only [encode, limited, valueCode, level, calibrated, Option.getD_some, true_or,
        if_true]
  | SIMV | SIMV_SPLIT =>
      obtain rfl := Option.some.inj hmode
      simp only [encode, limited, valueCode, level, calibrated, Option.getD_some, reduceCtorEq,
        false_or, mul_ite]

theorem level_mono (signal : Signal) : Monotone (level signal) := by
  intro x y hxy
  cases signal with
  | voltage => exact mul_le_mul_of_nonneg_right hxy (by norm_num [m1000_signal_info])
  | current =>
      simp only [level]
      linarith

theorem valueCode_mono (signal : Signal) : Monotone (valueCode signal) := by
  intro x y hxy
  exact Int.toNat_le_toNat (constrain_mono 0 65535 (toInt_mono (level_mono signal hxy)))

/-- **All but the calibration is monotone.** -/
theorem limited_mono (signal : Signal) : Monotone (limited signal) := fun _ _ hxy =>
  valueCode_mono signal (constrain_mono _ _ hxy)

theorem info_min_le_max (signal : Signal) :
    (m1000_signal_info signal).min ≤ (m1000_signal_info signal).max := by
  cases signal with
  | voltage => norm_num [m1000_signal_info]
  | current => norm_num [m1000_signal_info]

/-- The codes of the limits. -/
example : valueCode .voltage 0 = 0 ∧ valueCode .voltage 5 = 65535 ∧
    valueCode .current (-(2 / 10)) = 5242 ∧ valueCode .current (2 / 10) = 47185 := by
  decide +kernel

/-! ### Following the requests -/

/-- All gains are positive. -/
def EEPROM_cal.Positive (m_cal : EEPROM_cal) : Prop :=
  ∀ record, 0 < m_cal.gain_p record ∧ 0 < m_cal.gain_n record

/-- The codes of a channel follow the requests. -/
structure Follows (m_cal : EEPROM_cal) (ch : Channel) (mode : Mode) (signal : Signal) : Prop where
  mono : ∀ x y : ℚ, x ≤ y → encode m_cal ch mode (some x) ≤ encode m_cal ch mode (some y)
  le : ∀ x : ℚ, encode m_cal ch mode (some x) ≤ 65535
  above : ∀ x : ℚ, (m1000_signal_info signal).max < calibrated m_cal ch signal x →
    encode m_cal ch mode (some x) = valueCode signal (m1000_signal_info signal).max
  below : ∀ x : ℚ, calibrated m_cal ch signal x < (m1000_signal_info signal).min →
    encode m_cal ch mode (some x) = valueCode signal (m1000_signal_info signal).min

/-- What a gain makes of a request for no current, on the scale of the codes. -/
def zeroLevel (offset gain : ℚ) : ℚ :=
  level .current (constrain (-offset * gain) (m1000_signal_info .current).min
    (m1000_signal_info .current).max)

/-- The condition on a calibration: the gain for negative requests brings a request for no
current to no code that the gain for positive ones does not reach. -/
def GainsMeet (m_cal : EEPROM_cal) (ch : Channel) : Signal → Prop
  | .voltage => True
  | .current => ∀ code : ℤ,
      code ≤ zeroLevel (m_cal.offset (sourceRecord ch .current))
        (m_cal.gain_n (sourceRecord ch .current)) →
      code ≤ zeroLevel (m_cal.offset (sourceRecord ch .current))
        (m_cal.gain_p (sourceRecord ch .current))

/-- The gains meet without an offset, with equal gains, and with an offset on the side of the
smaller gain. -/
theorem gainsMeet_of_mul_nonpos {m_cal : EEPROM_cal} {ch : Channel}
    (h : m_cal.offset (sourceRecord ch .current) * (m_cal.gain_p (sourceRecord ch .current) -
      m_cal.gain_n (sourceRecord ch .current)) ≤ 0) (signal : Signal) :
    GainsMeet m_cal ch signal := by
  cases signal with
  | voltage => exact trivial
  | current =>
      intro code hcode
      refine hcode.trans (level_mono .current (constrain_mono _ _ ?_))
      linarith

/-- The code of a current is the level, rounded down. -/
theorem le_limited_current {code : ℤ} {val : ℚ} :
    code ≤ limited .current val ↔ code ≤ level .current
      (constrain val (m1000_signal_info .current).min (m1000_signal_info .current).max) := by
  obtain ⟨hmin, hmax⟩ := constrain_mem (info_min_le_max .current) val
  rw [limited, valueCode]
  generalize constrain val _ _ = c at *
  have hlo : 0 ≤ level .current c := by
    simp only [level, m1000_signal_info] at *
    linarith
  have hhi : level .current c < 65535 := by
    simp only [level, m1000_signal_info] at *
    linarith
  have hfloor : ⌊level .current c⌋ < 65535 := Int.floor_lt.mpr (by exact_mod_cast hhi)
  rw [toInt_of_nonneg hlo, constrain_eq, min_eq_right hfloor.le,
    max_eq_right (Int.floor_nonneg.mpr hlo), Int.toNat_of_nonneg (Int.floor_nonneg.mpr hlo)]
  exact Int.le_floor

/-- The calibration is monotone where it has one gain. -/
theorem calibrated_mono {m_cal : EEPROM_cal} (hcal : m_cal.Positive) (ch : Channel)
    {signal : Signal} {x y : ℚ} (hxy : x ≤ y) (hside : signal = .voltage ∨ (0 < x ↔ 0 < y)) :
    calibrated m_cal ch signal x ≤ calibrated m_cal ch signal y := by
  have hsame : (signal = .voltage ∨ 0 < x) ↔ (signal = .voltage ∨ 0 < y) := by
    rcases hside with rfl | hside
    · exact iff_of_true (.inl rfl) (.inl rfl)
    · rw [hside]
  rw [calibrated, calibrated, if_congr hsame rfl rfl]
  refine mul_le_mul_of_nonneg_right (sub_le_sub_right hxy _) ?_
  split
  · exact (hcal _).1.le
  · exact (hcal _).2.le

/-- A request for no current, and what positive requests come down to. -/
theorem limited_zero_le {m_cal : EEPROM_cal} {ch : Channel} (hmeet : GainsMeet m_cal ch .current) :
    limited .current (calibrated m_cal ch .current 0) ≤
      limited .current (-m_cal.offset (sourceRecord ch .current) *
        m_cal.gain_p (sourceRecord ch .current)) := by
  have hzero : calibrated m_cal ch .current 0 = -m_cal.offset (sourceRecord ch .current) *
      m_cal.gain_n (sourceRecord ch .current) := by
    rw [calibrated, if_neg (by simp), zero_sub]
  have hle : ((limited .current (calibrated m_cal ch .current 0) : ℕ) : ℤ) ≤
      (limited .current (-m_cal.offset (sourceRecord ch .current) *
        m_cal.gain_p (sourceRecord ch .current)) : ℕ) := by
    refine le_limited_current.mpr (hmeet _ ?_)
    rw [zeroLevel, ← hzero]
    exact le_limited_current.mp le_rfl
  exact_mod_cast hle

/-- The codes rise with the requests if the gains meet. -/
theorem encode_mono {m_cal : EEPROM_cal} (hcal : m_cal.Positive) {ch : Channel} {mode : Mode}
    {signal : Signal} (hmode : mode.sources = some signal) (hmeet : GainsMeet m_cal ch signal)
    {x y : ℚ} (hxy : x ≤ y) :
    encode m_cal ch mode (some x) ≤ encode m_cal ch mode (some y) := by
  rw [encode_eq m_cal ch hmode, encode_eq m_cal ch hmode]
  by_cases hside : signal = .voltage ∨ (0 < x ↔ 0 < y)
  · exact limited_mono signal (calibrated_mono hcal ch hxy hside)
  · -- from a request that is not positive to no current, and from there to a positive one
    have hcurrent : signal = .current := by
      cases signal with
      | voltage => exact absurd (.inl rfl) hside
      | current => rfl
    subst hcurrent
    have hx : x ≤ 0 := by
      by_contra hx
      exact hside (.inr (iff_of_true (not_le.mp hx) ((not_le.mp hx).trans_le hxy)))
    have hy : 0 < y := by
      by_contra hy
      exact hside (.inr (iff_of_false (not_lt.mpr hx) hy))
    calc limited .current (calibrated m_cal ch .current x)
        ≤ limited .current (calibrated m_cal ch .current 0) :=
          limited_mono _ (calibrated_mono hcal ch hx (.inr (iff_of_false (not_lt.mpr hx)
            (lt_irrefl 0))))
      _ ≤ limited .current (-m_cal.offset (sourceRecord ch .current) *
          m_cal.gain_p (sourceRecord ch .current)) := limited_zero_le hmeet
      _ ≤ limited .current (calibrated m_cal ch .current y) := by
          refine limited_mono _ ?_
          rw [calibrated, if_pos (.inr hy)]
          exact mul_le_mul_of_nonneg_right (by linarith) (hcal _).1.le

/-- If they do not, a request that is positive but small has a lower code than none. -/
theorem exists_drop {m_cal : EEPROM_cal} (hcal : m_cal.Positive) {ch : Channel}
    (hmeet : ¬GainsMeet m_cal ch .current) :
    ∃ y : ℚ, 0 < y ∧ limited .current (calibrated m_cal ch .current y) <
      limited .current (calibrated m_cal ch .current 0) := by
  simp only [GainsMeet, not_forall, not_le] at hmeet
  obtain ⟨code, hn, hp⟩ := hmeet
  set o := m_cal.offset (sourceRecord ch .current) with ho
  set g := m_cal.gain_p (sourceRecord ch .current) with hg
  have hpos : 0 < g := (hcal _).1
  -- `d` is how much further the level may go without reaching the code
  set d := (code - zeroLevel o g) / 209715 with hd
  have hdpos : 0 < d := div_pos (sub_pos.mpr hp) (by norm_num)
  refine ⟨d / g, div_pos hdpos hpos, ?_⟩
  have hcal_y : calibrated m_cal ch .current (d / g) = -o * g + d := by
    rw [calibrated, if_pos (.inr (div_pos hdpos hpos)), ← ho, ← hg]
    field_simp
    ring
  have hzero : calibrated m_cal ch .current 0 = -o * m_cal.gain_n (sourceRecord ch .current) := by
    rw [calibrated, if_neg (by simp), zero_sub]
  rw [hcal_y, hzero]
  have hge : code ≤ limited .current (-o * m_cal.gain_n (sourceRecord ch .current)) :=
    le_limited_current.mpr hn
  have hlt : ¬code ≤ limited .current (-o * g + d) := by
    rw [le_limited_current, not_le]
    have hlip := @constrain_add_le (-o * g) d (m1000_signal_info .current).min
      (m1000_signal_info .current).max hdpos.le
    have hlevel : level .current (constrain (-o * g + d) (m1000_signal_info .current).min
        (m1000_signal_info .current).max) ≤ zeroLevel o g + 104858 * d := by
      rw [zeroLevel]
      simp only [level]
      linarith
    have hgap : 209715 * d = code - zeroLevel o g := by
      rw [hd]
      ring
    linarith
  omega

/-- **The codes follow the requests** exactly when voltages are sourced or the gains of the
current meet. -/
theorem follows_iff {m_cal : EEPROM_cal} (hcal : m_cal.Positive) (ch : Channel) {mode : Mode}
    {signal : Signal} (hmode : mode.sources = some signal) :
    Follows m_cal ch mode signal ↔ GainsMeet m_cal ch signal := by
  constructor
  · intro h
    by_contra hmeet
    cases signal with
    | voltage => exact hmeet trivial
    | current =>
        obtain ⟨y, hy, hlt⟩ := exists_drop hcal hmeet
        have hle := h.mono 0 y hy.le
        rw [encode_eq m_cal ch hmode, encode_eq m_cal ch hmode] at hle
        omega
  · intro hmeet
    refine ⟨fun x y hxy => encode_mono hcal hmode hmeet hxy, fun x => ?_, fun x hx => ?_,
      fun x hx => ?_⟩
    · have hlt := encode_lt m_cal ch mode (some x)
      omega
    · rw [encode_eq m_cal ch hmode, limited, constrain_of_le (info_min_le_max signal) hx.le]
    · rw [encode_eq m_cal ch hmode, limited, constrain_of_ge (info_min_le_max signal) hx.le]

/-- An offset of -10 mA, and a greater gain for positive currents. -/
def shifted : EEPROM_cal := ⟨fun _ => -(1 / 100), fun _ => 2, fun _ => 1⟩

/-- The gains meet, and the codes follow. -/
theorem follows_iff_shifted :
    GainsMeet shifted .A .current ∧ Follows shifted .A .SIMV .current := by
  have hmeet : GainsMeet shifted .A .current :=
    gainsMeet_of_mul_nonpos (by norm_num [shifted]) .current
  exact ⟨hmeet, (follows_iff (fun _ => by norm_num [shifted]) .A rfl).mpr hmeet⟩

/-- **A source that drops when it is asked for more**: a current with an offset of 10 mA and
different gains. -/
theorem code_drops :
    encode ⟨fun _ => 1 / 100, fun _ => 2, fun _ => 1⟩ .A .SIMV (some (1 / 10000)) <
        encode ⟨fun _ => 1 / 100, fun _ => 2, fun _ => 1⟩ .A .SIMV (some 0) ∧
      ¬Follows ⟨fun _ => 1 / 100, fun _ => 2, fun _ => 1⟩ .A .SIMV .current := by
  have hdrop : encode ⟨fun _ => 1 / 100, fun _ => 2, fun _ => 1⟩ .A .SIMV (some (1 / 10000)) <
      encode ⟨fun _ => 1 / 100, fun _ => 2, fun _ => 1⟩ .A .SIMV (some 0) := by decide +kernel
  exact ⟨hdrop, fun h => absurd (h.mono 0 (1 / 10000) (by norm_num)) (not_le.mpr hdrop)⟩

end Libsmu
