import Libsmu.WriteCalibration
import Mathlib.Algebra.Order.Field.Basic
import Mathlib.Tactic.FieldSimp

/-!
# The Gains of a Linear Device

A device that reads `g * x + o` where `x` is meant is put right by the offset `o` and the gain
`1 / g`. The section of such a device starts with a record of reference 0, which gives the
offset; each further record gives a gain, and the means of those with a positive and of those
with a negative reference are stored. Arithmetic is exact here.

A further record of reference 0 goes with the negative ones. It divides 0 by 0.

## Main results

* `mean_gainSums`: without references of 0, each sum is its count times `1 / g`.
* `inverts_iff`: the calibration inverts the device, without a division by zero, exactly when no
  further record has the reference 0.
-/

namespace Libsmu

variable {R : Type*} [Field R]

section Sums

variable [LinearOrder R]

/-! ### The sums -/

/-- The further records are counted by the sign of their references. -/
theorem cnt_gainSums (offset : R) (further : List (R × R)) :
    (gainSums offset further).cnt_p = further.countP (fun p => decide (0 < p.1)) ∧
      (gainSums offset further).cnt_n = further.countP (fun p => !decide (0 < p.1)) := by
  rw [gainSums]
  induction further using List.reverseRecOn with
  | nil => exact ⟨rfl, rfl⟩
  | append_singleton further p ih =>
      rw [List.foldl_concat, List.countP_append, List.countP_append, List.countP_singleton,
        List.countP_singleton, GainSums.add]
      by_cases hpos : 0 < p.1
      · rw [if_pos hpos]
        simp only [hpos, decide_true, Bool.not_true, if_true, Bool.false_eq_true, if_false]
        exact ⟨congrArg (· + 1) ih.1, ih.2⟩
      · rw [if_neg hpos]
        simp only [hpos, decide_false, Bool.not_false, if_true, Bool.false_eq_true, if_false]
        exact ⟨ih.1, congrArg (· + 1) ih.2⟩

/-- Each sum is made of gains of one value. -/
def GainSums.Mean (gain : R) (s : GainSums R) : Prop :=
  s.gain_p = s.cnt_p * gain ∧ s.gain_n = s.cnt_n * gain

/-- A record with the gain of the others. -/
theorem GainSums.Mean.add {gain offset : R} {s : GainSums R} {p : R × R}
    (h : s.Mean gain) (hp : p.1 / (p.2 - offset) = gain) : (s.add offset p).Mean gain := by
  rw [GainSums.add]
  split
  · refine ⟨?_, h.2⟩
    simp only [hp, h.1, Nat.cast_add, Nat.cast_one, add_mul, one_mul]
  · refine ⟨h.1, ?_⟩
    simp only [hp, h.2, Nat.cast_add, Nat.cast_one, add_mul, one_mul]

/-- **Records of one gain** add up to their number times the gain. -/
theorem mean_gainSums {gain offset : R} {further : List (R × R)}
    (h : ∀ p ∈ further, p.1 / (p.2 - offset) = gain) : (gainSums offset further).Mean gain := by
  rw [gainSums]
  induction further using List.reverseRecOn with
  | nil => exact ⟨by simp, by simp⟩
  | append_singleton further p ih =>
      rw [List.foldl_concat]
      refine GainSums.Mean.add (ih fun q hq => h q (List.mem_append_left _ hq)) ?_
      exact h p (List.mem_append_right _ List.mem_cons_self)

end Sums

/-! ### Linear sections -/

/-- The first record has the reference 0, and all values are `g` times the reference plus
`o`. -/
structure Linear (g o : R) (first : R × R) (further : List (R × R)) : Prop where
  zero : first.1 = 0
  line : ∀ p ∈ first :: further, p.2 = g * p.1 + o

variable {g o : R} {first : R × R} {further : List (R × R)}

/-- The offset of a linear section is the offset of the device. -/
theorem Linear.offset_eq (h : Linear g o first further) : first.2 - first.1 = o := by
  rw [h.line first List.mem_cons_self, h.zero, mul_zero, zero_add, sub_zero]

/-- Without the offset a value is the reference times `g`. -/
theorem Linear.sub_offset_eq (h : Linear g o first further) {p : R × R}
    (hp : p ∈ first :: further) : p.2 - (first.2 - first.1) = g * p.1 := by
  rw [h.offset_eq, h.line p hp, add_sub_cancel_right]

variable [LinearOrder R]

/-- What a section divides by: the values of its further records without the offset, and the
numbers of the gains in each mean. -/
def divisors (first : R × R) (further : List (R × R)) : List R :=
  let offset := first.2 - first.1
  let s := gainSums offset further
  further.map (fun p => p.2 - offset) ++ [s.cnt_p, s.cnt_n].filterMap fun (n : ℕ) =>
    if n ≠ 0 then some (n : R) else none

/-- The entry of a section takes each of its values back to the reference. -/
def Inverts (c : SectionCal R) (records : List (R × R)) : Prop :=
  ∀ p ∈ records, (0 < p.1 → (p.2 - c.offset) * c.gain_p = p.1) ∧
    (p.1 < 0 → (p.2 - c.offset) * c.gain_n = p.1)

variable [IsStrictOrderedRing R]

/-- A further record of reference 0 is one that the code divides by zero for. -/
theorem Linear.divisors_ne_zero_iff (h : Linear g o first further) (hg : 0 < g) :
    (∀ d ∈ divisors first further, d ≠ 0) ↔ ∀ p ∈ further, p.1 ≠ 0 := by
  simp only [divisors, List.mem_append, List.mem_map]
  constructor
  · rintro hdiv p hp hzero
    refine hdiv (p.2 - (first.2 - first.1)) (Or.inl ⟨p, hp, rfl⟩) ?_
    rw [h.sub_offset_eq (List.mem_cons_of_mem _ hp), hzero, mul_zero]
  · rintro hne d (⟨p, hp, rfl⟩ | hd)
    · rw [h.sub_offset_eq (List.mem_cons_of_mem _ hp)]
      exact mul_ne_zero hg.ne' (hne p hp)
    · obtain ⟨n, -, hn⟩ := List.mem_filterMap.mp hd
      split at hn
      · obtain rfl := Option.some.inj hn
        exact Nat.cast_ne_zero.mpr ‹_›
      · cases hn

/-- **The gains of a linear section** are `1 / g` wherever there are records for them. -/
theorem Linear.gains (h : Linear g o first further)
    (hne : ∀ p ∈ further, p.1 ≠ 0) :
    ((∃ p ∈ further, 0 < p.1) → (sectionCal first further).gain_p = g⁻¹) ∧
      ((∃ p ∈ further, p.1 < 0) → (sectionCal first further).gain_n = g⁻¹) := by
  have hgain : ∀ p ∈ further, p.1 / (p.2 - (first.2 - first.1)) = g⁻¹ := by
    rintro p hp
    rw [h.sub_offset_eq (List.mem_cons_of_mem _ hp), div_mul_cancel_right₀ (hne p hp)]
  obtain ⟨hsum_p, hsum_n⟩ := mean_gainSums hgain
  obtain ⟨hcnt_p, hcnt_n⟩ := cnt_gainSums (first.2 - first.1) further
  constructor
  · rintro ⟨p, hp, hpos⟩
    have hcnt : (gainSums (first.2 - first.1) further).cnt_p ≠ 0 := by
      rw [hcnt_p]
      exact (List.countP_pos_iff.mpr ⟨p, hp, decide_eq_true hpos⟩).ne'
    rw [sectionCal]
    simp only
    rw [if_pos hcnt, hsum_p, mul_div_cancel_left₀ _ (Nat.cast_ne_zero.mpr hcnt)]
  · rintro ⟨p, hp, hneg⟩
    have hcnt : (gainSums (first.2 - first.1) further).cnt_n ≠ 0 := by
      rw [hcnt_n]
      refine (List.countP_pos_iff.mpr ⟨p, hp, ?_⟩).ne'
      rw [decide_eq_false hneg.le.not_gt, Bool.not_false]
    rw [sectionCal]
    simp only
    rw [if_pos hcnt, hsum_n, mul_div_cancel_left₀ _ (Nat.cast_ne_zero.mpr hcnt)]

/-- A linear section without further references of 0 is inverted. -/
theorem Linear.inverts (h : Linear g o first further) (hg : 0 < g)
    (hne : ∀ p ∈ further, p.1 ≠ 0) : Inverts (sectionCal first further) (first :: further) := by
  obtain ⟨hgain_p, hgain_n⟩ := h.gains hne
  rintro p hp
  have hval : p.2 - (sectionCal first further).offset = g * p.1 := h.sub_offset_eq hp
  have hback : g * p.1 * g⁻¹ = p.1 := by rw [mul_comm g, mul_inv_cancel_right₀ hg.ne']
  rcases List.mem_cons.mp hp with rfl | hfurther
  · rw [h.zero]
    exact ⟨fun hpos => absurd hpos (lt_irrefl _), fun hneg => absurd hneg (lt_irrefl _)⟩
  · refine ⟨fun hpos => ?_, fun hneg => ?_⟩
    · rw [hval, hgain_p ⟨p, hfurther, hpos⟩, hback]
    · rw [hval, hgain_n ⟨p, hfurther, hneg⟩, hback]

/-! ### Sections of a file -/

/-- **The calibration inverts a linear device**: for every section of a file that is linear the
offset is right, nothing is divided by zero, every record is taken back to its reference and
records of reference 0 make no difference, exactly when no record behind the first has the
reference 0. -/
theorem inverts_iff {number : List Char → R} {stack : (ℕ → R) × (ℕ → R)} {answer : ℤ}
    {fp : List Char} {m_cal : StoredCal R} {out : Outcome R}
    (hout : write_calibration number stack answer (.file fp) m_cal = some out) (k : Fin 8)
    (hused : out.used[k.val]? = some (first :: further)) (hlinear : Linear g o first further)
    (hg : 0 < g) :
    (out.m_cal.offset k = o ∧ (∀ d ∈ divisors first further, d ≠ 0) ∧
        Inverts (out.m_cal.entry k) (first :: further) ∧
        out.m_cal.entry k = sectionCal first (further.filter fun p => p.1 ≠ 0)) ↔
      ∀ p ∈ further, p.1 ≠ 0 := by
  have hentry : out.m_cal.entry k = sectionCal first further := entry_of_used hout hused
  constructor
  · rintro ⟨-, hdiv, -⟩
    exact (hlinear.divisors_ne_zero_iff hg).mp hdiv
  · rintro hne
    have hfilter : further.filter (fun p => decide (p.1 ≠ 0)) = further :=
      List.filter_eq_self.mpr fun p hp => decide_eq_true (hne p hp)
    refine ⟨?_, (hlinear.divisors_ne_zero_iff hg).mpr hne, ?_, ?_⟩
    · exact (congrArg SectionCal.offset hentry).trans hlinear.offset_eq
    · rw [hentry]
      exact hlinear.inverts hg hne
    · rw [hfilter, hentry]

/-- A file with a section of a device that doubles and adds a half. -/
def doublingFile : List Char := "</>\n<0.0, 0.5>\n<2.0, 4.5>\n<-1.0, -1.5>\n<\\>\n".toList

/-- The calibration of the device that doubles and adds a half. -/
theorem inverts_doubling :
    ∃ out, write_calibration decimal zeros 1 (.file doublingFile) StoredCal.initial = some out ∧
      out.m_cal.offset 0 = 1 / 2 ∧
      Inverts (out.m_cal.entry 0) [(0, 1 / 2), (2, 9 / 2), (-1, -3 / 2)] := by
  have hrun : (write_calibration decimal zeros 1 (.file doublingFile) StoredCal.initial).map
      (fun out => out.used[(0 : Fin 8).val]?) =
        some (some [(0, 1 / 2), (2, 9 / 2), (-1, -3 / 2)]) := by
    decide +kernel
  obtain ⟨out, hout, hused⟩ := Option.map_eq_some_iff.mp hrun
  have hlinear : Linear (2 : ℚ) (1 / 2) (0, 1 / 2) [(2, 9 / 2), (-1, -3 / 2)] :=
    ⟨rfl, by decide +kernel⟩
  have hall := (inverts_iff hout 0 hused hlinear (by decide +kernel)).mpr (by decide +kernel)
  exact ⟨out, hout, hall.1, hall.2.2.1⟩

/-- The same with a second record of reference 0. -/
def twoZerosFile : List Char := "</>\n<0.0, 0.5>\n<0.0, 0.5>\n<-1.0, -1.5>\n<\\>\n".toList

/-- The records of its section behind the first. -/
def twoZerosFurther : List (ℚ × ℚ) := [(0, 1 / 2), (-1, -3 / 2)]

/-- **A second record of reference 0** makes the code divide by zero. -/
theorem second_zero_divides_by_zero :
    ∃ out, write_calibration decimal zeros 1 (.file twoZerosFile) StoredCal.initial = some out ∧
      out.used[0]? = some ((0, 1 / 2) :: twoZerosFurther) ∧
      Linear 2 (1 / 2) (0, 1 / 2) twoZerosFurther ∧
      ¬(out.m_cal.offset 0 = 1 / 2 ∧ (∀ d ∈ divisors (0, 1 / 2) twoZerosFurther, d ≠ 0) ∧
        Inverts (out.m_cal.entry 0) ((0, 1 / 2) :: twoZerosFurther) ∧
        out.m_cal.entry 0 =
          sectionCal (0, 1 / 2) (twoZerosFurther.filter fun p => p.1 ≠ 0)) := by
  have hrun : (write_calibration decimal zeros 1 (.file twoZerosFile) StoredCal.initial).map
      (fun out => out.used[0]?) = some (some ((0, 1 / 2) :: twoZerosFurther)) := by
    decide +kernel
  obtain ⟨out, hout, hused⟩ := Option.map_eq_some_iff.mp hrun
  refine ⟨out, hout, hused, ⟨rfl, by decide +kernel⟩, ?_⟩
  rintro ⟨-, hdiv, -⟩
  exact hdiv 0 (by decide +kernel) rfl

end Libsmu
