import Libsmu.Configure
import Libsmu.EncodeOut
import Libsmu.Lib.WordBuffer
import Libsmu.Streaming
import Mathlib.Data.Fin.VecNotation

/-!
# Decoding the Input Samples

`handle_in_transfer` reads four 16-bit words for each sample, which firmware from 2.00 on
interleaves and older firmware sends as four blocks in a packet, and turns them into the
four entries of `samples`. What a word stands for is decided by the global `ADC_MUX_Mode`
for interleaved packets; a voltage is calibrated with `gain_p`, a current with `gain_p` or
`gain_n`, depending on its sign.

One array `samples` is used for the whole transfer, and the sign of a current is looked up
in the entry that the current is about to be written to: it is the sign of the sample
before. `alone` is what the calibration means: the sign is that of the current itself,
once the offset is taken off. Floats are read as exact rationals.

## Main results

* `handle_in_transfer_eq`: decoding does not depend on which samples are pushed.
* `memoryless_iff`: a transfer is decoded without memory exactly when it is `Steady`.
* `samples_eq_of_words_eq`: equal words in steady transfers give equal samples.
* `gain_of_the_sample_before`: two samples of equal bytes that are decoded differently.
-/

namespace Libsmu

/-! ### Signals and calibration -/

/-- The signals of a channel. -/
inductive Signal
  | voltage
  | current
  deriving DecidableEq

/-- `sl_signal_info`, as far as samples are converted with it. -/
structure SignalInfo where
  min : ℚ
  max : ℚ
  resolution : ℚ

/-- `m1000_signal_info`, the same for both channels. -/
def m1000_signal_info : Signal → SignalInfo
  | .voltage => ⟨0, 5, 5 / 65536⟩
  | .current => ⟨-(2 / 10), 2 / 10, 4 / 10 / 65536⟩

/-- The calibration data of a device. -/
structure EEPROM_cal where
  offset : Fin 8 → ℚ
  gain_p : Fin 8 → ℚ
  gain_n : Fin 8 → ℚ

/-- The calibration that a device starts with. -/
def EEPROM_cal.default : EEPROM_cal where
  offset _ := 0
  gain_p _ := 1
  gain_n _ := 1

/-- The record of the calibration for what is measured on a channel. -/
def measureRecord : Channel → Signal → Fin 8
  | .A, .voltage => 0
  | .A, .current => 1
  | .B, .voltage => 4
  | .B, .current => 5

/-- The record of the calibration for what is sourced on a channel. -/
def sourceRecord : Channel → Signal → Fin 8
  | .A, .voltage => 2
  | .A, .current => 3
  | .B, .voltage => 6
  | .B, .current => 7

/-! ### The words of a transfer -/

/-- The byte at which word `k` of sample `i` of a packet starts. -/
def wordOffset (fwver : ℚ) (i k : ℕ) : ℕ :=
  if 2 ≤ fwver then i * 8 + 2 * k else (i + chunk_size * k) * 2

/-- The words of sample `i` of packet `p`. -/
def sampleWords (fwver : ℚ) (buffer : ℕ → UInt8) (p i : ℕ) : Fin 4 → ℕ := fun k =>
  WordBuffer.getWord buffer (p * in_packet_size + wordOffset fwver i k)

/-- The samples of a transfer as the loops go through them, each as its packet and its place
in the packet. -/
def positions (m_packets_per_transfer : ℕ) : List (ℕ × ℕ) :=
  (List.range m_packets_per_transfer).flatMap fun p =>
    (List.range chunk_size).map fun i => (p, i)

/-- The words of a transfer, sample by sample. -/
def transferWords (fwver : ℚ) (m_packets_per_transfer : ℕ) (buffer : ℕ → UInt8) :
    List (Fin 4 → ℕ) :=
  (positions m_packets_per_transfer).map fun x => sampleWords fwver buffer x.1 x.2

/-! ### What a word stands for -/

/-- What an entry of `samples` holds. -/
inductive Reading
  | voltage (ch : Channel)
  | current (ch : Channel)
  /-- the word itself, scaled by 4096/65536 -/
  | raw
  /-- no branch of the decoder sets the entry -/
  | unset
  deriving DecidableEq

/-- The four entries by ADC mux mode. -/
def muxReadings : ℕ → Fin 4 → Reading
  | 0 => ![.voltage .A, .current .A, .voltage .B, .current .B]
  | 1 => ![.voltage .A, .voltage .B, .voltage .B, .voltage .A]
  | 2 => ![.current .B, .current .A, .current .A, .current .B]
  | 4 => ![.voltage .A, .current .A, .current .A, .voltage .A]
  | 5 => ![.current .B, .voltage .B, .voltage .B, .current .B]
  | 7 => ![.raw, .raw, .raw, .raw]
  | _ => ![.unset, .unset, .unset, .unset]

/-- What `handle_in_transfer` reads besides the transfer. -/
structure Decoder where
  /-- the number `std::atof` finds in `m_fwver` -/
  fwver : ℚ
  m_cal : EEPROM_cal
  ADC_MUX_Mode : ℕ

namespace Decoder

variable (d : Decoder)

/-- The four entries; packets of old firmware are decoded as in mux mode 0. -/
def readings : Fin 4 → Reading :=
  if 2 ≤ d.fwver then muxReadings d.ADC_MUX_Mode else muxReadings 0

/-- A voltage without its offset. -/
def voltsAbove (ch : Channel) (w : ℕ) : ℚ :=
  w * (m1000_signal_info .voltage).resolution - d.m_cal.offset (measureRecord ch .voltage)

/-- A current without its offset. -/
def ampsAbove (ch : Channel) (w : ℕ) : ℚ :=
  (w * (m1000_signal_info .current).resolution - 195 / 1000) * (125 / 100) -
    d.m_cal.offset (measureRecord ch .current)

/-- The gain of a current by the sign of `x`. -/
def ampsGain (ch : Channel) (x : ℚ) : ℚ :=
  if 0 < x then d.m_cal.gain_p (measureRecord ch .current)
  else d.m_cal.gain_n (measureRecord ch .current)

/-- One entry of `samples`, where `sample` is what it held before. -/
def decode (sample : ℚ) (w : ℕ) : Reading → ℚ
  | .voltage ch => d.voltsAbove ch w * d.m_cal.gain_p (measureRecord ch .voltage)
  | .current ch => d.ampsAbove ch w * d.ampsGain ch sample
  | .raw => w * (625 / 10000)
  | .unset => sample

/-- The entries of one sample. -/
def decode_sample (samples : Fin 4 → ℚ) (w : Fin 4 → ℕ) : Fin 4 → ℚ := fun k =>
  d.decode (samples k) (w k) (d.readings k)

/-- The samples decoded from words, starting with these entries. -/
def decode_samples : (Fin 4 → ℚ) → List (Fin 4 → ℕ) → List (Fin 4 → ℚ)
  | _, [] => []
  | samples, w :: ws => d.decode_sample samples w :: decode_samples (d.decode_sample samples w) ws

/-- The samples of a transfer; the array is zero at its start. -/
def samples (m_packets_per_transfer : ℕ) (buffer : ℕ → UInt8) : List (Fin 4 → ℚ) :=
  d.decode_samples (fun _ => 0) (transferWords d.fwver m_packets_per_transfer buffer)

/-- The loop of `handle_in_transfer` over the words of a transfer, with room for `room`
samples in the queue: the new `m_in_sampleno` and the samples pushed. -/
def handle_in_transfer (m_sample_count : ℕ) :
    List (Fin 4 → ℕ) → (Fin 4 → ℚ) → ℕ → ℕ → ℕ × List (Fin 4 → ℚ)
  | [], _, _, sampleno => (sampleno, [])
  | w :: ws, samples, room, sampleno =>
      let samples := d.decode_sample samples w
      let sampleno := Counter.add 64 sampleno 1
      if m_sample_count = 0 ∨ sampleno ≤ m_sample_count then
        match room with
        | 0 => (sampleno, [])
        | room + 1 =>
            let rest := handle_in_transfer m_sample_count ws samples room sampleno
            (rest.1, samples :: rest.2)
      else handle_in_transfer m_sample_count ws samples room sampleno

/-- **Decoding and queueing are independent**: the loop pushes the samples that the
decoder alone produces. -/
theorem handle_in_transfer_eq (m_sample_count : ℕ) (ws : List (Fin 4 → ℕ))
    (samples : Fin 4 → ℚ) (room sampleno : ℕ) :
    d.handle_in_transfer m_sample_count ws samples room sampleno =
      Streaming.handle_in_transfer m_sample_count (d.decode_samples samples ws) room
        sampleno := by
  induction ws generalizing samples room sampleno with
  | nil => rfl
  | cons w ws ih =>
      cases room with
      | zero => simp only [handle_in_transfer, decode_samples, Streaming.handle_in_transfer, ih]
      | succ room =>
          simp only [handle_in_transfer, decode_samples, Streaming.handle_in_transfer, ih]

/-- Decoders whose entries are set alike decode alike. -/
theorem decode_samples_congr {d d' : Decoder} (hreadings : d.readings = d'.readings)
    (hcal : d.m_cal = d'.m_cal) (samples : Fin 4 → ℚ) (ws : List (Fin 4 → ℕ)) :
    d.decode_samples samples ws = d'.decode_samples samples ws := by
  have hsample : d.decode_sample = d'.decode_sample := by
    funext samples w k
    rw [decode_sample, decode_sample, hreadings]
    cases d'.readings k <;>
      simp only [decode, voltsAbove, ampsAbove, ampsGain, hcal]
  induction ws generalizing samples with
  | nil => rfl
  | cons w ws ih => rw [decode_samples, decode_samples, hsample, ih]

/-- A sample is decoded from its words and the entries that the sample before has left. -/
theorem getElem?_decode_samples (samples : Fin 4 → ℚ) (ws : List (Fin 4 → ℕ)) (j : ℕ) :
    ∃ before, (d.decode_samples samples ws)[j]? = (ws[j]?).map (d.decode_sample before) := by
  induction ws generalizing samples j with
  | nil => exact ⟨samples, rfl⟩
  | cons w ws ih =>
      cases j with
      | zero => exact ⟨samples, rfl⟩
      | succ j => exact ih _ j

/-! ### Decoding without memory -/

/-- What a word stands for by itself: the sign of a current is its own. -/
def alone (w : ℕ) : Reading → ℚ
  | .voltage ch => d.voltsAbove ch w * d.m_cal.gain_p (measureRecord ch .voltage)
  | .current ch => d.ampsAbove ch w * d.ampsGain ch (d.ampsAbove ch w)
  | .raw => w * (625 / 10000)
  | .unset => 0

/-- What the words of a sample stand for by themselves. -/
def alone_sample (w : Fin 4 → ℕ) : Fin 4 → ℚ := fun k => d.alone (w k) (d.readings k)

/-- **Decoding without memory**: every sample of the transfer is what its own words stand
for. -/
def Memoryless (m_packets_per_transfer : ℕ) (buffer : ℕ → UInt8) : Prop :=
  d.samples m_packets_per_transfer buffer =
    (transferWords d.fwver m_packets_per_transfer buffer).map d.alone_sample

instance (m_packets_per_transfer : ℕ) (buffer : ℕ → UInt8) :
    Decidable (d.Memoryless m_packets_per_transfer buffer) :=
  inferInstanceAs (Decidable (_ = _))

/-- A current after an entry `before`: the two are both positive or both not, or the
current is at the offset, or its two gains are the same. -/
def SignKept (before : ℚ) (w : ℕ) : Reading → Prop
  | .current ch =>
      (0 < before ↔ 0 < d.ampsAbove ch w) ∨ d.ampsAbove ch w = 0 ∨
        d.m_cal.gain_p (measureRecord ch .current) = d.m_cal.gain_n (measureRecord ch .current)
  | _ => True

instance (sample : ℚ) (w : ℕ) (r : Reading) : Decidable (d.SignKept sample w r) :=
  match r with
  | .current _ => inferInstanceAs (Decidable (_ ∨ _ ∨ _))
  | .voltage _ | .raw | .unset => isTrue trivial

/-- No current of a transfer changes its sign against the sample before it, where the
sample before the first one counts as `before`. -/
def Steady : (Fin 4 → ℚ) → List (Fin 4 → ℕ) → Prop
  | _, [] => True
  | before, w :: ws =>
      (∀ k, d.SignKept (before k) (w k) (d.readings k)) ∧ Steady (d.alone_sample w) ws

instance decidableSteady : (before : Fin 4 → ℚ) → (ws : List (Fin 4 → ℕ)) →
    Decidable (d.Steady before ws)
  | _, [] => isTrue trivial
  | _, w :: ws =>
      have : Decidable (d.Steady (d.alone_sample w) ws) := decidableSteady (d.alone_sample w) ws
      inferInstanceAs (Decidable (_ ∧ _))

variable {d}

/-- One entry is decoded from its word alone exactly when the sign is kept. -/
theorem decode_eq_alone_iff {before : ℚ} {w : ℕ} {r : Reading}
    (hunset : r = .unset → before = 0) :
    d.decode before w r = d.alone w r ↔ d.SignKept before w r := by
  cases r with
  | voltage ch => exact ⟨fun _ => trivial, fun _ => rfl⟩
  | raw => exact ⟨fun _ => trivial, fun _ => rfl⟩
  | unset => exact ⟨fun _ => trivial, fun _ => hunset rfl⟩
  | current ch =>
      simp only [decode, alone, SignKept, ampsGain, mul_eq_mul_left_iff]
      by_cases hbefore : 0 < before
      · by_cases habove : 0 < d.ampsAbove ch w
        · simp [hbefore, habove]
        · simp only [hbefore, habove, if_true, if_false, iff_false, not_true, false_or]
          exact or_comm
      · by_cases habove : 0 < d.ampsAbove ch w
        · simp only [hbefore, habove, if_true, if_false, iff_true, false_or]
          rw [eq_comm]
          exact or_comm
        · simp [hbefore, habove]

/-- The same of one sample. -/
theorem decode_sample_eq_alone_iff {before : Fin 4 → ℚ} {w : Fin 4 → ℕ}
    (hunset : ∀ k, d.readings k = .unset → before k = 0) :
    d.decode_sample before w = d.alone_sample w ↔
      ∀ k, d.SignKept (before k) (w k) (d.readings k) := by
  rw [funext_iff]
  exact forall_congr' fun k => decode_eq_alone_iff (hunset k)

/-- The same of a list of samples, by induction on it: as long as the samples are decoded
from their words alone, the entry before is what the words before stand for. -/
theorem decode_samples_eq_map_iff {before : Fin 4 → ℚ} {ws : List (Fin 4 → ℕ)}
    (hunset : ∀ k, d.readings k = .unset → before k = 0) :
    d.decode_samples before ws = ws.map d.alone_sample ↔ d.Steady before ws := by
  induction ws generalizing before with
  | nil => exact ⟨fun _ => trivial, fun _ => rfl⟩
  | cons w ws ih =>
      have hnext : ∀ k, d.readings k = .unset → d.alone_sample w k = 0 := by
        intro k hk
        simp only [alone_sample, hk, alone]
      rw [decode_samples, List.map_cons, List.cons.injEq, Steady,
        decode_sample_eq_alone_iff hunset, ← ih hnext]
      refine and_congr_right fun hkept => ?_
      rw [(decode_sample_eq_alone_iff hunset).mpr hkept]

/-- **A transfer is decoded without memory exactly when it is steady**, starting from the
zero array. -/
theorem memoryless_iff (d : Decoder) (m_packets_per_transfer : ℕ) (buffer : ℕ → UInt8) :
    d.Memoryless m_packets_per_transfer buffer ↔
      d.Steady (fun _ => 0) (transferWords d.fwver m_packets_per_transfer buffer) :=
  decode_samples_eq_map_iff fun _ _ => rfl

/-- **Equal words give equal samples** in steady transfers, whatever precedes them. -/
theorem samples_eq_of_words_eq {packets packets' : ℕ} {buffer buffer' : ℕ → UInt8}
    (h : d.Steady (fun _ => 0) (transferWords d.fwver packets buffer))
    (h' : d.Steady (fun _ => 0) (transferWords d.fwver packets' buffer')) {j j' : ℕ}
    (hwords : (transferWords d.fwver packets buffer)[j]? =
      (transferWords d.fwver packets' buffer')[j']?) :
    (d.samples packets buffer)[j]? = (d.samples packets' buffer')[j']? := by
  have hmem := (memoryless_iff d packets buffer).mpr h
  have hmem' := (memoryless_iff d packets' buffer').mpr h'
  rw [Memoryless] at hmem hmem'
  rw [hmem, hmem', List.getElem?_map, List.getElem?_map, hwords]

/-- Calibration data with two gains for the current of channel A. -/
def twoGains : EEPROM_cal := { EEPROM_cal.default with gain_n := fun k => if k = 1 then 2 else 1 }

/-- **The gain of the sample before**: all bytes of the transfer are equal, the current is
positive, and the first sample is calibrated with `gain_n`, the second with `gain_p`. -/
theorem gain_of_the_sample_before :
    (transferWords (217 / 100) 1 fun _ => 255)[0]? =
        (transferWords (217 / 100) 1 fun _ => 255)[1]? ∧
      0 < (⟨217 / 100, twoGains, 0⟩ : Decoder).ampsAbove .A 65535 ∧
      ((⟨217 / 100, twoGains, 0⟩ : Decoder).samples 1 fun _ => 255)[0]? ≠
        ((⟨217 / 100, twoGains, 0⟩ : Decoder).samples 1 fun _ => 255)[1]? ∧
      ¬(⟨217 / 100, twoGains, 0⟩ : Decoder).Memoryless 1 fun _ => 255 := by
  decide +kernel

end Decoder

end Libsmu
