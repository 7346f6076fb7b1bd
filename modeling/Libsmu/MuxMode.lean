import Libsmu.InputDecoding
import Libsmu.Lib.Machine
import Mathlib.Logic.Function.Basic

/-!
# The ADC Mux Mode of Several Devices

`set_adc_mux` is a call on a device and programs the multiplexers of that device, but it
keeps the mode in the global `ADC_MUX_Mode`, by which `handle_in_transfer` decodes the
packets of every device. All the rest that decoding reads belongs to the device.

A device by itself (`Op.alone`) decodes by the mode last set on it. The model has any
number of devices and runs any sequence of operations on them.

## Main results

* `undisturbed_of_agreeing`: a device whose transfers all come while the global mode
  agrees with its own is in the state that its own operations alone lead to.
* `disturbed_of_not_agreeing`: while the modes do not agree, there are packets that are
  decoded differently.
* `disturbed_by_another`: a mode set on one device changes the samples of another.
-/

namespace Libsmu.MuxMode

/-- A device as far as its input is concerned. -/
structure InputDevice where
  /-- the number `std::atof` finds in `m_fwver` -/
  fwver : ℚ
  m_cal : EEPROM_cal
  m_mode : Channel → Mode
  m_sample_count : ℕ
  m_in_sampleno : ℕ
  /-- record: the mux mode last set on the device -/
  adc_mux : ℕ
  /-- record: the samples pushed into `m_in_samples_q` -/
  pushed : List (Fin 4 → ℚ)

/-- A device at its construction. -/
def InputDevice.new (fwver : ℚ) : InputDevice where
  fwver := fwver
  m_cal := .default
  m_mode _ := .HI_Z
  m_sample_count := 0
  m_in_sampleno := 0
  adc_mux := 0
  pushed := []

/-- An operation on a device. -/
inductive Op
  | set_adc_mux (adc_mux : ℕ)
  /-- calibration data are read or written -/
  | calibrate (cal : EEPROM_cal)
  | set_mode (ch : Channel) (mode : Mode)
  | run (samples : ℕ)
  /-- an IN transfer is handled, with room for `room` samples in the queue -/
  | in_transfer (m_packets_per_transfer : ℕ) (buffer : ℕ → UInt8) (room : ℕ)

/-- `handle_in_transfer` by the mux mode `mux`. -/
def InputDevice.handle_in_transfer (mux packets : ℕ) (buffer : ℕ → UInt8) (room : ℕ)
    (dev : InputDevice) : InputDevice :=
  let r := (⟨dev.fwver, dev.m_cal, mux⟩ : Decoder).handle_in_transfer dev.m_sample_count
    (transferWords dev.fwver packets buffer) (fun _ => 0) room dev.m_in_sampleno
  { dev with m_in_sampleno := r.1, pushed := dev.pushed ++ r.2 }

/-- The device after an operation on it, while `ADC_MUX_Mode` is `mux`. -/
def Op.apply (mux : ℕ) (dev : InputDevice) : Op → InputDevice
  | .set_adc_mux adc_mux => if 7 < adc_mux then dev else { dev with adc_mux := adc_mux }
  | .calibrate cal => { dev with m_cal := cal }
  | .set_mode ch mode => { dev with m_mode := Function.update dev.m_mode ch mode }
  | .run samples => { dev with m_sample_count := samples, m_in_sampleno := 0 }
  | .in_transfer packets buffer room => dev.handle_in_transfer mux packets buffer room

/-- `ADC_MUX_Mode` after an operation on any device. -/
def Op.mux (mux : ℕ) : Op → ℕ
  | .set_adc_mux adc_mux => if 7 < adc_mux then mux else adc_mux
  | _ => mux

/-- The devices of a process and the mode they share. -/
structure State where
  devices : ℕ → InputDevice
  ADC_MUX_Mode : ℕ

/-- Devices with these firmware versions, before any operation. -/
def State.init (fwver : ℕ → ℚ) : State where
  devices d := .new (fwver d)
  ADC_MUX_Mode := 0

/-- The process as a machine; an action is an operation on a device. -/
def machine : Machine State (ℕ × Op) where
  step s a := some
    { devices := Function.update s.devices a.1 (a.2.apply s.ADC_MUX_Mode (s.devices a.1))
      ADC_MUX_Mode := a.2.mux s.ADC_MUX_Mode }

/-! ### A device by itself -/

/-- The device after an operation on it when the mux mode is its own. -/
def Op.alone (dev : InputDevice) (op : Op) : InputDevice := op.apply dev.adc_mux dev

/-- The operations on the device `d` in a schedule. -/
def opsOn (d : ℕ) (as : List (ℕ × Op)) : List Op :=
  (as.filter fun a => a.1 = d).map Prod.snd

theorem opsOn_concat (d : ℕ) (as : List (ℕ × Op)) (a : ℕ × Op) :
    opsOn d (as ++ [a]) = if a.1 = d then opsOn d as ++ [a.2] else opsOn d as := by
  rw [opsOn, opsOn, List.filter_append, List.map_append]
  split
  · rename_i h
    simp [h]
  · rename_i h
    simp [h]

/-- The global mode decodes packets of the device as its own mode does: the firmware is
older than 2.00, or both modes set the entries alike. -/
def State.Agreeing (s : State) (d : ℕ) : Prop :=
  (s.devices d).fwver < 2 ∨ muxReadings s.ADC_MUX_Mode = muxReadings (s.devices d).adc_mux

instance (s : State) (d : ℕ) : Decidable (s.Agreeing d) := inferInstanceAs (Decidable (_ ∨ _))

/-- An IN transfer of the device `d` is only handled while the modes agree. -/
def Undisturbed (d : ℕ) (s : State) : ℕ × Op → Prop
  | (d', .in_transfer _ _ _) => d' = d → s.Agreeing d
  | _ => True

instance (d : ℕ) (s : State) : (a : ℕ × Op) → Decidable (Undisturbed d s a)
  | (d', .in_transfer _ _ _) => inferInstanceAs (Decidable (d' = d → s.Agreeing d))
  | (_, .set_adc_mux _) | (_, .calibrate _) | (_, .set_mode _ _) | (_, .run _) => isTrue trivial

variable {s t : State} {d : ℕ}

/-- While the modes agree, a transfer is handled as by the mode of the device. -/
theorem State.Agreeing.handle_in_transfer (h : s.Agreeing d) (packets : ℕ)
    (buffer : ℕ → UInt8) (room : ℕ) :
    (s.devices d).handle_in_transfer s.ADC_MUX_Mode packets buffer room =
      (s.devices d).handle_in_transfer (s.devices d).adc_mux packets buffer room := by
  have hreadings : ∀ cal, (⟨(s.devices d).fwver, cal, s.ADC_MUX_Mode⟩ : Decoder).readings =
      (⟨(s.devices d).fwver, cal, (s.devices d).adc_mux⟩ : Decoder).readings := by
    intro cal
    rw [Decoder.readings, Decoder.readings]
    rcases h with hold | hmodes
    · rw [if_neg (not_le.mpr hold), if_neg (not_le.mpr hold)]
    · rw [hmodes]
  have hdecode := Decoder.decode_samples_congr (hreadings (s.devices d).m_cal) rfl
    (fun _ => 0) (transferWords (s.devices d).fwver packets buffer)
  simp only [InputDevice.handle_in_transfer, Decoder.handle_in_transfer_eq]
  rw [hdecode]

/-- The step lemma: an operation on another device leaves this one, and an undisturbed
operation on it takes it where its own mode does. -/
theorem devices_of_step {a : ℕ × Op} (hok : Undisturbed d s a)
    (hstep : machine.step s a = some t) :
    t.devices d = if a.1 = d then a.2.alone (s.devices d) else s.devices d := by
  obtain ⟨d', op⟩ := a
  obtain rfl := Option.some.inj hstep
  simp only
  split
  · rename_i heq
    subst heq
    rw [Function.update_self]
    cases op with
    | in_transfer packets buffer room => exact (hok rfl).handle_in_transfer packets buffer room
    | set_adc_mux adc_mux => rfl
    | calibrate cal => rfl
    | set_mode ch mode => rfl
    | run samples => rfl
  · rename_i hne
    rw [Function.update_of_ne (Ne.symm hne)]

/-- **Devices do not disturb each other while the modes agree.** If the transfers of a
device all come while the global mode agrees with its own, then after any operations on any
devices it is in the state that its own operations alone lead to, decoded by its own
mode. -/
theorem undisturbed_of_agreeing {fwver : ℕ → ℚ} {as : List (ℕ × Op)}
    (hok : machine.Meets (Undisturbed d) (State.init fwver) as)
    (hrun : machine.run (State.init fwver) as = some s) :
    s.devices d = (opsOn d as).foldl Op.alone (.new (fwver d)) := by
  refine Machine.invariant_of_history
    (fun as s => machine.Meets (Undisturbed d) (State.init fwver) as →
      s.devices d = (opsOn d as).foldl Op.alone (.new (fwver d)))
    (fun _ => rfl) ?_ hrun hok
  intro as s a t hrun ih hstep hok
  obtain ⟨hok, hlast⟩ := Machine.meets_concat_iff.mp hok
  rw [devices_of_step (hlast s hrun) hstep, ih hok, opsOn_concat]
  split
  · rw [List.foldl_append]
    rfl
  · rfl

/-- The same of two devices that are set to one mode. -/
theorem undisturbed_of_agreeing_two :
    ∃ s, machine.run (State.init fun _ => 217 / 100)
        [(0, .set_adc_mux 1), (1, .set_adc_mux 1), (1, .in_transfer 1 (fun _ => 255) 1)] =
          some s ∧
      s.devices 1 =
        [Op.set_adc_mux 1, .in_transfer 1 (fun _ => 255) 1].foldl Op.alone (.new (217 / 100)) := by
  have hok : machine.Meets (Undisturbed 1) (State.init fun _ => 217 / 100)
      [(0, .set_adc_mux 1), (1, .set_adc_mux 1), (1, .in_transfer 1 (fun _ => 255) 1)] := by
    decide +kernel
  exact ⟨_, rfl, undisturbed_of_agreeing hok rfl⟩

/-! ### Modes that do not agree -/

/-- The words `65535` of a sample tell the modes apart. -/
theorem muxReadings_eq_of_decode_eq : ∀ m m' : Fin 8,
    (∀ k, (⟨2, .default, 0⟩ : Decoder).decode 0 65535 (muxReadings m k) =
      (⟨2, .default, 0⟩ : Decoder).decode 0 65535 (muxReadings m' k)) →
    muxReadings m = muxReadings m' := by
  decide +kernel

/-- The bytes `255` make the words `65535`, whatever the firmware. -/
theorem sampleWords_const (fwver : ℚ) (p i : ℕ) :
    sampleWords fwver (fun _ => 255) p i = fun _ => 65535 := by
  have hword : (255 : UInt8).toNat <<< 8 ||| (255 : UInt8).toNat = 65535 := by decide
  exact funext fun _ => hword

/-- In a continuous run with room for one sample, the first sample of a transfer is pushed. -/
theorem pushed_of_one {mux : ℕ} {dev : InputDevice} {buffer : ℕ → UInt8}
    (hcount : dev.m_sample_count = 0) :
    (dev.handle_in_transfer mux 1 buffer 1).pushed = dev.pushed ++
      [(⟨dev.fwver, dev.m_cal, mux⟩ : Decoder).decode_sample (fun _ => 0)
        (sampleWords dev.fwver buffer 0 0)] := by
  obtain ⟨ws, hws⟩ : ∃ ws, transferWords dev.fwver 1 buffer =
      sampleWords dev.fwver buffer 0 0 :: ws := ⟨_, rfl⟩
  have hfull : ∀ (d : Decoder) (ws : List (Fin 4 → ℕ)) (samples : Fin 4 → ℚ) (sampleno : ℕ),
      (d.handle_in_transfer 0 ws samples 0 sampleno).2 = [] := by
    intro d ws samples sampleno
    cases ws <;> rfl
  simp only [InputDevice.handle_in_transfer, hcount, hws, Decoder.handle_in_transfer, true_or,
    if_true, hfull]

/-- **While the modes do not agree, a device is disturbed**: with the calibration a device
starts with, in a continuous run, a packet of the bytes `255` is not decoded as by the mode
of the device. -/
theorem disturbed_of_not_agreeing (h : ¬s.Agreeing d) (hmux : s.ADC_MUX_Mode ≤ 7)
    (hown : (s.devices d).adc_mux ≤ 7) (hcal : (s.devices d).m_cal = .default)
    (hcount : (s.devices d).m_sample_count = 0)
    (hstep : machine.step s (d, .in_transfer 1 (fun _ => 255) 1) = some t) :
    t.devices d ≠ (Op.in_transfer 1 (fun _ => 255) 1).alone (s.devices d) := by
  obtain ⟨hfwver, hmodes⟩ := not_or.mp h
  obtain rfl := Option.some.inj hstep
  intro heq
  have hreadings : ∀ cal m, (⟨(s.devices d).fwver, cal, m⟩ : Decoder).readings = muxReadings m :=
    fun cal m => if_pos (not_lt.mp hfwver)
  have hpushed := congrArg InputDevice.pushed heq
  simp only [Function.update_self, Op.alone, Op.apply, pushed_of_one hcount,
    sampleWords_const, hcal] at hpushed
  have hsample := List.head_eq_of_cons_eq (List.append_cancel_left hpushed)
  refine hmodes (muxReadings_eq_of_decode_eq ⟨_, Nat.lt_succ_of_le hmux⟩
    ⟨_, Nat.lt_succ_of_le hown⟩ fun k => ?_)
  have hk := congrFun hsample k
  simp only [Decoder.decode_sample, hreadings] at hk
  exact hk

/-- **A mode set on one device changes the samples of another**: device 0 is set to mux
mode 1, and the same packet gives device 1 other samples than without that. -/
theorem disturbed_by_another :
    (machine.run (State.init fun _ => 217 / 100)
        [(0, .set_adc_mux 1), (1, .in_transfer 1 (fun _ => 255) 1)]).map
          (fun s => (s.devices 1).pushed) ≠
      (machine.run (State.init fun _ => 217 / 100) [(1, .in_transfer 1 (fun _ => 255) 1)]).map
        fun s => (s.devices 1).pushed := by
  decide +kernel

end Libsmu.MuxMode
