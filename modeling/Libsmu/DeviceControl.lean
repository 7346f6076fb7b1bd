import Mathlib.Logic.Function.Basic
import Libsmu.EncodeOut
import Libsmu.Session

/-!
# Control Transfers of a Device

`on`, `sync`, `run` and `off` of a device talk to it by control transfers, each of which may
fail. A call that finds one failing returns at once with the error number of that transfer,
and what it did before stays done.

A `Board` is the device object together with what the hardware was told. What the USB
answers is a parameter of each call: no call makes the same request twice, so that the
answers of a call are a function of the request. A request that fails does not reach the
hardware.

## Main results

* `set_mode_cases`: `set_mode` ends at the first of its two transfers that fails.
* `off_cases`: `off` ends at the first failing transfer that sets a mode, and has then
  neither stopped the sampling nor paused the write threads; otherwise both channels are in
  `HI_Z` and the threads are paused, whatever comes of the exception in `e_ptr`.
* `start_cases`: a device is started exactly when all its transfers work.
-/

namespace Libsmu

open Session (ENODEV Answers)

/-! ### Error numbers -/

/-- `libusb_to_errno_map`, by the numbers of the `LIBUSB_ERROR_` constants. -/
def libusb_to_errno_map : List (ℤ × ℤ) :=
  [(-2, 22),    -- INVALID_PARAM, EINVAL
    (-3, 13),   -- ACCESS, EACCES
    (-4, 19),   -- NO_DEVICE, ENODEV
    (-5, 6),    -- NOT_FOUND, ENXIO
    (-6, 16),   -- BUSY, EBUSY
    (-7, 110),  -- TIMEOUT, ETIMEDOUT
    (-8, 5),    -- OVERFLOW, EIO
    (-9, 32),   -- PIPE, EPIPE
    (-10, 4),   -- INTERRUPTED, EINTR
    (-11, 12),  -- NO_MEM, ENOMEM
    (-12, 38)]  -- NOT_SUPPORTED, ENOSYS

/-- `EIO`. -/
def EIO : ℤ := 5

/-- `LIBUSB_ERROR_NO_DEVICE`. -/
def LIBUSB_ERROR_NO_DEVICE : ℤ := -4

/-- `libusb_to_errno`. -/
def libusb_to_errno (libusb_err : ℤ) : ℤ :=
  if 0 ≤ libusb_err then libusb_err else (libusb_to_errno_map.lookup libusb_err).getD EIO

/-- `libusb_errno_or_zero`. -/
def libusb_errno_or_zero (ret : ℤ) : ℤ := if ret < 0 then -libusb_to_errno ret else 0

/-! ### The hardware and the device object -/

/-- A control transfer without its data. -/
structure Request where
  bmRequestType : ℕ
  bRequest : ℕ
  wValue : ℕ
  wIndex : ℕ
  deriving DecidableEq

/-- What the hardware was told: the mode of each channel, as far as it has one, and whether
to sample. -/
structure Hardware where
  mode : ℕ → ℕ
  sampling : Bool

/-- A request that reaches the hardware. -/
def Hardware.carryOut (r : Request) (hw : Hardware) : Hardware :=
  if r.bRequest = 0x53 then { hw with mode := Function.update hw.mode r.wValue r.wIndex }
  else if r.bRequest = 0xC5 then { hw with sampling := decide (r.wValue ≠ 0) }
  else hw

/-- `CHAN_A`. -/
def CHAN_A : ℕ := 0

/-- `CHAN_B`. -/
def CHAN_B : ℕ := 1

/-- The number of a mode. -/
def Mode.number : Mode → ℕ
  | .HI_Z => 0
  | .SVMI => 1
  | .SIMV => 2
  | .HI_Z_SPLIT => 3
  | .SVMI_SPLIT => 4
  | .SIMV_SPLIT => 5

/-- A device object, as far as its control transfers and counters are concerned, with its
hardware. -/
structure Board where
  /-- the number `std::atof` finds in `m_fwver` -/
  fwver : ℚ
  m_mode : ℕ → ℕ
  m_overcurrent : ℤ
  /-- `uint16_t` -/
  m_sof_start : ℕ
  m_sample_count : ℕ
  m_requested_sampleno : ℕ
  m_in_sampleno : ℕ
  m_out_sampleno : ℕ
  m_out_samples_stop : ℕ → ℤ
  /-- whether the write thread of a channel exists -/
  m_out_samples_thr : ℕ → Bool
  hardware : Hardware
  /-- record: how often `off` was called -/
  offs : ℕ

namespace Board

/-- A new device object on hardware that floats. -/
def new (fwver : ℚ) : Board where
  fwver := fwver
  m_mode _ := Mode.number .HI_Z
  m_overcurrent := 0
  m_sof_start := 0
  m_sample_count := 0
  m_requested_sampleno := 0
  m_in_sampleno := 0
  m_out_sampleno := 0
  m_out_samples_stop _ := 0
  m_out_samples_thr _ := false
  hardware := { mode := fun _ => 0, sampling := false }
  offs := 0

/-- `Device::ctrl_transfer`, where `ret` is what `libusb_control_transfer` returns. -/
def ctrl_transfer (ret : ℤ) (r : Request) (b : Board) : Board × ℤ :=
  if ret < 0 then (b, ret) else ({ b with hardware := b.hardware.carryOut r }, ret)

/-! ### The calls -/

/-- The setting of the feedback potentiometers for a mode. -/
def pset (mode : ℕ) : ℕ :=
  if mode = Mode.number .SIMV_SPLIT ∨ mode = Mode.number .SIMV then 0x7f7f
  else if mode = Mode.number .SVMI_SPLIT ∨ mode = Mode.number .SVMI then 0x0000
  else 0x3000

/-- The modes for which `set_mode` makes a third transfer. -/
def split_mode (mode : ℕ) : Prop :=
  mode = Mode.number .SIMV_SPLIT ∨ mode = Mode.number .SVMI_SPLIT ∨
    mode = Mode.number .HI_Z_SPLIT

instance (mode : ℕ) : Decidable (split_mode mode) :=
  inferInstanceAs (Decidable (_ ∨ _ ∨ _))

/-- The request that sets the potentiometers of a channel. -/
def psetRequest (channel mode : ℕ) : Request := ⟨0x40, 0x59, channel, pset mode⟩

/-- The request that sets the mode of a channel. -/
def modeRequest (channel mode : ℕ) : Request := ⟨0x40, 0x53, channel, mode % 3⟩

/-- The request that starts sampling, or stops it for period 0. -/
def samplingRequest (m_sam_per m_sof_start : ℕ) : Request := ⟨0x40, 0xC5, m_sam_per, m_sof_start⟩

/-- The requests of `set_mode` whose failure it reports. -/
def modeRequests (channel mode : ℕ) : List Request :=
  [psetRequest channel mode, modeRequest channel mode]

/-- `M1000_Device::set_mode`. -/
def set_mode (answers : Request → ℤ) (channel mode : ℕ) (restore : Bool) (b : Board) :
    Board × ℤ :=
  if channel ≠ CHAN_A ∧ channel ≠ CHAN_B then (b, -ENODEV)
  else
    -- set feedback potentiometers with mode heuristics
    let r := b.ctrl_transfer (answers (psetRequest channel mode)) (psetRequest channel mode)
    if r.2 < 0 then (r.1, -libusb_to_errno r.2)
    else
      -- set mode
      let r := r.1.ctrl_transfer (answers (modeRequest channel mode)) (modeRequest channel mode)
      if r.2 < 0 then (r.1, -libusb_to_errno r.2)
      else
        let split : Request := ⟨0x40, 0x51, if channel = CHAN_A then 34 else 39, 0⟩
        -- what this transfer returns is overwritten
        let b := if split_mode mode then (r.1.ctrl_transfer (answers split) split).1 else r.1
        if restore then ({ b with m_mode := Function.update b.m_mode channel mode }, 0)
        else (b, 0)

/-- `M1000_Device::read_adm1177`, where the transfer reads the byte `status`. -/
def read_adm1177 (answer : ℤ) (status : ℕ) (b : Board) : ℤ :=
  if b.fwver < 207 / 100 then 0
  else if 1 < answer then -1
  else if answer = 1 then
    let alert_bit := if 211 / 100 ≤ b.fwver then 0x8 else 0x4
    if status &&& alert_bit = 0 then 0 else answer
  else -libusb_to_errno answer

/-- What a device and its USB connection answer when it is started. -/
structure Launch where
  /-- what `libusb_set_interface_alt_setting` returns -/
  alt_setting : ℤ
  /-- the answers to the transfers of `on` -/
  on : Request → ℤ
  /-- the answer to the transfer of `sync` -/
  sync : ℤ
  /-- the location of the microframe that it reads -/
  microframe : ℕ
  /-- the answer to the transfer of `run` -/
  run : ℤ

/-- The requests of `on` whose failure it reports. -/
def onRequests (b : Board) : List Request :=
  modeRequests CHAN_A (b.m_mode CHAN_A) ++ modeRequests CHAN_B (b.m_mode CHAN_B) ++
    [samplingRequest 0 0, ⟨0x40, 0xCC, 0, 0⟩]

/-- `M1000_Device::on`. -/
def on (env : Launch) (b : Board) : Board × ℤ :=
  if env.alt_setting < 0 then (b, -libusb_to_errno env.alt_setting)
  else
    -- initialize channel modes to the default or previous setting
    let r := b.set_mode env.on CHAN_A (b.m_mode CHAN_A) true
    if r.2 < 0 then r
    else
      let r := r.1.set_mode env.on CHAN_B (r.1.m_mode CHAN_B) true
      if r.2 < 0 then r
      else
        -- make sure device isn't currently sampling
        let r := r.1.ctrl_transfer (env.on (samplingRequest 0 0)) (samplingRequest 0 0)
        if r.2 < 0 then (r.1, -libusb_to_errno r.2)
        else
          -- configure hardware to start sampling
          let r := r.1.ctrl_transfer (env.on ⟨0x40, 0xCC, 0, 0⟩) ⟨0x40, 0xCC, 0, 0⟩
          (r.1, libusb_errno_or_zero r.2)

/-- `M1000_Device::sync`. -/
def sync (env : Launch) (b : Board) : Board × ℤ :=
  let location := if env.sync < 0 then b.m_sof_start else env.microframe
  ({ b with m_sof_start := (((location >>> 3) + 0x1f) &&& 0x7FF) <<< 3 },
    libusb_errno_or_zero env.sync)

/-- What `run` does about the write thread of a channel. -/
def write_thread (channel : ℕ) (b : Board) : Board :=
  if b.m_out_samples_thr channel = false then
    { b with m_out_samples_thr := Function.update b.m_out_samples_thr channel true }
  else if b.m_out_samples_stop channel = 2 then
    { b with m_out_samples_stop := Function.update b.m_out_samples_stop channel 0 }
  else b

/-- `M1000_Device::run`. If it returns 0 the thread is on its way that submits the
transfers. -/
def run (env : Launch) (m_sam_per samples : ℕ) (b : Board) : Board × ℤ :=
  -- tell device to start sampling
  let r := b.ctrl_transfer env.run (samplingRequest m_sam_per b.m_sof_start)
  if r.2 < 0 then (r.1, -libusb_to_errno r.2)
  else
    let b : Board :=
      { r.1 with
        m_sample_count := samples
        m_requested_sampleno := 0
        m_in_sampleno := 0
        m_out_sampleno := 0 }
    ((b.write_thread CHAN_A).write_thread CHAN_B, 0)

/-- How a call ends: it returns, or throws the exception found in `e_ptr`. -/
inductive Outcome
  | returned (ret : ℤ)
  | threw
  deriving DecidableEq

/-- What `off` finds. -/
structure Shutdown where
  /-- the answers to its transfers -/
  answers : Request → ℤ
  /-- the status byte read -/
  status : ℕ
  /-- whether there is an exception in `e_ptr` -/
  e_ptr : Bool

/-- The requests of `off` that set modes. -/
def offRequests : List Request :=
  modeRequests CHAN_A (Mode.number .HI_Z) ++ modeRequests CHAN_B (Mode.number .HI_Z)

/-- `M1000_Device::off`. -/
def off (env : Shutdown) (b : Board) : Board × Outcome :=
  let b : Board := { b with offs := b.offs + 1 }
  -- determine if an overcurrent event occurred during the run, ignore errors
  let overcurrent := b.read_adm1177 (env.answers ⟨0xC0, 0x17, 0, 1⟩) env.status
  let b : Board := { b with m_overcurrent := if overcurrent < 0 then 0 else overcurrent }
  -- reset channels into high impedance mode
  let r := b.set_mode env.answers CHAN_A (Mode.number .HI_Z) false
  if r.2 < 0 then (r.1, .returned r.2)
  else
    let r := r.1.set_mode env.answers CHAN_B (Mode.number .HI_Z) false
    if r.2 < 0 then (r.1, .returned r.2)
    else
      -- tell device to stop sampling
      let r := r.1.ctrl_transfer (env.answers (samplingRequest 0 0)) (samplingRequest 0 0)
      -- pause writing samples, writing will resume on the next run() call
      let b : Board :=
        { r.1 with
          m_out_samples_stop :=
            Function.update (Function.update r.1.m_out_samples_stop CHAN_A 2) CHAN_B 2 }
      if env.e_ptr = true ∧ 0 < b.m_sample_count then (b, .threw)
      else (b, .returned (libusb_errno_or_zero r.2))

/-- What `Session::start` does with one device, which it synchronizes if there are others. -/
def start (env : Launch) (synchronized : Bool) (m_sam_per samples : ℕ) (b : Board) :
    Board × ℤ :=
  let r := b.on env
  if r.2 ≠ 0 then r
  else
    let r := if synchronized then r.1.sync env else (r.1, 0)
    if r.2 ≠ 0 then r else r.1.run env m_sam_per samples

/-- What the calls that start a device return. -/
def answers (env : Launch) (synchronized : Bool) (m_sam_per samples : ℕ) (b : Board) :
    Answers where
  on := (b.on env).2
  sync := ((b.on env).1.sync env).2
  run := ((if synchronized then ((b.on env).1.sync env).1 else (b.on env).1).run env
    m_sam_per samples).2

end Board

/-! ### Error numbers of failing transfers -/

/-- What the map says of a property of error numbers that `EIO` and every entry have. -/
theorem libusb_to_errno_of_forall {P : ℤ → ℤ → Prop} {e : ℤ} (he : e < 0) (hio : P e EIO)
    (hmap : ∀ p ∈ libusb_to_errno_map, P p.1 p.2) : P e (libusb_to_errno e) := by
  rw [libusb_to_errno, if_neg (by omega)]
  cases hlookup : libusb_to_errno_map.lookup e with
  | none => exact hio
  | some errno =>
      obtain ⟨l₁, l₂, heq, -⟩ := List.lookup_eq_some_iff.mp hlookup
      exact hmap (e, errno) (by rw [heq]; simp)

/-- A failing transfer has a positive error number. -/
theorem libusb_to_errno_pos {e : ℤ} (he : e < 0) : 0 < libusb_to_errno e :=
  libusb_to_errno_of_forall (P := fun _ errno => 0 < errno) he (by decide) (by decide)

/-- Only a device that is gone makes `ENODEV`. -/
theorem libusb_to_errno_eq_ENODEV_iff {e : ℤ} (he : e < 0) :
    libusb_to_errno e = ENODEV ↔ e = LIBUSB_ERROR_NO_DEVICE := by
  constructor
  · exact libusb_to_errno_of_forall (P := fun e errno => errno = ENODEV →
      e = LIBUSB_ERROR_NO_DEVICE) he (fun h => absurd h (by decide)) (by decide)
  · rintro rfl
    decide

/-- What the first of some requests to fail is answered, if one fails. -/
def firstFailure (answers : Request → ℤ) (requests : List Request) : Option ℤ :=
  (requests.map answers).find? fun answer => decide (answer < 0)

theorem firstFailure_nil (answers : Request → ℤ) : firstFailure answers [] = none := rfl

theorem firstFailure_cons (answers : Request → ℤ) (r : Request) (rs : List Request) :
    firstFailure answers (r :: rs) =
      if answers r < 0 then some (answers r) else firstFailure answers rs := by
  rw [firstFailure, List.map_cons, List.find?_cons]
  split
  · rename_i h
    rw [if_pos (of_decide_eq_true h)]
  · rename_i h
    rw [if_neg (of_decide_eq_false h)]
    rfl

theorem firstFailure_append (answers : Request → ℤ) (rs rs' : List Request) :
    firstFailure answers (rs ++ rs') =
      (firstFailure answers rs).or (firstFailure answers rs') := by
  rw [firstFailure, List.map_append, List.find?_append]
  rfl

/-- Requests that all work. -/
theorem firstFailure_eq_none {answers : Request → ℤ} {rs : List Request}
    (h : ∀ r, 0 ≤ answers r) : firstFailure answers rs = none := by
  rw [firstFailure, List.find?_eq_none]
  intro answer hanswer
  obtain ⟨r, -, rfl⟩ := List.mem_map.mp hanswer
  have hr := h r
  simp only [decide_eq_true_eq]
  omega

namespace Board

variable {b : Board}

/-! ### Setting a mode -/

/-- A channel of the device. -/
def IsChannel (channel : ℕ) : Prop := channel = CHAN_A ∨ channel = CHAN_B

/-- A control transfer changes the hardware alone, and that only if it works. -/
theorem ctrl_transfer_eq (ret : ℤ) (r : Request) :
    b.ctrl_transfer ret r =
      ({ b with hardware := if ret < 0 then b.hardware else b.hardware.carryOut r }, ret) := by
  rw [ctrl_transfer]
  split <;> rfl

@[simp] theorem carryOut_psetRequest (hw : Hardware) (channel mode : ℕ) :
    hw.carryOut (psetRequest channel mode) = hw := rfl

@[simp] theorem carryOut_split (hw : Hardware) (wValue : ℕ) :
    hw.carryOut ⟨0x40, 0x51, wValue, 0⟩ = hw := rfl

@[simp] theorem carryOut_modeRequest (hw : Hardware) (channel mode : ℕ) :
    hw.carryOut (modeRequest channel mode) =
      { hw with mode := Function.update hw.mode channel (mode % 3) } := rfl

@[simp] theorem carryOut_samplingRequest (hw : Hardware) (m_sam_per m_sof_start : ℕ) :
    hw.carryOut (samplingRequest m_sam_per m_sof_start) =
      { hw with sampling := decide (m_sam_per ≠ 0) } := rfl

/-- **What `set_mode` does**: if its transfers work the channel is in the mode, and kept to
be restored if so asked; at the first one that fails it returns the error, and nothing has
changed. -/
theorem set_mode_cases (answers : Request → ℤ) (b : Board) {channel : ℕ} (mode : ℕ)
    (restore : Bool) (hchannel : IsChannel channel) :
    (firstFailure answers (modeRequests channel mode) = none ∧
        b.set_mode answers channel mode restore =
          ({ b with
              m_mode := if restore then Function.update b.m_mode channel mode else b.m_mode
              hardware :=
                { b.hardware with
                  mode := Function.update b.hardware.mode channel (mode % 3) } }, 0)) ∨
      ∃ e < 0, firstFailure answers (modeRequests channel mode) = some e ∧
        b.set_mode answers channel mode restore = (b, -libusb_to_errno e) := by
  have hgood : ¬(channel ≠ CHAN_A ∧ channel ≠ CHAN_B) := by
    rcases hchannel with h | h
    · exact fun hne => hne.1 h
    · exact fun hne => hne.2 h
  rw [set_mode, if_neg hgood, modeRequests, firstFailure_cons, firstFailure_cons,
    firstFailure_nil]
  simp only [ctrl_transfer_eq, carryOut_psetRequest, carryOut_split, ite_self]
  by_cases hpset : answers (psetRequest channel mode) < 0
  · simp only [if_pos hpset]
    exact .inr ⟨_, hpset, rfl, rfl⟩
  · simp only [if_neg hpset]
    by_cases hmode : answers (modeRequest channel mode) < 0
    · simp only [if_pos hmode]
      exact .inr ⟨_, hmode, rfl, rfl⟩
    · simp only [if_neg hmode, carryOut_modeRequest]
      refine .inl ⟨trivial, ?_⟩
      cases restore with
      | false => rfl
      | true => rfl

/-! ### Starting a device -/

/-- **All transfers of a start work**: the answers to the requests of `on`, of `sync` if the
device is synchronized, and of `run`. -/
def Launch.Works (env : Launch) (synchronized : Bool) (b : Board) : Prop :=
  0 ≤ env.alt_setting ∧ firstFailure env.on b.onRequests = none ∧
    (synchronized = true → 0 ≤ env.sync) ∧ 0 ≤ env.run

instance (env : Launch) (synchronized : Bool) (b : Board) :
    Decidable (env.Works synchronized b) :=
  inferInstanceAs (Decidable (_ ∧ _ ∧ _ ∧ _))

theorem libusb_errno_or_zero_eq_zero_iff {ret : ℤ} : libusb_errno_or_zero ret = 0 ↔ 0 ≤ ret := by
  rw [libusb_errno_or_zero]
  split
  · rename_i h
    have hpos := libusb_to_errno_pos h
    constructor <;> intro <;> omega
  · constructor <;> intro <;> omega

/-- Setting a channel to the mode that is kept for it anyway changes the hardware alone. -/
theorem set_own_mode_cases (answers : Request → ℤ) {channel : ℕ} (hchannel : IsChannel channel)
    (b : Board) :
    (firstFailure answers (modeRequests channel (b.m_mode channel)) = none ∧
        ∃ hw, b.set_mode answers channel (b.m_mode channel) true =
          ({ b with hardware := hw }, 0)) ∨
      ∃ e < 0, firstFailure answers (modeRequests channel (b.m_mode channel)) = some e ∧
        b.set_mode answers channel (b.m_mode channel) true = (b, -libusb_to_errno e) := by
  rcases set_mode_cases answers b (b.m_mode channel) true hchannel with
    ⟨hnone, hset⟩ | hfail
  · rw [if_pos rfl, Function.update_eq_self] at hset
    exact .inl ⟨hnone, _, hset⟩
  · exact .inr hfail

/-- **`on`** changes the hardware, and returns 0 exactly when its transfers work. -/
theorem on_cases (env : Launch) (b : Board) :
    ∃ hw, (b.on env).1 = { b with hardware := hw } ∧
      ((b.on env).2 = 0 ↔ 0 ≤ env.alt_setting ∧ firstFailure env.on b.onRequests = none) := by
  rw [on, onRequests, firstFailure_append, firstFailure_append]
  by_cases halt : env.alt_setting < 0
  · rw [if_pos halt]
    have hpos := libusb_to_errno_pos halt
    exact ⟨b.hardware, rfl, by constructor <;> intro <;> omega⟩
  rw [if_neg halt]
  rcases set_own_mode_cases env.on (.inl rfl) b with ⟨hA, hw, hset⟩ | ⟨e, he, hA, hset⟩
  · rw [hset, hA]
    simp only [lt_irrefl, if_false, Option.none_or]
    rcases set_own_mode_cases env.on (.inr rfl) { b with hardware := hw } with
      ⟨hB, hw', hset'⟩ | ⟨e, he, hB, hset'⟩
    · rw [hset', hB, firstFailure_cons, firstFailure_cons, firstFailure_nil]
      simp only [lt_irrefl, if_false, Option.none_or, ctrl_transfer_eq]
      by_cases hstop : env.on (samplingRequest 0 0) < 0
      · simp only [if_pos hstop]
        have hpos := libusb_to_errno_pos hstop
        exact ⟨_, rfl, by simp only [reduceCtorEq, and_false, iff_false]; omega⟩
      · simp only [if_neg hstop]
        refine ⟨_, rfl, ?_⟩
        rw [libusb_errno_or_zero_eq_zero_iff]
        split <;> simp only [reduceCtorEq, and_false, iff_false, and_true] <;> omega
    · rw [hset', hB]
      have hpos := libusb_to_errno_pos he
      rw [if_pos (by omega)]
      exact ⟨_, rfl, by simp only [Option.some_or, reduceCtorEq, and_false, iff_false]; omega⟩
  · rw [hset, hA]
    have hpos := libusb_to_errno_pos he
    rw [if_pos (by omega)]
    exact ⟨_, rfl, by simp only [Option.some_or, reduceCtorEq, and_false, iff_false]; omega⟩

/-- `sync` changes the microframe to start at, and returns 0 exactly when its transfer
works. -/
theorem sync_cases (env : Launch) (b : Board) :
    ∃ location, (b.sync env).1 = { b with m_sof_start := location } ∧
      ((b.sync env).2 = 0 ↔ 0 ≤ env.sync) :=
  ⟨_, rfl, libusb_errno_or_zero_eq_zero_iff⟩

/-- The write threads of a device. -/
theorem write_thread_frame (channel : ℕ) (b : Board) :
    ∃ stop thr, b.write_thread channel =
      { b with m_out_samples_stop := stop, m_out_samples_thr := thr } := by
  rw [write_thread]
  split
  · exact ⟨_, _, rfl⟩
  · split
    · exact ⟨_, _, rfl⟩
    · exact ⟨_, _, rfl⟩

/-- What a device counts: the samples of the run, and those requested, received and sent. -/
def counters (b : Board) : ℕ × ℕ × ℕ × ℕ :=
  (b.m_sample_count, b.m_requested_sampleno, b.m_in_sampleno, b.m_out_sampleno)

/-- **`run`** starts the counters anew if its transfer works, and otherwise leaves the
device as it was. -/
theorem run_cases (env : Launch) (m_sam_per samples : ℕ) (b : Board) :
    (0 ≤ env.run ∧ (b.run env m_sam_per samples).2 = 0 ∧
        (b.run env m_sam_per samples).1.counters = (samples, 0, 0, 0)) ∨
      env.run < 0 ∧ (b.run env m_sam_per samples).2 ≠ 0 ∧
        (b.run env m_sam_per samples).1 = b := by
  rw [run, ctrl_transfer_eq]
  by_cases hrun : env.run < 0
  · simp only [if_pos hrun]
    have hpos := libusb_to_errno_pos hrun
    exact .inr ⟨hrun, by omega, trivial⟩
  · simp only [if_neg hrun]
    refine .inl ⟨by omega, trivial, ?_⟩
    obtain ⟨stop, thr, hA⟩ := write_thread_frame CHAN_A
      { b with
        hardware := b.hardware.carryOut (samplingRequest m_sam_per b.m_sof_start)
        m_sample_count := samples
        m_requested_sampleno := 0
        m_in_sampleno := 0
        m_out_sampleno := 0 }
    rw [hA]
    obtain ⟨stop', thr', hB⟩ := write_thread_frame CHAN_B _
    rw [hB]
    rfl

/-- **Starting a device** either works, and its counters start anew, or some transfer fails,
and they stay as they were. -/
theorem start_cases (env : Launch) (synchronized : Bool) (m_sam_per samples : ℕ) (b : Board) :
    (env.Works synchronized b ∧ (b.start env synchronized m_sam_per samples).2 = 0 ∧
        (b.start env synchronized m_sam_per samples).1.counters = (samples, 0, 0, 0)) ∨
      ¬env.Works synchronized b ∧ (b.start env synchronized m_sam_per samples).2 ≠ 0 ∧
        (b.start env synchronized m_sam_per samples).1.counters = b.counters := by
  obtain ⟨hw, hon, hon_iff⟩ := on_cases env b
  rw [start]
  by_cases hzero : (b.on env).2 = 0
  · have hworks := hon_iff.mp hzero
    simp only [hzero, ne_eq, not_true_eq_false, if_false, hon]
    cases synchronized with
    | false =>
        simp only [Bool.false_eq_true, if_false, not_true_eq_false]
        rcases run_cases env m_sam_per samples { b with hardware := hw } with
          ⟨hrun, hret, hcounters⟩ | ⟨hrun, hret, hsame⟩
        · exact .inl ⟨⟨hworks.1, hworks.2, by simp, hrun⟩, hret, hcounters⟩
        · exact .inr ⟨fun h => absurd h.2.2.2 (by omega), hret, by rw [hsame]; rfl⟩
    | true =>
        obtain ⟨location, hsync, hsync_iff⟩ := sync_cases env { b with hardware := hw }
        simp only [if_true]
        by_cases hzero' : (sync env { b with hardware := hw }).2 = 0
        · simp only [hzero', not_true_eq_false, if_false, hsync]
          rcases run_cases env m_sam_per samples
              { b with hardware := hw, m_sof_start := location } with
            ⟨hrun, hret, hcounters⟩ | ⟨hrun, hret, hsame⟩
          · exact .inl ⟨⟨hworks.1, hworks.2, fun _ => hsync_iff.mp hzero', hrun⟩, hret, hcounters⟩
          · exact .inr ⟨fun h => absurd h.2.2.2 (by omega), hret, by rw [hsame]; rfl⟩
        · simp only [hzero', not_false_eq_true, if_true, hsync]
          exact .inr ⟨fun h => hzero' (hsync_iff.mpr (h.2.2.1 rfl)), trivial, rfl⟩
  · simp only [hzero, ne_eq, not_false_eq_true, if_true, hon]
    exact .inr ⟨fun h => hzero (hon_iff.mpr ⟨h.1, h.2.1⟩), trivial, rfl⟩

/-- Starting a device returns the first answer that is not 0. -/
theorem start_snd (env : Launch) (synchronized : Bool) (m_sam_per samples : ℕ) (b : Board) :
    (b.start env synchronized m_sam_per samples).2 =
      if (b.answers env synchronized m_sam_per samples).on ≠ 0 then
        (b.answers env synchronized m_sam_per samples).on
      else if synchronized = true ∧ (b.answers env synchronized m_sam_per samples).sync ≠ 0 then
        (b.answers env synchronized m_sam_per samples).sync
      else (b.answers env synchronized m_sam_per samples).run := by
  simp only [start, answers]
  by_cases hon : (b.on env).2 = 0
  · simp only [hon, ne_eq, not_true_eq_false, if_false]
    cases synchronized with
    | false => simp only [Bool.false_eq_true, false_and, if_false, not_true_eq_false]
    | true =>
        simp only [if_true, true_and]
        split
        · rfl
        · rfl
  · simp only [hon, ne_eq, not_false_eq_true, if_true]

/-! ### Switching a device off -/

/-- **Off**: both channels are in `HI_Z`, the device was told to stop sampling, and its
write threads are paused. -/
structure Off (b : Board) : Prop where
  floating : b.hardware.mode CHAN_A = Mode.number .HI_Z ∧ b.hardware.mode CHAN_B = Mode.number .HI_Z
  stopped : b.hardware.sampling = false
  paused : b.m_out_samples_stop CHAN_A = 2 ∧ b.m_out_samples_stop CHAN_B = 2

/-- **What `off` does.** At the first transfer for a mode that fails it returns the error.
If none fails the device is off, unless the transfer fails that stops the sampling; and
`off` throws an exception it finds after a run of a number of samples, and returns the
answer to that transfer otherwise. -/
theorem off_cases (env : Shutdown) (b : Board) :
    (b.off env).1.offs = b.offs + 1 ∧
      ((∃ e < 0, firstFailure env.answers offRequests = some e ∧
          (b.off env).2 = .returned (-libusb_to_errno e)) ∨
        firstFailure env.answers offRequests = none ∧
          (0 ≤ env.answers (samplingRequest 0 0) → Off (b.off env).1) ∧
          (b.off env).2 = if env.e_ptr = true ∧ 0 < b.m_sample_count then .threw
            else .returned (libusb_errno_or_zero (env.answers (samplingRequest 0 0)))) := by
  simp only [off, offRequests, firstFailure_append]
  generalize ho : (if read_adm1177 _ _ _ < 0 then (0 : ℤ) else _) = overcurrent
  rcases set_mode_cases env.answers { b with offs := b.offs + 1, m_overcurrent := overcurrent }
      (Mode.number .HI_Z) false (.inl rfl) with
    ⟨hA, hset⟩ | ⟨e, he, hA, hset⟩
  · rw [hset, hA]
    simp only [lt_irrefl, if_false, Option.none_or, Bool.false_eq_true]
    rcases set_mode_cases env.answers _ (Mode.number .HI_Z) false (.inr rfl) with
      ⟨hB, hset'⟩ | ⟨e, he, hB, hset'⟩
    · rw [hset', hB]
      simp only [lt_irrefl, if_false, ctrl_transfer_eq, Bool.false_eq_true]
      refine ⟨by split <;> rfl, .inr ⟨trivial, ?_, by split <;> rfl⟩⟩
      intro hstop
      simp only [if_neg (not_lt.mpr hstop)]
      split
      · exact ⟨⟨rfl, rfl⟩, rfl, rfl, rfl⟩
      · exact ⟨⟨rfl, rfl⟩, rfl, rfl, rfl⟩
    · rw [hset', hB]
      have hpos := libusb_to_errno_pos he
      rw [if_pos (by omega)]
      exact ⟨rfl, .inl ⟨e, he, rfl, rfl⟩⟩
  · rw [hset, hA]
    have hpos := libusb_to_errno_pos he
    rw [if_pos (by omega)]
    exact ⟨rfl, .inl ⟨e, he, rfl, rfl⟩⟩

end Board

end Libsmu
